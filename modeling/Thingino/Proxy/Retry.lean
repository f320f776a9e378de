import Thingino.Proxy.Downstream

/-! Retrying a blocked `mbedtls_ssl_write`.

mbedTLS does not forget a write that would block. The record built from it stays queued;
the next call sends that record, whatever bytes it is given, and returns the length of
these. So a retry has to repeat the call. The event loop does not: it looks at the ring
again, and `rb_peek` shows more if the backend has sent more. -/
namespace Thingino.Proxy
open Lib

/-- The record that waits, and the plaintext the peer can decode. -/
structure RecordQueue where
  queued : Option (List Byte)
  peer : List Byte

/-- `mbedtls_ssl_write` with records of at most `limit` bytes. -/
def TlsLayer.recordQueue (limit : Nat) : TlsLayer RecordQueue where
  init := ⟨none, []⟩
  write t p
    | .wrote w =>
      if 0 < w ∧ w = min p.length limit then some ⟨none, t.peer ++ t.queued.getD (p.take w)⟩ else none
    | .want => some { t with queued := some (t.queued.getD (p.take limit)) }
    | .failed => some t
  bounded h := by
    obtain ⟨⟨hpos, hw⟩, -⟩ := Option.ite_none_right_eq_some.mp h
    exact ⟨hpos, hw ▸ min_le_left ..⟩

/-- A write that gets through after a blocked one was given as many bytes, up to the record
limit, as the blocked one. -/
def SameRetry (limit : Nat) (p : Pass RecordQueue) : Event → Prop
  | .write (.wrote _) => ∀ record ∈ p.conn.tls.queued, min p.conn.toTls.peek.length limit = record.length
  | _ => True

instance (limit : Nat) (p : Pass RecordQueue) (e : Event) : Decidable (SameRetry limit p e) :=
  match e with
  | .write (.wrote _) =>
    inferInstanceAs (Decidable (∀ record ∈ p.conn.tls.queued, min p.conn.toTls.peek.length limit = record.length))
  | .write .want | .write .failed | .soError _ | .handshake _ | .send _ | .read _ | .recv _ => isTrue trivial

section Retry
variable {limit : Nat} {cfg : Config}

/-- The peer has what left the ring, and the queued record is the front of the ring. -/
structure Pipe.InStep (f : Pipe RecordQueue) : Prop where
  hand : f.inHand = none
  stream : f.hist.received = f.tls.peer ++ f.queue.contents
  record : ∀ record ∈ f.tls.queued, record <+: f.queue.contents

theorem inStep_init : (Pipe.init (.recordQueue limit)).InStep := ⟨rfl, rfl, fun _ h => nomatch h⟩

/-- The record that a completed write sends is the front of the ring it consumes. -/
theorem sent_record {f : Pipe RecordQueue} (h : f.InStep) {w : Nat} (hw : w = min f.queue.peek.length limit)
    (hok : ∀ record ∈ f.tls.queued, min f.queue.peek.length limit = record.length) :
    f.tls.queued.getD (f.queue.peek.take w) = f.queue.contents.take w := by
  cases hq : f.tls.queued with
  | none =>
    rw [Option.getD_none]
    exact Queue.take_peek (hw ▸ min_le_left ..)
  | some record =>
    obtain ⟨rest, hrest⟩ := h.record record hq
    rw [Option.getD_some, ← hrest, hw, hok record hq, List.take_left]

theorem inStep_wrote {f : Pipe RecordQueue} (h : f.InStep) {w : Nat} {t : RecordQueue}
    (hok : ∀ record ∈ f.tls.queued, min f.queue.peek.length limit = record.length)
    (hwrite : (TlsLayer.recordQueue limit).write f.tls f.queue.peek (.wrote w) = some t) :
    Pipe.InStep { f with
      tls := t
      queue := f.queue.consume w
      hist := { f.hist with accepted := f.hist.accepted ++ f.queue.peek.take w } } := by
  obtain ⟨⟨-, hw⟩, ht⟩ := Option.ite_none_right_eq_some.mp hwrite
  cases ht
  refine ⟨h.hand, ?_, fun _ hq => nomatch hq⟩
  simp only [Queue.contents_consume, sent_record h hw hok]
  rw [List.append_assoc, List.take_append_drop]
  exact h.stream

theorem inStep_blocked {f : Pipe RecordQueue} (h : f.InStep) {t : RecordQueue}
    (hwrite : (TlsLayer.recordQueue limit).write f.tls f.queue.peek .want = some t) :
    Pipe.InStep { f with tls := t } := by
  cases hwrite
  refine ⟨h.hand, h.stream, fun record hq => ?_⟩
  cases hq
  cases hq : f.tls.queued with
  | none => exact (List.take_prefix ..).trans f.queue.peek_isPrefix
  | some record => exact h.record record hq

theorem inStep_step (hmode : cfg.passthru = false) (p : Pass RecordQueue) (e : Event) (f : Pipe RecordQueue)
    (h : p.pipe.InStep) (_ : p.conn.hist.eof = false) (hok : SameRetry limit p e)
    (hstep : PipeStep (.recordQueue limit) cfg.passthru p.pipe e f) : f.InStep := by
  cases hstep with
  | idle | readFailed | eof => exact ⟨h.hand, h.stream, h.record⟩
  | wrote _ hwrite => exact inStep_wrote h hok hwrite
  | blocked _ hwrite => exact inStep_blocked h hwrite
  | failed _ hwrite =>
    cases hwrite
    exact ⟨h.hand, h.stream, h.record⟩
  | buffered _ _ hfit =>
    refine ⟨h.hand, ?_, fun record hq => ?_⟩
    · simp only [Queue.contents_write_of_le hfit, h.stream, List.append_assoc]
    · simp only [Queue.contents_write_of_le hfit]
      exact (h.record record hq).trans (List.prefix_append ..)
  | held hon =>
    rw [hmode] at hon
    cases hon
  | direct hand | stashed hand | lost hand =>
    rw [h.hand] at hand
    cases hand

/-- **The client reads a prefix of the response** at all times, in a run whose writes repeat the
length of the blocked write they complete. -/
theorem retry_stream (limit : Nat) (cfg : Config) (hmode : cfg.passthru = false) (s : Server RecordQueue)
    (h : RunsTo (.recordQueue limit) cfg (SameRetry limit) s) :
    ∀ c ∈ s.everyConn, c.tls.peer <+: c.hist.received := by
  intro c hc
  obtain ⟨hand, hpipe⟩ := pipe_everyConn inStep_init (inStep_step hmode) h c hc
  exact ⟨_, hpipe.stream.symm⟩

theorem retry_stream_repeated : ∃ s, RunsTo (.recordQueue 16384) (onSocket3 .agent none) (SameRetry 16384) s ∧
    ∃ c ∈ s.everyConn, c.tls.peer = [65#8] ∧ c.tls.peer <+: c.hist.received := by
  obtain ⟨s, hrun, c, hc, hpeer⟩ : ∃ s, RunsTo (.recordQueue 16384) (onSocket3 .agent none) (SameRetry 16384) s ∧
      ∃ c ∈ s.everyConn, c.tls.peer = [65#8] :=
    exists_reach (bringUp ++ passOver [6] [] [.recv (.bytes [65#8])] ++ passOver [] [5] [.write .want] ++
      passOver [6] [5] [.write (.wrote 1), .recv (.bytes [66#8])]) (by decide)
  exact ⟨s, hrun, c, hc, hpeer, retry_stream 16384 _ (by decide) s hrun c hc⟩

/-- The write of one byte is blocked, a second byte arrives, and the retry is given both: the
peer never sees the second. -/
theorem retry_skips : ∃ s, RunsTo (.recordQueue 16384) (onSocket3 .httpdSsl none) anyCall s ∧ ∃ c ∈ s.everyConn,
    ¬c.tls.peer <+: c.hist.received :=
  exists_reach (bringUp ++ passOver [6] [] [.recv (.bytes [65#8])] ++
    passOver [6] [5] [.write .want, .recv (.bytes [66#8])] ++
    passOver [6] [5] [.write (.wrote 2), .recv (.bytes [67#8])] ++ passOver [] [5] [.write (.wrote 1)]) (by decide)

end Retry

end Thingino.Proxy
