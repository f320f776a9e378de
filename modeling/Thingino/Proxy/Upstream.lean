import Thingino.Proxy.EventServer

/-! The direction from the client to the backend.

`mbedtls_ssl_read` decrypts a whole record and hands it out in pieces. The read loop stops
when nothing of the record is left or when `to_http` is full. In the second case the rest
stays inside mbedTLS, where `select` does not see it: a pass that then sends from the ring
leaves room for bytes that nothing will fetch until the client sends more. -/
namespace Thingino.Proxy
open Lib

section Upstream
variable {ω : Type} {tls : TlsLayer ω} {cfg : Config}

/-! ### What a call does to this direction -/

namespace Pass
variable {p p' : Pass ω} {e : Event}

/-- A call that moves no byte of this direction. -/
structure Untouched (p p' : Pass ω) : Prop where
  ring : p'.conn.toHttp = p.conn.toHttp
  unread : p'.conn.pending = p.conn.pending
  state : p'.conn.state = p.conn.state ∨ p'.conn.state = .shutdown

theorem onConnect_untouched (ok : Bool) : Untouched p (p.onConnect ok) := by
  cases ok with
  | true => exact ⟨rfl, rfl, .inl rfl⟩
  | false => exact ⟨rfl, rfl, .inr rfl⟩

theorem onHandshake_untouched (r : HandshakeResult) : Untouched p (p.onHandshake cfg r) := by
  unfold onHandshake
  cases r with
  | done | wantRead | wantWrite => cases cfg.copy <;> exact ⟨rfl, rfl, .inl rfl⟩
  | failed => exact ⟨rfl, rfl, .inr rfl⟩

theorem onWrite_untouched {r : WriteResult} (h : p.onWrite tls r = some p') : Untouched p p' := by
  unfold onWrite at h
  rw [Option.map_eq_some_iff] at h
  obtain ⟨t, -, rfl⟩ := h
  cases r with
  | wrote | want => exact ⟨rfl, rfl, .inl rfl⟩
  | failed => exact ⟨rfl, rfl, .inr rfl⟩

theorem onPassthru_untouched {rest : List Byte} {full : Bool} {r : WriteResult}
    (h : p.onPassthru tls rest full r = some p') : Untouched p p' := by
  unfold onPassthru at h
  rw [Option.map_eq_some_iff] at h
  obtain ⟨t, -, rfl⟩ := h
  cases r with
  | wrote | want => exact ⟨rfl, rfl, .inl rfl⟩
  | failed => exact ⟨rfl, rfl, .inr rfl⟩

theorem onRecv_untouched {r : RecvResult} (h : p.onRecv cfg r = some p') : Untouched p p' := by
  cases r with
  | bytes b =>
    obtain ⟨-, h⟩ := Option.ite_none_right_eq_some.mp h
    split at h
    · cases h
      exact ⟨rfl, rfl, .inl rfl⟩
    · cases h
      exact ⟨rfl, rfl, .inl rfl⟩
  | again =>
    cases h
    exact ⟨rfl, rfl, .inl rfl⟩
  | eof | failed =>
    cases h
    exact ⟨rfl, rfl, .inr rfl⟩

theorem onSend_upstream {r : SendResult} (h : p.onSend r = some p') :
    Untouched p p' ∨ ∃ s, r = .sent s ∧ p'.conn = { p.conn with toHttp := p.conn.toHttp.consume s } := by
  cases r with
  | sent s =>
    obtain ⟨-, h⟩ := Option.ite_none_right_eq_some.mp h
    cases h
    exact .inr ⟨s, rfl, rfl⟩
  | again =>
    cases h
    exact .inl ⟨rfl, rfl, .inl rfl⟩
  | failed =>
    cases h
    exact .inl ⟨rfl, rfl, .inr rfl⟩

theorem onRead_upstream {r : ReadResult} (h : p.onRead r = some p') :
    (Untouched p p' ∧ (p.conn.pending = [] ∨ p'.conn.state = .shutdown)) ∨ ∃ avail, p' = p.gotRecord avail := by
  cases r with
  | record bytes =>
    obtain ⟨-, h⟩ := Option.ite_none_right_eq_some.mp h
    exact .inr ⟨bytes, (Option.some.inj h).symm⟩
  | unread =>
    obtain ⟨-, h⟩ := Option.ite_none_right_eq_some.mp h
    exact .inr ⟨_, (Option.some.inj h).symm⟩
  | want =>
    obtain ⟨hnil, h⟩ := Option.ite_none_right_eq_some.mp h
    cases h
    exact .inl ⟨⟨rfl, rfl, .inl rfl⟩, .inl hnil⟩
  | eof =>
    obtain ⟨hnil, h⟩ := Option.ite_none_right_eq_some.mp h
    cases h
    exact .inl ⟨⟨rfl, rfl, .inr rfl⟩, .inl hnil⟩
  | failed =>
    cases h
    exact .inl ⟨⟨rfl, rfl, .inr rfl⟩, .inr rfl⟩

/-- What a call may do: read a piece of a record, send from the ring, or neither. Outside of
the first two, the read loop ends only with nothing unread or with the connection. -/
theorem step_upstream (h : p.step tls cfg e = some p') :
    (Untouched p p' ∧ (p.phase ≠ .readTls ∨ p.conn.pending = [] ∨ p'.conn.state = .shutdown)) ∨
      (∃ avail, p' = p.gotRecord avail) ∨
      ∃ s, e = .send (.sent s) ∧ p'.conn = { p.conn with toHttp := p.conn.toHttp.consume s } := by
  have helsewhere (phase : Phase) (hphase : p.phase = phase) (hne : phase ≠ .readTls) :
      p.phase ≠ .readTls ∨ p.conn.pending = [] ∨ p'.conn.state = .shutdown := .inl (hphase ▸ hne)
  cases e with
  | soError ok =>
    obtain ⟨hphase, h⟩ := Option.ite_none_right_eq_some.mp h
    exact .inl ⟨Option.some.inj h ▸ onConnect_untouched ok, helsewhere _ hphase nofun⟩
  | handshake r =>
    obtain ⟨hphase, h⟩ := Option.ite_none_right_eq_some.mp h
    exact .inl ⟨Option.some.inj h ▸ onHandshake_untouched r, helsewhere _ hphase nofun⟩
  | send r =>
    obtain ⟨hphase, h⟩ := Option.ite_none_right_eq_some.mp h
    obtain huntouched | ⟨s, rfl, hconn⟩ := onSend_upstream h
    · exact .inl ⟨huntouched, helsewhere _ hphase nofun⟩
    · exact .inr (.inr ⟨s, rfl, hconn⟩)
  | write r =>
    simp only [step] at h
    split at h
    · rename_i hphase
      exact .inl ⟨onWrite_untouched h, helsewhere _ hphase nofun⟩
    · rename_i rest full hphase
      exact .inl ⟨onPassthru_untouched h, helsewhere _ hphase nofun⟩
    · cases h
  | read r =>
    obtain ⟨-, h⟩ := Option.ite_none_right_eq_some.mp h
    obtain ⟨huntouched, hend⟩ | hrecord := onRead_upstream h
    · exact .inl ⟨huntouched, .inr hend⟩
    · exact .inr (.inl hrecord)
  | recv r =>
    obtain ⟨hphase, h⟩ := Option.ite_none_right_eq_some.mp h
    exact .inl ⟨onRecv_untouched h, helsewhere _ hphase nofun⟩

/-- Nothing brings a connection back from `C_SHUTDOWN`. -/
theorem step_shutdown (h : p.step tls cfg e = some p') (hstate : p.conn.state = .shutdown) :
    p'.conn.state = .shutdown := by
  obtain ⟨huntouched, -⟩ | ⟨avail, rfl⟩ | ⟨s, -, hconn⟩ := step_upstream h
  · obtain hsame | hshut := huntouched.state
    · rw [hsame, hstate]
    · exact hshut
  · exact hstate
  · rw [hconn]
    exact hstate

end Pass

/-- Nothing is sent from `to_http` while mbedTLS holds unread bytes. -/
def SendWhenRead (p : Pass ω) : Event → Prop
  | .send (.sent _) => p.conn.pending = []
  | _ => True

instance (p : Pass ω) (e : Event) : Decidable (SendWhenRead p e) :=
  match e with
  | .send (.sent _) => inferInstanceAs (Decidable (p.conn.pending = []))
  | .send .again | .send .failed | .soError _ | .handshake _ | .write _ | .read _ | .recv _ => isTrue trivial

/-- Bytes stay unread only behind a full ring, or in the read loop. -/
def unreadInvariant (tls : TlsLayer ω) (cfg : Config) : ConnInvariant tls cfg SendWhenRead where
  rest c := c.pending ≠ [] → c.toHttp.space = 0
  pass p := p.conn.state ≠ .shutdown → p.conn.pending ≠ [] → p.conn.toHttp.space = 0 ∨ p.phase = .readTls
  gone _ := True
  fresh cfd hfd := by
    have hpending : (newConn tls cfg cfd hfd).pending = [] := by
      unfold newConn
      cases cfg.copy <;> rfl
    exact fun hne => absurd hpending hne
  rejected _ _ := trivial
  start _ _ _ h _ hne := .inl (h hne)
  step p e p' h hok hp := by
    intro hstate hne
    have hbefore : p.conn.state ≠ .shutdown := fun hs => hstate (Pass.step_shutdown hp hs)
    obtain ⟨huntouched, hcall⟩ | ⟨avail, rfl⟩ | ⟨s, rfl, hconn⟩ := Pass.step_upstream hp
    · rw [huntouched.unread] at hne
      rw [huntouched.ring]
      have hphase : p.phase ≠ .readTls := hcall.resolve_right (not_or.mpr ⟨hne, hstate⟩)
      exact .inl ((h hbefore hne).resolve_right hphase)
    · by_cases hspace : 0 < (p.gotRecord avail).conn.toHttp.space
      · exact .inr (if_pos ⟨hne, hspace⟩)
      · exact .inl (Nat.eq_zero_of_not_pos hspace)
    · rw [hconn] at hne
      exact absurd hok hne
  keep p h hphase hstate hne := (h hstate hne).resolve_right (by rw [hphase]; exact nofun)
  close _ _ _ _ := trivial
  quit _ _ := trivial

/-- **No request byte is stranded** in a run that sends from the ring only when mbedTLS has
nothing unread: at `select`, a connection with room has nothing to fetch. -/
theorem select_nothing_unread (tls : TlsLayer ω) (cfg : Config) (s : Server ω) (h : RunsTo tls cfg SendWhenRead s) :
    ∀ c ∈ s.selecting, c.tlsDone = true → c.httpConnected = true → 0 < c.toHttp.space → c.pending = [] := by
  intro c hc _ _ hspace
  have hrest := ((unreadInvariant tls cfg).holds h).resting c (ConnInvariant.resting_of_selecting hc)
  by_contra hne
  exact absurd (hrest hne) (Nat.pos_iff_ne_zero.mp hspace)

theorem select_nothing_unread_sent : ∃ s, RunsTo .ideal (onSocket3 .agent none) SendWhenRead s ∧
    ∃ c ∈ s.selecting, c.toHttp.size = 1 ∧ c.pending = [] := by
  obtain ⟨s, hrun, c, hc, hsize, htls, hhttp, hspace⟩ : ∃ s, RunsTo .ideal (onSocket3 .agent none) SendWhenRead s ∧
      ∃ c ∈ s.selecting, c.toHttp.size = 1 ∧ c.tlsDone = true ∧ c.httpConnected = true ∧ 0 < c.toHttp.space :=
    exists_reach (bringUp ++ passOver [5] [] [.read (.record [71#8, 69#8])] ++
      passOver [] [6] [.send (.sent 1), .send .again]) (by decide)
  exact ⟨s, hrun, c, hc, hsize, select_nothing_unread _ _ s hrun c hc htls hhttp hspace⟩

/-! ### Bytes behind a full ring -/

theorem runsTo_calls {start p : Pass ω} {rfds wfds : List Int} {front todo closed : List (Conn ω)}
    (h : RunsTo tls cfg anyCall ⟨.drive rfds wfds front start todo, closed⟩)
    (hpass : Reach (Pass.step tls cfg) anyCall start p) :
    RunsTo tls cfg anyCall ⟨.drive rfds wfds front p todo, closed⟩ := by
  induction hpass with
  | start => exact h
  | @next p p' e _ _ hstep ih =>
    refine ih.next (e := .io e) (fun _ _ => trivial) ?_
    simp only [Server.step, hstep, Option.map_some]

/-- A pass that ends with the connection open is a turn of a loop that has only this one. -/
theorem runsTo_pass {c : Conn ω} {p : Pass ω} (rfds wfds : List Int) {closed : List (Conn ω)}
    (h : RunsTo tls cfg anyCall ⟨.select [c], closed⟩) (hlisten : cfg.listenFd ∉ rfds)
    (hread : ∀ fd ∈ rfds, fd ∈ requestRead cfg c) (hwrite : ∀ fd ∈ wfds, fd ∈ requestWrite cfg c)
    (hpass : Reach (Pass.step tls cfg) anyCall (.start rfds wfds c) p) (hphase : p.phase = .finish)
    (hstate : p.conn.state ≠ .shutdown) : RunsTo tls cfg anyCall ⟨.select [p.conn], closed⟩ := by
  have hsweep : RunsTo tls cfg anyCall ⟨.sweep rfds wfds [] [c], closed⟩ := by
    refine h.next (e := .ready rfds wfds) trivial ?_
    simp only [Server.step, Server.onReady, List.flatMap_singleton]
    rw [if_pos ⟨fun fd hfd => List.mem_append_right _ (hread fd hfd), hwrite⟩, if_neg (fun hl => hlisten hl.2)]
  have hdrive : RunsTo tls cfg anyCall ⟨.drive rfds wfds [] p [], closed⟩ :=
    runsTo_calls (hsweep.next (e := .turn) trivial rfl) hpass
  have hend : RunsTo tls cfg anyCall ⟨.sweep rfds wfds [p.conn] [], closed⟩ := by
    refine hdrive.next (e := .turn) trivial ?_
    simp only [Server.step, if_pos hphase, Server.endPass, if_neg hstate, List.nil_append]
  exact hend.next (e := .turn) trivial rfl

end Upstream

section Stranded

/-- A connection on sockets 5 and 6 with both sides up. -/
structure Forwarding (c : Conn Unit) : Prop where
  state : c.state = .handshake
  tlsDone : c.tlsDone = true
  httpConnected : c.httpConnected = true
  clientFd : c.clientFd = 5
  httpFd : c.httpFd = 6

/-- A run of `thingino-httpd-ssl` leads to `select` with this one connection. -/
def Alone (c : Conn Unit) : Prop := Forwarding c ∧ RunsTo .ideal (onSocket3 .httpdSsl none) anyCall ⟨.select [c], []⟩

theorem alone_bringUp : ∃ c, Alone c ∧ c.pending = [] ∧ c.toHttp.contents = [] := by
  refine ⟨{ newConn .ideal (onSocket3 .httpdSsl none) 5 6 with httpConnected := true, tlsDone := true },
    ⟨⟨rfl, rfl, rfl, rfl, rfl⟩, ?_⟩, rfl, rfl⟩
  have hrun : run (Server.step .ideal (onSocket3 .httpdSsl none)) (duringPass anyCall) .init bringUp = some _ := rfl
  exact reach_run .start hrun

/-- A record arrives. The read loop takes what fits, and ends. -/
theorem alone_record {c : Conn Unit} (h : Alone c) (hspace : 0 < c.toHttp.space) (hread : c.pending = [])
    {bytes : List Byte} (hbytes : bytes ≠ []) {q : Queue} {rest : List Byte}
    (hq : q = c.toHttp.write (bytes.take (min c.toHttp.space tmpRead)))
    (hrest : rest = bytes.drop (min c.toHttp.space tmpRead)) (hend : rest = [] ∨ q.space = 0) :
    Alone { c with toHttp := q, pending := rest } := by
  obtain ⟨hc, hrun⟩ := h
  have hstart : Pass.start [5] [] c = ⟨c, ⟨true, false, false, false⟩, .readTls⟩ := by
    simp [Pass.start, readiness, enterConnect, enterHandshake, enterForward, enterSendHttp, enterWriteTls,
      enterReadTls, hc.state, hc.tlsDone, hc.httpConnected, hc.clientFd, hc.httpFd, hspace]
  have hgot : Pass.gotRecord ⟨c, ⟨true, false, false, false⟩, .readTls⟩ bytes =
      ⟨{ c with toHttp := q, pending := rest }, ⟨true, false, false, false⟩, .finish⟩ := by
    simp only [Pass.gotRecord, ← hq, ← hrest]
    rw [if_neg (by rcases hend with h | h <;> simp [h])]
    rfl
  refine ⟨⟨hc.state, hc.tlsDone, hc.httpConnected, hc.clientFd, hc.httpFd⟩, ?_⟩
  refine runsTo_pass (p := ⟨_, ⟨true, false, false, false⟩, .finish⟩) [5] [] hrun (by decide) ?_ (List.forall_mem_nil _) ?_ rfl ?_
  · simp [requestRead, hc.state, hc.tlsDone, hc.clientFd, hspace]
  · rw [hstart]
    refine Reach.start.next (e := .read (.record bytes)) trivial ?_
    simp only [Pass.step, Pass.onRead, if_true]
    rw [if_pos ⟨hread, hbytes⟩, hgot]
  · rw [hc.state]
    decide

/-- The backend takes one byte and no more. -/
theorem alone_sent {c : Conn Unit} (h : Alone c) (hsize : 1 < c.toHttp.contents.length) :
    Alone { c with toHttp := c.toHttp.consume 1 } := by
  obtain ⟨hc, hrun⟩ := h
  have hpos : 0 < c.toHttp.size := by
    rw [Queue.size_eq]
    omega
  have hshown : 1 ≤ c.toHttp.peek.length := List.length_pos_of_ne_nil (Queue.peek_ne_nil (by omega))
  have hleft : (c.toHttp.consume 1).peek ≠ [] := by
    refine Queue.peek_ne_nil ?_
    rw [Queue.contents_consume, List.length_drop]
    omega
  have hstart : Pass.start [] [6] c = ⟨c, ⟨false, false, false, true⟩, .sendHttp⟩ := by
    simp [Pass.start, readiness, enterConnect, enterHandshake, enterForward, enterSendHttp, hc.state, hc.tlsDone,
      hc.httpConnected, hc.clientFd, hc.httpFd, hpos]
  refine ⟨⟨hc.state, hc.tlsDone, hc.httpConnected, hc.clientFd, hc.httpFd⟩, ?_⟩
  refine runsTo_pass (p := ⟨_, ⟨false, false, false, true⟩, .finish⟩) [] [6] hrun (by decide) (List.forall_mem_nil _) ?_ ?_ rfl ?_
  · simp [requestWrite, hc.state, hc.tlsDone, hc.httpConnected, hc.httpFd, hpos]
  · rw [hstart]
    have hsent : Reach (Pass.step .ideal (onSocket3 .httpdSsl none)) anyCall
        ⟨c, ⟨false, false, false, true⟩, .sendHttp⟩
        ⟨{ c with toHttp := c.toHttp.consume 1 }, ⟨false, false, false, true⟩, .sendHttp⟩ := by
      refine Reach.start.next (e := .send (.sent 1)) trivial ?_
      simp only [Pass.step, Pass.onSend, if_true]
      rw [if_pos ⟨Nat.one_pos, hshown⟩, if_neg hleft]
    exact hsent.next (e := .send .again) trivial rfl
  · rw [hc.state]
    decide

/-- One-byte records fill the ring to any level. -/
theorem alone_fill (n : Nat) (hn : n ≤ rbufSize) : ∃ c, Alone c ∧ c.pending = [] ∧ c.toHttp.contents.length = n := by
  induction n with
  | zero =>
    obtain ⟨c, hc, hread, hempty⟩ := alone_bringUp
    exact ⟨c, hc, hread, by rw [hempty]; rfl⟩
  | succ n ih =>
    obtain ⟨c, hc, hread, hlen⟩ := ih (by omega)
    have hspace : 0 < c.toHttp.space := by
      rw [Queue.space_eq]
      omega
    have hfit : [71#8].length ≤ c.toHttp.space := hspace
    have hone : [71#8].length ≤ min c.toHttp.space tmpRead := le_min hspace (by decide)
    refine ⟨_, alone_record hc hspace hread (List.cons_ne_nil 71#8 []) rfl rfl (.inl ?_), ?_, ?_⟩
    · exact List.drop_eq_nil_of_le hone
    · exact List.drop_eq_nil_of_le hone
    · dsimp only
      rw [List.take_of_length_le hone, Queue.contents_write_of_le hfit, List.length_append, hlen]
      rfl

/-- A record of two bytes meets a ring with room for one. The other is still inside mbedTLS
when the backend takes a byte, and `select` is called with room in the ring. -/
theorem select_unread : ∃ s, RunsTo .ideal (onSocket3 .httpdSsl none) anyCall s ∧ ∃ c ∈ s.selecting,
    c.tlsDone = true ∧ c.httpConnected = true ∧ 0 < c.toHttp.space ∧ c.pending ≠ [] := by
  obtain ⟨c, hc, hread, hlen⟩ := alone_fill (rbufSize - 1) (by decide)
  have hspace : c.toHttp.space = 1 := by
    rw [Queue.space_eq, hlen]
    rfl
  have hone : min c.toHttp.space tmpRead = 1 := by
    rw [hspace]
    rfl
  obtain ⟨q, hq⟩ : ∃ q, q = c.toHttp.write ([71#8, 69#8].take (min c.toHttp.space tmpRead)) := ⟨_, rfl⟩
  have hfull : q.contents.length = rbufSize := by
    rw [hq, hone, Queue.contents_write_of_le (by rw [hspace]; decide), List.length_append, hlen]
    rfl
  have hunread := alone_record hc (by omega) hread (List.cons_ne_nil 71#8 [69#8]) hq (by rw [hone])
    (.inr (by rw [Queue.space_eq, hfull]; rfl))
  have hsent := alone_sent hunread (by rw [hfull]; decide)
  refine ⟨_, hsent.2, _, List.mem_singleton_self _, hsent.1.tlsDone, hsent.1.httpConnected, ?_, List.cons_ne_nil _ _⟩
  rw [Queue.space_eq, Queue.contents_consume, List.length_drop, hfull]
  decide

end Stranded

end Thingino.Proxy
