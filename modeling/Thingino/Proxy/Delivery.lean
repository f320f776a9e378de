import Thingino.Proxy.Downstream

/-! What the proxy delivers to the client.

Every byte that came from the backend is accepted by the TLS layer, in the ring or in hand
(`Pipe.level`), as long as no write fails: the ring takes a whole `recv` because `recv` is
asked for no more than fits. Two things can still go wrong. `recv` returning 0 closes the
connection at once, with whatever is in the ring. And in passthru mode a direct write can
overtake bytes that an earlier blocked write left in the ring. -/
namespace Thingino.Proxy
open Lib

section Delivery
variable {ω : Type} {tls : TlsLayer ω} {cfg : Config}

/-! ### The balance of the pipe -/

/-- What was accepted, then what waits. -/
def Pipe.level (f : Pipe ω) : List Byte := f.hist.accepted ++ f.queue.contents ++ f.inHand.getD []

/-- The ring can take what is in hand, and has taken all it was given. -/
structure Pipe.Fits (f : Pipe ω) : Prop where
  room : ∀ rest, f.inHand = some rest → rest.length ≤ f.queue.space
  whole : f.hist.dropped = []

theorem fits_init : (Pipe.init tls).Fits := ⟨fun _ h => (nomatch h), rfl⟩

theorem drop_taken {q : Queue} {b : List Byte} (h : b.length ≤ q.space) : b.drop (q.taken b) = [] := by
  rw [Queue.taken_eq, min_eq_left h, List.drop_length]

namespace PipeStep
variable {passthru : Bool} {f f' : Pipe ω} {e : Event}

theorem fits (h : PipeStep tls passthru f e f') (hfits : f.Fits) : f'.Fits := by
  cases h with
  | idle | readFailed | blocked | failed | eof => exact ⟨hfits.room, hfits.whole⟩
  | wrote hand =>
    refine ⟨fun rest hrest => ?_, hfits.whole⟩
    rw [hand] at hrest
    cases hrest
  | buffered _ hand hfit =>
    refine ⟨fun rest hrest => ?_, ?_⟩
    · rw [hand] at hrest
      cases hrest
    · simp only [hfits.whole, drop_taken hfit, List.append_nil]
  | held _ _ hfit => exact ⟨fun rest hrest => Option.some.inj hrest ▸ hfit, hfits.whole⟩
  | direct hand =>
    refine ⟨fun rest hrest => ?_, hfits.whole⟩
    dsimp only at hrest
    split at hrest
    · cases hrest
    · cases hrest
      exact le_trans (List.drop_sublist ..).length_le (hfits.room _ hand)
  | stashed hand =>
    refine ⟨fun _ hrest => (nomatch hrest), ?_⟩
    simp only [hfits.whole, drop_taken (hfits.room _ hand), List.append_nil]
  | lost => exact ⟨fun _ hrest => (nomatch hrest), hfits.whole⟩

/-- A direct write while the ring is not empty. -/
def Overtakes (f : Pipe ω) (e : Event) : Prop := (∃ w, e = .write (.wrote w)) ∧ f.inHand ≠ none ∧ f.queue.contents ≠ []

/-- What a step may do to the bytes of the pipe: new ones come in at the end, and only a
direct write that overtakes the ring changes the order. -/
def Moves (f : Pipe ω) (e : Event) (f' : Pipe ω) : Prop :=
  ∃ new, f'.hist.received = f.hist.received ++ new ∧ f'.level.Perm (f.level ++ new) ∧
    (¬Overtakes f e → f'.level = f.level ++ new)

theorem moves_of_eq {new : List Byte} (hreceived : f'.hist.received = f.hist.received ++ new)
    (hlevel : f'.level = f.level ++ new) : Moves f e f' :=
  ⟨new, hreceived, hlevel ▸ .refl _, fun _ => hlevel⟩

/-- A step within the pipe, in order. -/
theorem moves_within (hreceived : f'.hist.received = f.hist.received) (hlevel : f'.level = f.level) : Moves f e f' :=
  moves_of_eq (hreceived.trans (List.append_nil _).symm) (hlevel.trans (List.append_nil _).symm)

theorem moves_wrote {w : Nat} {t : ω} (hwrite : tls.write f.tls f.queue.peek (.wrote w) = some t) :
    Moves f e
      { f with
        tls := t
        queue := f.queue.consume w
        hist := { f.hist with accepted := f.hist.accepted ++ f.queue.peek.take w } } := by
  refine moves_within rfl ?_
  obtain ⟨-, hw⟩ := tls.bounded hwrite
  simp only [Pipe.level, Queue.contents_consume, Queue.take_peek hw]
  rw [List.append_assoc f.hist.accepted, List.take_append_drop]

theorem moves_direct {rest : List Byte} {w : Nat} {t : ω} (hand : f.inHand = some rest) :
    Moves f (.write (.wrote w))
      { f with
        tls := t
        inHand := if rest.drop w = [] then none else some (rest.drop w)
        hist := { f.hist with accepted := f.hist.accepted ++ rest.take w } } := by
  have hleft : (if rest.drop w = [] then none else some (rest.drop w)).getD [] = rest.drop w := by
    split
    · rename_i hnil
      rw [hnil]
      rfl
    · rfl
  have hlevel : f.level = f.hist.accepted ++ (f.queue.contents ++ (rest.take w ++ rest.drop w)) := by
    rw [Pipe.level, hand, List.take_append_drop, List.append_assoc]
    rfl
  refine ⟨[], (List.append_nil _).symm, ?_, fun hover => ?_⟩
  · simp only [Pipe.level, hleft, List.append_nil]
    rw [← Pipe.level, hlevel, List.append_assoc, List.append_assoc]
    refine List.Perm.append_left _ ?_
    rw [← List.append_assoc, ← List.append_assoc]
    exact List.Perm.append_right _ List.perm_append_comm
  · have hempty : f.queue.contents = [] := by
      by_contra hne
      exact hover ⟨⟨w, rfl⟩, by rw [hand]; exact Option.some_ne_none _, hne⟩
    rw [hlevel, hempty]
    simp only [Pipe.level, hleft, hempty, List.append_nil, List.nil_append, List.append_assoc]

/-- A step moves bytes, unless a write fails. -/
theorem level_cases (h : PipeStep tls passthru f e f') (hfits : f.Fits) :
    (f'.hist.sslFailed = true ∧ ∃ bytes t, tls.write f.tls bytes .failed = some t) ∨
      (f'.hist.sslFailed = false → f.hist.sslFailed = false) ∧ Moves f e f' := by
  cases h with
  | failed _ hwrite => exact .inl ⟨rfl, _, _, hwrite⟩
  | lost _ hwrite => exact .inl ⟨rfl, _, _, hwrite⟩
  | idle => exact .inr ⟨id, moves_within rfl rfl⟩
  | readFailed => exact .inr ⟨fun h => (nomatch h), moves_within rfl rfl⟩
  | blocked => exact .inr ⟨id, moves_within rfl rfl⟩
  | eof => exact .inr ⟨id, moves_within rfl rfl⟩
  | wrote _ hwrite => exact .inr ⟨id, moves_wrote hwrite⟩
  | direct hand => exact .inr ⟨id, moves_direct hand⟩
  | buffered _ hand hfit =>
    refine .inr ⟨id, moves_of_eq rfl ?_⟩
    simp only [Pipe.level, hand, Queue.contents_write_of_le hfit, Option.getD_none, List.append_nil, List.append_assoc]
  | held _ hand =>
    refine .inr ⟨id, moves_of_eq rfl ?_⟩
    simp only [Pipe.level, hand, Option.getD_none, Option.getD_some, List.append_nil]
  | stashed hand =>
    refine .inr ⟨id, moves_within rfl ?_⟩
    simp only [Pipe.level, hand, Queue.contents_write_of_le (hfits.room _ hand), Option.getD_none, Option.getD_some,
      List.append_nil, List.append_assoc]

end PipeStep

/-! ### The tail of a response -/

/-- Nothing that came in is missing, as long as no call of mbedTLS has failed. -/
structure Pipe.Balanced (f : Pipe ω) : Prop where
  fits : f.Fits
  balance : f.hist.sslFailed = false → f.hist.received.Perm f.level

theorem balanced_init : (Pipe.init tls).Balanced := ⟨fits_init, fun _ => .refl _⟩

theorem balanced_step (p : Pass ω) (e : Event) (f : Pipe ω) (h : p.pipe.Balanced) (_ : p.conn.hist.eof = false)
    (_ : anyCall p e) (hstep : PipeStep tls cfg.passthru p.pipe e f) : f.Balanced := by
  refine ⟨hstep.fits h.fits, fun hlive => ?_⟩
  obtain ⟨hfailed, -⟩ | ⟨hbefore, new, hreceived, hperm, -⟩ := hstep.level_cases h.fits
  · rw [hfailed] at hlive
    cases hlive
  · rw [hreceived]
    exact ((h.balance (hbefore hlive)).append_right new).trans hperm.symm

/-- What a closed connection has not passed on is what is left in its ring. -/
theorem closed_balance {s : Server ω} (h : RunsTo tls cfg anyCall s) {c : Conn ω} (hc : c ∈ s.closed)
    (hlive : c.hist.sslFailed = false) : c.hist.received.Perm (c.hist.accepted ++ c.toTls.contents) := by
  have hbalance := (pipe_closed balanced_init balanced_step h c hc).balance hlive
  rw [Pipe.level, Conn.pipe, Option.getD_none, List.append_nil] at hbalance
  exact hbalance

/-- `recv` returns 0 only when `to_tls` is empty. -/
def EofWhenDrained (p : Pass ω) (e : Event) : Prop := e = .recv .eof → p.conn.toTls.size = 0

instance (p : Pass ω) (e : Event) : Decidable (EofWhenDrained p e) :=
  inferInstanceAs (Decidable (e = .recv .eof → p.conn.toTls.size = 0))

/-- An ended response has left the ring. -/
def Pipe.Drained (f : Pipe ω) : Prop := f.hist.eof = true → f.queue.contents = []

theorem drained_init : (Pipe.init tls).Drained := fun h => nomatch h

theorem drained_step (p : Pass ω) (e : Event) (f : Pipe ω) (_ : p.pipe.Drained) (hopen : p.conn.hist.eof = false)
    (hok : EofWhenDrained p e) (hstep : PipeStep tls cfg.passthru p.pipe e f) : f.Drained := by
  intro heof
  obtain ⟨rfl, -, rfl⟩ := hstep.eof_cases hopen heof
  have hsize := hok rfl
  rw [Queue.size_eq] at hsize
  exact List.length_eq_zero_iff.mp hsize

/-- **No response tail is lost** in a run where the backend's end of file is only seen with an
empty ring: a connection closed on it has passed on every byte. -/
theorem response_tail (tls : TlsLayer ω) (cfg : Config) (s : Server ω) (h : RunsTo tls cfg EofWhenDrained s) :
    ∀ c ∈ s.closed, c.hist.eof = true → c.hist.sslFailed = false → c.hist.received.Perm c.hist.accepted := by
  intro c hc heof hlive
  have hempty : c.toTls.contents = [] := pipe_closed drained_init drained_step h c hc heof
  have hbalance := closed_balance h.any hc hlive
  rw [hempty, List.append_nil] at hbalance
  exact hbalance

theorem response_tail_kept : ∃ s, RunsTo .ideal (onSocket3 .httpdSsl none) EofWhenDrained s ∧ ∃ c ∈ s.closed,
    c.hist.eof = true ∧ c.hist.sslFailed = false ∧ c.hist.received = [65#8] ∧
      c.hist.received.Perm c.hist.accepted := by
  obtain ⟨s, hrun, c, hc, heof, hlive, hreceived⟩ : ∃ s, RunsTo .ideal (onSocket3 .httpdSsl none) EofWhenDrained s ∧
      ∃ c ∈ s.closed, c.hist.eof = true ∧ c.hist.sslFailed = false ∧ c.hist.received = [65#8] :=
    exists_reach (bringUp ++ passOver [6] [] [.recv (.bytes [65#8])] ++
      passOver [6] [5] [.write (.wrote 1), .recv .eof]) (by decide)
  exact ⟨s, hrun, c, hc, heof, hlive, hreceived, response_tail _ _ s hrun c hc heof hlive⟩

/-- The client's socket is full when the backend closes: the byte in the ring is gone. -/
theorem response_tail_lost : ∃ s, RunsTo .ideal (onSocket3 .httpdSsl none) anyCall s ∧ ∃ c ∈ s.closed,
    c.hist.eof = true ∧ c.hist.sslFailed = false ∧ ¬c.hist.received.Perm c.hist.accepted :=
  exists_reach (bringUp ++ passOver [6] [] [.recv (.bytes [65#8])] ++ passOver [6] [] [.recv .eof]) (by decide)

/-! ### The order of passthru -/

/-- A direct write is accepted only when `to_tls` is empty. -/
def DirectWhenDrained (p : Pass ω) : Event → Prop
  | .write (.wrote _) => p.phase.inHand = none ∨ p.conn.toTls.size = 0
  | _ => True

instance (p : Pass ω) (e : Event) : Decidable (DirectWhenDrained p e) :=
  match e with
  | .write (.wrote _) => inferInstanceAs (Decidable (p.phase.inHand = none ∨ p.conn.toTls.size = 0))
  | .write .want | .write .failed | .soError _ | .handshake _ | .send _ | .read _ | .recv _ => isTrue trivial

end Delivery

section Ideal
variable {cfg : Config}

structure Pipe.Ordered (f : Pipe Unit) : Prop where
  fits : f.Fits
  order : f.hist.received = f.level

theorem fits_step (p : Pass Unit) (e : Event) (f : Pipe Unit) (h : p.pipe.Fits) (_ : p.conn.hist.eof = false)
    (_ : anyCall p e) (hstep : PipeStep .ideal cfg.passthru p.pipe e f) : f.Fits := hstep.fits h

theorem not_overtakes {p : Pass Unit} {e : Event} (hok : DirectWhenDrained p e) : ¬PipeStep.Overtakes p.pipe e := by
  rintro ⟨⟨w, rfl⟩, hand, hne⟩
  obtain hnone | hsize := hok
  · exact hand hnone
  · rw [Queue.size_eq] at hsize
    exact hne (List.length_eq_zero_iff.mp hsize)

theorem ordered_step (p : Pass Unit) (e : Event) (f : Pipe Unit) (h : p.pipe.Ordered) (_ : p.conn.hist.eof = false)
    (hok : DirectWhenDrained p e) (hstep : PipeStep .ideal cfg.passthru p.pipe e f) : f.Ordered := by
  refine ⟨hstep.fits h.fits, ?_⟩
  obtain ⟨-, bytes, t, hwrite⟩ | ⟨-, new, hreceived, -, hlevel⟩ := hstep.level_cases h.fits
  · cases hwrite
  · rw [hreceived, hlevel (not_overtakes hok), h.order]

/-- **Passthru loses nothing, and keeps the order** in a run where no direct write is accepted
while the ring holds bytes. -/
theorem passthru_order (cfg : Config) (s : Server Unit) :
    (RunsTo .ideal cfg anyCall s → ∀ c ∈ s.everyConn, c.hist.dropped = []) ∧
      (RunsTo .ideal cfg DirectWhenDrained s → ∀ c ∈ s.everyConn, c.hist.accepted <+: c.hist.received) := by
  refine ⟨fun h c hc => ?_, fun h c hc => ?_⟩
  · obtain ⟨hand, hfits⟩ := pipe_everyConn fits_init fits_step h c hc
    exact hfits.whole
  · obtain ⟨hand, hordered⟩ := pipe_everyConn ⟨fits_init, rfl⟩ ordered_step h c hc
    have horder := hordered.order
    rw [Pipe.level, List.append_assoc] at horder
    exact ⟨_, horder.symm⟩

theorem passthru_order_kept : ∃ s, RunsTo .ideal (onSocket3 .httpdSsl (some ['1'])) DirectWhenDrained s ∧
    ∃ c ∈ s.everyConn, c.hist.received = [65#8, 66#8] ∧ c.hist.dropped = [] ∧
      c.hist.accepted <+: c.hist.received := by
  obtain ⟨s, hrun, c, hc, hreceived⟩ : ∃ s, RunsTo .ideal (onSocket3 .httpdSsl (some ['1'])) DirectWhenDrained s ∧
      ∃ c ∈ s.everyConn, c.hist.received = [65#8, 66#8] :=
    exists_reach (bringUp ++ passOver [6] [] [.recv (.bytes [65#8]), .write .want] ++
      passOver [6] [5] [.write (.wrote 1), .recv (.bytes [66#8]), .write (.wrote 1)]) (by decide)
  exact ⟨s, hrun, c, hc, hreceived, (passthru_order _ s).1 hrun.any c hc, (passthru_order _ s).2 hrun c hc⟩

/-- A blocked write leaves its byte in the ring, and the next `recv` goes past it. -/
theorem passthru_overtakes : ∃ s, RunsTo .ideal (onSocket3 .httpdSsl (some ['1'])) anyCall s ∧ ∃ c ∈ s.everyConn,
    ¬c.hist.accepted <+: c.hist.received :=
  exists_reach (bringUp ++ passOver [6] [] [.recv (.bytes [65#8]), .write .want] ++
    passOver [6] [] [.recv (.bytes [66#8]), .write (.wrote 1)]) (by decide)

end Ideal

end Thingino.Proxy
