import Thingino.Proxy.EventServer

/-! The direction from the backend to the client, as a pipe.

A `Pipe` is what a connection holds of this direction: the ring, the TLS layer, the bytes
of the last `recv` that passthru has in hand, and the history. `PipeStep` lists everything
that can happen to it. A pass of the event loop is a run of the pipe (`Pass.step_pipe`),
so an invariant of the pipe holds of every connection in every run (`pipe_invariant`). -/
namespace Thingino.Proxy
open Lib

section Pipe
variable {ω : Type}

structure Pipe (ω : Type) where
  queue : Queue
  tls : ω
  inHand : Option (List Byte)
  hist : History

/-- One call, seen from the pipe. -/
inductive PipeStep (tls : TlsLayer ω) (passthru : Bool) : Pipe ω → Event → Pipe ω → Prop
  | idle {f e} : PipeStep tls passthru f e f
  | readFailed {f} : PipeStep tls passthru f (.read .failed) { f with hist := { f.hist with sslFailed := true } }
  | wrote {f w t} (hand : f.inHand = none) (hwrite : tls.write f.tls f.queue.peek (.wrote w) = some t) :
    PipeStep tls passthru f (.write (.wrote w))
      { f with
        tls := t
        queue := f.queue.consume w
        hist := { f.hist with accepted := f.hist.accepted ++ f.queue.peek.take w } }
  | blocked {f t} (hand : f.inHand = none) (hwrite : tls.write f.tls f.queue.peek .want = some t) :
    PipeStep tls passthru f (.write .want) { f with tls := t }
  | failed {f t} (hand : f.inHand = none) (hwrite : tls.write f.tls f.queue.peek .failed = some t) :
    PipeStep tls passthru f (.write .failed) { f with tls := t, hist := { f.hist with sslFailed := true } }
  | buffered {f b} (hmode : passthru = false) (hand : f.inHand = none) (hfit : b.length ≤ f.queue.space) :
    PipeStep tls passthru f (.recv (.bytes b))
      { f with
        queue := f.queue.write b
        hist := { f.hist with
          received := f.hist.received ++ b
          dropped := f.hist.dropped ++ b.drop (f.queue.taken b) } }
  | held {f b} (hmode : passthru = true) (hand : f.inHand = none) (hfit : b.length ≤ f.queue.space) :
    PipeStep tls passthru f (.recv (.bytes b))
      { f with inHand := some b, hist := { f.hist with received := f.hist.received ++ b } }
  | eof {f} (hand : f.inHand = none) :
    PipeStep tls passthru f (.recv .eof) { f with hist := { f.hist with eof := true } }
  | direct {f rest w t} (hand : f.inHand = some rest) (hwrite : tls.write f.tls rest (.wrote w) = some t) :
    PipeStep tls passthru f (.write (.wrote w))
      { f with
        tls := t
        inHand := if rest.drop w = [] then none else some (rest.drop w)
        hist := { f.hist with accepted := f.hist.accepted ++ rest.take w } }
  | stashed {f rest t} (hand : f.inHand = some rest) (hwrite : tls.write f.tls rest .want = some t) :
    PipeStep tls passthru f (.write .want)
      { f with
        tls := t
        queue := f.queue.write rest
        inHand := none
        hist := { f.hist with dropped := f.hist.dropped ++ rest.drop (f.queue.taken rest) } }
  | lost {f rest t} (hand : f.inHand = some rest) (hwrite : tls.write f.tls rest .failed = some t) :
    PipeStep tls passthru f (.write .failed)
      { f with tls := t, inHand := none, hist := { f.hist with sslFailed := true } }

theorem PipeStep.eof_cases {tls : TlsLayer ω} {passthru : Bool} {f f' : Pipe ω} {e : Event}
    (h : PipeStep tls passthru f e f') (hbefore : f.hist.eof = false) (heof : f'.hist.eof = true) :
    e = .recv .eof ∧ f.inHand = none ∧ f' = { f with hist := { f.hist with eof := true } } := by
  cases h with
  | eof hand => exact ⟨rfl, hand, rfl⟩
  | _ =>
    rw [hbefore] at heof
    cases heof

def Phase.inHand : Phase → Option (List Byte)
  | .passthru rest _ => some rest
  | .connect | .handshake | .sendHttp | .writeTls | .readTls | .readHttp | .finish => none

def Conn.pipe (c : Conn ω) (inHand : Option (List Byte)) : Pipe ω := ⟨c.toTls, c.tls, inHand, c.hist⟩

def Pass.pipe (p : Pass ω) : Pipe ω := p.conn.pipe p.phase.inHand

/-! ### Between two calls nothing is in hand -/

@[simp] theorem inHand_enterReadHttp (r : Ready) (c : Conn ω) : (enterReadHttp r c).inHand = none := by
  unfold enterReadHttp
  split
  · rfl
  · rfl

@[simp] theorem inHand_enterReadTls (r : Ready) (c : Conn ω) : (enterReadTls r c).inHand = none := by
  unfold enterReadTls
  split
  · rfl
  · exact inHand_enterReadHttp r c

@[simp] theorem inHand_enterWriteTls (r : Ready) (c : Conn ω) : (enterWriteTls r c).inHand = none := by
  unfold enterWriteTls
  split
  · rfl
  · exact inHand_enterReadTls r c

@[simp] theorem inHand_enterSendHttp (r : Ready) (c : Conn ω) : (enterSendHttp r c).inHand = none := by
  unfold enterSendHttp
  split
  · rfl
  · exact inHand_enterWriteTls r c

@[simp] theorem inHand_enterForward (r : Ready) (c : Conn ω) : (enterForward r c).inHand = none := by
  unfold enterForward
  split
  · exact inHand_enterSendHttp r c
  · rfl

@[simp] theorem inHand_enterHandshake (r : Ready) (c : Conn ω) : (enterHandshake r c).inHand = none := by
  unfold enterHandshake
  split
  · rfl
  · exact inHand_enterForward r c

@[simp] theorem inHand_enterConnect (r : Ready) (c : Conn ω) : (enterConnect r c).inHand = none := by
  unfold enterConnect
  split
  · rfl
  · exact inHand_enterHandshake r c

@[simp] theorem inHand_enterRecvAgain (full : Bool) (c : Conn ω) : (enterRecvAgain full c).inHand = none := by
  unfold enterRecvAgain
  split
  · rfl
  · rfl

/-! ### Each call is a step of the pipe -/

namespace Pass
variable {tls : TlsLayer ω} {cfg : Config} {p p' : Pass ω} {e : Event}

theorem pipeStep_of {f : Pipe ω} (hstep : PipeStep tls cfg.passthru p.pipe e f) (hqueue : p'.conn.toTls = f.queue)
    (htls : p'.conn.tls = f.tls) (hhist : p'.conn.hist = f.hist) (hand : p'.phase.inHand = f.inHand) :
    PipeStep tls cfg.passthru p.pipe e p'.pipe := by
  have hpipe : p'.pipe = f := by simp only [pipe, Conn.pipe, hand, htls, hqueue, hhist]
  rw [hpipe]
  exact hstep

/-- A call that leaves the pipe alone. -/
theorem pipeStep_idle (hqueue : p'.conn.toTls = p.conn.toTls) (htls : p'.conn.tls = p.conn.tls)
    (hhist : p'.conn.hist = p.conn.hist) (hand : p'.phase.inHand = none) (hbefore : p.phase.inHand = none) :
    PipeStep tls cfg.passthru p.pipe e p'.pipe :=
  pipeStep_of .idle hqueue htls hhist (hand.trans hbefore.symm)

theorem onConnect_pipe (hand : p.phase.inHand = none) (ok : Bool) :
    PipeStep tls cfg.passthru p.pipe e (p.onConnect ok).pipe := by
  cases ok with
  | true => exact pipeStep_idle rfl rfl rfl (inHand_enterHandshake ..) hand
  | false => exact pipeStep_idle rfl rfl rfl (inHand_enterHandshake ..) hand

theorem onHandshake_pipe (hand : p.phase.inHand = none) (r : HandshakeResult) :
    PipeStep tls cfg.passthru p.pipe e (p.onHandshake cfg r).pipe := by
  refine pipeStep_idle ?_ ?_ ?_ (inHand_enterForward ..) hand
  all_goals
    unfold onHandshake
    cases r <;> cases cfg.copy <;> rfl

theorem onSend_pipe (hand : p.phase.inHand = none) {r : SendResult} (h : p.onSend r = some p') :
    PipeStep tls cfg.passthru p.pipe e p'.pipe := by
  cases r with
  | sent s =>
    obtain ⟨-, h⟩ := Option.ite_none_right_eq_some.mp h
    cases h
    refine pipeStep_idle rfl rfl rfl ?_ hand
    dsimp only
    split
    · exact inHand_enterWriteTls ..
    · rfl
  | again =>
    cases h
    exact pipeStep_idle rfl rfl rfl (inHand_enterWriteTls ..) hand
  | failed =>
    cases h
    exact pipeStep_idle rfl rfl rfl (inHand_enterWriteTls ..) hand

theorem onWrite_pipe (hand : p.phase.inHand = none) {r : WriteResult} (h : p.onWrite tls r = some p') :
    PipeStep tls cfg.passthru p.pipe (.write r) p'.pipe := by
  unfold onWrite at h
  rw [Option.map_eq_some_iff] at h
  obtain ⟨t, ht, rfl⟩ := h
  cases r with
  | wrote w =>
    refine pipeStep_of (.wrote hand ht) rfl rfl rfl (Eq.trans ?_ hand.symm)
    dsimp only
    split
    · exact inHand_enterReadTls ..
    · rfl
  | want => exact pipeStep_of (.blocked hand ht) rfl rfl rfl ((inHand_enterReadTls ..).trans hand.symm)
  | failed => exact pipeStep_of (.failed hand ht) rfl rfl rfl ((inHand_enterReadTls ..).trans hand.symm)

theorem gotRecord_pipe (hand : p.phase.inHand = none) (avail : List Byte) :
    PipeStep tls cfg.passthru p.pipe e (p.gotRecord avail).pipe := by
  refine pipeStep_idle rfl rfl rfl ?_ hand
  dsimp only [gotRecord]
  split
  · rfl
  · exact inHand_enterReadHttp ..

theorem onRead_pipe (hand : p.phase.inHand = none) {r : ReadResult} (h : p.onRead r = some p') :
    PipeStep tls cfg.passthru p.pipe (.read r) p'.pipe := by
  cases r with
  | record bytes =>
    obtain ⟨-, h⟩ := Option.ite_none_right_eq_some.mp h
    exact Option.some.inj h ▸ gotRecord_pipe hand bytes
  | unread =>
    obtain ⟨-, h⟩ := Option.ite_none_right_eq_some.mp h
    exact Option.some.inj h ▸ gotRecord_pipe hand _
  | want =>
    obtain ⟨-, h⟩ := Option.ite_none_right_eq_some.mp h
    cases h
    exact pipeStep_idle rfl rfl rfl (inHand_enterReadHttp ..) hand
  | eof =>
    obtain ⟨-, h⟩ := Option.ite_none_right_eq_some.mp h
    cases h
    exact pipeStep_idle rfl rfl rfl (inHand_enterReadHttp ..) hand
  | failed =>
    cases h
    exact pipeStep_of .readFailed rfl rfl rfl ((inHand_enterReadHttp ..).trans hand.symm)

theorem onRecv_pipe (hand : p.phase.inHand = none) {r : RecvResult} (h : p.onRecv cfg r = some p') :
    PipeStep tls cfg.passthru p.pipe (.recv r) p'.pipe := by
  cases r with
  | bytes b =>
    obtain ⟨hlen, h⟩ := Option.ite_none_right_eq_some.mp h
    have hfit : b.length ≤ p.conn.toTls.space := le_trans hlen.2 (min_le_left ..)
    split at h
    · rename_i hmode
      cases h
      exact pipeStep_of (.held hmode hand hfit) rfl rfl rfl rfl
    · rename_i hmode
      cases h
      exact pipeStep_of (.buffered (Bool.eq_false_iff.mpr hmode) hand hfit) rfl rfl rfl
        ((inHand_enterRecvAgain ..).trans hand.symm)
  | again =>
    cases h
    exact pipeStep_idle rfl rfl rfl rfl hand
  | eof =>
    cases h
    exact pipeStep_of (.eof hand) rfl rfl rfl hand.symm
  | failed =>
    cases h
    exact pipeStep_idle rfl rfl rfl rfl hand

theorem onPassthru_pipe {rest : List Byte} {full : Bool} {r : WriteResult} (hand : p.phase.inHand = some rest)
    (h : p.onPassthru tls rest full r = some p') : PipeStep tls cfg.passthru p.pipe (.write r) p'.pipe := by
  unfold onPassthru at h
  rw [Option.map_eq_some_iff] at h
  obtain ⟨t, ht, rfl⟩ := h
  cases r with
  | wrote w =>
    refine pipeStep_of (.direct hand ht) rfl rfl rfl ?_
    dsimp only
    rw [apply_ite Phase.inHand, inHand_enterRecvAgain]
    rfl
  | want => exact pipeStep_of (.stashed hand ht) rfl rfl rfl (inHand_enterRecvAgain ..)
  | failed => exact pipeStep_of (.lost hand ht) rfl rfl rfl (inHand_enterRecvAgain ..)

/-- **A pass is a run of the pipe.** -/
theorem step_pipe (h : p.step tls cfg e = some p') : PipeStep tls cfg.passthru p.pipe e p'.pipe := by
  have hnone (phase : Phase) (hphase : p.phase = phase) (hidle : phase.inHand = none) : p.phase.inHand = none :=
    hphase ▸ hidle
  cases e with
  | soError ok =>
    obtain ⟨hphase, h⟩ := Option.ite_none_right_eq_some.mp h
    exact Option.some.inj h ▸ onConnect_pipe (hnone _ hphase rfl) ok
  | handshake r =>
    obtain ⟨hphase, h⟩ := Option.ite_none_right_eq_some.mp h
    exact Option.some.inj h ▸ onHandshake_pipe (hnone _ hphase rfl) r
  | send r =>
    obtain ⟨hphase, h⟩ := Option.ite_none_right_eq_some.mp h
    exact onSend_pipe (hnone _ hphase rfl) h
  | write r =>
    simp only [step] at h
    split at h
    · rename_i hphase
      exact onWrite_pipe (hnone _ hphase rfl) h
    · rename_i rest full hphase
      exact onPassthru_pipe (hphase ▸ rfl) h
    · cases h
  | read r =>
    obtain ⟨hphase, h⟩ := Option.ite_none_right_eq_some.mp h
    exact onRead_pipe (hnone _ hphase rfl) h
  | recv r =>
    obtain ⟨hphase, h⟩ := Option.ite_none_right_eq_some.mp h
    exact onRecv_pipe (hnone _ hphase rfl) h

/-- Only a `recv` that returns 0 is an end of file, and it ends the pass. -/
theorem step_eof (h : p.step tls cfg e = some p') (hbefore : p.conn.hist.eof = false)
    (heof : p'.conn.hist.eof = true) : p'.phase = .finish ∧ p'.conn.state = .shutdown := by
  obtain ⟨rfl, -⟩ := (step_pipe h).eof_cases hbefore heof
  obtain ⟨-, h⟩ := Option.ite_none_right_eq_some.mp h
  cases h
  exact ⟨rfl, rfl⟩

theorem step_ne_finish (h : p.step tls cfg e = some p') : p.phase ≠ .finish := by
  intro hphase
  unfold step at h
  cases e <;> simp [hphase] at h

end Pass

/-! ### Invariants of the pipe -/

/-- The pipe of a new connection. -/
def Pipe.init (tls : TlsLayer ω) : Pipe ω := ⟨.empty, tls.init, none, ⟨[], [], [], false, false⟩⟩

section Invariant
variable {tls : TlsLayer ω} {cfg : Config} {ok : Pass ω → Event → Prop}

theorem pipe_newConn (tls : TlsLayer ω) (cfg : Config) (cfd hfd : Int) : (newConn tls cfg cfd hfd).pipe none = Pipe.init tls := by
  unfold newConn
  cases cfg.copy <;> rfl

theorem pipe_setupFailed (tls : TlsLayer ω) (cfg : Config) (cfd hfd : Int) :
    (setupFailed tls cfg cfd hfd).pipe none = Pipe.init tls := by
  unfold setupFailed
  cases cfg.copy with
  | httpdSsl => rfl
  | agent => exact pipe_newConn tls cfg cfd hfd

/-- An invariant of the pipe is one of the connection. No pipe moves after its end of file. -/
def pipeInvariant (K : Pipe ω → Prop) (hinit : K (.init tls))
    (hstep : ∀ (p : Pass ω) e f, K p.pipe → p.conn.hist.eof = false → ok p e →
      PipeStep tls cfg.passthru p.pipe e f → K f) : ConnInvariant tls cfg ok where
  rest c := c.hist.eof = false ∧ K (c.pipe none)
  pass p := (p.conn.hist.eof = true → p.phase = .finish ∧ p.conn.state = .shutdown) ∧ K p.pipe
  gone c := K (c.pipe none)
  fresh cfd hfd := by
    have hpipe := pipe_newConn tls cfg cfd hfd
    exact ⟨congrArg (·.hist.eof) hpipe, hpipe ▸ hinit⟩
  rejected cfd hfd := pipe_setupFailed tls cfg cfd hfd ▸ hinit
  start rfds wfds c h := by
    refine ⟨fun heof => ?_, ?_⟩
    · rw [Pass.start, h.1] at heof
      cases heof
    · rw [Pass.pipe, Pass.start, inHand_enterConnect]
      exact h.2
  step p e p' h hok hp := by
    have heof : p.conn.hist.eof = false := by
      by_contra hne
      exact Pass.step_ne_finish hp (h.1 (by simpa using hne)).1
    exact ⟨Pass.step_eof hp heof, hstep p e p'.pipe h.2 heof hok (Pass.step_pipe hp)⟩
  keep p h hphase hstate := by
    refine ⟨?_, ?_⟩
    · by_contra hne
      exact hstate (h.1 (by simpa using hne)).2
    · have hpipe := h.2
      rw [Pass.pipe, hphase] at hpipe
      exact hpipe
  close p h hphase _ := by
    have hpipe := h.2
    rw [Pass.pipe, hphase] at hpipe
    exact hpipe
  quit c h := h.2

/-- An invariant of the pipe holds of each connection in every run. -/
theorem pipe_everyConn {K : Pipe ω → Prop} (hinit : K (.init tls))
    (hstep : ∀ (p : Pass ω) e f, K p.pipe → p.conn.hist.eof = false → ok p e →
      PipeStep tls cfg.passthru p.pipe e f → K f)
    {s : Server ω} (h : RunsTo tls cfg ok s) : ∀ c ∈ s.everyConn, ∃ hand, K (c.pipe hand) :=
  (pipeInvariant K hinit hstep).everyConn h (fun _ hc => ⟨none, hc.2⟩) (fun p hp => ⟨p.phase.inHand, hp.2⟩)
    fun _ hc => ⟨none, hc⟩

/-- Nothing is in hand when a connection is closed. -/
theorem pipe_closed {K : Pipe ω → Prop} (hinit : K (.init tls))
    (hstep : ∀ (p : Pass ω) e f, K p.pipe → p.conn.hist.eof = false → ok p e →
      PipeStep tls cfg.passthru p.pipe e f → K f)
    {s : Server ω} (h : RunsTo tls cfg ok s) : ∀ c ∈ s.closed, K (c.pipe none) :=
  ((pipeInvariant K hinit hstep).holds h).closed

end Invariant

end Pipe

end Thingino.Proxy
