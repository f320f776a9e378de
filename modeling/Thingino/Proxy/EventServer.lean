import Thingino.Lib.Transition
import Thingino.Proxy.Connection

/-! The event loop `run_event_server`: `select`, accept, one pass over each connection.

The server is a machine whose events are the answers of the calls that the loop makes.
`Server.step` allows any answer a call can give. Connections do not interact, so a
property of the server is proved on a single connection: a `ConnInvariant` says what
holds of a connection at rest, in a pass and after `close_conn`, and
`ConnInvariant.holds` carries it to every run. -/
namespace Thingino.Proxy
open Lib

section Server
variable {ω : Type}

/-! ### The sets given to `select` -/

/-- What `FD_SET(fd, &rfds)` of a connection's descriptors amounts to. -/
def requestRead (cfg : Config) (c : Conn ω) : List Int :=
  if c.state = .closed then []
  else if ¬c.tlsDone then
    if 0 ≤ c.clientFd ∧ (cfg.copy = .httpdSsl ∨ c.tlsWantRead) then [c.clientFd] else []
  else
    (if 0 ≤ c.clientFd ∧ 0 < c.toHttp.space then [c.clientFd] else []) ++
      if 0 ≤ c.httpFd ∧ c.httpConnected ∧ 0 < c.toTls.space then [c.httpFd] else []

def requestWrite (cfg : Config) (c : Conn ω) : List Int :=
  if c.state = .closed then []
  else
    (if 0 ≤ c.httpFd ∧ ¬c.httpConnected then [c.httpFd] else []) ++
      if ¬c.tlsDone then
        if 0 ≤ c.clientFd ∧ (cfg.copy = .httpdSsl ∨ c.tlsWantWrite) then [c.clientFd] else []
      else
        (if 0 ≤ c.clientFd ∧ 0 < c.toTls.size then [c.clientFd] else []) ++
          if 0 ≤ c.httpFd ∧ c.httpConnected ∧ 0 < c.toHttp.size then [c.httpFd] else []

def listenSet (cfg : Config) : List Int := if 0 ≤ cfg.listenFd then [cfg.listenFd] else []

def connCount (conns : List (Conn ω)) : Nat := (conns.filter (·.state ≠ .closed)).length

/-! ### New connections -/

/-- A zeroed `conn_t` with the accepted socket: `http_fd` is 0. -/
def calloc (tls : TlsLayer ω) (cfd : Int) : Conn ω where
  state := .init
  tlsDone := false
  tlsWantRead := false
  tlsWantWrite := false
  clientFd := cfd
  httpFd := 0
  httpConnected := false
  toHttp := .empty
  toTls := .empty
  tls := tls.init
  pending := []
  hist := ⟨[], [], [], false, false⟩
  fdLog := ⟨[cfd], []⟩

/-- The backend socket: `hfd` is what `http_connect_nb` returned. -/
def connectBackend (c : Conn ω) (hfd : Int) : Conn ω :=
  { c with
    httpFd := hfd
    httpConnected := false
    state := if hfd < 0 then .shutdown else .handshake
    fdLog := { c.fdLog with opened := c.fdLog.opened ++ if 0 ≤ hfd then [hfd] else [] } }

/-- The connection that goes on the list. -/
def newConn (tls : TlsLayer ω) (cfg : Config) (cfd hfd : Int) : Conn ω :=
  let c := connectBackend (calloc tls cfd) hfd
  match cfg.copy with
  | .httpdSsl => c
  | .agent => { c with tlsWantRead := true, tlsWantWrite := true }

/-- The connection that is thrown away when `mbedtls_ssl_setup` fails. `thingino-httpd-ssl`
has not connected to the backend yet, the agent has. -/
def setupFailed (tls : TlsLayer ω) (cfg : Config) (cfd hfd : Int) : Conn ω :=
  match cfg.copy with
  | .httpdSsl => (calloc tls cfd).close
  | .agent => (newConn tls cfg cfd hfd).close

/-! ### The loop -/

/-- Where the loop is: at `select`, in the accept loop, before the next connection of the
list, inside the pass over one, or after the cleanup. -/
inductive Pc (ω : Type)
  | select (conns : List (Conn ω))
  | accepting (rfds wfds : List Int) (count : Nat) (conns : List (Conn ω))
  | sweep (rfds wfds : List Int) (front todo : List (Conn ω))
  | drive (rfds wfds : List Int) (front : List (Conn ω)) (pass : Pass ω) (todo : List (Conn ω))
  | stopped

/-- The loop and the connections it has closed. -/
structure Server (ω : Type) where
  pc : Pc ω
  closed : List (Conn ω)

/-- What happens to an accepted socket: the results of `calloc`, `mbedtls_ssl_setup` and
`http_connect_nb`. -/
structure Accepted where
  cfd : Int
  memory : Bool
  setup : Bool
  hfd : Int

/-- `quit` is the end of `keep_running` or a failed `select`, `turn` a move of the loop that
waits for nothing. -/
inductive ServerEvent
  | quit
  | interrupted
  | ready (rfds wfds : List Int)
  | accept (answer : Option Accepted)
  | turn
  | io (e : Event)

namespace Server

/-- `select` returned; it only leaves descriptors it was given. -/
def onReady (cfg : Config) (s : Server ω) (conns : List (Conn ω)) (rfds wfds : List Int) : Option (Server ω) :=
  if (∀ fd ∈ rfds, fd ∈ listenSet cfg ++ conns.flatMap (requestRead cfg)) ∧
      (∀ fd ∈ wfds, fd ∈ conns.flatMap (requestWrite cfg)) then
    some { s with
      pc := if 0 ≤ cfg.listenFd ∧ cfg.listenFd ∈ rfds then .accepting rfds wfds (connCount conns) conns
        else .sweep rfds wfds [] conns }
  else none

/-- One turn of the accept loop. -/
def onAccept (tls : TlsLayer ω) (cfg : Config) (s : Server ω) (rfds wfds : List Int) (count : Nat)
    (conns : List (Conn ω)) : Option Accepted → Option (Server ω)
  | none => some { s with pc := .sweep rfds wfds [] conns }
  | some a =>
    if a.cfd < 0 then none
    else if cfg.maxConns ≤ count ∨ ¬a.memory then some { s with pc := .sweep rfds wfds [] conns }
    else if ¬a.setup then some { s with closed := setupFailed tls cfg a.cfd a.hfd :: s.closed }
    else some { s with pc := .accepting rfds wfds (count + 1) (newConn tls cfg a.cfd a.hfd :: conns) }

/-- The end of a pass: a connection in `C_SHUTDOWN` is closed and leaves the list. -/
def endPass (s : Server ω) (rfds wfds : List Int) (front : List (Conn ω)) (c : Conn ω) (todo : List (Conn ω)) :
    Server ω :=
  if c.state = .shutdown then { pc := .sweep rfds wfds front todo, closed := c.close :: s.closed }
  else { s with pc := .sweep rfds wfds (front ++ [c]) todo }

def step (tls : TlsLayer ω) (cfg : Config) (s : Server ω) (e : ServerEvent) : Option (Server ω) :=
  match s.pc, e with
  | .select conns, .quit => some { pc := .stopped, closed := conns.map Conn.close ++ s.closed }
  | .select _, .interrupted => some s
  | .select conns, .ready rfds wfds => s.onReady cfg conns rfds wfds
  | .accepting rfds wfds count conns, .accept answer => s.onAccept tls cfg rfds wfds count conns answer
  | .sweep _ _ front [], .turn => some { s with pc := .select front }
  | .sweep rfds wfds front (c :: todo), .turn =>
    some { s with pc := .drive rfds wfds front (.start rfds wfds c) todo }
  | .drive rfds wfds front pass todo, .turn =>
    if pass.phase = .finish then some (s.endPass rfds wfds front pass.conn todo) else none
  | .drive rfds wfds front pass todo, .io e =>
    (pass.step tls cfg e).map fun pass' => { s with pc := .drive rfds wfds front pass' todo }
  | _, _ => none

/-- No connection yet. -/
def init : Server ω := ⟨.select [], []⟩

/-- The connections of the list that are not in a pass. -/
def resting (s : Server ω) : List (Conn ω) :=
  match s.pc with
  | .select conns => conns
  | .accepting _ _ _ conns => conns
  | .sweep _ _ front todo => front ++ todo
  | .drive _ _ front _ todo => front ++ todo
  | .stopped => []

/-- The connections `select` is called for. -/
def selecting (s : Server ω) : List (Conn ω) :=
  match s.pc with
  | .select conns => conns
  | _ => []

/-- The pass that is going on. -/
def passing (s : Server ω) : Option (Pass ω) :=
  match s.pc with
  | .drive _ _ _ pass _ => some pass
  | _ => none

/-- Every connection the server ever had. -/
def everyConn (s : Server ω) : List (Conn ω) :=
  s.resting ++ (s.passing.map Pass.conn).toList ++ s.closed

end Server

/-- A condition on the calls of a pass, as one on the steps of the server. -/
def duringPass (ok : Pass ω → Event → Prop) (s : Server ω) : ServerEvent → Prop
  | .io e => ∀ p ∈ s.passing, ok p e
  | _ => True

instance (ok : Pass ω → Event → Prop) [∀ p e, Decidable (ok p e)] (s : Server ω) (e : ServerEvent) :
    Decidable (duringPass ok s e) :=
  match e with
  | .io e => inferInstanceAs (Decidable (∀ p ∈ s.passing, ok p e))
  | .quit | .interrupted | .ready .. | .accept _ | .turn => isTrue trivial

/-- The calls may answer anything. -/
def anyCall (_ : Pass ω) (_ : Event) : Prop := True

instance (p : Pass ω) (e : Event) : Decidable (anyCall p e) := isTrue trivial

/-- The runs of `run_event_server` all of whose calls satisfy `ok`. -/
def RunsTo (tls : TlsLayer ω) (cfg : Config) (ok : Pass ω → Event → Prop) (s : Server ω) : Prop :=
  Reach (Server.step tls cfg) (duringPass ok) Server.init s

theorem RunsTo.any {tls : TlsLayer ω} {cfg : Config} {ok : Pass ω → Event → Prop} {s : Server ω}
    (h : RunsTo tls cfg ok s) : RunsTo tls cfg anyCall s :=
  h.weaken fun _ e _ => match e with
    | .io _ => fun _ _ => trivial
    | .quit | .interrupted | .ready .. | .accept _ | .turn => trivial

/-! ### Runs of one connection -/

/-- The server on listening socket 3. -/
def onSocket3 (copy : Copy) (passthruEnv : Option (List Char)) : Config := ⟨copy, 3, none, passthruEnv⟩

/-- A client on socket 5 and the backend on socket 6 are brought up. -/
def bringUp : List ServerEvent :=
  [.ready [3] [], .accept (some ⟨5, true, true, 6⟩), .accept none, .turn, .turn, .turn,
    .ready [] [5, 6], .turn, .io (.soError true), .io (.handshake .done), .turn, .turn]

/-- One turn of the loop with one connection on the list. -/
def passOver (rfds wfds : List Int) (calls : List Event) : List ServerEvent :=
  .ready rfds wfds :: .turn :: (calls.map .io ++ [.turn, .turn])

/-! ### From one connection to the server -/

/-- What holds of a connection whatever the others do: at rest between two passes, in a pass
whose calls satisfy `ok`, and once it is closed. -/
structure ConnInvariant (tls : TlsLayer ω) (cfg : Config) (ok : Pass ω → Event → Prop) where
  rest : Conn ω → Prop
  pass : Pass ω → Prop
  gone : Conn ω → Prop
  fresh : ∀ cfd hfd, rest (newConn tls cfg cfd hfd)
  rejected : ∀ cfd hfd, gone (setupFailed tls cfg cfd hfd)
  start : ∀ rfds wfds c, rest c → pass (.start rfds wfds c)
  step : ∀ p e p', pass p → ok p e → p.step tls cfg e = some p' → pass p'
  keep : ∀ p, pass p → p.phase = .finish → p.conn.state ≠ .shutdown → rest p.conn
  close : ∀ p, pass p → p.phase = .finish → p.conn.state = .shutdown → gone p.conn.close
  quit : ∀ c, rest c → gone c.close

namespace ConnInvariant
variable {tls : TlsLayer ω} {cfg : Config} {ok : Pass ω → Event → Prop}

/-- Each connection of the server is where the invariant says. -/
structure Holds (I : ConnInvariant tls cfg ok) (s : Server ω) : Prop where
  resting : ∀ c ∈ s.resting, I.rest c
  passing : ∀ p, s.passing = some p → I.pass p
  closed : ∀ c ∈ s.closed, I.gone c

variable (I : ConnInvariant tls cfg ok)

theorem holds_init : I.Holds Server.init where
  resting _ h := nomatch h
  passing _ h := nomatch h
  closed _ h := nomatch h

/-- Outside of a pass only the resting connections and the closed ones count. -/
theorem holds_idle {s : Server ω} (hpass : s.passing = none) (hrest : ∀ c ∈ s.resting, I.rest c)
    (hclosed : ∀ c ∈ s.closed, I.gone c) : I.Holds s where
  resting := hrest
  passing p h := by rw [hpass] at h; cases h
  closed := hclosed

theorem holds_onReady {s s' : Server ω} {conns : List (Conn ω)} {rfds wfds : List Int} (hpc : s.pc = .select conns)
    (h : I.Holds s) (hstep : s.onReady cfg conns rfds wfds = some s') : I.Holds s' := by
  have hrest : ∀ c ∈ conns, I.rest c := fun c hc => h.resting c (by rw [Server.resting, hpc]; exact hc)
  unfold Server.onReady at hstep
  split at hstep
  · cases hstep
    by_cases hlisten : 0 ≤ cfg.listenFd ∧ cfg.listenFd ∈ rfds
    · rw [if_pos hlisten]
      exact I.holds_idle rfl hrest h.closed
    · rw [if_neg hlisten]
      exact I.holds_idle rfl hrest h.closed
  · cases hstep

theorem holds_onAccept {s s' : Server ω} {rfds wfds : List Int} {count : Nat} {conns : List (Conn ω)}
    {answer : Option Accepted} (hpc : s.pc = .accepting rfds wfds count conns) (h : I.Holds s)
    (hstep : s.onAccept tls cfg rfds wfds count conns answer = some s') : I.Holds s' := by
  have hrest : ∀ c ∈ conns, I.rest c := fun c hc => h.resting c (by rw [Server.resting, hpc]; exact hc)
  cases answer with
  | none =>
    cases hstep
    exact I.holds_idle rfl hrest h.closed
  | some a =>
    simp only [Server.onAccept] at hstep
    split at hstep
    · cases hstep
    · split at hstep
      · cases hstep
        exact I.holds_idle rfl hrest h.closed
      · split at hstep
        · cases hstep
          refine I.holds_idle (by simp only [Server.passing, hpc]) (by simpa only [Server.resting, hpc] using hrest) ?_
          exact List.forall_mem_cons.mpr ⟨I.rejected _ _, h.closed⟩
        · cases hstep
          exact I.holds_idle rfl (List.forall_mem_cons.mpr ⟨I.fresh _ _, hrest⟩) h.closed

theorem holds_endPass {s : Server ω} {rfds wfds : List Int} {front todo : List (Conn ω)} {p : Pass ω}
    (hpc : s.pc = .drive rfds wfds front p todo) (h : I.Holds s) (hphase : p.phase = .finish) :
    I.Holds (s.endPass rfds wfds front p.conn todo) := by
  have hrest : ∀ c ∈ front ++ todo, I.rest c := fun c hc => h.resting c (by rw [Server.resting, hpc]; exact hc)
  have hpass : I.pass p := h.passing p (by rw [Server.passing, hpc])
  obtain ⟨hfront, htodo⟩ := List.forall_mem_append.mp hrest
  unfold Server.endPass
  split
  · rename_i hstate
    exact I.holds_idle rfl hrest (List.forall_mem_cons.mpr ⟨I.close p hpass hphase hstate, h.closed⟩)
  · rename_i hstate
    refine I.holds_idle rfl (List.forall_mem_append.mpr ⟨List.forall_mem_append.mpr ⟨hfront, ?_⟩, htodo⟩) h.closed
    exact List.forall_mem_singleton.mpr (I.keep p hpass hphase hstate)

theorem holds_step {s s' : Server ω} {e : ServerEvent} (h : I.Holds s) (hok : duringPass ok s e)
    (hstep : s.step tls cfg e = some s') : I.Holds s' := by
  unfold Server.step at hstep
  split at hstep
  case h_1 conns hpc =>
    cases hstep
    refine I.holds_idle rfl (fun _ hc => nomatch hc) (List.forall_mem_append.mpr ⟨?_, h.closed⟩)
    refine List.forall_mem_map.mpr fun c hc => I.quit c (h.resting c ?_)
    rw [Server.resting, hpc]
    exact hc
  case h_2 => exact Option.some.inj hstep ▸ h
  case h_3 conns rfds wfds hpc => exact I.holds_onReady hpc h hstep
  case h_4 rfds wfds count conns answer hpc => exact I.holds_onAccept hpc h hstep
  case h_5 rfds wfds front hpc =>
    cases hstep
    refine I.holds_idle rfl (fun c hc => h.resting c ?_) h.closed
    rw [Server.resting, hpc]
    exact List.mem_append_left _ hc
  case h_6 rfds wfds front c todo hpc =>
    cases hstep
    have hrest : ∀ c' ∈ front ++ c :: todo, I.rest c' := fun c' hc' =>
      h.resting c' (by rw [Server.resting, hpc]; exact hc')
    obtain ⟨hfront, hcons⟩ := List.forall_mem_append.mp hrest
    obtain ⟨hc, htodo⟩ := List.forall_mem_cons.mp hcons
    refine ⟨List.forall_mem_append.mpr ⟨hfront, htodo⟩, fun p hp => ?_, h.closed⟩
    exact Option.some.inj hp ▸ I.start rfds wfds c hc
  case h_7 rfds wfds front p todo hpc =>
    split at hstep
    · rename_i hphase
      exact Option.some.inj hstep ▸ I.holds_endPass hpc h hphase
    · cases hstep
  case h_8 rfds wfds front p todo io hpc =>
    rw [Option.map_eq_some_iff] at hstep
    obtain ⟨p', hp', rfl⟩ := hstep
    have hpassing : s.passing = some p := by rw [Server.passing, hpc]
    refine ⟨fun c hc => h.resting c ?_, fun q hq => ?_, h.closed⟩
    · rw [Server.resting, hpc]
      exact hc
    · exact Option.some.inj hq ▸ I.step p io p' (h.passing p hpassing) (hok p hpassing) hp'
  case h_9 => cases hstep

theorem resting_of_selecting {s : Server ω} {c : Conn ω} (h : c ∈ s.selecting) : c ∈ s.resting := by
  unfold Server.selecting at h
  split at h
  · rename_i hpc
    rw [Server.resting, hpc]
    exact h
  · cases h

/-- An invariant of one connection holds in every state of every run. -/
theorem holds {s : Server ω} (h : RunsTo tls cfg ok s) : I.Holds s :=
  Reach.invariant I.holds_init (fun _ _ _ hs hok hstep => I.holds_step hs hok hstep) h

/-- What follows in each of the three places is true of every connection there ever was. -/
theorem everyConn {Q : Conn ω → Prop} {s : Server ω} (h : RunsTo tls cfg ok s) (hrest : ∀ c, I.rest c → Q c)
    (hpass : ∀ p, I.pass p → Q p.conn) (hgone : ∀ c, I.gone c → Q c) : ∀ c ∈ s.everyConn, Q c := by
  have hs := I.holds h
  refine List.forall_mem_append.mpr ⟨List.forall_mem_append.mpr ⟨?_, ?_⟩, ?_⟩
  · exact fun c hc => hrest c (hs.resting c hc)
  · intro c hc
    rw [Option.mem_toList, Option.map_eq_some_iff] at hc
    obtain ⟨p, hp, rfl⟩ := hc
    exact hpass p (hs.passing p hp)
  · exact fun c hc => hgone c (hs.closed c hc)

end ConnInvariant

end Server

end Thingino.Proxy
