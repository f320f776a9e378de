import Mathlib.Data.List.Perm.Subperm
import Thingino.Proxy.EventServer

/-! The file descriptors of the server.

A connection owns the socket that `accept` returned and the one that `http_connect_nb`
returned, and `close_conn` closes what it finds in the two fields. Between the two calls
`http_fd` is still the 0 of `calloc`: if `mbedtls_ssl_setup` fails there,
`thingino-httpd-ssl` closes descriptor 0, which no connection opened. The calls of a pass
never touch the fields, so this is the only way to lose the discipline. -/
namespace Thingino.Proxy
open Lib

section Descriptors
variable {ω : Type} {tls : TlsLayer ω} {cfg : Config}

/-! ### What a connection owns -/

/-- A connection on the list: its log shows the sockets in its two fields, and nothing closed. -/
structure Owned (c : Conn ω) : Prop where
  alive : c.state ≠ .closed
  client : 0 ≤ c.clientFd
  log : c.fdLog = ⟨c.clientFd :: if 0 ≤ c.httpFd then [c.httpFd] else [], []⟩

/-- A connection after `close_conn`: both fields are empty, and what was opened for it was
closed, each descriptor as often as it was opened. -/
structure Released (c : Conn ω) : Prop where
  client : c.clientFd < 0
  http : c.httpFd < 0
  log : c.fdLog.closed.Perm c.fdLog.opened

theorem Owned.close {c : Conn ω} (h : Owned c) : Released c.close where
  client := by simp only [Conn.close, if_pos h.client]; decide
  http := by
    simp only [Conn.close]
    split
    · decide
    · rename_i hneg
      exact Int.not_le.mp hneg
  log := by
    simp only [Conn.close, h.log, List.nil_append, if_pos h.client]
    exact List.perm_append_singleton _ _

theorem newConn_owned {cfd : Int} (hfd : Int) (hcfd : 0 ≤ cfd) : Owned (newConn tls cfg cfd hfd) := by
  have hstate : (connectBackend (calloc tls cfd) hfd).state ≠ .closed := by
    simp only [connectBackend]
    split <;> decide
  unfold newConn
  cases cfg.copy with
  | httpdSsl | agent => exact ⟨hstate, hcfd, rfl⟩

/-! ### What a call leaves alone -/

namespace Pass
variable {p p' : Pass ω} {e : Event}

/-- A call that leaves the descriptors as they are and does not close the connection. -/
structure Spared (p p' : Pass ω) : Prop where
  client : p'.conn.clientFd = p.conn.clientFd
  http : p'.conn.httpFd = p.conn.httpFd
  log : p'.conn.fdLog = p.conn.fdLog
  state : p'.conn.state = p.conn.state ∨ p'.conn.state = .shutdown

theorem onConnect_spared (ok : Bool) : Spared p (p.onConnect ok) := by
  cases ok with
  | true => exact ⟨rfl, rfl, rfl, .inl rfl⟩
  | false => exact ⟨rfl, rfl, rfl, .inr rfl⟩

theorem onHandshake_spared (r : HandshakeResult) : Spared p (p.onHandshake cfg r) := by
  unfold onHandshake
  cases r with
  | done | wantRead | wantWrite => cases cfg.copy <;> exact ⟨rfl, rfl, rfl, .inl rfl⟩
  | failed => exact ⟨rfl, rfl, rfl, .inr rfl⟩

theorem onSend_spared {r : SendResult} (h : p.onSend r = some p') : Spared p p' := by
  cases r with
  | sent s =>
    obtain ⟨-, h⟩ := Option.ite_none_right_eq_some.mp h
    cases h
    exact ⟨rfl, rfl, rfl, .inl rfl⟩
  | again =>
    cases h
    exact ⟨rfl, rfl, rfl, .inl rfl⟩
  | failed =>
    cases h
    exact ⟨rfl, rfl, rfl, .inr rfl⟩

theorem onWrite_spared {r : WriteResult} (h : p.onWrite tls r = some p') : Spared p p' := by
  unfold onWrite at h
  rw [Option.map_eq_some_iff] at h
  obtain ⟨t, -, rfl⟩ := h
  cases r with
  | wrote | want => exact ⟨rfl, rfl, rfl, .inl rfl⟩
  | failed => exact ⟨rfl, rfl, rfl, .inr rfl⟩

theorem onPassthru_spared {rest : List Byte} {full : Bool} {r : WriteResult}
    (h : p.onPassthru tls rest full r = some p') : Spared p p' := by
  unfold onPassthru at h
  rw [Option.map_eq_some_iff] at h
  obtain ⟨t, -, rfl⟩ := h
  cases r with
  | wrote | want => exact ⟨rfl, rfl, rfl, .inl rfl⟩
  | failed => exact ⟨rfl, rfl, rfl, .inr rfl⟩

theorem onRead_spared {r : ReadResult} (h : p.onRead r = some p') : Spared p p' := by
  cases r with
  | record | unread | want =>
    obtain ⟨-, h⟩ := Option.ite_none_right_eq_some.mp h
    cases h
    exact ⟨rfl, rfl, rfl, .inl rfl⟩
  | eof =>
    obtain ⟨-, h⟩ := Option.ite_none_right_eq_some.mp h
    cases h
    exact ⟨rfl, rfl, rfl, .inr rfl⟩
  | failed =>
    cases h
    exact ⟨rfl, rfl, rfl, .inr rfl⟩

theorem onRecv_spared {r : RecvResult} (h : p.onRecv cfg r = some p') : Spared p p' := by
  cases r with
  | bytes b =>
    obtain ⟨-, h⟩ := Option.ite_none_right_eq_some.mp h
    split at h
    · cases h
      exact ⟨rfl, rfl, rfl, .inl rfl⟩
    · cases h
      exact ⟨rfl, rfl, rfl, .inl rfl⟩
  | again =>
    cases h
    exact ⟨rfl, rfl, rfl, .inl rfl⟩
  | eof | failed =>
    cases h
    exact ⟨rfl, rfl, rfl, .inr rfl⟩

theorem step_spared (h : p.step tls cfg e = some p') : Spared p p' := by
  cases e with
  | soError ok =>
    obtain ⟨-, h⟩ := Option.ite_none_right_eq_some.mp h
    exact Option.some.inj h ▸ onConnect_spared ok
  | handshake r =>
    obtain ⟨-, h⟩ := Option.ite_none_right_eq_some.mp h
    exact Option.some.inj h ▸ onHandshake_spared r
  | send r => exact onSend_spared (Option.ite_none_right_eq_some.mp h).2
  | write r =>
    simp only [step] at h
    split at h
    · exact onWrite_spared h
    · exact onPassthru_spared h
    · cases h
  | read r => exact onRead_spared (Option.ite_none_right_eq_some.mp h).2
  | recv r => exact onRecv_spared (Option.ite_none_right_eq_some.mp h).2

theorem Spared.owned (h : Spared p p') (ho : Owned p.conn) : Owned p'.conn where
  alive := by
    obtain hstate | hstate := h.state
    · exact hstate ▸ ho.alive
    · rw [hstate]
      decide
  client := h.client ▸ ho.client
  log := by rw [h.log, h.client, h.http, ho.log]

end Pass

/-! ### The list -/

namespace Server

/-- The connections on the list, in its order. -/
def live (s : Server ω) : List (Conn ω) :=
  match s.pc with
  | .select conns => conns
  | .accepting _ _ _ conns => conns
  | .sweep _ _ front todo => front ++ todo
  | .drive _ _ front pass todo => front ++ pass.conn :: todo
  | .stopped => []

/-- This turn of the accept loop gets as far as `mbedtls_ssl_setup`, and the call fails. -/
def setupFails (cfg : Config) (s : Server ω) : ServerEvent → Prop
  | .accept (some a) =>
    match s.pc with
    | .accepting _ _ count _ => 0 ≤ a.cfd ∧ count < cfg.maxConns ∧ a.memory ∧ ¬a.setup
    | _ => False
  | _ => False

instance (cfg : Config) (s : Server ω) (e : ServerEvent) : Decidable (s.setupFails cfg e) :=
  match e with
  | .accept (some a) =>
    match hpc : s.pc with
    | .accepting _ _ count _ =>
      decidable_of_iff (0 ≤ a.cfd ∧ count < cfg.maxConns ∧ a.memory ∧ ¬a.setup) (by rw [setupFails, hpc])
    | .select _ | .sweep .. | .drive .. | .stopped => isFalse (by rw [setupFails, hpc]; exact not_false)
  | .accept none | .quit | .interrupted | .ready .. | .turn | .io _ => isFalse not_false

/-- A socket that the accept loop closes at once, because the list is full or there is no
memory: it never becomes a connection. -/
def turnedAway (cfg : Config) (s : Server ω) : ServerEvent → Option FdLog
  | .accept (some a) =>
    match s.pc with
    | .accepting _ _ count _ =>
      if 0 ≤ a.cfd ∧ (cfg.maxConns ≤ count ∨ ¬a.memory) then some ⟨[a.cfd], [a.cfd]⟩ else none
    | _ => none
  | _ => none

/-- What is asked of the server: at most `max_conns` connections; a descriptor is closed for
the connection it was opened for, and not twice; a connection that left the list has none
open; a socket that is turned away is closed once. -/
structure Disciplined (cfg : Config) (s : Server ω) : Prop where
  bounded : s.live.length ≤ cfg.maxConns
  own : ∀ c ∈ s.live ++ s.closed, c.fdLog.closed.Subperm c.fdLog.opened
  left : ∀ c ∈ s.closed, c.clientFd < 0 ∧ c.httpFd < 0 ∧ c.fdLog.closed.Perm c.fdLog.opened
  away : ∀ e, ∀ log ∈ s.turnedAway cfg e, log.closed.Perm log.opened

/-- The list and the two logs. In the accept loop `conn_count` is the length of the list. -/
structure Ledger (cfg : Config) (s : Server ω) : Prop where
  bounded : s.live.length ≤ cfg.maxConns
  counted : ∀ rfds wfds count conns, s.pc = .accepting rfds wfds count conns → count = conns.length
  owned : ∀ c ∈ s.live, Owned c
  released : ∀ c ∈ s.closed, Released c

theorem turnedAway_perm {s : Server ω} {e : ServerEvent} {log : FdLog} (h : log ∈ s.turnedAway cfg e) :
    log.closed.Perm log.opened := by
  unfold turnedAway at h
  split at h
  · split at h
    · obtain ⟨-, h⟩ := Option.ite_none_right_eq_some.mp h
      exact Option.some.inj h ▸ List.Perm.refl _
    · cases h
  · cases h

theorem Ledger.disciplined {s : Server ω} (h : s.Ledger cfg) : s.Disciplined cfg where
  bounded := h.bounded
  own := by
    refine List.forall_mem_append.mpr ⟨fun c hc => ?_, fun c hc => (h.released c hc).log.subperm⟩
    rw [(h.owned c hc).log]
    exact List.nil_subperm
  left c hc := ⟨(h.released c hc).client, (h.released c hc).http, (h.released c hc).log⟩
  away _ _ := turnedAway_perm

theorem connCount_eq_length {conns : List (Conn ω)} (h : ∀ c ∈ conns, Owned c) : connCount conns = conns.length := by
  rw [connCount, List.filter_eq_self.mpr]
  exact fun c hc => decide_eq_true (h c hc).alive

/-! ### One step -/

theorem ledger_init : (init : Server ω).Ledger cfg where
  bounded := Nat.zero_le _
  counted _ _ _ _ h := nomatch h
  owned := List.forall_mem_nil _
  released := List.forall_mem_nil _

/-- Outside of the accept loop there is no counter to look at. -/
theorem ledger_of_live {s : Server ω} (conns : List (Conn ω)) (hlive : s.live = conns)
    (hpc : ∀ rfds wfds count conns, s.pc ≠ .accepting rfds wfds count conns) (hbound : conns.length ≤ cfg.maxConns)
    (howned : ∀ c ∈ conns, Owned c) (hreleased : ∀ c ∈ s.closed, Released c) : s.Ledger cfg where
  bounded := hlive ▸ hbound
  counted _ _ _ _ h := absurd h (hpc _ _ _ _)
  owned := hlive ▸ howned
  released := hreleased

theorem ledger_onReady {s s' : Server ω} {conns : List (Conn ω)} {rfds wfds : List Int}
    (hpc : s.pc = .select conns) (h : s.Ledger cfg) (hstep : s.onReady cfg conns rfds wfds = some s') :
    s'.Ledger cfg := by
  have hlive : s.live = conns := by rw [live, hpc]
  have hbound : conns.length ≤ cfg.maxConns := hlive ▸ h.bounded
  have howned : ∀ c ∈ conns, Owned c := hlive ▸ h.owned
  obtain ⟨-, hstep⟩ := Option.ite_none_right_eq_some.mp hstep
  cases hstep
  by_cases hlisten : 0 ≤ cfg.listenFd ∧ cfg.listenFd ∈ rfds
  · rw [if_pos hlisten]
    refine ⟨hbound, fun _ _ _ _ heq => ?_, howned, h.released⟩
    cases heq
    exact connCount_eq_length howned
  · rw [if_neg hlisten]
    exact ledger_of_live conns (List.nil_append conns) (fun _ _ _ _ heq => nomatch heq) hbound howned h.released

theorem ledger_onAccept {s s' : Server ω} {rfds wfds : List Int} {count : Nat} {conns : List (Conn ω)}
    {answer : Option Accepted} (hpc : s.pc = .accepting rfds wfds count conns) (h : s.Ledger cfg)
    (hok : ¬s.setupFails cfg (.accept answer)) (hstep : s.onAccept tls cfg rfds wfds count conns answer = some s') :
    s'.Ledger cfg := by
  have hlive : s.live = conns := by rw [live, hpc]
  have hbound : conns.length ≤ cfg.maxConns := hlive ▸ h.bounded
  have howned : ∀ c ∈ conns, Owned c := hlive ▸ h.owned
  have hcount : count = conns.length := h.counted _ _ _ _ hpc
  have hsweep : Ledger cfg { s with pc := .sweep rfds wfds [] conns } :=
    ledger_of_live conns (List.nil_append conns) (fun _ _ _ _ heq => nomatch heq) hbound howned h.released
  cases answer with
  | none => exact Option.some.inj hstep ▸ hsweep
  | some a =>
    simp only [onAccept] at hstep
    split at hstep
    · cases hstep
    · rename_i hcfd
      split at hstep
      · exact Option.some.inj hstep ▸ hsweep
      · rename_i hroom
        obtain ⟨hfree, hmemory⟩ := not_or.mp hroom
        split at hstep
        · rename_i hsetup
          refine absurd ?_ hok
          simp only [setupFails, hpc]
          exact ⟨Int.not_lt.mp hcfd, Nat.not_le.mp hfree, not_not.mp hmemory, hsetup⟩
        · cases hstep
          refine ⟨?_, fun _ _ _ _ heq => ?_, ?_, h.released⟩
          · rw [hcount] at hfree
            exact Nat.not_le.mp hfree
          · cases heq
            exact congrArg Nat.succ hcount
          · exact List.forall_mem_cons.mpr ⟨newConn_owned a.hfd (Int.not_lt.mp hcfd), howned⟩

theorem ledger_endPass {s : Server ω} {rfds wfds : List Int} {front todo : List (Conn ω)} {p : Pass ω}
    (hpc : s.pc = .drive rfds wfds front p todo) (h : s.Ledger cfg) :
    (s.endPass rfds wfds front p.conn todo).Ledger cfg := by
  have hlive : s.live = front ++ p.conn :: todo := by rw [live, hpc]
  have hbound : (front ++ p.conn :: todo).length ≤ cfg.maxConns := hlive ▸ h.bounded
  obtain ⟨hfront, hcons⟩ := List.forall_mem_append.mp (hlive ▸ h.owned)
  obtain ⟨hconn, htodo⟩ := List.forall_mem_cons.mp hcons
  have hsub : (front ++ todo).length ≤ (front ++ p.conn :: todo).length :=
    (List.Sublist.append_left (List.sublist_cons_self _ _) front).length_le
  unfold endPass
  split
  · exact ledger_of_live _ rfl (fun _ _ _ _ heq => nomatch heq) (hsub.trans hbound)
      (List.forall_mem_append.mpr ⟨hfront, htodo⟩) (List.forall_mem_cons.mpr ⟨hconn.close, h.released⟩)
  · refine ledger_of_live _ ?_ (fun _ _ _ _ heq => nomatch heq) hbound (hlive ▸ h.owned) h.released
    exact List.append_cons front p.conn todo ▸ rfl

theorem ledger_step {s s' : Server ω} {e : ServerEvent} (h : s.Ledger cfg) (hok : ¬s.setupFails cfg e)
    (hstep : s.step tls cfg e = some s') : s'.Ledger cfg := by
  unfold step at hstep
  split at hstep
  case h_1 conns hpc =>
    have hlive : s.live = conns := by rw [live, hpc]
    cases hstep
    refine ledger_of_live _ rfl (fun _ _ _ _ heq => nomatch heq) (Nat.zero_le _) (List.forall_mem_nil _) ?_
    refine List.forall_mem_append.mpr ⟨List.forall_mem_map.mpr fun c hc => ?_, h.released⟩
    exact (h.owned c (hlive ▸ hc)).close
  case h_2 => exact Option.some.inj hstep ▸ h
  case h_3 conns rfds wfds hpc => exact ledger_onReady hpc h hstep
  case h_4 rfds wfds count conns answer hpc => exact ledger_onAccept hpc h hok hstep
  case h_5 rfds wfds front hpc =>
    have hlive : s.live = front := by simp only [live, hpc, List.append_nil]
    cases hstep
    exact ledger_of_live _ rfl (fun _ _ _ _ heq => nomatch heq) (hlive ▸ h.bounded) (hlive ▸ h.owned) h.released
  case h_6 rfds wfds front c todo hpc =>
    have hlive : s.live = front ++ c :: todo := by rw [live, hpc]
    cases hstep
    exact ledger_of_live (front ++ c :: todo) rfl (fun _ _ _ _ heq => nomatch heq) (hlive ▸ h.bounded) (hlive ▸ h.owned) h.released
  case h_7 rfds wfds front p todo hpc =>
    obtain ⟨-, hstep⟩ := Option.ite_none_right_eq_some.mp hstep
    exact Option.some.inj hstep ▸ ledger_endPass hpc h
  case h_8 rfds wfds front p todo io hpc =>
    have hlive : s.live = front ++ p.conn :: todo := by rw [live, hpc]
    have hbound : (front ++ p.conn :: todo).length ≤ cfg.maxConns := hlive ▸ h.bounded
    obtain ⟨hfront, hcons⟩ := List.forall_mem_append.mp (hlive ▸ h.owned)
    obtain ⟨hconn, htodo⟩ := List.forall_mem_cons.mp hcons
    rw [Option.map_eq_some_iff] at hstep
    obtain ⟨p', hp', rfl⟩ := hstep
    refine ledger_of_live (front ++ p'.conn :: todo) rfl (fun _ _ _ _ heq => nomatch heq) ?_ ?_ h.released
    · simpa only [List.length_append, List.length_cons] using hbound
    · have hconn' := (Pass.step_spared hp').owned hconn
      exact List.forall_mem_append.mpr ⟨hfront, List.forall_mem_cons.mpr ⟨hconn', htodo⟩⟩
  case h_9 => cases hstep

/-! ### Runs -/

/-- **Descriptor discipline.** As long as `mbedtls_ssl_setup` succeeds, whatever the other
calls answer, the list stays within `max_conns`, and every descriptor is closed exactly once,
for the connection it was opened for. -/
theorem disciplined_of_setup {s : Server ω} (h : Reach (step tls cfg) (fun s e => ¬s.setupFails cfg e) init s) :
    s.Disciplined cfg :=
  (Reach.invariant ledger_init (fun _ _ _ hs hok hstep => ledger_step hs hok hstep) h).disciplined

/-- A client that comes and goes, and the server that stops after it. -/
theorem disciplined_of_setup_one_client :
    ∃ s : Server Unit, (s.closed.map (·.fdLog.closed) = [[6, 5]] ∧ s.live = []) ∧
      s.Disciplined (onSocket3 .httpdSsl none) := by
  have hrun : ∃ s : Server Unit,
      Reach (step .ideal (onSocket3 .httpdSsl none)) (fun s e => ¬s.setupFails (onSocket3 .httpdSsl none) e) init s ∧
        (s.closed.map (·.fdLog.closed) = [[6, 5]] ∧ s.live.length = 0) :=
    exists_reach (bringUp ++ [.quit]) (by decide)
  obtain ⟨s, hs, hlog, hlive⟩ := hrun
  exact ⟨s, ⟨hlog, List.length_eq_zero_iff.mp hlive⟩, disciplined_of_setup hs⟩

/-- A failed `mbedtls_ssl_setup` always breaks it in `thingino-httpd-ssl`: descriptor 0 is
closed for a connection that only had its client socket. -/
theorem setupFails_undisciplined {s s' : Server ω} {e : ServerEvent} (hcopy : cfg.copy = .httpdSsl)
    (hfail : s.setupFails cfg e) (hstep : s.step tls cfg e = some s') : ¬s'.Disciplined cfg := by
  unfold setupFails at hfail
  split at hfail
  · rename_i a
    split at hfail
    · rename_i rfds wfds count conns hpc
      obtain ⟨hcfd, hfree, hmemory, hsetup⟩ := hfail
      simp only [step, hpc, onAccept, if_neg (Int.not_lt.mpr hcfd), if_pos hsetup,
        if_neg (not_or.mpr ⟨Nat.not_le.mpr hfree, not_not.mpr hmemory⟩), Option.some.injEq] at hstep
      subst hstep
      intro h
      have hrejected := (h.left _ List.mem_cons_self).2.2.length_eq
      simp [setupFailed, hcopy, Conn.close, calloc, hcfd] at hrejected
    · cases hfail
  · cases hfail

/-- Client 5 is accepted and `mbedtls_ssl_setup` fails: the server closes its descriptor 0. -/
theorem setup_failure_closes_stdin :
    ∃ s : Server Unit, RunsTo .ideal (onSocket3 .httpdSsl none) anyCall s ∧
      (∃ c ∈ s.closed, c.fdLog.opened = [5] ∧ c.fdLog.closed = [0, 5]) ∧
      ¬s.Disciplined (onSocket3 .httpdSsl none) := by
  have hrun : ∃ s : Server Unit, RunsTo .ideal (onSocket3 .httpdSsl none) anyCall s ∧
      ∃ c ∈ s.closed, c.fdLog.opened = [5] ∧ c.fdLog.closed = [0, 5] :=
    exists_reach [.ready [3] [], .accept (some ⟨5, true, false, 6⟩)] (by decide)
  obtain ⟨s, hs, c, hc, hopened, hclosed⟩ := hrun
  refine ⟨s, hs, ⟨c, hc, hopened, hclosed⟩, fun h => ?_⟩
  have hperm := (h.left c hc).2.2
  rw [hopened, hclosed] at hperm
  exact absurd hperm.length_eq (by decide)

end Server

end Descriptors

end Thingino.Proxy
