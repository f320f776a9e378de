import Thingino.Bluetooth.Frame
import Thingino.Lib.Transition
import Mathlib.Data.List.Forall2
import Mathlib.Logic.Function.Basic

/-! A run of the provisioning server.

The callbacks of the server run one at a time; beside them there are only the threads that count down to a reboot.
The server notifies the client that connected last, and forgets it when any client leaves. What a client knows is what
it has read or was notified of since it connected. -/
namespace Thingino.Bluetooth
open Lib Lib.CommandLine

namespace Session

inductive State
  | stopped
  | awaitingAuthorization
  | authorized
  | provisioning
  | provisioned
  deriving DecidableEq

inductive ErrorCode
  | none
  | invalidRpc
  | unknownRpc
  | unableToConnect
  | notAuthorized
  | unknown
  deriving DecidableEq

/-- A value of one of the three characteristics that notify. -/
inductive Notice
  | state (value : State)
  | error (value : ErrorCode)
  | result (value : List Byte)

inductive Characteristic
  | state
  | error
  | result

/-- What a client knows. -/
structure View where
  state : Option State
  error : Option ErrorCode
  result : Option (List Byte)

def View.learn (v : View) : Notice → View
  | .state value => { v with state := some value }
  | .error value => { v with error := some value }
  | .result value => { v with result := some value }

/-- What is done outside of the server. -/
inductive Effect
  | system (line : List Byte)
  | file (path content : List Byte)
  | pipe (command input : List Byte)
  deriving DecidableEq

end Session

open Session

/-- `hung` is the parser that does not come to an end, `countdowns` the seconds that the threads still sleep. For the
record: what the clients know, all notices with their receivers, what was done outside, the credentials stored. -/
structure Session where
  state : State
  error : ErrorCode
  result : List Byte
  connHandle : Nat
  advertised : State
  hung : Bool
  countdowns : List Nat
  views : Nat → View
  notices : List (Nat × Notice)
  effects : List Effect
  credentials : List (List Byte × List Byte)

namespace Session

/-- The handler's calls that may fail: `fopen` or `popen`, and `pclose`. -/
structure Outcome where
  opened : Bool
  status : Bool

inductive Event
  | connected (handle : Nat)
  | disconnected (handle : Nat)
  | write (handle : Nat) (data : List Byte) (outcome : Outcome)
  | read (handle : Nat) (characteristic : Characteristic)
  | second

variable (s : Session)

def learn (handle : Nat) (n : Notice) : Session :=
  { s with views := Function.update s.views handle ((s.views handle).learn n) }

/-- A handle that is 0 stands for no client. -/
def notify (n : Notice) : Session :=
  if s.connHandle = 0 then s else { s.learn s.connHandle n with notices := s.notices ++ [(s.connHandle, n)] }

def setState (new : State) : Session :=
  if s.state = new then s else { { s with state := new }.notify (.state new) with advertised := new }

def setError (new : ErrorCode) : Session := if s.error = new then s else { s with error := new }.notify (.error new)

def sendRpcResult (command : Byte) (strings : List (List Byte)) : Session :=
  { s with result := buildRpcResponse command strings true }.notify
    (.result (buildRpcResponse command strings true))

def act (effects : List Effect) : Session := { s with effects := s.effects ++ effects }

/-- `hostname` is the name that the server found at its start. -/
def provision (hostname ssid password : List Byte) : Session :=
  let saved := (s.setState .provisioning).act (((provisionWifi ssid password).take 2).map .system)
  let sent := saved.sendRpcResult WIFI_SETTINGS [ascii "http://" ++ hostname ++ ascii ".local"]
  let done := (sent.setState .provisioned).setError .none
  { done with countdowns := 10 :: done.countdowns, credentials := (ssid, password) :: done.credentials }

def handleWifiSettings (hostname ssid password : List Byte) : Session :=
  if s.state ≠ .authorized then s.setError .notAuthorized else s.provision hostname ssid password

/-- The line of `identify`. -/
def chime : List Byte := ascii "play /usr/share/sounds/chime_1.opus 2>/dev/null &"

def handleIdentify : Session :=
  (s.act [.system chime]).sendRpcResult IDENTIFY []

def handleGetDeviceInfo : Session :=
  s.sendRpcResult GET_DEVICE_INFO [ascii "1.0.0", ascii "T31", ascii "Thingino"]

def refuse (command : Byte) : Session := (s.setError .invalidRpc).sendRpcResult command [ascii "ERROR"]

/-- The commands follow whether or not the file could be written. -/
def setHostname (name : List Byte) (outcome : Outcome) : Session :=
  if name = [] then s.refuse SET_HOSTNAME
  else
    let file := if outcome.opened then [Effect.file (ascii "/etc/hostname") (cstr name ++ [10])] else []
    (s.act (file ++ (handleSetHostname name).map .system)).sendRpcResult SET_HOSTNAME [ascii "OK"]

def setRootPassword (password : List Byte) (outcome : Outcome) : Session :=
  if password = [] then s.refuse SET_ROOT_PASSWORD
  else if outcome.opened then
    (s.act [.pipe (ascii "chpasswd -c sha512") (ascii "root:" ++ cstr password ++ [10])]).sendRpcResult
      SET_ROOT_PASSWORD [if outcome.status then ascii "OK" else ascii "ERROR"]
  else s

def setTimezone (timezone : List Byte) (outcome : Outcome) : Session :=
  if timezone = [] then s.refuse SET_TIMEZONE
  else if outcome.opened then
    (s.act [.file (ascii "/etc/timezone") (cstr timezone ++ [10])]).sendRpcResult SET_TIMEZONE [ascii "OK"]
  else s.sendRpcResult SET_TIMEZONE [ascii "ERROR"]

def handle (hostname : List Byte) (outcome : Outcome) : Call → Session
  | .error .invalidRpc => s.setError .invalidRpc
  | .error .unknownRpc => s.setError .unknownRpc
  | .wifiSettings ssid password => s.handleWifiSettings hostname ssid password
  | .identify => s.handleIdentify
  | .getDeviceInfo => s.handleGetDeviceInfo
  | .setHostname name => s.setHostname name outcome
  | .setRootPassword password => s.setRootPassword password outcome
  | .setTimezone timezone => s.setTimezone timezone outcome

def value : Characteristic → Notice
  | .state => .state s.state
  | .error => .error s.error
  | .result => .result s.result

/-- A thread whose countdown is over reboots, and is gone. -/
def second : Session :=
  { s with
    countdowns := (s.countdowns.map (· - 1)).filter (0 < ·)
    effects := s.effects ++ (s.countdowns.filter (· ≤ 1)).map fun _ => .system (ascii "reboot") }

def connected (h : Nat) : Session := { s with connHandle := h, views := Function.update s.views h ⟨none, none, none⟩ }

def write (hostname data : List Byte) (outcome : Outcome) : Session :=
  match handleRpcCommand data with
  | some call => s.handle hostname outcome call
  | none => { s with hung := true }

/-- A step of the server, or a second for the threads. -/
def next (hostname : List Byte) : Event → Session
  | .connected h => s.connected h
  | .disconnected _ => { s with connHandle := 0 }
  | .write _ data outcome => s.write hostname data outcome
  | .read h characteristic => s.learn h (s.value characteristic)
  | .second => s.second

def Event.ofServer : Event → Bool
  | .second => false
  | _ => true

def step (hostname : List Byte) (e : Event) : Option Session :=
  if s.hung && e.ofServer then none else some (s.next hostname e)

def initial : Session :=
  ⟨.authorized, .none, [], 0, .authorized, false, [], fun _ => ⟨none, none, none⟩, [], [], []⟩

/-! ### What a client knows -/

/-- What the client that is notified knows is so. -/
structure Known : Prop where
  state : s.connHandle ≠ 0 → ∀ x ∈ (s.views s.connHandle).state, x = s.state
  error : s.connHandle ≠ 0 → ∀ x ∈ (s.views s.connHandle).error, x = s.error
  result : s.connHandle ≠ 0 → ∀ x ∈ (s.views s.connHandle).result, x = s.result

def Notice.state? : Notice → Option State
  | .state value => some value
  | _ => none

/-- The states that the clients were notified of, in order. -/
def told : List State := s.notices.filterMap fun n => n.2.state?

/-- The error, the result and what is outside may change; the rest of a notice is the same. -/
structure Talks (s s' : Session) (effects : List Effect) : Prop where
  state : s'.state = s.state
  advertised : s'.advertised = s.advertised
  connHandle : s'.connHandle = s.connHandle
  countdowns : s'.countdowns = s.countdowns
  credentials : s'.credentials = s.credentials
  effects : s'.effects = s.effects ++ effects
  told : s'.told = s.told
  known : s.Known → s'.Known

/-- The state changes, and the client that is notified learns it. -/
structure Moves (s s' : Session) (new : State) : Prop where
  state : s'.state = new
  advertised : s'.advertised = new
  connHandle : s'.connHandle = s.connHandle
  countdowns : s'.countdowns = s.countdowns
  credentials : s'.credentials = s.credentials
  effects : s'.effects = s.effects
  told : s'.told = s.told ++ if s.connHandle = 0 then [] else [new]
  known : s.Known → s'.Known

variable {s} {s' s'' : Session} {effects effects' : List Effect}

theorem Talks.trans (h : Talks s s' effects) (h' : Talks s' s'' effects') : Talks s s'' (effects ++ effects') where
  state := h'.state.trans h.state
  advertised := h'.advertised.trans h.advertised
  connHandle := h'.connHandle.trans h.connHandle
  countdowns := h'.countdowns.trans h.countdowns
  credentials := h'.credentials.trans h.credentials
  effects := by rw [h'.effects, h.effects, List.append_assoc]
  told := h'.told.trans h.told
  known hknown := h'.known (h.known hknown)

theorem talks_act (effects : List Effect) : Talks s (s.act effects) effects :=
  ⟨rfl, rfl, rfl, rfl, rfl, rfl, rfl, fun h => ⟨h.state, h.error, h.result⟩⟩

theorem talks_setError (new : ErrorCode) : Talks s (s.setError new) [] := by
  unfold setError
  split
  · exact ⟨rfl, rfl, rfl, rfl, rfl, (List.append_nil _).symm, rfl, id⟩
  · unfold notify
    split
    · rename_i hnone
      exact ⟨rfl, rfl, rfl, rfl, rfl, (List.append_nil _).symm, rfl,
        fun _ => ⟨fun h => absurd hnone h, fun h => absurd hnone h, fun h => absurd hnone h⟩⟩
    · refine ⟨rfl, rfl, rfl, rfl, rfl, (List.append_nil _).symm, ?_, fun h => ⟨?_, ?_, ?_⟩⟩
      · simp [told, Notice.state?]
      · simpa [learn, View.learn] using h.state
      · simp [learn, View.learn]
      · simpa [learn, View.learn] using h.result

theorem talks_sendRpcResult (command : Byte) (strings : List (List Byte)) :
    Talks s (s.sendRpcResult command strings) [] := by
  unfold sendRpcResult notify
  split
  · rename_i hnone
    exact ⟨rfl, rfl, rfl, rfl, rfl, (List.append_nil _).symm, rfl,
      fun _ => ⟨fun h => absurd hnone h, fun h => absurd hnone h, fun h => absurd hnone h⟩⟩
  · refine ⟨rfl, rfl, rfl, rfl, rfl, (List.append_nil _).symm, ?_, fun h => ⟨?_, ?_, ?_⟩⟩
    · simp [told, Notice.state?]
    · simpa [learn, View.learn] using h.state
    · simpa [learn, View.learn] using h.error
    · simp [learn, View.learn]

theorem moves_setState {new : State} (hnew : s.state ≠ new) : Moves s (s.setState new) new := by
  unfold setState
  rw [if_neg hnew]
  unfold notify
  split
  · rename_i hnone
    have hnone : s.connHandle = 0 := hnone
    refine ⟨rfl, rfl, rfl, rfl, rfl, rfl, ?_, fun _ => ?_⟩
    · rw [if_pos hnone, List.append_nil]
      rfl
    · exact ⟨fun h => absurd hnone h, fun h => absurd hnone h, fun h => absurd hnone h⟩
  · rename_i hsome
    have hsome : s.connHandle ≠ 0 := hsome
    refine ⟨rfl, rfl, rfl, rfl, rfl, rfl, ?_, fun h => ⟨?_, ?_, ?_⟩⟩
    · simp [told, Notice.state?, hsome]
    · simp [learn, View.learn]
    · simpa [learn, View.learn] using h.error
    · simpa [learn, View.learn] using h.result

/-! ### What is done outside -/

/-- The command that the shell makes of a line. -/
def Effect.argv? : Effect → Option (List (List Byte))
  | .system line => (command line).map Command.argv
  | _ => none

/-- It stores a credential. -/
def isCredential (argv : List (List Byte)) : Bool :=
  argv.head? = some (ascii "fw_setenv") && (argv[1]? = some (ascii "wlan_ssid") || argv[1]? = some (ascii "wlan_pass"))

def isReboot (argv : List (List Byte)) : Bool := argv = [ascii "reboot"]

/-- The commands that are run. -/
def ran (effects : List Effect) : List (List (List Byte)) := effects.filterMap Effect.argv?

/-- The shell makes one command of a line. -/
def Simple (effects : List Effect) : Prop :=
  ∀ line, Effect.system line ∈ effects → line = chime ∨ ∃ argv, Runs line argv

/-- Neither stores credentials nor reboots. -/
structure Plain (effects : List Effect) : Prop where
  simple : Simple effects
  others : ∀ argv ∈ ran effects, isCredential argv = false ∧ isReboot argv = false

/-- The texts of a request come through the shell as they are. -/
def Event.quotable (s : Session) : Event → Bool
  | .write _ data _ =>
    (handleRpcCommand data).all fun call => call.texts.all (!·.contains 0) && call.exact (s.state = .authorized)
  | _ => true

theorem quotable_write {handle : Nat} {data : List Byte} {outcome : Outcome}
    (h : (Event.write handle data outcome).quotable s = true) : ∀ call, handleRpcCommand data = some call →
      (∀ text ∈ call.texts, 0#8 ∉ text) ∧ call.exact (s.state = .authorized) = true := by
  intro call hcall
  rw [Event.quotable, hcall, Option.all_some, Bool.and_eq_true, List.all_eq_true] at h
  refine ⟨fun text htext hmem => ?_, h.2⟩
  have hnot := (Bool.not_eq_true' _).mp (h.1 text htext)
  exact Bool.false_ne_true (hnot.symm.trans (List.contains_iff_mem.mpr hmem))

theorem argv_of_runs {line : List Byte} {argv : List (List Byte)} (h : Runs line argv) :
    (Effect.system line).argv? = some argv := by
  obtain ⟨c, hc, hargv, -⟩ := h
  rw [Effect.argv?, hc, ← hargv]
  rfl

/-- The commands of lines that run. -/
theorem ran_of_forall₂ {lines : List (List Byte)} {argvs : List (List (List Byte))} (h : List.Forall₂ Runs lines argvs) :
    ran (lines.map .system) = argvs ∧ Simple (lines.map .system) := by
  induction h with
  | nil => exact ⟨rfl, fun line hline => absurd hline List.not_mem_nil⟩
  | cons hrun _ ih =>
    constructor
    · rw [ran, List.map_cons, List.filterMap_cons_some (argv_of_runs hrun)]
      exact congrArg _ ih.1
    · intro line hline
      obtain heq | hline := List.mem_cons.mp hline
      · cases heq
        exact .inr ⟨_, hrun⟩
      · exact ih.2 line hline

theorem ran_append (effects effects' : List Effect) : ran (effects ++ effects') = ran effects ++ ran effects' :=
  List.filterMap_append

theorem simple_append (h : Simple effects) (h' : Simple effects') : Simple (effects ++ effects') := fun line hline =>
  (List.mem_append.mp hline).elim (h line) (h' line)

theorem plain_nil : Plain [] := ⟨fun _ h => absurd h List.not_mem_nil, fun _ h => absurd h List.not_mem_nil⟩

/-- What is not handed to the shell. -/
theorem plain_other {x : Effect} (h : ∀ line, x ≠ .system line) : Plain [x] := by
  constructor
  · intro line hline
    exact absurd (List.mem_singleton.mp hline).symm (h line)
  · intro argv hargv
    cases x with
    | system line => exact absurd rfl (h line)
    | file path content => exact absurd hargv List.not_mem_nil
    | pipe command input => exact absurd hargv List.not_mem_nil

theorem plain_chime : Plain [.system chime] := by
  constructor
  · intro line hline
    cases List.mem_singleton.mp hline
    exact .inl rfl
  · decide

theorem plain_setHostname {name data : List Byte} (hcall : handleRpcCommand data = some (.setHostname name))
    (hquotable : (∀ text ∈ (Call.setHostname name).texts, 0#8 ∉ text) ∧
      (Call.setHostname name).exact (s.state = .authorized) = true) (hne : name ≠ []) (outcome : Outcome) :
    Plain ((if outcome.opened then [Effect.file (ascii "/etc/hostname") (cstr name ++ [10])] else []) ++
      (handleSetHostname name).map .system) := by
  obtain ⟨hran, hsimple⟩ := ran_of_forall₂ ((forall₂_runs_iff _ hcall hquotable.1).mpr hquotable.2)
  have hfile : Plain (if outcome.opened then [Effect.file (ascii "/etc/hostname") (cstr name ++ [10])] else []) := by
    split
    · exact plain_other fun line heq => by cases heq
    · exact plain_nil
  refine ⟨simple_append hfile.simple hsimple, fun argv hargv => ?_⟩
  rw [ran_append, List.mem_append] at hargv
  obtain hargv | hargv := hargv
  · exact hfile.others argv hargv
  · have hlines : ran ((handleSetHostname name).map .system) =
        [[ascii "fw_setenv", ascii "hostname", name], [ascii "hostname", name]] := by
      refine hran.trans ?_
      rw [intended, if_neg hne]
    rw [hlines] at hargv
    -- the commands differ from those for the credentials before the name comes
    obtain rfl | hargv := List.mem_cons.mp hargv
    · exact ⟨rfl, rfl⟩
    · obtain rfl := List.mem_singleton.mp hargv
      exact ⟨rfl, rfl⟩

/-- Only the credentials, in the state for them, are more than talk. -/
theorem talks_handle {call : Call} {data : List Byte} (hostname : List Byte) (outcome : Outcome)
    (hdata : handleRpcCommand data = some call)
    (hquotable : (∀ text ∈ call.texts, 0#8 ∉ text) ∧ call.exact (s.state = .authorized) = true)
    (hcall : s.state = .authorized → ∀ ssid password, call ≠ .wifiSettings ssid password) :
    ∃ effects, Plain effects ∧ Talks s (s.handle hostname outcome call) effects := by
  have hrefuse : ∀ command, Talks s (s.refuse command) [] := fun command =>
    (talks_setError .invalidRpc).trans (talks_sendRpcResult command _)
  have hdone : ∀ effects command strings, Talks s ((s.act effects).sendRpcResult command strings) effects := by
    intro effects command strings
    have htalks := (talks_act (s := s) effects).trans (talks_sendRpcResult command strings)
    rwa [List.append_nil] at htalks
  cases call with
  | error e => cases e <;> exact ⟨[], plain_nil, talks_setError _⟩
  | wifiSettings ssid password =>
    have hstate : s.state ≠ .authorized := fun h => hcall h ssid password rfl
    refine ⟨[], plain_nil, ?_⟩
    rw [handle, handleWifiSettings, if_pos hstate]
    exact talks_setError _
  | identify => exact ⟨_, plain_chime, hdone _ _ _⟩
  | getDeviceInfo => exact ⟨[], plain_nil, talks_sendRpcResult _ _⟩
  | setHostname name =>
    rw [handle, setHostname]
    split
    · exact ⟨[], plain_nil, hrefuse _⟩
    · rename_i hne
      exact ⟨_, plain_setHostname hdata hquotable hne outcome, hdone _ _ _⟩
  | setRootPassword password =>
    rw [handle, setRootPassword]
    split
    · exact ⟨[], plain_nil, hrefuse _⟩
    split
    · exact ⟨_, plain_other (fun line heq => by cases heq), hdone _ _ _⟩
    · have hsame := talks_act (s := s) []
      rw [act, List.append_nil] at hsame
      exact ⟨[], plain_nil, hsame⟩
  | setTimezone timezone =>
    rw [handle, setTimezone]
    split
    · exact ⟨[], plain_nil, hrefuse _⟩
    split
    · exact ⟨_, plain_other (fun line heq => by cases heq), hdone _ _ _⟩
    · exact ⟨[], plain_nil, talks_sendRpcResult _ _⟩

/-! ### Runs -/

/-- The two commands that store some credentials. -/
def stores (c : List Byte × List Byte) : List (List (List Byte)) :=
  [[ascii "fw_setenv", ascii "wlan_ssid", c.1], [ascii "fw_setenv", ascii "wlan_pass", c.2]]

/-- **The property** of a run. Each line for the shell is one command; the commands that store credentials are run once
at most, with those that the client sent, there is one reboot at most and only behind that, the state and what is
advertised tell whether it happened, and a client that is notified is told both states and knows what is so. After it,
other credentials leave nothing but an error. -/
structure Sound (hostname : List Byte) (s : Session) : Prop where
  state : s.state = .authorized ∧ s.credentials = [] ∨ s.state = .provisioned ∧ s.credentials.length = 1
  advertised : s.advertised = s.state
  simple : Simple s.effects
  stored : (ran s.effects).filter isCredential = s.credentials.flatMap stores
  reboots : ((ran s.effects).filter isReboot).length + s.countdowns.length = s.credentials.length
  told : s.told = [] ∨ s.credentials ≠ [] ∧ s.told = [.provisioning, .provisioned]
  known : s.Known
  refused : ∀ h data outcome s' ssid password, s.credentials ≠ [] → s.step hostname (.write h data outcome) = some s' →
    handleRpcCommand data = some (.wifiSettings ssid password) →
      s'.error = .notAuthorized ∧ s'.state = s.state ∧ s'.result = s.result ∧ s'.effects = s.effects ∧
        s'.credentials = s.credentials

structure Inv (s : Session) : Prop where
  state : s.state = .authorized ∧ s.credentials = [] ∨ s.state = .provisioned ∧ s.credentials.length = 1
  advertised : s.advertised = s.state
  simple : Simple s.effects
  stored : (ran s.effects).filter isCredential = s.credentials.flatMap stores
  reboots : ((ran s.effects).filter isReboot).length + s.countdowns.length = s.credentials.length
  told : s.told = [] ∨ s.credentials ≠ [] ∧ s.told = [.provisioning, .provisioned]
  known : s.Known

theorem inv_initial : Inv initial :=
  ⟨.inl ⟨rfl, rfl⟩, rfl, plain_nil.simple, rfl, rfl, .inl rfl, ⟨nofun, nofun, nofun⟩⟩

theorem Plain.filter (h : Plain effects) :
    (ran effects).filter isCredential = [] ∧ (ran effects).filter isReboot = [] := by
  refine ⟨List.filter_eq_nil_iff.mpr fun argv hargv => ?_, List.filter_eq_nil_iff.mpr fun argv hargv => ?_⟩
  · rw [(h.others argv hargv).1]
    exact Bool.false_ne_true
  · rw [(h.others argv hargv).2]
    exact Bool.false_ne_true

theorem inv_talks (h : Inv s) (htalks : Talks s s' effects) (hplain : Plain effects) : Inv s' := by
  obtain ⟨hcredential, hreboot⟩ := hplain.filter
  refine ⟨?_, ?_, htalks.effects ▸ simple_append h.simple hplain.simple, ?_, ?_, ?_, htalks.known h.known⟩
  · rw [htalks.state, htalks.credentials]
    exact h.state
  · rw [htalks.advertised, htalks.state]
    exact h.advertised
  · rw [htalks.effects, htalks.credentials, ran_append, List.filter_append, hcredential, List.append_nil]
    exact h.stored
  · rw [htalks.effects, htalks.countdowns, htalks.credentials, ran_append, List.filter_append, hreboot, List.append_nil]
    exact h.reboots
  · rw [htalks.told, htalks.credentials]
    exact h.told

/-- What is handed to the shell for some credentials. -/
theorem ran_provision {ssid password data : List Byte}
    (hdata : handleRpcCommand data = some (.wifiSettings ssid password))
    (hquotable : (∀ text ∈ (Call.wifiSettings ssid password).texts, 0#8 ∉ text) ∧
      (Call.wifiSettings ssid password).exact true = true) :
    ran (((provisionWifi ssid password).take 2).map .system) = stores (ssid, password) ∧
      Simple (((provisionWifi ssid password).take 2).map .system) := by
  have hall := (forall₂_runs_iff true hdata hquotable.1).mpr hquotable.2
  exact ran_of_forall₂ (List.forall₂_take 2 hall)

theorem inv_provision {ssid password data : List Byte} (h : Inv s) (hstate : s.state = .authorized)
    (hdata : handleRpcCommand data = some (.wifiSettings ssid password))
    (hquotable : (∀ text ∈ (Call.wifiSettings ssid password).texts, 0#8 ∉ text) ∧
      (Call.wifiSettings ssid password).exact true = true) (hostname : List Byte) :
    Inv (s.provision hostname ssid password) := by
  obtain ⟨-, hnone⟩ | ⟨hprovisioned, -⟩ := h.state
  swap
  · rw [hstate] at hprovisioned
    cases hprovisioned
  have hlast : ∀ s' : Session, s'.told = s.told ++ (if s.connHandle = 0 then [] else [.provisioning]) ++
      (if s.connHandle = 0 then [] else [.provisioned]) → s'.told = [] ∨ s'.told = [.provisioning, .provisioned] := by
    intro s' htold
    rw [htold, h.told.resolve_right fun hsome => hsome.1 hnone]
    split
    · exact .inl rfl
    · exact .inr rfl
  unfold provision
  extract_lets saved sent done
  have hfirst := @moves_setState s .provisioning (by rw [hstate]; nofun)
  have hsaved : Talks (s.setState .provisioning) saved (((provisionWifi ssid password).take 2).map .system) := talks_act _
  have hsent : Talks saved sent [] := talks_sendRpcResult _ _
  have hsecond : Moves sent (sent.setState .provisioned) .provisioned := by
    refine moves_setState ?_
    rw [hsent.state, hsaved.state, hfirst.state]
    nofun
  have hdone : Talks (sent.setState .provisioned) done [] := talks_setError _
  obtain ⟨hran, hsimple⟩ := ran_provision hdata hquotable
  have hcredential : (stores (ssid, password)).filter isCredential = stores (ssid, password) := rfl
  have hreboot : (stores (ssid, password)).filter isReboot = [] := rfl
  have heffects : done.effects = s.effects ++ ((provisionWifi ssid password).take 2).map .system := by
    rw [hdone.effects, List.append_nil, hsecond.effects, hsent.effects, List.append_nil, hsaved.effects,
      hfirst.effects]
  have hcountdowns : done.countdowns = s.countdowns := by
    rw [hdone.countdowns, hsecond.countdowns, hsent.countdowns, hsaved.countdowns, hfirst.countdowns]
  have hcredentials : done.credentials = [] := by
    rw [hdone.credentials, hsecond.credentials, hsent.credentials, hsaved.credentials, hfirst.credentials, hnone]
  have hstate' : done.state = .provisioned := hdone.state.trans hsecond.state
  have hhandle : sent.connHandle = s.connHandle := by
    rw [hsent.connHandle, hsaved.connHandle, hfirst.connHandle]
  have htold := hlast done (by
    rw [hdone.told, hsecond.told, hhandle, hsent.told, hsaved.told, hfirst.told])
  have hreboots := h.reboots
  have hstored := h.stored
  rw [hnone] at hreboots hstored
  have hknown := hdone.known (hsecond.known (hsent.known (hsaved.known (hfirst.known h.known))))
  refine ⟨.inr ⟨hstate', congrArg (List.length ∘ List.cons _) hcredentials⟩, ?_, ?_, ?_, ?_, ?_, ?_⟩
  · exact hdone.advertised.trans (hsecond.advertised.trans hstate'.symm)
  · exact heffects ▸ simple_append h.simple hsimple
  · change (ran done.effects).filter isCredential = ((ssid, password) :: done.credentials).flatMap stores
    rw [heffects, hcredentials, ran_append, List.filter_append, hstored, hran, hcredential]
    simp
  · change ((ran done.effects).filter isReboot).length + (10 :: done.countdowns).length =
      ((ssid, password) :: done.credentials).length
    rw [heffects, hcountdowns, hcredentials, ran_append, List.filter_append, hran, hreboot, List.append_nil]
    simp only [List.length_cons, List.length_nil] at hreboots ⊢
    omega
  · exact htold.imp id fun htold => ⟨List.cons_ne_nil _ _, htold⟩
  · exact ⟨hknown.state, hknown.error, hknown.result⟩

theorem inv_write (h : Inv s) (hostname data : List Byte) (outcome : Outcome)
    (hquotable : ∀ call, handleRpcCommand data = some call →
      (∀ text ∈ call.texts, 0#8 ∉ text) ∧ call.exact (s.state = .authorized) = true) :
    Inv (s.write hostname data outcome) := by
  unfold write
  split
  · rename_i call hcall
    have hquotable := hquotable call hcall
    by_cases hprovision : s.state = .authorized ∧ ∃ ssid password, call = .wifiSettings ssid password
    · obtain ⟨hstate, ssid, password, rfl⟩ := hprovision
      rw [handle, handleWifiSettings, if_neg (not_not.mpr hstate)]
      rw [decide_eq_true hstate] at hquotable
      exact inv_provision h hstate hcall hquotable hostname
    · obtain ⟨effects, hplain, htalks⟩ := @talks_handle s call data hostname outcome hcall hquotable
        fun hstate ssid password heq => hprovision ⟨hstate, ssid, password, heq⟩
      exact inv_talks h htalks hplain
  · exact ⟨h.state, h.advertised, h.simple, h.stored, h.reboots, h.told, h.known.state, h.known.error,
      h.known.result⟩

/-- A thread sleeps on or has rebooted. -/
theorem length_countdowns (l : List Nat) :
    ((l.map (· - 1)).filter (0 < ·)).length + (l.filter (· ≤ 1)).length = l.length := by
  induction l with
  | nil => rfl
  | cons n l ih =>
    by_cases hn : n ≤ 1
    · have hzero : ¬0 < n - 1 := by omega
      simp only [List.map_cons, List.filter_cons, decide_eq_true hn, decide_eq_false hzero, List.length_cons,
        if_true, Bool.false_eq_true, if_false]
      omega
    · have hpos : 0 < n - 1 := by omega
      simp only [List.map_cons, List.filter_cons, decide_eq_false hn, decide_eq_true hpos, List.length_cons,
        if_true, Bool.false_eq_true, if_false]
      omega

/-- What the threads run. -/
theorem ran_reboots (l : List Nat) :
    ran (l.map fun _ => .system (ascii "reboot")) = l.map (fun _ => [ascii "reboot"]) ∧
      Simple (l.map fun _ => .system (ascii "reboot")) := by
  have hreboot : Runs (ascii "reboot") [ascii "reboot"] := ⟨⟨[ascii "reboot"], []⟩, by decide, rfl, by decide⟩
  have hall : List.Forall₂ Runs (l.map fun _ => ascii "reboot") (l.map fun _ => [ascii "reboot"]) := by
    rw [List.forall₂_map_left_iff, List.forall₂_map_right_iff]
    exact List.forall₂_same.mpr fun _ _ => hreboot
  have hran := ran_of_forall₂ hall
  rwa [List.map_map] at hran

theorem inv_second (h : Inv s) : Inv s.second := by
  have hlength := length_countdowns s.countdowns
  have hreboots := h.reboots
  obtain ⟨hran, hsimple⟩ := ran_reboots (s.countdowns.filter (· ≤ 1))
  refine ⟨h.state, h.advertised, simple_append h.simple hsimple, ?_, ?_, h.told, h.known.state, h.known.error,
    h.known.result⟩
  · change (ran (s.effects ++ (s.countdowns.filter (· ≤ 1)).map fun _ => Effect.system (ascii "reboot"))).filter
      isCredential = s.credentials.flatMap stores
    rw [ran_append, hran, List.filter_append, h.stored]
    refine (congrArg _ (List.filter_eq_nil_iff.mpr ?_)).trans (List.append_nil _)
    intro argv hargv
    obtain ⟨-, -, rfl⟩ := List.mem_map.mp hargv
    decide
  · change ((ran (s.effects ++ (s.countdowns.filter (· ≤ 1)).map fun _ => Effect.system (ascii "reboot"))).filter
        isReboot).length + ((s.countdowns.map (· - 1)).filter (0 < ·)).length = s.credentials.length
    rw [ran_append, hran, List.filter_append, List.length_append]
    have hall : ((s.countdowns.filter (· ≤ 1)).map fun _ => [ascii "reboot"]).filter isReboot =
        (s.countdowns.filter (· ≤ 1)).map fun _ => [ascii "reboot"] := by
      refine List.filter_eq_self.mpr fun argv hargv => ?_
      obtain ⟨-, -, rfl⟩ := List.mem_map.mp hargv
      exact rfl
    rw [hall, List.length_map]
    omega

theorem known_connected (h : Nat) : (s.connected h).Known := by
  refine ⟨?_, ?_, ?_⟩ <;>
  · intro _ x hx
    simp [connected] at hx

theorem known_read (h : s.Known) (handle : Nat) (characteristic : Characteristic) :
    (s.learn handle (s.value characteristic)).Known := by
  by_cases hhandle : s.connHandle = handle
  · subst hhandle
    cases characteristic with
    | state => exact ⟨by simp [learn, value, View.learn], by simpa [learn, value, View.learn] using h.error,
        by simpa [learn, value, View.learn] using h.result⟩
    | error => exact ⟨by simpa [learn, value, View.learn] using h.state, by simp [learn, value, View.learn],
        by simpa [learn, value, View.learn] using h.result⟩
    | result => exact ⟨by simpa [learn, value, View.learn] using h.state,
        by simpa [learn, value, View.learn] using h.error, by simp [learn, value, View.learn]⟩
  · have hview : (s.learn handle (s.value characteristic)).views s.connHandle = s.views s.connHandle :=
      Function.update_of_ne hhandle _ _
    exact ⟨fun hsome => hview ▸ h.state hsome, fun hsome => hview ▸ h.error hsome, fun hsome => hview ▸ h.result hsome⟩

theorem inv_next (h : Inv s) (hostname : List Byte) {e : Event} (hquotable : e.quotable s = true) :
    Inv (s.next hostname e) := by
  cases e with
  | connected handle =>
    exact ⟨h.state, h.advertised, h.simple, h.stored, h.reboots, h.told, known_connected handle⟩
  | disconnected handle =>
    exact ⟨h.state, h.advertised, h.simple, h.stored, h.reboots, h.told,
      ⟨fun hsome => absurd rfl hsome, fun hsome => absurd rfl hsome, fun hsome => absurd rfl hsome⟩⟩
  | write handle data outcome => exact inv_write h hostname data outcome (quotable_write hquotable)
  | read handle characteristic =>
    exact ⟨h.state, h.advertised, h.simple, h.stored, h.reboots, h.told, known_read h.known handle characteristic⟩
  | second => exact inv_second h

theorem next_of_step {hostname : List Byte} {e : Event} (hstep : s.step hostname e = some s') :
    s' = s.next hostname e := by
  unfold step at hstep
  split at hstep
  · cases hstep
  · exact (Option.some.inj hstep).symm

theorem Inv.sound (h : Inv s) (hostname : List Byte) : Sound hostname s := by
  refine ⟨h.state, h.advertised, h.simple, h.stored, h.reboots, h.told, h.known, ?_⟩
  intro handle data outcome s' ssid password hsome hstep hcall
  obtain rfl := next_of_step hstep
  have hstate : s.state ≠ .authorized := by
    obtain ⟨-, hnone⟩ | ⟨hprovisioned, -⟩ := h.state
    · exact absurd hnone hsome
    · rw [hprovisioned]
      nofun
  have hnext : s.next hostname (.write handle data outcome) = s.setError .notAuthorized := by
    simp only [next, write, hcall, Session.handle, handleWifiSettings, if_pos hstate, ne_eq]
  rw [hnext]
  have htalks := talks_setError (s := s) .notAuthorized
  refine ⟨?_, htalks.state, ?_, htalks.effects.trans (List.append_nil _), htalks.credentials⟩
  · unfold setError
    split
    · rename_i hsame
      exact hsame
    · unfold notify
      split <;> rfl
  · unfold setError
    split
    · rfl
    · unfold notify
      split <;> rfl

theorem session_sound {hostname : List Byte}
    (h : Reach (fun s e => s.step hostname e) (fun s e => e.quotable s = true) initial s) : Sound hostname s := by
  have hinv : Inv s := h.invariant inv_initial fun _ _ _ hinv hquotable hstep =>
    next_of_step hstep ▸ inv_next hinv hostname hquotable
  exact hinv.sound hostname

/-- A client provisions, and the server reboots. -/
theorem session_sound_rebooted : ∃ s : Session, Sound (ascii "cam") s ∧ s.credentials = [(ascii "net", ascii "pw")] ∧
    s.countdowns = [] := by
  obtain ⟨s, hreach, hdone⟩ : ∃ s : Session,
      Reach (fun s e => s.step (ascii "cam") e) (fun s e => e.quotable s = true) initial s ∧
      (s.credentials = [(ascii "net", ascii "pw")] ∧ s.countdowns = []) :=
    exists_reach ([.connected 1, .read 1 .state, .write 1 [1, 7, 3, 110, 101, 116, 2, 112, 119, 59] ⟨true, true⟩] ++
      List.replicate 10 .second) (by decide +kernel)
  exact ⟨s, session_sound hreach, hdone⟩

end Session

end Thingino.Bluetooth
