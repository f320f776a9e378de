import Thingino.Lib.CommandLine

/-! Provisioning over Bluetooth: what an RPC payload makes the shell run.

The strings of the payload are put between double quotes as they are, and the host name a second time without
quotes. Whether the shell runs the command that is meant is a question about these bytes alone
(`Call.exact`), and for the host name about the size of its buffer. -/
namespace Thingino.Bluetooth

open Lib Lib.CommandLine

/-! ### The payload -/

structure ImprovCommand where
  command : Byte
  ssid : List Byte
  password : List Byte

def UNKNOWN : Byte := 0x00
def WIFI_SETTINGS : Byte := 0x01
def IDENTIFY : Byte := 0x02
def GET_DEVICE_INFO : Byte := 0x03
def SET_HOSTNAME : Byte := 0x10
def SET_ROOT_PASSWORD : Byte := 0x11
def SET_TIMEZONE : Byte := 0x12
def BAD_CHECKSUM : Byte := 0xFF

def lengthAt (data : List Byte) (i : Nat) : Nat := (data.getD i 0).toNat

/-- `parse_improv_data` with a checksum. Its counter has one byte: with more than 255 bytes in front of the checksum
the loop does not end. -/
def parseImprovData (data : List Byte) : Option ImprovCommand :=
  if lengthAt data 1 + 3 ≠ data.length then some ⟨UNKNOWN, [], []⟩
  else if 255 < data.length - 1 then none
  else if data.dropLast.foldl (· + ·) 0 ≠ data.getLastD 0 then some ⟨BAD_CHECKSUM, [], []⟩
  else if data.getD 0 0 = WIFI_SETTINGS then
    let ssidEnd := 3 + lengthAt data 2
    -- The length of the password may lie behind the payload; then the password has no room whatever it is.
    let passEnd := ssidEnd + 1 + lengthAt data ssidEnd
    if ssidEnd > data.length ∨ passEnd > data.length then some ⟨UNKNOWN, [], []⟩
    else some ⟨WIFI_SETTINGS, (data.drop 3).take (lengthAt data 2), (data.drop (ssidEnd + 1)).take (lengthAt data ssidEnd)⟩
  else some ⟨data.getD 0 0, [], []⟩

inductive Error
  | invalidRpc
  | unknownRpc
  deriving DecidableEq

/-- The handler that a payload is for. -/
inductive Call
  | error (e : Error)
  | wifiSettings (ssid password : List Byte)
  | identify
  | getDeviceInfo
  | setHostname (name : List Byte)
  | setRootPassword (password : List Byte)
  | setTimezone (timezone : List Byte)
  deriving DecidableEq

/-- The single string of a custom command. -/
def parameter (data : List Byte) : Option (List Byte) :=
  if data.length < 3 ∨ data.length < 3 + lengthAt data 2 then none else some ((data.drop 3).take (lengthAt data 2))

def customCall (handler : List Byte → Call) (data : List Byte) : Call :=
  match parameter data with
  | some param => handler param
  | none => .error .invalidRpc

def handleRpcCommand (data : List Byte) : Option Call :=
  (parseImprovData data).map fun cmd =>
    if cmd.command = BAD_CHECKSUM then .error .invalidRpc
    else if cmd.command = UNKNOWN then .error .unknownRpc
    else if cmd.command = WIFI_SETTINGS then .wifiSettings cmd.ssid cmd.password
    else if cmd.command = IDENTIFY then .identify
    else if cmd.command = GET_DEVICE_INFO then .getDeviceInfo
    else if cmd.command = SET_HOSTNAME then customCall .setHostname data
    else if cmd.command = SET_ROOT_PASSWORD then customCall .setRootPassword data
    else if cmd.command = SET_TIMEZONE then customCall .setTimezone data
    else .error .unknownRpc

/-! ### The commands -/

/-- The lines that `provision_wifi` hands to the shell. -/
def provisionWifi (ssid password : List Byte) : List (List Byte) :=
  [snprintf 512 (ascii "fw_setenv wlan_ssid \"") ssid (ascii "\" 2>/dev/null"),
    if cstr password = [] then ascii "fw_setenv wlan_pass \"\" 2>/dev/null"
    else snprintf 512 (ascii "fw_setenv wlan_pass \"") password (ascii "\" 2>/dev/null"),
    ascii "reboot"]

def handleSetHostname (name : List Byte) : List (List Byte) :=
  if name = [] then []
  else
    [snprintf 256 (ascii "fw_setenv hostname \"") name (ascii "\" 2>/dev/null"),
      snprintf 256 (ascii "hostname ") name []]

/-- What the two handlers hand to the shell; the flag is the state `STATE_AUTHORIZED`. -/
def systemCalls (authorized : Bool) : Call → List (List Byte)
  | .wifiSettings ssid password => if authorized then provisionWifi ssid password else []
  | .setHostname name => handleSetHostname name
  | _ => []

/-! ### What is meant -/

/-- Where the messages of `fw_setenv` go. -/
def quiet : Redirect := ⟨2, ascii "/dev/null"⟩

/-- The shell runs this command, and nothing else is redirected. -/
def Runs (line : List Byte) (argv : List (List Byte)) : Prop :=
  ∃ c, command line = some c ∧ c.argv = argv ∧ ∀ r ∈ c.redirects, r = quiet

/-- The commands that a call is for. -/
def intended (authorized : Bool) : Call → List (List (List Byte))
  | .wifiSettings ssid password =>
    if authorized then
      [[ascii "fw_setenv", ascii "wlan_ssid", ssid], [ascii "fw_setenv", ascii "wlan_pass", password], [ascii "reboot"]]
    else []
  | .setHostname name =>
    if name = [] then [] else [[ascii "fw_setenv", ascii "hostname", name], [ascii "hostname", name]]
  | _ => []

/-- **The property** of a payload: the shell runs the commands that are meant, one for each line. -/
def RunsIntended (authorized : Bool) (data : List Byte) : Prop :=
  ∀ call, handleRpcCommand data = some call → List.Forall₂ Runs (systemCalls authorized call) (intended authorized call)

/-- The strings of a call. -/
def Call.texts : Call → List (List Byte)
  | .wifiSettings ssid password => [ssid, password]
  | .setHostname name => [name]
  | .setRootPassword password => [password]
  | .setTimezone timezone => [timezone]
  | _ => []

/-- The strings of a call come through as they are. With 233 or 234 bytes the first command for a host name ends
right behind its closing quote. -/
def Call.exact (authorized : Bool) : Call → Bool
  | .wifiSettings ssid password => !authorized || quotable ssid && quotable password
  | .setHostname name =>
    name = [] || isBare name && (name.length ≤ 222 || name.length = 233 || name.length = 234)
  | _ => true

/-! ### A string between quotes -/

section Quoted
variable {s : List Byte} {name : List Byte} {words : List (List Byte)} {k : Nat}

/-- What follows the closing quote. -/
def behind : List Byte := ascii " 2>/dev/null"

/-- The command that a part of it makes alone: without a file, with another file, or with a word more. -/
theorem arguments_behind (hk : k ≤ 12) :
    (k = 12 → arguments (behind.take k).tail = some ⟨[], [quiet]⟩) ∧
      (k ≤ 1 → arguments (behind.take k).tail = some ⟨[], []⟩) ∧
      (1 < k → k < 12 →
        (arguments (behind.take k).tail).all (fun r => r.argv = [ascii "2"] || r.redirects.any (· ≠ quiet)) = true) := by
  have hall : ∀ k < 13, (k = 12 → arguments (behind.take k).tail = some ⟨[], [quiet]⟩) ∧
      (k ≤ 1 → arguments (behind.take k).tail = some ⟨[], []⟩) ∧
      (1 < k → k < 12 →
        (arguments (behind.take k).tail).all (fun r => r.argv = [ascii "2"] || r.redirects.any (· ≠ quiet)) = true) := by
    decide
  exact hall k (Nat.lt_succ_of_le hk)

theorem lex_behind (hk : k ≤ 12) :
    ∃ rest, (∀ word, lex (.plain (some word)) (behind.take k) = some (.word word :: rest)) ∧
      collect rest = arguments (behind.take k).tail := by
  cases k with
  | zero => exact ⟨[], fun _ => rfl, rfl⟩
  | succ k =>
    have hsome : ∀ k < 12, (lex (.plain none) (behind.take (k + 1)).tail).isSome = true := by decide
    obtain ⟨rest, hrest⟩ := Option.isSome_iff_exists.mp (hsome k hk)
    refine ⟨rest, fun word => ?_, by rw [arguments, hrest]; rfl⟩
    have hcons : behind.take (k + 1) = 32 :: (behind.take (k + 1)).tail := rfl
    have hstep : step (.plain (some word)) 32 (behind.take (k + 1)).tail = some ([.word word], .plain none) := rfl
    rw [hcons, lex_cons, hstep, Option.bind_some, hrest]
    rfl

/-- A line with a string between quotes and some of what follows them. -/
theorem runs_quoted_iff (hwords : ∀ word ∈ name :: words, isBare word = true)
    (hname : isCommandName (name.map (·, false)) = true) (hk : k ≤ 12) (hlen : k = 12 ∨ 2 ≤ s.length) :
    Runs (lead (name :: words) ++ 34 :: (s ++ 34 :: behind.take k)) (name :: words ++ [s]) ↔
      quotable s = true ∧ (k = 12 ∨ k ≤ 1) := by
  obtain ⟨rest, hrest, hcollect⟩ := lex_behind hk
  obtain ⟨hfull, hnone, hpart⟩ := arguments_behind hk
  rw [Runs, command_lead hwords hname]
  constructor
  · intro h
    obtain ⟨c, hc, hargv, hquiet⟩ := h
    obtain ⟨a, ha, rfl⟩ := Option.map_eq_some_iff.mp hc
    have hdouble : (34 : Byte) ∉ behind.take k := fun hmem => absurd (List.mem_of_mem_take hmem) (by decide)
    have hsingle : (39 : Byte) ∉ behind.take k := fun hmem => absurd (List.mem_of_mem_take hmem) (by decide)
    obtain ⟨f, r, hr, hsplit, hredirects, hquotable⟩ := arguments_front hdouble hsingle hrest ha
    have hone : f.argv ++ r.argv = [s] := by
      rw [← hsplit]
      exact List.append_cancel_left hargv
    rw [hcollect] at hr
    have hwhole : r.argv = [] → quotable s = true := by
      intro hnil
      rw [hnil, List.append_nil] at hone
      exact hquotable (by rw [Command.size, hone]; simp)
    by_cases hend : k = 12 ∨ k ≤ 1
    · refine ⟨hwhole ?_, hend⟩
      rcases hend with hend | hend
      · rw [hfull hend] at hr
        cases hr
        rfl
      · rw [hnone hend] at hr
        cases hr
        rfl
    · -- The file is another one, or what is left of the redirection is an argument.
      exfalso
      rw [not_or, Nat.not_le] at hend
      have hbad := hpart hend.2 (Nat.lt_of_le_of_ne hk hend.1)
      rw [hr, Option.all_some, Bool.or_eq_true, decide_eq_true_eq, List.any_eq_true] at hbad
      rcases hbad with htwo | hfile
      · rw [htwo] at hone
        have hlast := congrArg List.getLast? hone
        rw [List.getLast?_append, List.getLast?_singleton, List.getLast?_singleton, Option.some_or] at hlast
        have hshort := congrArg List.length (Option.some.inj hlast)
        have htwo : (ascii "2").length = 1 := rfl
        omega
      · obtain ⟨x, hx, hne⟩ := hfile
        rw [decide_eq_true_eq] at hne
        exact hne (hquiet x (hredirects ▸ List.mem_append_right _ hx))
  · intro h
    obtain ⟨hquotable, hend⟩ := h
    rcases hend with hend | hend
    · rw [arguments_quoted hrest (hcollect.trans (hfull hend)) hquotable]
      refine ⟨_, rfl, rfl, fun r hr => ?_⟩
      exact List.mem_singleton.mp hr
    · rw [arguments_quoted hrest (hcollect.trans (hnone hend)) hquotable]
      exact ⟨_, rfl, rfl, fun r hr => absurd hr List.not_mem_nil⟩

/-- A line for which there is room up to its closing quote. -/
theorem snprintf_quoted {size : Nat} (front : List Byte) (hnul : 0#8 ∉ s) (hroom : front.length + s.length + 2 < size) :
    snprintf size (front ++ [34]) s (34 :: behind) =
      front ++ 34 :: (s ++ 34 :: behind.take (min 12 (size - 1 - (front.length + s.length + 2)))) := by
  have hwhole : front ++ [34] ++ cstr s ++ 34 :: behind = (front ++ 34 :: (s ++ [34])) ++ behind := by
    rw [cstr_eq_self hnul]
    simp
  have hlen : (front ++ 34 :: (s ++ [34])).length = front.length + s.length + 2 := by
    simp
    omega
  have hbehind : behind.length = 12 := rfl
  rw [snprintf, hwhole, List.take_append, hlen, List.take_of_length_le (by omega)]
  have hmin : behind.take (size - 1 - (front.length + s.length + 2)) =
      behind.take (min 12 (size - 1 - (front.length + s.length + 2))) := by
    rw [← hbehind, Nat.min_comm, ← List.take_take, List.take_length]
  rw [hmin]
  simp

/-- A line that ends in front of its closing quote. -/
theorem snprintf_open {size : Nat} (front : List Byte) (hnul : 0#8 ∉ s) (hfront : front.length + 1 < size)
    (hroom : size ≤ front.length + s.length + 2) :
    snprintf size (front ++ [34]) s (34 :: behind) = front ++ 34 :: s.take (size - 1 - (front.length + 1)) := by
  have hlen : (front ++ [34]).length = front.length + 1 := by simp
  rw [snprintf, cstr_eq_self hnul, List.append_assoc, List.take_append, hlen, List.take_of_length_le (by omega),
    List.take_append_of_le_length (by omega)]
  simp

/-- A string of at most 255 bytes, in the large buffer. -/
theorem runs_fwSetenv (key : List Byte) (hkey : isBare key = true) (hshort : key.length ≤ 16) (hnul : 0#8 ∉ s)
    (hlen : s.length ≤ 255) :
    Runs (snprintf 512 (lead [ascii "fw_setenv", key] ++ [34]) s (34 :: behind)) [ascii "fw_setenv", key, s] ↔
      quotable s = true := by
  have hlead : (lead [ascii "fw_setenv", key]).length = key.length + 11 := by
    simp [lead, ascii]
  rw [snprintf_quoted _ hnul (by omega), Nat.min_eq_left (by omega)]
  refine (runs_quoted_iff (k := 12) ?_ (by decide) (Nat.le_refl 12) (Or.inl rfl)).trans (and_iff_left (Or.inl rfl))
  intro word hword
  rcases List.mem_cons.mp hword with rfl | hword
  · decide
  · exact List.mem_singleton.mp hword ▸ hkey

/-- The first command for a host name, in the small buffer. -/
theorem runs_fwSetenv_hostname (hnul : 0#8 ∉ s) :
    Runs (snprintf 256 (ascii "fw_setenv hostname \"") s (ascii "\" 2>/dev/null"))
        [ascii "fw_setenv", ascii "hostname", s] ↔
      quotable s = true ∧ (s.length ≤ 222 ∨ s.length = 233 ∨ s.length = 234) := by
  have hfront : ascii "fw_setenv hostname \"" = lead [ascii "fw_setenv", ascii "hostname"] ++ [34] := by decide
  have hbehind : ascii "\" 2>/dev/null" = 34 :: behind := rfl
  have hlead : (lead [ascii "fw_setenv", ascii "hostname"]).length = 19 := by decide
  have hwords : ∀ word ∈ [ascii "fw_setenv", ascii "hostname"], isBare word = true := by decide
  rw [hfront, hbehind]
  by_cases hroom : s.length ≤ 234
  · rw [snprintf_quoted _ hnul (by omega), hlead]
    refine (runs_quoted_iff hwords (by decide) (Nat.min_le_left _ _) (by omega)).trans (and_congr_right fun _ => ?_)
    omega
  · rw [snprintf_open _ hnul (by omega) (by omega), hlead]
    refine iff_of_false ?_ (by omega)
    intro h
    obtain ⟨c, hc, hargv, -⟩ := h
    rw [command_lead hwords (by decide)] at hc
    obtain ⟨a, ha, rfl⟩ := Option.map_eq_some_iff.mp hc
    exact arguments_open ha (List.length_take_le' _ _) (List.append_cancel_left hargv)

/-- The second command for a host name. -/
theorem runs_hostname (hnul : 0#8 ∉ s) (hne : s ≠ []) (hlen : s.length ≤ 234) :
    Runs (snprintf 256 (ascii "hostname ") s []) [ascii "hostname", s] ↔ isBare s = true := by
  have hfront : ascii "hostname " = lead [ascii "hostname"] := by decide
  have hlead : (lead [ascii "hostname"]).length = 9 := by decide
  rw [snprintf, cstr_eq_self hnul, List.append_nil, hfront, List.take_of_length_le (by simp; omega), Runs,
    command_lead (by decide) (by decide)]
  constructor
  · intro h
    obtain ⟨c, hc, hargv, -⟩ := h
    obtain ⟨a, ha, rfl⟩ := Option.map_eq_some_iff.mp hc
    exact isBare_of_arguments ha (List.append_cancel_left hargv) hne
  · intro h
    rw [arguments_bare h]
    exact ⟨_, rfl, rfl, fun r hr => absurd hr List.not_mem_nil⟩

end Quoted

/-! ### The commands of a payload -/

section Payload
variable {data ssid password : List Byte}

/-- The strings of a payload have their lengths in one byte each. -/
theorem length_of_parse {cmd : ImprovCommand} (h : parseImprovData data = some cmd) :
    cmd.ssid.length ≤ 255 ∧ cmd.password.length ≤ 255 := by
  have hbyte : ∀ i, lengthAt data i ≤ 255 := fun i => Nat.le_of_lt_succ (BitVec.isLt _)
  unfold parseImprovData at h
  dsimp only at h
  split_ifs at h <;> cases h
  · exact ⟨Nat.zero_le _, Nat.zero_le _⟩
  · exact ⟨Nat.zero_le _, Nat.zero_le _⟩
  · exact ⟨Nat.zero_le _, Nat.zero_le _⟩
  · exact ⟨Nat.le_trans (List.length_take_le _ _) (hbyte _), Nat.le_trans (List.length_take_le _ _) (hbyte _)⟩
  · exact ⟨Nat.zero_le _, Nat.zero_le _⟩

theorem length_of_wifiSettings (h : handleRpcCommand data = some (.wifiSettings ssid password)) :
    ssid.length ≤ 255 ∧ password.length ≤ 255 := by
  obtain ⟨cmd, hparse, hcall⟩ := Option.map_eq_some_iff.mp h
  have hcustom : ∀ handler : List Byte → Call, (∀ text, handler text ≠ .wifiSettings ssid password) →
      customCall handler data ≠ .wifiSettings ssid password := by
    intro handler hhandler heq
    unfold customCall at heq
    split at heq
    · exact hhandler _ heq
    · cases heq
  split_ifs at hcall
  · cases hcall
    exact length_of_parse hparse
  · exact absurd hcall (hcustom _ fun _ heq => by cases heq)
  · exact absurd hcall (hcustom _ fun _ heq => by cases heq)
  · exact absurd hcall (hcustom _ fun _ heq => by cases heq)

theorem runs_password (hnul : 0#8 ∉ password) (hlen : password.length ≤ 255) :
    Runs (if cstr password = [] then ascii "fw_setenv wlan_pass \"\" 2>/dev/null"
        else snprintf 512 (ascii "fw_setenv wlan_pass \"") password (ascii "\" 2>/dev/null"))
      [ascii "fw_setenv", ascii "wlan_pass", password] ↔ quotable password = true := by
  have hfront : ascii "fw_setenv wlan_pass \"" = lead [ascii "fw_setenv", ascii "wlan_pass"] ++ [34] := by decide
  have hline := runs_fwSetenv (ascii "wlan_pass") (by decide) (by decide) hnul hlen
  rw [← hfront] at hline
  rw [cstr_eq_self hnul]
  split
  · rename_i hnil
    rw [hnil] at hline ⊢
    exact hline
  · exact hline

/-- The lines of a call are the commands that are meant exactly where its strings come through. -/
theorem forall₂_runs_iff (authorized : Bool) {call : Call} (hcall : handleRpcCommand data = some call)
    (hnul : ∀ text ∈ call.texts, 0#8 ∉ text) :
    List.Forall₂ Runs (systemCalls authorized call) (intended authorized call) ↔ call.exact authorized = true := by
  cases call with
  | wifiSettings ssid password =>
    obtain ⟨hssid, hpassword⟩ := length_of_wifiSettings hcall
    cases authorized with
    | false => exact iff_of_true .nil rfl
    | true =>
      have hfront : ascii "fw_setenv wlan_ssid \"" = lead [ascii "fw_setenv", ascii "wlan_ssid"] ++ [34] := by decide
      have hfirst := runs_fwSetenv (ascii "wlan_ssid") (by decide) (by decide) (hnul ssid (by simp [Call.texts])) hssid
      rw [← hfront] at hfirst
      have hsecond := runs_password (hnul password (by simp [Call.texts])) hpassword
      have hreboot : Runs (ascii "reboot") [ascii "reboot"] := ⟨⟨[ascii "reboot"], []⟩, by decide, rfl, by decide⟩
      rw [systemCalls, if_pos rfl, intended, if_pos rfl, provisionWifi, List.forall₂_cons, List.forall₂_cons,
        List.forall₂_cons]
      simp only [Call.exact, Bool.not_true, Bool.false_or, Bool.and_eq_true]
      rw [← hfirst, ← hsecond]
      exact and_congr_right fun _ => ⟨fun h => h.1, fun h => ⟨h, hreboot, .nil⟩⟩
  | setHostname name =>
    have hname := hnul name (by simp [Call.texts])
    rw [systemCalls, handleSetHostname, intended]
    by_cases hne : name = []
    · rw [if_pos hne, if_pos hne]
      exact iff_of_true .nil (by rw [Call.exact, decide_eq_true hne]; rfl)
    · rw [if_neg hne, if_neg hne, List.forall₂_cons, List.forall₂_cons, runs_fwSetenv_hostname hname]
      simp only [Call.exact, decide_eq_false hne, Bool.false_or, Bool.and_eq_true, Bool.or_eq_true, decide_eq_true_eq]
      constructor
      · intro h
        obtain ⟨⟨-, hlen⟩, hbare, -⟩ := h
        exact ⟨(runs_hostname hname hne (by omega)).mp hbare, by omega⟩
      · intro h
        obtain ⟨hbare, hlen⟩ := h
        exact ⟨⟨quotable_of_bareBytes (isBare_iff.mp hbare).2.1, by omega⟩,
          (runs_hostname hname hne (by omega)).mpr hbare, .nil⟩
  | error e => exact iff_of_true .nil rfl
  | identify => exact iff_of_true .nil rfl
  | getDeviceInfo => exact iff_of_true .nil rfl
  | setRootPassword password => exact iff_of_true .nil rfl
  | setTimezone timezone => exact iff_of_true .nil rfl

/-- **A payload makes the shell run exactly the commands that are meant** where its SSID and its password come
through between double quotes, and its host name as a bare word that the buffer has room for. -/
theorem runsIntended_iff (authorized : Bool) (data : List Byte)
    (hnul : ∀ call, handleRpcCommand data = some call → ∀ text ∈ call.texts, 0#8 ∉ text) :
    RunsIntended authorized data ↔ ∀ call, handleRpcCommand data = some call → call.exact authorized = true :=
  forall_congr' fun call => forall_congr' fun hcall => forall₂_runs_iff authorized hcall (hnul call hcall)

/-- A name with a blank and a password that ends in a dollar sign. -/
theorem runsIntended_plain :
    handleRpcCommand [1, 13, 8, 104, 111, 109, 101, 32, 110, 101, 116, 3, 112, 97, 36, 30] =
        some (.wifiSettings (ascii "home net") (ascii "pa$")) ∧
      RunsIntended true [1, 13, 8, 104, 111, 109, 101, 32, 110, 101, 116, 3, 112, 97, 36, 30] := by
  have hcall : handleRpcCommand [1, 13, 8, 104, 111, 109, 101, 32, 110, 101, 116, 3, 112, 97, 36, 30] =
      some (.wifiSettings (ascii "home net") (ascii "pa$")) := by decide
  refine ⟨hcall, (runsIntended_iff true _ ?_).mpr ?_⟩
  · intro call h
    cases hcall.symm.trans h
    decide
  · intro call h
    cases hcall.symm.trans h
    decide

/-- A name that runs a command of its own. -/
theorem substitution_runs :
    handleRpcCommand [1, 7, 5, 36, 40, 105, 100, 41, 0, 79] = some (.wifiSettings (ascii "$(id)") []) ∧
      ¬RunsIntended true [1, 7, 5, 36, 40, 105, 100, 41, 0, 79] := by
  have hcall : handleRpcCommand [1, 7, 5, 36, 40, 105, 100, 41, 0, 79] = some (.wifiSettings (ascii "$(id)") []) := by
    decide
  refine ⟨hcall, fun h => ?_⟩
  obtain ⟨c, hc, -⟩ := (List.forall₂_cons.mp (h _ hcall)).1
  have hnone : command (snprintf 512 (ascii "fw_setenv wlan_ssid \"") (ascii "$(id)") (ascii "\" 2>/dev/null")) = none := by
    decide
  rw [hnone] at hc
  cases hc

end Payload

end Thingino.Bluetooth
