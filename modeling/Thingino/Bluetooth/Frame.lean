import Thingino.Bluetooth.Provision

/-! Frames of provisioning: what is built and what is parsed.

`build_rpc_response` and `parse_improv_data` have the same layout: the command, the length of what follows it, strings
with a length each, and the sum of all of it. Lengths are cut to one byte when a frame is built, and the parser does
not come to an end for the longest frames, so a frame is read back up to a size only. The sum finds any single byte
that has changed. -/
namespace Thingino.Bluetooth
open Lib

/-- `build_rpc_response`; the byte of the checksum is there even without one. -/
def buildRpcResponse (command : Byte) (datum : List (List Byte)) (addChecksum : Bool) : List Byte :=
  let body := datum.flatMap fun str => BitVec.ofNat 8 str.length :: str
  let out := command :: BitVec.ofNat 8 body.length :: body
  out ++ [if addChecksum then out.foldl (· + ·) 0 else 0]

/-! ### The checks of a frame -/

section Checks
variable {data body : List Byte} {command : Byte}

/-- The length is right, and the loop over the bytes ends with their sum. -/
structure Checked (data : List Byte) : Prop where
  length : lengthAt data 1 + 3 = data.length
  short : data.length ≤ 256
  sum : data.dropLast.foldl (· + ·) 0 = data.getLastD 0

/-- What comes behind the checks. -/
def parseChecked (data : List Byte) : ImprovCommand :=
  if data.getD 0 0 = WIFI_SETTINGS then
    let ssidEnd := 3 + lengthAt data 2
    let passEnd := ssidEnd + 1 + lengthAt data ssidEnd
    if ssidEnd > data.length ∨ passEnd > data.length then ⟨UNKNOWN, [], []⟩
    else ⟨WIFI_SETTINGS, (data.drop 3).take (lengthAt data 2), (data.drop (ssidEnd + 1)).take (lengthAt data ssidEnd)⟩
  else ⟨data.getD 0 0, [], []⟩

theorem parse_checked (h : Checked data) : parseImprovData data = some (parseChecked data) := by
  have hshort : ¬255 < data.length - 1 := by
    have := h.short
    omega
  unfold parseImprovData parseChecked
  dsimp only
  rw [if_neg (not_not.mpr h.length), if_neg hshort, if_neg (not_not.mpr h.sum)]
  split_ifs <;> rfl

/-- A command that is carried out has passed the checks. -/
theorem checked_of_handle {call : Call} (h : handleRpcCommand data = some call) (hcall : ∀ e, call ≠ .error e) :
    Checked data := by
  obtain ⟨cmd, hparse, rfl⟩ := Option.map_eq_some_iff.mp h
  unfold parseImprovData at hparse
  split at hparse
  · cases hparse
    exact absurd rfl (hcall .unknownRpc)
  · rename_i hlength
    split at hparse
    · cases hparse
    · rename_i hshort
      split at hparse
      · cases hparse
        exact absurd rfl (hcall .invalidRpc)
      · rename_i hsum
        exact ⟨not_not.mp hlength, by omega, not_not.mp hsum⟩

end Checks

/-! ### What is built is parsed -/

section Build
variable {datum : List (List Byte)} {command : Byte}

/-- The strings of a frame, each behind its length. -/
def content (datum : List (List Byte)) : List Byte := datum.flatMap fun str => BitVec.ofNat 8 str.length :: str

theorem build_eq (command : Byte) (datum : List (List Byte)) :
    buildRpcResponse command datum true =
      command :: BitVec.ofNat 8 (content datum).length :: content datum ++
        [(command :: BitVec.ofNat 8 (content datum).length :: content datum).foldl (· + ·) 0] :=
  rfl

theorem length_build : (buildRpcResponse command datum true).length = (content datum).length + 3 := by
  rw [build_eq]
  simp

theorem lengthAt_build : lengthAt (buildRpcResponse command datum true) 1 = (content datum).length % 256 :=
  BitVec.toNat_ofNat _ _

theorem checked_build (h : (content datum).length ≤ 253) : Checked (buildRpcResponse command datum true) where
  length := by
    rw [lengthAt_build, length_build, Nat.mod_eq_of_lt (by omega)]
  short := by
    rw [length_build]
    omega
  sum := by
    rw [build_eq, List.dropLast_concat, List.getLastD_eq_getLast?, List.getLast?_concat]
    rfl

/-- Behind that size nothing is carried out: the length is off, or the loop does not end. -/
theorem handle_build_long (h : 253 < (content datum).length) :
    handleRpcCommand (buildRpcResponse command datum true) = none ∨
      handleRpcCommand (buildRpcResponse command datum true) = some (.error .unknownRpc) := by
  have hlength := @length_build datum command
  have hat := @lengthAt_build datum command
  have hparse : parseImprovData (buildRpcResponse command datum true) = none ∨
      parseImprovData (buildRpcResponse command datum true) = some ⟨UNKNOWN, [], []⟩ := by
    unfold parseImprovData
    by_cases hoff : lengthAt (buildRpcResponse command datum true) 1 + 3 ≠ (buildRpcResponse command datum true).length
    · exact .inr (if_pos hoff)
    · rw [if_neg hoff, if_pos (by omega)]
      exact .inl rfl
  obtain hparse | hparse := hparse
  · exact .inl (by rw [handleRpcCommand, hparse]; rfl)
  · exact .inr (by rw [handleRpcCommand, hparse]; rfl)

theorem content_wifi (ssid password : List Byte) :
    content [ssid, password] =
      BitVec.ofNat 8 ssid.length :: (ssid ++ BitVec.ofNat 8 password.length :: password) := by
  simp [content]

theorem toNat_length {str : List Byte} (h : str.length < 256) : (BitVec.ofNat 8 str.length : Byte).toNat = str.length := by
  rw [BitVec.toNat_ofNat, Nat.mod_eq_of_lt (by omega)]

theorem parseChecked_wifi {ssid password : List Byte} (hssid : ssid.length < 256) (hpassword : password.length < 256)
    (size : Byte) (rest : List Byte) :
    parseChecked (WIFI_SETTINGS :: size :: BitVec.ofNat 8 ssid.length ::
        (ssid ++ BitVec.ofNat 8 password.length :: (password ++ rest))) = ⟨WIFI_SETTINGS, ssid, password⟩ := by
  generalize hdata : WIFI_SETTINGS :: size :: BitVec.ofNat 8 ssid.length ::
    (ssid ++ BitVec.ofNat 8 password.length :: (password ++ rest)) = data
  have hlength : data.length = ssid.length + password.length + rest.length + 4 := by
    rw [← hdata]
    simp
    omega
  have hfirst : lengthAt data 2 = ssid.length := by
    rw [← hdata]
    exact toNat_length hssid
  have hsecond : lengthAt data (3 + ssid.length) = password.length := by
    rw [← hdata, Nat.add_comm]
    change ((ssid ++ BitVec.ofNat 8 password.length :: (password ++ rest)).getD ssid.length 0).toNat = password.length
    rw [List.getD_eq_getElem?_getD, List.getElem?_append_right (Nat.le_refl _), Nat.sub_self]
    exact toNat_length hpassword
  have hdrop : data.drop 3 = ssid ++ BitVec.ofNat 8 password.length :: (password ++ rest) := by
    rw [← hdata]
    rfl
  have hdrop' : data.drop (3 + ssid.length + 1) = password ++ rest := by
    rw [Nat.add_assoc, ← List.drop_drop, hdrop, List.drop_length_add_append]
    rfl
  have hcommand : data.getD 0 0 = WIFI_SETTINGS := by
    rw [← hdata]
    rfl
  unfold parseChecked
  dsimp only
  rw [if_pos hcommand, hfirst, hsecond, hdrop, hdrop', List.take_left' rfl, List.take_left' rfl]
  exact if_neg (by omega)

theorem parse_wifi {ssid password : List Byte} (h : ssid.length + password.length ≤ 251) :
    parseImprovData (buildRpcResponse WIFI_SETTINGS [ssid, password] true) = some ⟨WIFI_SETTINGS, ssid, password⟩ := by
  have hcontent := content_wifi ssid password
  have hlen : (content [ssid, password]).length = ssid.length + password.length + 2 := by
    rw [hcontent]
    simp
    omega
  have hdata : buildRpcResponse WIFI_SETTINGS [ssid, password] true =
      WIFI_SETTINGS :: BitVec.ofNat 8 (content [ssid, password]).length :: BitVec.ofNat 8 ssid.length ::
        (ssid ++ BitVec.ofNat 8 password.length :: (password ++ [(WIFI_SETTINGS ::
          BitVec.ofNat 8 (content [ssid, password]).length :: content [ssid, password]).foldl (· + ·) 0])) := by
    rw [build_eq, hcontent]
    simp only [List.cons_append, List.append_assoc]
  rw [parse_checked (checked_build (by omega)), hdata, parseChecked_wifi (by omega) (by omega)]

/-- The custom commands, which are read from the frame itself. -/
theorem handle_custom {handler : List Byte → Call} {name : List Byte}
    (hcommand : command = SET_HOSTNAME ∧ handler = .setHostname ∨
      command = SET_ROOT_PASSWORD ∧ handler = .setRootPassword ∨ command = SET_TIMEZONE ∧ handler = .setTimezone)
    (h : name.length ≤ 252) : handleRpcCommand (buildRpcResponse command [name] true) = some (handler name) := by
  have hcontent : content [name] = BitVec.ofNat 8 name.length :: name := by simp [content]
  have hlen : (content [name]).length = name.length + 1 := by rw [hcontent, List.length_cons]
  have hlength := @length_build [name] command
  have hat : lengthAt (buildRpcResponse command [name] true) 2 = name.length := by
    rw [build_eq, hcontent]
    exact toNat_length (by omega)
  have hparameter : parameter (buildRpcResponse command [name] true) = some name := by
    rw [parameter, if_neg (by omega), hat, build_eq, hcontent]
    exact congrArg some (List.take_left' rfl)
  have hparse : parseImprovData (buildRpcResponse command [name] true) = some ⟨command, [], []⟩ := by
    rw [parse_checked (checked_build (by omega)), parseChecked, if_neg]
    · rfl
    · change command ≠ WIFI_SETTINGS
      obtain ⟨rfl, -⟩ | ⟨rfl, -⟩ | ⟨rfl, -⟩ := hcommand <;> decide
  have hcall : ∀ handler, customCall handler (buildRpcResponse command [name] true) = handler name := by
    intro handler
    rw [customCall, hparameter]
  rw [handleRpcCommand, hparse, Option.map_some]
  obtain ⟨rfl, rfl⟩ | ⟨rfl, rfl⟩ | ⟨rfl, rfl⟩ := hcommand
  · exact congrArg some (hcall .setHostname)
  · exact congrArg some (hcall .setRootPassword)
  · exact congrArg some (hcall .setTimezone)

/-- **What is built for a command is carried out** exactly where the whole of it fits; behind that, nothing is. -/
structure RoundTrip : Prop where
  wifi : ∀ ssid password, handleRpcCommand (buildRpcResponse WIFI_SETTINGS [ssid, password] true) =
    some (.wifiSettings ssid password) ↔ ssid.length + password.length ≤ 251
  hostname : ∀ name, handleRpcCommand (buildRpcResponse SET_HOSTNAME [name] true) = some (.setHostname name) ↔
    name.length ≤ 252
  password : ∀ text, handleRpcCommand (buildRpcResponse SET_ROOT_PASSWORD [text] true) =
    some (.setRootPassword text) ↔ text.length ≤ 252
  timezone : ∀ text, handleRpcCommand (buildRpcResponse SET_TIMEZONE [text] true) = some (.setTimezone text) ↔
    text.length ≤ 252
  long : ∀ command datum, 253 < (content datum).length →
    handleRpcCommand (buildRpcResponse command datum true) = none ∨
      handleRpcCommand (buildRpcResponse command datum true) = some (.error .unknownRpc)

theorem handle_custom_iff {handler : List Byte → Call} (name : List Byte)
    (hcommand : command = SET_HOSTNAME ∧ handler = .setHostname ∨
      command = SET_ROOT_PASSWORD ∧ handler = .setRootPassword ∨ command = SET_TIMEZONE ∧ handler = .setTimezone) :
    handleRpcCommand (buildRpcResponse command [name] true) = some (handler name) ↔ name.length ≤ 252 := by
  refine ⟨fun h => ?_, handle_custom hcommand⟩
  by_contra hlong
  have hlen : 253 < (content [name]).length := by
    simp [content]
    omega
  obtain hnone | herror := @handle_build_long _ command hlen
  · rw [hnone] at h
    cases h
  · rw [herror] at h
    obtain ⟨-, rfl⟩ | ⟨-, rfl⟩ | ⟨-, rfl⟩ := hcommand <;> cases h

theorem handle_wifi_iff (ssid password : List Byte) :
    handleRpcCommand (buildRpcResponse WIFI_SETTINGS [ssid, password] true) = some (.wifiSettings ssid password) ↔
      ssid.length + password.length ≤ 251 := by
  constructor
  · intro h
    by_contra hlong
    have hlen : 253 < (content [ssid, password]).length := by
      simp [content]
      omega
    obtain hnone | herror := @handle_build_long _ WIFI_SETTINGS hlen
    · rw [hnone] at h
      cases h
    · rw [herror] at h
      cases h
  · intro h
    rw [handleRpcCommand, parse_wifi h]
    rfl

theorem roundTrip : RoundTrip where
  wifi := handle_wifi_iff
  hostname name := handle_custom_iff name (.inl ⟨rfl, rfl⟩)
  password text := handle_custom_iff text (.inr (.inl ⟨rfl, rfl⟩))
  timezone text := handle_custom_iff text (.inr (.inr ⟨rfl, rfl⟩))
  long _ _ := handle_build_long

end Build

/-! ### A byte that has changed -/

section Corrupted
variable {data : List Byte}

theorem foldl_add (l : List Byte) (a : Byte) : l.foldl (· + ·) a = a + l.foldl (· + ·) 0 := by
  have hzero : ∀ x : Byte, 0 + x = x := BitVec.zero_add
  induction l generalizing a with
  | nil => exact (BitVec.add_zero a).symm
  | cons b l ih => rw [List.foldl_cons, List.foldl_cons, ih (a + b), ih (0 + b), hzero, BitVec.add_assoc]

theorem foldl_cons_zero (a : Byte) (l : List Byte) : (a :: l).foldl (· + ·) 0 = a + l.foldl (· + ·) 0 := by
  rw [List.foldl_cons, foldl_add]
  exact congrArg (· + _) (BitVec.zero_add a)

/-- Another byte at one place is another sum. -/
theorem foldl_set_ne {i : Nat} {b : Byte} (hi : i < data.length) (hb : b ≠ data[i]) :
    (data.set i b).foldl (· + ·) 0 ≠ data.foldl (· + ·) 0 := by
  induction data generalizing i with
  | nil => exact absurd hi (Nat.not_lt_zero i)
  | cons a l ih =>
    intro h
    cases i with
    | zero =>
      rw [List.set_cons_zero, foldl_cons_zero, foldl_cons_zero] at h
      exact hb ((BitVec.add_left_inj _).mp h)
    | succ i =>
      rw [List.set_cons_succ, foldl_cons_zero, foldl_cons_zero] at h
      exact ih (Nat.lt_of_succ_lt_succ hi) hb ((BitVec.add_right_inj _).mp h)

theorem getLastD_concat (front : List Byte) (last : Byte) : (front ++ [last]).getLastD 0 = last := by
  rw [List.getLastD_eq_getLast?, List.getLast?_concat, Option.getD_some]

theorem not_checked_set (h : Checked data) {i : Nat} {b : Byte} (hi : i < data.length) (hb : b ≠ data[i]) :
    ¬Checked (data.set i b) := by
  intro hset
  have hlength := h.length
  have hlength' := hset.length
  have hsum := h.sum
  have hsum' := hset.sum
  rw [List.length_set] at hlength'
  have hbyte : i = 1 → lengthAt (data.set i b) 1 = b.toNat ∧ lengthAt data 1 = (data[i]).toNat := by
    rintro rfl
    rw [lengthAt, lengthAt, List.getD_eq_getElem?_getD, List.getD_eq_getElem?_getD, List.getElem?_set_self hi,
      List.getElem?_eq_getElem hi]
    exact ⟨rfl, rfl⟩
  obtain rfl | ⟨front, last, rfl⟩ := List.eq_nil_or_concat' data
  · exact absurd hi (Nat.not_lt_zero i)
  rw [List.length_append, List.length_singleton] at hi hlength hlength'
  rw [List.dropLast_concat, getLastD_concat] at hsum
  by_cases hlast : i < front.length
  · -- the length is off, or else the sum of what is in front of the last byte
    by_cases hone : i = 1
    · obtain ⟨hset', hdata⟩ := hbyte hone
      exact hb (BitVec.eq_of_toNat_eq (by omega))
    · rw [List.set_append_left _ _ hlast, List.dropLast_concat, getLastD_concat, ← hsum] at hsum'
      rw [List.getElem_append_left hlast] at hb
      exact foldl_set_ne hlast hb hsum'
  · have hend : i = front.length := by omega
    subst hend
    rw [List.set_append_right _ _ (Nat.le_refl _), Nat.sub_self, List.set_cons_zero, List.dropLast_concat,
      getLastD_concat, hsum] at hsum'
    exact hb (hsum'.symm.trans (by simp))

theorem handle_not_checked (h : ¬Checked data) (hshort : data.length ≤ 256) :
    ∃ e, handleRpcCommand data = some (.error e) := by
  by_cases hlength : lengthAt data 1 + 3 = data.length
  · have hsum : data.dropLast.foldl (· + ·) 0 ≠ data.getLastD 0 := fun hsum => h ⟨hlength, hshort, hsum⟩
    have hparse : parseImprovData data = some ⟨BAD_CHECKSUM, [], []⟩ := by
      rw [parseImprovData, if_neg (not_not.mpr hlength), if_neg (by omega), if_pos hsum]
    exact ⟨.invalidRpc, by rw [handleRpcCommand, hparse]; rfl⟩
  · have hparse : parseImprovData data = some ⟨UNKNOWN, [], []⟩ := by
      rw [parseImprovData, if_pos hlength]
    exact ⟨.unknownRpc, by rw [handleRpcCommand, hparse]; rfl⟩

/-- **A frame with a byte changed is not carried out**, whichever byte it is. -/
theorem handle_set {call : Call} (hcall : handleRpcCommand data = some call) (hok : ∀ e, call ≠ .error e) {i : Nat}
    {b : Byte} (hi : i < data.length) (hb : b ≠ data[i]) :
    ∃ e, handleRpcCommand (data.set i b) = some (.error e) := by
  have hchecked := checked_of_handle hcall hok
  refine handle_not_checked (not_checked_set hchecked hi hb) ?_
  rw [List.length_set]
  exact hchecked.short

/-- The last byte of a request to identify itself. -/
theorem handle_set_identify : ∃ e, handleRpcCommand [2, 0, 3] = some (.error e) :=
  @handle_set [2, 0, 2] .identify (by decide) nofun 2 3 (by decide) (by decide)

end Corrupted

end Thingino.Bluetooth
