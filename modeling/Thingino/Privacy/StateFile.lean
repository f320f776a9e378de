import Thingino.Lib.Grep
import Thingino.Privacy.Sidecar

/-! The persisted state of `physical-privacy`, `/etc/physical-privacy-state.json`.

The script owns the format: `write_on` and `write_off` print one line of JSON, and the readers
`st_*` pick values out of it with `grep`. A reader finds what was written as long as no written
value contains a quote; tilts are digits and signs, and the pose is itself read with such a
pattern, so this is always so. -/
namespace Thingino.Privacy
open Lib

/-- The class `[0-9-]`. -/
def isTilt (b : Byte) : Bool := isDigit b || b = 45

/-- `DEFAULT_POSE_TILT`. -/
def defaultPoseTilt : List Byte := ascii "2152"

namespace StateFile

/-! ### Writers -/

def writeOn (poseTilt savedTilt : List Byte) (mode live : Mode) : List Byte :=
  ascii "\x7b\"version\":1,\"active\":true,\"pose\":\x7b\"tilt\":" ++ poseTilt ++
    ascii "\x7d,\"saved\":\x7b\"tilt\":" ++ savedTilt ++ ascii ",\"daynight_mode\":\"" ++ mode.word ++
    ascii "\",\"live_mode\":\"" ++ live.word ++ ascii "\"\x7d\x7d\n"

def writeOff (poseTilt : List Byte) : List Byte :=
  ascii "\x7b\"version\":1,\"active\":false,\"pose\":\x7b\"tilt\":" ++ poseTilt ++ ascii "\x7d\x7d\n"

/-! ### Readers -/

def activeKey : List Byte := ascii "\"active\":"

def poseKey : List Byte := ascii "\"pose\":\x7b\"tilt\":"

def savedModeKey : List Byte := ascii "\"daynight_mode\":\""

def savedTiltKey : List Byte := ascii "\"saved\":\x7b\"tilt\":"

def liveModeKey : List Byte := ascii "\"live_mode\":\""

/-- `grep ... | head -1`; a missing file reads like an empty one. -/
def first (key : List Byte) (close : List Byte) (file : Option (List Byte)) : List Byte :=
  (grepO key isLower close (file.getD [])).head?.getD []

/-- `st_active`. -/
def stActive (file : Option (List Byte)) : List Byte := first activeKey [] file

/-- `st_saved_mode`. -/
def stSavedMode (file : Option (List Byte)) : List Byte := first savedModeKey (ascii "\"") file

/-- `st_pose_tilt`: every match, one to a line, or the default. -/
def stPoseTilt (file : Option (List Byte)) : List Byte :=
  let v := [10].intercalate ((grepO poseKey isTilt [] (file.getD [])).filter (· ≠ []))
  if v = [] then defaultPoseTilt else v

/-- `st_saved_tilt`. -/
def stSavedTilt (file : Option (List Byte)) : List Byte :=
  [10].intercalate ((grepO savedTiltKey isTilt [] (file.getD [])).filter (· ≠ []))

/-- `st_live_mode`. -/
def stLiveMode (file : Option (List Byte)) : List Byte := first liveModeKey (ascii "\"") file

/-- `[ "$(st_active)" = "true" ]`. -/
def active (file : Option (List Byte)) : Bool := stActive file = ascii "true"

/-! ### What was written is read -/

/-- A reader finds the first match. -/
theorem first_eq {key close lead run rest : List Byte} (hlead : avoids key lead = true) (hkey : key ≠ [])
    (hrun : ∀ b ∈ run, isLower b = true) (hstop : ∀ b, (close ++ rest).head? = some b → isLower b = false) :
    first key close (some (lead ++ (key ++ (run ++ (close ++ rest))))) = run := by
  rw [first, Option.getD_some, grepO_append hlead, grepO_match hkey hrun hstop]
  rfl

theorem active_writeOn (poseTilt savedTilt : List Byte) (mode live : Mode) :
    active (some (writeOn poseTilt savedTilt mode live)) = true := by
  have hhead : ascii "\x7b\"version\":1,\"active\":true,\"pose\":\x7b\"tilt\":" =
      ascii "\x7b\"version\":1," ++ (activeKey ++ (ascii "true" ++ ([] ++ ascii ",\"pose\":\x7b\"tilt\":"))) := by
    decide
  rw [active, stActive, writeOn, hhead]
  simp only [List.append_assoc]
  rw [first_eq (by decide) (by decide) (by decide)]
  · decide
  · intro b hb
    cases hb
    rfl

theorem stActive_writeOff (poseTilt : List Byte) : stActive (some (writeOff poseTilt)) = ascii "false" := by
  have hhead : ascii "\x7b\"version\":1,\"active\":false,\"pose\":\x7b\"tilt\":" =
      ascii "\x7b\"version\":1," ++ (activeKey ++ (ascii "false" ++ ([] ++ ascii ",\"pose\":\x7b\"tilt\":"))) := by
    decide
  rw [stActive, writeOff, hhead]
  simp only [List.append_assoc]
  rw [first_eq (by decide) (by decide) (by decide)]
  intro b hb
  cases hb
  rfl

theorem active_writeOff (poseTilt : List Byte) : active (some (writeOff poseTilt)) = false := by
  rw [active, stActive_writeOff]
  decide

/-- The head of both texts and a tilt hold no key of a saved value. -/
theorem grepO_behind_tilt {q : Byte} {key lead tilt : List Byte} {cls : Byte → Bool} {close : List Byte}
    (hlead : avoids (q :: key) lead = true) (htilt : q ∉ tilt) (s : List Byte) :
    grepO (q :: key) cls close (lead ++ (tilt ++ s)) = grepO (q :: key) cls close s := by
  rw [grepO_append hlead, grepO_append (avoids_of_notMem htilt)]

theorem stSavedMode_writeOn {poseTilt savedTilt : List Byte} (hpose : 34 ∉ poseTilt) (hsaved : 34 ∉ savedTilt)
    (mode live : Mode) : stSavedMode (some (writeOn poseTilt savedTilt mode live)) = mode.word := by
  have hmode : ascii ",\"daynight_mode\":\"" = ascii "," ++ savedModeKey := by decide
  have hlive : ascii "\",\"live_mode\":\"" = ascii "\"" ++ ascii ",\"live_mode\":\"" := by decide
  rw [stSavedMode, first, Option.getD_some, writeOn, hmode, hlive]
  simp only [List.append_assoc]
  rw [show savedModeKey = 34 :: ascii "daynight_mode\":\"" by decide, grepO_behind_tilt (by decide) hpose,
    grepO_behind_tilt (by decide) hsaved, grepO_append (by decide), grepO_match (by decide) mode.isLower_word]
  · rfl
  · intro b hb
    cases hb
    rfl

theorem stSavedMode_writeOff {poseTilt : List Byte} (hpose : 34 ∉ poseTilt) :
    stSavedMode (some (writeOff poseTilt)) = [] := by
  rw [stSavedMode, first, Option.getD_some, writeOff, show savedModeKey = 34 :: ascii "daynight_mode\":\"" by decide,
    List.append_assoc, grepO_behind_tilt (by decide) hpose]
  decide

theorem stLiveMode_writeOn {poseTilt savedTilt : List Byte} (hpose : 34 ∉ poseTilt) (hsaved : 34 ∉ savedTilt)
    (mode live : Mode) : stLiveMode (some (writeOn poseTilt savedTilt mode live)) = live.word := by
  have hlive : ascii "\",\"live_mode\":\"" = ascii "\"," ++ liveModeKey := by decide
  have hend : ascii "\"\x7d\x7d\n" = ascii "\"" ++ ascii "\x7d\x7d\n" := by decide
  have hmode : avoids liveModeKey (ascii ",\"daynight_mode\":\"" ++ (mode.word ++ ascii "\",")) = true := by
    cases mode <;> decide
  have hfound : grepO liveModeKey isLower (ascii "\"") (ascii ",\"daynight_mode\":\"" ++ (mode.word ++ (ascii "\"," ++
      (liveModeKey ++ (live.word ++ (ascii "\"" ++ ascii "\x7d\x7d\n")))))) = [live.word] := by
    have hpieces : ascii ",\"daynight_mode\":\"" ++ (mode.word ++ (ascii "\"," ++ (liveModeKey ++ (live.word ++
        (ascii "\"" ++ ascii "\x7d\x7d\n"))))) = ascii ",\"daynight_mode\":\"" ++ (mode.word ++ ascii "\",") ++
          (liveModeKey ++ (live.word ++ (ascii "\"" ++ ascii "\x7d\x7d\n"))) := by simp only [List.append_assoc]
    rw [hpieces, grepO_append hmode, grepO_match (by decide) live.isLower_word]
    · congr 1
    · intro b hb
      cases hb
      rfl
  rw [stLiveMode, first, Option.getD_some, writeOn, hlive, hend]
  simp only [List.append_assoc]
  rw [show liveModeKey = 34 :: ascii "live_mode\":\"" by decide] at hfound ⊢
  rw [grepO_behind_tilt (by decide) hpose, grepO_behind_tilt (by decide) hsaved, hfound]
  rfl

theorem stLiveMode_writeOff {poseTilt : List Byte} (hpose : 34 ∉ poseTilt) :
    stLiveMode (some (writeOff poseTilt)) = [] := by
  rw [stLiveMode, first, Option.getD_some, writeOff, show liveModeKey = 34 :: ascii "live_mode\":\"" by decide,
    List.append_assoc, grepO_behind_tilt (by decide) hpose]
  decide

section Tilts
variable {poseTilt savedTilt : List Byte}

theorem quote_notMem_of_isTilt {tilt : List Byte} (h : ∀ b ∈ tilt, isTilt b = true) : 34 ∉ tilt := fun hmem =>
  absurd (h 34 hmem) (by decide)

/-- The one match behind a key is what `$(…)` keeps. -/
theorem intercalate_filter_singleton {tilt : List Byte} (h : tilt ≠ []) :
    [10].intercalate ([tilt].filter (· ≠ [])) = tilt := by
  rw [List.filter_cons_of_pos (by simpa using h), List.filter_nil, List.intercalate_singleton]

/-- What follows the tilts. -/
def modes (mode live : Mode) : List Byte :=
  ascii ",\"daynight_mode\":\"" ++ (mode.word ++ (ascii "\",\"live_mode\":\"" ++ (live.word ++ ascii "\"\x7d\x7d\n")))

/-- There is no tilt among the modes. -/
theorem grepO_modes (mode live : Mode) :
    grepO poseKey isTilt [] (modes mode live) = [] ∧ grepO savedTiltKey isTilt [] (modes mode live) = [] := by
  cases mode <;> cases live <;> decide +kernel

theorem grepO_poseTilt_writeOn (hpose : ∀ b ∈ poseTilt, isTilt b = true) (hsaved : ∀ b ∈ savedTilt, isTilt b = true)
    (mode live : Mode) : grepO poseKey isTilt [] (writeOn poseTilt savedTilt mode live) = [poseTilt] := by
  have hhead : ascii "\x7b\"version\":1,\"active\":true,\"pose\":\x7b\"tilt\":" =
      ascii "\x7b\"version\":1,\"active\":true," ++ poseKey := by decide
  have hmodes := (grepO_modes mode live).1
  rw [modes] at hmodes
  rw [writeOn, hhead]
  simp only [List.append_assoc]
  rw [grepO_append (by decide), grepO_run (by decide) hpose]
  · rw [show poseKey = 34 :: ascii "pose\":\x7b\"tilt\":" by decide] at hmodes ⊢
    rw [grepO_behind_tilt (by decide) (quote_notMem_of_isTilt hsaved), hmodes]
  · intro b hb
    cases hb
    rfl

theorem stPoseTilt_writeOn (hnil : poseTilt ≠ []) (hpose : ∀ b ∈ poseTilt, isTilt b = true)
    (hsaved : ∀ b ∈ savedTilt, isTilt b = true) (mode live : Mode) :
    stPoseTilt (some (writeOn poseTilt savedTilt mode live)) = poseTilt := by
  rw [stPoseTilt, Option.getD_some, grepO_poseTilt_writeOn hpose hsaved, intercalate_filter_singleton hnil]
  exact if_neg hnil

theorem stPoseTilt_writeOff (hnil : poseTilt ≠ []) (hpose : ∀ b ∈ poseTilt, isTilt b = true) :
    stPoseTilt (some (writeOff poseTilt)) = poseTilt := by
  have hhead : ascii "\x7b\"version\":1,\"active\":false,\"pose\":\x7b\"tilt\":" =
      ascii "\x7b\"version\":1,\"active\":false," ++ poseKey := by decide
  have hgrep : grepO poseKey isTilt [] (writeOff poseTilt) = [poseTilt] := by
    rw [writeOff, hhead]
    simp only [List.append_assoc]
    rw [grepO_append (by decide), grepO_run (by decide) hpose]
    · congr 1
    · intro b hb
      cases hb
      rfl
  rw [stPoseTilt, Option.getD_some, hgrep, intercalate_filter_singleton hnil]
  exact if_neg hnil

theorem stSavedTilt_writeOn (hnil : savedTilt ≠ []) (hpose : ∀ b ∈ poseTilt, isTilt b = true)
    (hsaved : ∀ b ∈ savedTilt, isTilt b = true) (mode live : Mode) :
    stSavedTilt (some (writeOn poseTilt savedTilt mode live)) = savedTilt := by
  have hkey : ascii "\x7d,\"saved\":\x7b\"tilt\":" = ascii "\x7d," ++ savedTiltKey := by decide
  have hmodes := (grepO_modes mode live).2
  rw [modes] at hmodes
  have hgrep : grepO savedTiltKey isTilt [] (writeOn poseTilt savedTilt mode live) = [savedTilt] := by
    rw [writeOn, hkey]
    simp only [List.append_assoc]
    rw [show savedTiltKey = 34 :: ascii "saved\":\x7b\"tilt\":" by decide] at hmodes ⊢
    rw [grepO_behind_tilt (by decide) (quote_notMem_of_isTilt hpose), grepO_append (by decide),
      grepO_run (by decide) hsaved, hmodes]
    intro b hb
    cases hb
    rfl
  rw [stSavedTilt, Option.getD_some, hgrep, intercalate_filter_singleton hnil]

theorem stSavedTilt_writeOff (hpose : ∀ b ∈ poseTilt, isTilt b = true) : stSavedTilt (some (writeOff poseTilt)) = [] := by
  rw [stSavedTilt, Option.getD_some, writeOff, show savedTiltKey = 34 :: ascii "saved\":\x7b\"tilt\":" by decide,
    List.append_assoc, grepO_behind_tilt (by decide) (quote_notMem_of_isTilt hpose)]
  decide

end Tilts

/-- The pose that was read can be written. -/
theorem quote_notMem_stPoseTilt (file : Option (List Byte)) : 34 ∉ stPoseTilt file := by
  unfold stPoseTilt
  dsimp only
  split
  · decide
  · intro hmem
    obtain heq | ⟨run, hrun, hb⟩ := mem_intercalate hmem
    · exact absurd heq (by decide)
    · have hcls : isTilt 34 = true := forall_mem_grepFrom 0 _ run (List.mem_of_mem_filter hrun) 34 hb
      exact absurd hcls (by decide)

end StateFile

end Thingino.Privacy
