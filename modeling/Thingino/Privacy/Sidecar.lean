import Thingino.Lib.CString

/-! The day/night sidecar, `/etc/daynight.state`, and its one reader and writer,
`daynight-state`.

The file holds one line, `mode=auto`, `mode=day` or `mode=night`. It is replaced as a whole by
a rename, so the model has a text or none. The reader is lenient: the first line with `mode=`
in it counts, quotes and blanks behind it are skipped, and what is not one of the three words
is no mode at all. -/
namespace Thingino.Privacy
open Lib

/-- The day/night intent. -/
inductive Mode
  | auto
  | day
  | night
  deriving DecidableEq

namespace Mode

def word : Mode → List Byte
  | .auto => ascii "auto"
  | .day => ascii "day"
  | .night => ascii "night"

/-- The patterns `auto`, `day` and `night` of a `case`. -/
def ofWord (w : List Byte) : Option Mode :=
  if w = ascii "auto" then some .auto
  else if w = ascii "day" then some .day
  else if w = ascii "night" then some .night
  else none

@[simp] theorem ofWord_word (m : Mode) : ofWord m.word = some m := by
  cases m <;> decide

end Mode

/-- The class `[a-z]`. -/
def isLower (b : Byte) : Bool := 97 ≤ b.toNat && b.toNat ≤ 122

theorem Mode.isLower_word (m : Mode) : ∀ b ∈ m.word, isLower b = true := by
  cases m <;> decide

namespace Sidecar

/-- The lines of a file. -/
def lines : List Byte → List (List Byte)
  | [] => [[]]
  | b :: s =>
    if b = 10 then [] :: lines s
    else
      match lines s with
      | [] => [[b]]
      | line :: rest => (b :: line) :: rest

/-- What `grep -m1 'mode='` and `${_line#*mode=}` leave: the first line with the key in it, from
behind the key on. -/
def behindKey (text : List Byte) : List Byte :=
  ((lines text).findSome? fun line => (strstr (ascii "mode=") line).map fun i => line.drop (i + 5)).getD []

/-- `_parse`. -/
def parse (file : Option (List Byte)) : Option Mode :=
  file.bind fun text =>
    Mode.ofWord (((behindKey text).dropWhile fun b => b = 34 || isSpace b).takeWhile isLower)

/-- `get`: a file that holds no mode stands for forced day. -/
def get (file : Option (List Byte)) : Mode := (parse file).getD .day

/-- The text `_write` puts into place. -/
def text (m : Mode) : List Byte := ascii "mode=" ++ m.word ++ [10]

/-- `set_mode`: the file is written if it does not hold the mode yet. -/
def setMode (m : Mode) (file : Option (List Byte)) : Option (List Byte) :=
  if parse file = some m then file else some (text m)

/-- `migrate`: a file that holds no mode is replaced by forced day. -/
def migrate (file : Option (List Byte)) : Option (List Byte) :=
  if (parse file).isSome then file else some (text .day)

theorem parse_text (m : Mode) : parse (some (text m)) = some m := by
  cases m <;> decide

/-- What was set is read. -/
theorem parse_setMode (m : Mode) (file : Option (List Byte)) : parse (setMode m file) = some m := by
  unfold setMode
  split
  · assumption
  · exact parse_text m

theorem get_of_parse {file : Option (List Byte)} {m : Mode} (h : parse file = some m) : get file = m := by
  rw [get, h, Option.getD_some]

/-- A file that holds a mode is left alone. -/
theorem migrate_of_parse {file : Option (List Byte)} {m : Mode} (h : parse file = some m) : migrate file = file := by
  rw [migrate, h, Option.isSome_some, if_pos rfl]

end Sidecar

end Thingino.Privacy
