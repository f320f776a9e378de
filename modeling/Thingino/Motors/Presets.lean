import Mathlib.Data.List.Find
import Mathlib.Data.List.Nodup
import Thingino.Lib.Lines
import Thingino.Lib.Shell
import Thingino.Lib.Transition

/-! The presets of the pan and tilt motors.

A preset is a line `number=name,x,y`, and `number=,,` is a free slot. `ptz_presets` writes the line with `echo` or as
the replacement of a `sed` script, looks for free slots with `cut`, and reads a preset with `IFS='=,'`. -/
namespace Thingino.Motors
open Lib Lib.Shell Lib.Lines

/-- A line without its newline. -/
abbrev Line := List Byte

/-- A decimal number as it is given. -/
structure Number where
  text : List Byte
  nonempty : text ≠ []
  digit : text.all isDigit = true

/-- A text of one line. -/
structure Name where
  text : List Byte
  line : 10 ∉ text

def isInteger (s : List Byte) : Bool :=
  let s := if s.head? = some 45 then s.tail else s
  s ≠ [] && s.all isDigit

/-- An integer as it is given. -/
structure Coord where
  text : List Byte
  integer : isInteger text = true

/-- `$n=$name,$x,$y`. -/
def entryText (n name x y : List Byte) : Line := n ++ 61 :: (name ++ 44 :: (x ++ 44 :: y))

/-- The text of a replacement in `sed`; none if it has the delimiter, the matched line, or a group. -/
def sedText : List Byte → Option (List Byte)
  | [] => some []
  | [b] => if b = 92 ∨ b = 38 ∨ b = 47 then none else some [b]
  | b :: c :: s =>
    if b = 92 then
      if isDigit c then none
      else (sedText s).map ((if c = 110 then 10 else if c = 116 then 9 else if c = 114 then 13 else c) :: ·)
    else if b = 38 ∨ b = 47 then none
    else (sedText (c :: s)).map (b :: ·)

/-- `s/^$n=.*/$replacement/`. -/
def sedScript (n replacement : List Byte) : List Byte := ascii "s/^" ++ n ++ ascii "=.*/" ++ replacement ++ [47]

/-- `sed -i`, the last line of `sort -n`, and what the shell makes of numbers that are too large for it. -/
structure Tools where
  sed : List Byte → List Line → List Line
  sortLast : List (List Byte) → List Byte
  wide : List Byte → Option Int
  sed_substitute : ∀ (n replacement text : List Byte) (file : List Line), n ≠ [] → n.all isDigit = true →
    sedText replacement = some text →
      sed (sedScript n replacement) file = file.flatMap fun line => if isOf n line then text.splitOn 10 else [line]

/-! ### Running a preset -/

def isSeparator (b : Byte) : Bool := b = 61 || b = 44

/-- A field, and what is behind its separator. -/
def cutAt (s : List Byte) : List Byte × List Byte :=
  (s.takeWhile (!isSeparator ·), (s.dropWhile (!isSeparator ·)).tail)

/-- The last variable has the rest, without a separator that ends its first field. -/
def lastField (s : List Byte) : List Byte := if (cutAt s).2 = [] then (cutAt s).1 else s

structure Fields where
  num : List Byte
  name : List Byte
  x : List Byte
  y : List Byte

/-- `IFS='=,' read -r PNUM PNAME PX PY`. -/
def readFields (line : Line) : Fields :=
  let (num, s) := cutAt line
  let (name, s) := cutAt s
  let (x, s) := cutAt s
  ⟨num, name, x, lastField s⟩

inductive Outcome
  | drive (x y : List Byte)
  | missing
  | notFound
deriving DecidableEq

/-- `ptz_presets $k`. -/
def runPreset (k : List Byte) : List Line → Outcome
  | [] => .notFound
  | line :: file =>
    let f := readFields line
    if f.num.head? = some 35 then runPreset k file
    else if f.num = k then if f.x ≠ [] ∧ f.y ≠ [] then .drive f.x f.y else .missing
    else runPreset k file

/-! ### Changing presets -/

/-- `ptz_presets -a $n $name $x $y`. -/
def addPreset (t : Tools) (n name x y : List Byte) (file : List Line) : List Line :=
  if file.any (isOf n) then t.sed (sedScript n (entryText n name x y)) file else file ++ [entryText n name x y]

/-- `ptz_presets -r $n`. -/
def removePreset (t : Tools) (n : List Byte) (file : List Line) : List Line :=
  if file.any (isOf n) then t.sed (sedScript n (entryText n [] [] [])) file else file

/-- `cut -d$d -f…`, counted from 0; a line without the delimiter is printed as it is. -/
def cutField (d : Byte) (i : Nat) (line : Line) : List Byte :=
  if line.contains d then (line.splitOn d).getD i [] else line

/-- `PRESET_NUM` if `USED` is 1, and `TEMP_FILE`. -/
structure Auto where
  used : Option (List Byte)
  out : List Line

/-- `echo "$line" >> "$TEMP_FILE"`. -/
def echoLine (line : Line) : List Line := if echo line = [] then [] else [echoed line]

/-- A round of the loop for `-1`. -/
def autoLine (name x y : List Byte) (a : Auto) (line : Line) : Auto :=
  if line.head? = some 35 then ⟨a.used, a.out ++ echoLine line⟩
  else
    let num := cutField 61 0 (echoed line)
    let vals := cutField 61 1 (echoed line)
    if a.used.isNone && (cutField 44 1 (echoed vals) = [] || cutField 44 2 (echoed vals) = []) then
      ⟨some num, a.out ++ [entryText num name x y]⟩
    else ⟨a.used, a.out ++ echoLine line⟩

/-- The number of a line, for `/^[0-9]+=/`. -/
def numText (line : Line) : List Byte := line.takeWhile isDigit

def isNumbered (line : Line) : Bool := numText line ≠ [] && isOf (numText line) line

/-- `$((PRESET_NUM + 1))`, with 64 bits. -/
def successor (wide : List Byte → Option Int) (s : List Byte) : Option Int :=
  (if s = [] then some 0 else arith wide s).map fun m =>
    if m = 9223372036854775807 then -9223372036854775808 else m + 1

def printInt (m : Int) : List Byte := if m < 0 then 45 :: digits m.natAbs else digits m.natAbs

/-- `ptz_presets -a -1 $name $x $y`: the number and the file, unless the number is none. -/
def addAuto (t : Tools) (name x y : List Byte) (file : List Line) : Option (List Byte × List Line) :=
  let a := file.foldl (autoLine name x y) ⟨none, []⟩
  match a.used with
  | some n => some (n, a.out)
  | none => (successor t.wide (t.sortLast ((file.filter isNumbered).map numText))).map fun m =>
    (printInt m, a.out ++ [entryText (printInt m) name x y])

inductive Op
  | add (n : Number) (name : Name) (x y : Coord)
  | auto (name : Name) (x y : Coord)
  | remove (n : Number)

/-- What has been done to the preset with a number. -/
inductive Done
  | set (n : Nat) (x y : Coord)
  | removed (n : Nat)

/-- The file, and what has been done, the last first. -/
structure State where
  file : List Line
  done : List Done

def step (t : Tools) (s : State) : Op → Option State
  | .add n name x y =>
    some ⟨addPreset t n.text name.text x.text y.text s.file, .set (decimal n.text) x y :: s.done⟩
  | .auto name x y =>
    match addAuto t name.text x.text y.text s.file with
    | some (n, file) => some ⟨file, .set (decimal n) x y :: s.done⟩
    | none => some s
  | .remove n => some ⟨removePreset t n.text s.file, .removed (decimal n.text) :: s.done⟩

def comment : Line := ascii "# Example: 0=Window,1200,360"

/-- The shipped file. -/
def shipped : State := ⟨comment :: (List.range 8).map fun n => entryText (digits n) [] [] [], []⟩

/-! ### The map -/

/-- **What has become of a preset**: the coordinates of the last `-a` for it that no `-r` followed. -/
def target : List Done → Nat → Option (Coord × Coord)
  | [], _ => none
  | .set n x y :: done, k => if k = n then some (x, y) else target done k
  | .removed n :: done, k => if k = n then none else target done k

/-- The numbers of the lines. -/
def numbers (file : List Line) : List Nat := (file.filter isNumbered).map fun line => decimal (numText line)

def largest (ns : List Nat) : Nat := ns.foldr max 0

/-- The slot that `-1` stands for: the first one without coordinates, or one more than the largest number. -/
def slot (s : State) : Nat :=
  ((numbers s.file).find? fun k => (target s.done k).isNone).getD (largest (numbers s.file) + 1)

def isComment (line : Line) : Bool := line.head? = some 35

/-- The line has the number `k`. -/
def hasNumber (k : Nat) (line : Line) : Bool := isNumbered line && decimal (numText line) = k

/-- **The property of a state.** -/
structure PresetMap (s : State) : Prop where
  runs : ∀ k, match target s.done k with
    | some (x, y) => runPreset (digits k) s.file = .drive x.text y.text
    | none => ∀ x y, runPreset (digits k) s.file ≠ .drive x y
  distinct : (numbers s.file).Nodup

/-- What an operation is about. -/
def Op.number (s : State) : Op → Nat
  | .add n _ _ _ => decimal n.text
  | .auto _ _ _ => slot s
  | .remove n => decimal n.text

/-- What the preset of an operation becomes. -/
def Op.coords : Op → Option (Coord × Coord)
  | .add _ _ x y => some (x, y)
  | .auto _ x y => some (x, y)
  | .remove _ => none

/-- **The property of a step**: the other presets and the comments stay, and what is done is done to the preset of the
operation. -/
structure Kept (s s' : State) (op : Op) : Prop where
  others : ∀ k, k ≠ op.number s → s'.file.filter (hasNumber k) = s.file.filter (hasNumber k)
  comments : s'.file.filter isComment = s.file.filter isComment
  done : ∀ k, target s'.done k = if k = op.number s then op.coords else target s.done k

/-- A name without separators. -/
def isPlain (name : List Byte) : Bool := name.all fun b => b ≠ 61 && b ≠ 44 && b ≠ 10

/-- A number has no zero in front; a name has no separator, as `sed` takes it where the slot is there; and where there
is no free slot, `sort` finds the largest number, and the next one fits in 63 bits. -/
def careful (t : Tools) (s : State) : Op → Prop
  | .add n name x y =>
    digits (decimal n.text) = n.text ∧
      if s.file.any (isOf n.text) then ∃ name', isPlain name' = true ∧
        sedText (entryText n.text name.text x.text y.text) = some (entryText n.text name' x.text y.text)
      else isPlain name.text = true
  | .auto name _ _ =>
    isPlain name.text = true ∧ ((numbers s.file).any (fun k => (target s.done k).isNone) = true ∨
      t.sortLast ((s.file.filter isNumbered).map numText) = digits (largest (numbers s.file)) ∧
        largest (numbers s.file) < 9223372036854775807)
  | .remove n => digits (decimal n.text) = n.text

/-! ### Entries -/

structure Preset where
  name : List Byte
  x : Coord
  y : Coord
  plain : isPlain name = true

/-- A line with a number; a free slot has no preset. -/
structure Entry where
  number : Nat
  preset : Option Preset

def Entry.name (e : Entry) : List Byte := (e.preset.map Preset.name).getD []

def Entry.x (e : Entry) : List Byte := (e.preset.map fun p => p.x.text).getD []

def Entry.y (e : Entry) : List Byte := (e.preset.map fun p => p.y.text).getD []

def Entry.line (e : Entry) : Line := entryText (digits e.number) e.name e.x e.y

def Entry.isFree (e : Entry) : Bool := e.preset.isNone

/-- A file: the comment and the entries. -/
def render (es : List Entry) : List Line := comment :: es.map Entry.line

/-- An entry is replaced, or comes at the end. -/
def put (e : Entry) (es : List Entry) : List Entry :=
  if e.number ∈ es.map Entry.number then es.map fun e' => if e'.number = e.number then e else e' else es ++ [e]

/-- The file has one entry for each number, and what is in it is what has been done last. -/
structure Inv (s : State) (es : List Entry) : Prop where
  file : s.file = render es
  distinct : (es.map Entry.number).Nodup
  done : ∀ e ∈ es, e.preset.map (fun p => (p.x, p.y)) = target s.done e.number
  known : ∀ k, (target s.done k).isSome = true → k ∈ es.map Entry.number

/-! ### Lines of entries -/

section Lines
variable {a b n name x y s : List Byte} {e : Entry} {es : List Entry} {k : Nat}

theorem not_separator_of_isDigit : ∀ c, isDigit c = true ∨ c = 45 → isSeparator c = false ∧ c ≠ 35 ∧ c ≠ 10 := by
  decide

theorem not_separator_digits (k : Nat) : ∀ c ∈ digits k, isSeparator c = false := fun c hc =>
  (not_separator_of_isDigit c (.inl (isDigit_of_mem_digits hc))).1

theorem mem_coord (x : Coord) : ∀ c ∈ x.text, isDigit c = true ∨ c = 45 := by
  obtain ⟨s, h⟩ := x
  intro c hc
  unfold isInteger at h
  dsimp only at h hc
  split at h
  · rename_i hhead
    obtain ⟨s', rfl⟩ := List.head?_eq_some_iff.mp hhead
    rw [Bool.and_eq_true] at h
    obtain rfl | hc := List.mem_cons.mp hc
    · exact .inr rfl
    · exact .inl (List.all_eq_true.mp h.2 c hc)
  · rw [Bool.and_eq_true] at h
    exact .inl (List.all_eq_true.mp h.2 c hc)

theorem coord_ne_nil (x : Coord) : x.text ≠ [] := by
  intro hnil
  have h := x.integer
  rw [hnil] at h
  exact absurd h (by decide)

theorem not_separator_coord (x : Coord) : ∀ c ∈ x.text, isSeparator c = false := fun c hc =>
  (not_separator_of_isDigit c (mem_coord x c hc)).1

theorem not_separator_plain (h : isPlain name = true) : ∀ c ∈ name, isSeparator c = false := by
  intro c hc
  have hplain := List.all_eq_true.mp h c hc
  rw [Bool.and_eq_true, Bool.and_eq_true, decide_eq_true_eq, decide_eq_true_eq] at hplain
  rw [isSeparator, decide_eq_false hplain.1.1, decide_eq_false hplain.1.2]
  rfl

theorem cutAt_append {c : Byte} (ha : ∀ d ∈ a, isSeparator d = false) (hc : isSeparator c = true) (s : List Byte) :
    cutAt (a ++ c :: s) = (a, s) := by
  have hall : ∀ d ∈ a, (!isSeparator d) = true := fun d hd => by rw [ha d hd]; rfl
  have hstop : ¬(!isSeparator c) = true := by rw [hc]; decide
  have htake : (c :: s).takeWhile (!isSeparator ·) = [] := List.takeWhile_cons_of_neg hstop
  have hdrop : (c :: s).dropWhile (!isSeparator ·) = c :: s := List.dropWhile_cons_of_neg hstop
  rw [cutAt, List.takeWhile_append_of_pos hall, List.dropWhile_append_of_pos hall, htake, hdrop, List.append_nil,
    List.tail_cons]

theorem cutAt_self (ha : ∀ d ∈ a, isSeparator d = false) : cutAt a = (a, []) := by
  have hall : ∀ d ∈ a, (!isSeparator d) = true := fun d hd => by rw [ha d hd]; rfl
  rw [cutAt, List.takeWhile_eq_self_iff.mpr hall, List.dropWhile_eq_nil_iff.mpr hall]
  rfl

/-- An entry is read as it was written. -/
theorem readFields_entryText (hn : ∀ c ∈ n, isSeparator c = false) (hname : ∀ c ∈ name, isSeparator c = false)
    (hx : ∀ c ∈ x, isSeparator c = false) (hy : ∀ c ∈ y, isSeparator c = false) :
    readFields (entryText n name x y) = ⟨n, name, x, y⟩ := by
  have hequals : isSeparator 61 = true := rfl
  have hcomma : isSeparator 44 = true := rfl
  unfold readFields entryText
  simp only [cutAt_append hn hequals, cutAt_append hname hcomma, cutAt_append hx hcomma, lastField, cutAt_self hy,
    if_true]

theorem not_separator_entry (e : Entry) : (∀ c ∈ e.name, isSeparator c = false) ∧
    (∀ c ∈ e.x, isSeparator c = false) ∧ ∀ c ∈ e.y, isSeparator c = false := by
  unfold Entry.name Entry.x Entry.y
  cases e.preset with
  | none =>
    have hnil : ∀ c ∈ ([] : List Byte), isSeparator c = false := fun c hc => absurd hc List.not_mem_nil
    exact ⟨hnil, hnil, hnil⟩
  | some p => exact ⟨not_separator_plain p.plain, not_separator_coord p.x, not_separator_coord p.y⟩

theorem readFields_line (e : Entry) : readFields e.line = ⟨digits e.number, e.name, e.x, e.y⟩ := by
  obtain ⟨hname, hx, hy⟩ := not_separator_entry e
  rw [Entry.line, readFields_entryText (not_separator_digits _) hname hx hy]

/-- A number begins with a digit. -/
theorem head?_digits (k : Nat) : (digits k).head? ≠ some 35 := fun h => notMem_digits rfl k (List.mem_of_head? h)

/-- **Running a preset reads its entry.** -/
theorem runPreset_render (k : Nat) (es : List Entry) : runPreset (digits k) (render es) =
    match es.find? fun e => e.number = k with
    | some e =>
      match e.preset with
      | some p => .drive p.x.text p.y.text
      | none => .missing
    | none => .notFound := by
  have hcomment (file : List Line) : runPreset (digits k) (comment :: file) = runPreset (digits k) file := by
    rw [runPreset]
    exact if_pos (by decide)
  rw [render, hcomment]
  induction es with
  | nil => rfl
  | cons e es ih =>
    rw [List.map_cons, runPreset, readFields_line]
    dsimp only
    rw [if_neg (head?_digits _)]
    by_cases hk : e.number = k
    · rw [if_pos (congrArg digits hk), List.find?_cons_of_pos (by simpa using hk)]
      unfold Entry.x Entry.y
      dsimp only
      cases e.preset with
      | none => rfl
      | some p => exact if_pos ⟨coord_ne_nil p.x, coord_ne_nil p.y⟩
    · rw [if_neg fun h => hk (digits_injective h), ih, List.find?_cons_of_neg (by simpa using hk)]

theorem numText_line (e : Entry) : numText e.line = digits e.number := by
  rw [numText, Entry.line, entryText, List.takeWhile_append_of_pos fun c hc => isDigit_of_mem_digits hc,
    List.takeWhile_cons_of_neg (by decide), List.append_nil]

theorem isOf_line (e : Entry) : isOf (digits e.number) e.line = true := isOf_iff.mpr ⟨_, rfl⟩

theorem isNumbered_line (e : Entry) : isNumbered e.line = true := by
  rw [isNumbered, numText_line, isOf_line, decide_eq_true (digits_ne_nil _)]
  rfl

theorem isNumbered_comment : isNumbered comment = false := by decide

theorem isOf_digits_iff (k : Nat) (e : Entry) : isOf (digits k) e.line = true ↔ e.number = k := by
  constructor
  · intro h
    exact (digits_injective (isOf_unique (notMem_digits rfl _) (notMem_digits rfl _) h (isOf_line e))).symm
  · rintro rfl
    exact isOf_line e

theorem isOf_comment (k : Nat) : isOf (digits k) comment = false := by
  refine Bool.eq_false_iff.mpr fun h => ?_
  obtain ⟨rest, hrest⟩ := isOf_iff.mp h
  cases hdigits : digits k with
  | nil => exact digits_ne_nil k hdigits
  | cons c cs =>
    rw [hdigits] at hrest
    obtain rfl : 35 = c := (List.cons.inj hrest).1
    exact head?_digits k (congrArg List.head? hdigits)

theorem not_comment_line (e : Entry) : isComment e.line = false := by
  refine decide_eq_false fun h => ?_
  rw [Entry.line, entryText, List.head?_append] at h
  cases hhead : (digits e.number).head? with
  | none => exact digits_ne_nil _ (List.head?_eq_none_iff.mp hhead)
  | some c =>
    rw [hhead] at h
    exact head?_digits _ (hhead.trans h)

theorem hasNumber_line (k : Nat) (e : Entry) : hasNumber k e.line = decide (e.number = k) := by
  rw [hasNumber, isNumbered_line, numText_line, decimal_digits, Bool.true_and]

theorem numbered_render (es : List Entry) : (render es).filter isNumbered = es.map Entry.line := by
  rw [render, List.filter_cons_of_neg (by decide), List.filter_eq_self]
  intro line hline
  obtain ⟨e, -, rfl⟩ := List.mem_map.mp hline
  exact isNumbered_line e

theorem numbers_render (es : List Entry) : numbers (render es) = es.map Entry.number := by
  rw [numbers, numbered_render, List.map_map]
  refine List.map_congr_left fun e _ => ?_
  rw [Function.comp_apply, numText_line, decimal_digits]

theorem filter_hasNumber (k : Nat) (es : List Entry) :
    (render es).filter (hasNumber k) = (es.filter fun e => e.number = k).map Entry.line := by
  have hcomment : ¬hasNumber k comment = true := by
    rw [hasNumber, isNumbered_comment]
    exact Bool.false_ne_true
  rw [render, List.filter_cons_of_neg hcomment, List.filter_map]
  refine congrArg (List.map Entry.line) (List.filter_congr fun e _ => ?_)
  exact hasNumber_line k e

theorem filter_comment (es : List Entry) : (render es).filter isComment = [comment] := by
  rw [render, List.filter_cons_of_pos (by decide)]
  refine congrArg (List.cons comment) (List.filter_eq_nil_iff.mpr fun line hline => ?_)
  obtain ⟨e, -, rfl⟩ := List.mem_map.mp hline
  exact Bool.eq_false_iff.mp (not_comment_line e)

theorem any_isOf (k : Nat) (es : List Entry) : (render es).any (isOf (digits k)) = true ↔ k ∈ es.map Entry.number := by
  rw [render, List.any_cons, isOf_comment, Bool.false_or, List.any_map, List.any_eq_true, List.mem_map]
  exact exists_congr fun e => and_congr_right fun _ => isOf_digits_iff k e

/-! ### `put` -/

theorem mem_put {e e' : Entry} (h : e' ∈ put e es) : e' = e ∨ e' ∈ es ∧ e'.number ≠ e.number := by
  unfold put at h
  split at h
  · obtain ⟨d, hd, rfl⟩ := List.mem_map.mp h
    split
    · exact .inl rfl
    · rename_i hne
      exact .inr ⟨hd, hne⟩
  · rename_i hfresh
    obtain h | h := List.mem_append.mp h
    · exact .inr ⟨h, fun heq => hfresh (heq ▸ List.mem_map_of_mem h)⟩
    · exact .inl (List.mem_singleton.mp h)

theorem map_number_put (e : Entry) (es : List Entry) : (put e es).map Entry.number =
    if e.number ∈ es.map Entry.number then es.map Entry.number else es.map Entry.number ++ [e.number] := by
  unfold put
  split
  · rw [List.map_map]
    refine List.map_congr_left fun e' _ => ?_
    rw [Function.comp_apply]
    split
    · rename_i heq
      exact heq.symm
    · rfl
  · exact List.map_append

theorem nodup_put (h : (es.map Entry.number).Nodup) (e : Entry) : ((put e es).map Entry.number).Nodup := by
  rw [map_number_put]
  split
  · exact h
  · rename_i hfresh
    exact List.nodup_append.mpr ⟨h, List.nodup_singleton _, fun a ha b hb heq =>
      hfresh (List.mem_singleton.mp hb ▸ heq ▸ ha)⟩

theorem filter_put (e : Entry) (es : List Entry) (hk : k ≠ e.number) :
    (put e es).filter (fun e' => e'.number = k) = es.filter fun e' => e'.number = k := by
  unfold put
  split
  · rw [List.filter_map]
    have hsame : es.filter ((fun e' => decide (e'.number = k)) ∘ fun e' => if e'.number = e.number then e else e') =
        es.filter fun e' => e'.number = k := by
      refine List.filter_congr fun e' _ => ?_
      rw [Function.comp_apply]
      split
      · rename_i heq
        rw [heq]
      · rfl
    rw [hsame]
    refine (List.map_congr_left fun e' he' => if_neg fun heq => hk ?_).trans (List.map_id _)
    exact (of_decide_eq_true (List.mem_filter.mp he').2).symm.trans heq
  · rw [List.filter_append, List.filter_cons_of_neg (by simpa using hk.symm), List.filter_nil, List.append_nil]

/-! ### The operations on entries -/

/-- A line is put in the place of the one with its number. -/
theorem substitute_render (e : Entry) (h : e.number ∈ es.map Entry.number) (hline : 10 ∉ e.line) :
    ((render es).flatMap fun line => if isOf (digits e.number) line then e.line.splitOn 10 else [line]) =
      render (put e es) := by
  have hone : (fun line => if isOf (digits e.number) line then e.line.splitOn 10 else [line]) =
      fun line => [if isOf (digits e.number) line then e.line else line] := by
    funext line
    split
    · exact splitOn_line hline
    · rfl
  rw [hone, ← List.map_eq_flatMap, render, render, put, if_pos h, List.map_cons, isOf_comment, List.map_map,
    List.map_map]
  refine congrArg (List.cons comment) (List.map_congr_left fun e' _ => ?_)
  rw [Function.comp_apply, Function.comp_apply]
  by_cases heq : e'.number = e.number
  · rw [if_pos ((isOf_digits_iff _ e').mpr heq), if_pos heq]
  · rw [if_neg fun hof => heq ((isOf_digits_iff _ e').mp hof), if_neg heq]

theorem append_render (e : Entry) (h : e.number ∉ es.map Entry.number) : render es ++ [e.line] = render (put e es) := by
  rw [put, if_neg h, render, render, List.map_append]
  rfl

theorem newline_notMem_entry (e : Entry) : 10 ∉ e.line := by
  have hdigits : 10 ∉ digits e.number := notMem_digits rfl _
  have hcoord (x : Coord) : 10 ∉ x.text := fun h => absurd rfl (not_separator_of_isDigit 10 (mem_coord x 10 h)).2.2
  rw [Entry.line, entryText]
  simp only [List.mem_append, List.mem_cons, not_or]
  unfold Entry.name Entry.x Entry.y
  cases e.preset with
  | none => exact ⟨hdigits, by decide, List.not_mem_nil, by decide, List.not_mem_nil, by decide, List.not_mem_nil⟩
  | some p =>
    refine ⟨hdigits, by decide, fun h => ?_, by decide, hcoord p.x, by decide, hcoord p.y⟩
    have hplain := List.all_eq_true.mp p.plain 10 h
    exact absurd hplain (by decide)

/-- `-a` with a name that `sed` takes for another one, where the slot is there. -/
theorem addPreset_render (t : Tools) {name' : List Byte} {x y : Coord} {p : Preset} (hx : p.x = x) (hy : p.y = y)
    (hname : if (render es).any (isOf (digits k)) then
      sedText (entryText (digits k) name' x.text y.text) = some (entryText (digits k) p.name x.text y.text)
      else name' = p.name) :
    addPreset t (digits k) name' x.text y.text (render es) = render (put ⟨k, some p⟩ es) := by
  have hline : (Entry.mk k (some p)).line = entryText (digits k) p.name x.text y.text := by
    rw [← hx, ← hy]
    rfl
  unfold addPreset
  by_cases hmem : k ∈ es.map Entry.number
  · have hany := (any_isOf k es).mpr hmem
    rw [hany, if_pos rfl] at hname
    rw [hany, if_pos rfl, t.sed_substitute _ _ _ _ (digits_ne_nil k) (all_isDigit_digits k) hname, ← hline]
    exact substitute_render ⟨k, some p⟩ hmem (newline_notMem_entry _)
  · have hany := fun h => hmem ((any_isOf k es).mp h)
    rw [if_neg hany] at hname
    rw [if_neg hany, hname, ← hline]
    exact append_render ⟨k, some p⟩ hmem

/-- A text without the special bytes stands for itself. -/
theorem sedText_of_plain {s : List Byte} (h : ∀ c ∈ s, c ≠ 92 ∧ c ≠ 38 ∧ c ≠ 47) : sedText s = some s := by
  have hnot {c : Byte} (hc : c ≠ 92 ∧ c ≠ 38 ∧ c ≠ 47) : ¬(c = 38 ∨ c = 47) := not_or.mpr hc.2
  induction s with
  | nil => rfl
  | cons b s ih =>
    obtain ⟨hb, hs⟩ := List.forall_mem_cons.mp h
    cases s with
    | nil => exact if_neg (not_or.mpr ⟨hb.1, hnot hb⟩)
    | cons c s =>
      rw [sedText, if_neg hb.1, if_neg (hnot hb), ih hs]
      rfl

theorem removePreset_render (t : Tools) (k : Nat) (es : List Entry) : removePreset t (digits k) (render es) =
    if k ∈ es.map Entry.number then render (put ⟨k, none⟩ es) else render es := by
  unfold removePreset
  by_cases hmem : k ∈ es.map Entry.number
  · have hplain : sedText (entryText (digits k) [] [] []) = some (entryText (digits k) [] [] []) := by
      refine sedText_of_plain fun c hc => ?_
      rw [entryText] at hc
      obtain hc | hc := List.mem_append.mp hc
      · have hother {b : Byte} (hb : isDigit b = false) : c ≠ b := fun heq => notMem_digits hb k (heq ▸ hc)
        exact ⟨hother rfl, hother rfl, hother rfl⟩
      · simp only [List.nil_append, List.mem_cons, List.not_mem_nil, or_false] at hc
        obtain rfl | rfl | rfl := hc <;> decide
    rw [(any_isOf k es).mpr hmem, if_pos rfl, if_pos hmem,
      t.sed_substitute _ _ _ _ (digits_ne_nil k) (all_isDigit_digits k) hplain]
    exact substitute_render ⟨k, none⟩ hmem (newline_notMem_entry _)
  · rw [if_neg fun h => hmem ((any_isOf k es).mp h), if_neg hmem]

/-! ### The loop for `-1` -/

/-- A line with a separator is printed as it is. -/
theorem echo_line {b : Byte} (h : b ∈ s) (hsep : isSeparator b = true) (hline : 10 ∉ s) :
    echoed s = s ∧ echoLine s = [s] := by
  have hoption : isEchoOption s = false := by
    rw [isSeparator, Bool.or_eq_true, decide_eq_true_eq, decide_eq_true_eq] at hsep
    obtain rfl | rfl := hsep <;> exact isEchoOption_of_mem h (by decide) rfl
  have hself := echoed_of_line hoption hline
  have hne : echo s ≠ [] := by
    rw [echo, hoption]
    exact List.append_ne_nil_of_right_ne_nil _ (List.cons_ne_nil _ _)
  exact ⟨hself, by rw [echoLine, if_neg hne, hself]⟩

/-- What is behind the number. -/
def Entry.vals (e : Entry) : List Byte := e.name ++ 44 :: (e.x ++ 44 :: e.y)

theorem equals_mem_line (e : Entry) : 61 ∈ e.line := List.mem_append_right _ List.mem_cons_self

theorem echo_entry (e : Entry) : echoed e.line = e.line ∧ echoLine e.line = [e.line] :=
  echo_line (equals_mem_line e) rfl (newline_notMem_entry e)

theorem comma_mem_vals (e : Entry) : 44 ∈ e.vals := List.mem_append_right _ List.mem_cons_self

theorem echoed_vals (e : Entry) : echoed e.vals = e.vals := by
  refine (echo_line (comma_mem_vals e) rfl fun h => newline_notMem_entry e ?_).1
  exact List.mem_append_right _ (List.mem_cons_of_mem _ h)

/-- The fields of an entry. -/
theorem cutField_line (e : Entry) : cutField 61 0 e.line = digits e.number ∧ cutField 61 1 e.line = e.vals ∧
    cutField 44 1 e.vals = e.x ∧ cutField 44 2 e.vals = e.y := by
  obtain ⟨hname, hx, hy⟩ := not_separator_entry e
  have hnot {a : List Byte} (ha : ∀ c ∈ a, isSeparator c = false) : 61 ∉ a ∧ 44 ∉ a :=
    ⟨fun h => absurd (ha 61 h) (by decide), fun h => absurd (ha 44 h) (by decide)⟩
  have hvals : 61 ∉ e.vals := by
    simp only [Entry.vals, List.mem_append, List.mem_cons, not_or]
    exact ⟨(hnot hname).1, by decide, (hnot hx).1, by decide, (hnot hy).1⟩
  have hline : e.line.splitOn 61 = [digits e.number, e.vals] := by
    rw [Entry.line, entryText, splitOn_cut (notMem_digits rfl _), ← Entry.vals, List.splitOn_eq_singleton hvals]
  have hfields : e.vals.splitOn 44 = [e.name, e.x, e.y] := by
    rw [Entry.vals, splitOn_cut (hnot hname).2, splitOn_cut (hnot hx).2, List.splitOn_eq_singleton (hnot hy).2]
  have hnum (i : Nat) : cutField 61 i e.line = [digits e.number, e.vals].getD i [] := by
    rw [cutField, if_pos (List.contains_iff_mem.mpr (equals_mem_line e)), hline]
  have hval (i : Nat) : cutField 44 i e.vals = [e.name, e.x, e.y].getD i [] := by
    rw [cutField, if_pos (List.contains_iff_mem.mpr (comma_mem_vals e)), hfields]
  exact ⟨hnum 0, hnum 1, hval 1, hval 2⟩

/-- A line is taken if it is the first free one. -/
theorem autoLine_line (a : Auto) (e : Entry) : autoLine name x y a e.line =
    if a.used.isNone && e.isFree then
      ⟨some (digits e.number), a.out ++ [entryText (digits e.number) name x y]⟩
    else ⟨a.used, a.out ++ [e.line]⟩ := by
  obtain ⟨hnum, hvals, hx, hy⟩ := cutField_line e
  obtain ⟨hline, hout⟩ := echo_entry e
  have hhead : e.line.head? ≠ some 35 := of_decide_eq_false (not_comment_line e)
  have hfree : (decide (e.x = []) || decide (e.y = [])) = e.isFree := by
    unfold Entry.x Entry.y Entry.isFree
    cases e.preset with
    | none => rfl
    | some p => exact Bool.or_eq_false_iff.mpr ⟨decide_eq_false (coord_ne_nil p.x), decide_eq_false (coord_ne_nil p.y)⟩
  unfold autoLine
  rw [if_neg hhead]
  dsimp only
  rw [hline, hnum, hvals, echoed_vals, hx, hy, hfree, hout]

theorem foldl_used (es : List Entry) (n : List Byte) (out : List Line) :
    (es.map Entry.line).foldl (autoLine name x y) ⟨some n, out⟩ = ⟨some n, out ++ es.map Entry.line⟩ := by
  induction es generalizing out with
  | nil => rw [List.map_nil, List.append_nil]; rfl
  | cons e es ih =>
    rw [List.map_cons, List.foldl_cons, autoLine_line]
    exact (ih _).trans (by rw [List.append_assoc]; rfl)

/-- The first free entry is taken. -/
theorem foldl_auto {es : List Entry} (hdistinct : (es.map Entry.number).Nodup) (p : Preset) (out : List Line) :
    (es.map Entry.line).foldl (autoLine p.name p.x.text p.y.text) ⟨none, out⟩ =
      match es.find? Entry.isFree with
      | some e => ⟨some (digits e.number), out ++ (es.map fun e' =>
          if e'.number = e.number then Entry.mk e.number (some p) else e').map Entry.line⟩
      | none => ⟨none, out ++ es.map Entry.line⟩ := by
  induction es generalizing out with
  | nil => rw [List.map_nil, List.find?_nil, List.append_nil]; rfl
  | cons e es ih =>
    obtain ⟨hfresh, hdistinct⟩ := List.nodup_cons.mp hdistinct
    rw [List.map_cons, List.foldl_cons, autoLine_line, Option.isNone_none, Bool.true_and]
    cases hfree : e.isFree with
    | true =>
      have hothers : (es.map fun e' => if e'.number = e.number then Entry.mk e.number (some p) else e') = es := by
        refine (List.map_congr_left fun e' he' => if_neg fun heq => hfresh ?_).trans (List.map_id es)
        exact List.mem_map.mpr ⟨e', he', heq⟩
      rw [List.find?_cons_of_pos hfree, if_pos rfl, foldl_used]
      dsimp only
      rw [List.map_cons, if_pos rfl, hothers, List.append_assoc]
      rfl
    | false =>
      rw [if_neg Bool.false_ne_true, ih hdistinct, List.find?_cons_of_neg (Bool.eq_false_iff.mp hfree)]
      cases hfind : es.find? Entry.isFree with
      | none =>
        dsimp only
        rw [List.append_assoc]
        rfl
      | some e' =>
        have hne : e.number ≠ e'.number := fun heq =>
          hfresh (List.mem_map.mpr ⟨e', List.mem_of_find?_eq_some hfind, heq.symm⟩)
        dsimp only
        rw [List.map_cons, if_neg hne, List.append_assoc]
        rfl

/-! ### The slot -/

variable {t : Tools} {st st' : State} {op : Op}

theorem done_isNone (h : Inv st es) (he : e ∈ es) : (target st.done e.number).isNone = e.isFree := by
  rw [← h.done e he, Option.isNone_map]
  rfl

/-- The slot of `-1` is the first free entry, if there is one. -/
theorem slot_eq (h : Inv st es) : slot st =
    ((es.find? Entry.isFree).map Entry.number).getD (largest (es.map Entry.number) + 1) := by
  have hfree : es.find? ((fun k => (target st.done k).isNone) ∘ Entry.number) = es.find? Entry.isFree :=
    List.find?_congr fun e he => done_isNone h he
  rw [slot, h.file, numbers_render, List.find?_map, hfree]

theorem le_largest {ns : List Nat} (h : k ∈ ns) : k ≤ largest ns := by
  induction ns with
  | nil => exact absurd h List.not_mem_nil
  | cons n ns ih =>
    obtain rfl | h := List.mem_cons.mp h
    · exact Nat.le_max_left _ _
    · exact (ih h).trans (Nat.le_max_right _ _)

theorem successor_digits (wide : List Byte → Option Int) (h : k < testMax) :
    (successor wide (digits k)).map printInt = some (digits (k + 1)) := by
  have hmax : ¬(k : Int) = 9223372036854775807 := by
    unfold testMax at h
    omega
  rw [successor, if_neg (digits_ne_nil k), arith_digits wide (Nat.le_of_lt h), Option.map_some, if_neg hmax,
    Option.map_some, printInt, if_neg (by omega)]
  rfl

/-- **`-1` writes to its slot.** -/
theorem addAuto_render (h : Inv st es) (p : Preset)
    (hroom : (numbers st.file).any (fun k => (target st.done k).isNone) = true ∨
      t.sortLast ((st.file.filter isNumbered).map numText) = digits (largest (numbers st.file)) ∧
        largest (numbers st.file) < testMax) :
    addAuto t p.name p.x.text p.y.text st.file = some (digits (slot st), render (put ⟨slot st, some p⟩ es)) := by
  have hcomment : autoLine p.name p.x.text p.y.text ⟨none, []⟩ comment = ⟨none, [comment]⟩ := by
    rw [autoLine, if_pos (by decide)]
    rfl
  rw [slot_eq h, addAuto, h.file, render, List.foldl_cons, hcomment, foldl_auto h.distinct]
  cases hfind : es.find? Entry.isFree with
  | some e =>
    dsimp only [Option.map_some, Option.getD_some]
    rw [put, if_pos (List.mem_map_of_mem (List.mem_of_find?_eq_some hfind))]
    rfl
  | none =>
    dsimp only [Option.map_none, Option.getD_none]
    rw [h.file, numbers_render] at hroom
    obtain hfree | ⟨hsort, hlt⟩ := hroom
    · rw [List.any_map, List.any_eq_true] at hfree
      obtain ⟨e, he, hnone⟩ := hfree
      exact absurd ((done_isNone h he).symm.trans hnone) (List.find?_eq_none.mp hfind e he)
    · have hnext := successor_digits t.wide hlt
      rw [← hsort] at hnext
      obtain ⟨m, hm, hprint⟩ := Option.map_eq_some_iff.mp hnext
      have hfresh : largest (es.map Entry.number) + 1 ∉ es.map Entry.number := fun hmem =>
        absurd (le_largest hmem) (Nat.not_succ_le_self _)
      rw [render] at hm
      rw [hm, Option.map_some, hprint, ← append_render ⟨_, some p⟩ hfresh]
      rfl

/-! ### The invariant -/

theorem inv_put (h : Inv st es) {done : List Done}
    (hdone : ∀ k, target done k = if k = e.number then e.preset.map (fun p => (p.x, p.y)) else target st.done k) :
    Inv ⟨render (put e es), done⟩ (put e es) where
  file := rfl
  distinct := nodup_put h.distinct e
  done e' he' := by
    obtain rfl | ⟨he', hne⟩ := mem_put he'
    · exact ((hdone _).trans (if_pos rfl)).symm
    · exact (h.done e' he').trans ((hdone _).trans (if_neg hne)).symm
  known k hk := by
    rw [hdone] at hk
    rw [map_number_put]
    by_cases hnumber : k = e.number
    · subst hnumber
      split
      · assumption
      · exact List.mem_append_right _ (List.mem_singleton_self _)
    · rw [if_neg hnumber] at hk
      split
      · exact h.known k hk
      · exact List.mem_append_left _ (h.known k hk)

/-- An operation writes an entry with its number. -/
structure Writes (s s' : State) (es : List Entry) (op : Op) (e : Entry) : Prop where
  number : e.number = op.number s
  coords : e.preset.map (fun p => (p.x, p.y)) = op.coords
  file : s'.file = render (put e es)
  done : ∀ k, target s'.done k = if k = op.number s then op.coords else target s.done k

theorem Writes.inv {e : Entry} (h : Inv st es) (hw : Writes st st' es op e) : Inv st' (put e es) := by
  have hdone (k : Nat) : target st'.done k =
      if k = e.number then e.preset.map (fun p => (p.x, p.y)) else target st.done k := by
    rw [hw.done, hw.number, hw.coords]
  have hinv := inv_put h hdone
  rw [← hw.file] at hinv
  exact hinv

theorem Writes.kept {e : Entry} (h : Inv st es) (hw : Writes st st' es op e) : Kept st st' op where
  others k hk := by
    rw [← hw.number] at hk
    rw [h.file, hw.file, filter_hasNumber, filter_hasNumber, filter_put e es hk]
  comments := by rw [h.file, hw.file, filter_comment, filter_comment]
  done := hw.done

/-- **A step**: an entry is written, unless there is none to remove. -/
theorem step_cases (h : Inv st es) (hcareful : careful t st op) (hstep : step t st op = some st') :
    (∃ e, Writes st st' es op e) ∨ op.number st ∉ es.map Entry.number ∧ op.coords = none ∧ st'.file = st.file ∧
      ∀ k, target st'.done k = if k = op.number st then op.coords else target st.done k := by
  cases op with
  | add n name x y =>
    obtain ⟨hnumber, hname⟩ := hcareful
    have hadd (p : Preset) (hx : p.x = x) (hy : p.y = y)
        (hp : if (render es).any (isOf (digits (decimal n.text))) then
          sedText (entryText (digits (decimal n.text)) name.text x.text y.text) =
            some (entryText (digits (decimal n.text)) p.name x.text y.text)
          else name.text = p.name) : Writes st st' es (.add n name x y) ⟨decimal n.text, some p⟩ := by
      obtain rfl := Option.some.inj hstep
      have hfile := addPreset_render t hx hy hp
      rw [← h.file, hnumber] at hfile
      refine ⟨rfl, ?_, hfile, fun k => rfl⟩
      rw [Option.map_some, hx, hy]
      rfl
    rw [h.file, ← hnumber] at hname
    split at hname
    · rename_i hany
      obtain ⟨name', hplain, hsed⟩ := hname
      exact .inl ⟨_, hadd ⟨name', x, y, hplain⟩ rfl rfl (by rw [if_pos hany]; exact hsed)⟩
    · rename_i hany
      exact .inl ⟨_, hadd ⟨name.text, x, y, hname⟩ rfl rfl (by rw [if_neg hany])⟩
  | auto name x y =>
    obtain ⟨hname, hroom⟩ := hcareful
    rw [step, addAuto_render h ⟨name.text, x, y, hname⟩ hroom] at hstep
    obtain rfl := Option.some.inj hstep
    refine .inl ⟨⟨slot st, some ⟨name.text, x, y, hname⟩⟩, rfl, rfl, rfl, fun k => ?_⟩
    dsimp only
    rw [decimal_digits]
    rfl
  | remove n =>
    have hnumber : digits (decimal n.text) = n.text := hcareful
    have hfile := removePreset_render t (decimal n.text) es
    rw [← h.file, hnumber] at hfile
    obtain rfl := Option.some.inj hstep
    split at hfile
    · exact .inl ⟨⟨decimal n.text, none⟩, rfl, rfl, hfile, fun k => rfl⟩
    · rename_i hfresh
      exact .inr ⟨hfresh, rfl, hfile, fun k => rfl⟩

theorem inv_step (h : Inv st es) (hcareful : careful t st op) (hstep : step t st op = some st') :
    (∃ es', Inv st' es') ∧ Kept st st' op := by
  obtain ⟨e, hw⟩ | ⟨hfresh, hnone, hfile, hdone⟩ := step_cases h hcareful hstep
  · exact ⟨⟨_, hw.inv h⟩, hw.kept h⟩
  · refine ⟨⟨es, hfile.trans h.file, h.distinct, fun e he => ?_, fun k hk => ?_⟩, fun k _ => by rw [hfile],
      by rw [hfile], hdone⟩
    · rw [hdone, if_neg fun heq : e.number = op.number st => hfresh (heq ▸ List.mem_map_of_mem he)]
      exact h.done e he
    · rw [hdone, hnone] at hk
      split at hk
      · exact absurd hk Bool.false_ne_true
      · exact h.known k hk

/-- The file is one of entries. -/
def Sound (s : State) : Prop := ∃ es, Inv s es

theorem sound_step (h : Sound st) (hcareful : careful t st op) (hstep : step t st op = some st') : Sound st' := by
  obtain ⟨es, hes⟩ := h
  exact (inv_step hes hcareful hstep).1

theorem inv_shipped : Inv shipped ((List.range 8).map fun n => ⟨n, none⟩) where
  file := rfl
  distinct := by decide
  done e he := by
    obtain ⟨n, -, rfl⟩ := List.mem_map.mp he
    rfl
  known k hk := absurd hk Bool.false_ne_true

/-- With the invariant, the file is the map. -/
theorem Inv.presetMap (h : Inv st es) : PresetMap st where
  runs k := by
    rw [h.file, runPreset_render]
    cases hfind : es.find? fun e => e.number = k with
    | some e =>
      obtain rfl : e.number = k := by simpa using List.find?_some hfind
      rw [← h.done e (List.mem_of_find?_eq_some hfind)]
      dsimp only
      cases e.preset with
      | some p => rfl
      | none => exact fun x y => Outcome.noConfusion
    | none =>
      have hnone : target st.done k = none := by
        refine Option.not_isSome_iff_eq_none.mp fun hsome => ?_
        obtain ⟨e, he, hk⟩ := List.mem_map.mp (h.known k hsome)
        exact List.find?_eq_none.mp hfind e he (decide_eq_true hk)
      rw [hnone]
      exact fun x y => Outcome.noConfusion
  distinct := by
    rw [h.file, numbers_render]
    exact h.distinct

end Lines

/-- **Along careful operations the file is a map**: a preset is run as it was set last, no two lines have the same
number, and an operation changes its own preset alone. -/
theorem presets_of_careful (t : Tools) {s : State} (h : Reach (step t) (careful t) shipped s) :
    PresetMap s ∧ ∀ op s', careful t s op → step t s op = some s' → PresetMap s' ∧ Kept s s' op := by
  have hsound : Sound s :=
    Reach.invariant ⟨_, inv_shipped⟩ (fun _ _ _ hs hcareful hstep => sound_step hs hcareful hstep) h
  obtain ⟨es, hes⟩ := hsound
  refine ⟨hes.presetMap, fun op s' hcareful hstep => ?_⟩
  obtain ⟨⟨es', hes'⟩, hkept⟩ := inv_step hes hcareful hstep
  exact ⟨hes'.presetMap, hkept⟩

/-! ### Runs -/

/-- `sed`, for the scripts of `ptz_presets`; one that it does not understand leaves the file as it is. -/
def sedFile (script : List Byte) (file : List Line) : List Line :=
  let script := script.drop 3
  let n := script.takeWhile isDigit
  match sedText ((script.dropWhile isDigit).drop 4).dropLast with
  | some text => file.flatMap fun line => if isOf n line then text.splitOn 10 else [line]
  | none => file

def plainTools : Tools where
  sed := sedFile
  sortLast ns := if ns = [] then [] else digits (largest (ns.map decimal))
  wide _ := some 9223372036854775807
  sed_substitute n replacement text file _ hdigits htext := by
    have hdrop : (sedScript n replacement).drop 3 = n ++ (ascii "=.*/" ++ replacement ++ [47]) := by
      rw [sedScript, List.append_assoc, List.append_assoc, List.append_assoc]
      rfl
    have hall : ∀ b ∈ n, isDigit b = true := List.all_eq_true.mp hdigits
    have hbehind : (ascii "=.*/" ++ replacement ++ [47]).drop 4 = replacement ++ [47] := rfl
    have htake : (ascii "=.*/" ++ replacement ++ [47]).takeWhile isDigit = [] := rfl
    have hstop : (ascii "=.*/" ++ replacement ++ [47]).dropWhile isDigit = ascii "=.*/" ++ replacement ++ [47] := rfl
    unfold sedFile
    dsimp only
    rw [hdrop, List.takeWhile_append_of_pos hall, List.dropWhile_append_of_pos hall, hstop, htake, hbehind,
      List.dropLast_concat, List.append_nil, htext]

def window : Op :=
  .add ⟨ascii "0", by decide, by decide⟩ ⟨ascii "Window", by decide⟩ ⟨ascii "1200", by decide⟩ ⟨ascii "-360", by decide⟩

theorem presets_after_window : ∃ s, step plainTools shipped window = some s ∧ PresetMap s ∧
    ∀ op s', careful plainTools s op → step plainTools s op = some s' → PresetMap s' ∧ Kept s s' op := by
  have hcareful : careful plainTools shipped window := ⟨by decide, ascii "Window", by decide, by decide⟩
  refine ⟨_, rfl, presets_of_careful plainTools (Reach.start.next hcareful rfl)⟩

/-- A comma in the name moves the coordinates. -/
def corner : Op :=
  .add ⟨ascii "0", by decide, by decide⟩ ⟨ascii "Door,left", by decide⟩ ⟨ascii "12", by decide⟩ ⟨ascii "34", by decide⟩

theorem coordinates_moved : ∃ s, Reach (step plainTools) (fun _ _ => True) shipped s ∧ ¬PresetMap s := by
  refine ⟨_, Reach.start.next (e := corner) trivial rfl, fun h => ?_⟩
  have hrun : runPreset (digits 0) (addPreset plainTools (ascii "0") (ascii "Door,left") (ascii "12") (ascii "34")
      shipped.file) = .drive (ascii "12") (ascii "34") := h.runs 0
  exact absurd hrun (by decide)

end Thingino.Motors
