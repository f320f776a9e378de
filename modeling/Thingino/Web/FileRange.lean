import Thingino.Lib.Shell

/-! A part of a file, for a player of the web interface.

`handle_range_response` cuts the two numbers out of the header with `awk`: what stands in front of the dash is the
start, what stands behind it the end, for each of the three forms of a range. The numbers are compared by `test`,
subtracted by the shell, and printed as they came. -/
namespace Thingino.Web
open Lib Lib.Shell

/-- A file; its size is an `off_t`. -/
structure File where
  content : List Byte
  small : content.length ≤ testMax

def File.length (f : File) : Nat := f.content.length

/-- `dd skip=… bs=… count=1 iflag=skip_bytes`: a block is read as a whole, unless it is larger than what can be read
at once. -/
structure Dd where
  largest : Nat
  write : List Byte → List Byte → Int → List Byte
  whole : ∀ (content skip : List Byte) (size : Nat), skip.all isDigit = true → decimal skip ≤ testMax → 0 < size →
    size ≤ largest → write content skip size = (content.drop (decimal skip)).take size
  short : ∀ (content skip : List Byte) (size : Nat), largest < size → (write content skip size).length < size

/-- `stopped`: the shell gives up before anything is printed. -/
inductive Response
  | notFound
  | whole (content : List Byte)
  | notSatisfiable (length : Nat)
  | part (first last : List Byte) (length : Nat) (contentLength : Int) (body : List Byte)
  | stopped

/-- The fields of `awk -F'[=-]'`, counted from 0. -/
def rangeField (line : List Byte) (i : Nat) : List Byte := (line.splitOnP fun b => b = 61 || b = 45).getD i []

def intText (n : Int) : List Byte := if n < 0 then 45 :: digits n.natAbs else digits n.natAbs

/-- `end`, and its value. -/
def lastByte (wide : List Byte → Option Int) (length : Nat) (field : List Byte) : List Byte × Option Int :=
  if field = [] then (intText (length - 1), some (length - 1)) else (field, arith wide field)

/-- `handle_range_response`, for the value of `HTTP_RANGE` where there is one. -/
def handleRangeResponse (dd : Dd) (wide : List Byte → Option Int) (file : Option File) (range : Option (List Byte)) :
    Response :=
  match file, range with
  | none, _ => .notFound
  | some f, none => .whole f.content
  | some f, some value =>
    let line := ascii "HTTP_RANGE=" ++ value
    let start := if rangeField line 2 = [] then ascii "0" else rangeField line 2
    if testGt start f.length then .notSatisfiable f.length
    else
      let last := lastByte wide f.length (rangeField line 3)
      match last.2, arith wide start with
      | some e, some s =>
        let blocksize := e - s + 1
        .part start last.1 f.length blocksize (dd.write f.content start blocksize)
      | _, _ => .stopped

/-! ### What a range is -/

/-- The digits of a number. -/
structure Number where
  text : List Byte
  ne : text ≠ []
  all : text.all isDigit = true

def Number.value (n : Number) : Nat := decimal n.text

/-- `bytes=a-b`, `bytes=a-` and `bytes=-n`. -/
inductive RangeForm
  | closed (first last : Number)
  | opened (first : Number)
  | suffix (length : Number)

def RangeForm.header : RangeForm → List Byte
  | .closed a b => ascii "bytes=" ++ a.text ++ 45 :: b.text
  | .opened a => ascii "bytes=" ++ a.text ++ [45]
  | .suffix n => ascii "bytes=" ++ 45 :: n.text

/-- The first and the last byte that the header asks for, in a file of some length. -/
def RangeForm.assigned (length : Nat) : RangeForm → Option (Nat × Nat)
  | .closed a b =>
    if a.value ≤ b.value ∧ a.value < length then some (a.value, min b.value (length - 1)) else none
  | .opened a => if a.value < length then some (a.value, length - 1) else none
  | .suffix n => if 0 < n.value ∧ 0 < length then some (length - min n.value length, length - 1) else none

/-- A number is printed. -/
def Prints (s : List Byte) (n : Nat) : Prop := s ≠ [] ∧ s.all isDigit = true ∧ decimal s = n

/-- **The property.** The answer is 416, or a part of the file that is what the header asks for. -/
def Consistent (f : File) (form : RangeForm) : Response → Prop
  | .notSatisfiable _ => True
  | .part first last length contentLength body =>
    ∃ s e, Prints first s ∧ Prints last e ∧ length = f.length ∧ s ≤ e ∧ e < f.length ∧ contentLength = e - s + 1 ∧
      (body.length : Int) = contentLength ∧ form.assigned f.length = some (s, e) ∧
      body = (f.content.drop s).take (e - s + 1)
  | _ => False

/-- The range begins behind the end of the file, or it lies in the file, is not longer than what `dd` reads, and the
shell has the same difference between its ends. -/
def Served (dd : Dd) (wide : List Byte → Option Int) (length : Nat) : RangeForm → Prop
  | .closed a b =>
    length < a.value ∧ a.value ≤ testMax ∨
      a.value ≤ b.value ∧ b.value < length ∧ b.value - a.value + 1 ≤ dd.largest ∧
        ∃ s e, arith wide a.text = some s ∧ arith wide b.text = some e ∧ e - s = b.value - a.value
  | .opened a =>
    length < a.value ∧ a.value ≤ testMax ∨
      a.value < length ∧ length - a.value ≤ dd.largest ∧ arith wide a.text = some (a.value : Int)
  | .suffix _ => False

/-! ### What is cut out of the header -/

section Fields

def isRangeSeparator (b : Byte) : Bool := b = 61 || b = 45

theorem not_separator_of_isDigit {s : List Byte} (h : s.all isDigit = true) : ∀ b ∈ s, isRangeSeparator b = false := by
  intro b hb
  have hdigit := List.all_eq_true.mp h b hb
  simp only [isDigit, Bool.and_eq_true, decide_eq_true_eq] at hdigit
  simp only [isRangeSeparator, Bool.or_eq_false_iff, decide_eq_false_iff_not]
  constructor
  · rintro rfl
    exact absurd hdigit.2 (by decide)
  · rintro rfl
    exact absurd hdigit.1 (by decide)

/-- The four fields of the line. -/
theorem fields_header {a b : List Byte} (ha : ∀ c ∈ a, isRangeSeparator c = false)
    (hb : ∀ c ∈ b, isRangeSeparator c = false) :
    (ascii "HTTP_RANGE=" ++ (ascii "bytes=" ++ a ++ 45 :: b)).splitOnP isRangeSeparator =
      [ascii "HTTP_RANGE", ascii "bytes", a, b] := by
  have hname : ∀ c ∈ ascii "HTTP_RANGE", isRangeSeparator c = false := by decide
  have hunit : ∀ c ∈ ascii "bytes", isRangeSeparator c = false := by decide
  have hshape : ascii "HTTP_RANGE=" ++ (ascii "bytes=" ++ a ++ 45 :: b) =
      ascii "HTTP_RANGE" ++ 61 :: (ascii "bytes" ++ 61 :: (a ++ 45 :: b)) := by
    rw [List.append_assoc]
    rfl
  rw [hshape, List.splitOnP_append_cons_of_forall_mem hname 61 rfl,
    List.splitOnP_append_cons_of_forall_mem hunit 61 rfl, List.splitOnP_append_cons_of_forall_mem ha 45 rfl,
    List.splitOnP_eq_singleton hb]

theorem rangeField_line {a b : List Byte} (ha : a.all isDigit = true) (hb : b.all isDigit = true) :
    rangeField (ascii "HTTP_RANGE=" ++ (ascii "bytes=" ++ a ++ 45 :: b)) 2 = a ∧
      rangeField (ascii "HTTP_RANGE=" ++ (ascii "bytes=" ++ a ++ 45 :: b)) 3 = b := by
  have h := fields_header (not_separator_of_isDigit ha) (not_separator_of_isDigit hb)
  unfold isRangeSeparator at h
  unfold rangeField
  rw [h]
  exact ⟨rfl, rfl⟩

end Fields

/-! ### The answer -/

section Answer
variable {dd : Dd} {wide : List Byte → Option Int} {f : File} {first : List Byte} {last : List Byte × Option Int}

/-- What is sent for a start that is not behind the end of the file. -/
def answer (dd : Dd) (wide : List Byte → Option Int) (f : File) (start : List Byte) (last : List Byte × Option Int) :
    Response :=
  if testGt start f.length then .notSatisfiable f.length
  else
    match last.2, arith wide start with
    | some e, some s => .part start last.1 f.length (e - s + 1) (dd.write f.content start (e - s + 1))
    | _, _ => .stopped

theorem handle_closed (a b : Number) :
    handleRangeResponse dd wide (some f) (some (RangeForm.closed a b).header) =
      answer dd wide f a.text (b.text, arith wide b.text) := by
  obtain ⟨hfirst, hlast⟩ := rangeField_line a.all b.all
  rw [handleRangeResponse, RangeForm.header]
  dsimp only
  rw [hfirst, hlast, if_neg a.ne, lastByte, if_neg b.ne]
  rfl

theorem handle_opened (a : Number) :
    handleRangeResponse dd wide (some f) (some (RangeForm.opened a).header) =
      answer dd wide f a.text (intText (f.length - 1), some (f.length - 1)) := by
  obtain ⟨hfirst, hlast⟩ := rangeField_line a.all (List.all_nil (f := isDigit))
  rw [handleRangeResponse, RangeForm.header]
  dsimp only
  rw [hfirst, hlast, if_neg a.ne, lastByte, if_pos rfl]
  rfl

theorem handle_suffix (n : Number) :
    handleRangeResponse dd wide (some f) (some (RangeForm.suffix n).header) =
      answer dd wide f (ascii "0") (n.text, arith wide n.text) := by
  obtain ⟨hfirst, hlast⟩ := rangeField_line (List.all_nil (f := isDigit)) n.all
  have hheader : (RangeForm.suffix n).header = ascii "bytes=" ++ [] ++ 45 :: n.text := rfl
  rw [handleRangeResponse, hheader]
  dsimp only
  rw [hfirst, hlast, if_pos rfl, lastByte, if_neg n.ne]
  rfl

/-- **When the answer is consistent.** The start is behind the end of the file, or both ends are what is asked for
and the block between them is read. -/
theorem consistent_answer (form : RangeForm) (hfirst : first ≠ [] ∧ first.all isDigit = true) :
    Consistent f form (answer dd wide f first last) ↔
      f.length < decimal first ∧ decimal first ≤ testMax ∨
        ∃ e, Prints last.1 e ∧ decimal first ≤ e ∧ e < f.length ∧ form.assigned f.length = some (decimal first, e) ∧
          e - decimal first + 1 ≤ dd.largest ∧
            ∃ x y, arith wide first = some x ∧ last.2 = some y ∧ y - x = e - decimal first := by
  have hsmall := f.small
  unfold answer
  split
  · rename_i hgt
    rw [testGt, Bool.and_eq_true, decide_eq_true_eq, decide_eq_true_eq] at hgt
    exact iff_of_true trivial (.inl ⟨hgt.2, hgt.1⟩)
  · rename_i hgt
    rw [testGt, Bool.and_eq_true, decide_eq_true_eq, decide_eq_true_eq, not_and] at hgt
    rw [or_iff_right fun h => hgt h.2 h.1]
    constructor
    · intro h
      split at h
      · rename_i y x hy hx
        obtain ⟨s, e, ⟨-, -, rfl⟩, hlast, -, hle, hlt, hsize, hbody, hassigned, -⟩ := h
        have hblock : y - x + 1 = ((e - decimal first + 1 : Nat) : Int) := by omega
        refine ⟨e, hlast, hle, hlt, hassigned, ?_, x, y, hx, hy, by omega⟩
        refine Nat.le_of_not_lt fun hlarge => ?_
        have hshort := dd.short f.content first _ hlarge
        rw [hblock] at hbody
        omega
      · exact h.elim
    · rintro ⟨e, hlast, hle, hlt, hassigned, hlarge, x, y, hx, hy, hdiff⟩
      have hblock : y - x + 1 = ((e - decimal first + 1 : Nat) : Int) := by omega
      have hread : dd.write f.content first ((e - decimal first + 1 : Nat) : Int) =
          (f.content.drop (decimal first)).take (e - decimal first + 1) :=
        dd.whole f.content first _ hfirst.2 (by unfold File.length at hlt; omega) (Nat.succ_pos _) hlarge
      rw [hy, hx]
      dsimp only
      rw [hblock, hread]
      refine ⟨decimal first, e, ⟨hfirst.1, hfirst.2, rfl⟩, hlast, rfl, hle, hlt, by omega, ?_, hassigned, rfl⟩
      rw [List.length_take, List.length_drop]
      unfold File.length at hlt
      omega

theorem Prints.eq {s : List Byte} {n m : Nat} (h : Prints s n) (hm : decimal s = m) : n = m := h.2.2.symm.trans hm

/-- The last byte of a file that is not empty. -/
theorem prints_last {length : Nat} (h : 0 < length) : Prints (intText (length - 1)) (length - 1) := by
  have hnat : ((length : Int) - 1).natAbs = length - 1 := by omega
  rw [intText, if_neg (by omega), hnat]
  exact ⟨digits_ne_nil _, all_isDigit_digits _, decimal_digits _⟩

end Answer

/-- **The answer to a range request is consistent exactly when** `Served` says so, for all files, all ranges of the
three forms and all numbers. -/
theorem consistent_iff (dd : Dd) (wide : List Byte → Option Int) (f : File) (form : RangeForm) :
    Consistent f form (handleRangeResponse dd wide (some f) (some form.header)) ↔ Served dd wide f.length form := by
  cases form with
  | closed a b =>
    rw [handle_closed, consistent_answer _ ⟨a.ne, a.all⟩, Served]
    refine or_congr_right ?_
    constructor
    · rintro ⟨e, he, hle, hlt, -, hlarge, x, y, hx, hy, hdiff⟩
      obtain rfl : e = b.value := he.eq rfl
      exact ⟨hle, hlt, hlarge, x, y, hx, hy, hdiff⟩
    · rintro ⟨hle, hlt, hlarge, x, y, hx, hy, hdiff⟩
      refine ⟨b.value, ⟨b.ne, b.all, rfl⟩, hle, hlt, ?_, hlarge, x, y, hx, hy, hdiff⟩
      rw [RangeForm.assigned, if_pos ⟨hle, Nat.lt_of_le_of_lt hle hlt⟩, Nat.min_eq_left (by omega)]
      rfl
  | opened a =>
    rw [handle_opened, consistent_answer _ ⟨a.ne, a.all⟩, Served]
    refine or_congr_right ?_
    constructor
    · rintro ⟨e, he, hle, hlt, -, hlarge, x, y, hx, hy, hdiff⟩
      obtain rfl : e = f.length - 1 := he.eq (prints_last (by omega)).2.2
      cases hy
      have hvalue : x = (a.value : Int) := by
        unfold Number.value
        omega
      refine ⟨?_, ?_, hvalue ▸ hx⟩
      · unfold Number.value
        omega
      · unfold Number.value
        omega
    · rintro ⟨hlt, hlarge, hx⟩
      have hle : decimal a.text ≤ f.length - 1 := Nat.le_pred_of_lt hlt
      have hblock : f.length - a.value = f.length - 1 - decimal a.text + 1 := by
        unfold Number.value at hlt ⊢
        omega
      refine ⟨f.length - 1, prints_last (by omega), hle, by omega, if_pos hlt, hblock ▸ hlarge, _, _, hx, rfl, ?_⟩
      unfold Number.value at hlt ⊢
      omega
  | suffix n =>
    have hzero : decimal (ascii "0") = 0 := rfl
    rw [handle_suffix, consistent_answer _ ⟨by decide, by decide⟩, Served, hzero]
    refine iff_of_false ?_ not_false
    rintro (⟨hlt, -⟩ | ⟨e, he, -, hlt, hassigned, -⟩)
    · exact Nat.not_lt_zero _ hlt
    · rw [RangeForm.assigned, Option.ite_none_right_eq_some, Option.some.injEq, Prod.mk.injEq] at hassigned
      have hlast : e = n.value := he.eq rfl
      omega

/-- Between numbers without a zero in front, what counts is that the range lies in the file. -/
theorem served_closed_plain {dd : Dd} {wide : List Byte → Option Int} {length : Nat} {a b : Number}
    (hlength : length ≤ testMax)
    (ha : a.text.head? ≠ some 48 ∨ a.text.tail = []) (hb : b.text.head? ≠ some 48 ∨ b.text.tail = []) :
    Served dd wide length (.closed a b) ↔
      length < a.value ∧ a.value ≤ testMax ∨
        a.value ≤ b.value ∧ b.value < length ∧ b.value - a.value + 1 ≤ dd.largest := by
  refine or_congr_right (and_congr_right fun hle => and_congr_right fun hlt => and_iff_left ?_)
  have harith := arith_plain wide ha (Nat.le_trans hle (Nat.le_trans hlt.le hlength))
  exact ⟨_, _, harith, arith_plain wide hb (Nat.le_trans hlt.le hlength), rfl⟩

/-- A `dd` that reads what one call of the system can. -/
def wholeBlocks : Dd where
  largest := 2147479552
  write content skip size :=
    if 0 < size ∧ size ≤ 2147479552 then (content.drop (decimal skip)).take size.toNat else []
  whole content skip size _ _ hpos hle := by
    rw [if_pos ⟨by omega, by omega⟩, Int.toNat_natCast]
  short content skip size hlt := by
    rw [if_neg (by omega), List.length_nil]
    omega

/-- A file of three bytes, and the range from 0 to 5: the header and the length are those of six bytes. -/
theorem end_not_clamped :
    handleRangeResponse wholeBlocks (fun _ => none) (some ⟨[1, 2, 3], by decide⟩) (some (ascii "bytes=0-5")) =
        .part (ascii "0") (ascii "5") 3 6 [1, 2, 3] ∧
      ¬Consistent ⟨[1, 2, 3], by decide⟩
        (.closed ⟨ascii "0", by decide, by decide⟩ ⟨ascii "5", by decide, by decide⟩)
        (handleRangeResponse wholeBlocks (fun _ => none) (some ⟨[1, 2, 3], by decide⟩) (some (ascii "bytes=0-5"))) := by
  have hpart : handleRangeResponse wholeBlocks (fun _ => none) (some ⟨[1, 2, 3], by decide⟩)
      (some (ascii "bytes=0-5")) =
      .part (ascii "0") (ascii "5") 3 6 [1, 2, 3] := by
    rfl
  refine ⟨hpart, fun h => ?_⟩
  rw [hpart] at h
  obtain ⟨s, e, -, he, -, -, hlt, -⟩ := h
  have hfive : e = 5 := he.eq rfl
  rw [hfive] at hlt
  exact absurd hlt (by decide)

end Thingino.Web
