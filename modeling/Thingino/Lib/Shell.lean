import Mathlib.Data.List.DropRight
import Mathlib.Data.Nat.Digits.Lemmas
import Thingino.Lib.CString

/-! Texts as a shell takes them apart: lines, fields and what is left of a word behind a pattern. -/
namespace Thingino.Lib

namespace Shell

/-- The blanks of `IFS` that can stand on a line. -/
def isBlank (b : Byte) : Bool := b = 32 || b = 9

/-- A text without the blanks at its end. -/
def trimEnd (s : List Byte) : List Byte := s.rdropWhile isBlank

/-- `read -r line`: the first line without the blanks around it; it fails where no line ends. -/
def readLine (s : List Byte) : Option (List Byte) :=
  if s.contains 10 then some (trimEnd ((s.takeWhile (· ≠ 10)).dropWhile isBlank)) else none

/-- `read -r first rest`: the first field of the first line. -/
def readField (s : List Byte) : Option (List Byte) := (readLine s).map fun line => line.takeWhile (!isBlank ·)

/-- What `##*sep` leaves: the text behind the last `sep`. -/
def behindLast (sep : List Byte) : List Byte → Option (List Byte)
  | [] => none
  | b :: s =>
    match behindLast sep s with
    | some rest => some rest
    | none => if sep <+: b :: s then some ((b :: s).drop sep.length) else none

/-- `IFS` in full. -/
def isIfs (b : Byte) : Bool := isBlank b || b = 10

/-- The words of an unquoted expansion. -/
def words (s : List Byte) : List (List Byte) := (s.splitOnP isIfs).filter (· ≠ [])

def isGlob (b : Byte) : Bool := b = 42 || b = 63 || b = 91

/-- What the files in some directory make of a word: one without `*`, `?` and `[` stays what it is. -/
structure Glob where
  expand : List Byte → List (List Byte)
  plain : ∀ word : List Byte, word.all (!isGlob ·) = true → expand word = [word]

/-- `$(…)` drops the newlines at the end. -/
def output (s : List Byte) : List Byte := s.rdropWhile (· = 10)

/-- The options of `echo`. -/
def isEchoOption (s : List Byte) : Bool :=
  s.head? = some 45 && s.tail ≠ [] && s.tail.all fun b => b = 110 || b = 101 || b = 69

/-- `echo "$s"`. -/
def echo (s : List Byte) : List Byte :=
  if isEchoOption s then if 110 ∈ s then [] else [10] else s ++ [10]

/-- `$(echo "$s")`. -/
def echoed (s : List Byte) : List Byte := output (echo s)

/-- The value of a text of digits. -/
def decimal (s : List Byte) : Nat := s.foldl (fun n b => 10 * n + (b.toNat - 48)) 0

/-- A number as it is printed. -/
def digit (d : Nat) : Byte := BitVec.ofNat 8 (48 + d)

def digits (n : Nat) : List Byte := if n = 0 then [48] else (Nat.digits 10 n).reverse.map digit

/-- The largest number that `test` takes; with a larger one it fails. -/
def testMax : Nat := 9223372036854775807

/-- `[ n -lt m ]`, for a text of digits. -/
def testLt (s : List Byte) (m : Nat) : Bool := decimal s ≤ testMax && decimal s < m

/-- `[ n -ge m ]`, for a text of digits. -/
def testGe (s : List Byte) (m : Nat) : Bool := decimal s ≤ testMax && m ≤ decimal s

/-- `[ n -gt m ]`, for a text of digits. -/
def testGt (s : List Byte) (m : Nat) : Bool := decimal s ≤ testMax && m < decimal s

/-- The value of a text of octal digits. -/
def octal (s : List Byte) : Nat := s.foldl (fun n b => 8 * n + (b.toNat - 48)) 0

def isOctal (b : Byte) : Bool := 48 ≤ b.toNat && b.toNat ≤ 55

/-- What a text of digits is in `$((…))`: an octal number where it has a zero in front, which an 8 or a 9 makes an
error. What becomes of a number that is too large is up to the shell. -/
def arith (wide : List Byte → Option Int) (s : List Byte) : Option Int :=
  if s.head? = some 48 ∧ s.tail ≠ [] then
    if s.all isOctal then if octal s ≤ testMax then some (octal s) else wide s else none
  else if decimal s ≤ testMax then some (decimal s) else wide s

/-! ### Decimal numbers -/

theorem decimal_append (s s' : List Byte) :
    decimal (s ++ s') = s'.foldl (fun n b => 10 * n + (b.toNat - 48)) (decimal s) :=
  List.foldl_append

theorem decimal_concat (s : List Byte) (b : Byte) : decimal (s ++ [b]) = 10 * decimal s + (b.toNat - 48) :=
  decimal_append s [b]

/-- The beginning of a number is not greater. -/
theorem decimal_le_append (s s' : List Byte) : decimal s ≤ decimal (s ++ s') := by
  induction s' using List.reverseRecOn with
  | nil => rw [List.append_nil]
  | append_singleton s' b ih =>
    rw [← List.append_assoc, decimal_concat]
    omega

theorem decimal_take_le (s : List Byte) (k : Nat) : decimal (s.take k) ≤ decimal s := by
  have h := decimal_le_append (s.take k) (s.drop k)
  rwa [List.take_append_drop] at h

theorem toNat_digit {d : Nat} (h : d < 10) : (digit d).toNat = 48 + d := by
  rw [digit, BitVec.toNat_ofNat, Nat.mod_eq_of_lt (by omega)]

theorem decimal_map_digit (n : Nat) : decimal ((Nat.digits 10 n).reverse.map digit) = n := by
  induction n using Nat.strongRecOn with
  | _ n ih =>
    obtain rfl | hpos := Nat.eq_zero_or_pos n
    · rfl
    rw [Nat.digits_def' (by decide) hpos, List.reverse_cons, List.map_append, List.map_singleton, decimal_concat,
      ih _ (Nat.div_lt_self hpos (by decide)), toNat_digit (Nat.mod_lt n (by decide))]
    omega

/-- What is printed is read again. -/
theorem decimal_digits (n : Nat) : decimal (digits n) = n := by
  unfold digits
  split
  · rename_i h
    exact h ▸ rfl
  · exact decimal_map_digit n

theorem isDigit_of_mem_digits {n : Nat} {b : Byte} (h : b ∈ digits n) : isDigit b = true := by
  unfold digits at h
  split at h
  · rw [List.mem_singleton.mp h]
    rfl
  · obtain ⟨d, hd, rfl⟩ := List.mem_map.mp h
    have hlt : d < 10 := Nat.digits_lt_base (by decide) (List.mem_reverse.mp hd)
    rw [isDigit, toNat_digit hlt, Bool.and_eq_true]
    exact ⟨decide_eq_true (by omega), decide_eq_true (by omega)⟩

theorem digits_injective {m n : Nat} (h : digits m = digits n) : m = n := by
  rw [← decimal_digits m, h, decimal_digits]

theorem digits_ne_nil (n : Nat) : digits n ≠ [] := by
  unfold digits
  split
  · exact List.cons_ne_nil _ _
  · rename_i hn
    rw [ne_eq, List.map_eq_nil_iff, List.reverse_eq_nil_iff, Nat.digits_eq_nil_iff_eq_zero]
    exact hn

theorem notMem_digits {b : Byte} (hb : isDigit b = false) (n : Nat) : b ∉ digits n := fun h =>
  Bool.false_ne_true (hb.symm.trans (isDigit_of_mem_digits h))

theorem all_isDigit_digits (n : Nat) : (digits n).all isDigit = true :=
  List.all_eq_true.mpr fun _ hb => isDigit_of_mem_digits hb

/-- A number is printed without a zero in front. -/
theorem head?_digits_of_ne_zero {n : Nat} (h : n ≠ 0) : (digits n).head? ≠ some 48 := by
  have hdigits : Nat.digits 10 n ≠ [] := Nat.digits_ne_nil_iff_ne_zero.mpr h
  have hlast : (Nat.digits 10 n).getLast hdigits ≠ 0 := Nat.getLast_digit_ne_zero 10 h
  have hlt : (Nat.digits 10 n).getLast hdigits < 10 := Nat.digits_lt_base (by decide) (List.getLast_mem hdigits)
  rw [digits, if_neg h, List.head?_map, List.head?_reverse, List.getLast?_eq_getLast_of_ne_nil hdigits]
  intro heq
  have hzero := congrArg BitVec.toNat (Option.some.inj heq)
  rw [toNat_digit hlt] at hzero
  exact hlast (Nat.add_left_cancel hzero)

/-- A number without a zero in front is what it reads as. -/
theorem arith_plain {s : List Byte} (wide : List Byte → Option Int) (hzero : s.head? ≠ some 48 ∨ s.tail = [])
    (hle : decimal s ≤ testMax) : arith wide s = some (decimal s : Int) := by
  rw [arith, if_neg fun h => hzero.elim (fun hne => hne h.1) fun hnil => h.2 hnil, if_pos hle]

/-- A printed number is read as itself. -/
theorem arith_digits (wide : List Byte → Option Int) {n : Nat} (hle : n ≤ testMax) :
    arith wide (digits n) = some (n : Int) := by
  have hzero : (digits n).head? ≠ some 48 ∨ (digits n).tail = [] := by
    by_cases hn : n = 0
    · subst hn
      exact .inr rfl
    · exact .inl (head?_digits_of_ne_zero hn)
  rw [arith_plain wide hzero (by rw [decimal_digits]; exact hle), decimal_digits]

/-! ### What is printed -/

theorem output_eq_self {s : List Byte} (h : s.getLast? ≠ some 10) : output s = s := by
  refine List.rdropWhile_eq_self_iff.mpr fun hne hlast => h ?_
  rw [List.getLast?_eq_getLast_of_ne_nil hne, of_decide_eq_true hlast]

theorem echoed_of_option {s : List Byte} (h : isEchoOption s = true) : echoed s = [] := by
  rw [echoed, echo, if_pos h]
  split <;> rfl

theorem echoed_of_line {s : List Byte} (h : isEchoOption s = false) (hline : 10 ∉ s) : echoed s = s := by
  have hdrop : output (s ++ [10]) = output s := List.rdropWhile_concat_pos _ _ _ (decide_eq_true rfl)
  rw [echoed, echo, if_neg (Bool.eq_false_iff.mp h), hdrop]
  exact output_eq_self fun hlast => hline (List.mem_of_getLast? hlast)

/-- A text with any other byte is no option. -/
theorem isEchoOption_of_mem {s : List Byte} {b : Byte} (h : b ∈ s) (hminus : b ≠ 45)
    (hother : (b = 110 || b = 101 || b = 69) = false) : isEchoOption s = false := by
  refine Bool.eq_false_iff.mpr fun hoption => ?_
  rw [isEchoOption, Bool.and_eq_true, Bool.and_eq_true, decide_eq_true_eq] at hoption
  obtain ⟨rest, rfl⟩ := List.head?_eq_some_iff.mp hoption.1.1
  have hb := List.all_eq_true.mp hoption.2 b ((List.mem_cons.mp h).resolve_left hminus)
  rw [hother] at hb
  exact Bool.false_ne_true hb

/-! ### Blanks -/

/-- Nothing is dropped up to a byte that stays. -/
theorem rdropWhile_append {p : Byte → Bool} {a : List Byte} {b : Byte} (hb : p b = false) (s : List Byte) :
    (a ++ b :: s).rdropWhile p = a ++ b :: s.rdropWhile p := by
  induction s using List.reverseRecOn with
  | nil => exact List.rdropWhile_concat_neg _ _ _ (Bool.eq_false_iff.mp hb)
  | append_singleton s c ih =>
    have hassoc : a ++ b :: (s ++ [c]) = (a ++ b :: s) ++ [c] := by simp
    rw [hassoc]
    cases hc : p c with
    | true =>
      rw [List.rdropWhile_concat_pos _ _ _ hc, List.rdropWhile_concat_pos _ _ _ hc]
      exact ih
    | false =>
      rw [List.rdropWhile_concat_neg _ _ _ (by simp [hc]), List.rdropWhile_concat_neg _ _ _ (by simp [hc])]
      exact hassoc.symm

theorem trimEnd_append {a : List Byte} {b : Byte} (hb : isBlank b = false) (s : List Byte) :
    trimEnd (a ++ b :: s) = a ++ b :: trimEnd s := rdropWhile_append hb s

/-- The first line of a text, when it does not begin with a blank. -/
theorem readLine_cons {b : Byte} {line : List Byte} (hb : isBlank b = false) (hline : 10 ∉ b :: line)
    (rest : List Byte) : readLine (b :: line ++ 10 :: rest) = some (trimEnd (b :: line)) := by
  have hends : (b :: line ++ 10 :: rest).contains 10 = true :=
    List.contains_iff_mem.mpr (List.mem_append_right _ List.mem_cons_self)
  rw [readLine, if_pos hends, takeWhile_cut hline, List.dropWhile_cons_of_neg (by simp [hb])]

/-- What stands in front of a byte, and behind it. -/
theorem exists_eq_cut {c : Byte} {s : List Byte} (h : c ∈ s) : ∃ rest, s = s.takeWhile (· ≠ c) ++ c :: rest := by
  have hsplit : s.takeWhile (· ≠ c) ++ s.dropWhile (· ≠ c) = s := List.takeWhile_append_dropWhile
  have hhead := List.head?_dropWhile_not (· ≠ c) s
  cases hrest : s.dropWhile (· ≠ c) with
  | nil => exact absurd rfl (of_decide_eq_true (List.dropWhile_eq_nil_iff.mp hrest c h))
  | cons b rest =>
    rw [hrest] at hsplit hhead
    obtain rfl : b = c := by simpa using hhead
    exact ⟨rest, hsplit.symm⟩

/-! ### The last separator -/

section BehindLast
variable {c : Byte} {sep : List Byte}

theorem behindLast_of_notMem {s : List Byte} (h : c ∉ s) : behindLast (c :: sep) s = none := by
  induction s with
  | nil => rfl
  | cons b s ih =>
    rw [List.mem_cons, not_or] at h
    rw [behindLast, ih h.2]
    exact if_neg fun hp => h.1 (List.cons_prefix_cons.mp hp).1

/-- What stands before a separator does not matter. -/
theorem behindLast_append {s rest : List Byte} (h : behindLast sep s = some rest) (a : List Byte) :
    behindLast sep (a ++ s) = some rest := by
  induction a with
  | nil => exact h
  | cons b a ih => rw [List.cons_append, behindLast, ih]

theorem behindLast_append_of_notMem {a : List Byte} (h : c ∉ a) (s : List Byte) :
    behindLast (c :: sep) (a ++ s) = behindLast (c :: sep) s := by
  induction a with
  | nil => rfl
  | cons b a ih =>
    rw [List.mem_cons, not_or] at h
    rw [List.cons_append, behindLast, ih h.2]
    cases behindLast (c :: sep) s with
    | some rest => rfl
    | none => exact if_neg fun hp => h.1 (List.cons_prefix_cons.mp hp).1

theorem behindLast_self {t : List Byte} (hsep : c ∉ sep) (ht : c ∉ t) :
    behindLast (c :: sep) (c :: sep ++ t) = some t := by
  have hrest : behindLast (c :: sep) (sep ++ t) = none :=
    behindLast_of_notMem fun h => (List.mem_append.mp h).elim hsep ht
  rw [List.cons_append, behindLast, hrest]
  simp only
  rw [if_pos ⟨t, rfl⟩, ← List.cons_append, List.drop_left]

end BehindLast

end Shell

end Thingino.Lib
