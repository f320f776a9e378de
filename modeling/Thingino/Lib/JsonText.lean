import Thingino.Lib.CString

/-! JSON texts, byte by byte.

`Denotes` is the grammar of RFC 8259, with the value that each text stands for; it says nothing about the bytes above
0x7F. A scanner that only knows quotes and brackets comes back from each part of a text to where it was, and on the
way never below (`returns_of_denotes`); so a text that is cut in the middle is none. -/
namespace Thingino.Lib.JsonText

/-- A number is what it is written as. -/
inductive Value
  | null
  | bool (b : Bool)
  | number (literal : List Byte)
  | string (text : List Byte)
  | array (elements : List Value)
  | object (members : List (List Byte × Value))

/-- What stands between the brackets of an array or an object is a part of a text too. -/
inductive Part
  | value (v : Value)
  | elements (vs : List Value)
  | members (ms : List (List Byte × Value))

/-! ### Grammar -/

def isWs (b : Byte) : Bool := b = 32 || b = 9 || b = 10 || b = 13

/-- The bytes behind a backslash, and those they stand for. -/
def escapes : List (Byte × Byte) :=
  [(34, 34), (92, 92), (47, 47), (98, 8), (102, 12), (110, 10), (114, 13), (116, 9)]

def hexDigit (b : Byte) : Option Nat :=
  if isDigit b then some (b.toNat - 48)
  else if 65 ≤ b.toNat ∧ b.toNat ≤ 70 then some (b.toNat - 55)
  else if 97 ≤ b.toNat ∧ b.toNat ≤ 102 then some (b.toNat - 87)
  else none

/-- The value of four hexadecimal digits. -/
def hexValue : List Byte → Option Nat
  | [a, b, c, d] => do
    let a ← hexDigit a
    let b ← hexDigit b
    let c ← hexDigit c
    let d ← hexDigit d
    return 4096 * a + 256 * b + 16 * c + d
  | _ => none

/-- The bytes of a code point. -/
def encodePoint (n : Nat) : List Byte :=
  let tail (k : Nat) : Byte := BitVec.ofNat 8 (0x80 + k % 64)
  if n < 0x80 then [BitVec.ofNat 8 n]
  else if n < 0x800 then [BitVec.ofNat 8 (0xC0 + n / 64), tail n]
  else if n < 0x10000 then [BitVec.ofNat 8 (0xE0 + n / 4096), tail (n / 64), tail n]
  else [BitVec.ofNat 8 (0xF0 + n / 262144), tail (n / 4096), tail (n / 64), tail n]

/-- What is written between the quotes of a string, and the text that it stands for. -/
inductive Chars : List Byte → List Byte → Prop
  | nil : Chars [] []
  | byte {b : Byte} {s t : List Byte} (hlow : 0x20 ≤ b.toNat) (hquote : b ≠ 34) (hback : b ≠ 92) (hs : Chars s t) :
    Chars (b :: s) (b :: t)
  | escape {b c : Byte} {s t : List Byte} (hescape : (b, c) ∈ escapes) (hs : Chars s t) : Chars (92 :: b :: s) (c :: t)
  | point {hex s t : List Byte} {n : Nat} (hhex : hexValue hex = some n) (hplane : n < 0xD800 ∨ 0xDFFF < n)
    (hs : Chars s t) : Chars (92 :: 117 :: (hex ++ s)) (encodePoint n ++ t)
  | surrogates {high low s t : List Byte} {n m : Nat} (hhigh : hexValue high = some n) (hlow : hexValue low = some m)
    (hn : 0xD800 ≤ n ∧ n < 0xDC00) (hm : 0xDC00 ≤ m ∧ m < 0xE000) (hs : Chars s t) :
    Chars (92 :: 117 :: (high ++ 92 :: 117 :: (low ++ s)))
      (encodePoint (0x10000 + 1024 * (n - 0xD800) + (m - 0xDC00)) ++ t)

/-- Digits, and no zero in front of others. -/
def isInt (s : List Byte) : Bool := s ≠ [] && s.all isDigit && (s.head? ≠ some 48 || s.length = 1)

def isFraction (s : List Byte) : Bool := s = [] || s.head? = some 46 && s.tail ≠ [] && s.tail.all isDigit

def isExponent (s : List Byte) : Bool :=
  s = [] || (s.head? = some 69 || s.head? = some 101) &&
    (let digits := if s.tail.head? = some 43 ∨ s.tail.head? = some 45 then s.tail.tail else s.tail
    digits ≠ [] && digits.all isDigit)

inductive Denotes : Part → List Byte → Prop
  | null : Denotes (.value .null) (ascii "null")
  | true : Denotes (.value (.bool true)) (ascii "true")
  | false : Denotes (.value (.bool false)) (ascii "false")
  | number {sign int fraction exponent : List Byte} (hsign : sign = [] ∨ sign = [45]) (hint : isInt int = true)
    (hfraction : isFraction fraction = true) (hexponent : isExponent exponent = true) :
    Denotes (.value (.number (sign ++ int ++ fraction ++ exponent))) (sign ++ int ++ fraction ++ exponent)
  | string {s t : List Byte} (hs : Chars s t) : Denotes (.value (.string t)) (34 :: (s ++ [34]))
  | emptyArray {ws : List Byte} (hws : ws.all isWs = true) : Denotes (.value (.array [])) (91 :: (ws ++ [93]))
  | array {vs : List Value} {s : List Byte} (hs : Denotes (.elements vs) s) :
    Denotes (.value (.array vs)) (91 :: (s ++ [93]))
  | emptyObject {ws : List Byte} (hws : ws.all isWs = true) : Denotes (.value (.object [])) (123 :: (ws ++ [125]))
  | object {ms : List (List Byte × Value)} {s : List Byte} (hs : Denotes (.members ms) s) :
    Denotes (.value (.object ms)) (123 :: (s ++ [125]))
  | element {v : Value} {a s b : List Byte} (ha : a.all isWs = true) (hb : b.all isWs = true)
    (hs : Denotes (.value v) s) : Denotes (.elements [v]) (a ++ (s ++ b))
  | elements {v : Value} {vs : List Value} {a s b t : List Byte} (ha : a.all isWs = true) (hb : b.all isWs = true)
    (hs : Denotes (.value v) s) (ht : Denotes (.elements vs) t) :
    Denotes (.elements (v :: vs)) (a ++ (s ++ (b ++ ([44] ++ t))))
  | member {key : List Byte} {v : Value} {a k b c s d : List Byte} (ha : a.all isWs = true) (hb : b.all isWs = true)
    (hc : c.all isWs = true) (hd : d.all isWs = true) (hk : Chars k key) (hs : Denotes (.value v) s) :
    Denotes (.members [(key, v)]) (a ++ (34 :: (k ++ [34]) ++ (b ++ ([58] ++ (c ++ (s ++ d))))))
  | members {key : List Byte} {v : Value} {ms : List (List Byte × Value)} {a k b c s d t : List Byte}
    (ha : a.all isWs = true) (hb : b.all isWs = true) (hc : c.all isWs = true) (hd : d.all isWs = true)
    (hk : Chars k key) (hs : Denotes (.value v) s) (ht : Denotes (.members ms) t) :
    Denotes (.members ((key, v) :: ms)) (a ++ (34 :: (k ++ [34]) ++ (b ++ ([58] ++ (c ++ (s ++ (d ++ ([44] ++ t))))))))

/-- A whole text, with white space around its value. -/
def IsJson (s : List Byte) (v : Value) : Prop :=
  ∃ a t b, s = a ++ (t ++ b) ∧ a.all isWs = true ∧ b.all isWs = true ∧ Denotes (.value v) t

/-! ### Without white space -/

section Tight
variable {s t k key : List Byte} {v : Value} {vs : List Value} {ms : List (List Byte × Value)}

/-- Bytes that stand for themselves. -/
def isPlain (b : Byte) : Bool := 0x20 ≤ b.toNat && b ≠ 34 && b ≠ 92

theorem chars_plain (h : s.all isPlain = true) : Chars s s := by
  induction s with
  | nil => exact Chars.nil
  | cons b s ih =>
    simp only [List.all_cons, isPlain, Bool.and_eq_true, decide_eq_true_eq] at h
    exact Chars.byte h.1.1.1 h.1.1.2 h.1.2 (ih h.2)

/-- A text without a backslash stands for itself. -/
theorem chars_eq (h : Chars s t) (hback : 92 ∉ s) : t = s := by
  induction h with
  | nil => rfl
  | byte _ _ _ _ ih => rw [ih fun hmem => hback (List.mem_cons_of_mem _ hmem)]
  | escape => exact absurd List.mem_cons_self hback
  | point => exact absurd List.mem_cons_self hback
  | surrogates => exact absurd List.mem_cons_self hback

/-- The first quote that is written has a backslash in front of it. -/
theorem mem_of_chars {u : List Byte} (h : Chars (s ++ 34 :: u) t) : 92 ∈ s := by
  induction s generalizing t with
  | nil =>
    rw [List.nil_append] at h
    cases h with
    | byte _ hquote => exact absurd rfl hquote
  | cons b s ih =>
    by_cases hb : b = 92
    · exact hb ▸ List.mem_cons_self
    · generalize hr : b :: s ++ 34 :: u = r at h
      cases h with
      | byte _ _ _ hs =>
        obtain ⟨rfl, rfl⟩ := List.cons.inj hr
        exact List.mem_cons_of_mem _ (ih hs)
      | nil => exact absurd hr (List.cons_ne_nil _ _)
      | escape => exact absurd (List.cons.inj hr).1 hb
      | point => exact absurd (List.cons.inj hr).1 hb
      | surrogates => exact absurd (List.cons.inj hr).1 hb

/-- One way to write a byte. -/
def escapeByte (b : Byte) : List Byte :=
  if b = 34 ∨ b = 92 then [92, b]
  else if b.toNat < 32 then ascii "\\u00" ++ [BitVec.ofNat 8 (48 + b.toNat / 16),
    BitVec.ofNat 8 (if b.toNat % 16 < 10 then 48 + b.toNat % 16 else 87 + b.toNat % 16)]
  else [b]

theorem hexValue_control : ∀ b : Byte, b.toNat < 32 →
    hexValue ((escapeByte b).drop 2) = some b.toNat ∧ encodePoint b.toNat = [b] := by
  decide

/-- Every text can be written. -/
theorem chars_escaped (s : List Byte) : Chars (s.flatMap escapeByte) s := by
  induction s with
  | nil => exact Chars.nil
  | cons b s ih =>
    rw [List.flatMap_cons]
    by_cases hspecial : b = 34 ∨ b = 92
    · rw [escapeByte, if_pos hspecial]
      obtain rfl | rfl := hspecial
      · exact Chars.escape (by decide) ih
      · exact Chars.escape (by decide) ih
    · by_cases hcontrol : b.toNat < 32
      · obtain ⟨hhex, hpoint⟩ := hexValue_control b hcontrol
        rw [escapeByte, if_neg hspecial, if_pos hcontrol] at hhex ⊢
        have h := Chars.point hhex (.inl (by omega)) ih
        rwa [hpoint] at h
      · rw [escapeByte, if_neg hspecial, if_neg hcontrol]
        exact Chars.byte (Nat.not_lt.mp hcontrol) (fun h => hspecial (.inl h)) (fun h => hspecial (.inr h)) ih

theorem denotes_element (hs : Denotes (.value v) s) : Denotes (.elements [v]) s := by
  have h := @Denotes.element v [] s [] rfl rfl hs
  rwa [List.nil_append, List.append_nil] at h

theorem denotes_elements (hs : Denotes (.value v) s) (ht : Denotes (.elements vs) t) :
    Denotes (.elements (v :: vs)) (s ++ 44 :: t) := @Denotes.elements v vs [] s [] t rfl rfl hs ht

theorem denotes_member (hk : Chars k key) (hs : Denotes (.value v) s) :
    Denotes (.members [(key, v)]) (34 :: (k ++ [34]) ++ 58 :: s) := by
  have h := @Denotes.member key v [] k [] [] s [] rfl rfl rfl rfl hk hs
  rwa [List.append_nil] at h

theorem denotes_members (hk : Chars k key) (hs : Denotes (.value v) s) (ht : Denotes (.members ms) t) :
    Denotes (.members ((key, v) :: ms)) (34 :: (k ++ [34]) ++ 58 :: (s ++ 44 :: t)) :=
  @Denotes.members key v ms [] k [] [] s [] t rfl rfl rfl rfl hk hs ht

theorem isJson_of_denotes (h : Denotes (.value v) s) : IsJson s v := ⟨[], s, [], (List.append_nil s).symm, rfl, rfl, h⟩

end Tight

/-! ### Brackets -/

inductive Mode
  | outside
  | string
  | escaped
  deriving DecidableEq

/-- Where a scanner stands: how many brackets are open, and whether it is in a string. -/
structure Scan where
  depth : Nat
  mode : Mode
  deriving DecidableEq

def isOpening (b : Byte) : Bool := b = 91 || b = 123

def isClosing (b : Byte) : Bool := b = 93 || b = 125

def Scan.next (at_ : Scan) (b : Byte) : Scan :=
  match at_.mode with
  | .outside =>
    if b = 34 then ⟨at_.depth, .string⟩
    else if isOpening b then ⟨at_.depth + 1, .outside⟩
    else if isClosing b then ⟨at_.depth - 1, .outside⟩
    else at_
  | .string => if b = 34 then ⟨at_.depth, .outside⟩ else if b = 92 then ⟨at_.depth, .escaped⟩ else at_
  | .escaped => ⟨at_.depth, .string⟩

def scan (at_ : Scan) (s : List Byte) : Scan := s.foldl Scan.next at_

/-- The scanner comes back to where it was, and is never below. -/
def Returns (mode : Mode) (s : List Byte) : Prop :=
  ∀ d, scan ⟨d, mode⟩ s = ⟨d, mode⟩ ∧ ∀ t, t <+: s → d ≤ (scan ⟨d, mode⟩ t).depth

/-- Bytes without quotes and brackets. -/
def isFlat (b : Byte) : Bool := b ≠ 34 && !isOpening b && !isClosing b

section Brackets
variable {s t : List Byte} {a b : Byte} {mode mode' : Mode}

theorem scan_append (at_ : Scan) (s t : List Byte) : scan at_ (s ++ t) = scan (scan at_ s) t := List.foldl_append

theorem scan_cons (at_ : Scan) (b : Byte) (s : List Byte) : scan at_ (b :: s) = scan (at_.next b) s := rfl

/-- One byte closes one bracket at most. -/
theorem depth_next (at_ : Scan) (b : Byte) : at_.depth ≤ (at_.next b).depth + 1 := by
  unfold Scan.next
  split
  · split
    · exact Nat.le_succ _
    · split
      · exact Nat.le_succ_of_le (Nat.le_succ _)
      · split
        · show at_.depth ≤ at_.depth - 1 + 1
          omega
        · exact Nat.le_succ _
  · split
    · exact Nat.le_succ _
    · split
      · exact Nat.le_succ _
      · exact Nat.le_succ _
  · exact Nat.le_succ _

/-- A beginning of two texts is one of the first, or goes on in the second. -/
theorem prefix_append_cases {u : List Byte} (h : u <+: s ++ t) : u <+: s ∨ ∃ v, u = s ++ v ∧ v <+: t := by
  rcases Nat.le_total u.length s.length with hle | hle
  · exact Or.inl (List.prefix_of_prefix_length_le h (List.prefix_append s t) hle)
  · obtain ⟨v, rfl⟩ := List.prefix_of_prefix_length_le (List.prefix_append s t) h hle
    exact Or.inr ⟨v, rfl, (List.prefix_append_right_inj s).mp h⟩

theorem returns_append (hs : Returns mode s) (ht : Returns mode t) : Returns mode (s ++ t) := by
  intro d
  refine ⟨by rw [scan_append, (hs d).1, (ht d).1], fun u hu => ?_⟩
  rcases prefix_append_cases hu with hu | ⟨v, rfl, hv⟩
  · exact (hs d).2 u hu
  · rw [scan_append, (hs d).1]
    exact (ht d).2 v hv

/-- Bytes that the scanner passes over. -/
theorem returns_all (h : ∀ b ∈ s, ∀ d, Scan.next ⟨d, mode⟩ b = ⟨d, mode⟩) : Returns mode s := by
  have hall : ∀ t : List Byte, (∀ b ∈ t, ∀ d, Scan.next ⟨d, mode⟩ b = ⟨d, mode⟩) → ∀ d, scan ⟨d, mode⟩ t = ⟨d, mode⟩ := by
    intro t ht d
    induction t with
    | nil => rfl
    | cons b t ih =>
      obtain ⟨hb, ht⟩ := List.forall_mem_cons.mp ht
      rw [scan_cons, hb]
      exact ih ht
  exact fun d => ⟨hall s h d, fun t ht => by rw [hall t fun b hb => h b (ht.mem hb)]⟩

theorem returns_nil : Returns mode [] := returns_all fun _ hb => absurd hb List.not_mem_nil

/-- A byte that leads into another mode, what is passed over there, and a byte that leads back. -/
theorem returns_wrap (k : Nat) (ha : ∀ d, Scan.next ⟨d, mode⟩ a = ⟨d + k, mode'⟩)
    (hb : ∀ d, Scan.next ⟨d + k, mode'⟩ b = ⟨d, mode⟩) (hs : Returns mode' s) : Returns mode (a :: (s ++ [b])) := by
  intro d
  have hwhole : scan ⟨d, mode⟩ (a :: (s ++ [b])) = ⟨d, mode⟩ := by
    rw [scan_cons, ha, scan_append, (hs (d + k)).1, scan_cons, hb]
    rfl
  refine ⟨hwhole, fun u hu => ?_⟩
  cases u with
  | nil => exact Nat.le_refl d
  | cons c u =>
    obtain ⟨rfl, hmore⟩ := List.cons_prefix_cons.mp hu
    rw [scan_cons, ha]
    rcases prefix_append_cases hmore with hu | ⟨v, rfl, hv⟩
    · exact Nat.le_trans (Nat.le_add_right d k) ((hs (d + k)).2 u hu)
    · rw [scan_append, (hs (d + k)).1]
      cases v with
      | nil => exact Nat.le_add_right d k
      | cons c v =>
        obtain ⟨rfl, hnil⟩ := List.cons_prefix_cons.mp hv
        rw [List.prefix_nil.mp hnil, scan_cons, hb]
        exact Nat.le_refl d

theorem returns_flat (h : s.all isFlat = true) : Returns .outside s := by
  refine returns_all fun b hb d => ?_
  have hflat := List.all_eq_true.mp h b hb
  simp only [isFlat, Bool.and_eq_true, decide_eq_true_eq, Bool.not_eq_true'] at hflat
  simp only [Scan.next, if_neg hflat.1.1, hflat.1.2, hflat.2, Bool.false_eq_true, if_false]

theorem returns_ws (h : s.all isWs = true) : Returns .outside s := by
  refine returns_flat (List.all_eq_true.mpr fun b hb => ?_)
  have hws := List.all_eq_true.mp h b hb
  simp only [isWs, Bool.or_eq_true, decide_eq_true_eq] at hws
  rcases hws with ((rfl | rfl) | rfl) | rfl <;> rfl

/-! ### Each part of a text -/

theorem isFlat_digit (h : isDigit b = true) : isFlat b = true := by
  have hrange : ∀ b : Byte, isDigit b = true → isFlat b = true := by decide +kernel
  exact hrange b h

/-- Hexadecimal digits are neither quotes nor backslashes. -/
theorem hexDigit_plain {n : Nat} (h : hexDigit b = some n) : b ≠ 34 ∧ b ≠ 92 := by
  have hall : ∀ b : Byte, (hexDigit b).isSome = true → b ≠ 34 ∧ b ≠ 92 := by decide +kernel
  exact hall b (h ▸ rfl)

theorem returns_hex {n : Nat} (h : hexValue s = some n) : Returns .string s := by
  unfold hexValue at h
  split at h
  · rename_i a b c d
    simp only [Option.bind_eq_bind, Option.bind_eq_some_iff] at h
    obtain ⟨i, ha, j, hb, k, hc, l, hd, -⟩ := h
    have hplain : ∀ x ∈ [a, b, c, d], x ≠ 34 ∧ x ≠ 92 := by
      intro x hx
      simp only [List.mem_cons, List.not_mem_nil, or_false] at hx
      rcases hx with rfl | rfl | rfl | rfl
      · exact hexDigit_plain ha
      · exact hexDigit_plain hb
      · exact hexDigit_plain hc
      · exact hexDigit_plain hd
    refine returns_all fun x hx depth => ?_
    simp only [Scan.next, if_neg (hplain x hx).1, if_neg (hplain x hx).2]
  · cases h

/-- A backslash and the byte behind it. -/
theorem returns_escape (b : Byte) : Returns .string [92, b] :=
  returns_wrap 0 (fun _ => rfl) (fun _ => rfl) (@returns_nil .escaped)

/-- A string is left where it is closed, and nowhere before. -/
theorem returns_chars (h : Chars s t) : Returns .string s := by
  induction h with
  | nil => exact returns_nil
  | @byte b s t hlow hquote hback hs ih =>
    have hb : Returns .string [b] := by
      refine returns_all fun x hx d => ?_
      rw [List.mem_singleton.mp hx]
      simp only [Scan.next, if_neg hquote, if_neg hback]
    exact returns_append hb ih
  | @escape b c s t hescape hs ih => exact returns_append (returns_escape b) ih
  | point hhex hplane hs ih => exact returns_append (returns_escape 117) (returns_append (returns_hex hhex) ih)
  | surrogates hhigh hlow hn hm hs ih =>
    have hsecond := returns_append (returns_escape 117) (returns_append (returns_hex hlow) ih)
    exact returns_append (returns_escape 117) (returns_append (returns_hex hhigh) hsecond)

theorem returns_string (h : Chars s t) : Returns .outside (34 :: (s ++ [34])) :=
  returns_wrap 0 (fun _ => rfl) (fun _ => rfl) (returns_chars h)

theorem all_flat_digits (h : s.all isDigit = true) : s.all isFlat = true :=
  List.all_eq_true.mpr fun b hb => isFlat_digit (List.all_eq_true.mp h b hb)

theorem isFlat_int (h : isInt s = true) : s.all isFlat = true := by
  simp only [isInt, Bool.and_eq_true] at h
  exact all_flat_digits h.1.2

theorem isFlat_fraction (h : isFraction s = true) : s.all isFlat = true := by
  cases s with
  | nil => rfl
  | cons b s =>
    simp only [isFraction, List.cons_ne_nil, decide_false, Bool.false_or, Bool.and_eq_true, decide_eq_true_eq,
      List.head?_cons, Option.some.injEq, List.tail_cons] at h
    rw [List.all_cons, h.1.1, all_flat_digits h.2]
    rfl

theorem isFlat_exponent (h : isExponent s = true) : s.all isFlat = true := by
  cases s with
  | nil => rfl
  | cons b s =>
    simp only [isExponent, List.cons_ne_nil, decide_false, Bool.false_or, Bool.and_eq_true, Bool.or_eq_true,
      decide_eq_true_eq, List.head?_cons, Option.some.injEq, List.tail_cons] at h
    obtain ⟨hletter, -, hdigits⟩ := h
    have hb : isFlat b = true := by rcases hletter with rfl | rfl <;> rfl
    rw [List.all_cons, hb, Bool.true_and]
    cases s with
    | nil => rfl
    | cons c s =>
      simp only [List.head?_cons, Option.some.injEq, List.tail_cons] at hdigits
      split at hdigits
      · rename_i hsign
        have hc : isFlat c = true := by rcases hsign with rfl | rfl <;> rfl
        rw [List.all_cons, hc, all_flat_digits hdigits]
        rfl
      · exact all_flat_digits hdigits

/-- **Brackets**: whatever part of a text it reads, the scanner comes back. -/
theorem returns_of_denotes {p : Part} (h : Denotes p s) : Returns .outside s := by
  induction h with
  | null => exact returns_flat rfl
  | true => exact returns_flat rfl
  | false => exact returns_flat rfl
  | @number sign int fraction exponent hsign hint hfraction hexponent =>
    refine returns_flat ?_
    have hflat : sign.all isFlat = true := by rcases hsign with rfl | rfl <;> rfl
    rw [List.all_append, List.all_append, List.all_append, hflat, isFlat_int hint, isFlat_fraction hfraction,
      isFlat_exponent hexponent]
    rfl
  | string hs => exact returns_string hs
  | emptyArray hws => exact returns_wrap 1 (fun _ => rfl) (fun _ => rfl) (returns_ws hws)
  | array hs ih => exact returns_wrap 1 (fun _ => rfl) (fun _ => rfl) ih
  | emptyObject hws => exact returns_wrap 1 (fun _ => rfl) (fun _ => rfl) (returns_ws hws)
  | object hs ih => exact returns_wrap 1 (fun _ => rfl) (fun _ => rfl) ih
  | element ha hb hs ih => exact returns_append (returns_ws ha) (returns_append ih (returns_ws hb))
  | elements ha hb hs ht ihs iht =>
    have hcomma : Returns .outside [44] := returns_flat rfl
    have hrest := returns_append (returns_ws hb) (returns_append hcomma iht)
    exact returns_append (returns_ws ha) (returns_append ihs hrest)
  | member ha hb hc hd hk hs ih =>
    have hcolon : Returns .outside [58] := returns_flat rfl
    have hvalue := returns_append (returns_ws hc) (returns_append ih (returns_ws hd))
    have hrest := returns_append (returns_ws hb) (returns_append hcolon hvalue)
    exact returns_append (returns_ws ha) (returns_append (returns_string hk) hrest)
  | members ha hb hc hd hk hs ht ihs iht =>
    have hcolon : Returns .outside [58] := returns_flat rfl
    have hcomma : Returns .outside [44] := returns_flat rfl
    have hmore := returns_append (returns_ws hd) (returns_append hcomma iht)
    have hvalue := returns_append (returns_ws hc) (returns_append ihs hmore)
    have hrest := returns_append (returns_ws hb) (returns_append hcolon hvalue)
    exact returns_append (returns_ws ha) (returns_append (returns_string hk) hrest)

/-- A whole text leaves no bracket open. -/
theorem returns_of_isJson {v : Value} (h : IsJson s v) : Returns .outside s := by
  obtain ⟨a, t, b, rfl, ha, hb, ht⟩ := h
  exact returns_append (returns_ws ha) (returns_append (returns_of_denotes ht) (returns_ws hb))

end Brackets

/-! ### Bytes -/

section Printed
variable {s t : List Byte} {b : Byte}

/-- What a number is written with. -/
def isNumeric (b : Byte) : Bool := isDigit b || b = 43 || b = 45 || b = 46 || b = 69 || b = 101

theorem isNumeric_digits (h : s.all isDigit = true) : s.all isNumeric = true :=
  List.all_eq_true.mpr fun b hb => by simp only [isNumeric, List.all_eq_true.mp h b hb, Bool.true_or]

theorem isNumeric_fraction (h : isFraction s = true) : s.all isNumeric = true := by
  cases s with
  | nil => rfl
  | cons b s =>
    simp only [isFraction, List.cons_ne_nil, decide_false, Bool.false_or, Bool.and_eq_true, decide_eq_true_eq,
      List.head?_cons, Option.some.injEq, List.tail_cons] at h
    rw [List.all_cons, h.1.1, isNumeric_digits h.2]
    rfl

theorem isNumeric_exponent (h : isExponent s = true) : s.all isNumeric = true := by
  cases s with
  | nil => rfl
  | cons b s =>
    simp only [isExponent, List.cons_ne_nil, decide_false, Bool.false_or, Bool.and_eq_true, Bool.or_eq_true,
      decide_eq_true_eq, List.head?_cons, Option.some.injEq, List.tail_cons] at h
    obtain ⟨hletter, -, hdigits⟩ := h
    have hb : isNumeric b = true := by rcases hletter with rfl | rfl <;> rfl
    rw [List.all_cons, hb, Bool.true_and]
    cases s with
    | nil => rfl
    | cons c s =>
      simp only [List.head?_cons, Option.some.injEq, List.tail_cons] at hdigits
      split at hdigits
      · rename_i hsign
        have hc : isNumeric c = true := by rcases hsign with rfl | rfl <;> rfl
        rw [List.all_cons, hc, isNumeric_digits hdigits]
        rfl
      · exact isNumeric_digits hdigits

/-- Of the control characters a text has white space only. -/
def isPrinted (b : Byte) : Bool := 0x20 ≤ b.toNat || isWs b

theorem isPrinted_ws (h : s.all isWs = true) : s.all isPrinted = true :=
  List.all_eq_true.mpr fun b hb => by rw [isPrinted, List.all_eq_true.mp h b hb, Bool.or_true]

theorem isPrinted_numeric (h : s.all isNumeric = true) : s.all isPrinted = true := by
  have hall : ∀ b, isNumeric b = true → isPrinted b = true := by decide
  exact List.all_eq_true.mpr fun b hb => hall b (List.all_eq_true.mp h b hb)

theorem isPrinted_hexDigit {n : Nat} (h : hexDigit b = some n) : isPrinted b = true := by
  have hlow : 0x20 ≤ b.toNat := by
    unfold hexDigit isDigit at h
    simp only [Bool.and_eq_true, decide_eq_true_eq] at h
    split_ifs at h <;> omega
  rw [isPrinted, decide_eq_true hlow, Bool.true_or]

theorem isPrinted_hexValue {n : Nat} (h : hexValue s = some n) : s.all isPrinted = true := by
  unfold hexValue at h
  split at h
  · simp only [Option.bind_eq_bind, Option.bind_eq_some_iff] at h
    obtain ⟨a, ha, b, hb, c, hc, d, hd, -⟩ := h
    simp only [List.all_cons, isPrinted_hexDigit ha, isPrinted_hexDigit hb, isPrinted_hexDigit hc, isPrinted_hexDigit hd,
      List.all_nil, Bool.and_self]
  · cases h

theorem isPrinted_chars (h : Chars s t) : s.all isPrinted = true := by
  induction h with
  | nil => rfl
  | byte hlow _ _ _ ih => rw [List.all_cons, isPrinted, decide_eq_true hlow, Bool.true_or, ih, Bool.and_self]
  | @escape b c _ _ hescape _ ih =>
    have hall : escapes.all (fun x => isPrinted x.1) = true := by decide
    rw [List.all_cons, List.all_cons, List.all_eq_true.mp hall _ hescape, ih]
    rfl
  | point hhex _ _ ih =>
    rw [List.all_cons, List.all_cons, List.all_append, isPrinted_hexValue hhex, ih]
    rfl
  | surrogates hhigh hlow _ _ _ ih =>
    rw [List.all_cons, List.all_cons, List.all_append, List.all_cons, List.all_cons, List.all_append,
      isPrinted_hexValue hhigh, isPrinted_hexValue hlow, ih]
    rfl

theorem isPrinted_string (h : Chars s t) : (34 :: (s ++ [34])).all isPrinted = true := by
  rw [List.all_cons, List.all_append, isPrinted_chars h]
  rfl

theorem isPrinted_append (hs : s.all isPrinted = true) (ht : t.all isPrinted = true) : (s ++ t).all isPrinted = true := by
  rw [List.all_append, hs, ht, Bool.and_self]

theorem isPrinted_of_denotes {p : Part} (h : Denotes p s) : s.all isPrinted = true := by
  induction h with
  | null => decide
  | true => decide
  | false => decide
  | @number sign int fraction exponent hsign hint hfraction hexponent =>
    simp only [isInt, Bool.and_eq_true] at hint
    have hnumeric : sign.all isNumeric = true := by rcases hsign with rfl | rfl <;> rfl
    refine isPrinted_numeric ?_
    rw [List.all_append, List.all_append, List.all_append, hnumeric, isNumeric_digits hint.1.2,
      isNumeric_fraction hfraction, isNumeric_exponent hexponent]
    rfl
  | string hs => exact isPrinted_string hs
  | emptyArray hws => exact isPrinted_append (s := [91]) rfl (isPrinted_append (isPrinted_ws hws) rfl)
  | array hs ih => exact isPrinted_append (s := [91]) rfl (isPrinted_append ih rfl)
  | emptyObject hws => exact isPrinted_append (s := [123]) rfl (isPrinted_append (isPrinted_ws hws) rfl)
  | object hs ih => exact isPrinted_append (s := [123]) rfl (isPrinted_append ih rfl)
  | element ha hb hs ih => exact isPrinted_append (isPrinted_ws ha) (isPrinted_append ih (isPrinted_ws hb))
  | elements ha hb hs ht ihs iht =>
    have hrest := isPrinted_append (isPrinted_ws hb) (isPrinted_append (s := [44]) rfl iht)
    exact isPrinted_append (isPrinted_ws ha) (isPrinted_append ihs hrest)
  | member ha hb hc hd hk hs ih =>
    have hvalue := isPrinted_append (isPrinted_ws hc) (isPrinted_append ih (isPrinted_ws hd))
    have hrest := isPrinted_append (isPrinted_ws hb) (isPrinted_append (s := [58]) rfl hvalue)
    exact isPrinted_append (isPrinted_ws ha) (isPrinted_append (isPrinted_string hk) hrest)
  | members ha hb hc hd hk hs ht ihs iht =>
    have hmore := isPrinted_append (isPrinted_ws hd) (isPrinted_append (s := [44]) rfl iht)
    have hvalue := isPrinted_append (isPrinted_ws hc) (isPrinted_append ihs hmore)
    have hrest := isPrinted_append (isPrinted_ws hb) (isPrinted_append (s := [58]) rfl hvalue)
    exact isPrinted_append (isPrinted_ws ha) (isPrinted_append (isPrinted_string hk) hrest)

theorem isPrinted_of_isJson {v : Value} (h : IsJson s v) : s.all isPrinted = true := by
  obtain ⟨a, t, b, rfl, ha, hb, ht⟩ := h
  exact isPrinted_append (isPrinted_ws ha) (isPrinted_append (isPrinted_of_denotes ht) (isPrinted_ws hb))

/-- Where digits and signs are all that is left of a text without its line ends, it is a number. -/
theorem number_of_isJson {v : Value} (h : IsJson s v) (hdigits : ∀ b ∈ s, isWs b = false → isDigit b = true ∨ b = 45) :
    ∃ a t b sign int, s = a ++ (t ++ b) ∧ a.all isWs = true ∧ b.all isWs = true ∧ t = sign ++ int ∧
      (sign = [] ∨ sign = [45]) ∧ isInt int = true := by
  obtain ⟨a, t, b, rfl, ha, hb, ht⟩ := h
  have hmem : ∀ x ∈ t, isWs x = false → isDigit x = true ∨ x = 45 := fun x hx =>
    hdigits x (List.mem_append_right a (List.mem_append_left b hx))
  generalize hp : Part.value v = p at ht
  cases ht with
  | null => exact absurd (hmem 110 (by decide) rfl) (by decide)
  | true => exact absurd (hmem 116 (by decide) rfl) (by decide)
  | false => exact absurd (hmem 102 (by decide) rfl) (by decide)
  | @number sign int fraction exponent hsign hint hfraction hexponent =>
    refine ⟨a, _, b, sign, int, rfl, ha, hb, ?_, hsign, hint⟩
    have hnone : fraction = [] := by
      cases fraction with
      | nil => rfl
      | cons x rest =>
        simp only [isFraction, List.cons_ne_nil, decide_false, Bool.false_or, Bool.and_eq_true, decide_eq_true_eq,
          List.head?_cons, Option.some.injEq] at hfraction
        obtain rfl := hfraction.1.1
        exact absurd (hmem 46 (by simp) rfl) (by decide)
    have hnothing : exponent = [] := by
      cases exponent with
      | nil => rfl
      | cons x rest =>
        simp only [isExponent, List.cons_ne_nil, decide_false, Bool.false_or, Bool.and_eq_true, Bool.or_eq_true,
          decide_eq_true_eq, List.head?_cons, Option.some.injEq] at hexponent
        obtain rfl | rfl := hexponent.1
        · exact absurd (hmem 69 (by simp) rfl) (by decide)
        · exact absurd (hmem 101 (by simp) rfl) (by decide)
    rw [hnone, hnothing, List.append_nil, List.append_nil]
  | string => exact absurd (hmem 34 List.mem_cons_self rfl) (by decide)
  | emptyArray => exact absurd (hmem 91 List.mem_cons_self rfl) (by decide)
  | array => exact absurd (hmem 91 List.mem_cons_self rfl) (by decide)
  | emptyObject => exact absurd (hmem 123 List.mem_cons_self rfl) (by decide)
  | object => exact absurd (hmem 123 List.mem_cons_self rfl) (by decide)
  | element | elements | member | members => cases hp

end Printed

end Thingino.Lib.JsonText
