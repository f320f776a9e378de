import Mathlib.Data.List.Infix
import Thingino.Lib.Bytes

/-! UTF-8.

A `Utf8Char` holds the bytes of one character, a text is a list of them. The first byte of a character says how
many bytes follow it, and only these are between 0x80 and 0xBF; so a text is taken apart in one way, and a byte says
whether a character begins there (`boundary`). -/
namespace Thingino.Lib

/-- A byte that stands behind the first one of a character. -/
def isTail (b : Byte) : Bool := 0x80 ≤ b.toNat && b.toNat ≤ 0xBF

/-- The bytes of one character: no other is written longer than it has to be, and there are no surrogates. -/
def isUtf8Char : List Byte → Bool
  | [a] => a.toNat < 0x80
  | [a, b] => 0xC2 ≤ a.toNat && a.toNat ≤ 0xDF && isTail b
  | [a, b, c] =>
    0xE0 ≤ a.toNat && a.toNat ≤ 0xEF && isTail b && isTail c && !(a = 0xE0 && b.toNat < 0xA0) &&
      !(a = 0xED && 0x9F < b.toNat)
  | [a, b, c, d] =>
    0xF0 ≤ a.toNat && a.toNat ≤ 0xF4 && isTail b && isTail c && isTail d && !(a = 0xF0 && b.toNat < 0x90) &&
      !(a = 0xF4 && 0x8F < b.toNat)
  | _ => false

structure Utf8Char where
  bytes : List Byte
  wellFormed : isUtf8Char bytes = true

def utf8 (chars : List Utf8Char) : List Byte := chars.flatMap Utf8Char.bytes

def IsUtf8 (s : List Byte) : Prop := ∃ chars, s = utf8 chars

def isAscii (b : Byte) : Bool := b.toNat < 0x80

/-- How many bytes stand behind the first one of a character. -/
def tailLength (a : Byte) : Nat := if a.toNat < 0x80 then 0 else if a.toNat < 0xE0 then 1 else if a.toNat < 0xF0 then 2 else 3

section Chars
variable {c d : Utf8Char} {chars : List Utf8Char} {a b : Byte} {s t rest : List Byte}

/-- The shape of a character. -/
theorem Utf8Char.shape (c : Utf8Char) :
    ∃ a s, c.bytes = a :: s ∧ isTail a = false ∧ s.all isTail = true ∧ s.length = tailLength a := by
  obtain ⟨bytes, hc⟩ := c
  have htail : ∀ a : Byte, 0xC2 ≤ a.toNat → isTail a = false := by
    intro a ha
    rw [isTail, Bool.and_eq_false_iff, decide_eq_false_iff_not, decide_eq_false_iff_not]
    omega
  unfold isUtf8Char at hc
  split at hc
  · rename_i a
    rw [decide_eq_true_eq] at hc
    refine ⟨a, [], rfl, ?_, rfl, (if_pos hc).symm⟩
    rw [isTail, Bool.and_eq_false_iff, decide_eq_false_iff_not]
    omega
  · rename_i a b
    simp only [Bool.and_eq_true, decide_eq_true_eq] at hc
    refine ⟨a, [b], rfl, htail a (by omega), by simp [hc.2], ?_⟩
    rw [tailLength, if_neg (by omega), if_pos (by omega)]
    rfl
  · rename_i a b c
    simp only [Bool.and_eq_true, decide_eq_true_eq] at hc
    refine ⟨a, [b, c], rfl, htail a (by omega), by simp [hc], ?_⟩
    rw [tailLength, if_neg (by omega), if_neg (by omega), if_pos (by omega)]
    rfl
  · rename_i a b c d
    simp only [Bool.and_eq_true, decide_eq_true_eq] at hc
    refine ⟨a, [b, c, d], rfl, htail a (by omega), by simp [hc], ?_⟩
    rw [tailLength, if_neg (by omega), if_neg (by omega), if_neg (by omega)]
    rfl
  · cases hc

theorem utf8_cons (c : Utf8Char) (chars : List Utf8Char) : utf8 (c :: chars) = c.bytes ++ utf8 chars := rfl

theorem isUtf8_append (hs : IsUtf8 s) (ht : IsUtf8 t) : IsUtf8 (s ++ t) := by
  obtain ⟨cs, rfl⟩ := hs
  obtain ⟨ds, rfl⟩ := ht
  exact ⟨cs ++ ds, List.flatMap_append.symm⟩

theorem isUtf8_ascii (h : s.all isAscii = true) : IsUtf8 s := by
  induction s with
  | nil => exact ⟨[], rfl⟩
  | cons b s ih =>
    rw [List.all_cons, Bool.and_eq_true] at h
    have hone : IsUtf8 [b] := ⟨[⟨[b], h.1⟩], rfl⟩
    exact isUtf8_append hone (ih h.2)

/-- A character is one byte of ASCII, or none of its bytes is. -/
theorem Utf8Char.ascii_or (c : Utf8Char) :
    (∃ a, c.bytes = [a] ∧ isAscii a = true) ∨ ∀ b ∈ c.bytes, 0x80 ≤ b.toNat := by
  obtain ⟨a, s, hc, -, htails, hlen⟩ := c.shape
  by_cases ha : a.toNat < 0x80
  · left
    rw [tailLength, if_pos ha, List.length_eq_zero_iff] at hlen
    exact ⟨a, by rw [hc, hlen], decide_eq_true ha⟩
  · right
    intro b hb
    rw [hc] at hb
    rcases List.mem_cons.mp hb with rfl | hb
    · omega
    · have htail := List.all_eq_true.mp htails b hb
      rw [isTail, Bool.and_eq_true, decide_eq_true_eq, decide_eq_true_eq] at htail
      exact htail.1

/-- Two characters at the beginning of the same bytes are the same. -/
theorem Utf8Char.append_inj (h : c.bytes ++ s = d.bytes ++ t) : c.bytes = d.bytes ∧ s = t := by
  obtain ⟨a, u, hc, -, -, hlen⟩ := c.shape
  obtain ⟨a', u', hd, -, -, hlen'⟩ := d.shape
  have hfirst := h
  rw [hc, hd] at hfirst
  have hlead : a = a' := (List.cons.inj hfirst).1
  exact List.append_inj h (by rw [hc, hd, List.length_cons, List.length_cons, hlen, hlen', hlead])

/-- What stands behind some characters of a text is a text. -/
theorem isUtf8_of_append (h : IsUtf8 (utf8 chars ++ s)) : IsUtf8 s := by
  obtain ⟨ds, hds⟩ := h
  induction chars generalizing ds with
  | nil => exact ⟨ds, hds⟩
  | cons c chars ih =>
    obtain ⟨a, u, hc, -⟩ := c.shape
    cases ds with
    | nil =>
      rw [utf8_cons, hc] at hds
      cases hds
    | cons d ds =>
      rw [utf8_cons, utf8_cons, List.append_assoc] at hds
      exact ih ds (Utf8Char.append_inj hds).2

/-- A text that is cut where no tail begins is cut between two characters. -/
theorem boundary (h : utf8 chars = s ++ rest) (hrest : rest.head?.any isTail = false) :
    ∃ kept left, chars = kept ++ left ∧ s = utf8 kept ∧ rest = utf8 left := by
  induction chars generalizing s with
  | nil =>
    have hnil := List.append_eq_nil_iff.mp h.symm
    exact ⟨[], [], rfl, hnil.1, hnil.2⟩
  | cons c chars ih =>
    rw [utf8_cons] at h
    rcases List.append_eq_append_iff.mp h with ⟨more, hs, hmore⟩ | ⟨part, hc, hrest'⟩
    · obtain ⟨kept, left, rfl, rfl, rfl⟩ := ih hmore
      exact ⟨c :: kept, left, rfl, hs, rfl⟩
    · obtain ⟨a, u, hshape, -, htails, -⟩ := c.shape
      cases s with
      | nil => exact ⟨[], c :: chars, rfl, rfl, by rw [utf8_cons, hc, hrest']; rfl⟩
      | cons b s =>
        cases part with
        | nil =>
          rw [List.append_nil] at hc
          refine ⟨[c], chars, rfl, ?_, by rw [hrest']; rfl⟩
          rw [← hc]
          exact (List.append_nil c.bytes).symm
        | cons e part =>
          exfalso
          rw [hshape] at hc
          have he : e ∈ u := by
            rw [(List.cons.inj hc).2]
            exact List.mem_append_right _ List.mem_cons_self
          have htail := List.all_eq_true.mp htails e he
          rw [hrest', List.cons_append, List.head?_cons, Option.any_some, htail] at hrest
          exact Bool.false_ne_true hrest.symm

/-- A byte of ASCII stands between two texts. -/
theorem isUtf8_cons_iff (hb : isAscii b = true) : IsUtf8 (s ++ b :: t) ↔ IsUtf8 s ∧ IsUtf8 t := by
  have hone : IsUtf8 [b] := ⟨[⟨[b], hb⟩], rfl⟩
  have hnotTail : isTail b = false := by
    rw [isAscii, decide_eq_true_eq] at hb
    rw [isTail, Bool.and_eq_false_iff, decide_eq_false_iff_not]
    omega
  constructor
  · intro h
    obtain ⟨chars, hchars⟩ := h
    obtain ⟨kept, left, -, hkept, hleft⟩ := boundary hchars.symm hnotTail
    obtain ⟨one, hbyte⟩ := hone
    have hrest : IsUtf8 (utf8 one ++ t) := ⟨left, by rw [← hbyte, ← hleft]; rfl⟩
    exact ⟨⟨kept, hkept⟩, isUtf8_of_append hrest⟩
  · intro h
    exact isUtf8_append h.1 (isUtf8_append hone h.2)

theorem isUtf8_around_iff {block : List Byte} (hblock : block.all isAscii = true) (hne : block ≠ []) :
    IsUtf8 (s ++ (block ++ t)) ↔ IsUtf8 s ∧ IsUtf8 t := by
  induction block generalizing s with
  | nil => exact absurd rfl hne
  | cons b block ih =>
    rw [List.all_cons, Bool.and_eq_true] at hblock
    rw [List.cons_append, isUtf8_cons_iff hblock.1]
    cases block with
    | nil => rfl
    | cons c block =>
      have hnil : IsUtf8 [] := ⟨[], rfl⟩
      have hmore := ih hblock.2 (List.cons_ne_nil c block) (s := [])
      rw [List.nil_append, and_iff_right hnil] at hmore
      rw [hmore]

/-- A text that is cut where a tail begins is cut in the middle of a character. -/
theorem inside (h : utf8 chars = s ++ rest) (hrest : rest.head?.any isTail = true) :
    ∃ (kept : List Utf8Char) (c : Utf8Char) (part behind : List Byte),
      s = utf8 kept ++ part ∧ c.bytes = part ++ behind ∧ part ≠ [] ∧ behind ≠ [] := by
  induction chars generalizing s with
  | nil =>
    rw [(List.append_eq_nil_iff.mp h.symm).2] at hrest
    cases hrest
  | cons c chars ih =>
    rw [utf8_cons] at h
    rcases List.append_eq_append_iff.mp h with ⟨more, hs, hmore⟩ | ⟨part, hc, hrest'⟩
    · obtain ⟨kept, d, part, behind, rfl, hd, hpart, hbehind⟩ := ih hmore
      exact ⟨c :: kept, d, part, behind, by rw [hs, utf8_cons, List.append_assoc], hd, hpart, hbehind⟩
    · obtain ⟨a, u, hshape, hlead, -⟩ := c.shape
      have hnotTail : ∀ e more, c.bytes = e :: more → isTail e = false := by
        intro e more heq
        rw [hshape] at heq
        exact (List.cons.inj heq).1 ▸ hlead
      cases part with
      | nil =>
        -- The character ends here, and what is left begins with another one, or is nothing.
        exfalso
        rw [List.nil_append] at hrest'
        cases chars with
        | nil =>
          rw [hrest'] at hrest
          cases hrest
        | cons d chars =>
          obtain ⟨b, v, hd, hb, -⟩ := d.shape
          rw [hrest', utf8_cons, hd, List.cons_append, List.head?_cons, Option.any_some, hb] at hrest
          cases hrest
      | cons e part =>
        cases s with
        | nil =>
          exfalso
          rw [hrest', List.cons_append, List.head?_cons, Option.any_some, hnotTail e part hc] at hrest
          cases hrest
        | cons b s => exact ⟨[], c, b :: s, e :: part, rfl, hc, List.cons_ne_nil _ _, List.cons_ne_nil _ _⟩

/-- The beginning of a character is no text where no tail follows it. -/
theorem not_isUtf8_part (hc : c.bytes = s ++ t) (hs : s ≠ []) (ht : t ≠ []) (hrest : rest.head?.any isTail = false) :
    ¬IsUtf8 (s ++ rest) := by
  intro h
  obtain ⟨ds, hds⟩ := h
  obtain ⟨a, u, hshape, -, -, hlen⟩ := c.shape
  have hshort : s.length < c.bytes.length := by
    rw [hc, List.length_append]
    have hpos := List.length_pos_iff.mpr ht
    omega
  cases s with
  | nil => exact hs rfl
  | cons b s =>
    have hb : b = a := by
      rw [hshape] at hc
      exact (List.cons.inj hc).1.symm
    cases ds with
    | nil => cases hds
    | cons d ds =>
      obtain ⟨a', u', hd, -, htails, hlen'⟩ := d.shape
      rw [utf8_cons, hd] at hds
      obtain ⟨hlead, hmore⟩ := List.cons.inj hds
      have hsame : u'.length = u.length := by rw [hlen, hlen', ← hlead, hb]
      rw [hshape, List.length_cons, List.length_cons] at hshort
      -- The character that begins here has as many bytes, and so one of them is behind the beginning.
      rcases List.append_eq_append_iff.mp hmore with ⟨more, hu', hrest'⟩ | ⟨more, hs', -⟩
      · cases more with
        | nil =>
          rw [List.append_nil] at hu'
          rw [hu'] at hsame
          omega
        | cons e more =>
          have he : isTail e = true := by
            refine List.all_eq_true.mp htails e ?_
            rw [hu']
            exact List.mem_append_right _ List.mem_cons_self
          rw [hrest', List.cons_append, List.head?_cons, Option.any_some, he] at hrest
          cases hrest
      · rw [hs', List.length_append] at hshort
        omega

end Chars

end Thingino.Lib
