import Mathlib.Data.List.Basic
import Mathlib.Data.List.Infix
import Mathlib.Data.List.TakeWhile
import Thingino.Lib.Bytes

/-! Strings in memory, as the C library treats them.

A buffer is a list of bytes with a NUL behind its end; the string in it stops at the first
NUL (`cstr`). `strtok` is the interesting function: it hands out the pieces of a buffer
between delimiters and writes a NUL over the delimiter behind each piece. A whole walk over
a buffer is described by `tokens`, the pieces, and `smash`, what the buffer holds
afterwards; both cut at any delimiter (`tokensFrom_append`,
`smashFrom_append`), and
`smash_eq_self_iff` says which buffers survive. -/
namespace Thingino.Lib

/-- The bytes of an ASCII text. -/
def ascii (s : String) : List Byte := s.toList.map fun c => BitVec.ofNat 8 c.toNat

/-- The string at the start of a buffer. -/
def cstr (buf : List Byte) : List Byte := buf.takeWhile (· ≠ 0#8)

/-- `snprintf` into a buffer of some size, of a format with one string in it. -/
def snprintf (size : Nat) (front s behind : List Byte) : List Byte := (front ++ cstr s ++ behind).take (size - 1)

/-- `isspace` in the C locale. -/
def isSpace (b : Byte) : Bool := b = 32 || 9 ≤ b.toNat && b.toNat ≤ 13

def isDigit (b : Byte) : Bool := 48 ≤ b.toNat && b.toNat ≤ 57

def toLower (b : Byte) : Byte := if 65 ≤ b.toNat ∧ b.toNat ≤ 90 then b + 32 else b

/-- `strncasecmp(s, word, strlen(word)) == 0`. -/
def startsWithCase (word s : List Byte) : Bool := (s.take word.length).map toLower = word.map toLower

/-- `ULONG_MAX` of a 32-bit target. -/
def ulongMax : Nat := 4294967295

/-- `strtoul(s, NULL, 10)`: white space, a sign, digits; too large a number saturates. -/
def strtoul (s : List Byte) : Nat :=
  let s := s.dropWhile isSpace
  let negative : Bool := s.head? = some 45
  let s := if s.head? = some 43 ∨ s.head? = some 45 then s.tail else s
  let value := (s.takeWhile isDigit).foldl (fun v b => 10 * v + (b.toNat - 48)) 0
  if ulongMax < value then ulongMax else if negative then (ulongMax + 1 - value) % (ulongMax + 1) else value

/-- The `%ns` conversion of `sscanf`: the word and what follows it. -/
def scanWord (n : Nat) (s : List Byte) : Option (List Byte × List Byte) :=
  let s := s.dropWhile isSpace
  let word := (s.takeWhile (!isSpace ·)).take n
  if word = [] then none else some (word, s.drop word.length)

/-- Where `needle` first occurs in a string. -/
def strstr (needle : List Byte) : List Byte → Option Nat
  | [] => if needle = [] then some 0 else none
  | b :: s => if needle <+: b :: s then some 0 else (strstr needle s).map (· + 1)

/-! ### In front of a byte -/

theorem all_ne_of_notMem {c : Byte} {a : List Byte} (h : c ∉ a) : ∀ b ∈ a, decide (b ≠ c) = true := fun _ hb =>
  decide_eq_true fun heq => h (heq ▸ hb)

theorem takeWhile_cut {c : Byte} {a : List Byte} (h : c ∉ a) (b : List Byte) :
    (a ++ c :: b).takeWhile (· ≠ c) = a := by
  have hstop : ¬decide (c ≠ c) = true := fun hne => of_decide_eq_true hne rfl
  rw [List.takeWhile_append_of_pos (all_ne_of_notMem h), List.takeWhile_cons_of_neg (p := fun b => decide (b ≠ c)) hstop,
    List.append_nil]

theorem dropWhile_cut {c : Byte} {a : List Byte} (h : c ∉ a) (b : List Byte) :
    (a ++ c :: b).dropWhile (· ≠ c) = c :: b := by
  have hstop : ¬decide (c ≠ c) = true := fun hne => of_decide_eq_true hne rfl
  rw [List.dropWhile_append_of_pos (all_ne_of_notMem h), List.dropWhile_cons_of_neg (p := fun b => decide (b ≠ c)) hstop]

/-! ### The string in a buffer -/

theorem cstr_append {s : List Byte} (h : 0#8 ∉ s) (t : List Byte) : cstr (s ++ t) = s ++ cstr t :=
  List.takeWhile_append_of_pos (all_ne_of_notMem h)

theorem cstr_isPrefix (s : List Byte) : cstr s <+: s := List.takeWhile_prefix _

theorem zero_notMem_cstr (s : List Byte) : 0#8 ∉ cstr s := fun h => by
  simpa using List.mem_takeWhile_imp h

theorem cstr_eq_self {s : List Byte} (h : 0#8 ∉ s) : cstr s = s :=
  List.takeWhile_eq_self_iff.mpr (all_ne_of_notMem h)

theorem cstr_zero_cons (s : List Byte) : cstr (0#8 :: s) = [] := rfl

theorem cstr_cons {b : Byte} (h : b ≠ 0#8) (s : List Byte) : cstr (b :: s) = b :: cstr s :=
  List.takeWhile_cons_of_pos (decide_eq_true h)

theorem cstr_drop {n : Nat} {s : List Byte} (h : n ≤ (cstr s).length) : cstr (s.drop n) = (cstr s).drop n := by
  induction n generalizing s with
  | zero => rfl
  | succ n ih =>
    cases s with
    | nil => exact absurd h (Nat.not_succ_le_zero n)
    | cons b s =>
      by_cases h0 : b = 0#8
      · rw [h0, cstr_zero_cons] at h
        exact absurd h (Nat.not_succ_le_zero n)
      · rw [cstr_cons h0, List.length_cons] at h
        rw [cstr_cons h0, List.drop_succ_cons, List.drop_succ_cons]
        exact ih (Nat.le_of_succ_le_succ h)

/-! ### Searching -/

section Strstr
variable {needle s : List Byte} {i : Nat}

theorem strstr_cons (needle : List Byte) (b : Byte) (s : List Byte) :
    strstr needle (b :: s) = if needle <+: b :: s then some 0 else (strstr needle s).map (· + 1) := rfl

theorem strstr_length (h : strstr needle s = some i) : i + needle.length ≤ s.length := by
  induction s generalizing i with
  | nil =>
    obtain ⟨hnil, h⟩ := Option.ite_none_right_eq_some.mp h
    cases h
    simp [hnil]
  | cons b s ih =>
    rw [strstr_cons] at h
    split at h
    · rename_i hpre
      cases h
      exact (Nat.zero_add _).symm ▸ hpre.length_le
    · obtain ⟨j, hj, rfl⟩ := Option.map_eq_some_iff.mp h
      have := ih hj
      rw [List.length_cons]
      omega

theorem strstr_isPrefix (h : strstr needle s = some i) : needle <+: s.drop i := by
  induction s generalizing i with
  | nil =>
    obtain ⟨hnil, -⟩ := Option.ite_none_right_eq_some.mp h
    exact hnil ▸ List.nil_prefix
  | cons b s ih =>
    rw [strstr_cons] at h
    split at h
    · rename_i hpre
      cases h
      exact hpre
    · obtain ⟨j, hj, rfl⟩ := Option.map_eq_some_iff.mp h
      exact ih hj

/-- A first occurrence stays the first when the string goes on. -/
theorem strstr_append (h : strstr needle s = some i) (t : List Byte) : strstr needle (s ++ t) = some i := by
  induction s generalizing i with
  | nil =>
    obtain ⟨hnil, h⟩ := Option.ite_none_right_eq_some.mp h
    cases h
    cases t with
    | nil => exact if_pos hnil
    | cons b t => exact if_pos (hnil ▸ List.nil_prefix)
  | cons b s ih =>
    have hlen := strstr_length h
    rw [strstr_cons] at h
    rw [List.cons_append, strstr_cons]
    split at h
    · rename_i hpre
      cases h
      exact if_pos (hpre.trans (List.prefix_append (b :: s) t))
    · rename_i hpre
      obtain ⟨j, hj, rfl⟩ := Option.map_eq_some_iff.mp h
      have hfits : needle.length ≤ (b :: s).length := by omega
      have hlonger : ¬needle <+: b :: (s ++ t) := fun hp =>
        hpre (List.prefix_of_prefix_length_le hp (List.prefix_append (b :: s) t) hfits)
      rw [if_neg hlonger, ih hj]
      rfl

/-- A cut behind the first occurrence leaves it in place. -/
theorem strstr_take {n : Nat} (h : strstr needle s = some i) (hn : i + needle.length ≤ n) :
    strstr needle (s.take n) = some i := by
  induction s generalizing i n with
  | nil =>
    rw [List.take_nil]
    exact h
  | cons b s ih =>
    rw [strstr_cons] at h
    cases n with
    | zero =>
      obtain ⟨rfl, hnil⟩ : i = 0 ∧ needle = [] := ⟨by omega, List.eq_nil_of_length_eq_zero (by omega)⟩
      exact if_pos hnil
    | succ n =>
      rw [List.take_succ_cons, strstr_cons]
      split at h
      · rename_i hpre
        cases h
        refine if_pos (List.prefix_of_prefix_length_le hpre (List.take_prefix (n + 1) (b :: s)) ?_)
        have := hpre.length_le
        rw [List.length_take]
        omega
      · rename_i hpre
        obtain ⟨j, hj, rfl⟩ := Option.map_eq_some_iff.mp h
        rw [if_neg fun hp => hpre (hp.trans (List.take_prefix (n + 1) (b :: s))), ih hj (by omega)]
        rfl

/-- A string that ends where `needle` first occurs has no shorter prefix with `needle` in it. -/
theorem strstr_eq_none (h : strstr needle s = some i) (hend : s.length ≤ i + needle.length) {p : List Byte}
    (hp : p <+: s) (hlt : p.length < s.length) : strstr needle p = none := by
  obtain ⟨t, rfl⟩ := hp
  cases hfound : strstr needle p with
  | none => rfl
  | some j =>
    have hsame := strstr_append hfound t
    rw [h, Option.some.injEq] at hsame
    have := strstr_length hfound
    omega

end Strstr

/-! ### Cutting at delimiters -/

/-- A buffer that `strtok` works on: what lies before the saved pointer, and the rest. -/
structure Tokenizer where
  done : List Byte
  rest : List Byte

def Tokenizer.buffer (t : Tokenizer) : List Byte := t.done ++ t.rest

section Strtok
variable (isDelim : Byte → Bool)

/-- The delimiters that a call skips. -/
def skipped (rest : List Byte) : List Byte := rest.takeWhile isDelim

/-- The piece it finds, up to the next delimiter or NUL. -/
def firstToken (rest : List Byte) : List Byte := (rest.dropWhile isDelim).takeWhile fun b => b ≠ 0#8 && !isDelim b

/-- What lies behind the piece. -/
def behindToken (rest : List Byte) : List Byte := (rest.dropWhile isDelim).dropWhile fun b => b ≠ 0#8 && !isDelim b

/-- One call. A delimiter behind the piece is overwritten, a NUL stops the walk. -/
def strtok (t : Tokenizer) : Option (List Byte × Tokenizer) :=
  let token := firstToken isDelim t.rest
  let seen := t.done ++ skipped isDelim t.rest ++ token
  if token = [] then none
  else
    match behindToken isDelim t.rest with
    | [] => some (token, ⟨seen, []⟩)
    | b :: s => some (token, if b = 0#8 then ⟨seen, b :: s⟩ else ⟨seen ++ [0#8], s⟩)

/-- The pieces of a buffer, the first of which begins with `cur`. -/
def tokensFrom (cur : List Byte) : List Byte → List (List Byte)
  | [] => if cur = [] then [] else [cur]
  | b :: s =>
    if b = 0#8 then if cur = [] then [] else [cur]
    else if isDelim b then (if cur = [] then [] else [cur]) ++ tokensFrom [] s
    else tokensFrom (cur ++ [b]) s

def tokens (s : List Byte) : List (List Byte) := tokensFrom isDelim [] s

/-- The buffer after all calls; the flag tells whether a piece is being read. -/
def smashFrom : Bool → List Byte → List Byte
  | _, [] => []
  | inToken, b :: s =>
    if b = 0#8 then b :: s
    else if isDelim b then (if inToken then 0#8 else b) :: smashFrom false s
    else b :: smashFrom true s

def smash (s : List Byte) : List Byte := smashFrom isDelim false s

variable {isDelim} (hd : isDelim 0#8 = false)
include hd

theorem tokensFrom_delims {lead : List Byte} (h : ∀ b ∈ lead, isDelim b = true) (s : List Byte) :
    tokensFrom isDelim [] (lead ++ s) = tokensFrom isDelim [] s := by
  induction lead with
  | nil => rfl
  | cons b lead ih =>
    obtain ⟨hb, hlead⟩ := List.forall_mem_cons.mp h
    have h0 : b ≠ 0#8 := fun h0 => by rw [h0, hd] at hb; cases hb
    simp [tokensFrom, h0, hb, ih hlead]

theorem smashFrom_delims {lead : List Byte} (h : ∀ b ∈ lead, isDelim b = true) (s : List Byte) :
    smashFrom isDelim false (lead ++ s) = lead ++ smashFrom isDelim false s := by
  induction lead with
  | nil => rfl
  | cons b lead ih =>
    obtain ⟨hb, hlead⟩ := List.forall_mem_cons.mp h
    have h0 : b ≠ 0#8 := fun h0 => by rw [h0, hd] at hb; cases hb
    simp [smashFrom, h0, hb, ih hlead]

omit hd in
theorem tokensFrom_text {token : List Byte} (h : ∀ b ∈ token, b ≠ 0#8 ∧ isDelim b = false) (cur s : List Byte) :
    tokensFrom isDelim cur (token ++ s) = tokensFrom isDelim (cur ++ token) s := by
  induction token generalizing cur with
  | nil => rw [List.append_nil, List.nil_append]
  | cons b token ih =>
    obtain ⟨⟨h0, hb⟩, htoken⟩ := List.forall_mem_cons.mp h
    simp [tokensFrom, h0, hb, ih htoken]

omit hd in
theorem smashFrom_text {token : List Byte} (h : ∀ b ∈ token, b ≠ 0#8 ∧ isDelim b = false) (hne : token ≠ [])
    (inToken : Bool) (s : List Byte) :
    smashFrom isDelim inToken (token ++ s) = token ++ smashFrom isDelim true s := by
  induction token generalizing inToken with
  | nil => exact absurd rfl hne
  | cons b token ih =>
    obtain ⟨⟨h0, hb⟩, htoken⟩ := List.forall_mem_cons.mp h
    by_cases hnil : token = []
    · simp [smashFrom, h0, hb, hnil]
    · simp [smashFrom, h0, hb, ih htoken hnil]

omit hd in
theorem strtok_split (rest : List Byte) :
    rest = skipped isDelim rest ++ (firstToken isDelim rest ++ behindToken isDelim rest) := by
  unfold skipped firstToken behindToken
  rw [List.takeWhile_append_dropWhile, List.takeWhile_append_dropWhile]

omit hd in
theorem isDelim_skipped {rest : List Byte} : ∀ b ∈ skipped isDelim rest, isDelim b = true :=
  fun _ hb => List.mem_takeWhile_imp hb

omit hd in
theorem text_firstToken {rest : List Byte} : ∀ b ∈ firstToken isDelim rest, b ≠ 0#8 ∧ isDelim b = false :=
  fun _ hb => by simpa using List.mem_takeWhile_imp hb

omit hd in
theorem behindToken_cons {rest s : List Byte} {b : Byte} (h : behindToken isDelim rest = b :: s) :
    b = 0#8 ∨ isDelim b = true := by
  have hstop := List.head?_dropWhile_not (fun b => b ≠ 0#8 && !isDelim b) (rest.dropWhile isDelim)
  unfold behindToken at h
  rw [h] at hstop
  by_cases h0 : b = 0#8
  · exact .inl h0
  · exact .inr (by simpa [h0] using hstop)

omit hd in
theorem behindToken_of_nil {rest s : List Byte} {b : Byte} (hnil : firstToken isDelim rest = [])
    (h : behindToken isDelim rest = b :: s) : b = 0#8 := by
  have hdrop : firstToken isDelim rest ++ behindToken isDelim rest = rest.dropWhile isDelim :=
    List.takeWhile_append_dropWhile
  have hstop := List.head?_dropWhile_not isDelim rest
  rw [← hdrop, hnil, h] at hstop
  exact (behindToken_cons h).resolve_right (by simpa using hstop)

/-- The walk over a buffer up to the end of its first piece. -/
theorem tokens_firstToken (rest : List Byte) :
    tokens isDelim rest = tokensFrom isDelim (firstToken isDelim rest) (behindToken isDelim rest) := by
  calc tokens isDelim rest
      = tokens isDelim (skipped isDelim rest ++ (firstToken isDelim rest ++ behindToken isDelim rest)) := by
        rw [← strtok_split]
    _ = tokensFrom isDelim [] (firstToken isDelim rest ++ behindToken isDelim rest) :=
        tokensFrom_delims hd isDelim_skipped _
    _ = tokensFrom isDelim (firstToken isDelim rest) (behindToken isDelim rest) :=
        tokensFrom_text text_firstToken [] _

theorem smash_firstToken {rest : List Byte} (hne : firstToken isDelim rest ≠ []) :
    smash isDelim rest =
      skipped isDelim rest ++ (firstToken isDelim rest ++ smashFrom isDelim true (behindToken isDelim rest)) := by
  calc smash isDelim rest
      = smash isDelim (skipped isDelim rest ++ (firstToken isDelim rest ++ behindToken isDelim rest)) := by
        rw [← strtok_split]
    _ = skipped isDelim rest ++ smashFrom isDelim false (firstToken isDelim rest ++ behindToken isDelim rest) :=
        smashFrom_delims hd isDelim_skipped _
    _ = _ := by rw [smashFrom_text text_firstToken hne]

/-- What one call does to the walk: it takes the first piece off. -/
theorem strtok_some {t t' : Tokenizer} {token : List Byte} (h : strtok isDelim t = some (token, t')) :
    tokens isDelim t.rest = token :: tokens isDelim t'.rest ∧
      t.done ++ smash isDelim t.rest = t'.done ++ smash isDelim t'.rest ∧ t'.rest.length < t.rest.length := by
  simp only [strtok] at h
  split at h
  · cases h
  · rename_i hne
    have hlen := congrArg List.length (@strtok_split isDelim t.rest)
    simp only [List.length_append] at hlen
    have hpos := List.length_pos_iff.mpr hne
    rw [tokens_firstToken hd, smash_firstToken hd hne]
    split at h
    · rename_i hbehind
      cases h
      rw [hbehind, List.length_nil] at hlen
      rw [hbehind]
      refine ⟨by simp [tokensFrom, tokens, hne], by simp [smashFrom, smash], ?_⟩
      rw [List.length_nil]
      omega
    · rename_i b s hbehind
      rw [hbehind, List.length_cons] at hlen
      rw [hbehind]
      obtain ⟨rfl, htail⟩ := Prod.mk.inj (Option.some.inj h)
      by_cases h0 : b = 0#8
      · rw [if_pos h0] at htail
        subst htail
        refine ⟨by simp [tokensFrom, tokens, hne, h0], by simp [smashFrom, smash, h0], ?_⟩
        rw [List.length_cons]
        omega
      · rw [if_neg h0] at htail
        subst htail
        have hb : isDelim b = true := (behindToken_cons hbehind).resolve_left h0
        refine ⟨by simp [tokensFrom, tokens, hne, h0, hb], by simp [smashFrom, smash, h0, hb], ?_⟩
        show s.length < t.rest.length
        omega

theorem strtok_none {t : Tokenizer} (h : strtok isDelim t = none) :
    tokens isDelim t.rest = [] ∧ smash isDelim t.rest = t.rest := by
  have hnil : firstToken isDelim t.rest = [] := by
    by_contra hne
    simp only [strtok, if_neg hne] at h
    split at h <;> cases h
  have hsplit := @strtok_split isDelim t.rest
  rw [hnil, List.nil_append] at hsplit
  have hsmash : smash isDelim t.rest = skipped isDelim t.rest ++ smash isDelim (behindToken isDelim t.rest) := by
    unfold smash
    rw [← smashFrom_delims hd isDelim_skipped, ← hsplit]
  rw [tokens_firstToken hd, hnil, hsmash]
  cases hbehind : behindToken isDelim t.rest with
  | nil =>
    rw [hbehind] at hsplit
    exact ⟨rfl, hsplit.symm⟩
  | cons b s =>
    have h0 := behindToken_of_nil hnil hbehind
    rw [hbehind] at hsplit
    exact ⟨by simp [tokensFrom, h0], by simpa [smash, smashFrom, h0] using hsplit.symm⟩

/-! ### Whole walks -/

/-- A walk may be cut behind any delimiter that it reaches. -/
theorem tokensFrom_append {s : List Byte} (hs : 0#8 ∉ s) {b : Byte} (hb : isDelim b = true) (cur t : List Byte) :
    tokensFrom isDelim cur (s ++ b :: t) = tokensFrom isDelim cur (s ++ [b]) ++ tokens isDelim t := by
  have h0 : b ≠ 0#8 := fun h0 => by rw [h0, hd] at hb; cases hb
  induction s generalizing cur with
  | nil => simp [tokensFrom, h0, hb, tokens]
  | cons x s ih =>
    obtain ⟨hx, hs⟩ := not_or.mp (List.mem_cons.not.mp hs)
    by_cases hdelim : isDelim x = true
    · simp [tokensFrom, Ne.symm hx, hdelim, ih hs []]
    · simp [tokensFrom, Ne.symm hx, hdelim, ih hs (cur ++ [x])]

theorem smashFrom_append {s : List Byte} (hs : 0#8 ∉ s) {b : Byte} (hb : isDelim b = true) (inToken : Bool)
    (t : List Byte) :
    smashFrom isDelim inToken (s ++ b :: t) = smashFrom isDelim inToken (s ++ [b]) ++ smash isDelim t := by
  have h0 : b ≠ 0#8 := fun h0 => by rw [h0, hd] at hb; cases hb
  induction s generalizing inToken with
  | nil => simp [smashFrom, h0, hb, smash]
  | cons x s ih =>
    obtain ⟨hx, hs⟩ := not_or.mp (List.mem_cons.not.mp hs)
    by_cases hdelim : isDelim x = true
    · simp [smashFrom, Ne.symm hx, hdelim, ih hs false]
    · simp [smashFrom, Ne.symm hx, hdelim, ih hs true]

omit hd in
theorem tokensFrom_ne_nil {s cur : List Byte} (hs : 0#8 ∉ s) (h : cur ≠ [] ∨ ∃ b ∈ s, isDelim b = false) :
    tokensFrom isDelim cur s ≠ [] := by
  induction s generalizing cur with
  | nil =>
    obtain hcur | ⟨b, hb, -⟩ := h
    · simp [tokensFrom, hcur]
    · cases hb
  | cons x s ih =>
    obtain ⟨hx, hs⟩ := not_or.mp (List.mem_cons.not.mp hs)
    by_cases hdelim : isDelim x = true
    · by_cases hcur : cur = []
      · have hlater : ∃ b ∈ s, isDelim b = false := by simpa [hcur, hdelim] using h
        simp [tokensFrom, Ne.symm hx, hdelim, hcur, ih hs (.inr hlater)]
      · simp [tokensFrom, Ne.symm hx, hdelim, hcur]
    · have hcur : cur ++ [x] ≠ [] := by simp
      simp [tokensFrom, Ne.symm hx, hdelim, ih hs (.inl hcur)]

omit hd in
@[simp] theorem length_smashFrom (inToken : Bool) (s : List Byte) : (smashFrom isDelim inToken s).length = s.length := by
  induction s generalizing inToken with
  | nil => rfl
  | cons b s ih =>
    rw [smashFrom]
    split
    · rfl
    · split <;> rw [List.length_cons, List.length_cons, ih]

omit hd in
theorem take_smashFrom (inToken : Bool) (n : Nat) (s : List Byte) :
    (smashFrom isDelim inToken s).take n = smashFrom isDelim inToken (s.take n) := by
  induction s generalizing inToken n with
  | nil => simp [smashFrom]
  | cons b s ih =>
    cases n with
    | zero => simp [smashFrom]
    | succ n =>
      rw [List.take_succ_cons, smashFrom, smashFrom]
      split
      · rw [List.take_succ_cons]
      · split <;> rw [List.take_succ_cons, ih]

omit hd in
/-- Behind a byte `x`, a buffer survives the walk if no delimiter follows a byte of a piece. -/
theorem smashFrom_eq_self_iff (x : Byte) (s : List Byte) :
    smashFrom isDelim (!isDelim x) s = s ↔ (x :: cstr s).IsChain fun x y => isDelim y → isDelim x := by
  induction s generalizing x with
  | nil => simp [smashFrom, cstr]
  | cons b s ih =>
    by_cases h0 : b = 0#8
    · simp [smashFrom, h0, cstr_zero_cons]
    · rw [cstr_cons h0, List.isChain_cons_cons, ← ih b]
      by_cases hb : isDelim b = true
      · by_cases hx : isDelim x = true
        · simp [smashFrom, h0, hb, hx]
        · simp [smashFrom, h0, hb, hx, Ne.symm h0]
      · simp [smashFrom, h0, hb]

omit hd in
/-- A buffer survives the walk if each delimiter in its string is at the start or behind
another one. -/
theorem smash_eq_self_iff (s : List Byte) :
    smash isDelim s = s ↔ (cstr s).IsChain fun x y => isDelim y → isDelim x := by
  cases s with
  | nil => simp [smash, smashFrom, cstr]
  | cons b s =>
    by_cases h0 : b = 0#8
    · simp [smash, smashFrom, h0, cstr_zero_cons]
    · rw [cstr_cons h0, ← smashFrom_eq_self_iff]
      by_cases hb : isDelim b = true
      · simp [smash, smashFrom, h0, hb]
      · simp [smash, smashFrom, h0, hb]

end Strtok

end Thingino.Lib
