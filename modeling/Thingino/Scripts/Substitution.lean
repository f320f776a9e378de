import Mathlib.Data.List.Infix
import Mathlib.Data.List.Nodup
import Mathlib.Data.List.Permutation
import Mathlib.Data.List.Perm.Basic
import Thingino.Scripts.RenderTemplate

/-! The placeholders of a template line.

`render` replaces one key after the other in the whole line, in the order of the `--var` options. What it would
take to replace all of them at once is `simultaneous`: it goes through the line once, and what it has put in is
not looked at again. The two agree on a line when each option finds just the placeholders that the line itself has
for it, `Untangled`; what the other lines have in common is that some option finds others, `LiteralOn`. -/
namespace Thingino.Scripts

def placeholder (key : Text) : Text := '@' :: key ++ ['@']

/-- The value of a key that is set again stays at its place. -/
def assign (key value : Text) (entries : List (Text × Text)) : List (Text × Text) :=
  if key ∈ entries.map Prod.fst then entries.map fun entry => if entry.1 = key then (key, value) else entry
  else entries ++ [(key, value)]

theorem map_fst_assign (key value : Text) (entries : List (Text × Text)) :
    (assign key value entries).map Prod.fst =
      if key ∈ entries.map Prod.fst then entries.map Prod.fst else entries.map Prod.fst ++ [key] := by
  unfold assign
  split
  · rw [List.map_map]
    refine List.map_congr_left fun entry _ => ?_
    by_cases hkey : entry.1 = key
    · simp [hkey]
    · simp [hkey]
  · rw [List.map_append, List.map_singleton]

def Vars.empty : Vars := ⟨[], List.nodup_nil, fun _ h => absurd h List.not_mem_nil⟩

/-- The dictionary with one more option. -/
def Vars.insert (vars : Vars) (key value : Text) (hkey : key ≠ []) : Vars where
  entries := assign key value vars.entries
  nodup := by
    rw [map_fst_assign]
    split
    · exact vars.nodup
    · rename_i hnew
      exact List.nodup_append.mpr ⟨vars.nodup, List.pairwise_singleton _ key, fun a ha b hb hab =>
        hnew (List.mem_singleton.mp hb ▸ hab ▸ ha)⟩
  nonempty := by
    have hkeys : ∀ k ∈ (assign key value vars.entries).map Prod.fst, k ≠ [] := by
      rw [map_fst_assign]
      have hold : ∀ k ∈ vars.entries.map Prod.fst, k ≠ [] := by
        intro k hk
        obtain ⟨entry, hentry, rfl⟩ := List.mem_map.mp hk
        exact vars.nonempty entry hentry
      split
      · exact hold
      · intro k hk
        rcases List.mem_append.mp hk with hk | hk
        · exact hold k hk
        · exact List.mem_singleton.mp hk ▸ hkey
    exact fun entry hentry => hkeys entry.1 (List.mem_map_of_mem hentry)

inductive VarError
  | noValue
  | emptyKey

/-- A `--var` option ends at its first `=` as a key. -/
def entryOf (item : Text) : Text × Text :=
  (strip (item.takeWhile (· ≠ '=')), (item.dropWhile (· ≠ '=')).drop 1)

/-- The `--var` options one after the other. -/
def parseVars (vars : Vars) : List Text → Except VarError Vars
  | [] => .ok vars
  | item :: raw =>
    if '=' ∈ item then
      if h : (entryOf item).1 = [] then .error .emptyKey
      else parseVars (vars.insert (entryOf item).1 (entryOf item).2 h) raw
    else .error .noValue

/-- All placeholders at once, from left to right; the counter is for the rest of a placeholder. -/
def simultaneousFrom (entries : List (Text × Text)) : Nat → Text → Text
  | _, [] => []
  | skip + 1, _ :: s => simultaneousFrom entries skip s
  | 0, c :: s =>
    match entries.find? fun entry => placeholder entry.1 <+: c :: s with
    | some (key, value) => value ++ simultaneousFrom entries (key.length + 1) s
    | none => c :: simultaneousFrom entries 0 s

def simultaneous (entries : List (Text × Text)) (line : Text) : Text := simultaneousFrom entries 0 line

/-- A line of some template that is rendered where it is wanted. -/
def TemplateLine (line : Text) : Prop :=
  directive line = .text ∧ ∃ template, line ∈ splitlines (readText template)

/-- **The property** of some `--var` options and a line: whatever the order of the options, the line is rendered with
all its placeholders replaced at once. -/
def SimultaneousOn (raw : List Text) (line : Text) : Prop :=
  ∀ order, order.Perm raw → ∀ vars, parseVars .empty order = .ok vars →
    substitute vars.entries line = simultaneous (raw.map entryOf) line

/-- The options alone: it holds of all lines of templates. -/
def Simultaneous (raw : List Text) : Prop := ∀ line, TemplateLine line → SimultaneousOn raw line

/-- A variable that stands for itself. -/
def standsForItself (entry : Text × Text) : Prop := entry.2 = placeholder entry.1

/-- A key that can stand in a line, and between two `@` only as a whole. -/
def plainKey (key : Text) : Prop := '@' ∉ key ∧ ∀ c ∈ key, isLineBreak c = false

/-- A line is made of texts and of placeholders, which are holes for the values of their variables. -/
inductive Piece
  | text (t : Text)
  | hole (entry : Text × Text)
  deriving DecidableEq

namespace Piece

def chars : Piece → Text
  | text t => t
  | hole entry => placeholder entry.1

/-- A hole of one variable is filled. -/
def fill (entry : Text × Text) : Piece → Piece
  | text t => text t
  | hole e => if e = entry then text e.2 else hole e

/-- What stands there in the end. -/
def value : Piece → Text
  | text t => t
  | hole entry => entry.2

end Piece

/-- The same pass as `simultaneous`, with holes for the values. -/
def piecesFrom (entries : List (Text × Text)) : Nat → Text → List Piece
  | _, [] => []
  | skip + 1, _ :: s => piecesFrom entries skip s
  | 0, c :: s =>
    match entries.find? fun entry => placeholder entry.1 <+: c :: s with
    | some entry => .hole entry :: piecesFrom entries (entry.1.length + 1) s
    | none => .text [c] :: piecesFrom entries 0 s

def pieces (raw : List Text) (line : Text) : List Piece := piecesFrom (raw.map entryOf) 0 line

/-- Some variables have filled their holes. -/
def filled (entries : List (Text × Text)) (ps : List Piece) : List Piece :=
  entries.foldl (fun ps entry => ps.map (Piece.fill entry)) ps

/-- Where `str.replace` finds its pattern: one mark for each match, and the characters that stay. -/
def markedFrom (pattern : Text) : Nat → Text → List (Option Char)
  | _, [] => []
  | skip + 1, _ :: s => markedFrom pattern skip s
  | 0, c :: s =>
    if pattern <+: c :: s then none :: markedFrom pattern (pattern.length - 1) s
    else some c :: markedFrom pattern 0 s

def marked (entry : Text × Text) (s : Text) : List (Option Char) := markedFrom (placeholder entry.1) 0 s

/-- The holes of a variable, marked in the same way. -/
def Piece.marked (entry : Text × Text) : Piece → List (Option Char)
  | .text t => t.map some
  | .hole e => if e = entry then [none] else (placeholder e.1).map some

/-- When its turn comes, each variable finds its own holes and nothing else. -/
def untangled : List (Text × Text) → List Piece → Bool
  | [], _ => true
  | entry :: entries, ps =>
    marked entry (ps.flatMap Piece.chars) = ps.flatMap (Piece.marked entry) &&
      untangled entries (ps.map (Piece.fill entry))

/-- In each order of the options, a variable finds only its own placeholders in the line with the placeholders of the
earlier ones filled. -/
def Untangled (raw : List Text) (line : Text) : Prop :=
  ∀ order : List Text, order.Perm raw → untangled (order.map entryOf) (pieces raw line) = true

instance (raw : List Text) (line : Text) : Decidable (Untangled raw line) :=
  decidable_of_iff (∀ order ∈ raw.permutations', untangled (order.map entryOf) (pieces raw line) = true)
    (forall_congr' fun _ => imp_congr_left List.mem_permutations')

/-- In each order of the options, the loop puts the value of a variable in the place of the placeholders that the line
has for it, and of nothing else. -/
def LiteralOn (raw : List Text) (line : Text) : Prop :=
  ∀ order : List Text, order.Perm raw → ∀ before entry after, order.map entryOf = before ++ entry :: after →
    marked entry (substitute before line) = (filled before (pieces raw line)).flatMap (Piece.marked entry)

/-! ### Replacing one key -/

section Replace
variable {pattern value s t : Text} {c : Char}

theorem replaceFrom_append (a s : Text) : replaceFrom pattern value a.length (a ++ s) = replace pattern value s := by
  induction a with
  | nil => rfl
  | cons c a ih => exact ih

/-- A match at the beginning is replaced. -/
theorem replace_append (h : pattern ≠ []) (s : Text) :
    replace pattern value (pattern ++ s) = value ++ replace pattern value s := by
  cases pattern with
  | nil => exact absurd rfl h
  | cons c pattern =>
    have hpre : c :: pattern <+: c :: (pattern ++ s) := ⟨s, rfl⟩
    exact (if_pos hpre).trans (congrArg (value ++ ·) (replaceFrom_append pattern s))

theorem replace_cons (h : ¬pattern <+: c :: s) : replace pattern value (c :: s) = c :: replace pattern value s :=
  if_neg h

/-- Putting in what is there changes nothing. -/
theorem replace_self (h : pattern ≠ []) (s : Text) : replace pattern pattern s = s := by
  generalize hn : s.length = n
  induction n using Nat.strong_induction_on generalizing s with
  | _ n ih =>
    cases s with
    | nil => rfl
    | cons c s =>
      by_cases hpre : pattern <+: c :: s
      · obtain ⟨t, ht⟩ := hpre
        have hlen := congrArg List.length ht
        rw [List.length_append] at hlen
        have hpos := List.length_pos_iff.mpr h
        rw [← ht, replace_append h, ih t.length (by omega) t rfl]
      · rw [replace_cons hpre, ih s.length (by rw [← hn]; exact Nat.lt_succ_self _) s rfl]

/-- What has no match stays. -/
theorem replace_eq_self (h : ¬pattern <:+: s) : replace pattern value s = s := by
  induction s with
  | nil => rfl
  | cons c s ih =>
    rw [replace_cons fun hpre => h hpre.isInfix, ih fun hin => h (hin.trans (List.suffix_cons c s).isInfix)]

/-- Each match makes the text longer by as much as the value is longer than the pattern. -/
theorem length_replace (h : pattern ≠ []) (s : Text) :
    (value.length ≤ pattern.length → (replace pattern value s).length ≤ s.length) ∧
      (pattern.length ≤ value.length → s.length ≤ (replace pattern value s).length) := by
  generalize hn : s.length = n
  induction n using Nat.strong_induction_on generalizing s with
  | _ n ih =>
    cases s with
    | nil => exact ⟨fun _ => Nat.zero_le _, fun _ => Nat.le_of_eq hn.symm⟩
    | cons c s =>
      by_cases hpre : pattern <+: c :: s
      · obtain ⟨t, ht⟩ := hpre
        have hlen := congrArg List.length ht
        rw [List.length_append] at hlen
        have hpos := List.length_pos_iff.mpr h
        have hrest := ih t.length (by omega) t rfl
        rw [← ht, replace_append h, List.length_append]
        omega
      · have hrest := ih s.length (by rw [← hn]; exact Nat.lt_succ_self _) s rfl
        rw [replace_cons hpre, List.length_cons]
        rw [List.length_cons] at hn
        omega

/-- A text that stays has no match, unless the value is the pattern. -/
theorem not_infix_of_replace_eq (h : pattern ≠ []) (hne : value ≠ pattern) (hsame : replace pattern value s = s) :
    ¬pattern <:+: s := by
  induction s with
  | nil => exact fun hin => h (List.infix_nil.mp hin)
  | cons c s ih =>
    have hpre : ¬pattern <+: c :: s := by
      rintro ⟨t, ht⟩
      rw [← ht, replace_append h] at hsame
      have hlen := congrArg List.length hsame
      rw [List.length_append, List.length_append] at hlen
      have hrest := @length_replace pattern value h t
      exact hne (List.append_inj_left hsame (by omega))
    rw [replace_cons hpre] at hsame
    intro hin
    rcases List.infix_cons_iff.mp hin with hin | hin
    · exact hpre hin
    · exact ih (List.cons.inj hsame).2 hin

end Replace

/-! ### Placeholders -/

section Placeholder
variable {key key' value : Text} {s : Text}

theorem placeholder_append (key s : Text) : placeholder key ++ s = '@' :: (key ++ '@' :: s) := by
  simp [placeholder]

theorem placeholder_ne_nil (key : Text) : placeholder key ≠ [] := List.cons_ne_nil _ _

theorem takeWhile_key (h : '@' ∉ key) (t : Text) : (key ++ '@' :: t).takeWhile (· ≠ '@') = key := by
  rw [List.takeWhile_append_of_pos]
  · exact List.append_nil key
  · intro c hc
    exact decide_eq_true fun heq : c = '@' => h (heq ▸ hc)

/-- Where a key without an `@` stands between two of them, its placeholder is the only one. -/
theorem placeholder_prefix_iff (h : '@' ∉ key) (h' : '@' ∉ key') :
    placeholder key <+: '@' :: (key' ++ '@' :: s) ↔ key = key' := by
  constructor
  · intro hpre
    obtain ⟨t, ht⟩ := hpre
    rw [placeholder_append] at ht
    rw [← takeWhile_key h t, (List.cons.inj ht).2, takeWhile_key h' s]
  · intro heq
    exact ⟨s, by rw [placeholder_append, heq]⟩

theorem replace_hit (key value s : Text) :
    replace (placeholder key) value ('@' :: (key ++ '@' :: s)) = value ++ replace (placeholder key) value s := by
  rw [← placeholder_append, replace_append (placeholder_ne_nil key)]

/-- A text without an `@` is passed over. -/
theorem replace_plain {u : Text} (h : '@' ∉ u) (s : Text) :
    replace (placeholder key) value (u ++ s) = u ++ replace (placeholder key) value s := by
  induction u with
  | nil => rfl
  | cons c u ih =>
    rw [List.mem_cons, not_or] at h
    have hpre : ¬placeholder key <+: c :: (u ++ s) := fun hpre => h.1 (List.cons_prefix_cons.mp hpre).1
    rw [List.cons_append, replace_cons hpre, ih h.2, List.cons_append]

theorem replace_miss (h : '@' ∉ key) (h' : '@' ∉ key') (hne : key ≠ key') (s : Text) :
    replace (placeholder key) value ('@' :: (key' ++ '@' :: s)) =
      '@' :: (key' ++ replace (placeholder key) value ('@' :: s)) := by
  rw [replace_cons fun hpre => hne ((placeholder_prefix_iff h h').mp hpre), replace_plain h']

theorem replace_last : replace (placeholder key) value ['@'] = ['@'] :=
  replace_eq_self fun hin => by
    have hlen := hin.length_le
    simp [placeholder] at hlen

/-- Two keys with an `@` between them, where none of the values is looked at again: the first one stands for itself. -/
theorem self_of_pair {a b : Text} (h : '@' ∉ key) (h' : '@' ∉ key') (hne' : key' ≠ [])
    (ha : replace (placeholder key') b a = a) (hb : replace (placeholder key) a b = b)
    (hab : replace (placeholder key) a ('@' :: (key ++ b)) = a ++ (key' ++ ['@']))
    (hba : replace (placeholder key') b ('@' :: (key' ++ a)) = b ++ (key ++ ['@'])) : a = placeholder key := by
  by_contra hself
  have hnotb : ¬placeholder key <:+: b := not_infix_of_replace_eq (placeholder_ne_nil key) hself hb
  by_cases hat : b.head? = some '@'
  · -- The two signs make a placeholder with what is behind them, and so the other value is a placeholder itself.
    obtain ⟨rest, hrest⟩ := List.head?_eq_some_iff.mp hat
    have hnotrest : ¬placeholder key <:+: rest := fun hin => hnotb (hrest ▸ hin.trans (List.suffix_cons '@' rest).isInfix)
    rw [hrest, replace_hit, replace_eq_self hnotrest] at hab
    have hbself : b = placeholder key' := by
      rw [hrest, List.append_cancel_left hab]
      rfl
    rw [hbself, replace_self (placeholder_ne_nil key'), placeholder_append] at hba
    exact hself (List.append_cancel_left (List.cons.inj hba).2)
  · have hnotall : ¬placeholder key <:+: '@' :: (key ++ b) := by
      intro hin
      have hstay : replace (placeholder key) ('@' :: placeholder key) ('@' :: (key ++ b)) = '@' :: (key ++ b) := by
        rw [replace_cons, replace_plain h, replace_eq_self hnotb]
        intro hpre
        obtain ⟨t, ht⟩ := hpre
        rw [placeholder_append] at ht
        exact hat (by rw [← List.append_cancel_left (List.cons.inj ht).2]; rfl)
      exact not_infix_of_replace_eq (placeholder_ne_nil key) (List.cons_ne_self '@' _) hstay hin
    rw [replace_eq_self hnotall] at hab
    cases a with
    | nil =>
      cases key' with
      | nil => exact hne' rfl
      | cons c key' => exact h' (List.mem_cons.mpr (Or.inl (List.cons.inj hab).1))
    | cons c rest =>
      have hc : c = '@' := (List.cons.inj hab).1.symm
      subst hc
      have hbself : b ≠ placeholder key' := fun heq => hat (by rw [heq]; rfl)
      have hnota : ¬placeholder key' <:+: '@' :: rest := not_infix_of_replace_eq (placeholder_ne_nil key') hbself ha
      have hnotrest : ¬placeholder key' <:+: rest := fun hin => hnota (hin.trans (List.suffix_cons '@' rest).isInfix)
      rw [replace_hit, replace_eq_self hnotrest] at hba
      exact hself (by rw [List.append_cancel_left hba]; rfl)

end Placeholder

/-! ### One pass over the line -/

section Pass
variable {entries : List (Text × Text)} {entry : Text × Text} {s : Text} {c : Char}

theorem simultaneousFrom_append (u s : Text) : simultaneousFrom entries u.length (u ++ s) = simultaneous entries s := by
  induction u with
  | nil => rfl
  | cons c u ih => exact ih

theorem simultaneous_cons (h : ∀ entry ∈ entries, ¬placeholder entry.1 <+: c :: s) :
    simultaneous entries (c :: s) = c :: simultaneous entries s := by
  have hnone : (entries.find? fun entry => placeholder entry.1 <+: c :: s) = none := by
    rw [List.find?_eq_none]
    intro entry hentry
    rw [decide_eq_true_eq]
    exact h entry hentry
  rw [simultaneous, simultaneousFrom, hnone]
  rfl

theorem simultaneous_found (h : (entries.find? fun entry => placeholder entry.1 <+: c :: s) = some entry) :
    ∃ t, c :: s = placeholder entry.1 ++ t ∧ simultaneous entries (c :: s) = entry.2 ++ simultaneous entries t := by
  have hfound := List.find?_some h
  rw [decide_eq_true_eq] at hfound
  obtain ⟨t, ht⟩ := hfound
  refine ⟨t, ht.symm, ?_⟩
  rw [simultaneous, simultaneousFrom, h]
  rw [placeholder_append] at ht
  have hs : s = (entry.1 ++ ['@']) ++ t := by
    rw [← (List.cons.inj ht).2, List.append_assoc]
    rfl
  have hlen : (entry.1 ++ ['@']).length = entry.1.length + 1 := by simp
  change entry.2 ++ simultaneousFrom entries (entry.1.length + 1) s = _
  rw [← hlen, hs, simultaneousFrom_append]

/-- The value of the only key that stands here is put in. -/
theorem simultaneous_hit (h : entry ∈ entries)
    (hunique : ∀ e ∈ entries, placeholder e.1 <+: '@' :: (entry.1 ++ '@' :: s) → e = entry) :
    simultaneous entries ('@' :: (entry.1 ++ '@' :: s)) = entry.2 ++ simultaneous entries s := by
  have hsome : (entries.find? fun e => placeholder e.1 <+: '@' :: (entry.1 ++ '@' :: s)).isSome := by
    rw [List.find?_isSome]
    exact ⟨entry, h, decide_eq_true ⟨s, placeholder_append entry.1 s⟩⟩
  obtain ⟨e, he⟩ := Option.isSome_iff_exists.mp hsome
  have hfound := List.find?_some he
  rw [decide_eq_true_eq] at hfound
  have heq : e = entry := hunique e (List.mem_of_find?_eq_some he) hfound
  obtain ⟨t, ht, hsim⟩ := simultaneous_found he
  rw [heq, ← placeholder_append] at ht
  rw [hsim, heq, List.append_cancel_left ht]

/-- Variables that stand for themselves change nothing. -/
theorem simultaneous_self (h : ∀ entry ∈ entries, standsForItself entry) (s : Text) : simultaneous entries s = s := by
  generalize hn : s.length = n
  induction n using Nat.strong_induction_on generalizing s with
  | _ n ih =>
    cases s with
    | nil => rfl
    | cons c s =>
      cases hfind : entries.find? fun entry => placeholder entry.1 <+: c :: s with
      | none =>
        rw [simultaneous_cons, ih s.length (by rw [← hn]; exact Nat.lt_succ_self _) s rfl]
        intro entry hentry hpre
        have hno := List.find?_eq_none.mp hfind entry hentry
        exact hno (decide_eq_true hpre)
      | some entry =>
        obtain ⟨t, ht, hsim⟩ := simultaneous_found hfind
        have hlen := congrArg List.length ht
        rw [List.length_append, hn] at hlen
        have hpos := List.length_pos_iff.mpr (placeholder_ne_nil entry.1)
        rw [hsim, ih t.length (by omega) t rfl, h entry (List.mem_of_find?_eq_some hfind), ← ht]

theorem substitute_self (h : ∀ entry ∈ entries, replace (placeholder entry.1) entry.2 s = s) :
    substitute entries s = s := by
  induction entries with
  | nil => rfl
  | cons entry entries ih =>
    have hfirst : replace (placeholder entry.1) entry.2 s = s := h entry List.mem_cons_self
    rw [substitute, List.foldl_cons]
    change substitute entries (replace (placeholder entry.1) entry.2 s) = s
    rw [hfirst]
    exact ih fun e he => h e (List.mem_cons_of_mem _ he)

/-- One variable alone is put in at once. -/
theorem substitute_single (entry : Text × Text) (s : Text) : substitute [entry] s = simultaneous [entry] s := by
  suffices h : ∀ n s, replaceFrom (placeholder entry.1) entry.2 n s = simultaneousFrom [entry] n s from h 0 s
  intro n s
  induction s generalizing n with
  | nil => cases n <;> rfl
  | cons c s ih =>
    cases n with
    | succ n => exact ih n
    | zero =>
      have hlen : (placeholder entry.1).length - 1 = entry.1.length + 1 := by simp [placeholder]
      rw [replaceFrom, simultaneousFrom, hlen, ih, ih]
      by_cases hpre : placeholder entry.1 <+: c :: s
      · simp only [if_pos hpre, List.find?_cons, decide_eq_true hpre]
      · simp only [if_neg hpre, List.find?_cons, decide_eq_false hpre, List.find?_nil]

end Pass

/-! ### Lines of a template -/

theorem splitlines_plain {line : Text} (h : ∀ c ∈ line, isLineBreak c = false) (hne : line ≠ []) :
    splitlines line = [line] := by
  induction line with
  | nil => exact absurd rfl hne
  | cons c line ih =>
    rw [splitlines, h c List.mem_cons_self, Bool.false_and, if_neg Bool.false_ne_true]
    cases line with
    | nil => rfl
    | cons d line => rw [ih (fun e he => h e (List.mem_cons_of_mem _ he)) (List.cons_ne_nil d line)]

theorem breakless_of_all {s : Text} (h : s.all (!isLineBreak ·) = true) : ∀ c ∈ s, isLineBreak c = false :=
  fun c hc => by simpa using List.all_eq_true.mp h c hc

theorem breakless_append {a b : Text} (ha : ∀ c ∈ a, isLineBreak c = false) (hb : ∀ c ∈ b, isLineBreak c = false) :
    ∀ c ∈ a ++ b, isLineBreak c = false := fun c hc => (List.mem_append.mp hc).elim (ha c) (hb c)

theorem breakless_placeholder {key : Text} (h : plainKey key) : ∀ c ∈ placeholder key, isLineBreak c = false :=
  breakless_append (fun c hc => (List.mem_cons.mp hc).elim (fun heq => heq ▸ rfl) (h.2 c)) (breakless_of_all rfl)

theorem readText_plain {line : Text} (h : ∀ c ∈ line, isLineBreak c = false) : readText line = line := by
  induction line with
  | nil => rfl
  | cons c line ih =>
    have hc : c ≠ '\r' := by
      intro heq
      have hbreak := h c List.mem_cons_self
      rw [heq] at hbreak
      exact Bool.false_ne_true hbreak.symm
    rw [readText, if_neg hc, ih fun e he => h e (List.mem_cons_of_mem _ he)]

/-- Behind a letter anything can stand in a line. -/
theorem templateLine_cons {line : Text} (h : ∀ c ∈ line, isLineBreak c = false) : TemplateLine ('x' :: line) := by
  have hall : ∀ c ∈ 'x' :: line, isLineBreak c = false := by
    intro c hc
    rcases List.mem_cons.mp hc with rfl | hc
    · rfl
    · exact h c hc
  constructor
  · have hstrip : ∃ s, strip ('x' :: line) = 'x' :: s := by
      have hdrop : ('x' :: line).dropWhile isSpace = 'x' :: line := rfl
      have hpre := List.rdropWhile_prefix isSpace ('x' :: line)
      rw [strip, hdrop]
      cases hr : ('x' :: line).rdropWhile isSpace with
      | nil => exact absurd (List.rdropWhile_eq_nil_iff.mp hr 'x' List.mem_cons_self) Bool.false_ne_true
      | cons c s =>
        rw [hr] at hpre
        exact ⟨s, by rw [(List.cons_prefix_cons.mp hpre).1]⟩
    obtain ⟨s, hs⟩ := hstrip
    rw [directive, hs]
    have hif : ¬"@if ".toList <+: 'x' :: s := fun hpre => absurd (List.cons_prefix_cons.mp hpre).1 (by decide)
    have helse : 'x' :: s ≠ "@else@".toList := fun heq => absurd (List.cons.inj heq).1 (by decide)
    have hendif : 'x' :: s ≠ "@endif@".toList := fun heq => absurd (List.cons.inj heq).1 (by decide)
    rw [if_neg hif, if_neg helse, if_neg hendif]
  · refine ⟨'x' :: line, ?_⟩
    rw [readText_plain hall, splitlines_plain hall (List.cons_ne_nil _ _)]
    exact List.mem_singleton.mpr rfl

/-! ### Options -/

section Options
variable {vars result : Vars} {raw order : List Text} {item : Text}

theorem parseVars_items (h : parseVars vars raw = .ok result) :
    ∀ item ∈ raw, '=' ∈ item ∧ (entryOf item).1 ≠ [] := by
  induction raw generalizing vars with
  | nil => exact fun item hitem => absurd hitem List.not_mem_nil
  | cons first raw ih =>
    rw [parseVars] at h
    split at h
    · rename_i hsign
      split at h
      · cases h
      · rename_i hkey
        intro item hitem
        rcases List.mem_cons.mp hitem with rfl | hitem
        · exact ⟨hsign, hkey⟩
        · exact ih h item hitem
    · cases h

/-- Options with different keys are the entries, in their order. -/
theorem parseVars_eq_ok (hitems : ∀ item ∈ raw, '=' ∈ item ∧ (entryOf item).1 ≠ [])
    (hdistinct : ((vars.entries ++ raw.map entryOf).map Prod.fst).Nodup) :
    ∃ result, parseVars vars raw = .ok result ∧ result.entries = vars.entries ++ raw.map entryOf := by
  induction raw generalizing vars with
  | nil => exact ⟨vars, rfl, (List.append_nil _).symm⟩
  | cons item raw ih =>
    have hitem := hitems item List.mem_cons_self
    have hinsert : (vars.insert (entryOf item).1 (entryOf item).2 hitem.2).entries = vars.entries ++ [entryOf item] := by
      rw [List.map_append, List.map_cons, List.map_cons, List.nodup_append] at hdistinct
      exact if_neg fun hmem => hdistinct.2.2 _ hmem _ List.mem_cons_self rfl
    rw [parseVars, if_pos hitem.1, dif_neg hitem.2]
    rw [List.map_cons, List.append_cons, ← hinsert] at hdistinct
    obtain ⟨result, hresult, hentries⟩ := ih (fun i hi => hitems i (List.mem_cons_of_mem _ hi)) hdistinct
    exact ⟨result, hresult, by rw [hentries, hinsert, List.map_cons, List.append_assoc]; rfl⟩

theorem parseVars_order (hparse : parseVars .empty raw = .ok vars) (hdistinct : (raw.map (entryOf · |>.1)).Nodup)
    (hperm : order.Perm raw) : ∃ result, parseVars .empty order = .ok result ∧ result.entries = order.map entryOf := by
  have hkeys : ((Vars.empty.entries ++ order.map entryOf).map Prod.fst).Nodup := by
    show ((order.map entryOf).map Prod.fst).Nodup
    rw [List.map_map]
    exact (hperm.map _).nodup_iff.mpr hdistinct
  exact parseVars_eq_ok (fun item hitem => parseVars_items hparse item (hperm.mem_iff.mp hitem)) hkeys

end Options

/-! ### Two placeholders in a line -/

section Lines
variable {entries rest : List (Text × Text)} {x y : Text × Text} {key s : Text}

theorem substitute_letter (s : Text) : substitute entries ('x' :: s) = 'x' :: substitute entries s := by
  induction entries generalizing s with
  | nil => rfl
  | cons entry entries ih =>
    have hpre : ¬placeholder entry.1 <+: 'x' :: s := fun hpre => absurd (List.cons_prefix_cons.mp hpre).1 (by decide)
    change substitute entries (replace (placeholder entry.1) entry.2 ('x' :: s)) = _
    rw [replace_cons hpre, ih]
    rfl

theorem simultaneous_plain {u : Text} (h : '@' ∉ u) (s : Text) :
    simultaneous entries (u ++ s) = u ++ simultaneous entries s := by
  induction u with
  | nil => rfl
  | cons c u ih =>
    rw [List.mem_cons, not_or] at h
    have hpre : ∀ entry ∈ entries, ¬placeholder entry.1 <+: c :: (u ++ s) :=
      fun entry _ hpre => h.1 (List.cons_prefix_cons.mp hpre).1
    rw [List.cons_append, simultaneous_cons hpre, ih h.2, List.cons_append]

theorem simultaneous_last : simultaneous entries ['@'] = ['@'] := by
  rw [simultaneous_cons]
  · rfl
  · intro entry _ hpre
    have hlen := hpre.length_le
    simp [placeholder] at hlen

theorem simultaneous_key (hplain : ∀ entry ∈ entries, '@' ∉ entry.1) (hdistinct : (entries.map Prod.fst).Nodup)
    (hx : x ∈ entries) (s : Text) :
    simultaneous entries ('@' :: (x.1 ++ '@' :: s)) = x.2 ++ simultaneous entries s := by
  refine simultaneous_hit hx fun e he hpre => ?_
  exact List.inj_on_of_nodup_map hdistinct he hx ((placeholder_prefix_iff (hplain e he) (hplain x hx)).mp hpre)

theorem substitute_pair (h : ∀ entry ∈ rest, replace (placeholder entry.1) entry.2 s = s) :
    substitute (rest ++ [y, x]) s = replace (placeholder x.1) x.2 (replace (placeholder y.1) y.2 s) := by
  rw [substitute, List.foldl_append]
  exact congrArg (fun t => replace (placeholder x.1) x.2 (replace (placeholder y.1) y.2 t)) (substitute_self h)

/-- What the lines with the second key alone, and with both keys around an `@`, say where the second key is replaced
before the first. -/
theorem values_of_order (hplain : ∀ entry ∈ rest ++ [y, x], '@' ∉ entry.1)
    (hdistinct : ((rest ++ [y, x]).map Prod.fst).Nodup) (hperm : (rest ++ [y, x]).Perm entries)
    (hlone : substitute (rest ++ [y, x]) (placeholder y.1) = simultaneous entries (placeholder y.1))
    (hboth : substitute (rest ++ [y, x]) (placeholder x.1 ++ y.1 ++ ['@']) =
      simultaneous entries (placeholder x.1 ++ y.1 ++ ['@'])) :
    replace (placeholder x.1) x.2 y.2 = y.2 ∧
      replace (placeholder x.1) x.2 ('@' :: (x.1 ++ y.2)) = x.2 ++ (y.1 ++ ['@']) := by
  have hx : '@' ∉ x.1 := hplain x (by simp)
  have hy : '@' ∉ y.1 := hplain y (by simp)
  have hplain' : ∀ entry ∈ entries, '@' ∉ entry.1 := fun entry he => hplain entry (hperm.mem_iff.mpr he)
  have hdistinct' : (entries.map Prod.fst).Nodup := (hperm.map _).nodup_iff.mp hdistinct
  have hyx : y.1 ≠ x.1 := by
    have hpair := (List.nodup_append.mp (List.map_append ▸ hdistinct)).2.1
    simpa using hpair
  have hrest : ∀ entry ∈ rest, entry.1 ≠ x.1 ∧ entry.1 ≠ y.1 ∧ '@' ∉ entry.1 := by
    rw [List.map_append, List.nodup_append] at hdistinct
    intro entry hentry
    have hmem : entry.1 ∈ rest.map Prod.fst := List.mem_map_of_mem hentry
    exact ⟨hdistinct.2.2 _ hmem _ (by simp), hdistinct.2.2 _ hmem _ (by simp),
      hplain entry (List.mem_append_left _ hentry)⟩
  have hlast : ∀ entry ∈ rest, replace (placeholder entry.1) entry.2 ('@' :: (y.1 ++ ['@'])) = '@' :: (y.1 ++ ['@']) := by
    intro entry hentry
    rw [replace_miss (hrest entry hentry).2.2 hy (hrest entry hentry).2.1, replace_last]
  have hsplit : placeholder x.1 ++ y.1 ++ ['@'] = '@' :: (x.1 ++ '@' :: (y.1 ++ ['@'])) := by
    rw [List.append_assoc, placeholder_append]
  have hymem : y ∈ entries := hperm.mem_iff.mp (by simp)
  have hxmem : x ∈ entries := hperm.mem_iff.mp (by simp)
  constructor
  · have hline : placeholder y.1 = '@' :: (y.1 ++ ['@']) := rfl
    rw [hline, substitute_pair hlast, replace_hit, simultaneous_key hplain' hdistinct' hymem] at hlone
    change replace (placeholder x.1) x.2 (y.2 ++ []) = y.2 ++ [] at hlone
    rwa [List.append_nil] at hlone
  · have hothers : ∀ entry ∈ rest, replace (placeholder entry.1) entry.2 ('@' :: (x.1 ++ '@' :: (y.1 ++ ['@']))) =
        '@' :: (x.1 ++ '@' :: (y.1 ++ ['@'])) := by
      intro entry hentry
      rw [replace_miss (hrest entry hentry).2.2 hx (hrest entry hentry).1, hlast entry hentry]
    rw [hsplit, substitute_pair hothers, replace_miss hy hx hyx, replace_hit,
      simultaneous_key hplain' hdistinct' hxmem, simultaneous_plain hy, simultaneous_last] at hboth
    change replace (placeholder x.1) x.2 ('@' :: (x.1 ++ (y.2 ++ []))) = _ at hboth
    rwa [List.append_nil] at hboth

end Lines

/-! ### Holes -/

section Pieces
variable {entries : List (Text × Text)} {entry : Text × Text} {ps : List Piece} {s : Text}

/-- What stands in the place of a mark or a character. -/
def put (value : Text) : Option Char → Text
  | none => value
  | some c => [c]

theorem flatMap_put_some (value t : Text) : (t.map some).flatMap (put value) = t := by
  induction t with
  | nil => rfl
  | cons c t ih => exact congrArg (c :: ·) ih

/-- `str.replace` puts the value in the place of the marks. -/
theorem replace_eq_put (entry : Text × Text) (s : Text) :
    replace (placeholder entry.1) entry.2 s = (marked entry s).flatMap (put entry.2) := by
  suffices h : ∀ n s, replaceFrom (placeholder entry.1) entry.2 n s =
      (markedFrom (placeholder entry.1) n s).flatMap (put entry.2) from h 0 s
  intro n s
  induction s generalizing n with
  | nil => cases n <;> rfl
  | cons c s ih =>
    cases n with
    | succ n => exact ih n
    | zero =>
      rw [replaceFrom, markedFrom]
      split
      · rw [List.flatMap_cons, ih]
        rfl
      · rw [List.flatMap_cons, ih]
        rfl

/-- And so does a variable with its holes. -/
theorem chars_fill (entry : Text × Text) (ps : List Piece) :
    (ps.map (Piece.fill entry)).flatMap Piece.chars = (ps.flatMap (Piece.marked entry)).flatMap (put entry.2) := by
  rw [List.flatMap_map, List.flatMap_assoc]
  refine List.flatMap_congr fun p _ => ?_
  cases p with
  | text t => exact (flatMap_put_some entry.2 t).symm
  | hole e =>
    rw [Piece.fill, Piece.marked]
    split
    · rename_i heq
      rw [heq]
      exact (List.append_nil _).symm
    · exact (flatMap_put_some entry.2 (placeholder e.1)).symm

theorem value_fill (entry : Text × Text) (ps : List Piece) :
    (ps.map (Piece.fill entry)).flatMap Piece.value = ps.flatMap Piece.value := by
  rw [List.flatMap_map]
  refine List.flatMap_congr fun p _ => ?_
  cases p with
  | text t => rfl
  | hole e =>
    rw [Piece.fill]
    split
    · rfl
    · rfl

theorem hole_of_fill {e : Text × Text} (h : Piece.hole e ∈ ps.map (Piece.fill entry)) :
    Piece.hole e ∈ ps ∧ e ≠ entry := by
  obtain ⟨p, hp, hfill⟩ := List.mem_map.mp h
  cases p with
  | text t => cases hfill
  | hole e' =>
    rw [Piece.fill] at hfill
    split at hfill
    · cases hfill
    · rename_i hne
      cases hfill
      exact ⟨hp, hne⟩

/-- The pass makes the holes from the line, -/
theorem chars_piecesFrom (entries : List (Text × Text)) (n : Nat) (s : Text) :
    (piecesFrom entries n s).flatMap Piece.chars = s.drop n := by
  induction s generalizing n with
  | nil => cases n <;> rfl
  | cons c s ih =>
    cases n with
    | succ n => exact ih n
    | zero =>
      rw [piecesFrom]
      split
      · rename_i entry hfind
        have hfound := List.find?_some hfind
        rw [decide_eq_true_eq] at hfound
        obtain ⟨t, ht⟩ := hfound
        rw [placeholder_append] at ht
        have hs : s = entry.1 ++ '@' :: t := (List.cons.inj ht).2.symm
        have hlen : (entry.1 ++ ['@']).length = entry.1.length + 1 := by simp
        have hsplit : s = (entry.1 ++ ['@']) ++ t := by rw [hs, List.append_assoc]; rfl
        have hdrop : s.drop (entry.1.length + 1) = t := by rw [← hlen, hsplit, List.drop_left]
        rw [List.flatMap_cons, ih, hdrop, Piece.chars, placeholder_append, ht]
        rfl
      · rw [List.flatMap_cons, ih]
        rfl

/-- and its values are those of `simultaneous`. -/
theorem value_piecesFrom (entries : List (Text × Text)) (n : Nat) (s : Text) :
    (piecesFrom entries n s).flatMap Piece.value = simultaneousFrom entries n s := by
  induction s generalizing n with
  | nil => cases n <;> rfl
  | cons c s ih =>
    cases n with
    | succ n => exact ih n
    | zero =>
      rw [piecesFrom, simultaneousFrom]
      cases entries.find? fun entry => placeholder entry.1 <+: c :: s with
      | some entry => exact (List.flatMap_cons ..).trans (congrArg (entry.2 ++ ·) (ih (entry.1.length + 1)))
      | none => exact (List.flatMap_cons ..).trans (congrArg (c :: ·) (ih 0))

theorem hole_mem_piecesFrom {n : Nat} (h : Piece.hole entry ∈ piecesFrom entries n s) : entry ∈ entries := by
  induction s generalizing n with
  | nil => cases n <;> cases h
  | cons c s ih =>
    cases n with
    | succ n => exact ih h
    | zero =>
      rw [piecesFrom] at h
      split at h
      · rename_i e hfind
        obtain heq | hmem := List.mem_cons.mp h
        · cases heq
          exact List.mem_of_find?_eq_some hfind
        · exact ih hmem
      · obtain heq | hmem := List.mem_cons.mp h
        · cases heq
        · exact ih hmem

/-- One variable that finds its own holes fills them. -/
theorem replace_chars (h : marked entry (ps.flatMap Piece.chars) = ps.flatMap (Piece.marked entry)) :
    replace (placeholder entry.1) entry.2 (ps.flatMap Piece.chars) = (ps.map (Piece.fill entry)).flatMap Piece.chars := by
  rw [replace_eq_put, h, chars_fill]

/-- **All variables fill their holes**, one after the other. -/
theorem substitute_pieces (h : untangled entries ps = true) (hps : ∀ e, Piece.hole e ∈ ps → e ∈ entries) :
    substitute entries (ps.flatMap Piece.chars) = ps.flatMap Piece.value := by
  induction entries generalizing ps with
  | nil =>
    refine List.flatMap_congr fun p hp => ?_
    cases p with
    | text t => rfl
    | hole e => exact absurd (hps e hp) List.not_mem_nil
  | cons entry entries ih =>
    rw [untangled, Bool.and_eq_true, decide_eq_true_eq] at h
    have hleft : ∀ e, Piece.hole e ∈ ps.map (Piece.fill entry) → e ∈ entries := by
      intro e he
      obtain ⟨hmem, hne⟩ := hole_of_fill he
      exact List.mem_of_ne_of_mem hne (hps e hmem)
    change substitute entries (replace (placeholder entry.1) entry.2 (ps.flatMap Piece.chars)) = _
    rw [replace_chars h.1, ih h.2 hleft, value_fill]

/-- The loop finds just the holes of each variable when these can be told apart beforehand. -/
theorem untangled_iff : untangled entries ps = true ↔ ∀ before entry after, entries = before ++ entry :: after →
    marked entry (substitute before (ps.flatMap Piece.chars)) = (filled before ps).flatMap (Piece.marked entry) := by
  induction entries generalizing ps with
  | nil => exact iff_of_true rfl fun before entry after h => absurd h.symm (by simp)
  | cons entry entries ih =>
    rw [untangled, Bool.and_eq_true, decide_eq_true_eq]
    constructor
    · rintro ⟨hfirst, hrest⟩ before entry' after hsplit
      cases before with
      | nil =>
        obtain ⟨rfl, -⟩ := List.cons.inj hsplit
        exact hfirst
      | cons e before =>
        obtain ⟨rfl, hsplit'⟩ := List.cons.inj hsplit
        have hlater := ih.mp hrest before entry' after hsplit'
        rw [← replace_chars hfirst] at hlater
        exact hlater
    · intro h
      have hfirst : marked entry (ps.flatMap Piece.chars) = ps.flatMap (Piece.marked entry) := h [] entry entries rfl
      refine ⟨hfirst, ih.mpr fun before entry' after hsplit => ?_⟩
      rw [← replace_chars hfirst]
      exact h (entry :: before) entry' after (congrArg (entry :: ·) hsplit)

end Pieces

/-! ### All placeholders at once -/

section Order
variable {raw rest : List Text} {item other : Text} {vars : Vars}

theorem simultaneous_of_single_or_self (hparse : parseVars .empty raw = .ok vars)
    (hdistinct : (raw.map (entryOf · |>.1)).Nodup)
    (h : raw.length ≤ 1 ∨ ∀ item ∈ raw, standsForItself (entryOf item)) : Simultaneous raw := by
  intro line _ order hperm vars' hparse'
  obtain ⟨result, hresult, hentries⟩ := parseVars_order hparse hdistinct hperm
  rw [hresult] at hparse'
  cases hparse'
  rw [hentries]
  rcases h with hlen | hself
  · cases raw with
    | nil =>
      rw [hperm.eq_nil]
      exact (simultaneous_self (fun e he => absurd he List.not_mem_nil) line).symm
    | cons item raw =>
      have hraw : raw = [] := List.length_eq_zero_iff.mp (by rw [List.length_cons] at hlen; omega)
      rw [hraw] at hperm ⊢
      rw [List.perm_singleton.mp hperm]
      exact substitute_single (entryOf item) line
  · have hall : ∀ entry ∈ raw.map entryOf, standsForItself entry := by
      intro entry hentry
      obtain ⟨item, hitem, rfl⟩ := List.mem_map.mp hentry
      exact hself item hitem
    rw [simultaneous_self hall]
    refine substitute_self fun entry hentry => ?_
    rw [hall entry ((hperm.map entryOf).mem_iff.mp hentry)]
    exact replace_self (placeholder_ne_nil entry.1) line

/-- Two variables whose placeholders are replaced at once, in each order: the first one stands for itself. -/
theorem standsForItself_of_pair (hparse : parseVars .empty raw = .ok vars)
    (hdistinct : (raw.map (entryOf · |>.1)).Nodup) (hplain : ∀ item ∈ raw, plainKey (entryOf item).1)
    (hsim : Simultaneous raw) (hperm : raw.Perm (item :: other :: rest)) : standsForItself (entryOf item) := by
  have hline : ∀ order : List Text, order.Perm raw → ∀ s, (∀ c ∈ s, isLineBreak c = false) →
      substitute (order.map entryOf) s = simultaneous (raw.map entryOf) s := by
    intro order horder s hs
    obtain ⟨result, hresult, hentries⟩ := parseVars_order hparse hdistinct horder
    have hall := hsim ('x' :: s) (templateLine_cons hs) order horder result hresult
    have hletter : simultaneous (raw.map entryOf) ('x' :: s) = 'x' :: simultaneous (raw.map entryOf) s :=
      simultaneous_plain (u := ['x']) (by decide) s
    rw [hentries, substitute_letter, hletter] at hall
    exact (List.cons.inj hall).2
  have hmem : item ∈ raw := hperm.mem_iff.mpr List.mem_cons_self
  have hmem' : other ∈ raw := hperm.mem_iff.mpr (List.mem_cons_of_mem _ List.mem_cons_self)
  have hfacts : ∀ i j, raw.Perm (i :: j :: rest) →
      replace (placeholder (entryOf i).1) (entryOf i).2 (entryOf j).2 = (entryOf j).2 ∧
        replace (placeholder (entryOf i).1) (entryOf i).2 ('@' :: ((entryOf i).1 ++ (entryOf j).2)) =
          (entryOf i).2 ++ ((entryOf j).1 ++ ['@']) := by
    intro i j hij
    have horder : (rest ++ [j, i]).Perm raw :=
      List.perm_append_comm.trans ((List.Perm.swap i j rest).trans hij.symm)
    have hmap : (rest ++ [j, i]).map entryOf = rest.map entryOf ++ [entryOf j, entryOf i] := by simp
    have hi : plainKey (entryOf i).1 := hplain i (hij.mem_iff.mpr (by simp))
    have hj : plainKey (entryOf j).1 := hplain j (hij.mem_iff.mpr (by simp))
    have hlone := hline _ horder (placeholder (entryOf j).1) (breakless_placeholder hj)
    have hboth := hline _ horder (placeholder (entryOf i).1 ++ (entryOf j).1 ++ ['@'])
      (breakless_append (breakless_append (breakless_placeholder hi) hj.2) (breakless_of_all rfl))
    have hkeys : ((rest.map entryOf ++ [entryOf j, entryOf i]).map Prod.fst).Nodup := by
      rw [← hmap, List.map_map]
      exact (horder.map _).nodup_iff.mpr hdistinct
    refine values_of_order ?_ hkeys (hmap ▸ horder.map entryOf) (hmap ▸ hlone) (hmap ▸ hboth)
    intro entry hentry
    rw [← hmap] at hentry
    obtain ⟨k, hk, rfl⟩ := List.mem_map.mp hentry
    exact (hplain k (horder.mem_iff.mp hk)).1
  obtain ⟨hb, hab⟩ := hfacts item other hperm
  obtain ⟨ha, hba⟩ := hfacts other item (hperm.trans (List.Perm.swap other item rest))
  exact self_of_pair (hplain item hmem).1 (hplain other hmem').1 (parseVars_items hparse other hmem').2 ha hb hab hba

theorem chars_pieces (raw : List Text) (line : Text) : (pieces raw line).flatMap Piece.chars = line :=
  (chars_piecesFrom (raw.map entryOf) 0 line).trans List.drop_zero

theorem untangled_iff_literal (raw : List Text) (line : Text) : Untangled raw line ↔ LiteralOn raw line := by
  refine forall₂_congr fun order _ => ?_
  rw [untangled_iff, chars_pieces]

/-- A line in which each variable finds its own placeholders is rendered at once. -/
theorem simultaneousOn_of_untangled (hparse : parseVars .empty raw = .ok vars)
    (hdistinct : (raw.map (entryOf · |>.1)).Nodup) {line : Text} (hline : Untangled raw line) :
    SimultaneousOn raw line := by
  intro order hperm vars' hparse'
  obtain ⟨result, hresult, hentries⟩ := parseVars_order hparse hdistinct hperm
  rw [hresult] at hparse'
  cases hparse'
  have hholes : ∀ e, Piece.hole e ∈ pieces raw line → e ∈ order.map entryOf := fun e he =>
    (hperm.map entryOf).mem_iff.mpr (hole_mem_piecesFrom he)
  have hvalues := substitute_pieces (hline order hperm) hholes
  rw [chars_pieces] at hvalues
  rw [hentries, hvalues]
  exact value_piecesFrom (raw.map entryOf) 0 line

/-- **The placeholders are replaced at once**, in all lines and whatever the order of the options, where there is one
option or where each variable stands for itself; for keys that can be told apart in a line there is no other case. A
single line is rendered at once where each variable finds its own placeholders in it, and on any other line some
variable is put in the place of something else, or misses one of them. -/
theorem simultaneous_iff (raw : List Text) (vars : Vars) (hparse : parseVars .empty raw = .ok vars)
    (hdistinct : (raw.map (entryOf · |>.1)).Nodup) :
    ((raw.length ≤ 1 ∨ ∀ item ∈ raw, standsForItself (entryOf item)) → Simultaneous raw) ∧
      ((∀ item ∈ raw, plainKey (entryOf item).1) → Simultaneous raw →
        raw.length ≤ 1 ∨ ∀ item ∈ raw, standsForItself (entryOf item)) ∧
      ∀ line, (Untangled raw line → SimultaneousOn raw line) ∧ (Untangled raw line ↔ LiteralOn raw line) := by
  refine ⟨simultaneous_of_single_or_self hparse hdistinct, fun hplain hsim => ?_,
    fun line => ⟨simultaneousOn_of_untangled hparse hdistinct, untangled_iff_literal raw line⟩⟩
  by_cases hlen : raw.length ≤ 1
  · exact Or.inl hlen
  · refine Or.inr fun item hitem => ?_
    have hperm := List.perm_cons_erase hitem
    cases hothers : raw.erase item with
    | nil =>
      rw [hothers] at hperm
      exact absurd (Nat.le_of_eq hperm.length_eq) hlen
    | cons other rest =>
      rw [hothers] at hperm
      exact standsForItself_of_pair hparse hdistinct hplain hsim hperm

/-- One option, whose value has the placeholder in it; and two options in a line with another `@`. -/
theorem simultaneous_single :
    Simultaneous ["A=x@A@".toList] ∧ SimultaneousOn ["A=x".toList, "B=y".toList] "root@camera @A@".toList := by
  obtain ⟨vars, hvars, -⟩ := @parseVars_eq_ok .empty ["A=x@A@".toList] (by decide) (by decide)
  obtain ⟨vars', hvars', -⟩ := @parseVars_eq_ok .empty ["A=x".toList, "B=y".toList] (by decide) (by decide)
  exact ⟨(simultaneous_iff _ vars hvars (by decide)).1 (Or.inl (by decide)),
    ((simultaneous_iff _ vars' hvars' (by decide)).2.2 _).1 (by decide)⟩

/-- A value with the placeholder of a later option is not put in as it is. -/
theorem nested_value_rendered :
    (["A=@B@".toList, "B=x".toList].map (entryOf · |>.1)).Nodup ∧ ¬Simultaneous ["A=@B@".toList, "B=x".toList] := by
  refine ⟨by decide, fun h => ?_⟩
  obtain ⟨vars, hvars, hentries⟩ := @parseVars_eq_ok .empty ["A=@B@".toList, "B=x".toList]
    (by decide) (by decide)
  have hline := h "x@A@".toList (templateLine_cons (breakless_of_all (by decide))) _ (List.Perm.refl _) vars hvars
  rw [hentries] at hline
  exact absurd hline (by decide)

end Order

end Thingino.Scripts
