import Thingino.Lib.JsonText
import Thingino.Lib.Lines
import Thingino.Lib.Shell

/-! The switches of the entities.

`_ha_enabled_load` prints the object under `ha` once, and `sed` takes the line of each member that looks like a switch;
the lines of the members of what is nested look the same. A switch that was not seen is read with its own
`jct get`. -/
namespace Thingino.Ha
open Lib Lib.Shell Lib.JsonText

/-- `[a-z]`. -/
def isLetter (b : Byte) : Bool := 97 ≤ b.toNat && b.toNat ≤ 122

/-- `[a-z0-9_]`. -/
def isWord (b : Byte) : Bool := isLetter b || isDigit b || b = 95

/-- The name of an entity. -/
structure EntityName where
  name : List Byte
  plain : name.all isWord = true

/-- The object under `ha`. -/
structure Object where
  members : List (List Byte × JsonText.Value)
  distinct : (members.map Prod.fst).Nodup

/-- How `jct` writes: the blanks in front of what is in some depth, a text between its quotes, a number; and what
`jct get` prints of a member, which may be missing. -/
structure Jct where
  indent : Nat → List Byte
  quoted : List Byte → List Byte
  number : List Byte → List Byte
  get : Option JsonText.Value → List Byte
  indent_space : ∀ depth, (indent depth).all isSpace = true
  quoted_chars : ∀ s, Chars (quoted s) s
  quoted_word : ∀ s : List Byte, s.all isWord = true → quoted s = s
  number_head : ∀ literal, ∃ b s, number literal = b :: s ∧ (isDigit b = true ∨ b = 45)
  get_bool : ∀ b, get (some (.bool b)) = ascii (if b then "true\n" else "false\n")

/-! ### The printed object -/

/-- What stands of a value in the line in which it begins. -/
def Jct.first (j : Jct) : JsonText.Value → List Byte
  | .null => ascii "null"
  | .bool b => ascii (if b then "true" else "false")
  | .number literal => j.number literal
  | .string text => 34 :: (j.quoted text ++ [34])
  | .array [] => ascii "[]"
  | .array _ => [91]
  | .object [] => ascii "\x7b\x7d"
  | .object _ => [123]

mutual

/-- The lines of a value, with what stands in front of it and behind it. -/
def Jct.lines (j : Jct) (depth : Nat) (lead behind : List Byte) : JsonText.Value → List (List Byte)
  | .array (v :: vs) =>
    (lead ++ [91]) :: (j.elementLines (depth + 1) (v :: vs) ++ [j.indent depth ++ 93 :: behind])
  | .object (m :: ms) =>
    (lead ++ [123]) :: (j.memberLines (depth + 1) (m :: ms) ++ [j.indent depth ++ 125 :: behind])
  | v => [lead ++ j.first v ++ behind]

def Jct.elementLines (j : Jct) (depth : Nat) : List JsonText.Value → List (List Byte)
  | [] => []
  | v :: vs => j.lines depth (j.indent depth) (if vs.isEmpty then [] else [44]) v ++ j.elementLines depth vs

def Jct.memberLines (j : Jct) (depth : Nat) : List (List Byte × JsonText.Value) → List (List Byte)
  | [] => []
  | (key, v) :: ms =>
    j.lines depth (j.indent depth ++ 34 :: (j.quoted key ++ [34, 58, 32])) (if ms.isEmpty then [] else [44]) v ++
      j.memberLines depth ms

end

/-- `jct get ha`. -/
def Jct.getHa (j : Jct) (ha : Object) : List (List Byte) := j.lines 0 [] [] (.object ha.members)

/-! ### The script -/

/-- `[[:space:]]*:[[:space:]]*\([a-z]*\).*`. -/
def sedWord (s : List Byte) : Option (List Byte) :=
  match s.dropWhile isSpace with
  | 58 :: t => some ((t.dropWhile isSpace).takeWhile isLetter)
  | _ => none

/-- `s/^[[:space:]]*"enable_\([a-z0-9_]*\)"[[:space:]]*:[[:space:]]*\([a-z]*\).*/\1=\2/p`. -/
def sedFlag (line : List Byte) : Option (List Byte × List Byte) :=
  let s := line.dropWhile isSpace
  if 34 :: ascii "enable_" <+: s then
    let s := s.drop 8
    match s.dropWhile isWord with
    | 34 :: t => (sedWord t).map fun word => (s.takeWhile isWord, word)
    | _ => none
  else none

/-- `_ha_enabled_load`. -/
def haEnabledLoad (j : Jct) (ha : Object) (cache : List Byte) : List Byte :=
  if cache ≠ [] then cache
  else
    let printed := ((j.getHa ha).filterMap sedFlag).flatMap fun flag => flag.1 ++ 61 :: flag.2 ++ [10]
    let blanked := printed.map fun b => if b = 10 then 32 else b
    32 :: (output blanked ++ [32])

/-- `ha_cfg`, put into a variable. -/
def haCfg (j : Jct) (ha : Object) (key : List Byte) : List Byte :=
  output ((j.get (ha.members.lookup key)).filter (· ≠ 34))

/-- `[ "$val" != "false" ]` for `ha_cfg "enable_$1"`. -/
def directEnabled (j : Jct) (ha : Object) (e : EntityName) : Bool :=
  haCfg j ha (ascii "enable_" ++ e.name) ≠ ascii "false"

/-- `ha_entity_enabled`, and the cache behind it. -/
def haEntityEnabled (j : Jct) (ha : Object) (cache : List Byte) (e : EntityName) : Bool × List Byte :=
  let cache := haEnabledLoad j ha cache
  if 32 :: (e.name ++ ascii "=false ") <:+: cache then (false, cache)
  else if 32 :: (e.name ++ ascii "=true ") <:+: cache then (true, cache)
  else (directEnabled j ha e, cache)

/-- The cache of a process that has asked for some entities. -/
def cacheAfter (j : Jct) (ha : Object) (earlier : List EntityName) : List Byte :=
  earlier.foldl (fun cache e => (haEntityEnabled j ha cache e).2) []

/-- The answer that it gets for one more. -/
def enabledAfter (j : Jct) (ha : Object) (earlier : List EntityName) (e : EntityName) : Bool :=
  (haEntityEnabled j ha (cacheAfter j ha earlier) e).1

/-! ### What the script sees -/

mutual

/-- The members of a value, in whatever depth. -/
def inside : JsonText.Value → List (List Byte × JsonText.Value)
  | .array vs => insideElements vs
  | .object ms => insideMembers ms
  | _ => []

def insideElements : List JsonText.Value → List (List Byte × JsonText.Value)
  | [] => []
  | v :: vs => inside v ++ insideElements vs

def insideMembers : List (List Byte × JsonText.Value) → List (List Byte × JsonText.Value)
  | [] => []
  | (key, v) :: ms => (key, v) :: (inside v ++ insideMembers ms)

end

/-- The entity that a key switches. -/
def switched (key : List Byte) : Option (List Byte) :=
  if ascii "enable_" <+: key ∧ (key.drop 7).all isWord = true then some (key.drop 7) else none

/-- The letters with which a value begins. -/
def letters : JsonText.Value → List Byte
  | .null => ascii "null"
  | .bool b => ascii (if b then "true" else "false")
  | _ => []

def flagOf (m : List Byte × JsonText.Value) : Option (List Byte × List Byte) :=
  (switched m.1).map fun name => (name, letters m.2)

section Seen
variable {j : Jct} {blanks s : List Byte}

theorem dropWhile_blanks (h : blanks.all isSpace = true) {b : Byte} (hb : isSpace b = false) (s : List Byte) :
    (blanks ++ b :: s).dropWhile isSpace = b :: s := by
  rw [List.dropWhile_append_of_pos (List.all_eq_true.mp h), List.dropWhile_cons_of_neg (Bool.eq_false_iff.mp hb)]

/-- A line that does not begin with a quote has no switch. -/
theorem sedFlag_unquoted (h : blanks.all isSpace = true) {b : Byte} (hb : isSpace b = false) (hquote : b ≠ 34) :
    sedFlag (blanks ++ b :: s) = none := by
  have hno : ¬34 :: ascii "enable_" <+: b :: s := fun hprefix => hquote (List.cons_prefix_cons.mp hprefix).1.symm
  rw [sedFlag, dropWhile_blanks h hb]
  exact if_neg hno

theorem quote_notMem_enable : (34 : Byte) ∉ ascii "enable_" := by decide

theorem all_enable {name : List Byte} (h : name.all isWord = true) : (ascii "enable_" ++ name).all isWord = true := by
  rw [List.all_append, h, Bool.and_true]
  decide

theorem of_switched {key name : List Byte} (h : switched key = some name) :
    key = ascii "enable_" ++ name ∧ name.all isWord = true := by
  unfold switched at h
  split at h
  · rename_i hkey
    obtain ⟨⟨r, rfl⟩, hword⟩ := hkey
    obtain rfl : r = name := Option.some.inj h
    exact ⟨rfl, hword⟩
  · exact absurd h.symm (Option.some_ne_none _)

/-- A key that switches an entity is written as it is, -/
theorem quoted_of_switched {key name : List Byte} (h : switched key = some name) :
    j.quoted key = ascii "enable_" ++ name := by
  obtain ⟨rfl, hword⟩ := of_switched h
  exact j.quoted_word _ (all_enable hword)

/-- and no other key is written so. -/
theorem switched_of_quoted {key name : List Byte} (h : j.quoted key = ascii "enable_" ++ name)
    (hword : name.all isWord = true) : switched key = some name := by
  have hback : 92 ∉ j.quoted key := by
    intro hmem
    rw [h] at hmem
    have hno := List.all_eq_true.mp (all_enable hword) 92 hmem
    exact absurd hno (by decide)
  obtain rfl : key = ascii "enable_" ++ name := (chars_eq (j.quoted_chars key) hback).trans h
  exact if_pos ⟨List.prefix_append _ _, hword⟩

theorem not_prefix_quoted {q u : List Byte} (h : ¬ascii "enable_" <+: q) :
    ¬34 :: ascii "enable_" <+: 34 :: (q ++ 34 :: u) := by
  intro hprefix
  have hprefix := (List.cons_prefix_cons.mp hprefix).2
  obtain hin | ⟨t, ht⟩ := List.prefix_or_prefix_of_prefix hprefix (List.prefix_append q (34 :: u))
  · exact h hin
  · rw [← ht, List.prefix_append_right_inj] at hprefix
    cases t with
    | nil => exact h ⟨[], by rw [← ht, List.append_nil, List.append_nil]⟩
    | cons b t =>
      obtain rfl := (List.cons_prefix_cons.mp hprefix).1
      exact quote_notMem_enable (ht ▸ List.mem_append_right q List.mem_cons_self)

/-- The quoted text with which a line begins is a switch, or the line has none. -/
theorem sedFlag_quoted (h : blanks.all isSpace = true) (text u : List Byte) :
    sedFlag (blanks ++ 34 :: (j.quoted text ++ 34 :: u)) =
      (switched text).bind fun name => (sedWord u).map fun word => (name, word) := by
  rw [sedFlag, dropWhile_blanks h (by decide)]
  by_cases henable : ascii "enable_" <+: j.quoted text
  · obtain ⟨r, hr⟩ := henable
    have hdrop : (34 :: (j.quoted text ++ 34 :: u)).drop 8 = r ++ 34 :: u := by
      rw [← hr]
      rfl
    have hprefix : 34 :: ascii "enable_" <+: 34 :: (j.quoted text ++ 34 :: u) :=
      ⟨r ++ 34 :: u, by rw [← hr]; rfl⟩
    simp only [if_pos hprefix, hdrop]
    by_cases hword : r.all isWord = true
    · have hall := List.all_eq_true.mp hword
      rw [switched_of_quoted hr.symm hword, List.dropWhile_append_of_pos hall, List.takeWhile_append_of_pos hall,
        List.dropWhile_cons_of_neg (by decide), List.takeWhile_cons_of_neg (by decide), List.append_nil]
      rfl
    · have hnone : switched text = none := Option.eq_none_iff_forall_ne_some.mpr fun name hname => by
        exact hword (List.append_cancel_left (hr.trans (quoted_of_switched hname)) ▸ (of_switched hname).2)
      -- The run of the name ends inside the text, at a byte that is no quote.
      have hsplit : r.takeWhile isWord ++ r.dropWhile isWord = r := List.takeWhile_append_dropWhile
      have hhead := List.head?_dropWhile_not isWord r
      cases hrest : r.dropWhile isWord with
      | nil =>
        rw [hrest, List.append_nil] at hsplit
        exact absurd (List.all_eq_true.mpr fun b hb => List.mem_takeWhile_imp (hsplit.symm ▸ hb)) hword
      | cons c rest =>
        have hc : c ≠ 34 := by
          rintro rfl
          have hchars := j.quoted_chars text
          rw [← hr, ← hsplit, hrest, ← List.append_assoc] at hchars
          have hmem := List.all_eq_true.mp (all_enable (List.all_eq_true.mpr fun b hb => List.mem_takeWhile_imp hb)) 92
            (mem_of_chars hchars)
          exact absurd hmem (by decide)
        have hdropWhile : (r ++ 34 :: u).dropWhile isWord = c :: (rest ++ 34 :: u) := by
          rw [List.dropWhile_append, hrest]
          rfl
        rw [hdropWhile, hnone]
        split
        · rename_i heq
          exact absurd (List.cons.inj heq).1 hc
        · rfl
  · have hnone : switched text = none := Option.eq_none_iff_forall_ne_some.mpr fun name hname =>
      henable (quoted_of_switched (j := j) hname ▸ List.prefix_append _ _)
    rw [hnone]
    exact if_neg (not_prefix_quoted henable)

/-- What may stand behind a value in its line. -/
def Ending (behind : List Byte) : Prop := behind = [] ∨ behind = [44]

theorem ending_comma (last : Bool) : Ending (if last then [] else [44]) := by
  cases last
  · exact .inr rfl
  · exact .inl rfl

theorem isSpace_digit {b : Byte} (h : isDigit b = true ∨ b = 45) : isSpace b = false ∧ b ≠ 34 ∧ isLetter b = false := by
  revert b
  decide

/-- What a value begins with, when it is no text. -/
theorem first_cases (v : JsonText.Value) : (∃ text, v = .string text) ∨
    ∃ b s, j.first v = b :: s ∧ isSpace b = false ∧ b ≠ 34 := by
  cases v with
  | string text => exact .inl ⟨text, rfl⟩
  | null => exact .inr ⟨_, _, rfl, by decide, by decide⟩
  | bool b => cases b <;> exact .inr ⟨_, _, rfl, by decide, by decide⟩
  | number literal =>
    obtain ⟨b, s, hnumber, hb⟩ := j.number_head literal
    exact .inr ⟨b, s, hnumber, (isSpace_digit hb).1, (isSpace_digit hb).2.1⟩
  | array vs => cases vs <;> exact .inr ⟨_, _, rfl, by decide, by decide⟩
  | object ms => cases ms <;> exact .inr ⟨_, _, rfl, by decide, by decide⟩

/-- An element of an array has no switch in its line. -/
theorem sedFlag_element (h : blanks.all isSpace = true) (v : JsonText.Value) {behind : List Byte}
    (hbehind : Ending behind) :
    sedFlag (blanks ++ j.first v ++ behind) = none := by
  obtain ⟨text, rfl⟩ | ⟨b, s, hfirst, hspace, hquote⟩ := first_cases (j := j) v
  · have hline : blanks ++ j.first (.string text) ++ behind = blanks ++ 34 :: (j.quoted text ++ 34 :: behind) := by
      simp only [Jct.first, List.append_assoc, List.cons_append, List.nil_append]
    have hnone : sedWord behind = none := by
      obtain rfl | rfl := hbehind <;> rfl
    rw [hline, sedFlag_quoted h, hnone]
    exact Option.bind_fun_none _
  · rw [hfirst, List.append_assoc, List.cons_append]
    exact sedFlag_unquoted h hspace hquote

/-- The letters behind the colon of a member. -/
theorem sedWord_first (v : JsonText.Value) {behind : List Byte} (hbehind : Ending behind) :
    sedWord (58 :: 32 :: (j.first v ++ behind)) = some (letters v) := by
  cases v with
  | null => obtain rfl | rfl := hbehind <;> rfl
  | bool b => cases b <;> obtain rfl | rfl := hbehind <;> rfl
  | string text => rfl
  | number literal =>
    obtain ⟨b, s, hnumber, hb⟩ := j.number_head literal
    obtain ⟨hspace, -, hletter⟩ := isSpace_digit hb
    have hdrop : (32 :: (b :: s ++ behind)).dropWhile isSpace = b :: s ++ behind := by
      rw [List.dropWhile_cons_of_pos (by decide), List.cons_append,
        List.dropWhile_cons_of_neg (Bool.eq_false_iff.mp hspace)]
    have hword : sedWord (58 :: 32 :: (b :: s ++ behind)) = some ((b :: s ++ behind).takeWhile isLetter) :=
      congrArg (fun t => some (List.takeWhile isLetter t)) hdrop
    rw [Jct.first, hnumber, hword, List.cons_append, List.takeWhile_cons_of_neg (Bool.eq_false_iff.mp hletter)]
    rfl
  | array vs => cases vs <;> rfl
  | object ms => cases ms <;> rfl

/-- The line of a member has its switch. -/
theorem sedFlag_member (h : blanks.all isSpace = true) (key : List Byte) (v : JsonText.Value) {behind : List Byte}
    (hbehind : Ending behind) :
    sedFlag (blanks ++ 34 :: (j.quoted key ++ [34, 58, 32]) ++ j.first v ++ behind) = flagOf (key, v) := by
  have hline : blanks ++ 34 :: (j.quoted key ++ [34, 58, 32]) ++ j.first v ++ behind =
      blanks ++ 34 :: (j.quoted key ++ 34 :: 58 :: 32 :: (j.first v ++ behind)) := by
    simp only [List.append_assoc, List.cons_append, List.nil_append]
  rw [hline, sedFlag_quoted h, sedWord_first v hbehind]
  cases hkey : switched key with
  | none => simp only [flagOf, hkey, Option.bind_none, Option.map_none]
  | some name => simp only [flagOf, hkey, Option.bind_some, Option.map_some]

/-- A line that closes a value has no switch. -/
theorem filterMap_closing (depth : Nat) {b : Byte} (hb : isSpace b = false) (hquote : b ≠ 34) (behind : List Byte) :
    [j.indent depth ++ b :: behind].filterMap sedFlag = [] :=
  List.filterMap_cons_none (sedFlag_unquoted (j.indent_space depth) hb hquote)

mutual

/-- The script sees the first line of a value, and the members inside it. -/
theorem sedFlag_lines (v : JsonText.Value) {depth : Nat} {lead behind : List Byte}
    {flag : Option (List Byte × List Byte)} (hbehind : Ending behind)
    (hfirst : ∀ tail, Ending tail → sedFlag (lead ++ j.first v ++ tail) = flag) :
    (j.lines depth lead behind v).filterMap sedFlag = flag.toList ++ (inside v).filterMap flagOf := by
  have hopen (h : sedFlag (lead ++ j.first v ++ []) = flag) (ls : List (List Byte)) :
      ((lead ++ j.first v) :: ls).filterMap sedFlag = flag.toList ++ ls.filterMap sedFlag := by
    rw [List.append_nil] at h
    cases flag with
    | none => rw [List.filterMap_cons_none h]; rfl
    | some f => rw [List.filterMap_cons_some h]; rfl
  have hflat (hinside : inside v = []) : [lead ++ j.first v ++ behind].filterMap sedFlag =
      flag.toList ++ (inside v).filterMap flagOf := by
    rw [hinside, ← hfirst behind hbehind]
    cases hflag : sedFlag (lead ++ j.first v ++ behind) with
    | none => rw [List.filterMap_cons_none hflag]; rfl
    | some f => rw [List.filterMap_cons_some hflag]; rfl
  cases v with
  | null => exact hflat rfl
  | bool b => exact hflat rfl
  | number literal => exact hflat rfl
  | string text => exact hflat rfl
  | array vs =>
    cases vs with
    | nil => exact hflat rfl
    | cons v vs =>
      have hrest : (j.elementLines (depth + 1) (v :: vs)).filterMap sedFlag =
          (insideElements (v :: vs)).filterMap flagOf := sedFlag_elements (v :: vs)
      have hlines : j.lines depth lead behind (.array (v :: vs)) = (lead ++ j.first (.array (v :: vs))) ::
          (j.elementLines (depth + 1) (v :: vs) ++ [j.indent depth ++ 93 :: behind]) := rfl
      rw [hlines, hopen (hfirst [] (.inl rfl)), List.filterMap_append, hrest,
        filterMap_closing depth (by decide) (by decide), List.append_nil]
      rfl
  | object ms =>
    cases ms with
    | nil => exact hflat rfl
    | cons m ms =>
      have hrest : (j.memberLines (depth + 1) (m :: ms)).filterMap sedFlag =
          (insideMembers (m :: ms)).filterMap flagOf := sedFlag_members (m :: ms)
      have hlines : j.lines depth lead behind (.object (m :: ms)) = (lead ++ j.first (.object (m :: ms))) ::
          (j.memberLines (depth + 1) (m :: ms) ++ [j.indent depth ++ 125 :: behind]) := rfl
      rw [hlines, hopen (hfirst [] (.inl rfl)), List.filterMap_append, hrest,
        filterMap_closing depth (by decide) (by decide), List.append_nil]
      rfl

theorem sedFlag_elements (vs : List JsonText.Value) {depth : Nat} :
    (j.elementLines depth vs).filterMap sedFlag = (insideElements vs).filterMap flagOf := by
  cases vs with
  | nil => rfl
  | cons v vs =>
    have hblanks := j.indent_space depth
    rw [Jct.elementLines, List.filterMap_append, sedFlag_elements vs,
      sedFlag_lines v (ending_comma _) fun _ htail => sedFlag_element hblanks v htail, insideElements,
      List.filterMap_append]
    rfl

theorem sedFlag_members (ms : List (List Byte × JsonText.Value)) {depth : Nat} :
    (j.memberLines depth ms).filterMap sedFlag = (insideMembers ms).filterMap flagOf := by
  cases ms with
  | nil => rfl
  | cons m ms =>
    obtain ⟨key, v⟩ := m
    have hblanks := j.indent_space depth
    rw [Jct.memberLines, List.filterMap_append, sedFlag_members ms,
      sedFlag_lines v (ending_comma _) fun _ htail => sedFlag_member hblanks key v htail, insideMembers,
      List.filterMap_cons, List.filterMap_append, List.append_assoc]
    cases flagOf (key, v) <;> rfl

end

end Seen

/-! ### The cache -/

section Cache
variable {j : Jct} {ha : Object}

/-- The key that switches an entity. -/
def EntityName.key (e : EntityName) : List Byte := ascii "enable_" ++ e.name

theorem switched_key (e : EntityName) : switched e.key = some e.name := if_pos ⟨List.prefix_append _ _, e.plain⟩

theorem letters_bool {v : JsonText.Value} {b : Bool} (h : letters v = ascii (if b then "true" else "false")) :
    v = .bool b := by
  have hne : ascii (if b then "true" else "false") ≠ [] := by cases b <;> decide
  cases v with
  | bool b' => cases b <;> cases b' <;> first | rfl | exact absurd h (by decide)
  | null => cases b <;> exact absurd h (by decide)
  | number literal => exact absurd h.symm hne
  | string text => exact absurd h.symm hne
  | array vs => exact absurd h.symm hne
  | object ms => exact absurd h.symm hne

/-- The switches that the script prints are those of the members in any depth. -/
theorem sedFlag_getHa (j : Jct) (ha : Object) :
    (j.getHa ha).filterMap sedFlag = (insideMembers ha.members).filterMap flagOf :=
  have hblanks : ([] : List Byte).all isSpace = true := rfl
  sedFlag_lines (.object ha.members) (.inl rfl) fun _ htail => sedFlag_element hblanks _ htail

/-- The words of the cache. -/
def entries (ha : Object) : List (List Byte) :=
  ((insideMembers ha.members).filterMap flagOf).map fun flag => flag.1 ++ 61 :: flag.2

theorem all_letters (v : JsonText.Value) : (letters v).all isWord = true := by
  cases v with
  | bool b => cases b <;> rfl
  | _ => rfl

/-- There is no white space in a word. -/
theorem notMem_entry {b : Byte} (hb : isWord b = false ∧ b ≠ 61) {w : List Byte} (hw : w ∈ entries ha) : b ∉ w := by
  obtain ⟨flag, hflag, rfl⟩ := List.mem_map.mp hw
  obtain ⟨m, -, hm⟩ := List.mem_filterMap.mp hflag
  obtain ⟨name, hname, rfl⟩ := Option.map_eq_some_iff.mp hm
  have hword := (of_switched hname).2
  intro hmem
  obtain hmem | hmem := List.mem_append.mp hmem
  · exact Bool.eq_false_iff.mp hb.1 (List.all_eq_true.mp hword b hmem)
  · obtain heq | hmem := List.mem_cons.mp hmem
    · exact hb.2 heq
    · exact Bool.eq_false_iff.mp hb.1 (List.all_eq_true.mp (all_letters m.2) b hmem)

/-- The cache is the words with blanks around them. -/
theorem haEnabledLoad_nil (j : Jct) (ha : Object) :
    haEnabledLoad j ha [] = 32 :: ((entries ha).flatMap (· ++ [32]) ++ [32]) := by
  have hprinted : ((j.getHa ha).filterMap sedFlag).flatMap (fun flag => flag.1 ++ 61 :: flag.2 ++ [10]) =
      (entries ha).flatMap (· ++ [10]) := by
    rw [sedFlag_getHa, entries, List.flatMap_map]
  have hblanked : ((entries ha).flatMap (· ++ [10])).map (fun b => if b = 10 then 32 else b) =
      (entries ha).flatMap (· ++ [(32 : Byte)]) := by
    rw [List.map_flatMap]
    refine List.flatMap_congr fun w hw => ?_
    have hword : w.map (fun b => if b = 10 then (32 : Byte) else b) = w.map id :=
      List.map_congr_left fun b hb => if_neg fun heq : b = 10 => notMem_entry (by decide) hw (heq ▸ hb)
    rw [List.map_append, hword, List.map_id]
    rfl
  have hend : ((entries ha).flatMap (· ++ [(32 : Byte)])).getLast? ≠ some 10 := by
    intro hlast
    obtain ⟨w, hw, hmem⟩ := List.mem_flatMap.mp (List.mem_of_getLast? hlast)
    obtain hmem | hmem := List.mem_append.mp hmem
    · exact notMem_entry (by decide) hw hmem
    · exact absurd (List.mem_singleton.mp hmem) (by decide)
  unfold haEnabledLoad
  rw [if_neg (not_not_intro rfl), hprinted]
  dsimp only
  rw [hblanked, output_eq_self hend]

theorem mem_entries_iff {e : EntityName} {b : Bool} :
    e.name ++ 61 :: ascii (if b then "true" else "false") ∈ entries ha ↔
      (e.key, .bool b) ∈ insideMembers ha.members := by
  constructor
  · intro h
    obtain ⟨flag, hflag, heq⟩ := List.mem_map.mp h
    obtain ⟨⟨key, v⟩, hm, hswitch⟩ := List.mem_filterMap.mp hflag
    obtain ⟨name, hname, rfl⟩ := Option.map_eq_some_iff.mp hswitch
    have hno {s : List Byte} (hs : s.all isWord = true) : 61 ∉ s := fun hmem =>
      absurd (List.all_eq_true.mp hs 61 hmem) (by decide)
    obtain rfl : name = e.name := Lines.cut_unique (hno (of_switched hname).2) (hno e.plain) heq
    have hletters : letters v = _ := (List.cons.inj (List.append_cancel_left heq)).2
    obtain rfl : key = e.key := (of_switched hname).1
    rwa [letters_bool hletters] at hm
  · intro hm
    have hflag : flagOf (e.key, .bool b) = some (e.name, ascii (if b then "true" else "false")) := by
      rw [flagOf, switched_key]
      rfl
    exact List.mem_map.mpr ⟨_, List.mem_filterMap.mpr ⟨_, hm, hflag⟩, rfl⟩

/-- `*" $1=false "*` and `*" $1=true "*`. -/
theorem cached_iff (j : Jct) {e : EntityName} {b : Bool} :
    32 :: (e.name ++ ascii (if b then "=true " else "=false ")) <:+: haEnabledLoad j ha [] ↔
      (e.key, .bool b) ∈ insideMembers ha.members := by
  have hshape : ascii (if b then "=true " else "=false ") = 61 :: ascii (if b then "true" else "false") ++ [32] := by
    cases b <;> rfl
  have hblank : 32 ∉ e.name ++ 61 :: ascii (if b then "true" else "false") := by
    intro hmem
    obtain hmem | hmem := List.mem_append.mp hmem
    · exact absurd (List.all_eq_true.mp e.plain 32 hmem) (by decide)
    · cases b <;> exact absurd hmem (by decide)
  have hne : e.name ++ 61 :: ascii (if b then "true" else "false") ≠ [] := fun h =>
    List.cons_ne_nil _ _ (List.append_eq_nil_iff.mp h).2
  rw [haEnabledLoad_nil, hshape, ← List.append_assoc,
    Lines.infix_words_iff hblank hne fun w hw => notMem_entry (by decide) hw, mem_entries_iff]

/-- The cache is loaded once. -/
theorem haEnabledLoad_again (j : Jct) (ha : Object) :
    haEnabledLoad j ha (haEnabledLoad j ha []) = haEnabledLoad j ha [] := by
  have hne : haEnabledLoad j ha [] ≠ [] := haEnabledLoad_nil j ha ▸ List.cons_ne_nil _ _
  exact if_pos hne

theorem haEntityEnabled_cache (j : Jct) (ha : Object) (cache : List Byte) (e : EntityName) :
    (haEntityEnabled j ha cache e).2 = haEnabledLoad j ha cache := by
  unfold haEntityEnabled
  dsimp only
  split
  · rfl
  · split <;> rfl

theorem cacheAfter_eq (j : Jct) (ha : Object) (earlier : List EntityName) :
    haEnabledLoad j ha (cacheAfter j ha earlier) = haEnabledLoad j ha [] := by
  induction earlier using List.reverseRecOn with
  | nil => rfl
  | append_singleton earlier e ih =>
    have hstep : cacheAfter j ha (earlier ++ [e]) = (haEntityEnabled j ha (cacheAfter j ha earlier) e).2 := by
      rw [cacheAfter, List.foldl_append]
      rfl
    rw [hstep, haEntityEnabled_cache, ih, haEnabledLoad_again]

/-- An answer does not depend on the ones before it. -/
theorem enabledAfter_eq (j : Jct) (ha : Object) (earlier : List EntityName) (e : EntityName) :
    enabledAfter j ha earlier e = enabledAfter j ha [] e := by
  have hload := cacheAfter_eq j ha earlier
  unfold enabledAfter haEntityEnabled
  rw [hload]
  rfl

end Cache

/-! ### The direct test -/

section Direct
variable {j : Jct} {ha : Object} {e : EntityName}

/-- Some member of what is nested switches the entity. -/
def Nested (ha : Object) (e : EntityName) (b : Bool) : Prop := ∃ m ∈ ha.members, (e.key, .bool b) ∈ inside m.2

theorem mem_insideMembers_iff {m : List Byte × JsonText.Value} {ms : List (List Byte × JsonText.Value)} :
    m ∈ insideMembers ms ↔ m ∈ ms ∨ ∃ n ∈ ms, m ∈ inside n.2 := by
  induction ms with
  | nil => exact iff_of_false List.not_mem_nil (by rintro (h | ⟨n, hn, -⟩) <;> contradiction)
  | cons n ms ih =>
    rw [insideMembers, List.mem_cons, List.mem_append, ih, List.mem_cons, List.exists_mem_cons_iff]
    tauto

theorem lookup_iff_mem {ms : List (List Byte × JsonText.Value)} {key : List Byte} {v : JsonText.Value}
    (h : (ms.map Prod.fst).Nodup) :
    ms.lookup key = some v ↔ (key, v) ∈ ms := by
  induction ms with
  | nil => exact iff_of_false (fun hnone => absurd hnone.symm (Option.some_ne_none _)) List.not_mem_nil
  | cons n ms ih =>
    obtain ⟨name, w⟩ := n
    obtain ⟨hfresh, hnodup⟩ := List.nodup_cons.mp h
    rw [List.mem_cons, Prod.mk.injEq]
    by_cases hkey : key = name
    · subst hkey
      rw [List.lookup_cons_self, Option.some_inj, eq_comm]
      exact ⟨fun hv => .inl ⟨rfl, hv⟩, fun hv => hv.elim And.right fun hmem =>
        absurd (List.mem_map_of_mem hmem) hfresh⟩
    · rw [List.lookup_cons, beq_false_of_ne hkey, ih hnodup]
      exact ⟨.inr, fun hv => hv.resolve_left fun heq => hkey heq.1⟩

theorem mem_inside_object_iff {b : Bool} :
    (e.key, .bool b) ∈ insideMembers ha.members ↔ ha.members.lookup e.key = some (.bool b) ∨ Nested ha e b := by
  rw [mem_insideMembers_iff, lookup_iff_mem ha.distinct]
  rfl

/-- A boolean is read as it is. -/
theorem haCfg_bool {b : Bool} (h : ha.members.lookup e.key = some (.bool b)) : directEnabled j ha e = b := by
  have hcfg : haCfg j ha (ascii "enable_" ++ e.name) = ascii (if b then "true" else "false") := by
    unfold haCfg
    change ha.members.lookup (ascii "enable_" ++ e.name) = _ at h
    rw [h, j.get_bool]
    cases b <;> rfl
  rw [directEnabled, hcfg]
  cases b <;> rfl

/-- The answer, and the members that it depends on. -/
theorem enabledAfter_nil (j : Jct) (ha : Object) (e : EntityName) : enabledAfter j ha [] e =
    if 32 :: (e.name ++ ascii "=false ") <:+: haEnabledLoad j ha [] then false
    else if 32 :: (e.name ++ ascii "=true ") <:+: haEnabledLoad j ha [] then true
    else directEnabled j ha e := by
  unfold enabledAfter haEntityEnabled cacheAfter
  dsimp only [List.foldl_nil]
  split
  · rfl
  · split <;> rfl

/-- A member whose printed value is `false` without its quotes: the boolean, and texts. -/
def ReadsFalse (j : Jct) (v : Option JsonText.Value) : Prop := output ((j.get v).filter (· ≠ 34)) = ascii "false"

theorem directEnabled_eq_false_iff : directEnabled j ha e = false ↔ ReadsFalse j (ha.members.lookup e.key) := by
  rw [directEnabled, decide_eq_false_iff_not, not_not]
  rfl

/-- **The switch of an entity is the one that is read directly exactly when what is nested does not hide it**: a
nested `false` is read directly as well, and no nested `true` covers a text that is read as `false`. -/
theorem enabledAfter_eq_direct_iff (j : Jct) (ha : Object) (earlier : List EntityName) (e : EntityName) :
    enabledAfter j ha earlier e = directEnabled j ha e ↔
      (Nested ha e false → ReadsFalse j (ha.members.lookup e.key)) ∧
        (ReadsFalse j (ha.members.lookup e.key) →
          ha.members.lookup e.key = some (.bool false) ∨ Nested ha e false ∨ ¬Nested ha e true) := by
  have hcached (b : Bool) : 32 :: (e.name ++ ascii (if b then "=true " else "=false ")) <:+: haEnabledLoad j ha [] ↔
      (e.key, .bool b) ∈ insideMembers ha.members := cached_iff j
  have hfalse := hcached false
  have htrue := hcached true
  rw [mem_inside_object_iff] at hfalse htrue
  simp only [Bool.false_eq_true, if_false, if_true] at hfalse htrue
  rw [enabledAfter_eq, enabledAfter_nil, ← directEnabled_eq_false_iff]
  split
  · rename_i hcached
    rw [hfalse] at hcached
    constructor
    · intro h
      exact ⟨fun _ => h.symm, fun _ => hcached.imp_right .inl⟩
    · rintro ⟨hnested, -⟩
      exact (hcached.elim haCfg_bool hnested).symm
  · rename_i hcached
    rw [hfalse, not_or] at hcached
    split
    · rename_i hcached'
      rw [htrue] at hcached'
      constructor
      · intro h
        exact ⟨fun hnested => absurd hnested hcached.2, fun hdirect => absurd (h.trans hdirect) (by decide)⟩
      · rintro ⟨-, hdirect⟩
        obtain htop | hnested := hcached'
        · exact (haCfg_bool htop).symm
        · refine (Bool.eq_true_of_not_eq_false fun h => ?_).symm
          exact (hdirect h).elim hcached.1 fun h => h.elim hcached.2 fun hno => hno hnested
    · rename_i hcached'
      rw [htrue, not_or] at hcached'
      exact iff_of_true rfl ⟨fun hnested => absurd hnested hcached.2, fun _ => .inr (.inr hcached'.2)⟩

end Direct

/-! ### Two levels -/

theorem escapeByte_word : ∀ b, isWord b = true → escapeByte b = [b] := by
  decide

/-- Two blanks for each level, control characters as numbers, and texts without quotes from `jct get`. -/
def twoBlanks : Jct where
  indent depth := List.replicate (2 * depth) 32
  quoted s := s.flatMap escapeByte
  number literal := if (literal.head?.any fun b => isDigit b || b = 45) = true then literal else 48 :: literal
  get v := match v with
    | none => []
    | some (.bool b) => ascii (if b then "true\n" else "false\n")
    | some (.string text) => text ++ [10]
    | some (.number literal) => literal ++ [10]
    | some _ => [10]
  indent_space depth := List.all_replicate.trans (ite_self true)
  quoted_chars := chars_escaped
  quoted_word s h := (List.flatMap_congr fun b hb => escapeByte_word b (List.all_eq_true.mp h b hb)).trans
    (List.flatMap_singleton' s)
  number_head literal := by
    split
    · rename_i h
      cases literal with
      | nil => exact absurd h Bool.false_ne_true
      | cons b s => exact ⟨b, s, rfl, by simpa using h⟩
    · exact ⟨48, literal, rfl, .inl rfl⟩
  get_bool _ := rfl

def motion : EntityName := ⟨ascii "motion", by decide⟩

/-- A switch of the same name in the settings of the broker. -/
def nestedMotion : Object :=
  ⟨[(ascii "mqtt", .object [(ascii "enable_motion", .bool false)])], by decide⟩

/-- The entity is switched off, where it is on for the direct test. -/
theorem motion_hidden : enabledAfter twoBlanks nestedMotion [] motion = false ∧
    directEnabled twoBlanks nestedMotion motion = true := by
  decide +kernel

end Thingino.Ha
