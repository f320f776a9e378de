import Mathlib.Data.List.Basic
import Thingino.Lib.Lines

/-! A tree of files with symbolic links in it.

What stands in the tree is named by its physical path, the names from the root on. A text is walked along component by
component, and a link is replaced by what it points to, a limited number of times. The last component of a text that
is to be removed is not followed.

A physical path is its own way (`walk_physical`): on it there are directories only. So a text that begins with one
names an entry of that directory and nothing else (`entry_below`). -/
namespace Thingino.Lib

inductive TreeNode
  | file
  | dir
  | link (target : List Byte)
  deriving DecidableEq

def isName (n : List Byte) : Bool := n ≠ [] && n ≠ [46] && n ≠ [46, 46] && !n.contains 47

structure FileTree where
  node : List (List Byte) → Option TreeNode
  root : node [] = some .dir
  parent : ∀ p n, (node (p ++ [n])).isSome = true → node p = some .dir ∧ isName n = true

namespace FileTree
variable (t : FileTree)

/-- How many links are followed on one way. -/
def maxLinks : Nat := 40

/-- Along the components; `via` goes on behind a link. -/
def walkVia (via : List (List Byte) → List (List Byte) → Option (List (List Byte))) :
    List (List Byte) → List (List Byte) → Option (List (List Byte))
  | p, [] => some p
  | p, c :: rest =>
    if t.node p = some .dir then
      if c = [] ∨ c = [46] then walkVia via p rest
      else if c = [46, 46] then walkVia via p.dropLast rest
      else
        match t.node (p ++ [c]) with
        | none => none
        | some (.link target) => via (if target.head? = some 47 then [] else p) (target.splitOn 47 ++ rest)
        | some _ => walkVia via (p ++ [c]) rest
    else none

def walk : Nat → List (List Byte) → List (List Byte) → Option (List (List Byte))
  | 0 => t.walkVia fun _ _ => none
  | links + 1 => t.walkVia (walk links)

/-- There is something at the end of an absolute path. -/
def has (s : List Byte) : Bool := (t.walk maxLinks [] (s.splitOn 47)).isSome

/-- What an absolute path names, which may be a link. -/
def entry (s : List Byte) : Option (List (List Byte)) :=
  (t.walk maxLinks [] (s.splitOn 47).dropLast).bind fun p =>
    let c := (s.splitOn 47).getLastD []
    if t.node p = some .dir then
      if c = [] ∨ c = [46] then some p
      else if c = [46, 46] then some p.dropLast
      else if (t.node (p ++ [c])).isSome then some (p ++ [c])
      else none
    else none

/-- A physical path as a text. -/
def text (p : List (List Byte)) : List Byte := if p = [] then [47] else p.flatMap (47 :: ·)

variable {t} {p q : List (List Byte)} {n c : List Byte}

/-! ### Physical paths -/

/-- Above what there is, there are directories. -/
theorem node_append (h : (t.node (p ++ q)).isSome = true) (hne : q ≠ []) : t.node p = some .dir := by
  induction q using List.reverseRecOn with
  | nil => exact absurd rfl hne
  | append_singleton q n ih =>
    rw [← List.append_assoc] at h
    have hparent := (t.parent _ _ h).1
    cases q with
    | nil => rwa [List.append_nil] at hparent
    | cons m q => exact ih (by rw [hparent]; rfl) (List.cons_ne_nil m q)

theorem isName_of_mem (h : (t.node p).isSome = true) : ∀ n ∈ p, isName n = true := by
  induction p using List.reverseRecOn with
  | nil => exact fun _ hn => absurd hn List.not_mem_nil
  | append_singleton p m ih =>
    intro n hn
    have hparent := t.parent p m h
    obtain hn | hn := List.mem_append.mp hn
    · exact ih (by rw [hparent.1]; rfl) n hn
    · exact List.mem_singleton.mp hn ▸ hparent.2

theorem isName_ne (h : isName n = true) : n ≠ [] ∧ n ≠ [46] ∧ n ≠ [46, 46] ∧ 47 ∉ n := by
  simpa [isName, and_assoc] using h

theorem walkVia_cons (via : List (List Byte) → List (List Byte) → Option (List (List Byte)))
    (h : t.node (p ++ [n]) = some .dir) (rest : List (List Byte)) :
    t.walkVia via p (n :: rest) = t.walkVia via (p ++ [n]) rest := by
  have hparent := t.parent p n (by rw [h]; rfl)
  obtain ⟨hne, hdot, hdots, -⟩ := isName_ne hparent.2
  simp only [walkVia, hparent.1, if_true, hne, hdot, or_self, if_false, hdots, h]

theorem walkVia_physical (via : List (List Byte) → List (List Byte) → Option (List (List Byte)))
    (h : t.node (p ++ q) = some .dir) (rest : List (List Byte)) :
    t.walkVia via p (q ++ rest) = t.walkVia via (p ++ q) rest := by
  induction q generalizing p with
  | nil => rw [List.nil_append, List.append_nil]
  | cons n q ih =>
    rw [List.append_cons] at h ⊢
    have hnode : t.node (p ++ [n]) = some .dir := by
      cases q with
      | nil => rwa [List.append_nil] at h
      | cons m q => exact node_append (by rw [h]; rfl) (List.cons_ne_nil m q)
    rw [List.cons_append, walkVia_cons via hnode, ih h]

theorem walk_eq (links : Nat) : ∃ via, t.walk links = t.walkVia via := by
  cases links with
  | zero => exact ⟨_, rfl⟩
  | succ links => exact ⟨_, rfl⟩

/-- The way along a directory's own path leads to it. -/
theorem walk_physical (links : Nat) (h : t.node p = some .dir) (rest : List (List Byte)) :
    t.walk links [] ([] :: (p ++ rest)) = t.walk links p rest := by
  obtain ⟨via, hvia⟩ := walk_eq (t := t) links
  rw [hvia, walkVia, if_pos t.root, if_pos (.inl rfl)]
  exact walkVia_physical via (by rwa [List.nil_append]) rest

/-! ### Texts -/

theorem splitOn_path (hp : ∀ m ∈ p, 47 ∉ m) (hc : 47 ∉ c) {a : List Byte} (ha : 47 ∉ a) :
    (a ++ p.flatMap (47 :: ·) ++ 47 :: c).splitOn 47 = a :: (p ++ [c]) := by
  induction p generalizing a with
  | nil =>
    rw [List.flatMap_nil, List.append_nil, Lines.splitOn_cut ha, List.splitOn_eq_singleton hc]
    rfl
  | cons m p ih =>
    have hassoc : a ++ (m :: p).flatMap (47 :: ·) ++ 47 :: c = a ++ 47 :: (m ++ p.flatMap (47 :: ·) ++ 47 :: c) := by
      simp
    rw [hassoc, Lines.splitOn_cut ha, ih (fun x hx => hp x (List.mem_cons_of_mem m hx)) (hp m List.mem_cons_self)]
    rfl

/-- The components of a text that begins with a directory's path. -/
theorem splitOn_text (h : t.node p = some .dir) (hc : 47 ∉ c) :
    (text p ++ 47 :: c).splitOn 47 = [] :: ((if p = [] then [[]] else p) ++ [c]) := by
  have hp : ∀ m ∈ p, 47 ∉ m := fun m hm => (isName_ne (isName_of_mem (by rw [h]; rfl) m hm)).2.2.2
  unfold text
  split
  · exact splitOn_path (p := [[]]) (fun m hm => List.mem_singleton.mp hm ▸ List.not_mem_nil) hc List.not_mem_nil
  · exact splitOn_path hp hc List.not_mem_nil

/-- An empty component leads nowhere. -/
theorem walk_text (links : Nat) (h : t.node p = some .dir) (rest : List (List Byte)) :
    t.walk links [] ([] :: ((if p = [] then [[]] else p) ++ rest)) = t.walk links p rest := by
  split
  · rename_i hp
    subst hp
    obtain ⟨via, hvia⟩ := walk_eq (t := t) links
    rw [hvia, List.singleton_append, walkVia, if_pos t.root, if_pos (.inl rfl), walkVia, if_pos t.root,
      if_pos (.inl rfl)]
  · exact walk_physical links h rest

theorem walk_nil (links : Nat) : t.walk links p [] = some p := by
  obtain ⟨via, hvia⟩ := walk_eq (t := t) links
  rw [hvia, walkVia]

/-- The text of a directory's path leads to it. -/
theorem walk_splitOn_text (links : Nat) (h : t.node p = some .dir) : t.walk links [] ((text p).splitOn 47) = some p := by
  obtain rfl | ⟨q, n, rfl⟩ := List.eq_nil_or_concat' p
  · have hwalk := walk_text links t.root []
    rw [walk_nil] at hwalk
    exact hwalk
  · have hnames : ∀ m ∈ q ++ [n], 47 ∉ m := fun m hm => (isName_ne (isName_of_mem (by rw [h]; rfl) m hm)).2.2.2
    have hq : ∀ m ∈ q, 47 ∉ m := fun m hm => hnames m (List.mem_append_left [n] hm)
    have hn := hnames n (List.mem_append_right q List.mem_cons_self)
    have htext : text (q ++ [n]) = [] ++ q.flatMap (47 :: ·) ++ 47 :: n := by
      rw [text, if_neg (List.append_ne_nil_of_right_ne_nil q (List.cons_ne_nil n [])), List.flatMap_append,
        List.flatMap_singleton, List.nil_append]
    have hwalk := walk_physical links h []
    rw [walk_nil, List.append_nil] at hwalk
    rw [htext, splitOn_path hq hn List.not_mem_nil, hwalk]

/-- What a text names that begins with the path of a directory: the directory itself, its parent, or an entry. -/
theorem entry_below (h : t.node p = some .dir) (hc : 47 ∉ c) :
    t.entry (text p ++ 47 :: c) =
      if c = [] ∨ c = [46] then some p
      else if c = [46, 46] then some p.dropLast
      else if (t.node (p ++ [c])).isSome then some (p ++ [c])
      else none := by
  have hsplit := splitOn_text h hc
  have hlast : ((text p ++ 47 :: c).splitOn 47).getLastD [] = c := by
    rw [hsplit, ← List.cons_append]
    exact List.getLastD_concat ..
  have hinit : ((text p ++ 47 :: c).splitOn 47).dropLast = [] :: ((if p = [] then [[]] else p) ++ []) := by
    rw [hsplit, ← List.cons_append, List.dropLast_concat, List.append_nil]
  rw [entry, hinit, walk_text _ h, walk_nil, Option.bind_some, hlast, if_pos h]

/-- What there is behind a text that begins with the path of a directory. -/
theorem has_below (h : t.node p = some .dir) (hc : 47 ∉ c) (hhas : t.has (text p ++ 47 :: c) = true) :
    (c = [] ∨ c = [46] ∨ c = [46, 46]) ∨ (t.node (p ++ [c])).isSome = true := by
  rw [has, splitOn_text h hc, walk_text _ h] at hhas
  obtain ⟨via, hvia⟩ := walk_eq (t := t) maxLinks
  rw [hvia, walkVia, if_pos h] at hhas
  split at hhas
  · rename_i hdot
    exact .inl (hdot.imp_right .inl)
  · split at hhas
    · rename_i hdots
      exact .inl (.inr (.inr hdots))
    · split at hhas
      · cases hhas
      · rename_i heq
        exact .inr (by rw [heq]; rfl)
      · rename_i x _ heq
        exact .inr (by rw [heq]; rfl)

/-! ### Entries that come and go -/

/-- Only a directory has entries, so what is no directory can go. -/
def remove (t : FileTree) (p : List (List Byte)) (h : t.node p ≠ some .dir) : FileTree where
  node q := if q = p then none else t.node q
  root := by
    rw [if_neg]
    · exact t.root
    · rintro rfl
      exact h t.root
  parent q n hq := by
    split at hq
    · cases hq
    · have hparent := t.parent q n hq
      refine ⟨?_, hparent.2⟩
      rw [if_neg]
      · exact hparent.1
      · rintro rfl
        exact h hparent.1

/-- A new entry of a directory. -/
def add (t : FileTree) (p : List (List Byte)) (n : List Byte) (x : TreeNode) (hp : t.node p = some .dir)
    (hn : isName n = true) (hnew : t.node (p ++ [n]) = none) : FileTree where
  node q := if q = p ++ [n] then some x else t.node q
  root := by
    rw [if_neg (List.append_ne_nil_of_right_ne_nil p (List.cons_ne_nil n [])).symm]
    exact t.root
  parent q m hq := by
    have hkept : ∀ r, t.node r = some .dir → (if r = p ++ [n] then some x else t.node r) = some .dir := by
      intro r hr
      rw [if_neg, hr]
      rintro rfl
      rw [hnew] at hr
      cases hr
    split at hq
    · rename_i heq
      obtain ⟨rfl, hm⟩ := List.append_inj' heq rfl
      obtain rfl := List.singleton_inj.mp hm
      exact ⟨hkept q hp, hn⟩
    · have hparent := t.parent q m hq
      exact ⟨hkept q hparent.1, hparent.2⟩

/-- The root alone. -/
def bare : FileTree where
  node q := if q = [] then some .dir else none
  root := rfl
  parent q n hq := by
    rw [if_neg (List.append_ne_nil_of_right_ne_nil q (List.cons_ne_nil n []))] at hq
    cases hq

end FileTree

end Thingino.Lib
