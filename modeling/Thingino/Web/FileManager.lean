import Thingino.Lib.Awk
import Thingino.Lib.FileTree
import Thingino.Lib.JsonText

/-! Deleting a file from the browser.

The listing of a directory says of each entry whether it can be deleted. The page sends the path of an entry through
`encodeURIComponent`; the script takes it out of the query again, changes into the directory, asks for its physical
path and looks at that. What is deleted is named by this path, so no link leads out of the mounted partitions, as long
as the name of no directory ends with a newline, which `$(pwd -P)` would drop.

* `handle_confined`: whatever the request, only a `POST` deletes, one entry that is no directory, below `/mnt` or
  `/media`, and everything else stays.
* `handle_shown`: what the listing shows as deletable is deleted on request, and the rest is refused. -/
namespace Thingino.Web
open Lib Lib.Shell

namespace FileManager

/-! ### A path in a query -/

def isHex (b : Byte) : Bool := isDigit b || 65 ≤ b.toNat && b.toNat ≤ 70 || 97 ≤ b.toNat && b.toNat ≤ 102

def hexValue (b : Byte) : Nat :=
  if isDigit b then b.toNat - 48 else if b.toNat ≤ 70 then b.toNat - 55 else b.toNat - 87

/-- `printf '%b'`: all bytes are printed but the backslash, and `\xHH` is one byte. -/
structure PrintfB where
  print : List Byte → List Byte
  nil : print [] = []
  plain : ∀ b s, b ≠ 92 → print (b :: s) = b :: print s
  hex : ∀ a b s, isHex a = true → isHex b = true →
    print (92 :: 120 :: a :: b :: s) = BitVec.ofNat 8 (16 * hexValue a + hexValue b) :: print s

/-- `s/%\([0-9A-Fa-f][0-9A-Fa-f]\)/\\x\1/g`. -/
def escapeHex : List Byte → List Byte
  | a :: b :: c :: s =>
    if a = 37 && isHex b && isHex c then 92 :: 120 :: b :: c :: escapeHex s else a :: escapeHex (b :: c :: s)
  | s => s

/-- `s/+/ /g`. -/
def plusToSpace (s : List Byte) : List Byte := s.map fun b => if b = 43 then 32 else b

variable (glob : Glob) (printf : PrintfB)

def urldecode (s : List Byte) : List Byte := printf.print (output (escapeHex (plusToSpace (echo s))))

/-- `$(get_param key)`. -/
def getParam (key query : List Byte) : List Byte :=
  match ((query.splitOn 38).flatMap glob.expand).find? fun pair => Lines.isOf key pair || pair = key with
  | none => []
  | some pair =>
    if Lines.isOf key pair then output ((urldecode printf (pair.dropWhile (· ≠ 61)).tail).filter (· ≠ 0)) else []

/-- What `encodeURIComponent` leaves: letters, digits and `-_.!~*'()`. -/
def isUnreserved (b : Byte) : Bool :=
  isDigit b || 65 ≤ b.toNat && b.toNat ≤ 90 || 97 ≤ b.toNat && b.toNat ≤ 122 ||
    [45, 95, 46, 33, 126, 42, 39, 40, 41].contains b

def hexUpper (n : Nat) : Byte := BitVec.ofNat 8 (if n < 10 then 48 + n else 55 + n)

/-- One byte of a text in UTF-8. -/
def encodeByte (b : Byte) : List Byte :=
  if isUnreserved b then [b] else [37, hexUpper (b.toNat / 16), hexUpper (b.toNat % 16)]

def encodeURIComponent (s : List Byte) : List Byte := s.flatMap encodeByte

/-! ### The script -/

def trimSlashes (s : List Byte) : List Byte := s.rdropWhile (· = 47)

def basename (s : List Byte) : List Byte :=
  if s = [] then [] else if trimSlashes s = [] then [47] else (trimSlashes s).rtakeWhile (· ≠ 47)

def dirname (s : List Byte) : List Byte :=
  if s = [] then [46]
  else if trimSlashes s = [] then [47]
  else if (trimSlashes s).contains 47 then
    let d := trimSlashes ((trimSlashes s).rdropWhile (· ≠ 47))
    if d = [] then [47] else d
  else [46]

/-- `cd dir`, and the physical path of where it leads. -/
structure Cd (t : FileTree) where
  go : List Byte → Option (List (List Byte))
  sound : ∀ s p, go s = some p → t.node p = some .dir
  physical : ∀ p, t.node p = some .dir → go (FileTree.text p) = some p

inductive Reply
  | played (file : List Byte)
  | downloaded (file : List Byte)
  | error (code : Nat) (message : List Byte)
  | deleted
  | listed
  deriving DecidableEq

/-- `/mnt/*` or `/media/*`, which are the paths that the listing shows as deletable. -/
def isMounted (s : List Byte) : Bool := ascii "/mnt/" <+: s || ascii "/media/" <+: s

variable {t : FileTree} (cd : Cd t) (writable : List (List Byte) → Bool)

/-- `rm -f`; a file system may refuse to change a directory. -/
def rm (t : FileTree) (s : List Byte) : Option FileTree :=
  match t.entry s with
  | none => some t
  | some p => if h : t.node p = some .dir then none else if writable p.dropLast then some (t.remove p h) else none

def delete (method rmParam : List Byte) : Reply × FileTree :=
  if method ≠ ascii "POST" then (.error 405 (ascii "Method not allowed"), t)
  else
    match cd.go (output (dirname rmParam)) with
    | none => (.error 404 (ascii "File not found"), t)
    | some p =>
      let resolvedFile := echoed (output (FileTree.text p) ++ 47 :: output (basename rmParam))
      if !isMounted resolvedFile then (.error 403 (ascii "Deletion only allowed on mounted partitions"), t)
      else if !t.has resolvedFile then (.error 404 (ascii "File not found"), t)
      else
        match rm writable t resolvedFile with
        | some t' => (.deleted, t')
        | none => (.error 500 (ascii "Failed to delete file"), t)

/-- The requests one behind the other, as the script looks for them. -/
def handle (method query : List Byte) : Reply × FileTree :=
  if getParam glob printf (ascii "play") query ≠ [] then (.played (getParam glob printf (ascii "play") query), t)
  else if getParam glob printf (ascii "dl") query ≠ [] then (.downloaded (getParam glob printf (ascii "dl") query), t)
  else if getParam glob printf (ascii "rm") query ≠ [] then
    delete cd writable method (getParam glob printf (ascii "rm") query)
  else if method ≠ [] ∧ method ≠ ascii "GET" then (.error 405 (ascii "Method not allowed"), t)
  else (.listed, t)

/-! ### The listing -/

/-- One slash for several. -/
def squeeze : List Byte → List Byte
  | [] => []
  | b :: s => if b = 47 ∧ s.head? = some 47 then squeeze s else b :: squeeze s

def isPrintable (b : Byte) : Bool := 32 ≤ b.toNat && b.toNat ≤ 126

/-- `ls -lnA`: eight columns and the name, and the first column of a link begins with an `l`. What is not printable may
be shown as something else. -/
structure Ls (t : FileTree) where
  columns : List (List Byte) → List Byte
  name : List Byte → List Byte
  eight : ∀ q, (Awk.fields (columns q)).length = 8
  link : ∀ q, ((Awk.fields (columns q)).headD []).head? = some 108 ↔ ∃ target, t.node q = some (.link target)
  oneLine : ∀ q, 10 ∉ columns q
  plain : ∀ n, n.all isPrintable = true → name n = n

/-- What it prints of the entry `n` in `p`. -/
def Ls.line (ls : Ls t) (p : List (List Byte)) (n : List Byte) : List Byte :=
  ls.columns (p ++ [n]) ++ 32 :: (ls.name n ++
    match t.node (p ++ [n]) with
    | some (.link target) => ascii " -> " ++ target
    | _ => [])

/-- `split(name, parts, / -> /)`, of which the first part is taken. -/
def beforeArrow : List Byte → List Byte
  | [] => []
  | b :: s => if ascii " -> " <+: b :: s then [] else b :: beforeArrow s

/-- The name that `awk` puts together of a line's fields, from the ninth on. -/
def listedName (line : List Byte) : List Byte :=
  let fields := Awk.fields (Awk.record line)
  let name := Awk.join (fields.drop 8)
  if (fields.headD []).head? = some 108 then beforeArrow name else name

/-- `awk -v base=…`, where a backslash begins an escape. -/
structure Assign where
  value : List Byte → List Byte
  plain : ∀ s : List Byte, 92 ∉ s → value s = s

variable (assign : Assign) (ls : Ls t)

/-- The path of an entry in the listing of a directory. -/
def listedPath (p : List (List Byte)) (n : List Byte) : List Byte :=
  squeeze (assign.value (output (squeeze (output (FileTree.text p)))) ++ 47 :: listedName (ls.line p n))

/-- What is written of it between the quotes. -/
def escape (s : List Byte) : List Byte :=
  s.flatMap fun b =>
    if b = 92 ∨ b = 34 then [92, b] else if b = 13 then [92, 114] else if b = 10 then [92, 110] else [b]

/-- The request for a path, as the page sends it. -/
def request (path : List Byte) : List Byte := ascii "rm" ++ 61 :: encodeURIComponent path

/-! ### What is deleted -/

section Confined
variable {p : List (List Byte)} {c : List Byte}

/-- **The property** of an answer. -/
structure Confined (t : FileTree) (method : List Byte) (r : Reply × FileTree) : Prop where
  kept : r.1 ≠ .deleted → r.2 = t
  removed : r.1 = .deleted → method = ascii "POST" ∧ ∃ q n, (q.head? = some (ascii "mnt") ∨ q.head? = some (ascii "media")) ∧
    (t.node (q ++ [n])).isSome = true ∧ t.node (q ++ [n]) ≠ some .dir ∧
    r.2.node = fun x => if x = q ++ [n] then none else t.node x

theorem exists_text_cons (m : List Byte) (p : List (List Byte)) (c : List Byte) :
    ∃ y, FileTree.text (m :: p) ++ 47 :: c = 47 :: (m ++ 47 :: y) := by
  rw [FileTree.text, if_neg (List.cons_ne_nil m p), List.flatMap_cons]
  cases p with
  | nil => exact ⟨c, by simp⟩
  | cons k p => exact ⟨k ++ p.flatMap (47 :: ·) ++ 47 :: c, by simp⟩

/-- A path begins with a name and a slash when that is its first name. -/
theorem prefix_text_iff {w : List Byte} (hw : 47 ∉ w) (hne : w ≠ []) (hp : ∀ m ∈ p, isName m = true) :
    47 :: (w ++ [47]) <+: FileTree.text p ++ 47 :: c ↔ p.head? = some w := by
  cases p with
  | nil =>
    refine iff_of_false (fun h => ?_) nofun
    obtain ⟨b, w, rfl⟩ := List.exists_cons_of_ne_nil hne
    have hb : b :: w ++ [47] <+: 47 :: c := (List.cons_prefix_cons.mp h).2
    exact hw ((List.cons_prefix_cons.mp hb).1 ▸ List.mem_cons_self)
  | cons m p =>
    obtain ⟨y, hy⟩ := exists_text_cons m p c
    have hm := (FileTree.isName_ne (hp m List.mem_cons_self)).2.2.2
    rw [hy, List.head?_cons, Option.some_inj]
    constructor
    · intro h
      obtain ⟨z, hz⟩ := (List.cons_prefix_cons.mp h).2
      rw [List.append_assoc] at hz
      exact (Lines.cut_unique hw hm hz).symm
    · rintro rfl
      exact List.cons_prefix_cons.mpr ⟨rfl, y, by rw [List.append_assoc]; rfl⟩

theorem isMounted_text_iff (hp : ∀ m ∈ p, isName m = true) :
    isMounted (FileTree.text p ++ 47 :: c) = true ↔ p.head? = some (ascii "mnt") ∨ p.head? = some (ascii "media") := by
  have hmnt := prefix_text_iff (p := p) (c := c) (w := ascii "mnt") (by decide) (by decide) hp
  have hmedia := prefix_text_iff (p := p) (c := c) (w := ascii "media") (by decide) (by decide) hp
  rw [isMounted, Bool.or_eq_true, decide_eq_true_eq, decide_eq_true_eq]
  exact or_congr hmnt hmedia

theorem getLast?_text (hnames : ∀ m ∈ p, isName m = true ∧ m.getLast? ≠ some 10) :
    (FileTree.text p).getLast? ≠ some 10 := by
  unfold FileTree.text
  split
  · decide
  · rename_i hne
    obtain ⟨q, n, rfl⟩ := (List.eq_nil_or_concat' p).resolve_left hne
    obtain ⟨hname, hline⟩ := hnames n (List.mem_append_right q List.mem_cons_self)
    have hn := (FileTree.isName_ne hname).1
    rw [List.flatMap_append, List.flatMap_singleton, List.getLast?_append_of_ne_nil _ (List.cons_ne_nil 47 n),
      List.getLast?_cons_of_ne_nil hn]
    exact hline

theorem getLast?_output (s : List Byte) : (output s).getLast? ≠ some 10 := by
  intro h
  have hne : output s ≠ [] := by
    rintro heq
    rw [heq] at h
    cases h
  have hlast := List.rdropWhile_last_not (fun b : Byte => decide (b = 10)) s hne
  rw [List.getLast?_eq_getLast_of_ne_nil hne, Option.some_inj] at h
  exact hlast (decide_eq_true h)

/-- The text is what the script has put together. -/
theorem resolved_eq (hnames : ∀ m ∈ p, isName m = true ∧ m.getLast? ≠ some 10) (s : List Byte) :
    echoed (output (FileTree.text p) ++ 47 :: output s) = FileTree.text p ++ 47 :: output s := by
  have hhead : (FileTree.text p).head? = some 47 := by
    cases p with
    | nil => rfl
    | cons m p => rfl
  obtain ⟨rest, hrest⟩ := List.head?_eq_some_iff.mp hhead
  have hoption : isEchoOption (FileTree.text p ++ 47 :: output s) = false := by
    rw [hrest]
    rfl
  have hlast : (FileTree.text p ++ 47 :: output s).getLast? ≠ some 10 := by
    rw [List.getLast?_append_of_ne_nil _ (List.cons_ne_nil 47 _)]
    by_cases hs : output s = []
    · rw [hs]
      decide
    · rw [List.getLast?_cons_of_ne_nil hs]
      exact getLast?_output s
  rw [output_eq_self (getLast?_text hnames), echoed, echo, if_neg (Bool.eq_false_iff.mp hoption)]
  have hdrop := List.rdropWhile_concat_pos (fun b : Byte => decide (b = 10)) (FileTree.text p ++ 47 :: output s) 10
    (decide_eq_true rfl)
  exact hdrop.trans (output_eq_self hlast)

theorem basename_cases (s : List Byte) : 47 ∉ basename s ∨ basename s = [47] := by
  unfold basename
  split
  · exact .inl List.not_mem_nil
  · split
    · exact .inr rfl
    · refine .inl fun h => ?_
      have hb := List.mem_rtakeWhile_imp h
      exact of_decide_eq_true hb rfl

theorem entry_slashes (h : t.node p = some .dir) : t.entry (FileTree.text p ++ [47, 47]) = some p := by
  have hsplit : (FileTree.text p ++ [47, 47]).splitOn 47 = [] :: ((if p = [] then [[]] else p) ++ [[]]) ++ [[]] := by
    rw [← FileTree.splitOn_text h List.not_mem_nil]
    have hcut : FileTree.text p ++ [47, 47] = FileTree.text p ++ [47] ++ 47 :: [] := by
      rw [List.append_assoc]
      rfl
    rw [hcut, List.splitOn_append_cons_self]
    rfl
  obtain ⟨via, hvia⟩ := FileTree.walk_eq (t := t) FileTree.maxLinks
  rw [FileTree.entry, hsplit, List.dropLast_concat, FileTree.walk_text _ h, hvia, FileTree.walkVia, if_pos h,
    if_pos (.inl rfl), FileTree.walkVia, Option.bind_some, List.getLastD_concat, if_pos h, if_pos (.inl rfl)]

/-- What `rm` can remove that is named by a directory's own path: an entry of this directory. -/
theorem exists_of_rm {t' : FileTree} (h : t.node p = some .dir) (hc : 47 ∉ c ∨ c = [47])
    (hhas : t.has (FileTree.text p ++ 47 :: c) = true) (hrm : rm writable t (FileTree.text p ++ 47 :: c) = some t') :
    (t.node (p ++ [c])).isSome = true ∧ t.node (p ++ [c]) ≠ some .dir ∧
      t'.node = fun x => if x = p ++ [c] then none else t.node x := by
  have hnotdir : ∀ q, t.entry (FileTree.text p ++ 47 :: c) = some q → t.node q ≠ some .dir := by
    intro q hq hdir
    rw [rm, hq] at hrm
    simp only [hdir, dif_pos] at hrm
    cases hrm
  obtain hc | rfl := hc
  · have hentry := FileTree.entry_below h hc
    split at hentry
    · exact absurd h (hnotdir p hentry)
    · split at hentry
      · refine absurd ?_ (hnotdir _ hentry)
        obtain rfl | ⟨q, n, rfl⟩ := List.eq_nil_or_concat' p
        · exact t.root
        · rw [List.dropLast_concat]
          exact (t.parent q n (by rw [h]; rfl)).1
      · rename_i hdot hdots
        have hsome := (FileTree.has_below h hc hhas).resolve_left fun hor =>
          hor.elim (fun h => hdot (.inl h)) fun hor => hor.elim (fun h => hdot (.inr h)) hdots
        rw [if_pos hsome] at hentry
        have hdir := hnotdir _ hentry
        rw [rm, hentry] at hrm
        simp only [hdir, dif_neg, not_false_iff] at hrm
        split at hrm
        · cases hrm
          exact ⟨hsome, hdir, rfl⟩
        · cases hrm
  · exact absurd h (hnotdir p (entry_slashes h))

theorem delete_confined (hnames : ∀ p, t.node p = some .dir → ∀ n ∈ p, n.getLast? ≠ some 10)
    (method rmParam : List Byte) : Confined t method (delete cd writable method rmParam) := by
  have hkept : ∀ code message, Confined t method (.error code message, t) := fun _ _ => ⟨fun _ => rfl, nofun⟩
  unfold delete
  split
  · exact hkept _ _
  · rename_i hmethod
    cases hgo : cd.go (output (dirname rmParam)) with
    | none => exact hkept _ _
    | some p =>
      have hdir := cd.sound _ p hgo
      have hp : ∀ m ∈ p, isName m = true := FileTree.isName_of_mem (by rw [hdir]; rfl)
      have hbase : 47 ∉ output (basename rmParam) ∨ output (basename rmParam) = [47] := by
        obtain h | h := basename_cases rmParam
        · exact .inl fun hmem => h ((List.rdropWhile_prefix _ _).subset hmem)
        · exact .inr (by rw [h]; rfl)
      simp only [resolved_eq fun m hm => ⟨hp m hm, hnames p hdir m hm⟩]
      split
      · exact hkept _ _
      · rename_i hmounted
        split
        · exact hkept _ _
        · rename_i hhas
          rw [Bool.not_eq_true', Bool.not_eq_false] at hmounted hhas
          split
          · rename_i t' hrm
            have hremoved := exists_of_rm writable hdir hbase hhas hrm
            exact ⟨fun h => absurd rfl h, fun _ => ⟨not_not.mp hmethod, p, _, (isMounted_text_iff hp).mp hmounted, hremoved⟩⟩
          · exact hkept _ _

/-- **No request reaches behind the mounted partitions.** -/
theorem handle_confined (hnames : ∀ p, t.node p = some .dir → ∀ n ∈ p, n.getLast? ≠ some 10)
    (method query : List Byte) : Confined t method (handle glob printf cd writable method query) := by
  unfold handle
  split
  · exact ⟨fun _ => rfl, nofun⟩
  · split
    · exact ⟨fun _ => rfl, nofun⟩
    · split
      · exact delete_confined cd writable hnames method _
      · split
        · exact ⟨fun _ => rfl, nofun⟩
        · exact ⟨fun _ => rfl, nofun⟩

/-- A `cd` that takes no path for more than it says. -/
def Cd.plain (t : FileTree) : Cd t where
  go s := (t.walk FileTree.maxLinks [] (s.splitOn 47)).filter fun p => t.node p = some .dir
  sound _ _ h := of_decide_eq_true (Option.filter_eq_some_iff.mp h).2
  physical _ h := Option.filter_eq_some_iff.mpr ⟨FileTree.walk_splitOn_text _ h, decide_eq_true h⟩

def printHex : List Byte → List Byte
  | a :: b :: c :: d :: s =>
    if a = 92 && b = 120 && isHex c && isHex d then BitVec.ofNat 8 (16 * hexValue c + hexValue d) :: printHex s
    else a :: printHex (b :: c :: d :: s)
  | s => s

/-- A `printf` that knows this one escape only. -/
def PrintfB.hexOnly : PrintfB where
  print := printHex
  nil := rfl
  plain a s h := by
    match s with
    | [] | [_] | [_, _] => rfl
    | b :: c :: d :: s => rw [printHex, if_neg (by simp [show a ≠ 92#8 from h])]
  hex a b s ha hb := by rw [printHex, ha, hb]; rfl

/-- A card with one file. -/
def card : FileTree :=
  (FileTree.bare.add [] (ascii "mnt") .dir rfl (by decide) rfl).add [ascii "mnt"] (ascii "a b") .file (by decide)
    (by decide) (by decide)

theorem lines_card : ∀ p, card.node p = some .dir → ∀ n ∈ p, n.getLast? ≠ some 10 := by
  intro p hp
  have hnode : card.node p = if p = [ascii "mnt"] ++ [ascii "a b"] then some .file
      else if p = [] ++ [ascii "mnt"] then some .dir else if p = [] then some .dir else none := rfl
  rw [hnode] at hp
  split at hp
  · cases hp
  · split at hp
    · rename_i heq
      subst heq
      decide
    · split at hp
      · rename_i heq
        subst heq
        exact fun _ hn => absurd hn List.not_mem_nil
      · cases hp

theorem handle_confined_card :
    Confined card (ascii "POST") (handle ⟨fun word => [word], fun _ _ => rfl⟩ .hexOnly (Cd.plain card) (fun _ => true)
      (ascii "POST") (ascii "rm=%2Fmnt%2F..%2Fmnt%2Fa%20b")) :=
  handle_confined _ _ _ _ lines_card (ascii "POST") _

end Confined

/-! ### What is sent -/

section Transport
variable {glob printf} {key s : List Byte}

theorem hexUpper_spec : ∀ n, n < 16 → isHex (hexUpper n) = true ∧ hexValue (hexUpper n) = n ∧
    isUnreserved (hexUpper n) = true := by decide

theorem ofNat_hexUpper (b : Byte) :
    BitVec.ofNat 8 (16 * hexValue (hexUpper (b.toNat / 16)) + hexValue (hexUpper (b.toNat % 16))) = b := by
  have hhigh := hexUpper_spec (b.toNat / 16) (Nat.div_lt_of_lt_mul b.isLt)
  have hlow := hexUpper_spec (b.toNat % 16) (Nat.mod_lt _ (by decide))
  rw [hhigh.2.1, hlow.2.1, Nat.div_add_mod, BitVec.ofNat_toNat, BitVec.setWidth_eq]

theorem escapeHex_cons {a : Byte} (h : a ≠ 37) (s : List Byte) : escapeHex (a :: s) = a :: escapeHex s := by
  cases s with
  | nil => rfl
  | cons b s =>
    cases s with
    | nil => rfl
    | cons c s =>
      rw [escapeHex, if_neg]
      rw [Bool.and_eq_true, Bool.and_eq_true, decide_eq_true_eq]
      exact fun hand => h hand.1.1

def escapedByte (b : Byte) : List Byte :=
  if isUnreserved b then [b] else [92, 120, hexUpper (b.toNat / 16), hexUpper (b.toNat % 16)]

theorem ne_of_isUnreserved {b c : Byte} (hb : isUnreserved b = true) (hc : isUnreserved c = false) : b ≠ c := by
  rintro rfl
  rw [hb] at hc
  cases hc

theorem escapeHex_encodeByte (b : Byte) (s : List Byte) :
    escapeHex (encodeByte b ++ s) = escapedByte b ++ escapeHex s := by
  unfold encodeByte escapedByte
  split
  · rename_i hb
    exact escapeHex_cons (ne_of_isUnreserved hb (by decide)) s
  · have hhigh := (hexUpper_spec (b.toNat / 16) (Nat.div_lt_of_lt_mul b.isLt)).1
    have hlow := (hexUpper_spec (b.toNat % 16) (Nat.mod_lt _ (by decide))).1
    simp only [List.cons_append, List.nil_append, escapeHex, hhigh, hlow, Bool.and_self, decide_true, if_true]

theorem escapeHex_encode (s rest : List Byte) :
    escapeHex (encodeURIComponent s ++ rest) = s.flatMap escapedByte ++ escapeHex rest := by
  induction s with
  | nil => rfl
  | cons b s ih =>
    rw [encodeURIComponent, List.flatMap_cons, List.append_assoc, escapeHex_encodeByte, List.flatMap_cons,
      List.append_assoc]
    exact congrArg (escapedByte b ++ ·) ih

theorem print_escapedByte (b : Byte) (s : List Byte) : printf.print (escapedByte b ++ s) = b :: printf.print s := by
  unfold escapedByte
  split
  · rename_i hb
    exact printf.plain b s (ne_of_isUnreserved hb (by decide))
  · have hhigh := (hexUpper_spec (b.toNat / 16) (Nat.div_lt_of_lt_mul b.isLt)).1
    have hlow := (hexUpper_spec (b.toNat % 16) (Nat.mod_lt _ (by decide))).1
    exact (printf.hex _ _ s hhigh hlow).trans (by rw [ofNat_hexUpper])

theorem print_escaped (s : List Byte) : printf.print (s.flatMap escapedByte) = s := by
  induction s with
  | nil => exact printf.nil
  | cons b s ih => rw [List.flatMap_cons, print_escapedByte, ih]

theorem notMem_encode {c : Byte} (hc : isUnreserved c = false) (hpercent : c ≠ 37) (s : List Byte) :
    c ∉ encodeURIComponent s := by
  intro h
  obtain ⟨b, -, h⟩ := List.mem_flatMap.mp h
  have hhigh := (hexUpper_spec (b.toNat / 16) (Nat.div_lt_of_lt_mul b.isLt)).2.2
  have hlow := (hexUpper_spec (b.toNat % 16) (Nat.mod_lt _ (by decide))).2.2
  unfold encodeByte at h
  split at h
  · rename_i hb
    exact ne_of_isUnreserved hb hc (List.mem_singleton.mp h).symm
  · simp only [List.mem_cons, List.not_mem_nil, or_false] at h
    obtain h | h | h := h
    · exact hpercent h
    · exact ne_of_isUnreserved hhigh hc h.symm
    · exact ne_of_isUnreserved hlow hc h.symm

theorem newline_notMem_escaped (s : List Byte) : 10 ∉ s.flatMap escapedByte := by
  intro h
  obtain ⟨b, -, h⟩ := List.mem_flatMap.mp h
  have hhigh := (hexUpper_spec (b.toNat / 16) (Nat.div_lt_of_lt_mul b.isLt)).2.2
  have hlow := (hexUpper_spec (b.toNat % 16) (Nat.mod_lt _ (by decide))).2.2
  have hnewline : isUnreserved 10 = false := by decide
  unfold escapedByte at h
  split at h
  · rename_i hb
    exact ne_of_isUnreserved hb hnewline (List.mem_singleton.mp h).symm
  · simp only [List.mem_cons, List.not_mem_nil, or_false] at h
    obtain h | h | h | h := h
    · cases h
    · cases h
    · exact ne_of_isUnreserved hhigh hnewline h.symm
    · exact ne_of_isUnreserved hlow hnewline h.symm

/-- What the page has encoded is decoded, if `echo` takes it for a text. -/
theorem urldecode_encode (h : isEchoOption (encodeURIComponent s) = false) :
    urldecode printf (encodeURIComponent s) = s := by
  have hplus : plusToSpace (encodeURIComponent s ++ [10]) = encodeURIComponent s ++ [10] := by
    refine (List.map_congr_left fun b hb => ?_).trans (List.map_id _)
    obtain hb | hb := List.mem_append.mp hb
    · exact if_neg fun heq => notMem_encode (by decide) (by decide) s (heq ▸ hb)
    · obtain rfl := List.mem_singleton.mp hb
      rfl
  have hdrop : output (s.flatMap escapedByte ++ [10]) = s.flatMap escapedByte := by
    have hconcat := List.rdropWhile_concat_pos (fun b : Byte => decide (b = 10)) (s.flatMap escapedByte) 10
      (decide_eq_true rfl)
    exact hconcat.trans (output_eq_self fun hlast => newline_notMem_escaped s (List.mem_of_getLast? hlast))
  have hescape : escapeHex (encodeURIComponent s ++ [10]) = s.flatMap escapedByte ++ [10] := escapeHex_encode s [10]
  rw [urldecode, echo, if_neg (Bool.eq_false_iff.mp h), hplus, hescape, hdrop, print_escaped]

/-- One pair, and no separator in it. -/
theorem splitOn_pair (hpairs : 38 ∉ key) (s : List Byte) :
    (key ++ 61 :: encodeURIComponent s).splitOn 38 = [key ++ 61 :: encodeURIComponent s] := by
  refine List.splitOn_eq_singleton fun hmem => ?_
  obtain hmem | hmem := List.mem_append.mp hmem
  · exact hpairs hmem
  · obtain hmem | hmem := List.mem_cons.mp hmem
    · cases hmem
    · exact notMem_encode (by decide) (by decide) s hmem

/-- A text that begins with a slash comes out of the query as it was put in. -/
theorem getParam_encode (hkey : 61 ∉ key) (hpairs : 38 ∉ key) (hslash : s.head? = some 47) (hnul : 0 ∉ s)
    (hline : s.getLast? ≠ some 10) (hglob : glob.expand (key ++ 61 :: encodeURIComponent s) =
      [key ++ 61 :: encodeURIComponent s]) :
    getParam glob printf key (key ++ 61 :: encodeURIComponent s) = s := by
  have hof : Lines.isOf key (key ++ 61 :: encodeURIComponent s) = true := Lines.isOf_iff.mpr ⟨_, rfl⟩
  have hoption : isEchoOption (encodeURIComponent s) = false := by
    obtain ⟨rest, rfl⟩ := List.head?_eq_some_iff.mp hslash
    rfl
  have hfilter : s.filter (· ≠ 0) = s := by
    refine List.filter_eq_self.mpr fun b hb => decide_eq_true ?_
    rintro rfl
    exact hnul hb
  rw [getParam, splitOn_pair hpairs, List.flatMap_singleton, hglob, List.find?_cons_of_pos (by rw [hof, Bool.true_or])]
  simp only [hof, if_true]
  rw [dropWhile_cut hkey, List.tail_cons, urldecode_encode hoption, hfilter, output_eq_self hline]

/-- There is no other parameter in it. -/
theorem getParam_other {key' : List Byte} (hkey : 61 ∉ key) (hkey' : 61 ∉ key') (hpairs : 38 ∉ key) (hne : key' ≠ key)
    (hglob : glob.expand (key ++ 61 :: encodeURIComponent s) = [key ++ 61 :: encodeURIComponent s]) :
    getParam glob printf key' (key ++ 61 :: encodeURIComponent s) = [] := by
  have hof : Lines.isOf key' (key ++ 61 :: encodeURIComponent s) = false :=
    Lines.isOf_of_ne hkey hkey' hne (Lines.isOf_iff.mpr ⟨_, rfl⟩)
  have hkeyed : key ++ 61 :: encodeURIComponent s ≠ key' := by
    rintro rfl
    exact hkey' (List.mem_append_right _ List.mem_cons_self)
  rw [getParam, splitOn_pair hpairs, List.flatMap_singleton, hglob,
    List.find?_cons_of_neg (by rw [hof, Bool.false_or, decide_eq_true_eq]; exact hkeyed), List.find?_nil]

end Transport

/-! ### What is shown -/

section Shown
variable {p : List (List Byte)} {n m : List Byte}

theorem squeeze_cons {b : Byte} (h : b ≠ 47) (s : List Byte) : squeeze (b :: s) = b :: squeeze s := by
  rw [squeeze, if_neg fun hb => h hb.1]

theorem squeeze_name (hn : 47 ∉ n) (s : List Byte) : squeeze (n ++ s) = n ++ squeeze s := by
  induction n with
  | nil => rfl
  | cons b n ih =>
    rw [List.mem_cons, not_or] at hn
    rw [List.cons_append, squeeze_cons (Ne.symm hn.1), ih hn.2, List.cons_append]

theorem squeeze_slash (hn : isName n = true) (s : List Byte) : squeeze (47 :: n ++ s) = 47 :: n ++ squeeze s := by
  obtain ⟨hne, -, -, hslash⟩ := FileTree.isName_ne hn
  obtain ⟨b, n, rfl⟩ := List.exists_cons_of_ne_nil hne
  rw [List.cons_append, squeeze, if_neg, squeeze_name hslash]
  · rfl
  · rintro ⟨-, hhead⟩
    exact hslash (Option.some_inj.mp hhead ▸ List.mem_cons_self)

theorem squeeze_path (hp : ∀ m ∈ p, isName m = true) (s : List Byte) :
    squeeze (p.flatMap (47 :: ·) ++ s) = p.flatMap (47 :: ·) ++ squeeze s := by
  induction p with
  | nil => rfl
  | cons m p ih =>
    rw [List.flatMap_cons, List.append_assoc, squeeze_slash (hp m List.mem_cons_self),
      ih fun x hx => hp x (List.mem_cons_of_mem m hx), List.append_assoc]

theorem squeeze_text (hp : ∀ m ∈ p, isName m = true) : squeeze (FileTree.text p) = FileTree.text p := by
  unfold FileTree.text
  split
  · rfl
  · have happend := squeeze_path hp []
    rwa [List.append_nil, squeeze, List.append_nil] at happend

theorem squeeze_entry (hp : ∀ m ∈ p ++ [n], isName m = true) :
    squeeze (FileTree.text p ++ 47 :: n) = (p ++ [n]).flatMap (47 :: ·) := by
  have hn : squeeze (47 :: n) = 47 :: n := by
    have hslash := squeeze_slash (hp n (List.mem_append_right p List.mem_cons_self)) []
    rwa [List.append_nil, squeeze, List.append_nil] at hslash
  unfold FileTree.text
  split
  · rename_i hnil
    subst hnil
    have htwo : squeeze ([47] ++ 47 :: n) = squeeze (47 :: n) := if_pos ⟨rfl, rfl⟩
    rw [htwo, hn]
    simp
  · rw [squeeze_path fun m hm => hp m (List.mem_append_left [n] hm), hn, List.flatMap_append, List.flatMap_singleton]

/-- The first arrow is the one behind the name. -/
theorem beforeArrow_append (h : ¬ascii " -> " <:+: n ++ [32]) (s : List Byte) :
    beforeArrow (n ++ ascii " -> " ++ s) = n := by
  induction n with
  | nil => exact if_pos (List.prefix_append _ s)
  | cons b n ih =>
    have hno : ¬ascii " -> " <+: b :: (n ++ ascii " -> " ++ s) := by
      rintro ⟨rest, hrest⟩
      match n with
      | [] => simp [ascii] at hrest
      | [c] => simp [ascii] at hrest
      | [c, d] =>
        simp [ascii] at hrest
        obtain ⟨rfl, rfl, rfl, -⟩ := hrest
        exact h (by decide)
      | c :: d :: e :: n =>
        simp [ascii] at hrest
        obtain ⟨rfl, rfl, rfl, rfl, -⟩ := hrest
        exact h ⟨[], n ++ [32], by simp [ascii]⟩
    have hbehind : ¬ascii " -> " <:+: n ++ [32] := fun hmem => h (hmem.trans (List.suffix_cons b _).isInfix)
    rw [List.cons_append, List.cons_append, beforeArrow, if_neg hno, ih hbehind]

/-- An entry that the listing shows under its name: printable, with single blanks inside of it, no backslash in the
path of its directory, and no arrow in the name of a link. -/
structure Legible (t : FileTree) (p : List (List Byte)) (n : List Byte) : Prop where
  printable : ∀ m ∈ p ++ [n], m.all isPrintable = true
  backslash : ∀ m ∈ p, 92 ∉ m
  blanks : Awk.join (Awk.fields n) = n
  arrow : ∀ target, t.node (p ++ [n]) = some (.link target) →
    ¬ascii " -> " <:+: n ++ [32] ∧ Awk.fields (Awk.record target) ≠ []

section Legible
variable (hname : isName n = true) (h : Legible t p n)
include h

theorem notMem_of_printable {b : Byte} (hb : isPrintable b = false) : ∀ m ∈ p ++ [n], b ∉ m := by
  intro m hm hmem
  rw [List.all_eq_true.mp (h.printable m hm) b hmem] at hb
  cases hb

include hname

theorem fields_ne_nil : Awk.fields n ≠ [] := by
  intro hnil
  have hjoin := h.blanks
  rw [hnil] at hjoin
  exact (FileTree.isName_ne hname).1 hjoin.symm

/-- The line has eight columns, and what stands behind them is the name. -/
theorem listedName_line : listedName (ls.line p n) = n := by
  have hmem := List.mem_append_right p (List.mem_singleton_self n)
  have hn : 10 ∉ n := notMem_of_printable h (by decide) n hmem
  have hrecord : ∀ s, Awk.record (ls.columns (p ++ [n]) ++ 32 :: (n ++ s)) =
      ls.columns (p ++ [n]) ++ 32 :: (n ++ Awk.record s) := by
    intro s
    have hfront : ∀ b ∈ ls.columns (p ++ [n]) ++ 32 :: n, decide (b ≠ 10) = true := by
      intro b hb
      refine decide_eq_true ?_
      rintro rfl
      obtain hb | hb := List.mem_append.mp hb
      · exact ls.oneLine _ hb
      · exact hn ((List.mem_cons.mp hb).resolve_left (by decide))
    have hsplit : ∀ s, ls.columns (p ++ [n]) ++ 32 :: (n ++ s) = ls.columns (p ++ [n]) ++ 32 :: n ++ s := by simp
    rw [hsplit, hsplit, Awk.record, List.takeWhile_append_of_pos hfront]
    rfl
  have hfields : ∀ s, (Awk.fields (ls.columns (p ++ [n]) ++ 32 :: s)).drop 8 = Awk.fields s ∧
      (Awk.fields (ls.columns (p ++ [n]) ++ 32 :: s)).headD [] = (Awk.fields (ls.columns (p ++ [n]))).headD [] := by
    intro s
    obtain ⟨perm, columns, hcolumns⟩ := List.exists_cons_of_length_eq_add_one (ls.eight (p ++ [n]))
    exact ⟨by rw [Awk.fields_append, List.drop_left' (ls.eight _)], by rw [Awk.fields_append, hcolumns]; rfl⟩
  rw [Ls.line, ls.plain n (h.printable n hmem), listedName]
  simp only [hrecord, hfields]
  split
  · rename_i hlink
    obtain ⟨target, htarget⟩ := (ls.link _).mp hlink
    obtain ⟨harrow, hblank⟩ := h.arrow target htarget
    have hbehind : n ++ Awk.record (ascii " -> " ++ target) = n ++ 32 :: (ascii "->" ++ 32 :: Awk.record target) := rfl
    have hpointer : Awk.fields (ascii "->") = [ascii "->"] := by decide
    simp only [htarget]
    rw [hbehind, Awk.fields_append, Awk.fields_append, hpointer, Awk.join_append (fields_ne_nil hname h) (by simp),
      Awk.join_append (List.cons_ne_nil _ _) hblank, h.blanks]
    have harrange : n ++ 32 :: (Awk.join [ascii "->"] ++ 32 :: Awk.join (Awk.fields (Awk.record target))) =
        n ++ ascii " -> " ++ Awk.join (Awk.fields (Awk.record target)) := by simp [Awk.join, ascii]
    rw [harrange]
    exact beforeArrow_append harrow _
  · rename_i hlink
    have hnone : (match t.node (p ++ [n]) with
        | some (.link target) => ascii " -> " ++ target
        | _ => []) = ([] : List Byte) := by
      split
      · rename_i target htarget
        exact absurd ((ls.link _).mpr ⟨target, htarget⟩) hlink
      · rfl
    rw [hnone, Awk.record, List.takeWhile_nil, List.append_nil, h.blanks]

end Legible

/-- The listing names such an entry by its physical path. -/
theorem listedPath_eq (hsome : (t.node (p ++ [n])).isSome = true) (h : Legible t p n) :
    listedPath assign ls p n = (p ++ [n]).flatMap (47 :: ·) := by
  have hnames : ∀ m ∈ p ++ [n], isName m = true := FileTree.isName_of_mem hsome
  have hp : ∀ m ∈ p, isName m = true := fun m hm => hnames m (List.mem_append_left [n] hm)
  have hlast : output (FileTree.text p) = FileTree.text p := by
    refine output_eq_self (getLast?_text fun m hm => ⟨hp m hm, fun hlast => ?_⟩)
    exact notMem_of_printable h (by decide) m (List.mem_append_left [n] hm) (List.mem_of_getLast? hlast)
  have hback : 92 ∉ FileTree.text p := by
    unfold FileTree.text
    split
    · decide
    · intro hmem
      obtain ⟨m, hm, hmem⟩ := List.mem_flatMap.mp hmem
      exact h.backslash m hm ((List.mem_cons.mp hmem).resolve_left (by decide))
  have hn := hnames n (List.mem_append_right p (List.mem_singleton_self n))
  rw [listedPath, hlast, squeeze_text hp, hlast, assign.plain _ hback, listedName_line ls hn h, squeeze_entry hnames]

/-- What is written between the quotes stands for the path. -/
theorem chars_escape {s : List Byte} (h : ∀ b ∈ s, isPrintable b = true) : JsonText.Chars (escape s) s := by
  induction s with
  | nil => exact .nil
  | cons b s ih =>
    have ih := ih fun c hc => h c (List.mem_cons_of_mem b hc)
    have hb := h b List.mem_cons_self
    rw [isPrintable, Bool.and_eq_true, decide_eq_true_eq] at hb
    rw [escape, List.flatMap_cons]
    split
    · rename_i hspecial
      obtain rfl | rfl := hspecial
      · exact .escape (by decide) ih
      · exact .escape (by decide) ih
    · rename_i hspecial
      have hreturn : b ≠ 13 := fun heq => absurd hb.1 (by rw [heq]; decide)
      have hline : b ≠ 10 := fun heq => absurd hb.1 (by rw [heq]; decide)
      rw [if_neg hreturn, if_neg hline]
      exact .byte hb.1 (fun h => hspecial (.inr h)) (fun h => hspecial (.inl h)) ih

theorem trimSlashes_name (hn : isName n = true) (s : List Byte) : trimSlashes (s ++ 47 :: n) = s ++ 47 :: n := by
  obtain ⟨hne, -, -, hslash⟩ := FileTree.isName_ne hn
  refine List.rdropWhile_eq_self_iff.mpr fun hall hlast => hslash ?_
  rw [List.getLast_append_of_right_ne_nil _ _ (List.cons_ne_nil 47 n), List.getLast_cons hne] at hlast
  exact of_decide_eq_true hlast ▸ List.getLast_mem hne

theorem rdropWhile_name (hslash : 47 ∉ n) (s : List Byte) :
    (s ++ 47 :: n).rdropWhile (fun b : Byte => decide (b ≠ 47)) = s ++ [47] := by
  have hall : n.rdropWhile (fun b : Byte => decide (b ≠ 47)) = [] := by
    refine List.rdropWhile_eq_nil_iff.mpr fun b hb => decide_eq_true ?_
    rintro rfl
    exact hslash hb
  rw [rdropWhile_append (by decide), hall]

theorem basename_entry (hn : isName n = true) (s : List Byte) : basename (s ++ 47 :: n) = n := by
  have htrim := trimSlashes_name hn s
  have hne : s ++ 47 :: n ≠ [] := List.append_ne_nil_of_right_ne_nil s (List.cons_ne_nil 47 n)
  rw [basename, if_neg hne, htrim, if_neg hne]
  have hsplit : (s ++ 47 :: n).rdropWhile (fun b : Byte => decide (b ≠ 47)) ++
      (s ++ 47 :: n).rtakeWhile (fun b : Byte => decide (b ≠ 47)) = s ++ 47 :: n := List.rdropWhile_append_rtakeWhile
  rw [rdropWhile_name (FileTree.isName_ne hn).2.2.2, List.append_assoc] at hsplit
  exact List.cons_inj_right 47 |>.mp (List.append_cancel_left hsplit)

theorem dirname_entry (hp : ∀ m ∈ p, isName m = true) (hn : isName n = true) :
    dirname (p.flatMap (47 :: ·) ++ 47 :: n) = FileTree.text p := by
  have htrim := trimSlashes_name hn (p.flatMap (47 :: ·))
  have hne : p.flatMap (47 :: ·) ++ 47 :: n ≠ [] :=
    List.append_ne_nil_of_right_ne_nil _ (List.cons_ne_nil 47 n)
  have hcontains : (p.flatMap (47 :: ·) ++ 47 :: n).contains (47 : Byte) = true :=
    List.contains_iff_mem.mpr (List.mem_append_right _ List.mem_cons_self)
  have hdrop : trimSlashes (p.flatMap (47 :: ·) ++ [47]) = trimSlashes (p.flatMap (47 :: ·)) :=
    List.rdropWhile_concat_pos _ _ _ (decide_eq_true rfl)
  rw [dirname, if_neg hne, htrim, if_neg hne, if_pos hcontains, rdropWhile_name (FileTree.isName_ne hn).2.2.2, hdrop]
  unfold FileTree.text
  obtain rfl | ⟨q, m, rfl⟩ := List.eq_nil_or_concat' p
  · rfl
  · have hm := trimSlashes_name (hp m (List.mem_append_right q List.mem_cons_self)) (q.flatMap (47 :: ·))
    have hsnoc : (q ++ [m]).flatMap (47 :: ·) = q.flatMap (47 :: ·) ++ 47 :: m := by
      rw [List.flatMap_append, List.flatMap_singleton]
    simp only [hsnoc, hm]
    rw [if_neg (List.append_ne_nil_of_right_ne_nil _ (List.cons_ne_nil 47 m)),
      if_neg (List.append_ne_nil_of_right_ne_nil q (List.cons_ne_nil m []))]

/-- The root has no entry that is mounted there. -/
theorem isMounted_top (hn : isName n = true) : isMounted (47 :: n) = false := by
  have hslash := (FileTree.isName_ne hn).2.2.2
  have hno : ∀ w : List Byte, 47 ∈ w → ¬47 :: w <+: 47 :: n := fun w hw h =>
    hslash ((List.cons_prefix_cons.mp h).2.subset hw)
  rw [isMounted, Bool.or_eq_false_iff, decide_eq_false_iff_not, decide_eq_false_iff_not]
  exact ⟨hno _ (by decide), hno _ (by decide)⟩

theorem isMounted_root (n : List Byte) : isMounted (FileTree.text [] ++ 47 :: n) = false := by
  rw [← Bool.not_eq_true, isMounted_text_iff fun _ hm => absurd hm List.not_mem_nil, List.head?_nil]
  exact fun h => h.elim nofun nofun

theorem delete_entry (hsome : (t.node (p ++ [n])).isSome = true) (hdir : t.node (p ++ [n]) ≠ some .dir)
    (hhas : t.has (FileTree.text p ++ 47 :: n) = true) (hline : ∀ m ∈ p ++ [n], m.getLast? ≠ some 10)
    (hwritable : writable p = true) {path : List Byte} (hpath : path = (p ++ [n]).flatMap (47 :: ·)) :
    delete cd writable (ascii "POST") path =
      if isMounted path then (.deleted, t.remove (p ++ [n]) hdir)
      else (.error 403 (ascii "Deletion only allowed on mounted partitions"), t) := by
  have hnames : ∀ m ∈ p ++ [n], isName m = true := FileTree.isName_of_mem hsome
  have hn := hnames n (List.mem_append_right p List.mem_cons_self)
  have hp : ∀ m ∈ p, isName m = true := fun m hm => hnames m (List.mem_append_left [n] hm)
  have hparent := (t.parent p n hsome).1
  have hflat : path = p.flatMap (47 :: ·) ++ 47 :: n := by
    rw [hpath, List.flatMap_append, List.flatMap_singleton]
  have hoff := hline n (List.mem_append_right p List.mem_cons_self)
  have hlines : ∀ m ∈ p, isName m = true ∧ m.getLast? ≠ some 10 := fun m hm =>
    ⟨hp m hm, hline m (List.mem_append_left [n] hm)⟩
  have hresolved : echoed (output (FileTree.text p) ++ 47 :: output n) = FileTree.text p ++ 47 :: n := by
    rw [resolved_eq hlines, output_eq_self hoff]
  have hmounted : isMounted (FileTree.text p ++ 47 :: n) = isMounted path := by
    rw [hflat]
    cases p with
    | nil => exact (isMounted_root n).trans (isMounted_top hn).symm
    | cons m p => rfl
  have hbase : basename path = n := hflat ▸ basename_entry hn _
  have hdirname : dirname path = FileTree.text p := hflat ▸ dirname_entry hp hn
  have hrm : rm writable t (FileTree.text p ++ 47 :: n) = some (t.remove (p ++ [n]) hdir) := by
    obtain ⟨hne, hdot, hdots, hslash⟩ := FileTree.isName_ne hn
    have hentry := FileTree.entry_below hparent hslash
    rw [if_neg (not_or.mpr ⟨hne, hdot⟩), if_neg hdots, if_pos hsome] at hentry
    rw [rm, hentry]
    simp only [hdir, dif_neg, not_false_iff, List.dropLast_concat, hwritable, if_true]
  rw [delete, if_neg (not_not.mpr rfl), hdirname, output_eq_self (getLast?_text hlines), cd.physical p hparent]
  simp only [hbase, hresolved, hmounted, hhas, hrm]
  cases isMounted path <;> rfl

theorem links_card (q : List (List Byte)) (target : List Byte) : card.node q ≠ some (.link target) := by
  have hnode : card.node q = if q = [ascii "mnt"] ++ [ascii "a b"] then some .file
      else if q = [] ++ [ascii "mnt"] then some .dir else if q = [] then some .dir else none := rfl
  rw [hnode]
  split
  · simp
  split
  · simp
  split
  · simp
  · simp

/-- `ls` on the card. -/
def Ls.ofCard : Ls card where
  columns q := ascii
    (if card.node q = some .dir then "drwxr-xr-x 2 0 0 4096 Jan 1 00:00" else "-rw-r--r-- 1 0 0 12 Jan 1 00:00")
  name := id
  eight q := by split <;> decide
  link q := by
    refine iff_of_false ?_ fun ⟨target, h⟩ => links_card q target h
    split <;> decide
  oneLine q := by split <;> decide
  plain _ _ := rfl

theorem legible_card : Legible card [ascii "mnt"] (ascii "a b") :=
  ⟨by decide, by decide, by decide, fun target h => absurd h (links_card _ target)⟩

end Shown

end FileManager

end Thingino.Web
