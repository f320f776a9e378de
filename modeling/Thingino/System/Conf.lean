import Thingino.Lib.Lines
import Thingino.Lib.Shell
import Thingino.Lib.SortUnique

/-! The tool `conf`.

A parameter is a line `key="value"`. It is read by `awk`, up to the next equals sign and without quotes; a parameter
that is there is replaced by `sed`, which takes backslashes for escapes; a new one is appended, and the lines are
sorted; and a script is imported by an `awk` program that reads the script and the file one after the other. -/
namespace Thingino.System.Conf
open Lib Lib.Shell Lib.Lines

/-- A line without its newline. -/
abbrev Line := List Byte

/-- `[a-zA-Z_]`. -/
def isIdentStart (b : Byte) : Bool := 65 ≤ b.toNat && b.toNat ≤ 90 || 97 ≤ b.toNat && b.toNat ≤ 122 || b = 95

def isIdent (s : List Byte) : Bool :=
  match s with
  | [] => false
  | b :: s => isIdentStart b && s.all fun c => isIdentStart c || isDigit c

/-- A key. -/
structure Ident where
  name : List Byte
  ident : isIdent name = true

/-- A text of one line. -/
structure OneLine where
  bytes : List Byte
  line : 10 ∉ bytes

/-- A value that is set. -/
structure Setting extends OneLine where
  nonempty : bytes ≠ []

/-- `key="value"`. -/
def entry (key value : List Byte) : Line := key ++ 61 :: 34 :: (value ++ [34])

/-- A configuration file. -/
structure Config where
  entries : List (Ident × OneLine)

def Config.file (c : Config) : List Line := c.entries.map fun e => entry e.1.name e.2.bytes

/-- `$1` and `$2`, with `-F=`. -/
def field1 (line : Line) : List Byte := line.takeWhile (· ≠ 61)

def field2 (line : Line) : List Byte := (line.dropWhile (· ≠ 61)).tail.takeWhile (· ≠ 61)

/-- What `g` prints of a line. -/
def shown (line : Line) : List Byte := (field2 line).filter (· ≠ 34)

/-- `conf g key`, the lines that are printed. -/
def get (key : List Byte) (file : List Line) : List Line := (file.filter (isOf key)).map shown

/-- `conf d key`. -/
def delete (key : List Byte) (file : List Line) : List Line := file.filter fun line => !isOf key line

/-- The escapes that `sed` takes in the text behind `c`. -/
def unescape : List Byte → List Byte
  | [] => []
  | [b] => [b]
  | b :: c :: s =>
    if b = 92 then (if c = 110 then 10 else if c = 116 then 9 else if c = 114 then 13 else c) :: unescape s
    else b :: unescape (c :: s)

/-- `conf s key value`; the `sed` that is to escape the quotes replaces a quote by a quote. -/
def set (key value : List Byte) (file : List Line) : List Line :=
  if value = [] then delete key file
  else if file.any (isOf key) then
    file.flatMap fun line => if isOf key line then (unescape (entry key (echoed value))).splitOn 10 else [line]
  else sortUnique lineLe ((file ++ [entry key (echoed value)]).filter fun line => !line.all isSpace)

/-! ### The script -/

/-- `/^[a-zA-Z_][a-zA-Z0-9_]*=/`. -/
def isAssignment (line : Line) : Bool := isIdent (field1 line) && line.contains 61

/-- `gsub(/^[[:space:]]+|[[:space:]]+$/, "", $0)`. -/
def trimmed (line : Line) : Line := (line.dropWhile isSpace).rdropWhile isSpace

/-- `gsub(/^"|"$/, "", s)`. -/
def unquote (s : List Byte) : List Byte :=
  let s := if s.head? = some 34 then s.tail else s
  if s.getLast? = some 34 then s.dropLast else s

/-- `gsub(/"/, "\\\"", s)`. -/
def escapeQuotes (s : List Byte) : List Byte := s.flatMap fun b => if b = 34 then [92, 34] else [b]

/-- `params`, and what has been printed. -/
structure Import where
  params : List (List Byte × List Byte)
  out : List Line

/-- The block that both files have. -/
def Import.print (p : Import) (line : Line) : Import :=
  match p.params.lookup (field1 line) with
  | some value => ⟨p.params.filter fun e => e.1 ≠ field1 line, p.out ++ [entry (field1 line) value]⟩
  | none => ⟨p.params, p.out ++ [line]⟩

/-- A record with `NR==FNR`. -/
def Import.read (p : Import) (line : Line) : Import :=
  if isAssignment line then
    let key := field1 (trimmed line)
    ⟨(key, escapeQuotes (unquote (field2 (trimmed line)))) :: p.params.filter fun e => e.1 ≠ key, p.out⟩
  else p.print line

/-- `conf --script`. The records of the file have `NR==FNR` as well when the script has none. -/
def importScript (script file : List Line) : List Line :=
  let p : Import := if script = [] then file.foldl Import.read ⟨[], []⟩
    else file.foldl Import.print (script.foldl Import.read ⟨[], []⟩)
  sortUnique lineLe (p.out ++ p.params.map fun e => entry e.1 e.2)

/-- The assignments of a script: a key, and what is behind the equals sign without the quotes around it. -/
def assignments (script : List Line) : List (List Byte × List Byte) :=
  (script.filter isAssignment).map fun line =>
    (field1 (trimmed line), unquote ((trimmed line).dropWhile (· ≠ 61)).tail)

/-- `conf s` for each of them. -/
def setAll (as : List (List Byte × List Byte)) (file : List Line) : List Line :=
  as.foldl (fun file a => set a.1 a.2 file) file

/-! ### Lines of a key -/

section Keys
variable {key key' value : List Byte} {line : Line} {file : List Line}

theorem notMem_ident (k : Ident) {b : Byte} (hb : isIdentStart b = false ∧ isDigit b = false) : b ∉ k.name := by
  have h := k.ident
  unfold isIdent at h
  split at h
  · exact absurd h Bool.false_ne_true
  · rename_i c s hname
    rw [Bool.and_eq_true] at h
    rw [hname, List.mem_cons, not_or]
    constructor
    · intro heq
      rw [← heq, hb.1] at h
      exact absurd h.1 Bool.false_ne_true
    · intro hmem
      have hpart := List.all_eq_true.mp h.2 b hmem
      rw [hb.1, hb.2] at hpart
      exact absurd hpart Bool.false_ne_true

theorem equals_notMem_ident (k : Ident) : 61 ∉ k.name := notMem_ident k (by decide)

theorem isOf_entry (key value : List Byte) : isOf key (entry key value) = true := isOf_iff.mpr ⟨_, rfl⟩

/-- A line with a key is not blank. -/
theorem not_blank (h : isOf key line = true) : line.all isSpace = false := by
  obtain ⟨rest, rfl⟩ := isOf_iff.mp h
  rw [List.all_append, List.all_cons]
  exact Bool.and_false _

/-- What a line shows. -/
theorem shown_append (hkey : 61 ∉ key) (rest : List Byte) :
    shown (key ++ 61 :: rest) = (rest.takeWhile (· ≠ 61)).filter (· ≠ 34) := by
  rw [shown, field2, dropWhile_cut hkey, List.tail_cons]

theorem shown_entry (hkey : 61 ∉ key) (value : List Byte) :
    shown (entry key value) = (value.takeWhile (· ≠ 61)).filter (· ≠ 34) := by
  have hquote : (34 :: (value ++ [34])).takeWhile (· ≠ 61) = 34 :: (value ++ [34]).takeWhile (· ≠ (61 : Byte)) :=
    List.takeWhile_cons_of_pos (by decide)
  rw [entry, shown_append hkey, hquote, List.filter_cons_of_neg (by decide), List.takeWhile_append]
  split
  · rename_i hall
    have heq : value.takeWhile (· ≠ 61) = value := (List.takeWhile_prefix _).eq_of_length hall
    rw [List.filter_append, heq]
    exact List.append_nil _
  · rfl

/-! ### The operations, key by key -/

/-- The lines of a key. -/
def linesOf (key : List Byte) (file : List Line) : List Line := file.filter (isOf key)

theorem get_eq (key : List Byte) (file : List Line) : get key file = (linesOf key file).map shown := rfl

theorem linesOf_delete (key : List Byte) (file : List Line) : linesOf key (delete key file) = [] := by
  refine List.filter_eq_nil_iff.mpr fun line hline h => ?_
  have hnot := (List.mem_filter.mp hline).2
  rw [h] at hnot
  exact absurd hnot Bool.false_ne_true

theorem get_delete (key : List Byte) (file : List Line) : get key (delete key file) = [] := by
  rw [get_eq, linesOf_delete]
  rfl

theorem any_iff : file.any (isOf key) = true ↔ linesOf key file ≠ [] := by
  rw [List.any_eq_true, ne_eq, linesOf, List.filter_eq_nil_iff]
  simp only [not_forall, Decidable.not_not, exists_prop]

/-- A text without backslashes has no escapes. -/
theorem unescape_of_notMem {s : List Byte} (h : 92 ∉ s) : unescape s = s := by
  induction s using unescape.induct with
  | case1 => rfl
  | case2 b => rfl
  | case3 c s ih => exact absurd List.mem_cons_self h
  | case4 b c s hb ih => rw [unescape, if_neg hb, ih fun hmem => h (List.mem_cons_of_mem b hmem)]

/-- What is there is replaced, -/
theorem set_of_any (hvalue : value ≠ []) (h : file.any (isOf key) = true) : set key value file =
    file.flatMap fun line => if isOf key line then (unescape (entry key (echoed value))).splitOn 10 else [line] := by
  rw [set, if_neg hvalue, if_pos h]

/-- and what is new is appended. -/
theorem set_of_not_any (hvalue : value ≠ []) (h : file.any (isOf key) = false) : set key value file =
    sortUnique lineLe ((file ++ [entry key (echoed value)]).filter fun line => !line.all isSpace) := by
  rw [set, if_neg hvalue, if_neg (Bool.eq_false_iff.mp h)]

theorem linesOf_not_blank (key : List Byte) (file : List Line) :
    linesOf key (file.filter fun line => !line.all isSpace) = linesOf key file := by
  rw [linesOf, List.filter_filter]
  refine List.filter_congr fun line _ => ?_
  cases h : isOf key line with
  | false => rfl
  | true => rw [not_blank h]; rfl

theorem linesOf_set_new (hkey : 61 ∉ key) (hkey' : 61 ∉ key') (hvalue : value ≠ []) (h : file.any (isOf key) = false) :
    linesOf key' (set key value file) =
      if key' = key then [entry key (echoed value)] else sortUnique lineLe (linesOf key' file) := by
  have hnone : linesOf key file = [] := by
    by_contra hne
    exact Bool.eq_false_iff.mp h (any_iff.mpr hne)
  have hline : linesOf key' (set key value file) =
      sortUnique lineLe (linesOf key' file ++ linesOf key' [entry key (echoed value)]) := by
    rw [set_of_not_any hvalue h, linesOf, filter_sortUnique]
    exact congrArg (sortUnique lineLe) ((linesOf_not_blank key' _).trans (List.filter_append _ _))
  rw [hline]
  split
  · rename_i heq
    rw [heq, hnone, List.nil_append, linesOf, List.filter_cons_of_pos (isOf_entry key _)]
    rfl
  · rename_i hne
    have hother : isOf key' (entry key (echoed value)) = false := isOf_of_ne hkey hkey' hne (isOf_entry key _)
    rw [linesOf, linesOf, List.filter_cons_of_neg (Bool.eq_false_iff.mp hother), List.filter_nil, List.append_nil]

/-- Each line of a key is replaced by a line and others of no key, and other lines stay. -/
theorem linesOf_set_pieces {first : Line} {more : List Line} (hkey : 61 ∉ key) (hkey' : 61 ∉ key') (hvalue : value ≠ [])
    (h : file.any (isOf key) = true) (hpieces : (unescape (entry key (echoed value))).splitOn 10 = first :: more)
    (hfirst : isOf key first = true) (hmore : ∀ piece ∈ more, isOf key' piece = false) :
    linesOf key' (set key value file) =
      if key' = key then (linesOf key file).map fun _ => first else linesOf key' file := by
  have hnone : more.filter (isOf key') = [] :=
    List.filter_eq_nil_iff.mpr fun piece hpiece => Bool.eq_false_iff.mp (hmore piece hpiece)
  rw [set_of_any hvalue h, hpieces]
  clear hpieces h
  unfold linesOf
  induction file with
  | nil => split <;> rfl
  | cons line file ih =>
    rw [List.flatMap_cons, List.filter_append, ih]
    by_cases hof : isOf key line = true
    · rw [if_pos hof]
      split
      · rename_i heq
        rw [heq] at hnone ⊢
        rw [List.filter_cons_of_pos hfirst, hnone, List.filter_cons_of_pos hof]
        rfl
      · rename_i hne
        rw [List.filter_cons_of_neg (Bool.eq_false_iff.mp (isOf_of_ne hkey hkey' hne hfirst)), hnone,
          List.filter_cons_of_neg (Bool.eq_false_iff.mp (isOf_of_ne hkey hkey' hne hof))]
        rfl
    · rw [if_neg hof]
      split
      · rename_i heq
        rw [heq, List.filter_cons_of_neg hof, List.filter_nil, List.filter_cons_of_neg hof]
        rfl
      · rw [← List.filter_append]
        rfl

/-- A value without escapes replaces each line of its key, and leaves the other lines. -/
theorem linesOf_set_old (hkey : 61 ∉ key) (hkey' : 61 ∉ key') (hvalue : value ≠ []) (hback : 92 ∉ key ++ echoed value)
    (hline : 10 ∉ key ++ echoed value) (h : file.any (isOf key) = true) :
    linesOf key' (set key value file) =
      if key' = key then (linesOf key file).map fun _ => entry key (echoed value) else linesOf key' file := by
  have hnotMem {b : Byte} (hb : b ∉ key ++ echoed value) (hplain : b ≠ 61 ∧ b ≠ 34) : b ∉ entry key (echoed value) := by
    rw [List.mem_append, not_or] at hb
    unfold entry
    simp only [List.mem_append, List.mem_cons, List.not_mem_nil, or_false, not_or]
    exact ⟨hb.1, hplain.1, hplain.2, hb.2, hplain.2⟩
  have hpiece : (unescape (entry key (echoed value))).splitOn 10 = [entry key (echoed value)] := by
    rw [unescape_of_notMem (hnotMem hback (by decide))]
    exact splitOn_line (hnotMem hline (by decide))
  exact linesOf_set_pieces hkey hkey' hvalue h hpiece (isOf_entry key _) fun piece hmem => absurd hmem List.not_mem_nil

/-! ### What is printed of a value -/

/-- Only a value without equals signs and quotes is shown as it is. -/
theorem shown_entry_iff (hkey : 61 ∉ key) : shown (entry key value) = value ↔ 61 ∉ value ∧ 34 ∉ value := by
  rw [shown_entry hkey]
  constructor
  · intro h
    constructor
    · intro hmem
      rw [← h] at hmem
      have hne := List.mem_takeWhile_imp (List.mem_filter.mp hmem).1
      exact absurd hne (by decide)
    · intro hmem
      rw [← h] at hmem
      exact absurd (List.mem_filter.mp hmem).2 (by decide)
  · rintro ⟨hequals, hquote⟩
    have htake : value.takeWhile (· ≠ 61) = value :=
      List.takeWhile_eq_self_iff.mpr (all_ne_of_notMem hequals)
    rw [htake]
    exact List.filter_eq_self.mpr (all_ne_of_notMem hquote)

theorem unescape_append {a : List Byte} (h : 92 ∉ a) (s : List Byte) : unescape (a ++ s) = a ++ unescape s := by
  induction a with
  | nil => rfl
  | cons b a ih =>
    rw [List.mem_cons, not_or] at h
    have hcons (t : List Byte) : unescape (b :: t) = b :: unescape t := by
      cases t with
      | nil => rfl
      | cons c t => rw [unescape, if_neg (Ne.symm h.1)]
    rw [List.cons_append, hcons, ih h.2, List.cons_append]

/-- The quote behind a value stays, and each escape takes a byte. -/
theorem unescape_quote (s : List Byte) :
    ∃ t, unescape (s ++ [34]) = t ++ [34] ∧ t.length ≤ s.length ∧ (92 ∈ s → t.length < s.length) := by
  induction s using unescape.induct with
  | case1 => exact ⟨[], rfl, le_rfl, fun h => absurd h List.not_mem_nil⟩
  | case2 b =>
    by_cases hb : b = 92
    · exact ⟨[], by rw [hb]; rfl, Nat.zero_le _, fun _ => Nat.zero_lt_one⟩
    · refine ⟨[b], ?_, le_rfl, fun h => absurd (List.mem_singleton.mp h).symm hb⟩
      rw [List.singleton_append, unescape, if_neg hb]
      rfl
  | case3 c s ih =>
    obtain ⟨t, ht, hlength, -⟩ := ih
    refine ⟨(if c = 110 then 10 else if c = 116 then 9 else if c = 114 then 13 else c) :: t, ?_, ?_, fun _ => ?_⟩
    · rw [List.cons_append, List.cons_append, unescape, if_pos rfl, ht, List.cons_append]
    · simp only [List.length_cons]
      omega
    · simp only [List.length_cons]
      omega
  | case4 b c s hb ih =>
    obtain ⟨t, ht, hlength, hshort⟩ := ih
    refine ⟨b :: t, ?_, Nat.succ_le_succ hlength, fun h => Nat.succ_lt_succ (hshort ?_)⟩
    · rw [List.cons_append, List.cons_append, unescape, if_neg hb, ← List.cons_append, ht, List.cons_append]
    · exact (List.mem_cons.mp h).resolve_left fun heq => hb heq.symm

/-- A value with a backslash is not shown where its key is there already: what is shown first is shorter. -/
theorem get_set_backslash {k : Ident} (hvalue : value ≠ []) (hoption : isEchoOption value = false) (hline : 10 ∉ value)
    (hback : 92 ∈ value) (h : file.any (isOf k.name) = true) :
    ∃ s ∈ get k.name (set k.name value file), s.length < value.length := by
  obtain ⟨t, ht, -, hshort⟩ := unescape_quote value
  have htext : unescape (entry k.name value) = k.name ++ 61 :: 34 :: (t ++ [34]) := by
    have hplain : 92 ∉ k.name ++ [61, 34] := by
      rw [List.mem_append, not_or]
      exact ⟨notMem_ident k (by decide), by decide⟩
    have hentry : entry k.name value = (k.name ++ [61, 34]) ++ (value ++ [34]) := by
      rw [entry, List.append_assoc]
      rfl
    rw [hentry, unescape_append hplain, ht, List.append_assoc]
    rfl
  -- The first piece begins with the key.
  have hpiece : (unescape (entry k.name value)).takeWhile (· ≠ 10) =
      k.name ++ 61 :: 34 :: (t ++ [34]).takeWhile (· ≠ 10) := by
    have hall : ∀ b ∈ k.name, decide (b ≠ 10) = true := all_ne_of_notMem (notMem_ident k (by decide))
    rw [htext, List.takeWhile_append_of_pos hall, List.takeWhile_cons_of_pos (by decide),
      List.takeWhile_cons_of_pos (by decide)]
  obtain ⟨line, hmem, hof⟩ := List.any_eq_true.mp h
  have hset : k.name ++ 61 :: 34 :: (t ++ [34]).takeWhile (· ≠ 10) ∈ set k.name value file := by
    rw [set_of_any hvalue h, echoed_of_line hoption hline]
    refine List.mem_flatMap.mpr ⟨line, hmem, ?_⟩
    rw [if_pos hof, ← hpiece, splitOn_eq_cons]
    exact List.mem_cons_self
  refine ⟨_, List.mem_map_of_mem (List.mem_filter.mpr ⟨hset, isOf_iff.mpr ⟨_, rfl⟩⟩), lt_of_le_of_lt ?_ (hshort hback)⟩
  rw [shown_append (equals_notMem_ident k)]
  have hsub : (((34 :: (t ++ [34]).takeWhile (· ≠ 10)).takeWhile (· ≠ 61)).filter (· ≠ 34)).Sublist
      ((34 :: (t ++ [34])).filter (· ≠ 34)) :=
    ((List.takeWhile_sublist _).trans ((List.takeWhile_sublist _).cons_cons 34)).filter _
  have hwhole : (34 :: (t ++ [34])).filter (· ≠ 34) = t.filter (· ≠ 34) := by
    rw [List.filter_cons_of_neg (by decide), List.filter_append]
    exact List.append_nil _
  exact le_trans (hwhole ▸ hsub.length_le) (List.length_filter_le _ t)

end Keys

/-! ### One parameter -/

/-- **The first part of the property**: what is set is read, other keys are read as before, and what is deleted is
gone. -/
def Stores (c : Config) (k : Ident) (v : Setting) : Prop :=
  get k.name (set k.name v.bytes c.file) = [v.bytes] ∧
    (∀ j : Ident, j.name ≠ k.name → get j.name (set k.name v.bytes c.file) = get j.name c.file) ∧
      get k.name (delete k.name c.file) = []

/-- Sorting does not change what is read of a key. -/
def SortKeeps (file : List Line) (key : List Byte) : Prop :=
  (sortUnique lineLe (linesOf key file)).map shown = (linesOf key file).map shown

/-- The value is no option of `echo`, and has no equals sign and no quote; a new key leaves what others have in several
lines, and a key that is there has one line, and the value no backslash. -/
def Storable (c : Config) (k : Ident) (v : Setting) : Prop :=
  isEchoOption v.bytes = false ∧ 61 ∉ v.bytes ∧ 34 ∉ v.bytes ∧
    if linesOf k.name c.file = [] then ∀ j : Ident, j.name ≠ k.name → SortKeeps c.file j.name
    else (linesOf k.name c.file).length = 1 ∧ 92 ∉ v.bytes

section Parameter
variable {c : Config} {k : Ident} {v : Setting}

theorem shown_echoed_iff (k : Ident) (v : Setting) : shown (entry k.name (echoed v.bytes)) = v.bytes ↔
    isEchoOption v.bytes = false ∧ 61 ∉ v.bytes ∧ 34 ∉ v.bytes := by
  cases hoption : isEchoOption v.bytes with
  | true =>
    refine iff_of_false (fun h => v.nonempty ?_) fun h => absurd h.1.symm Bool.false_ne_true
    rw [echoed_of_option hoption, shown_entry (equals_notMem_ident k)] at h
    exact h.symm
  | false =>
    rw [echoed_of_line hoption v.line, shown_entry_iff (equals_notMem_ident k)]
    exact (and_iff_right rfl).symm

/-- A new key. -/
theorem stores_new_iff (h : c.file.any (isOf k.name) = false) : Stores c k v ↔
    (isEchoOption v.bytes = false ∧ 61 ∉ v.bytes ∧ 34 ∉ v.bytes) ∧
      ∀ j : Ident, j.name ≠ k.name → SortKeeps c.file j.name := by
  have hlines (j : Ident) := linesOf_set_new (equals_notMem_ident k) (equals_notMem_ident j) v.nonempty h
  unfold Stores
  rw [and_iff_left (get_delete k.name c.file), get_eq, hlines k, if_pos rfl, List.map_singleton,
    List.singleton_inj, shown_echoed_iff]
  refine and_congr_right fun _ => forall_congr' fun j => forall_congr' fun hne => ?_
  rw [get_eq, hlines j, if_neg hne]
  rfl

/-- A key that is there. -/
theorem stores_old_iff (h : c.file.any (isOf k.name) = true) : Stores c k v ↔
    (isEchoOption v.bytes = false ∧ 61 ∉ v.bytes ∧ 34 ∉ v.bytes) ∧
      (linesOf k.name c.file).length = 1 ∧ 92 ∉ v.bytes := by
  have hnot {b : Byte} (hb : isIdentStart b = false ∧ isDigit b = false) (hv : b ∉ echoed v.bytes) :
      b ∉ k.name ++ echoed v.bytes := by
    rw [List.mem_append, not_or]
    exact ⟨notMem_ident k hb, hv⟩
  have hline : 10 ∉ echoed v.bytes := by
    cases hoption : isEchoOption v.bytes with
    | true => rw [echoed_of_option hoption]; exact List.not_mem_nil
    | false => rw [echoed_of_line hoption v.line]; exact v.line
  by_cases hback : 92 ∈ echoed v.bytes
  · have hoption : isEchoOption v.bytes = false := by
      by_contra hoption
      rw [echoed_of_option (Bool.eq_true_of_not_eq_false hoption)] at hback
      exact List.not_mem_nil hback
    rw [echoed_of_line hoption v.line] at hback
    refine iff_of_false (fun hstores => ?_) fun hcond => hcond.2.2 hback
    obtain ⟨s, hs, hshort⟩ := get_set_backslash v.nonempty hoption v.line hback h
    rw [hstores.1, List.mem_singleton] at hs
    exact absurd (hs ▸ hshort) (lt_irrefl _)
  · have hlines (j : Ident) := linesOf_set_old (equals_notMem_ident k) (equals_notMem_ident j) v.nonempty
      (hnot (by decide) hback) (hnot (by decide) hline) h
    have hothers (j : Ident) (hne : j.name ≠ k.name) :
        get j.name (set k.name v.bytes c.file) = get j.name c.file := by
      rw [get_eq, hlines j, if_neg hne]
      rfl
    unfold Stores
    rw [and_iff_left (get_delete k.name c.file), and_iff_left hothers, get_eq, hlines k, if_pos rfl, List.map_map]
    have hne := any_iff.mp h
    constructor
    · intro hget
      have hlength : (linesOf k.name c.file).length = 1 := by
        have hmap := congrArg List.length hget
        rw [List.length_map] at hmap
        exact hmap
      obtain ⟨line, hone⟩ := List.length_eq_one_iff.mp hlength
      rw [hone, List.map_singleton, List.singleton_inj] at hget
      have hplain := (shown_echoed_iff k v).mp hget
      rw [echoed_of_line hplain.1 v.line] at hback
      exact ⟨hplain, hlength, hback⟩
    · rintro ⟨hplain, hlength, -⟩
      obtain ⟨line, hone⟩ := List.length_eq_one_iff.mp hlength
      rw [hone, List.map_singleton, List.singleton_inj]
      exact (shown_echoed_iff k v).mpr hplain

theorem stores_iff (c : Config) (k : Ident) (v : Setting) : Stores c k v ↔ Storable c k v := by
  unfold Storable
  cases h : c.file.any (isOf k.name) with
  | true =>
    rw [stores_old_iff h, if_neg (any_iff.mp h)]
    tauto
  | false =>
    have hnone : linesOf k.name c.file = [] := by
      by_contra hne
      exact Bool.eq_false_iff.mp h (any_iff.mpr hne)
    rw [stores_new_iff h, if_pos hnone]
    tauto

end Parameter

/-! ### Assignments one by one -/

section SetAll
variable {known : List (List Byte)} {as : List (List Byte × List Byte)} {a : List Byte × List Byte} {file : List Line}
  {k j : Ident} {value : List Byte}

/-- The keys that are there behind an assignment; an empty value takes its key away. -/
def assigned (known : List (List Byte)) (a : List Byte × List Byte) : List (List Byte) :=
  if a.2 = [] then known.filter (· ≠ a.1) else a.1 :: known

/-- The value of the last assignment to a key, and whether the key was there before it. -/
def lastSet (key : List Byte) : List (List Byte) → List (List Byte × List Byte) → Option (Bool × List Byte)
  | _, [] => none
  | known, a :: as => (lastSet key (assigned known a) as).or (if a.1 = key then some (known.contains key, a.2) else none)

/-- One of the keys is new where it is set, so that the lines are sorted. -/
def addsKey : List (List Byte) → List (List Byte × List Byte) → Bool
  | _, [] => false
  | known, a :: as => (a.2 ≠ [] && !known.contains a.1) || addsKey (assigned known a) as

/-- Where a key is there, the escapes in its new value do not make another line with a key. -/
def harmless : List (List Byte) → List (List Byte × List Byte) → Bool
  | _, [] => true
  | known, a :: as =>
    (!known.contains a.1 || ((unescape (entry a.1 (echoed a.2))).splitOn 10).tail.all (!isAssignment ·)) &&
      harmless (assigned known a) as

/-- The line that is left of a key when it is set. -/
def setLine (there : Bool) (key value : List Byte) : Line :=
  if there then (unescape (entry key (echoed value))).takeWhile (· ≠ 10) else entry key (echoed value)

/-- The keys of a file. -/
def Knows (known : List (List Byte)) (file : List Line) : Prop := ∀ k : Ident, k.name ∈ known ↔ linesOf k.name file ≠ []

theorem linesOf_delete_other (hne : k.name ≠ j.name) (file : List Line) :
    linesOf k.name (delete j.name file) = linesOf k.name file := by
  rw [linesOf, delete, List.filter_filter]
  refine List.filter_congr fun line _ => ?_
  cases h : isOf k.name line with
  | false => rfl
  | true =>
    rw [isOf_of_ne (equals_notMem_ident k) (equals_notMem_ident j) (Ne.symm hne) h]
    rfl

/-- A line with a key is an assignment. -/
theorem isAssignment_of_isOf {line : Line} (h : isOf k.name line = true) : isAssignment line = true := by
  obtain ⟨rest, rfl⟩ := isOf_iff.mp h
  have hfield : field1 (k.name ++ 61 :: rest) = k.name := takeWhile_cut (equals_notMem_ident k) rest
  rw [isAssignment, hfield, k.ident, Bool.true_and, List.contains_iff_mem]
  exact List.mem_append_right _ List.mem_cons_self

/-- The text that replaces a line begins with the key. -/
theorem unescape_entry (k : Ident) (value : List Byte) :
    unescape (entry k.name value) = k.name ++ 61 :: 34 :: unescape (value ++ [34]) := by
  have hplain : 92 ∉ k.name ++ [61, 34] := by
    rw [List.mem_append, not_or]
    exact ⟨notMem_ident k (by decide), by decide⟩
  have hentry : entry k.name value = (k.name ++ [61, 34]) ++ (value ++ [34]) := by
    rw [entry, List.append_assoc]
    rfl
  rw [hentry, unescape_append hplain, List.append_assoc]
  rfl

theorem takeWhile_name (k : Ident) (rest : List Byte) :
    (k.name ++ 61 :: 34 :: rest).takeWhile (· ≠ 10) = k.name ++ 61 :: 34 :: rest.takeWhile (· ≠ 10) := by
  rw [List.takeWhile_append_of_pos (all_ne_of_notMem (notMem_ident k (by decide))),
    List.takeWhile_cons_of_pos (by decide), List.takeWhile_cons_of_pos (by decide)]

/-- One assignment. -/
theorem linesOf_set (hharmless : linesOf j.name file ≠ [] →
    ((unescape (entry j.name (echoed value))).splitOn 10).tail.all (!isAssignment ·) = true) :
    linesOf k.name (set j.name value file) =
      if value = [] then if k.name = j.name then [] else linesOf k.name file
      else if k.name = j.name then
        if linesOf j.name file = [] then [entry j.name (echoed value)]
        else (linesOf j.name file).map fun _ => setLine true j.name value
      else if linesOf j.name file = [] then sortUnique lineLe (linesOf k.name file)
      else linesOf k.name file := by
  have hj := equals_notMem_ident j
  have hk := equals_notMem_ident k
  by_cases hvalue : value = []
  · rw [set, if_pos hvalue, if_pos hvalue]
    split
    · rename_i heq
      rw [heq, linesOf_delete]
    · rename_i hne
      exact linesOf_delete_other hne file
  · rw [if_neg hvalue]
    cases hany : file.any (isOf j.name) with
    | false =>
      have hnone : linesOf j.name file = [] := by
        by_contra hne
        exact Bool.eq_false_iff.mp hany (any_iff.mpr hne)
      rw [linesOf_set_new hj hk hvalue hany, if_pos hnone, if_pos hnone]
    | true =>
      have hne := any_iff.mp hany
      have hfirst : isOf j.name (setLine true j.name value) = true := by
        rw [setLine, if_pos rfl, unescape_entry, takeWhile_name]
        exact isOf_iff.mpr ⟨_, rfl⟩
      have hmore : ∀ piece ∈ ((unescape (entry j.name (echoed value))).splitOn 10).tail, isOf k.name piece = false := by
        intro piece hpiece
        refine Bool.eq_false_iff.mpr fun hof => ?_
        have hnot := List.all_eq_true.mp (hharmless hne) piece hpiece
        rw [isAssignment_of_isOf hof] at hnot
        exact Bool.false_ne_true hnot
      rw [linesOf_set_pieces hj hk hvalue hany (splitOn_eq_cons 10 _) hfirst hmore, if_neg hne, if_neg hne]
      rfl

theorem knows_set (h : Knows known file) (hharmless : linesOf j.name file ≠ [] →
    ((unescape (entry j.name (echoed value))).splitOn 10).tail.all (!isAssignment ·) = true) :
    Knows (assigned known (j.name, value)) (set j.name value file) := by
  intro k
  rw [linesOf_set hharmless, assigned]
  dsimp only
  by_cases hvalue : value = []
  · rw [if_pos hvalue, if_pos hvalue, List.mem_filter, decide_eq_true_eq]
    split
    · rename_i heq
      exact iff_of_false (fun hmem => hmem.2 heq) (fun hne => hne rfl)
    · rename_i hne
      rw [and_iff_left hne, h k]
  · rw [if_neg hvalue, if_neg hvalue, List.mem_cons]
    split
    · rename_i heq
      refine iff_of_true (.inl heq) ?_
      split
      · exact List.cons_ne_nil _ _
      · rename_i hne
        exact fun hnil => hne (List.map_eq_nil_iff.mp hnil)
    · rename_i hne
      rw [or_iff_right hne, h k]
      split
      · rw [ne_eq, ne_eq, sortUnique_eq_nil_iff]
      · rfl

/-- One assignment of a harmless script, where it is known which keys are there. -/
theorem linesOf_set_known (h : Knows known file) (hharmless : harmless known ((j.name, value) :: as) = true) :
    linesOf k.name (set j.name value file) =
        (if value = [] then if k.name = j.name then [] else linesOf k.name file
        else if k.name = j.name then
          if known.contains j.name then (linesOf k.name file).map fun _ => setLine true k.name value
          else [setLine false k.name value]
        else if known.contains j.name then linesOf k.name file
        else sortUnique lineLe (linesOf k.name file)) ∧
      Knows (assigned known (j.name, value)) (set j.name value file) := by
  rw [harmless, Bool.and_eq_true] at hharmless
  have hknown : known.contains j.name = true ↔ linesOf j.name file ≠ [] := List.contains_iff_mem.trans (h j)
  have hpieces : linesOf j.name file ≠ [] →
      ((unescape (entry j.name (echoed value))).splitOn 10).tail.all (!isAssignment ·) = true := by
    intro hne
    have hall := hharmless.1
    rw [hknown.mpr hne] at hall
    exact hall
  refine ⟨?_, knows_set h hpieces⟩
  rw [linesOf_set hpieces]
  by_cases hnone : linesOf j.name file = []
  · have hnew : known.contains j.name = false := Bool.eq_false_iff.mpr fun hmem => hknown.mp hmem hnone
    simp only [hnone, hnew, if_true, Bool.false_eq_true, if_false]
    split
    · rfl
    · split
      · rename_i heq
        rw [heq]
        rfl
      · rfl
  · simp only [hnone, hknown.mpr hnone, if_true, if_false]
    split
    · rfl
    · split
      · rename_i heq
        rw [heq]
      · rfl

/-- The lines with a key. -/
def parameters (file : List Line) : Nat := file.countP isAssignment

/-- A key that is there is set without a further line with a key. -/
def Replaces (file : List Line) (a : List Byte × List Byte) : Prop :=
  file.any (isOf a.1) = true → parameters (set a.1 a.2 file) ≤ parameters file

theorem parameters_replaced {first : Line} (more : List Line) (hfirst : isAssignment first = true) (file : List Line) :
    parameters (file.flatMap fun line => if isOf j.name line then first :: more else [line]) =
      parameters file + file.countP (isOf j.name) * more.countP isAssignment := by
  unfold parameters
  induction file with
  | nil => simp
  | cons line file ih =>
    rw [List.flatMap_cons, List.countP_append, ih]
    by_cases hof : isOf j.name line = true
    · rw [if_pos hof, List.countP_cons_of_pos hfirst, List.countP_cons_of_pos hof,
        List.countP_cons_of_pos (isAssignment_of_isOf hof), Nat.succ_mul]
      omega
    · rw [if_neg hof, List.countP_cons_of_neg hof, List.countP_cons, List.countP_cons, List.countP_nil]
      omega

theorem parameters_set_le_iff (hany : file.any (isOf j.name) = true) :
    parameters (set j.name value file) ≤ parameters file ↔
      ((unescape (entry j.name (echoed value))).splitOn 10).tail.all (!isAssignment ·) = true := by
  by_cases hvalue : value = []
  · rw [hvalue, set, if_pos rfl]
    refine iff_of_true List.filter_sublist.countP_le ?_
    have hplain : ∀ {b : Byte}, isIdentStart b = false ∧ isDigit b = false → b ∉ [61, 34, 34] → b ∉ entry j.name [] :=
      fun hident hquotes hmem => hquotes ((List.mem_append.mp hmem).resolve_left (notMem_ident j hident))
    have hnothing : echoed [] = [] := rfl
    rw [hnothing, unescape_of_notMem (hplain (by decide) (by decide)), splitOn_line (hplain (by decide) (by decide))]
    rfl
  · have hfirst : isAssignment (setLine true j.name value) = true := by
      refine isAssignment_of_isOf (k := j) ?_
      rw [setLine, if_pos rfl, unescape_entry, takeWhile_name]
      exact isOf_iff.mpr ⟨_, rfl⟩
    have hsome : 0 < file.countP (isOf j.name) := List.countP_pos_iff.mpr (List.any_eq_true.mp hany)
    have hcount : parameters (set j.name value file) = parameters file + file.countP (isOf j.name) *
        ((unescape (entry j.name (echoed value))).splitOn 10).tail.countP isAssignment := by
      rw [set_of_any hvalue hany, splitOn_eq_cons 10 (unescape (entry j.name (echoed value)))]
      exact parameters_replaced _ hfirst file
    have hall : ((unescape (entry j.name (echoed value))).splitOn 10).tail.all (!isAssignment ·) = true ↔
        ((unescape (entry j.name (echoed value))).splitOn 10).tail.countP isAssignment = 0 := by
      rw [List.all_eq_true, List.countP_eq_zero]
      simp only [Bool.not_eq_true', Bool.not_eq_true]
    rw [hcount, hall]
    constructor
    · intro hle
      by_contra hne
      have hmore := Nat.mul_pos hsome (Nat.pos_of_ne_zero hne)
      omega
    · intro hzero
      rw [hzero, Nat.mul_zero, Nat.add_zero]

/-- **A script is harmless exactly where each of its assignments, in its turn, leaves no further line with a key.** -/
theorem harmless_iff (h : Knows known file) (hkeys : ∀ a ∈ as, isIdent a.1 = true) : harmless known as = true ↔
    ∀ before a behind, as = before ++ a :: behind → Replaces (setAll before file) a := by
  induction as generalizing known file with
  | nil => exact iff_of_true rfl fun before a behind heq => absurd heq.symm (by simp)
  | cons a as ih =>
    obtain ⟨key, value⟩ := a
    obtain ⟨hident, hkeys⟩ := List.forall_mem_cons.mp hkeys
    let j : Ident := ⟨key, hident⟩
    have hknown : known.contains key = true ↔ file.any (isOf key) = true :=
      (List.contains_iff_mem.trans (h j)).trans any_iff.symm
    have hhead : (!known.contains key || ((unescape (entry key (echoed value))).splitOn 10).tail.all (!isAssignment ·)) =
        true ↔ Replaces file (key, value) := by
      rw [Replaces, Bool.or_eq_true, Bool.not_eq_true', Bool.eq_false_iff, ne_eq, hknown, ← imp_iff_not_or]
      exact imp_congr_right fun hany => (parameters_set_le_iff (j := j) hany).symm
    rw [harmless, Bool.and_eq_true, hhead]
    constructor
    · rintro ⟨hfirst, hrest⟩ before a behind heq
      cases before with
      | nil =>
        obtain ⟨rfl, -⟩ := List.cons.inj heq
        exact hfirst
      | cons b before =>
        obtain ⟨rfl, hbehind⟩ := List.cons.inj heq
        have hall : harmless known ((j.name, value) :: as) = true := by
          rw [harmless, Bool.and_eq_true]
          exact ⟨hhead.mpr hfirst, hrest⟩
        exact (ih (linesOf_set_known (k := j) h hall).2 hkeys).mp hrest before a behind hbehind
    · intro hall
      have hfirst := hall [] (key, value) as rfl
      refine ⟨hfirst, ?_⟩
      have hpieces : linesOf j.name file ≠ [] →
          ((unescape (entry j.name (echoed value))).splitOn 10).tail.all (!isAssignment ·) = true := fun hne =>
        (parameters_set_le_iff (j := j) (any_iff.mpr hne)).mp (hfirst (any_iff.mpr hne))
      exact (ih (knows_set h hpieces) hkeys).mpr fun before a behind heq =>
        hall ((key, value) :: before) a behind (congrArg (List.cons _) heq)

/-- A key that is not set keeps its lines, sorted if another one is added. -/
theorem linesOf_setAll_of_none (h : Knows known file) (hkeys : ∀ a ∈ as, isIdent a.1 = true)
    (hharmless : harmless known as = true) (hnone : lastSet k.name known as = none) :
    linesOf k.name (setAll as file) =
      if addsKey known as then sortUnique lineLe (linesOf k.name file) else linesOf k.name file := by
  induction as generalizing known file with
  | nil => rfl
  | cons a as ih =>
    obtain ⟨key, value⟩ := a
    obtain ⟨hident, hkeys⟩ := List.forall_mem_cons.mp hkeys
    let j : Ident := ⟨key, hident⟩
    obtain ⟨hset, hknows⟩ := linesOf_set_known (k := k) (j := j) h hharmless
    rw [harmless, Bool.and_eq_true] at hharmless
    rw [lastSet, Option.or_eq_none_iff] at hnone
    have hne : k.name ≠ j.name := fun heq => by
      rw [if_pos heq.symm] at hnone
      cases hnone.2
    have hstep : setAll ((key, value) :: as) file = setAll as (set j.name value file) := rfl
    rw [hstep, ih hknows hkeys hharmless.2 hnone.1, hset, if_neg hne, if_neg hne, addsKey]
    dsimp only
    by_cases hvalue : value = []
    · rw [if_pos hvalue, decide_eq_false (not_not.mpr hvalue), Bool.false_and, Bool.false_or]
    · rw [if_neg hvalue, decide_eq_true hvalue, Bool.true_and]
      cases hknown : known.contains j.name with
      | true => rw [if_pos rfl, Bool.not_true, Bool.false_or]
      | false =>
        rw [if_neg Bool.false_ne_true, Bool.not_false, Bool.true_or, if_pos rfl, sortUnique_sortUnique, ite_self]

/-- **The last assignment to a key is the one that counts**: all lines of the key are those that it leaves. -/
theorem mem_linesOf_setAll {there : Bool} (h : Knows known file) (hkeys : ∀ a ∈ as, isIdent a.1 = true)
    (hharmless : harmless known as = true) (hlast : lastSet k.name known as = some (there, value)) :
    ∀ line ∈ linesOf k.name (setAll as file), value ≠ [] ∧ line = setLine there k.name value := by
  induction as generalizing known file with
  | nil => cases hlast
  | cons a as ih =>
    obtain ⟨key, value'⟩ := a
    obtain ⟨hident, hkeys⟩ := List.forall_mem_cons.mp hkeys
    let j : Ident := ⟨key, hident⟩
    obtain ⟨hset, hknows⟩ := linesOf_set_known (k := k) (j := j) h hharmless
    rw [harmless, Bool.and_eq_true] at hharmless
    have hstep : setAll ((key, value') :: as) file = setAll as (set j.name value' file) := rfl
    rw [lastSet] at hlast
    rw [hstep]
    cases hrest : lastSet k.name (assigned known (key, value')) as with
    | some r =>
      rw [hrest, Option.some_or, Option.some.injEq] at hlast
      rw [hlast] at hrest
      exact ih hknows hkeys hharmless.2 hrest
    | none =>
      rw [hrest, Option.none_or] at hlast
      obtain ⟨heq, hpair⟩ := Option.ite_none_right_eq_some.mp hlast
      obtain ⟨rfl, rfl⟩ := Prod.mk.inj (Option.some.inj hpair)
      have hkj : k.name = j.name := heq.symm
      have hmem : ∀ line ∈ linesOf k.name (setAll as (set j.name value' file)),
          line ∈ linesOf k.name (set j.name value' file) := by
        intro line hline
        rw [linesOf_setAll_of_none hknows hkeys hharmless.2 hrest] at hline
        split at hline
        · exact mem_sortUnique.mp hline
        · exact hline
      intro line hline
      have hline := hmem line hline
      rw [hset, if_pos hkj, if_pos hkj] at hline
      by_cases hvalue : value' = []
      · rw [if_pos hvalue] at hline
        cases hline
      · rw [if_neg hvalue] at hline
        refine ⟨hvalue, ?_⟩
        rw [hkj]
        cases hknown : known.contains j.name with
        | true =>
          rw [hknown, if_pos rfl] at hline
          obtain ⟨-, -, rfl⟩ := List.mem_map.mp hline
          rw [hkj]
        | false =>
          rw [hknown, if_neg Bool.false_ne_true, hkj] at hline
          exact List.mem_singleton.mp hline

/-- How many lines a key has, and how many different ones, behind an assignment. -/
def counted (key : List Byte) (known : List (List Byte)) (n : Nat × Nat) (a : List Byte × List Byte) : Nat × Nat :=
  if a.1 = key then
    if a.2 = [] then (0, 0) else (max 1 n.1, 1)
  else if a.2 ≠ [] && !known.contains a.1 then (n.2, n.2)
  else n

/-- How many lines a key has behind all of them. -/
def copies (key : List Byte) : List (List Byte) → Nat × Nat → List (List Byte × List Byte) → Nat
  | _, n, [] => n.1
  | known, n, a :: as => copies key (assigned known a) (counted key known n a) as

def counts (lines : List Line) : Nat × Nat := (lines.length, lines.dedup.length)

theorem counts_sortUnique (lines : List Line) :
    counts (sortUnique lineLe lines) = (lines.dedup.length, lines.dedup.length) := by
  rw [counts, (nodup_sortUnique lines).dedup, length_sortUnique]

theorem counts_map {lines : List Line} (hne : lines ≠ []) (line : Line) :
    counts (lines.map fun _ => line) = (max 1 lines.length, 1) := by
  have hlen : 0 < lines.length := List.length_pos_iff.mpr hne
  rw [List.map_const', counts, List.length_replicate, List.replicate_dedup hlen.ne', max_eq_right hlen]
  rfl

theorem length_linesOf_setAll (h : Knows known file) (hkeys : ∀ a ∈ as, isIdent a.1 = true)
    (hharmless : harmless known as = true) :
    (linesOf k.name (setAll as file)).length = copies k.name known (counts (linesOf k.name file)) as := by
  induction as generalizing known file with
  | nil => rfl
  | cons a as ih =>
    obtain ⟨key, value⟩ := a
    obtain ⟨hident, hkeys⟩ := List.forall_mem_cons.mp hkeys
    let j : Ident := ⟨key, hident⟩
    have hknown : known.contains j.name = true ↔ linesOf j.name file ≠ [] := List.contains_iff_mem.trans (h j)
    obtain ⟨hset, hknows⟩ := linesOf_set_known (k := k) (j := j) h hharmless
    rw [harmless, Bool.and_eq_true] at hharmless
    have hstep : setAll ((key, value) :: as) file = setAll as (set j.name value file) := rfl
    have hcount : counts (linesOf k.name (set j.name value file)) =
        counted k.name known (counts (linesOf k.name file)) (j.name, value) := by
      rw [hset, counted]
      dsimp only
      by_cases heq : k.name = j.name
      · rw [if_pos heq, if_pos heq, if_pos heq.symm]
        split
        · rfl
        · cases hmem : known.contains j.name with
          | true =>
            rw [if_pos rfl, counts_map (heq ▸ hknown.mp hmem)]
            rfl
          | false =>
            have hnone : linesOf k.name file = [] := by
              by_contra hne
              exact Bool.eq_false_iff.mp hmem (hknown.mpr (heq ▸ hne))
            rw [if_neg Bool.false_ne_true, hnone]
            rfl
      · rw [if_neg heq, if_neg heq, if_neg (Ne.symm heq)]
        by_cases hvalue : value = []
        · rw [if_pos hvalue, decide_eq_false (not_not.mpr hvalue), Bool.false_and, if_neg Bool.false_ne_true]
        · rw [if_neg hvalue, decide_eq_true hvalue, Bool.true_and]
          cases known.contains j.name with
          | true => rfl
          | false => exact counts_sortUnique _
    rw [hstep, ih hknows hkeys hharmless.2, hcount]
    rfl

end SetAll

/-! ### What the script makes of a value -/

section Values
variable {key value s : List Byte} {k : Ident}

/-- What is read of a text that is not quoted, -/
def cut (value : List Byte) : List Byte := value.takeWhile (· ≠ 61)

/-- and what is printed of it. -/
def printed (value : List Byte) : List Byte := (cut value).filter (· ≠ 34)

/-- `gsub(/"$/, "", s)`. -/
def unquoteEnd (s : List Byte) : List Byte := if s.getLast? = some 34 then s.dropLast else s

/-- What the script has of a value: the text up to an equals sign, and that without a quote at the end. -/
def imported (value : List Byte) : List Byte := if value.contains 61 then unquoteEnd (cut value) else value

theorem imported_of_mem {value : List Byte} (h : 61 ∈ value) : imported value = unquoteEnd (cut value) :=
  if_pos (List.contains_iff_mem.mpr h)

theorem imported_of_notMem {value : List Byte} (h : 61 ∉ value) : imported value = value :=
  if_neg fun hcontains => h (List.contains_iff_mem.mp hcontains)

theorem unquote_eq (s : List Byte) : unquote s = unquoteEnd (if s.head? = some 34 then s.tail else s) := rfl

theorem cut_eq_self (h : 61 ∉ s) : cut s = s := List.takeWhile_eq_self_iff.mpr (all_ne_of_notMem h)

theorem cut_append (h : 61 ∈ s) (t : List Byte) : cut (s ++ t) = cut s := by
  obtain ⟨rest, hs⟩ := exists_eq_cut h
  have hnot : 61 ∉ s.takeWhile (· ≠ 61) := fun hmem => absurd (List.mem_takeWhile_imp hmem) (by decide)
  conv_lhs => rw [hs, List.append_assoc, List.cons_append]
  exact takeWhile_cut hnot (rest ++ t)

theorem cut_cons {b : Byte} (hb : b ≠ 61) (s : List Byte) : cut (b :: s) = b :: cut s :=
  List.takeWhile_cons_of_pos (decide_eq_true hb)

theorem printed_cons {b : Byte} (hb : b ≠ 61) (s : List Byte) :
    printed (b :: s) = if b = 34 then printed s else b :: printed s := by
  rw [printed, cut_cons hb]
  by_cases hquote : b = 34
  · rw [if_pos hquote, hquote]
    rfl
  · rw [if_neg hquote]
    exact List.filter_cons_of_pos (decide_eq_true hquote)

/-- A quote at the end, or none. -/
theorem unquoteEnd_shape (s : List Byte) : s = unquoteEnd s ∨ s = unquoteEnd s ++ [34] := by
  unfold unquoteEnd
  split
  · rename_i hlast
    exact .inr (List.dropLast_append_getLast? 34 hlast).symm
  · exact .inl rfl

theorem unquote_sublist (s : List Byte) : (unquote s).Sublist s := by
  rw [unquote_eq]
  have hend : ∀ t : List Byte, (unquoteEnd t).Sublist t := by
    intro t
    unfold unquoteEnd
    split
    · exact List.dropLast_sublist t
    · exact List.Sublist.refl t
  split
  · exact (hend _).trans (List.tail_sublist s)
  · exact hend s

theorem filter_unquoteEnd (s : List Byte) : (unquoteEnd s).filter (· ≠ 34) = s.filter (· ≠ 34) := by
  obtain h | h := unquoteEnd_shape s
  · rw [← h]
  · conv_rhs => rw [h]
    rw [List.filter_append]
    exact (List.append_nil _).symm

/-- The field of a script, and the value that is set. -/
theorem unquote_cut (s : List Byte) : unquote (cut s) = imported (unquote s) := by
  have hend : ∀ t : List Byte, unquoteEnd (cut t) = imported (unquoteEnd t) := by
    intro t
    by_cases hmem : 61 ∈ t
    · obtain h | h := unquoteEnd_shape t
      · rw [← h, imported_of_mem hmem]
      · have hmem' : 61 ∈ unquoteEnd t := by
          rw [h, List.mem_append] at hmem
          exact hmem.resolve_right (by decide)
        have hcut : cut t = cut (unquoteEnd t) := by
          conv_lhs => rw [h, cut_append hmem']
        rw [imported_of_mem hmem', hcut]
    · have hmem' : 61 ∉ unquoteEnd t := by
        intro hin
        obtain h | h := unquoteEnd_shape t
        · exact hmem (h ▸ hin)
        · exact hmem (h ▸ List.mem_append_left _ hin)
      rw [imported_of_notMem hmem', cut_eq_self hmem]
  rw [unquote_eq, unquote_eq, ← hend]
  congr 1
  cases s with
  | nil => rfl
  | cons b s =>
    by_cases hb : b = 34
    · rw [hb]
      rfl
    · have hhead : (cut (b :: s)).head? ≠ some 34 := by
        intro hhead
        obtain ⟨rest, hrest⟩ := List.head?_eq_some_iff.mp hhead
        have hprefix : cut (b :: s) <+: b :: s := List.takeWhile_prefix _
        rw [hrest, List.cons_prefix_cons] at hprefix
        exact hb hprefix.1.symm
      have hhead' : (b :: s).head? ≠ some 34 := fun h => hb (Option.some.inj h)
      rw [if_neg hhead, if_neg hhead']

theorem filter_imported (value : List Byte) : (imported value).filter (· ≠ 34) = printed value := by
  by_cases h : 61 ∈ value
  · rw [imported_of_mem h]
    exact filter_unquoteEnd _
  · rw [imported_of_notMem h, printed, cut_eq_self h]

theorem escapeQuotes_of_notMem (h : 34 ∉ s) : escapeQuotes s = s := by
  have hone : ∀ b ∈ s, (if b = 34 then [92, 34] else [b]) = [b] := fun b hb =>
    if_neg fun heq : b = 34 => h (heq ▸ hb)
  rw [escapeQuotes, List.flatMap_congr hone, List.flatMap_singleton']

/-- A backslash stays of each quote. -/
theorem length_escapeQuotes (s : List Byte) : ((escapeQuotes s).filter (· ≠ 34)).length = s.length := by
  induction s with
  | nil => rfl
  | cons b s ih =>
    have hcons : escapeQuotes (b :: s) = (if b = 34 then [92, 34] else [b]) ++ escapeQuotes s := rfl
    rw [hcons, List.filter_append, List.length_append, ih, List.length_cons, Nat.add_comm]
    split
    · rfl
    · rename_i hb
      have hkeep : [b].filter (· ≠ 34) = [b] := List.filter_cons_of_pos (decide_eq_true hb)
      rw [hkeep]
      rfl

theorem equals_notMem_imported (value : List Byte) : 61 ∉ imported value := by
  by_cases h : 61 ∈ value
  · rw [imported_of_mem h]
    intro hmem
    have hcut : 61 ∈ cut value := by
      obtain h | h := unquoteEnd_shape (cut value)
      · rwa [h]
      · rw [h]
        exact List.mem_append_left _ hmem
    exact absurd (List.mem_takeWhile_imp hcut) (by decide)
  · rwa [imported_of_notMem h]

/-- What is shown of an imported value. -/
theorem shown_imported (k : Ident) (value : List Byte) :
    shown (entry k.name (escapeQuotes (imported value))) = (escapeQuotes (imported value)).filter (· ≠ 34) := by
  have hnot : 61 ∉ escapeQuotes (imported value) := by
    intro hmem
    obtain ⟨b, hb, hbyte⟩ := List.mem_flatMap.mp hmem
    split at hbyte
    · exact absurd hbyte (by decide)
    · exact equals_notMem_imported value (List.mem_singleton.mp hbyte ▸ hb)
  rw [shown_entry (equals_notMem_ident k), List.takeWhile_eq_self_iff.mpr (all_ne_of_notMem hnot)]

/-- Without quotes it is the text up to an equals sign, and with quotes it is longer than that. -/
theorem shown_imported_iff (k : Ident) (value : List Byte) :
    shown (entry k.name (escapeQuotes (imported value))) = printed value ↔ 34 ∉ imported value := by
  rw [shown_imported, ← filter_imported]
  constructor
  · intro h hmem
    have hlen := congrArg List.length h
    rw [length_escapeQuotes] at hlen
    have hall := List.length_filter_eq_length_iff.mp hlen.symm 34 hmem
    exact absurd hall (by decide)
  · intro h
    rw [escapeQuotes_of_notMem h]

/-- Each escape in the text up to an equals sign takes a byte of it. -/
theorem length_unescape (s : List Byte) :
    (printed (unescape (s ++ [34]))).length ≤ (printed s).length ∧
      (92 ∈ cut s → (printed (unescape (s ++ [34]))).length < (printed s).length) := by
  have hsame : ∀ {b : Byte} {s t : List Byte}, b ≠ 92 →
      ((printed t).length ≤ (printed s).length ∧ (92 ∈ cut s → (printed t).length < (printed s).length)) →
      ((printed (b :: t)).length ≤ (printed (b :: s)).length ∧
        (92 ∈ cut (b :: s) → (printed (b :: t)).length < (printed (b :: s)).length)) := by
    intro b s t hb h
    by_cases hequals : b = 61
    · rw [hequals]
      exact ⟨le_rfl, fun hmem => absurd hmem List.not_mem_nil⟩
    · have hmem : 92 ∈ cut (b :: s) → 92 ∈ cut s := by
        intro hmem
        rw [cut_cons hequals] at hmem
        exact (List.mem_cons.mp hmem).resolve_left (Ne.symm hb)
      rw [printed_cons hequals, printed_cons hequals]
      split
      · exact ⟨h.1, fun hback => h.2 (hmem hback)⟩
      · exact ⟨Nat.succ_le_succ h.1, fun hback => Nat.succ_lt_succ (h.2 (hmem hback))⟩
  induction s using unescape.induct with
  | case1 => exact ⟨le_rfl, fun h => absurd h List.not_mem_nil⟩
  | case2 b =>
    by_cases hb : b = 92
    · rw [hb]
      exact ⟨Nat.zero_le _, fun _ => Nat.zero_lt_one⟩
    · have hcons : unescape ([b] ++ [34]) = b :: [34] := by
        rw [List.singleton_append, unescape, if_neg hb]
        rfl
      rw [hcons]
      exact hsame hb ⟨le_rfl, fun h => absurd h List.not_mem_nil⟩
  | case3 c s ih =>
    have hcons : unescape (92 :: c :: s ++ [34]) =
        (if c = 110 then 10 else if c = 116 then 9 else if c = 114 then 13 else c) :: unescape (s ++ [34]) := rfl
    have hfull : printed (92 :: c :: s) = 92 :: printed (c :: s) := by
      rw [printed_cons (by decide), if_neg (by decide)]
    have hshort : (printed (unescape (92 :: c :: s ++ [34]))).length < (printed (92 :: c :: s)).length := by
      rw [hcons, hfull, List.length_cons, Nat.lt_succ_iff]
      by_cases hequals : c = 61
      · rw [hequals]
        exact Nat.zero_le _
      · rw [printed_cons hequals s]
        by_cases hquote : c = 34
        · rw [if_pos hquote, hquote]
          exact ih.1
        · rw [if_neg hquote, List.length_cons]
          generalize (if c = 110 then 10 else if c = 116 then 9 else if c = 114 then 13 else c) = d
          by_cases hd : d = 61
          · rw [hd]
            exact Nat.zero_le _
          · rw [printed_cons hd]
            split
            · exact ih.1.trans (Nat.le_succ _)
            · exact Nat.succ_le_succ ih.1
    exact ⟨hshort.le, fun _ => hshort⟩
  | case4 b c s hb ih =>
    have hcons : unescape (b :: c :: s ++ [34]) = b :: unescape (c :: s ++ [34]) := by
      rw [List.cons_append, List.cons_append, unescape, if_neg hb]
    rw [hcons]
    exact hsame hb ih

/-- What is shown of a line that replaces another. -/
theorem shown_replaced (k : Ident) (hoption : isEchoOption value = false) (hline : 10 ∉ value) :
    shown (setLine true k.name value) =
      (((unescape (value ++ [34])).takeWhile (· ≠ 10)).takeWhile (· ≠ 61)).filter (· ≠ 34) := by
  rw [setLine, if_pos rfl, echoed_of_line hoption hline, unescape_entry, takeWhile_name,
    shown_append (equals_notMem_ident k), List.takeWhile_cons_of_pos (by decide), List.filter_cons_of_neg (by decide)]

/-- A value whose text up to an equals sign has no backslash is shown as it is without quotes, -/
theorem shown_setLine (there : Bool) (hoption : isEchoOption value = false) (hline : 10 ∉ value)
    (hback : there = true → 92 ∉ cut value) : shown (setLine there k.name value) = printed value := by
  cases there with
  | false =>
    rw [setLine, if_neg Bool.false_ne_true, echoed_of_line hoption hline, shown_entry (equals_notMem_ident k)]
    rfl
  | true =>
    have hplain := hback rfl
    rw [shown_replaced k hoption hline]
    by_cases hequals : 61 ∈ value
    · obtain ⟨rest, hrest⟩ := exists_eq_cut hequals
      have hcut : 10 ∉ cut value := fun hmem => hline ((List.takeWhile_sublist _).subset hmem)
      have hnot : 61 ∉ cut value := fun hmem => absurd (List.mem_takeWhile_imp hmem) (by decide)
      have htext : unescape (value ++ [34]) = cut value ++ 61 :: unescape (rest ++ [34]) := by
        have hvalue : value ++ [34] = (cut value ++ [61]) ++ (rest ++ [34]) := by
          conv_lhs => rw [hrest]
          rw [List.append_assoc, List.append_assoc]
          rfl
        have hfront : 92 ∉ cut value ++ [61] := by
          rw [List.mem_append, not_or]
          exact ⟨hplain, by decide⟩
        rw [hvalue, unescape_append hfront, List.append_assoc]
        rfl
      rw [htext, List.takeWhile_append_of_pos (all_ne_of_notMem hcut), List.takeWhile_cons_of_pos (by decide),
        takeWhile_cut hnot]
      rfl
    · rw [cut_eq_self hequals] at hplain
      have hnot : ∀ {b : Byte}, b ∉ value → b ≠ 34 → b ∉ value ++ [34] := by
        intro b hb hquote
        rw [List.mem_append, not_or, List.mem_singleton]
        exact ⟨hb, hquote⟩
      have htext : unescape (value ++ [34]) = value ++ [34] := unescape_of_notMem (hnot hplain (by decide))
      rw [htext, List.takeWhile_eq_self_iff.mpr (all_ne_of_notMem (hnot hline (by decide))),
        List.takeWhile_eq_self_iff.mpr (all_ne_of_notMem (hnot hequals (by decide))), List.filter_append, printed,
        cut_eq_self hequals]
      exact List.append_nil _

/-- and one with a backslash there is shown shorter. -/
theorem shown_replaced_short (k : Ident) (hoption : isEchoOption value = false) (hline : 10 ∉ value)
    (hback : 92 ∈ cut value) : (shown (setLine true k.name value)).length < (printed value).length := by
  have hswap : ((unescape (value ++ [34])).takeWhile (· ≠ 10)).takeWhile (· ≠ 61) =
      (cut (unescape (value ++ [34]))).takeWhile (· ≠ 10) := by
    rw [cut, List.takeWhile_takeWhile, List.takeWhile_takeWhile]
    simp only [and_comm]
  rw [shown_replaced k hoption hline, hswap]
  exact lt_of_le_of_lt ((List.takeWhile_sublist _).filter _).length_le ((length_unescape value).2 hback)

/-- A value is read alike, imported or set. -/
theorem reads_alike_iff (there : Bool) (hvalue : value ≠ []) (hline : 10 ∉ value) :
    shown (entry k.name (escapeQuotes (imported value))) = shown (setLine there k.name value) ↔
      isEchoOption value = false ∧ 34 ∉ imported value ∧ (there = true → 92 ∉ cut value) := by
  cases hoption : isEchoOption value with
  | true =>
    refine iff_of_false (fun h => hvalue ?_) fun h => absurd h.1.symm Bool.false_ne_true
    have hequals : 61 ∉ value := fun hmem => by
      rw [isEchoOption_of_mem hmem (by decide) (by decide)] at hoption
      cases hoption
    have hnothing : shown (setLine there k.name value) = [] := by
      rw [setLine, echoed_of_option hoption]
      cases there with
      | false => exact shown_entry (equals_notMem_ident k) []
      | true =>
        rw [if_pos rfl, unescape_entry, takeWhile_name, shown_append (equals_notMem_ident k)]
        rfl
    have hlen := congrArg List.length h
    rw [hnothing, shown_imported, length_escapeQuotes, imported_of_notMem hequals] at hlen
    exact List.length_eq_zero_iff.mp hlen
  | false =>
    by_cases hback : there = true ∧ 92 ∈ cut value
    · refine iff_of_false (fun h => ?_) fun h => h.2.2 hback.1 hback.2
      have hshort := shown_replaced_short k hoption hline hback.2
      have hlen := congrArg List.length h
      rw [shown_imported, length_escapeQuotes, hback.1] at hlen
      have hle := List.length_filter_le (· ≠ 34) (imported value)
      rw [filter_imported] at hle
      omega
    · have hplain : there = true → 92 ∉ cut value := fun hthere hmem => hback ⟨hthere, hmem⟩
      rw [shown_setLine there hoption hline hplain, shown_imported_iff]
      exact ⟨fun h => ⟨rfl, h, hplain⟩, fun h => h.2.1⟩

end Values

/-! ### The script all at once -/

section Records
variable {script file : List Line} {line : Line} {key : List Byte} {p : Import} {k : Ident}

/-- The value that a script has for a key in the end. -/
def scriptValue (k : Ident) : List Line → Option (List Byte)
  | [] => none
  | line :: script =>
    (scriptValue k script).or
      (if isAssignment line && field1 (trimmed line) = k.name then
        some (escapeQuotes (unquote (field2 (trimmed line))))
      else none)

/-- The texts that a script has printed for a key, at lines with the key alone, and the one that is left. -/
structure Held where
  spent : List (List Byte)
  left : Option (List Byte)

def Held.read (k : Ident) (h : Held) (line : Line) : Held :=
  if isAssignment line && field1 (trimmed line) = k.name then
    ⟨h.spent, some (escapeQuotes (unquote (field2 (trimmed line))))⟩
  else if line = k.name then ⟨h.spent ++ h.left.toList, none⟩
  else h

def held (k : Ident) (script : List Line) : Held := script.foldl (Held.read k) ⟨[], none⟩

theorem lookup_filter {key key' : List Byte} {params : List (List Byte × List Byte)} :
    (params.filter fun e => e.1 ≠ key).lookup key' = if key' = key then none else params.lookup key' := by
  induction params with
  | nil => split <;> rfl
  | cons e params ih =>
    by_cases he : e.1 = key
    · rw [List.filter_cons_of_neg (by simpa using he), ih]
      split
      · rfl
      · rename_i hne
        rw [List.lookup_cons, beq_false_of_ne fun heq => hne (heq.trans he)]
    · rw [List.filter_cons_of_pos (by simpa using he), List.lookup_cons, List.lookup_cons, ih]
      by_cases hkey : key' = e.1
      · have hne : key' ≠ key := fun heq => he (hkey.symm.trans heq)
        rw [beq_iff_eq.mpr hkey, if_neg hne, if_neg hne]
      · rw [beq_false_of_ne hkey]

/-- Each parameter is there once, under a key. -/
structure Import.Proper (p : Import) : Prop where
  distinct : (p.params.map Prod.fst).Nodup
  keys : ∀ e ∈ p.params, 61 ∉ e.1

theorem proper_filter (h : p.Proper) (key : List Byte) (out : List Line) :
    Import.Proper ⟨p.params.filter fun e => e.1 ≠ key, out⟩ :=
  ⟨h.distinct.sublist (List.filter_sublist.map Prod.fst), fun e he => h.keys e (List.mem_filter.mp he).1⟩

theorem equals_notMem_field1 (line : Line) : 61 ∉ field1 line := fun h =>
  absurd (List.mem_takeWhile_imp h) (by decide)

theorem proper_read_assignment (h : p.Proper) (hassign : isAssignment line = true) : (p.read line).Proper := by
  have hrest := proper_filter h (field1 (trimmed line)) p.out
  rw [Import.read, if_pos hassign]
  refine ⟨List.nodup_cons.mpr ⟨fun hmem => ?_, hrest.distinct⟩,
    List.forall_mem_cons.mpr ⟨equals_notMem_field1 _, hrest.keys⟩⟩
  obtain ⟨e, he, heq⟩ := List.mem_map.mp hmem
  exact of_decide_eq_true (List.mem_filter.mp he).2 heq

theorem proper_print (h : p.Proper) (line : Line) : (p.print line).Proper := by
  unfold Import.print
  split
  · exact proper_filter h _ _
  · exact ⟨h.distinct, h.keys⟩

/-- What is printed, and what is left for the end. -/
def Import.finish (p : Import) : List Line := p.out ++ p.params.map fun e => entry e.1 e.2

theorem linesOf_append (key : List Byte) (a b : List Line) : linesOf key (a ++ b) = linesOf key a ++ linesOf key b :=
  List.filter_append a b

theorem linesOf_cons_of_ne {key' value : List Byte} (hkey : 61 ∉ key) (hkey' : 61 ∉ key') (hne : key ≠ key')
    (file : List Line) : linesOf key (entry key' value :: file) = linesOf key file :=
  List.filter_cons_of_neg (Bool.eq_false_iff.mp (isOf_of_ne hkey' hkey hne (isOf_entry key' value)))

theorem linesOf_cons_self (value : List Byte) (file : List Line) :
    linesOf key (entry key value :: file) = entry key value :: linesOf key file :=
  List.filter_cons_of_pos (isOf_entry key value)

/-- What is left has one line for each parameter. -/
theorem linesOf_params {params : List (List Byte × List Byte)} (hdistinct : (params.map Prod.fst).Nodup)
    (hkeys : ∀ e ∈ params, 61 ∉ e.1) (hkey : 61 ∉ key) : linesOf key (params.map fun e => entry e.1 e.2) =
      match params.lookup key with
      | some value => [entry key value]
      | none => [] := by
  induction params with
  | nil => rfl
  | cons e params ih =>
    obtain ⟨hfresh, hdistinct⟩ := List.nodup_cons.mp hdistinct
    obtain ⟨hekey, hkeys⟩ := List.forall_mem_cons.mp hkeys
    rw [List.map_cons, List.lookup_cons]
    by_cases heq : key = e.1
    · have hnone : params.lookup key = none := List.lookup_eq_none_iff.mpr fun e' he' =>
        bne_iff_ne.mpr fun heq' => hfresh (List.mem_map.mpr ⟨e', he', heq'.symm.trans heq⟩)
      rw [beq_iff_eq.mpr heq, ← heq, linesOf_cons_self, ih hdistinct hkeys, hnone]
    · rw [beq_false_of_ne heq, linesOf_cons_of_ne hkey hekey heq, ih hdistinct hkeys]

/-- A line that is no assignment is not one of a key. -/
theorem linesOf_not_assignment (k : Ident) (h : isAssignment line = false) : linesOf k.name [line] = [] := by
  refine List.filter_cons_of_neg fun hof => ?_
  obtain ⟨rest, rfl⟩ := isOf_iff.mp hof
  have hfield : field1 (k.name ++ 61 :: rest) = k.name := takeWhile_cut (equals_notMem_ident k) rest
  rw [isAssignment, hfield, k.ident, Bool.true_and] at h
  exact Bool.eq_false_iff.mp h (List.contains_iff_mem.mpr (List.mem_append_right _ List.mem_cons_self))

theorem field1_of_isOf (h : isOf k.name line = true) : field1 line = k.name := by
  obtain ⟨rest, rfl⟩ := isOf_iff.mp h
  exact takeWhile_cut (equals_notMem_ident k) rest

theorem isOf_of_field1 (h : field1 line = k.name) (hbare : line ≠ k.name) : isOf k.name line = true := by
  by_cases hmem : 61 ∈ line
  · obtain ⟨rest, hcut⟩ := exists_eq_cut hmem
    exact isOf_iff.mpr ⟨rest, hcut.trans (congrArg (· ++ 61 :: rest) h)⟩
  · have hall : line.takeWhile (· ≠ 61) = line :=
      List.takeWhile_eq_self_iff.mpr fun b hb => decide_eq_true fun heq => hmem (heq ▸ hb)
    exact absurd (hall.symm.trans h) hbare

/-- A line with another first field changes nothing of a key, -/
theorem print_other (h : field1 line ≠ k.name) : (p.print line).params.lookup k.name = p.params.lookup k.name ∧
    linesOf k.name (p.print line).out = linesOf k.name p.out := by
  have hk := equals_notMem_ident k
  have hother : linesOf k.name [line] = [] :=
    List.filter_cons_of_neg fun hof => h (field1_of_isOf hof)
  unfold Import.print
  cases p.params.lookup (field1 line) with
  | some value =>
    refine ⟨?_, ?_⟩
    · rw [lookup_filter, if_neg (Ne.symm h)]
    · rw [linesOf_append, linesOf_cons_of_ne hk (equals_notMem_field1 line) (Ne.symm h)]
      exact List.append_nil _
  | none =>
    refine ⟨rfl, ?_⟩
    rw [linesOf_append, hother, List.append_nil]

/-- and one that is no assignment has another first field. -/
theorem field1_of_not_assignment (h : isAssignment line = false) (hbare : line ≠ k.name) : field1 line ≠ k.name := by
  intro heq
  have hnone := linesOf_not_assignment k h
  rw [linesOf, List.filter_cons_of_pos (isOf_of_field1 heq hbare)] at hnone
  cases hnone

/-- The parameters of a key are those held. -/
structure Holds (k : Ident) (p : Import) (h : Held) : Prop where
  left : p.params.lookup k.name = h.left
  spent : linesOf k.name p.out = h.spent.map (entry k.name)

/-- A record of the script is an assignment to the key, has the key alone, or leaves the key as it is. -/
theorem holds_read {h : Held} (hp : Holds k p h) : Holds k (p.read line) (h.read k line) := by
  rw [Import.read, Held.read]
  cases hassign : isAssignment line with
  | true =>
    rw [if_pos rfl, Bool.true_and]
    by_cases heq : field1 (trimmed line) = k.name
    · rw [if_pos (decide_eq_true heq), heq]
      exact ⟨List.lookup_cons_self, hp.spent⟩
    · have hline : line ≠ k.name := by
        rintro rfl
        rw [isAssignment, Bool.and_eq_true, List.contains_iff_mem] at hassign
        exact equals_notMem_ident k hassign.2
      rw [if_neg (fun h => heq (of_decide_eq_true h)), if_neg hline]
      refine ⟨?_, hp.spent⟩
      dsimp only
      rw [List.lookup_cons, beq_false_of_ne (Ne.symm heq), lookup_filter, if_neg (Ne.symm heq)]
      exact hp.left
  | false =>
    rw [if_neg Bool.false_ne_true, Bool.false_and, if_neg Bool.false_ne_true]
    by_cases hline : line = k.name
    · have hfield : field1 line = k.name := by
        rw [hline]
        exact List.takeWhile_eq_self_iff.mpr (all_ne_of_notMem (equals_notMem_ident k))
      rw [if_pos hline, Import.print, hfield, hp.left]
      cases hleft : h.left with
      | some value =>
        refine ⟨?_, ?_⟩
        · rw [lookup_filter, if_pos rfl]
        · rw [linesOf_append, linesOf_cons_self, hp.spent, Option.toList_some, List.map_append]
          rfl
      | none =>
        refine ⟨hp.left.trans hleft, ?_⟩
        have hnone : linesOf k.name [line] = [] := linesOf_not_assignment k hassign
        dsimp only
        rw [linesOf_append, hnone, List.append_nil, Option.toList_none, List.append_nil]
        exact hp.spent
    · obtain ⟨hparams, hout⟩ := print_other (p := p) (field1_of_not_assignment hassign hline)
      rw [if_neg hline]
      exact ⟨hparams.trans hp.left, hout.trans hp.spent⟩

theorem proper_read (h : p.Proper) (line : Line) : (p.read line).Proper := by
  cases hassign : isAssignment line with
  | true => exact proper_read_assignment h hassign
  | false =>
    rw [Import.read, if_neg (Bool.eq_false_iff.mp hassign)]
    exact proper_print h line

/-- **The script leaves the parameters that it holds.** -/
theorem read_lines {h : Held} (hproper : p.Proper) (hp : Holds k p h) :
    (script.foldl Import.read p).Proper ∧ Holds k (script.foldl Import.read p) (script.foldl (Held.read k) h) := by
  induction script generalizing p h with
  | nil => exact ⟨hproper, hp⟩
  | cons line script ih => exact ih (proper_read hproper line) (holds_read hp)

/-- A script without a line of the key alone has its last value. -/
theorem held_of_notMem (h : k.name ∉ script) : held k script = ⟨[], scriptValue k script⟩ := by
  have hfold : ∀ q : Option (List Byte),
      script.foldl (Held.read k) ⟨[], q⟩ = ⟨[], (scriptValue k script).or q⟩ := by
    induction script with
    | nil => exact fun q => rfl
    | cons line script ih =>
      rw [List.mem_cons, not_or] at h
      intro q
      rw [List.foldl_cons, Held.read, if_neg (Ne.symm h.1), scriptValue, Option.or_assoc]
      split
      · rw [ih h.2]
        rfl
      · rw [ih h.2]
        rfl
  rw [held, hfold, Option.or_none]

/-- A script that does not set the key holds nothing of it, -/
theorem held_of_none (h : scriptValue k script = none) : held k script = ⟨[], none⟩ := by
  rw [held]
  induction script with
  | nil => rfl
  | cons line script ih =>
    rw [scriptValue, Option.or_eq_none_iff] at h
    have hread : Held.read k ⟨[], none⟩ line = ⟨[], none⟩ := by
      rw [Held.read]
      split
      · rename_i hassign
        rw [if_pos hassign] at h
        cases h.2
      · exact ite_self _
    rw [List.foldl_cons, hread]
    exact ih h.1

/-- The texts that have been printed or are left. -/
def Held.all (h : Held) : List (List Byte) := h.spent ++ h.left.toList

/-- A text stays as long as the key is not set again, -/
theorem mem_held_of_none {text : List Byte} {h : Held} (hnone : scriptValue k script = none) (hmem : text ∈ h.all) :
    text ∈ (script.foldl (Held.read k) h).all := by
  induction script generalizing h with
  | nil => exact hmem
  | cons line script ih =>
    rw [scriptValue, Option.or_eq_none_iff] at hnone
    refine ih hnone.1 ?_
    rw [Held.read]
    split
    · rename_i hassign
      rw [if_pos hassign] at hnone
      cases hnone.2
    · split
      · rwa [Held.all, Option.toList_none, List.append_nil]
      · exact hmem

/-- and the last value of a script that sets it is one of them. -/
theorem mem_held {text : List Byte} (hlast : scriptValue k script = some text) (h : Held) :
    text ∈ (script.foldl (Held.read k) h).all := by
  induction script generalizing h with
  | nil => cases hlast
  | cons line script ih =>
    rw [scriptValue] at hlast
    cases hrest : scriptValue k script with
    | some text' =>
      rw [hrest, Option.some_or] at hlast
      exact ih (hrest.trans hlast) _
    | none =>
      rw [hrest, Option.none_or] at hlast
      obtain ⟨hassign, htext⟩ := Option.ite_none_right_eq_some.mp hlast
      rw [List.foldl_cons, Held.read, if_pos hassign]
      exact mem_held_of_none hrest (List.mem_append_right _ (Option.mem_toList.mpr htext))

/-! ### Records of the file -/

/-- **A parameter takes the place of the first line of its key, or comes at the end.** -/
theorem print_lines (h : p.Proper) (hbare : k.name ∉ file) :
    linesOf k.name (file.foldl Import.print p).finish = linesOf k.name p.out ++
      match p.params.lookup k.name with
      | some value => entry k.name value :: (linesOf k.name file).tail
      | none => linesOf k.name file := by
  induction file generalizing p with
  | nil =>
    rw [List.foldl_nil, Import.finish, linesOf_append, linesOf_params h.distinct h.keys (equals_notMem_ident k)]
    rfl
  | cons line file ih =>
    rw [List.mem_cons, not_or] at hbare
    by_cases hof : isOf k.name line = true
    · have hcons : linesOf k.name (line :: file) = line :: linesOf k.name file := List.filter_cons_of_pos hof
      have hfield := field1_of_isOf hof
      rw [List.foldl_cons, ih (proper_print h line) hbare.2, hcons, Import.print, hfield]
      cases hlookup : p.params.lookup k.name with
      | some value =>
        have hnone : (p.params.filter fun e => e.1 ≠ k.name).lookup k.name = none := by rw [lookup_filter, if_pos rfl]
        dsimp only
        rw [hnone, linesOf_append, linesOf_cons_self, List.append_assoc]
        rfl
      | none =>
        have hline : linesOf k.name [line] = [line] := List.filter_cons_of_pos hof
        dsimp only
        rw [hlookup, linesOf_append, hline, List.append_assoc]
        rfl
    · have hcons : linesOf k.name (line :: file) = linesOf k.name file := List.filter_cons_of_neg hof
      have hfield : field1 line ≠ k.name := fun heq => hof (isOf_of_field1 heq (Ne.symm hbare.1))
      obtain ⟨hlookup, hout⟩ := print_other (p := p) hfield
      rw [hcons, List.foldl_cons, ih (proper_print h line) hbare.2, hlookup, hout]

theorem proper_nil : Import.Proper ⟨[], []⟩ := ⟨List.nodup_nil, fun _ he => absurd he List.not_mem_nil⟩

theorem holds_nil : Holds k ⟨[], []⟩ ⟨[], none⟩ := ⟨rfl, rfl⟩

/-- **What `conf --script` leaves of a key.** -/
theorem linesOf_importScript (hscript : script ≠ []) (hbare : k.name ∉ file) :
    linesOf k.name (importScript script file) = sortUnique lineLe ((held k script).spent.map (entry k.name) ++
      match (held k script).left with
      | some value => entry k.name value :: (linesOf k.name file).tail
      | none => linesOf k.name file) := by
  obtain ⟨hread, hholds⟩ : (script.foldl Import.read ⟨[], []⟩).Proper ∧
      Holds k (script.foldl Import.read ⟨[], []⟩) (held k script) := read_lines proper_nil holds_nil
  have hsorted : linesOf k.name (importScript script file) =
      sortUnique lineLe (linesOf k.name (file.foldl Import.print (script.foldl Import.read ⟨[], []⟩)).finish) := by
    rw [importScript, if_neg hscript, linesOf, filter_sortUnique]
    rfl
  rw [hsorted, print_lines hread hbare, hholds.spent, hholds.left]

/-- Without a script, the file is read as one. -/
theorem linesOf_importScript_nil (hbare : k.name ∉ file) :
    linesOf k.name (importScript [] file) =
      match scriptValue k file with
      | some value => [entry k.name value]
      | none => [] := by
  obtain ⟨hread, hholds⟩ : (file.foldl Import.read ⟨[], []⟩).Proper ∧
      Holds k (file.foldl Import.read ⟨[], []⟩) (held k file) := read_lines proper_nil holds_nil
  have hsorted : linesOf k.name (importScript [] file) =
      sortUnique lineLe (linesOf k.name (file.foldl Import.read ⟨[], []⟩).finish) := by
    rw [importScript, if_pos rfl, linesOf, filter_sortUnique]
    rfl
  rw [held_of_notMem hbare] at hholds
  rw [hsorted, Import.finish, linesOf_append, hholds.spent,
    linesOf_params hread.distinct hread.keys (equals_notMem_ident k), hholds.left]
  cases scriptValue k file <;> rfl

end Records

/-! ### A script and its assignments -/

section Script
variable {c : Config} {k : Ident} {script : List OneLine} {line : Line}

def Config.keys (c : Config) : List (List Byte) := c.entries.map fun e => e.1.name

theorem isSpace_identStart : ∀ b, isIdentStart b = true → isSpace b = false := by
  decide

theorem dropWhile_name (k : Ident) (rest : List Byte) :
    (k.name ++ 61 :: rest).dropWhile isSpace = k.name ++ 61 :: rest := by
  have hident := k.ident
  cases hname : k.name with
  | nil =>
    rw [hname] at hident
    exact absurd hident Bool.false_ne_true
  | cons b s =>
    rw [hname, isIdent, Bool.and_eq_true] at hident
    exact List.dropWhile_cons_of_neg (Bool.eq_false_iff.mp (isSpace_identStart b hident.1))

theorem trimmed_assignment (h : isAssignment line = true) :
    ∃ (k : Ident) (rest : List Byte), trimmed line = k.name ++ 61 :: rest ∧ ∀ b ∈ rest, b ∈ line := by
  rw [isAssignment, Bool.and_eq_true, List.contains_iff_mem] at h
  obtain ⟨rest, hcut⟩ := exists_eq_cut h.2
  let k : Ident := ⟨field1 line, h.1⟩
  have hline : line = k.name ++ 61 :: rest := hcut
  have hfront : line.dropWhile isSpace = line := by
    rw [hline]
    exact dropWhile_name k rest
  refine ⟨k, rest.rdropWhile isSpace, ?_, fun b hb => ?_⟩
  · rw [trimmed, hfront]
    exact (congrArg (List.rdropWhile isSpace) hline).trans (rdropWhile_append (by decide) rest)
  · rw [hline]
    exact List.mem_append_right _ (List.mem_cons_of_mem 61 ((List.rdropWhile_prefix _ _).subset hb))

theorem assignments_cons (line : Line) (script : List Line) : assignments (line :: script) =
    (if isAssignment line then [(field1 (trimmed line), unquote ((trimmed line).dropWhile (· ≠ 61)).tail)] else []) ++
      assignments script := by
  unfold assignments
  by_cases h : isAssignment line = true
  · rw [List.filter_cons_of_pos h, if_pos h]
    rfl
  · rw [List.filter_cons_of_neg h, if_neg h]
    rfl

/-- Keys of assignments are identifiers, and their values are of one line. -/
theorem assignments_wellFormed {a : List Byte × List Byte} (h : a ∈ assignments (script.map OneLine.bytes)) :
    isIdent a.1 = true ∧ 10 ∉ a.2 := by
  obtain ⟨line, hline, rfl⟩ := List.mem_map.mp h
  obtain ⟨hmem, hassign⟩ := List.mem_filter.mp hline
  obtain ⟨l, -, rfl⟩ := List.mem_map.mp hmem
  obtain ⟨k, rest, htrimmed, hsub⟩ := trimmed_assignment hassign
  rw [htrimmed, field1, takeWhile_cut (equals_notMem_ident k), dropWhile_cut (equals_notMem_ident k), List.tail_cons]
  exact ⟨k.ident, fun hmem => l.line (hsub 10 ((unquote_sublist rest).subset hmem))⟩

/-- The script has the last value that is set. -/
theorem scriptValue_eq (k : Ident) (known : List (List Byte)) (script : List Line) :
    scriptValue k script =
      (lastSet k.name known (assignments script)).map fun r => escapeQuotes (imported r.2) := by
  induction script generalizing known with
  | nil => rfl
  | cons line script ih =>
    rw [scriptValue, assignments_cons]
    cases hassign : isAssignment line with
    | false =>
      rw [ih known, Bool.false_and, if_neg Bool.false_ne_true, if_neg Bool.false_ne_true, Option.or_none]
      rfl
    | true =>
      have hvalue : unquote (field2 (trimmed line)) = imported (unquote ((trimmed line).dropWhile (· ≠ 61)).tail) :=
        unquote_cut _
      rw [if_pos rfl, List.singleton_append, lastSet, Option.map_or, ← ih, hvalue, Bool.true_and]
      by_cases heq : field1 (trimmed line) = k.name
      · rw [if_pos (decide_eq_true heq), if_pos heq]
        rfl
      · rw [if_neg (fun h => heq (of_decide_eq_true h)), if_neg heq]
        rfl

/-- The values of a key in the file. -/
def Config.values (c : Config) (k : Ident) : List (List Byte) :=
  (c.entries.filter fun e => e.1.name = k.name).map fun e => e.2.bytes

theorem values_cons (k : Ident) (e : Ident × OneLine) (es : List (Ident × OneLine)) :
    Config.values ⟨e :: es⟩ k = (if e.1.name = k.name then [e.2.bytes] else []) ++ Config.values ⟨es⟩ k := by
  unfold Config.values
  rw [List.filter_cons]
  by_cases heq : e.1.name = k.name
  · rw [if_pos heq, if_pos (decide_eq_true heq)]
    rfl
  · rw [if_neg heq, if_neg (fun h => heq (of_decide_eq_true h))]
    rfl

theorem linesOf_file (c : Config) (k : Ident) : linesOf k.name c.file = (c.values k).map (entry k.name) := by
  obtain ⟨es⟩ := c
  induction es with
  | nil => rfl
  | cons e es ih =>
    have hcons : Config.file ⟨e :: es⟩ = entry e.1.name e.2.bytes :: Config.file ⟨es⟩ := rfl
    rw [hcons, values_cons]
    by_cases heq : e.1.name = k.name
    · rw [if_pos heq, heq, linesOf_cons_self, ih]
      rfl
    · rw [if_neg heq, linesOf_cons_of_ne (equals_notMem_ident k) (equals_notMem_ident e.1) (Ne.symm heq), ih]
      rfl

theorem knows_file (c : Config) : Knows c.keys c.file := by
  intro k
  rw [linesOf_file, ne_eq, List.map_eq_nil_iff, Config.values, List.map_eq_nil_iff, List.filter_eq_nil_iff, Config.keys,
    List.mem_map]
  simp only [decide_eq_true_eq, not_forall, not_not, exists_prop]

/-- A bare key is no entry. -/
theorem name_ne_entry (k : Ident) (key value : List Byte) : k.name ≠ entry key value := fun heq =>
  equals_notMem_ident k (heq ▸ List.mem_append_right key List.mem_cons_self)

theorem name_notMem_file (c : Config) (k : Ident) : k.name ∉ c.file := by
  intro hmem
  obtain ⟨e, -, heq⟩ := List.mem_map.mp hmem
  exact name_ne_entry k _ _ heq.symm

theorem unquote_quoted (value : List Byte) : unquote (34 :: (value ++ [34])) = value := by
  have hlast : (value ++ [34]).getLast? = some 34 := List.getLast?_concat
  have htail : unquote (34 :: (value ++ [34])) = unquoteEnd (value ++ [34]) := rfl
  rw [htail, unquoteEnd, if_pos hlast, List.dropLast_concat]

theorem trimmed_entry (j : Ident) (value : List Byte) : trimmed (entry j.name value) = entry j.name value := by
  have hentry : entry j.name value = (j.name ++ 61 :: 34 :: value) ++ [34] := by
    rw [entry, List.append_assoc]
    rfl
  rw [trimmed, show (entry j.name value).dropWhile isSpace = entry j.name value from dropWhile_name j _]
  conv_lhs => rw [hentry]
  rw [List.rdropWhile_concat_neg _ _ _ (by decide), ← hentry]

/-- A line of the file, read as one of the script. -/
theorem scriptValue_entry (k j : Ident) (value : List Byte) :
    scriptValue k [entry j.name value] = if j.name = k.name then some (escapeQuotes (imported value)) else none := by
  have hassign : isAssignment (entry j.name value) = true := isAssignment_of_isOf (isOf_entry j.name value)
  have hfield : field1 (entry j.name value) = j.name := takeWhile_cut (equals_notMem_ident j) _
  have hvalue : field2 (entry j.name value) = cut (34 :: (value ++ [34])) := by
    rw [field2, entry, dropWhile_cut (equals_notMem_ident j), List.tail_cons]
    rfl
  have hone : scriptValue k [entry j.name value] =
      if isAssignment (entry j.name value) && field1 (trimmed (entry j.name value)) = k.name then
        some (escapeQuotes (unquote (field2 (trimmed (entry j.name value))))) else none := Option.none_or
  rw [hone, trimmed_entry, hassign, hfield, hvalue, unquote_cut, unquote_quoted, Bool.true_and]
  simp only [decide_eq_true_eq]

theorem scriptValue_cons (k : Ident) (line : Line) (lines : List Line) :
    scriptValue k (line :: lines) = (scriptValue k lines).or (scriptValue k [line]) := by
  rw [scriptValue]
  exact congrArg _ Option.none_or.symm

theorem scriptValue_file (c : Config) (k : Ident) :
    scriptValue k c.file = (c.values k).getLast?.map fun value => escapeQuotes (imported value) := by
  obtain ⟨es⟩ := c
  induction es with
  | nil => rfl
  | cons e es ih =>
    have hcons : Config.file ⟨e :: es⟩ = entry e.1.name e.2.bytes :: Config.file ⟨es⟩ := rfl
    rw [hcons, scriptValue_cons, ih, scriptValue_entry, values_cons, List.getLast?_append, Option.map_or]
    split <;> rfl

theorem lastSet_mem {key : List Byte} {known : List (List Byte)} {as : List (List Byte × List Byte)}
    {r : Bool × List Byte} (h : lastSet key known as = some r) : ∃ a ∈ as, a.2 = r.2 := by
  induction as generalizing known with
  | nil => cases h
  | cons a as ih =>
    rw [lastSet] at h
    cases hlast : lastSet key (assigned known a) as with
    | some r' =>
      rw [hlast, Option.some_or] at h
      obtain ⟨b, hb, heq⟩ := ih (hlast.trans h)
      exact ⟨b, List.mem_cons_of_mem a hb, heq⟩
    | none =>
      rw [hlast, Option.none_or] at h
      obtain ⟨-, heq⟩ := Option.ite_none_right_eq_some.mp h
      exact ⟨a, List.mem_cons_self, congrArg Prod.snd (Option.some.inj heq)⟩

/-- The texts in the lines with a key behind `conf --script`: those that the script prints at a line with the key
alone, and the last one that it has behind these, in the place of one that the file has. -/
def texts (c : Config) (k : Ident) (script : List Line) : List (List Byte) :=
  (held k script).all ++ if (held k script).left.isSome then (c.values k).tail else c.values k

/-- A key that the script does not set reads alike where its lines are sorted both times, or sorting does not change
what they read as; and a key that it sets, where the last value is not empty, no option of `echo`, without quotes up to
an equals sign, and without backslashes there if the key was there before, and where all lines with the key read like
that value, as many different ones as `conf s` leaves. Without a script, the key has one value at most, and that no
quotes. -/
def Importable (c : Config) (k : Ident) (script : List Line) : Prop :=
  if script = [] then (c.values k).length ≤ 1 ∧ ∀ value ∈ c.values k, 34 ∉ imported value
  else
    match lastSet k.name c.keys (assignments script) with
    | some (there, value) =>
      (value ≠ [] ∧ isEchoOption value = false ∧ 34 ∉ imported value ∧ (there = true → 92 ∉ cut value)) ∧
        (∀ text ∈ texts c k script, printed text = printed value) ∧
        (texts c k script).dedup.length = copies k.name c.keys (counts (c.values k)) (assignments script)
    | none => addsKey c.keys (assignments script) = true ∨ SortKeeps c.file k.name

/-- The file read as a script. -/
theorem get_importScript_nil (c : Config) (k : Ident) :
    get k.name (importScript [] c.file) = get k.name c.file ↔
      (c.values k).length ≤ 1 ∧ ∀ value ∈ c.values k, 34 ∉ imported value := by
  rw [get_eq, get_eq, linesOf_importScript_nil (name_notMem_file c k), linesOf_file,
    scriptValue_file]
  cases hvalues : c.values k with
  | nil => exact iff_of_true rfl ⟨Nat.zero_le 1, fun value hvalue => absurd hvalue List.not_mem_nil⟩
  | cons value values =>
    cases values with
    | nil =>
      have hone : [shown (entry k.name (escapeQuotes (imported value)))] = [shown (entry k.name value)] ↔
          34 ∉ imported value := by
        have hshown : shown (entry k.name value) = printed value := shown_entry (equals_notMem_ident k) value
        rw [List.singleton_inj, hshown]
        exact shown_imported_iff k value
      refine hone.trans ⟨fun h => ⟨le_rfl, fun v hv => List.mem_singleton.mp hv ▸ h⟩, fun h => ?_⟩
      exact h.2 value List.mem_cons_self
    | cons value' values =>
      refine iff_of_false (fun h => ?_) fun h => absurd h.1 (by simp)
      have hlen := congrArg List.length h
      simp only [List.length_map, List.length_cons] at hlen
      split at hlen
      · rw [List.length_singleton] at hlen
        omega
      · rw [List.length_nil] at hlen
        omega

theorem entry_injective (key : List Byte) : Function.Injective (entry key) := by
  intro a b h
  rw [entry, entry] at h
  obtain ⟨-, hrest⟩ := List.append_inj h rfl
  obtain ⟨-, hrest⟩ := List.cons.inj hrest
  obtain ⟨-, hrest⟩ := List.cons.inj hrest
  exact List.append_cancel_right hrest

theorem linesOf_importScript_file (c : Config) (k : Ident) {script : List Line} (hscript : script ≠ []) :
    linesOf k.name (importScript script c.file) = sortUnique lineLe ((texts c k script).map (entry k.name)) := by
  rw [linesOf_importScript hscript (name_notMem_file c k), linesOf_file, texts, Held.all, List.map_append,
    List.map_append, List.append_assoc]
  cases (held k script).left with
  | some text =>
    rw [← List.map_tail]
    rfl
  | none => rfl

/-- Lines with a key all read alike. -/
theorem map_shown_iff (k : Ident) (texts : List (List Byte)) (n : Nat) (s : List Byte) :
    (sortUnique lineLe (texts.map (entry k.name))).map shown = List.replicate n s ↔
      (∀ text ∈ texts, printed text = s) ∧ texts.dedup.length = n := by
  have hshown : ∀ text, shown (entry k.name text) = printed text := shown_entry (equals_notMem_ident k)
  rw [List.eq_replicate_iff, List.length_map, length_sortUnique, List.dedup_map_of_injective (entry_injective _),
    List.length_map, and_comm]
  simp only [List.forall_mem_map, mem_sortUnique, hshown]

theorem counts_file (c : Config) (k : Ident) : counts (linesOf k.name c.file) = counts (c.values k) := by
  rw [linesOf_file, counts, List.dedup_map_of_injective (entry_injective _), List.length_map, List.length_map]
  rfl

/-- What is read of a key that a script does not set. -/
theorem get_importScript_unset (hscript : script.map OneLine.bytes ≠ [])
    (h : harmless c.keys (assignments (script.map OneLine.bytes)) = true)
    (hlast : lastSet k.name c.keys (assignments (script.map OneLine.bytes)) = none) :
    get k.name (importScript (script.map OneLine.bytes) c.file) =
        get k.name (setAll (assignments (script.map OneLine.bytes)) c.file) ↔
      addsKey c.keys (assignments (script.map OneLine.bytes)) = true ∨ SortKeeps c.file k.name := by
  have hnone := scriptValue_eq k c.keys (script.map OneLine.bytes)
  rw [hlast, Option.map_none] at hnone
  rw [get_eq, get_eq, linesOf_importScript hscript (name_notMem_file c k), held_of_none hnone,
    linesOf_setAll_of_none (knows_file c) (fun a ha => (assignments_wellFormed ha).1) h hlast]
  dsimp only
  rw [List.map_nil, List.nil_append]
  cases addsKey c.keys (assignments (script.map OneLine.bytes)) with
  | true => exact iff_of_true rfl (.inl rfl)
  | false => exact ⟨.inr, fun h => h.resolve_left Bool.false_ne_true⟩

/-- What `conf s` leaves of a key that is set to a value. -/
theorem get_setAll {as : List (List Byte × List Byte)} {there : Bool} {value : List Byte}
    (hkeys : ∀ a ∈ as, isIdent a.1 = true) (h : harmless c.keys as = true)
    (hlast : lastSet k.name c.keys as = some (there, value)) : get k.name (setAll as c.file) =
      List.replicate (copies k.name c.keys (counts (c.values k)) as) (shown (setLine there k.name value)) := by
  rw [get_eq, List.eq_replicate_iff, List.length_map, length_linesOf_setAll (knows_file c) hkeys h, counts_file]
  refine ⟨rfl, fun s hs => ?_⟩
  obtain ⟨line, hline, rfl⟩ := List.mem_map.mp hs
  exact congrArg shown (mem_linesOf_setAll (knows_file c) hkeys h hlast line hline).2

/-- **A script is imported as its assignments are set**, exactly where it is importable. -/
theorem get_importScript_iff (h : harmless c.keys (assignments (script.map OneLine.bytes)) = true) :
    get k.name (importScript (script.map OneLine.bytes) c.file) =
        get k.name (setAll (assignments (script.map OneLine.bytes)) c.file) ↔
      Importable c k (script.map OneLine.bytes) := by
  have hkeys : ∀ a ∈ assignments (script.map OneLine.bytes), isIdent a.1 = true := fun a ha =>
    (assignments_wellFormed ha).1
  unfold Importable
  by_cases hnil : script.map OneLine.bytes = []
  · rw [if_pos hnil, hnil]
    exact get_importScript_nil c k
  · rw [if_neg hnil]
    cases hlast : lastSet k.name c.keys (assignments (script.map OneLine.bytes)) with
    | none => exact get_importScript_unset hnil h hlast
    | some r =>
      obtain ⟨there, value⟩ := r
      have hscript := scriptValue_eq k c.keys (script.map OneLine.bytes)
      rw [hlast, Option.map_some] at hscript
      obtain ⟨a, ha, rfl⟩ := lastSet_mem hlast
      have htext : escapeQuotes (imported a.2) ∈ texts c k (script.map OneLine.bytes) :=
        List.mem_append_left _ (mem_held hscript _)
      have hline : 10 ∉ a.2 := (assignments_wellFormed ha).2
      rw [get_eq k.name (importScript _ _), linesOf_importScript_file c k hnil]
      dsimp only
      by_cases hvalue : a.2 = []
      · have hnone : linesOf k.name (setAll (assignments (script.map OneLine.bytes)) c.file) = [] :=
          List.eq_nil_iff_forall_not_mem.mpr fun line hmem =>
            (mem_linesOf_setAll (knows_file c) hkeys h hlast line hmem).1 hvalue
        refine iff_of_false (fun heq => ?_) fun hall => hall.1.1 hvalue
        rw [get_eq, hnone, List.map_nil, List.map_eq_nil_iff, sortUnique_eq_nil_iff, List.map_eq_nil_iff] at heq
        exact List.ne_nil_of_mem htext heq
      · have hread := reads_alike_iff (k := k) there hvalue hline
        have hprinted : shown (entry k.name (escapeQuotes (imported a.2))) = printed (escapeQuotes (imported a.2)) :=
          shown_entry (equals_notMem_ident k) _
        rw [get_setAll hkeys h hlast, map_shown_iff]
        constructor
        · rintro ⟨hall, hcount⟩
          have hparts := hread.mp (hprinted.trans (hall _ htext))
          rw [shown_setLine there hparts.1 hline hparts.2.2] at hall
          exact ⟨⟨hvalue, hparts⟩, hall, hcount⟩
        · rintro ⟨⟨-, hparts⟩, hall, hcount⟩
          rw [shown_setLine there hparts.1 hline hparts.2.2]
          exact ⟨hall, hcount⟩

end Script

/-- **The property**: a value is stored exactly when it is storable, and a script is imported as its assignments are
set exactly when it is importable, where no value has escapes that make another line with a key; such a value is just
one with which `conf s` leaves more lines with a key than there were. -/
theorem conf_iff (c : Config) (k : Ident) : (∀ v : Setting, Stores c k v ↔ Storable c k v) ∧
    ∀ script : List OneLine,
      (harmless c.keys (assignments (script.map OneLine.bytes)) = true →
        (get k.name (importScript (script.map OneLine.bytes) c.file) =
            get k.name (setAll (assignments (script.map OneLine.bytes)) c.file) ↔
          Importable c k (script.map OneLine.bytes))) ∧
      (harmless c.keys (assignments (script.map OneLine.bytes)) = true ↔
        ∀ before a behind, assignments (script.map OneLine.bytes) = before ++ a :: behind →
          Replaces (setAll before c.file) a) :=
  ⟨stores_iff c k, fun _ => ⟨get_importScript_iff,
    harmless_iff (knows_file c) fun _ ha => (assignments_wellFormed ha).1⟩⟩

def hostname : Ident := ⟨ascii "hostname", by decide⟩

def hostnameConfig : Config := ⟨[(hostname, ⟨ascii "ing-wyze", by decide⟩)]⟩

/-- A name is replaced, and a script takes it away, sets it and a new key. -/
theorem conf_hostname : Stores hostnameConfig hostname ⟨⟨ascii "cam", by decide⟩, by decide⟩ ∧
    get hostname.name (importScript [ascii "hostname=", ascii "hostname=door ", ascii "# zone", ascii "tz=\"UTC\""]
      hostnameConfig.file) =
      get hostname.name (setAll [(ascii "hostname", []), (ascii "hostname", ascii "door"), (ascii "tz", ascii "UTC")]
        hostnameConfig.file) := by
  constructor
  · refine ((conf_iff _ _).1 _).mpr ⟨by decide, by decide, by decide, ?_⟩
    rw [if_neg (by decide)]
    decide
  · refine (((conf_iff _ hostname).2 [⟨ascii "hostname=", by decide⟩, ⟨ascii "hostname=door ", by decide⟩,
      ⟨ascii "# zone", by decide⟩, ⟨ascii "tz=\"UTC\"", by decide⟩]).1 (by decide)).mpr ?_
    rw [Importable, if_neg (by decide)]
    exact ⟨⟨by decide, by decide, by decide, by decide⟩, by decide, by decide⟩

/-- A value with an equals sign is cut. -/
theorem value_cut : ¬Stores ⟨[]⟩ hostname ⟨⟨ascii "a=b", by decide⟩, by decide⟩ := by
  intro h
  exact absurd h.1 (by decide)

end Thingino.System.Conf
