import Thingino.Lib.Awk

/-! The list of addresses that need no authentication.

`is_trusted_ip` splits the list into words without quotes, so that the shell puts the names of files for a
word with a pattern in it. An entry with a `/` goes to an `awk` program together with the client, any other
is compared as a text. The loop of that program takes as long as the number behind the `/` says, which may be
for ever: `fuel` counts its rounds. -/
namespace Thingino.Web
open Lib Lib.Shell

/-! ### `is_trusted_ip` -/

/-- `client_ip`: `tr` and three times `sed`, for an address on one line. -/
def normalise (remoteAddr : List Byte) : List Byte :=
  let s := remoteAddr.map toLower
  let s := if s.head? = some 91 then s.tail else s
  let s := if s.getLast? = some 93 then s.dropLast else s
  if ascii "::ffff:" <+: s then s.drop 7 else s

/-- `bypass_list`, from what `jct` prints. -/
def bypassList (printed : List Byte) : List Byte := output (printed.filter (· ≠ 34))

/-- The words of the list. -/
def listed (printed : List Byte) : List (List Byte) :=
  if bypassList printed = [] ∨ bypassList printed = ascii "null" then []
  else words ((bypassList printed).map fun b => if b = 44 then 32 else b)

/-- What the `for` loop goes through, without spaces. -/
def entries (glob : Glob) (printed : List Byte) : List (List Byte) :=
  ((listed printed).flatMap glob.expand).map fun entry => output (entry.filter (!isBlank ·))

section Program
variable (awk : Awk)

def ip2int (ip : List Byte) : awk.Num :=
  let a := fun i => awk.add (awk.ofText (Awk.split 46 ip i)) (awk.ofNat 0)
  awk.add (awk.add (awk.add (awk.mul (a 0) (awk.ofNat 16777216)) (awk.mul (a 1) (awk.ofNat 65536)))
    (awk.mul (a 2) (awk.ofNat 256))) (a 3)

/-- The loop of `prefix2base`. -/
def prefix2base (p : awk.Num) : Nat → awk.Num → awk.Num → Option awk.Num
  | 0, _, _ => none
  | fuel + 1, i, n =>
    if awk.lt i (awk.sub (awk.ofNat 32) p) then prefix2base p fuel (awk.add i (awk.ofNat 1)) (awk.mul n (awk.ofNat 2))
    else some n

/-- Does the program exit with 0? -/
def sameNetwork (fuel : Nat) (client entry : List Byte) : Option Bool :=
  let field := fun i => (Awk.fields (Awk.record (client ++ 32 :: entry))).getD i []
  let cidr := Awk.split 47 (field 1)
  (prefix2base awk (awk.int (awk.ofText (cidr 1))) fuel (awk.ofNat 0) (awk.ofNat 1)).map fun base =>
    awk.eq (awk.int (awk.div (ip2int awk (field 0)) base)) (awk.int (awk.div (ip2int awk (cidr 0)) base))

/-- The pattern `"$entry"|"$entry".*`. -/
def sameText (client entry : List Byte) : Bool := client = entry || entry ++ [46] <+: client

/-- The `for` loop. -/
def checkEntries (fuel : Nat) (client : List Byte) : List (List Byte) → Option Bool
  | [] => some false
  | entry :: rest =>
    if entry = [] then checkEntries fuel client rest
    else
      match if entry.contains 47 then sameNetwork awk fuel client entry else some (sameText client entry) with
      | none => none
      | some true => some true
      | some false => checkEntries fuel client rest

/-- `is_trusted_ip`, with `true` for the result 0. -/
def isTrustedIp (glob : Glob) (fuel : Nat) (remoteAddr printed : List Byte) : Option Bool :=
  if remoteAddr = [] ∨ normalise remoteAddr = [] then some false
  else checkEntries awk fuel (normalise remoteAddr) (entries glob printed)

end Program

/-! ### What is documented -/

def isNumber (max : Nat) (s : List Byte) : Bool := s ≠ [] && s.all isDigit && decimal s ≤ max

/-- The number of an address a.b.c.d. -/
def ipv4 (s : List Byte) : Option Nat :=
  match s.splitOn 46 with
  | [a, b, c, d] =>
    if [a, b, c, d].all (isNumber 255) then
      some (decimal a * 16777216 + decimal b * 65536 + decimal c * 256 + decimal d)
    else none
  | _ => none

/-- The address and the length of a range a.b.c.d/p. -/
def cidr (s : List Byte) : Option (Nat × Nat) :=
  match s.splitOn 47 with
  | [ip, p] => if isNumber 32 p then (ipv4 ip).map fun net => (net, decimal p) else none
  | _ => none

/-- One to three numbers, each with a dot behind it. -/
def dottedPrefix (s : List Byte) : Bool :=
  s.getLast? = some 46 && (s.dropLast.splitOn 46).length ≤ 3 && (s.dropLast.splitOn 46).all (isNumber 255)

/-- An address has no slash. -/
def Exact (client entry : List Byte) : Prop := entry = client ∧ entry.contains 47 = false

def Inside (client entry : List Byte) : Prop :=
  ∃ net p addr, cidr entry = some (net, p) ∧ ipv4 client = some addr ∧ net / 2 ^ (32 - p) = addr / 2 ^ (32 - p)

/-- The entry lets the client in, as it is documented. -/
def Admits (client entry : List Byte) : Prop :=
  Exact client entry ∨ (dottedPrefix entry = true ∧ entry <+: client) ∨ Inside client entry

/-- **The property**: the result is 0 if and only if some entry of the list lets the client in. -/
def AsDocumented (awk : Awk) (glob : Glob) (remoteAddr printed : List Byte) : Prop :=
  (∃ fuel, isTrustedIp awk glob fuel remoteAddr printed = some true) ↔
    ∃ entry ∈ listed printed, Admits (normalise remoteAddr) entry

/-! ### When it holds -/

/-- The program reads the same number in both, at the length that it reads. -/
def SameNumber (awk : Awk) (client entry : List Byte) : Prop := ∃ fuel, sameNetwork awk fuel client entry = some true

/-- The loop gets to the entry: none before it keeps `awk` busy for ever. -/
def Reached (awk : Awk) (client : List Byte) (entries : List (List Byte)) (entry : List Byte) : Prop :=
  ∃ before after, entries = before ++ entry :: after ∧
    ∀ e ∈ before, e.contains 47 = true → ∃ fuel, sameNetwork awk fuel client e ≠ none

/-- An entry that is taken for the client's: a text that the client goes on from with a dot; a range that is
none, or one of addresses of another kind, with the same number; or the name of a file that is put in for a
pattern. -/
def Misread (awk : Awk) (client : List Byte) (list : List (List Byte)) (entry : List Byte) : Prop :=
  (entry.contains 47 = false ∧ entry ++ [46] <+: client) ∨
    (entry.contains 47 = true ∧ (cidr entry = none ∨ ipv4 client = none) ∧ SameNumber awk client entry) ∨
    (entry ∉ list ∧ (Exact client entry ∨ entry.contains 47 = true ∧ SameNumber awk client entry))

/-- An entry of the list lets the client in, and the loop gets to it. -/
def LetIn (awk : Awk) (glob : Glob) (client printed : List Byte) : Prop :=
  ∃ entry ∈ listed printed, Reached awk client (entries glob printed) entry ∧ (Exact client entry ∨ Inside client entry)

/-- An entry is misread that the loop gets to. -/
def TakenIn (awk : Awk) (glob : Glob) (client printed : List Byte) : Prop :=
  client ≠ [] ∧ ∃ entry, entry ≠ [] ∧ Reached awk client (entries glob printed) entry ∧
    Misread awk client (listed printed) entry

/-! ### Texts -/

section Texts
variable {s a b : List Byte} {n addr : Nat}

theorem eq_of_splitOn (h : s.splitOn 47 = [a, b]) : s = a ++ 47 :: b := by
  have hs : [47#8].intercalate (s.splitOn 47) = s := List.intercalate_splitOn 47
  rw [h] at hs
  simpa [List.intercalate, List.intersperse] using hs.symm

theorem eq_of_splitOn_dot {a b c d : List Byte} (h : s.splitOn 46 = [a, b, c, d]) :
    s = a ++ 46 :: (b ++ 46 :: (c ++ 46 :: d)) := by
  have hs : [46#8].intercalate (s.splitOn 46) = s := List.intercalate_splitOn 46
  rw [h] at hs
  simpa [List.intercalate, List.intersperse] using hs.symm

theorem isNumber_iff : isNumber n s = true ↔ s ≠ [] ∧ s.all isDigit = true ∧ decimal s ≤ n := by
  rw [isNumber, Bool.and_eq_true, Bool.and_eq_true, decide_eq_true_iff, decide_eq_true_iff, and_assoc]

theorem ipv4_eq_some (h : ipv4 s = some addr) :
    ∃ a b c d, s.splitOn 46 = [a, b, c, d] ∧ (∀ x ∈ [a, b, c, d], isNumber 255 x = true) ∧
      addr = decimal a * 16777216 + decimal b * 65536 + decimal c * 256 + decimal d := by
  unfold ipv4 at h
  split at h
  · rename_i a b c d hsplit
    obtain ⟨hall, haddr⟩ := Option.ite_none_right_eq_some.mp h
    exact ⟨a, b, c, d, hsplit, List.all_eq_true.mp hall, (Option.some.inj haddr).symm⟩
  · cases h

theorem cidr_eq_some {net p : Nat} (h : cidr s = some (net, p)) :
    ∃ ip q, s.splitOn 47 = [ip, q] ∧ isNumber 32 q = true ∧ decimal q = p ∧ ipv4 ip = some net := by
  unfold cidr at h
  split at h
  · rename_i ip q hsplit
    obtain ⟨hq, hnet⟩ := Option.ite_none_right_eq_some.mp h
    obtain ⟨net', hip, heq⟩ := Option.map_eq_some_iff.mp hnet
    obtain ⟨rfl, rfl⟩ := Prod.mk.inj heq
    exact ⟨ip, q, hsplit, hq, rfl, hip⟩
  · cases h

/-- What stands in addresses and ranges. -/
def isAddressByte (b : Byte) : Bool := isDigit b || b = 46 || b = 47

theorem all_of_isNumber (h : isNumber n s = true) : ∀ b ∈ s, isAddressByte b = true := by
  intro b hb
  rw [isAddressByte, List.all_eq_true.mp (isNumber_iff.mp h).2.1 b hb]
  rfl

theorem all_of_ipv4 (h : ipv4 s = some addr) : s ≠ [] ∧ ∀ b ∈ s, isAddressByte b = true := by
  obtain ⟨a, b, c, d, hsplit, hall, -⟩ := ipv4_eq_some h
  have ha := all_of_isNumber (hall a (by simp))
  have hb := all_of_isNumber (hall b (by simp))
  have hc := all_of_isNumber (hall c (by simp))
  have hd := all_of_isNumber (hall d (by simp))
  rw [eq_of_splitOn_dot hsplit]
  refine ⟨List.append_ne_nil_of_right_ne_nil _ (List.cons_ne_nil _ _), fun x hx => ?_⟩
  simp only [List.mem_append, List.mem_cons] at hx
  obtain hx | rfl | hx | rfl | hx | rfl | hx := hx
  · exact ha x hx
  · rfl
  · exact hb x hx
  · rfl
  · exact hc x hx
  · rfl
  · exact hd x hx

theorem all_of_cidr {net p : Nat} (h : cidr s = some (net, p)) :
    s.contains 47 = true ∧ ∀ b ∈ s, isAddressByte b = true := by
  obtain ⟨ip, q, hsplit, hq, -, hip⟩ := cidr_eq_some h
  rw [eq_of_splitOn hsplit]
  refine ⟨by simp, fun x hx => ?_⟩
  simp only [List.mem_append, List.mem_cons] at hx
  obtain hx | rfl | hx := hx
  · exact (all_of_ipv4 hip).2 x hx
  · rfl
  · exact all_of_isNumber hq x hx

theorem not_space_of_isAddressByte {b : Byte} (h : isAddressByte b = true) : isBlank b = false ∧ b ≠ 10 := by
  revert b
  decide

/-- A client and an entry that are made of such bytes are the two fields of the line. -/
theorem fields_line (ha : a ≠ []) (hb : b ≠ []) (hall : ∀ x ∈ a, isAddressByte x = true)
    (hall' : ∀ x ∈ b, isAddressByte x = true) : Awk.fields (Awk.record (a ++ 32 :: b)) = [a, b] := by
  have hrecord : Awk.record (a ++ 32 :: b) = a ++ 32 :: b := by
    refine List.takeWhile_eq_self_iff.mpr fun x hx => decide_eq_true ?_
    obtain hx | hx := List.mem_append.mp hx
    · exact (not_space_of_isAddressByte (hall x hx)).2
    · obtain rfl | hx := List.mem_cons.mp hx
      · decide
      · exact (not_space_of_isAddressByte (hall' x hx)).2
  rw [hrecord]
  exact Awk.fields_pair ha hb (fun x hx => (not_space_of_isAddressByte (hall x hx)).1)
    fun x hx => (not_space_of_isAddressByte (hall' x hx)).1

end Texts

/-! ### The program -/

section Arithmetic
variable (awk : Awk)

theorem prefix2base_succ {p r : awk.Num} {fuel : Nat} {i n : awk.Num} (h : prefix2base awk p fuel i n = some r) :
    prefix2base awk p (fuel + 1) i n = some r := by
  induction fuel generalizing i n with
  | zero => cases h
  | succ fuel ih =>
    rw [prefix2base] at h ⊢
    split at h
    · rename_i hlt
      rw [if_pos hlt]
      exact ih h
    · rename_i hge
      rw [if_neg hge]
      exact h

/-- More rounds do not change a result. -/
theorem prefix2base_mono {p r : awk.Num} {fuel fuel' : Nat} (hle : fuel ≤ fuel') {i n : awk.Num}
    (h : prefix2base awk p fuel i n = some r) : prefix2base awk p fuel' i n = some r := by
  induction hle with
  | refl => exact h
  | step _ ih => exact prefix2base_succ awk ih

theorem sameNetwork_mono {fuel fuel' : Nat} (hle : fuel ≤ fuel') {client entry : List Byte} {r : Bool}
    (h : sameNetwork awk fuel client entry = some r) : sameNetwork awk fuel' client entry = some r := by
  obtain ⟨base, hbase, hr⟩ := Option.map_eq_some_iff.mp h
  exact Option.map_eq_some_iff.mpr ⟨base, prefix2base_mono awk hle hbase, hr⟩

/-- The loop doubles as often as bits are left. -/
theorem prefix2base_ofNat {k j m : Nat} (hk : k ≤ 32) (hj : 32 - k = j + m) :
    prefix2base awk (awk.ofNat k) (m + 1) (awk.ofNat j) (awk.ofNat (2 ^ j)) = some (awk.ofNat (2 ^ (32 - k))) := by
  induction m generalizing j with
  | zero =>
    rw [prefix2base, awk.sub_ofNat 32 k hk (by decide), awk.lt_ofNat _ _ (by omega) (by omega), if_neg]
    · rw [hj, Nat.add_zero]
    · rw [decide_eq_true_iff]
      omega
  | succ m ih =>
    have hpow : 2 ^ j * 2 < 9007199254740992 := by
      have hle : 2 ^ (j + 1) ≤ 2 ^ 32 := Nat.pow_le_pow_right (by decide) (by omega)
      rw [Nat.pow_succ] at hle
      exact hle.trans_lt (by decide)
    rw [prefix2base, awk.sub_ofNat 32 k hk (by decide), awk.lt_ofNat _ _ (by omega) (by omega),
      if_pos (decide_eq_true (by omega)), awk.add_ofNat _ _ (by omega), awk.mul_ofNat _ _ hpow, ← Nat.pow_succ]
    exact ih (by omega)

theorem ofText_of_isNumber {n : Nat} {s : List Byte} (h : isNumber n s = true) (hn : n < 9007199254740992) :
    awk.ofText s = awk.ofNat (decimal s) :=
  have ⟨hne, hall, hle⟩ := isNumber_iff.mp h
  awk.ofText_decimal s hne hall (hle.trans_lt hn)

/-- Addresses are numbers below 2^32. -/
theorem ip2int_of_ipv4 {s : List Byte} {addr : Nat} (h : ipv4 s = some addr) :
    ip2int awk s = awk.ofNat addr ∧ addr < 4294967296 := by
  obtain ⟨a, b, c, d, hsplit, hall, rfl⟩ := ipv4_eq_some h
  have ha := hall a (by simp)
  have hb := hall b (by simp)
  have hc := hall c (by simp)
  have hd := hall d (by simp)
  have hla := (isNumber_iff.mp ha).2.2
  have hlb := (isNumber_iff.mp hb).2.2
  have hlc := (isNumber_iff.mp hc).2.2
  have hld := (isNumber_iff.mp hd).2.2
  refine ⟨?_, by omega⟩
  have hfields : Awk.split 46 s 0 = a ∧ Awk.split 46 s 1 = b ∧ Awk.split 46 s 2 = c ∧ Awk.split 46 s 3 = d := by
    simp only [Awk.split, hsplit]
    exact ⟨rfl, rfl, rfl, rfl⟩
  obtain ⟨h0, h1, h2, h3⟩ := hfields
  simp only [ip2int, h0, h1, h2, h3, ofText_of_isNumber awk ha (by decide), ofText_of_isNumber awk hb (by decide),
    ofText_of_isNumber awk hc (by decide), ofText_of_isNumber awk hd (by decide)]
  rw [awk.add_ofNat _ 0 (by omega), awk.add_ofNat _ 0 (by omega), awk.add_ofNat _ 0 (by omega),
    awk.add_ofNat _ 0 (by omega), awk.mul_ofNat _ _ (by omega), awk.mul_ofNat _ _ (by omega), awk.mul_ofNat _ _ (by omega),
    awk.add_ofNat _ _ (by omega), awk.add_ofNat _ _ (by omega), awk.add_ofNat _ _ (by omega)]
  rfl

/-- Of an address and a range the program sees whether the one is in the other. -/
theorem sameNetwork_of_cidr {client entry : List Byte} {net p addr : Nat} (hentry : cidr entry = some (net, p))
    (hclient : ipv4 client = some addr) :
    sameNetwork awk 33 client entry = some (decide (addr / 2 ^ (32 - p) = net / 2 ^ (32 - p))) := by
  obtain ⟨ip, q, hsplit, hq, rfl, hip⟩ := cidr_eq_some hentry
  obtain ⟨hslash, hentries⟩ := all_of_cidr hentry
  obtain ⟨hne, hclients⟩ := all_of_ipv4 hclient
  have hentryne : entry ≠ [] := by
    rintro rfl
    cases hslash
  have hle := (isNumber_iff.mp hq).2.2
  obtain ⟨hclientInt, hclientLt⟩ := ip2int_of_ipv4 awk hclient
  obtain ⟨hnetInt, hnetLt⟩ := ip2int_of_ipv4 awk hip
  have hbase : prefix2base awk (awk.ofNat (decimal q)) 33 (awk.ofNat 0) (awk.ofNat 1) =
      some (awk.ofNat (2 ^ (32 - decimal q))) :=
    prefix2base_mono awk (by omega) (prefix2base_ofNat awk (j := 0) hle (Nat.zero_add _).symm)
  have hfirst : Awk.split 47 entry 0 = ip := by rw [Awk.split, hsplit]; rfl
  have hsecond : Awk.split 47 entry 1 = q := by rw [Awk.split, hsplit]; rfl
  simp only [sameNetwork, fields_line hne hentryne hclients hentries, List.getD_cons_zero, List.getD_cons_succ, hfirst,
    hsecond, hclientInt, hnetInt, ofText_of_isNumber awk hq (by decide)]
  rw [awk.int_ofNat _ (by omega), hbase, Option.map_some, awk.int_div _ _ (by omega) (by omega),
    awk.int_div _ _ (by omega) (by omega), awk.eq_ofNat]
  · exact (Nat.div_le_self _ _).trans_lt (by omega)
  · exact (Nat.div_le_self _ _).trans_lt (by omega)

end Arithmetic

/-! ### The loop -/

section Loop
variable {awk : Awk} {client entry : List Byte} {l : List (List Byte)}

/-- The code takes the entry for the client's. -/
def Matched (awk : Awk) (client entry : List Byte) : Prop :=
  if entry.contains 47 then SameNumber awk client entry else sameText client entry = true

theorem checkEntries_cons {fuel : Nat} {rest : List (List Byte)} :
    checkEntries awk fuel client (entry :: rest) =
      if entry = [] then checkEntries awk fuel client rest
      else
        (if entry.contains 47 then sameNetwork awk fuel client entry else some (sameText client entry)).bind fun found =>
          if found then some true else checkEntries awk fuel client rest := by
  rw [checkEntries]
  split
  · rfl
  · split <;> simp_all

theorem checkEntries_mono {fuel fuel' : Nat} (hle : fuel ≤ fuel') (h : checkEntries awk fuel client l = some true) :
    checkEntries awk fuel' client l = some true := by
  induction l with
  | nil => cases h
  | cons entry rest ih =>
    rw [checkEntries_cons] at h ⊢
    split at h
    · rename_i hnil
      rw [if_pos hnil]
      exact ih h
    · rename_i hne
      rw [if_neg hne]
      obtain ⟨found, hfound, hrest⟩ := Option.bind_eq_some_iff.mp h
      refine Option.bind_eq_some_iff.mpr ⟨found, ?_, ?_⟩
      · split at hfound
        · rename_i hslash
          rw [if_pos hslash]
          exact sameNetwork_mono awk hle hfound
        · rename_i hslash
          rw [if_neg hslash]
          exact hfound
      · cases found with
        | true => rfl
        | false => exact ih hrest

theorem reached_self {rest : List (List Byte)} : Reached awk client (entry :: rest) entry :=
  ⟨[], rest, rfl, fun _ he => absurd he List.not_mem_nil⟩

theorem Reached.cons {first : List Byte} (h : Reached awk client l entry)
    (hfirst : first.contains 47 = true → ∃ fuel, sameNetwork awk fuel client first ≠ none) :
    Reached awk client (first :: l) entry := by
  obtain ⟨before, after, rfl, hall⟩ := h
  refine ⟨first :: before, after, rfl, fun e he => ?_⟩
  obtain rfl | he := List.mem_cons.mp he
  · exact hfirst
  · exact hall e he

theorem exists_of_checkEntries {fuel : Nat} (h : checkEntries awk fuel client l = some true) :
    ∃ entry, entry ≠ [] ∧ Reached awk client l entry ∧ Matched awk client entry := by
  induction l with
  | nil => cases h
  | cons first rest ih =>
    rw [checkEntries_cons] at h
    split at h
    · rename_i hnil
      obtain ⟨entry, hne, hreached, hmatched⟩ := ih h
      refine ⟨entry, hne, hreached.cons fun hslash => ?_, hmatched⟩
      rw [hnil] at hslash
      cases hslash
    · rename_i hne
      obtain ⟨found, hfound, hrest⟩ := Option.bind_eq_some_iff.mp h
      cases found with
      | true =>
        refine ⟨first, hne, reached_self, ?_⟩
        unfold Matched
        split at hfound
        · rename_i hslash
          rw [if_pos hslash]
          exact ⟨fuel, hfound⟩
        · rename_i hslash
          rw [if_neg hslash]
          exact Option.some.inj hfound
      | false =>
        obtain ⟨entry, hentry, hreached, hmatched⟩ := ih hrest
        refine ⟨entry, hentry, hreached.cons fun hslash => ⟨fuel, ?_⟩, hmatched⟩
        rw [if_pos hslash] at hfound
        rw [hfound]
        exact Option.some_ne_none _

/-- One round: whatever the first entry is, the loop goes on or has found one. -/
theorem checkEntries_of_rest {first : List Byte}
    (hfirst : first.contains 47 = true → ∃ fuel, sameNetwork awk fuel client first ≠ none)
    (h : ∃ fuel, checkEntries awk fuel client l = some true) :
    ∃ fuel, checkEntries awk fuel client (first :: l) = some true := by
  obtain ⟨fuel, hrest⟩ := h
  by_cases hnil : first = []
  · refine ⟨fuel, ?_⟩
    rwa [checkEntries_cons, if_pos hnil]
  by_cases hslash : first.contains 47 = true
  · obtain ⟨fuel', hends⟩ := hfirst hslash
    obtain ⟨found, hfound⟩ := Option.ne_none_iff_exists'.mp hends
    refine ⟨max fuel fuel', ?_⟩
    rw [checkEntries_cons, if_neg hnil, if_pos hslash, sameNetwork_mono awk (le_max_right _ _) hfound, Option.bind_some]
    cases found with
    | true => rfl
    | false => exact checkEntries_mono (le_max_left _ _) hrest
  · refine ⟨fuel, ?_⟩
    rw [checkEntries_cons, if_neg hnil, if_neg hslash, Option.bind_some]
    cases sameText client first with
    | true => rfl
    | false => exact hrest

theorem checkEntries_self {after : List (List Byte)} (hne : entry ≠ []) (h : Matched awk client entry) :
    ∃ fuel, checkEntries awk fuel client (entry :: after) = some true := by
  unfold Matched at h
  split at h
  · rename_i hslash
    obtain ⟨fuel, hsame⟩ := h
    refine ⟨fuel, ?_⟩
    rw [checkEntries_cons, if_neg hne, if_pos hslash, hsame]
    rfl
  · rename_i hslash
    refine ⟨0, ?_⟩
    rw [checkEntries_cons, if_neg hne, if_neg hslash, h]
    rfl

/-- The loop finds an entry that it gets to and takes for the client's. -/
theorem checkEntries_iff :
    (∃ fuel, checkEntries awk fuel client l = some true) ↔
      ∃ entry, entry ≠ [] ∧ Reached awk client l entry ∧ Matched awk client entry := by
  refine ⟨fun ⟨fuel, h⟩ => exists_of_checkEntries h, ?_⟩
  rintro ⟨entry, hne, ⟨before, after, rfl, hall⟩, hmatched⟩
  induction before with
  | nil => exact checkEntries_self hne hmatched
  | cons first before ih =>
    exact checkEntries_of_rest (hall first List.mem_cons_self) (ih fun e he => hall e (List.mem_cons_of_mem _ he))

/-- The program says what is so about an address and a range. -/
theorem sameNumber_iff {net p addr : Nat} (hentry : cidr entry = some (net, p)) (hclient : ipv4 client = some addr) :
    SameNumber awk client entry ↔ Inside client entry := by
  have hsame := sameNetwork_of_cidr awk hentry hclient
  constructor
  · rintro ⟨fuel, hfuel⟩
    have hfuel' := sameNetwork_mono awk (le_max_left fuel 33) hfuel
    rw [sameNetwork_mono awk (le_max_right fuel 33) hsame] at hfuel'
    exact ⟨net, p, addr, hentry, hclient, (of_decide_eq_true (Option.some.inj hfuel')).symm⟩
  · rintro ⟨net', p', addr', hentry', hclient', heq⟩
    obtain ⟨rfl, rfl⟩ := Prod.mk.inj (Option.some.inj (hentry.symm.trans hentry'))
    obtain rfl := Option.some.inj (hclient.symm.trans hclient')
    exact ⟨33, hsame.trans (congrArg some (decide_eq_true heq.symm))⟩

theorem matched_of_exact (h : Exact client entry) : Matched awk client entry := by
  obtain ⟨rfl, hslash⟩ := h
  rw [Matched, if_neg (by rw [hslash]; exact Bool.false_ne_true), sameText, decide_eq_true rfl]
  rfl

theorem matched_of_inside (h : Inside client entry) : Matched awk client entry := by
  obtain ⟨net, p, addr, hentry, hclient, heq⟩ := h
  rw [Matched, if_pos (all_of_cidr hentry).1]
  exact (sameNumber_iff hentry hclient).mpr ⟨net, p, addr, hentry, hclient, heq⟩

theorem matched_of_misread {list : List (List Byte)} (h : Misread awk client list entry) : Matched awk client entry := by
  obtain ⟨hslash, hprefix⟩ | ⟨hslash, -, hsame⟩ | ⟨-, hexact | ⟨hslash, hsame⟩⟩ := h
  · rw [Matched, if_neg (by rw [hslash]; exact Bool.false_ne_true), sameText, decide_eq_true hprefix, Bool.or_true]
  · rwa [Matched, if_pos hslash]
  · exact matched_of_exact hexact
  · rwa [Matched, if_pos hslash]

/-- What is taken for the client's is so, or misread. -/
theorem matched_iff (list : List (List Byte)) :
    Matched awk client entry ↔
      (entry ∈ list ∧ (Exact client entry ∨ Inside client entry)) ∨ Misread awk client list entry := by
  refine ⟨fun h => ?_, ?_⟩
  · unfold Matched at h
    by_cases hlist : entry ∈ list
    · split at h
      · rename_i hslash
        cases hentry : cidr entry with
        | none => exact .inr (.inr (.inl ⟨hslash, .inl hentry, h⟩))
        | some netp =>
          cases hclient : ipv4 client with
          | none => exact .inr (.inr (.inl ⟨hslash, .inr hclient, h⟩))
          | some addr => exact .inl ⟨hlist, .inr ((sameNumber_iff hentry hclient).mp h)⟩
      · rename_i hslash
        rw [sameText, Bool.or_eq_true, decide_eq_true_iff, decide_eq_true_iff] at h
        obtain rfl | hprefix := h
        · exact .inl ⟨hlist, .inl ⟨rfl, Bool.eq_false_iff.mpr hslash⟩⟩
        · exact .inr (.inl ⟨Bool.eq_false_iff.mpr hslash, hprefix⟩)
    · split at h
      · rename_i hslash
        exact .inr (.inr (.inr ⟨hlist, .inr ⟨hslash, h⟩⟩))
      · rename_i hslash
        rw [sameText, Bool.or_eq_true, decide_eq_true_iff, decide_eq_true_iff] at h
        obtain rfl | hprefix := h
        · exact .inr (.inr (.inr ⟨hlist, .inl ⟨rfl, Bool.eq_false_iff.mpr hslash⟩⟩))
        · exact .inr (.inl ⟨Bool.eq_false_iff.mpr hslash, hprefix⟩)
  · rintro (⟨-, hexact | hinside⟩ | hmisread)
    · exact matched_of_exact hexact
    · exact matched_of_inside hinside
    · exact matched_of_misread hmisread

end Loop

section Result
variable {awk : Awk} {glob : Glob} {remoteAddr printed client entry : List Byte}

theorem ne_nil_of_mem_listed (h : entry ∈ listed printed) : entry ≠ [] := by
  unfold listed at h
  split at h
  · cases h
  · exact of_decide_eq_true (List.mem_filter.mp h).2

theorem client_ne_nil (h : LetIn awk glob client printed) : client ≠ [] := by
  obtain ⟨entry, hlisted, -, ⟨rfl, -⟩ | ⟨net, p, addr, -, hclient, -⟩⟩ := h
  · exact ne_nil_of_mem_listed hlisted
  · exact (all_of_ipv4 hclient).1

/-- When the result is 0. -/
theorem isTrustedIp_iff :
    (∃ fuel, isTrustedIp awk glob fuel remoteAddr printed = some true) ↔
      LetIn awk glob (normalise remoteAddr) printed ∨ TakenIn awk glob (normalise remoteAddr) printed := by
  by_cases hclient : normalise remoteAddr = []
  · have hno : ∀ fuel, isTrustedIp awk glob fuel remoteAddr printed = some false := fun fuel =>
      if_pos (.inr hclient)
    constructor
    · rintro ⟨fuel, h⟩
      rw [hno fuel] at h
      cases h
    · rintro (hlet | ⟨hne, -⟩)
      · exact absurd hclient (client_ne_nil hlet)
      · exact absurd hclient hne
  · have hremote : ¬(remoteAddr = [] ∨ normalise remoteAddr = []) := by
      rintro (rfl | h)
      · exact hclient rfl
      · exact hclient h
    simp only [isTrustedIp, if_neg hremote]
    rw [checkEntries_iff]
    constructor
    · rintro ⟨entry, hne, hreached, hmatched⟩
      obtain ⟨hlisted, hadmits⟩ | hmisread := (matched_iff (listed printed)).mp hmatched
      · exact .inl ⟨entry, hlisted, hreached, hadmits⟩
      · exact .inr ⟨hclient, entry, hne, hreached, hmisread⟩
    · rintro (⟨entry, hlisted, hreached, hadmits⟩ | ⟨-, entry, hne, hreached, hmisread⟩)
      · exact ⟨entry, ne_nil_of_mem_listed hlisted, hreached, (matched_iff (listed printed)).mpr (.inl ⟨hlisted, hadmits⟩)⟩
      · exact ⟨entry, hne, hreached, (matched_iff (listed printed)).mpr (.inr hmisread)⟩

end Result

/-- **When the bypass is as documented**: the loop gets to an exact entry or a range that lets the client in;
or no entry lets it in and none is misread; or one lets it in and one is misread. -/
theorem asDocumented_iff (awk : Awk) (glob : Glob) (remoteAddr printed : List Byte) :
    AsDocumented awk glob remoteAddr printed ↔
      LetIn awk glob (normalise remoteAddr) printed ∨
        ((∀ entry ∈ listed printed, ¬Admits (normalise remoteAddr) entry) ∧
          ¬TakenIn awk glob (normalise remoteAddr) printed) ∨
        ((∃ entry ∈ listed printed, Admits (normalise remoteAddr) entry) ∧
          TakenIn awk glob (normalise remoteAddr) printed) := by
  have hadmits : LetIn awk glob (normalise remoteAddr) printed →
      ∃ entry ∈ listed printed, Admits (normalise remoteAddr) entry := by
    rintro ⟨entry, hlisted, -, hexact | hinside⟩
    · exact ⟨entry, hlisted, .inl hexact⟩
    · exact ⟨entry, hlisted, .inr (.inr hinside)⟩
  have hnone : (∀ entry ∈ listed printed, ¬Admits (normalise remoteAddr) entry) ↔
      ¬∃ entry ∈ listed printed, Admits (normalise remoteAddr) entry := by
    simp only [not_exists, not_and]
  rw [AsDocumented, isTrustedIp_iff, hnone]
  generalize (∃ entry ∈ listed printed, Admits (normalise remoteAddr) entry) = admitted at hadmits ⊢
  tauto

/-- A directory without files. -/
def noFiles : Glob := ⟨fun word => [word], fun _ _ => rfl⟩

/-- The prefix of the documentation lets nobody in. -/
theorem prefix_overlooked : ¬AsDocumented .rational noFiles (ascii "192.168.1.5") (ascii "192.168.1.") := by
  have hadmits : ∃ entry ∈ listed (ascii "192.168.1."), Admits (normalise (ascii "192.168.1.5")) entry :=
    ⟨ascii "192.168.1.", by decide, .inr (.inl (by decide))⟩
  intro h
  obtain ⟨fuel, hfuel⟩ := h.mpr hadmits
  have hno : ∀ fuel, isTrustedIp .rational noFiles fuel (ascii "192.168.1.5") (ascii "192.168.1.") = some false := by
    intro fuel
    rfl
  rw [hno fuel] at hfuel
  cases hfuel

end Thingino.Web
