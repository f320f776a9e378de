import Thingino.Lib.CString

/-! `grep -o` for simple patterns.

A shell script that owns a text format reads it back with patterns of one kind: a literal key,
a run of characters of a class, and a literal behind it, as in `"mode":"[a-z]*"`. `grepO` lists
the runs such a pattern finds from left to right. The run is as long as can be, so the literal
behind it must not start inside the class, and key, class and literal are without newlines; the
lines of the text then do not matter.

The two rules: a stretch of text in which no match can start is skipped (`grepO_append`), and
at the key the run is found and the search goes on behind the match (`grepO_match`). -/
namespace Thingino.Lib

section Grep
variable (key : List Byte) (cls : Byte → Bool) (close : List Byte)

/-- The pattern matches at the start of the text. -/
def matchesAt (s : List Byte) : Bool := key <+: s && close <+: (s.drop key.length).dropWhile cls

/-- The runs that match, where the first `skip` bytes belong to a match already. -/
def grepFrom : Nat → List Byte → List (List Byte)
  | _, [] => []
  | skip + 1, _ :: s => grepFrom skip s
  | 0, b :: s =>
    if matchesAt key cls close (b :: s) then
      let run := ((b :: s).drop key.length).takeWhile cls
      run :: grepFrom (key.length + run.length + close.length - 1) s
    else grepFrom 0 s

def grepO (s : List Byte) : List (List Byte) := grepFrom key cls close 0 s

/-- No match can start in the text, whatever follows. -/
def avoids (key : List Byte) : List Byte → Bool
  | [] => true
  | b :: s => !decide (key <+: b :: s) && !decide (b :: s <+: key) && avoids key s

variable {key cls close}

theorem not_matchesAt {a s : List Byte} (hkey : ¬key <+: a) (ha : ¬a <+: key) :
    matchesAt key cls close (a ++ s) = false := by
  have hnot : ¬key <+: a ++ s := fun h => (List.prefix_or_prefix_of_prefix h (List.prefix_append a s)).elim hkey ha
  rw [matchesAt, decide_eq_false hnot, Bool.false_and]

/-- A stretch without a match is skipped. -/
theorem grepO_append {a : List Byte} (h : avoids key a = true) (s : List Byte) :
    grepO key cls close (a ++ s) = grepO key cls close s := by
  induction a with
  | nil => rfl
  | cons b a ih =>
    rw [avoids, Bool.and_eq_true, Bool.and_eq_true, Bool.not_eq_true', Bool.not_eq_true', decide_eq_false_iff_not,
      decide_eq_false_iff_not] at h
    have hno : matchesAt key cls close (b :: (a ++ s)) = false := not_matchesAt (s := s) h.1.1 h.1.2
    rw [List.cons_append, grepO, grepFrom, if_neg (Bool.eq_false_iff.mp hno)]
    exact ih h.2

/-- Nothing starts where the first byte of the key does not occur. -/
theorem avoids_of_notMem {q : Byte} {a : List Byte} (h : q ∉ a) : avoids (q :: key) a = true := by
  induction a with
  | nil => rfl
  | cons b a ih =>
    have hne : q ≠ b := fun heq => h (heq ▸ List.mem_cons_self)
    have hkey : ¬q :: key <+: b :: a := fun hp => hne (List.cons_prefix_cons.mp hp).1
    have ha : ¬b :: a <+: q :: key := fun hp => hne (List.cons_prefix_cons.mp hp).1.symm
    rw [avoids, decide_eq_false hkey, decide_eq_false ha, ih fun hmem => h (List.mem_cons_of_mem b hmem)]
    rfl

theorem grepFrom_length (a s : List Byte) : grepFrom key cls close a.length (a ++ s) = grepO key cls close s := by
  induction a with
  | nil => rfl
  | cons b a ih => exact ih

/-- A run ends where the class does. -/
theorem run_append {run s : List Byte} (hrun : ∀ b ∈ run, cls b = true) (hstop : ∀ b, s.head? = some b → cls b = false) :
    (run ++ s).takeWhile cls = run ∧ (run ++ s).dropWhile cls = s := by
  rw [List.takeWhile_append_of_pos hrun, List.dropWhile_append_of_pos hrun]
  cases s with
  | nil => exact ⟨List.append_nil run, rfl⟩
  | cons b s =>
    have hb : ¬cls b = true := Bool.eq_false_iff.mp (hstop b rfl)
    rw [List.takeWhile_cons_of_neg hb, List.dropWhile_cons_of_neg hb]
    exact ⟨List.append_nil run, rfl⟩

/-- At the key the run is found, and the search goes on behind the match. -/
theorem grepO_match {run s : List Byte} (hkey : key ≠ []) (hrun : ∀ b ∈ run, cls b = true)
    (hstop : ∀ b, (close ++ s).head? = some b → cls b = false) :
    grepO key cls close (key ++ (run ++ (close ++ s))) = run :: grepO key cls close s := by
  obtain ⟨htake, hdrop⟩ := run_append hrun hstop
  have hbehind : (key ++ (run ++ (close ++ s))).drop key.length = run ++ (close ++ s) := List.drop_left
  have hmatch : matchesAt key cls close (key ++ (run ++ (close ++ s))) = true := by
    rw [matchesAt, hbehind, hdrop, Bool.and_eq_true, decide_eq_true_eq, decide_eq_true_eq]
    exact ⟨List.prefix_append _ _, List.prefix_append _ _⟩
  obtain ⟨q, key', rfl⟩ := List.exists_cons_of_ne_nil hkey
  rw [List.cons_append] at hmatch hbehind ⊢
  rw [grepO, grepFrom, if_pos hmatch, hbehind, htake]
  dsimp only
  have hlength : (q :: key').length + run.length + close.length - 1 = (key' ++ (run ++ close)).length := by
    simp only [List.length_cons, List.length_append]
    omega
  have htext : key' ++ (run ++ (close ++ s)) = key' ++ (run ++ close) ++ s := by
    simp only [List.append_assoc]
  rw [hlength, htext, grepFrom_length]

/-- The same for a pattern that ends in the class. -/
theorem grepO_run {run s : List Byte} (hkey : key ≠ []) (hrun : ∀ b ∈ run, cls b = true)
    (hstop : ∀ b, s.head? = some b → cls b = false) :
    grepO key cls [] (key ++ (run ++ s)) = run :: grepO key cls [] s := grepO_match hkey hrun hstop

/-- Runs are made of the class. -/
theorem forall_mem_grepFrom (skip : Nat) (s : List Byte) :
    ∀ run ∈ grepFrom key cls close skip s, ∀ b ∈ run, cls b = true := by
  induction s generalizing skip with
  | nil => exact fun run hrun => absurd hrun List.not_mem_nil
  | cons c s ih =>
    cases skip with
    | succ skip => exact ih skip
    | zero =>
      rw [grepFrom]
      split
      · exact List.forall_mem_cons.mpr ⟨fun b hb => List.mem_takeWhile_imp hb, ih _⟩
      · exact ih 0

/-- The first match as the text has it: nothing of the key before it, and a run of the class behind it that is as
long as can be. -/
def FirstRun (key : List Byte) (cls : Byte → Bool) (s run : List Byte) : Prop :=
  ∃ before rest, s = before ++ (key ++ (run ++ rest)) ∧ ¬key <:+: (before ++ key).dropLast ∧
    (∀ b ∈ run, cls b = true) ∧ ∀ b, rest.head? = some b → cls b = false

/-- The key stands in front, or the first match is the one of the tail. -/
theorem firstRun_cons_iff (hkey : key ≠ []) {b : Byte} {s run : List Byte} (hno : ¬key <+: b :: s) :
    FirstRun key cls (b :: s) run ↔ FirstRun key cls s run := by
  have hcut : ∀ before, (b :: before ++ key).dropLast = b :: (before ++ key).dropLast := fun before =>
    List.dropLast_cons_of_ne_nil fun hnil => hkey (List.append_eq_nil_iff.mp hnil).2
  constructor
  · rintro ⟨before, rest, htext, hfirst, hrun⟩
    cases before with
    | nil => exact absurd ⟨run ++ rest, htext.symm⟩ hno
    | cons c before =>
      rw [List.cons_append, List.cons.injEq] at htext
      obtain ⟨rfl, rfl⟩ := htext
      rw [hcut] at hfirst
      exact ⟨before, rest, rfl, fun h => hfirst (h.trans (List.suffix_cons _ _).isInfix), hrun⟩
  · rintro ⟨before, rest, rfl, hfirst, hrun⟩
    refine ⟨b :: before, rest, rfl, fun h => ?_, hrun⟩
    rw [hcut] at h
    obtain h | h := List.infix_cons_iff.mp h
    · have hprefix : b :: (before ++ key).dropLast <+: b :: (before ++ (key ++ (run ++ rest))) := by
        rw [List.prefix_cons_inj, ← List.append_assoc]
        exact (List.dropLast_prefix _).trans (List.prefix_append _ _)
      exact hno (h.trans hprefix)
    · exact hfirst h

theorem head?_grepO_iff (hkey : key ≠ []) {s run : List Byte} :
    (grepO key cls [] s).head? = some run ↔ FirstRun key cls s run := by
  induction s with
  | nil =>
    refine ⟨fun h => absurd h.symm (Option.some_ne_none run), fun ⟨before, rest, htext, _⟩ => absurd htext.symm ?_⟩
    simp [hkey]
  | cons b s ih =>
    by_cases hmatch : key <+: b :: s
    · have htrue : matchesAt key cls [] (b :: s) = true := by simp [matchesAt, hmatch]
      rw [grepO, grepFrom, if_pos htrue]
      obtain ⟨t, ht⟩ := hmatch
      rw [← ht, List.drop_left, List.head?_cons, Option.some_inj]
      constructor
      · rintro rfl
        refine ⟨[], t.dropWhile cls, by simp, fun h => ?_, fun b hb => List.mem_takeWhile_imp hb, fun b hb => ?_⟩
        · have hlength := h.length_le
          have hpos := List.length_pos_iff.mpr hkey
          simp at hlength
          omega
        · have hhead := List.head?_dropWhile_not cls t
          rw [hb] at hhead
          simpa using hhead
      · rintro ⟨before, rest, htext, hfirst, hrun, hstop⟩
        have hbefore : before = [] := by
          by_contra hne
          refine hfirst (List.IsPrefix.isInfix (List.prefix_of_prefix_length_le ⟨t, rfl⟩ ?_ ?_))
          · rw [htext, ← List.append_assoc]
            exact (List.dropLast_prefix _).trans (List.prefix_append _ _)
          · have hpos := List.length_pos_iff.mpr hne
            simp
            omega
        subst hbefore
        rw [List.append_cancel_left htext]
        exact (run_append hrun hstop).1
    · have hfalse : matchesAt key cls [] (b :: s) = false := by simp [matchesAt, hmatch]
      rw [grepO, grepFrom, if_neg (Bool.eq_false_iff.mp hfalse), firstRun_cons_iff hkey hmatch]
      exact ih

/-- There is one first match at most. -/
theorem FirstRun.unique (hkey : key ≠ []) {s run run' : List Byte} (h : FirstRun key cls s run)
    (h' : FirstRun key cls s run') : run = run' :=
  Option.some_inj.mp (((head?_grepO_iff hkey).mpr h).symm.trans ((head?_grepO_iff hkey).mpr h'))

end Grep

/-- What lines joined by a separator are made of. -/
theorem mem_intercalate {c b : Byte} {runs : List (List Byte)} (h : b ∈ [c].intercalate runs) :
    b = c ∨ ∃ run ∈ runs, b ∈ run := by
  induction runs with
  | nil => cases h
  | cons run runs ih =>
    cases runs with
    | nil =>
      rw [List.intercalate_singleton] at h
      exact .inr ⟨run, List.mem_cons_self, h⟩
    | cons run' runs =>
      rw [List.intercalate_cons_cons, List.mem_append, List.mem_append, List.mem_singleton] at h
      obtain (h | h) | h := h
      · exact .inr ⟨run, List.mem_cons_self, h⟩
      · exact .inl h
      · exact (ih h).imp id fun ⟨r, hr, hb⟩ => ⟨r, List.mem_cons_of_mem run hr, hb⟩

end Thingino.Lib
