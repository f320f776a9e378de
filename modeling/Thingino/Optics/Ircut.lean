import Mathlib.Data.List.Basic
import Mathlib.Logic.Function.Basic
import Thingino.Lib.Numbered
import Thingino.Lib.Transition
import Thingino.Optics.Executor

/-! The command `ircut` for a filter with two pins.

A pulse makes the other pin idle, asserts its own, waits, and makes it idle again; then the mode is written
into a file, from which `ircut read` answers. Nothing keeps two invocations apart, and of the three writes to
the pins only the last one's status is looked at.

The filter itself latches: it moves when one pin becomes asserted while the other one is idle. -/
namespace Thingino.Optics.Ircut
open Lib

inductive Pin
  | one
  | two
deriving DecidableEq

def Pin.other : Pin → Pin
  | .one => .two
  | .two => .one

/-- The pin that is asserted for a mode: close is day, open is night. -/
def pulsed : Mode → Pin
  | .day => .one
  | .night => .two

/-- The position that a pin moves the filter to. -/
def Pin.moves : Pin → Mode
  | .one => .day
  | .two => .night

inductive Arg
  | on
  | off
  | toggle
  | read
deriving DecidableEq

/-- What an invocation does next: look for the mode file, make it, read it (`choose`, for a toggle), the three
writes of a pulse, write the mode; or it is over. -/
inductive Pc
  | test (arg : Arg)
  | init (arg : Arg)
  | choose
  | clear (m : Mode)
  | assert (m : Mode)
  | release (m : Mode)
  | record (m : Mode)
  | done
deriving DecidableEq

/-- The mode of the pulse that is under way, from its first write to a pin until the mode is written. -/
def Pc.pulse : Pc → Option Mode
  | .assert m | .release m | .record m => some m
  | _ => none

/-- `file` is the mode file, with `none` in it for -1; `latch` is the position that the filter was last moved
to, if it was. The invocations are numbered in the order of their start. -/
structure State where
  file : Option (Option Mode)
  level : Pin → Bool
  latch : Option Mode
  pcs : List Pc

/-- `ok` says whether the write to a pin that the step makes, if any, takes effect and succeeds. -/
inductive Event
  | start (arg : Arg)
  | advance (i : Nat) (ok : Bool)

namespace State

/-- What `ircut read` prints. -/
def readMode (s : State) : Option Mode := s.file.getD none

def goto (s : State) (i : Nat) (pc : Pc) : State := { s with pcs := s.pcs.set i pc }

/-- What follows the test for the mode file. -/
def begin : Arg → Pc
  | .on => .clear .day
  | .off => .clear .night
  | .toggle => .choose
  | .read => .done

variable (activeLow : Pin → Bool)

/-- `calc_levels`. -/
def assertLevel (pin : Pin) : Bool := !activeLow pin

def idleLevel (pin : Pin) : Bool := activeLow pin

def asserted (s : State) (pin : Pin) : Bool := s.level pin = assertLevel activeLow pin

/-- The pins alone are written; the filter moves with a pin that becomes asserted while the other is idle. -/
def write (s : State) (pin : Pin) (level : Bool) : State :=
  let s' := { s with level := Function.update s.level pin level }
  { s' with
    latch :=
      if !s.asserted activeLow pin && s'.asserted activeLow pin && !s'.asserted activeLow pin.other then some pin.moves
      else s.latch }

/-- `gpio_set_level`. -/
def gpioSetLevel (s : State) (ok : Bool) (pin : Pin) (level : Bool) : State :=
  if ok then s.write activeLow pin level else s

def advance (s : State) (i : Nat) (ok : Bool) : Option State :=
  match s.pcs[i]? with
  | some (.test arg) => some (if s.file.isSome then s.goto i (begin arg) else s.goto i (.init arg))
  | some (.init arg) => some ({ s with file := some none }.goto i (begin arg))
  | some .choose => some (s.goto i (.clear (if s.readMode = some .night then .day else .night)))
  | some (.clear m) =>
    some ((s.gpioSetLevel activeLow ok (pulsed m).other (idleLevel activeLow (pulsed m).other)).goto i (.assert m))
  | some (.assert m) =>
    some ((s.gpioSetLevel activeLow ok (pulsed m) (assertLevel activeLow (pulsed m))).goto i (.release m))
  | some (.release m) =>
    let s' := s.gpioSetLevel activeLow ok (pulsed m) (idleLevel activeLow (pulsed m))
    some (if ok then s'.goto i (.record m) else s'.goto i .done)
  | some (.record m) => some ({ s with file := some (some m) }.goto i .done)
  | some .done | none => none

def step (s : State) : Event → Option State
  | .start arg => some { s with pcs := s.pcs ++ [.test arg] }
  | .advance i ok => s.advance activeLow i ok

/-- After a boot: no mode file, idle pins, and the filter was never moved. -/
def boot : State := ⟨none, idleLevel activeLow, none, []⟩

/-- No invocation is running. -/
def quiet (s : State) : Bool := s.pcs.all fun pc => pc = .done

/-- The conditions, step by step: a mode file is made only while no mode is recorded; a pulse begins only while
none towards the other mode is under way; a pin is asserted only beside an idle one; a pulse whose last write
succeeds has its filter in its mode, and one whose last write fails leaves a right record, or another pulse. -/
def careful (s : State) : Event → Bool
  | .start _ => true
  | .advance i ok =>
    match s.pcs[i]? with
    | some (.init _) => s.readMode = none
    | some (.clear m) => s.pcs.all fun pc => pc.pulse.all fun n => n = m
    | some (.assert m) => !ok || !s.asserted activeLow (pulsed m).other
    | some (.release m) =>
      if ok then s.latch = some m else s.readMode = s.latch || (s.pcs.eraseIdx i).any fun pc => pc.pulse.isSome
    | _ => true

end State

/-- **The property.** The two pins are not asserted at the same time, and when no invocation is running the
read-back is the position that the filter was last moved to. -/
structure Sound (activeLow : Pin → Bool) (s : State) : Prop where
  apart : ¬(s.asserted activeLow .one = true ∧ s.asserted activeLow .two = true)
  truthful : s.quiet = true → s.readMode = s.latch

namespace State

variable {activeLow : Pin → Bool} {s s' : State} {i : Nat} {pc pc' : Pc} {pin : Pin} {m : Mode} {ok : Bool}

/-! ### The pins -/

@[simp] theorem asserted_goto (s : State) (i : Nat) (pc : Pc) (pin : Pin) :
    (s.goto i pc).asserted activeLow pin = s.asserted activeLow pin := rfl

@[simp] theorem readMode_goto (s : State) (i : Nat) (pc : Pc) : (s.goto i pc).readMode = s.readMode := rfl

@[simp] theorem latch_goto (s : State) (i : Nat) (pc : Pc) : (s.goto i pc).latch = s.latch := rfl

@[simp] theorem readMode_gpioSetLevel (s : State) (ok : Bool) (pin : Pin) (level : Bool) :
    (s.gpioSetLevel activeLow ok pin level).readMode = s.readMode := by
  cases ok <;> rfl

@[simp] theorem pcs_gpioSetLevel (s : State) (ok : Bool) (pin : Pin) (level : Bool) :
    (s.gpioSetLevel activeLow ok pin level).pcs = s.pcs := by
  cases ok <;> rfl

theorem other_ne (pin : Pin) : pin.other ≠ pin := by cases pin <;> decide

/-- A write does not change the other pin. -/
theorem asserted_other (s : State) (ok : Bool) (pin : Pin) (level : Bool) :
    (s.gpioSetLevel activeLow ok pin level).asserted activeLow pin.other = s.asserted activeLow pin.other := by
  cases ok with
  | false => rfl
  | true =>
    show decide (Function.update s.level pin level pin.other = _) = _
    rw [Function.update_of_ne (other_ne pin)]
    rfl

theorem asserted_write_idle (s : State) (pin : Pin) :
    (s.write activeLow pin (idleLevel activeLow pin)).asserted activeLow pin = false := by
  show decide (Function.update s.level pin (idleLevel activeLow pin) pin = assertLevel activeLow pin) = false
  rw [Function.update_self, idleLevel, assertLevel]
  cases activeLow pin <;> rfl

theorem asserted_write_assert (s : State) (pin : Pin) :
    (s.write activeLow pin (assertLevel activeLow pin)).asserted activeLow pin = true := by
  show decide (Function.update s.level pin (assertLevel activeLow pin) pin = assertLevel activeLow pin) = true
  rw [Function.update_self, decide_eq_true rfl]

/-- A pin that becomes idle does not move the filter. -/
theorem latch_write_idle (s : State) (pin : Pin) :
    (s.write activeLow pin (idleLevel activeLow pin)).latch = s.latch := by
  have hidle : ({ s with level := Function.update s.level pin (idleLevel activeLow pin) } : State).asserted activeLow pin =
      false := asserted_write_idle s pin
  show (if _ then _ else _) = _
  rw [hidle, Bool.and_false, Bool.false_and]
  rfl

/-- A pin that becomes asserted beside an idle one does. -/
theorem latch_write_assert (hown : s.asserted activeLow pin = false) (hother : s.asserted activeLow pin.other = false) :
    (s.write activeLow pin (assertLevel activeLow pin)).latch = some pin.moves := by
  have hnow : ({ s with level := Function.update s.level pin (assertLevel activeLow pin) } : State).asserted activeLow pin =
      true := asserted_write_assert s pin
  have hothers : ({ s with level := Function.update s.level pin (assertLevel activeLow pin) } : State).asserted activeLow
      pin.other = false := (asserted_other s true pin _).trans hother
  show (if _ then _ else _) = _
  rw [hown, hnow, hothers]
  rfl

theorem moves_pulsed (m : Mode) : (pulsed m).moves = m := by cases m <;> rfl

/-! ### The invariant -/

/-- A pin that is asserted has moved the filter, and so has a pulse that is about to be recorded. The pulses that
are under way are all towards one mode. The record is right, or a pulse towards the filter's position is under
way. -/
structure Inv (activeLow : Pin → Bool) (s : State) : Prop where
  latched : ∀ pin, s.asserted activeLow pin = true → s.latch = some pin.moves
  agree : ∀ pc ∈ s.pcs, ∀ qc ∈ s.pcs, ∀ m n, pc.pulse = some m → qc.pulse = some n → m = n
  recorded : ∀ m, Pc.record m ∈ s.pcs → s.latch = some m
  kept : s.readMode = s.latch ∨ ∃ pc ∈ s.pcs, ∃ m, pc.pulse = some m ∧ s.latch = some m

/-! ### One step of one invocation -/

variable {old new : Pc}

/-- An invocation goes from one place to another, beside the others. -/
theorem inv_goto {t : State} (hpcs : t.pcs = s.pcs) (h : s.Inv activeLow) (hold : s.pcs[i]? = some old)
    (hlatched : ∀ pin, t.asserted activeLow pin = true → t.latch = some pin.moves)
    (hagree : ∀ m, new.pulse = some m → ∀ pc ∈ s.pcs.eraseIdx i, ∀ n, pc.pulse = some n → m = n)
    (hrecorded : ∀ m, Pc.record m = new ∨ Pc.record m ∈ s.pcs.eraseIdx i → t.latch = some m)
    (hkept : t.readMode = t.latch ∨
      ∃ pc, (pc = new ∨ pc ∈ s.pcs.eraseIdx i) ∧ ∃ m, pc.pulse = some m ∧ t.latch = some m) :
    (t.goto i new).Inv activeLow := by
  have hmem : ∀ pc, pc ∈ (t.goto i new).pcs ↔ pc = new ∨ pc ∈ s.pcs.eraseIdx i := by
    intro pc
    show pc ∈ t.pcs.set i new ↔ _
    rw [hpcs]
    exact Numbered.mem_set_iff hold pc
  have hothers : ∀ pc ∈ s.pcs.eraseIdx i, pc ∈ s.pcs := fun pc hpc => (Numbered.mem_iff hold pc).mpr (.inr hpc)
  refine ⟨hlatched, fun pc hpc qc hqc m n hm hn => ?_, fun m hm => hrecorded m ((hmem _).mp hm), hkept.imp_right ?_⟩
  · rw [hmem] at hpc hqc
    obtain rfl | hother := hpc <;> obtain rfl | hother' := hqc
    · exact Option.some.inj (hm.symm.trans hn)
    · exact hagree m hm qc hother' n hn
    · exact (hagree n hn pc hother m hm).symm
    · exact h.agree pc (hothers pc hother) qc (hothers qc hother') m n hm hn
  · rintro ⟨pc, hpc, hpending⟩
    exact ⟨pc, (hmem pc).mpr hpc, hpending⟩

/-- The others stay in the pulses that they are in. -/
theorem kept_others (h : s.Inv activeLow) (hold : s.pcs[i]? = some old) (hnone : old.pulse = none) :
    s.readMode = s.latch ∨ ∃ pc, (pc = new ∨ pc ∈ s.pcs.eraseIdx i) ∧ ∃ m, pc.pulse = some m ∧ s.latch = some m := by
  refine h.kept.imp_right ?_
  rintro ⟨pc, hpc, m, hm, hlatch⟩
  obtain rfl | hpc := (Numbered.mem_iff hold pc).mp hpc
  · rw [hnone] at hm
    cases hm
  · exact ⟨pc, .inr hpc, m, hm, hlatch⟩

theorem recorded_others (h : s.Inv activeLow) (hold : s.pcs[i]? = some old) :
    ∀ m, Pc.record m ∈ s.pcs.eraseIdx i → s.latch = some m :=
  fun m hm => h.recorded m ((Numbered.mem_iff hold _).mpr (.inr hm))

/-- Between its pulses an invocation changes nothing. -/
theorem inv_walk (h : s.Inv activeLow) (hold : s.pcs[i]? = some old) (hnone : old.pulse = none)
    (hnew : new.pulse = none) :
    (s.goto i new).Inv activeLow := by
  refine inv_goto rfl h hold h.latched (fun m hm => ?_) (fun m hm => ?_) (kept_others h hold hnone)
  · rw [hnew] at hm
    cases hm
  · obtain rfl | hm := hm
    · cases hnew
    · exact recorded_others h hold m hm

/-- A pin that is made idle, or not, is asserted after that only if it was before. -/
theorem asserted_of_idle {pin pin' : Pin} (h : (s.gpioSetLevel activeLow ok pin (idleLevel activeLow pin)).asserted
    activeLow pin' = true) : s.asserted activeLow pin' = true := by
  cases ok with
  | false => exact h
  | true =>
    by_cases hpin : pin' = pin
    · subst hpin
      have hidle : (s.write activeLow pin' (idleLevel activeLow pin')).asserted activeLow pin' = false :=
        asserted_write_idle s pin'
      rw [gpioSetLevel, if_pos rfl, hidle] at h
      cases h
    · have hother : pin' = pin.other := by cases pin <;> cases pin' <;> first | rfl | exact absurd rfl hpin
      rw [hother, asserted_other] at h
      rwa [hother]

theorem latch_idle (s : State) (ok : Bool) (pin : Pin) :
    (s.gpioSetLevel activeLow ok pin (idleLevel activeLow pin)).latch = s.latch := by
  cases ok
  · rfl
  · exact latch_write_idle s pin

/-- The pulse begins: the other pin is made idle. -/
theorem inv_clear (h : s.Inv activeLow) (hold : s.pcs[i]? = some (.clear m))
    (hcareful : s.careful activeLow (.advance i ok) = true) :
    ((s.gpioSetLevel activeLow ok (pulsed m).other (idleLevel activeLow (pulsed m).other)).goto i (.assert m)).Inv
      activeLow := by
  simp only [careful, hold, List.all_eq_true, Option.all_eq_true, decide_eq_true_eq] at hcareful
  refine inv_goto (pcs_gpioSetLevel ..) h hold (fun pin hpin => ?_) (fun n hn pc hpc k hk => ?_) (fun n hn => ?_) ?_
  · rw [latch_idle]
    exact h.latched pin (asserted_of_idle hpin)
  · cases hn
    exact (hcareful pc ((Numbered.mem_iff hold pc).mpr (.inr hpc)) k hk).symm
  · rw [latch_idle]
    obtain hn | hn := hn
    · cases hn
    · exact recorded_others h hold n hn
  · rw [latch_idle, readMode_gpioSetLevel]
    exact kept_others h hold rfl

/-- A pin that is asserted beside an idle one leaves the filter in its position, whether it was asserted before or
not. -/
theorem latch_assert (h : s.Inv activeLow) (hother : s.asserted activeLow pin.other = false) :
    (s.write activeLow pin (assertLevel activeLow pin)).latch = some pin.moves := by
  cases hown : s.asserted activeLow pin with
  | false => exact latch_write_assert hown hother
  | true =>
    show (if _ then _ else _) = _
    rw [hown, Bool.not_true, Bool.false_and, Bool.false_and]
    exact h.latched pin hown

/-- The others in a pulse are in one towards the same mode. -/
theorem agree_others (h : s.Inv activeLow) (hold : s.pcs[i]? = some old) (hpulse : old.pulse = some m) :
    ∀ pc ∈ s.pcs.eraseIdx i, ∀ n, pc.pulse = some n → m = n :=
  fun pc hpc n hn =>
    h.agree old ((Numbered.mem_iff hold old).mpr (.inl rfl)) pc ((Numbered.mem_iff hold pc).mpr (.inr hpc)) m n hpulse hn

/-- What a pulse is about to be recorded for is the mode of the other pulses. -/
theorem eq_of_record (h : s.Inv activeLow) (hold : s.pcs[i]? = some old) (hpulse : old.pulse = some m) {n : Mode}
    (hn : Pc.record n ∈ s.pcs.eraseIdx i) : m = n :=
  agree_others h hold hpulse _ hn n rfl

/-- A step within a pulse keeps the pulse under way. -/
theorem kept_pulse (h : s.Inv activeLow) (hold : s.pcs[i]? = some old) (hpulse : old.pulse = some m)
    (hnew : new.pulse = some m) :
    s.readMode = s.latch ∨ ∃ pc, (pc = new ∨ pc ∈ s.pcs.eraseIdx i) ∧ ∃ m, pc.pulse = some m ∧ s.latch = some m := by
  refine h.kept.imp_right ?_
  rintro ⟨pc, hpc, n, hn, hlatch⟩
  obtain rfl | hpc := (Numbered.mem_iff hold pc).mp hpc
  · rw [hpulse, Option.some.injEq] at hn
    subst hn
    exact ⟨new, .inl rfl, m, hnew, hlatch⟩
  · exact ⟨pc, .inr hpc, n, hn, hlatch⟩

/-- The pulse's own pin is asserted. -/
theorem inv_assert (h : s.Inv activeLow) (hold : s.pcs[i]? = some (.assert m))
    (hcareful : s.careful activeLow (.advance i ok) = true) :
    ((s.gpioSetLevel activeLow ok (pulsed m) (assertLevel activeLow (pulsed m))).goto i (.release m)).Inv activeLow := by
  have hagree : ∀ n, (Pc.release m).pulse = some n → ∀ pc ∈ s.pcs.eraseIdx i, ∀ k, pc.pulse = some k → n = k := by
    intro n hn
    cases hn
    exact agree_others h hold rfl
  cases ok with
  | false =>
    refine inv_goto rfl h hold h.latched hagree (fun n hn => ?_) (kept_pulse h hold rfl rfl)
    obtain hn | hn := hn
    · cases hn
    · exact recorded_others h hold n hn
  | true =>
    simp only [careful, hold, Bool.not_true, Bool.false_or, Bool.not_eq_true'] at hcareful
    have hlatch := latch_assert h hcareful
    rw [moves_pulsed] at hlatch
    refine inv_goto (pcs_gpioSetLevel ..) h hold (fun pin hpin => ?_) hagree (fun n hn => ?_) ?_
    · by_cases hown : pin = pulsed m
      · subst hown
        rw [moves_pulsed]
        exact hlatch
      · have hother : pin = (pulsed m).other := by
          cases m <;> cases pin <;> first | rfl | exact absurd rfl hown
        rw [hother, asserted_other, hcareful] at hpin
        cases hpin
    · obtain hn | hn := hn
      · cases hn
      · rw [← eq_of_record h hold rfl hn]
        exact hlatch
    · exact .inr ⟨.release m, .inl rfl, m, rfl, hlatch⟩

/-- The pin is made idle again, and the pulse is recorded; or that fails, and the invocation is over. -/
theorem inv_release (h : s.Inv activeLow) (hold : s.pcs[i]? = some (.release m))
    (hcareful : s.careful activeLow (.advance i ok) = true) :
    ((s.gpioSetLevel activeLow ok (pulsed m) (idleLevel activeLow (pulsed m))).goto i
      (if ok then .record m else .done)).Inv activeLow := by
  simp only [careful, hold] at hcareful
  cases ok with
  | false =>
    simp only [Bool.false_eq_true, if_false, Bool.or_eq_true, decide_eq_true_eq, List.any_eq_true] at hcareful
    refine inv_goto rfl h hold h.latched (fun n hn => by cases hn) (fun n hn => ?_) ?_
    · obtain hn | hn := hn
      · cases hn
      · exact recorded_others h hold n hn
    · obtain hright | ⟨pc, hpc, hpulse⟩ := hcareful
      · exact .inl hright
      · obtain ⟨n, hn⟩ := Option.isSome_iff_exists.mp hpulse
        -- the other pulse is towards this one's mode, which the filter is in if the record is wrong
        have hmn : m = n := agree_others h hold rfl pc hpc n hn
        have hkept : s.readMode = s.latch ∨
            ∃ qc, (qc = .release m ∨ qc ∈ s.pcs.eraseIdx i) ∧ ∃ k, qc.pulse = some k ∧ s.latch = some k :=
          kept_pulse h hold rfl rfl
        refine hkept.imp_right ?_
        rintro ⟨qc, hqc, k, hk, hlatch⟩
        have hmk : m = k := by
          obtain rfl | hqc := hqc
          · exact Option.some.inj hk
          · exact agree_others h hold rfl qc hqc k hk
        exact ⟨pc, .inr hpc, n, hn, hlatch.trans (by rw [← hmk, hmn])⟩
  | true =>
    simp only [if_true, decide_eq_true_eq] at hcareful
    refine inv_goto (pcs_gpioSetLevel ..) h hold (fun pin hpin => ?_) (fun n hn => ?_) (fun n hn => ?_) ?_
    · rw [latch_idle]
      exact h.latched pin (asserted_of_idle hpin)
    · cases hn
      exact agree_others h hold rfl
    · rw [latch_idle]
      obtain hn | hn := hn
      · cases hn
        exact hcareful
      · exact recorded_others h hold n hn
    · rw [latch_idle]
      exact .inr ⟨.record m, .inl rfl, m, rfl, hcareful⟩

theorem inv_record (h : s.Inv activeLow) (hold : s.pcs[i]? = some (.record m)) :
    ({ s with file := some (some m) }.goto i .done).Inv activeLow := by
  have hlatch : s.latch = some m := h.recorded m ((Numbered.mem_iff hold _).mpr (.inl rfl))
  refine inv_goto (s := s) rfl h hold h.latched (fun n hn => by cases hn) (fun n hn => ?_) (.inl hlatch.symm)
  obtain hn | hn := hn
  · cases hn
  · exact recorded_others h hold n hn

theorem inv_init {arg : Arg} (h : s.Inv activeLow) (hold : s.pcs[i]? = some (.init arg))
    (hcareful : s.careful activeLow (.advance i ok) = true) :
    ({ s with file := some none }.goto i (begin arg)).Inv activeLow := by
  simp only [careful, hold, decide_eq_true_eq] at hcareful
  have hwalk : (s.goto i (begin arg)).Inv activeLow := inv_walk h hold rfl (by cases arg <;> rfl)
  refine ⟨hwalk.latched, hwalk.agree, hwalk.recorded, ?_⟩
  have hkept := hwalk.kept
  rwa [readMode_goto, hcareful] at hkept

theorem inv_advance (h : s.Inv activeLow) (hcareful : s.careful activeLow (.advance i ok) = true)
    (hstep : s.advance activeLow i ok = some s') : s'.Inv activeLow := by
  unfold advance at hstep
  split at hstep
  case h_1 arg hold =>
    cases hstep
    split
    · exact inv_walk h hold rfl (by cases arg <;> rfl)
    · exact inv_walk h hold rfl rfl
  case h_2 arg hold =>
    cases hstep
    exact inv_init h hold hcareful
  case h_3 hold =>
    cases hstep
    exact inv_walk h hold rfl rfl
  case h_4 m hold =>
    cases hstep
    exact inv_clear h hold hcareful
  case h_5 m hold =>
    cases hstep
    exact inv_assert h hold hcareful
  case h_6 m hold =>
    have hrelease := inv_release h hold hcareful
    cases ok <;> cases hstep <;> exact hrelease
  case h_7 m hold =>
    cases hstep
    exact inv_record h hold
  case h_8 | h_9 => cases hstep

theorem inv_step {e : Event} (h : s.Inv activeLow) (hcareful : s.careful activeLow e = true)
    (hstep : s.step activeLow e = some s') : s'.Inv activeLow := by
  cases e with
  | advance i ok => exact inv_advance h hcareful hstep
  | start arg =>
    cases hstep
    have hpulse : ∀ pc ∈ s.pcs ++ [Pc.test arg], ∀ m, pc.pulse = some m → pc ∈ s.pcs := by
      intro pc hpc m hm
      obtain hpc | hpc := List.mem_append.mp hpc
      · exact hpc
      · rw [List.mem_singleton.mp hpc] at hm
        cases hm
    refine ⟨h.latched, fun pc hpc qc hqc m n hm hn => ?_, fun m hm => h.recorded m (hpulse _ hm m rfl), h.kept.imp_right ?_⟩
    · exact h.agree pc (hpulse pc hpc m hm) qc (hpulse qc hqc n hn) m n hm hn
    · rintro ⟨pc, hpc, hpending⟩
      exact ⟨pc, List.mem_append_left _ hpc, hpending⟩

theorem inv_boot (activeLow : Pin → Bool) : (boot activeLow).Inv activeLow := by
  refine ⟨fun pin hpin => ?_, fun pc hpc => absurd hpc List.not_mem_nil, fun m hm => absurd hm List.not_mem_nil, .inl rfl⟩
  have hidle : decide (idleLevel activeLow pin = assertLevel activeLow pin) = false := by
    rw [idleLevel, assertLevel]
    cases activeLow pin <;> rfl
  exact absurd (hidle.symm.trans hpin) Bool.false_ne_true

end State

/-- A write that asserts a pin fails, and the mode is recorded all the same. -/
theorem lost_pulse_recorded :
    ∃ s, Reach (State.step fun _ => false) (fun _ _ => True) (State.boot fun _ => false) s ∧
      s.latch = none ∧ s.readMode = some .day ∧ ¬Sound (fun _ => false) s := by
  have hrun : ∃ s, Reach (State.step fun _ => false) (fun _ _ => True) (State.boot fun _ => false) s ∧
      (s.quiet = true ∧ s.latch = none ∧ s.readMode = some .day) :=
    exists_reach [.start .on, .advance 0 true, .advance 0 true, .advance 0 true, .advance 0 false, .advance 0 true,
      .advance 0 true] (by decide)
  obtain ⟨s, hs, hquiet, hlatch, hread⟩ := hrun
  refine ⟨s, hs, hlatch, hread, fun h => ?_⟩
  have htruthful := h.truthful hquiet
  rw [hlatch, hread] at htruthful
  cases htruthful

end Thingino.Optics.Ircut
