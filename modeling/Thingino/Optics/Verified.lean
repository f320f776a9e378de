import Mathlib.Logic.Function.Basic
import Thingino.Lib.Transition
import Thingino.Optics.Executor

/-! Whether the optics are where the executor says they are.

Each command may take effect or not, and the read-backs tell the physical state. A switch that fails may have
moved some of the actuators and leaves the marker alone, so that the marker can name a mode that the optics
have partly left. -/
namespace Thingino.Optics
open Lib

/-- The filter and the lights; `count` numbers the commands. -/
structure Physical where
  ircut : Mode
  lit : Led → Bool
  count : Nat

/-- The commands, with those numbers for which `took` holds taking effect, on a board with the lights
`present`. -/
def Physical.actuators (present : Led → Bool) (took : Nat → Bool) : Actuators Physical where
  ircut on o :=
    { o with
      ircut := if took o.count then if on then .day else .night else o.ircut
      count := o.count + 1 }
  readIrcut o := some (o.ircut = .day)
  light led on o :=
    { o with
      lit := if took o.count && present led then Function.update o.lit led on else o.lit
      count := o.count + 1 }
  readLight led o := if present led then some (o.lit led) else none

/-- A light of a mode, while privacy is not active. -/
def Mode.lights (m : Mode) : Bool := m = .night

/-- `changed` is for the record: since the marker was written, a switch that failed has moved an actuator.
`reports` has, for each request for day or night that exited 0, whether the optics were in that mode. -/
structure Session where
  exec : Executor Physical
  changed : Bool
  reports : List Bool

namespace Session

variable (present : Led → Bool) (took : Nat → Bool) (c : Controls)

/-- A light that is enabled and present is as in the mode. -/
def lightIn (m : Mode) (o : Physical) (led : Led) : Bool :=
  !(c.drivesLight led && present led) || (o.lit led = m.lights : Bool)

/-- The filter and every enabled and present light are as in the mode. -/
def inMode (m : Mode) (o : Physical) : Bool :=
  (o.ircut = m : Bool) && lightIn present c m o .ir850 && lightIn present c m o .ir940

def moved (o o' : Physical) : Bool :=
  o.ircut ≠ o'.ircut || o.lit .ir850 ≠ o'.lit .ir850 || o.lit .ir940 ≠ o'.lit .ir940

/-- The mode of a request for day or night. -/
def requested : Arg → Option Mode
  | .day => some .day
  | .night => some .night
  | _ => none

/-- The marker names the mode already, so that nothing is done. -/
def skips (s : Session) (arg : Arg) : Bool := (target s.exec.applied arg).all fun m => s.exec.applied = some m

def step (s : Session) (arg : Arg) : Option Session :=
  let r := daynight (Physical.actuators present took) c false arg s.exec
  some
    { exec := r.1
      changed := if s.skips arg then s.changed else if r.2 then false else s.changed || moved s.exec.hw r.1.hw
      reports :=
        match requested arg with
        | some m => if r.2 then inMode present c m r.1.hw :: s.reports else s.reports
        | none => s.reports }

/-- After a boot there is no marker, and the optics may be in any state. -/
def start (o : Physical) : Session := ⟨⟨o, none⟩, false, []⟩

/-- The mode that the marker names is requested only while no failed switch has moved an actuator, and the
filter is driven or in the mode anyway. -/
def settled (s : Session) (arg : Arg) : Bool :=
  (requested arg).all fun m =>
    (s.exec.applied ≠ some m || !s.changed) && (c.drivesIrcut || (s.exec.hw.ircut = m : Bool))

end Session

/-- **The property.** At each request for day or night that exited 0, the optics were in that mode. -/
def Truthful (s : Session) : Prop := ∀ r ∈ s.reports, r = true

namespace Session

variable {present : Led → Bool} {took : Nat → Bool} {c : Controls} {m : Mode} {o : Physical} {s s' : Session} {arg : Arg}

/-! ### A switch that succeeds -/

/-- What is driven is as in the mode. -/
structure DrivenIn (present : Led → Bool) (c : Controls) (m : Mode) (o : Physical) : Prop where
  ircut : c.drivesIrcut = true → o.ircut = m
  light : ∀ led, lightIn present c m o led = true

theorem light_ircut (led : Led) (on : Bool) (o : Physical) :
    ((Physical.actuators present took).light led on o).ircut = o.ircut := rfl

/-- A command for one light does not touch another one. -/
theorem light_lit {led other : Led} (hne : other ≠ led) (on : Bool) (o : Physical) :
    ((Physical.actuators present took).light led on o).lit other = o.lit other := by
  show (if took o.count && present led then Function.update o.lit led on else o.lit) other = o.lit other
  split
  · exact Function.update_of_ne hne on o.lit
  · rfl

theorem driveIrcut_ircut {want : Bool} (h : (driveIrcut (Physical.actuators present took) c want o).2 = true)
    (hdrives : c.drivesIrcut = true) :
    (driveIrcut (Physical.actuators present took) c want o).1.ircut = if want then .day else .night := by
  rw [driveIrcut, if_pos hdrives] at h ⊢
  have hread := readIrcut_setIrcutVerified h
  generalize (setIrcutVerified (Physical.actuators present took) want 3 o).1 = o' at hread ⊢
  have hday : (o'.ircut = .day : Bool) = want := Option.some.inj hread
  cases want with
  | true => exact of_decide_eq_true hday
  | false =>
    cases hircut : o'.ircut with
    | day =>
      rw [hircut] at hday
      cases hday
    | night => rfl

theorem driveLight_lightIn {led : Led} (h : (driveLight (Physical.actuators present took) c led m.lights o).2 = true) :
    lightIn present c m (driveLight (Physical.actuators present took) c led m.lights o).1 led = true := by
  cases hdrives : c.drivesLight led with
  | false => rw [lightIn, hdrives, Bool.false_and, Bool.not_false, Bool.true_or]
  | true =>
    cases hpresent : present led with
    | false => rw [lightIn, hpresent, Bool.and_false, Bool.not_false, Bool.true_or]
    | true =>
      rw [driveLight, if_pos hdrives] at h ⊢
      have hread := readLight_setLightVerified h
      generalize (setLightVerified (Physical.actuators present took) led m.lights 3 o).1 = o' at hread ⊢
      have hlit : o'.lit led = m.lights := by
        refine hread (o'.lit led) ?_
        show o'.lit led ∈ if present led then some (o'.lit led) else none
        rw [hpresent]
        rfl
      rw [lightIn, hlit, decide_eq_true rfl, Bool.or_true]

theorem lightIn_congr {led : Led} {o' : Physical} (h : o'.lit led = o.lit led) :
    lightIn present c m o' led = lightIn present c m o led := by
  rw [lightIn, lightIn, h]

/-- **A switch that succeeds** leaves what it drives in the mode. -/
theorem drivenIn_switchTo (h : (switchTo (Physical.actuators present took) c false m o).2 = true) :
    DrivenIn present c m (switchTo (Physical.actuators present took) c false m o).1 := by
  have heq : switchTo (Physical.actuators present took) c false m o =
      drive (Physical.actuators present took) c (m = .day : Bool) m.lights o := by cases m <;> rfl
  rw [heq] at h ⊢
  simp only [drive, Bool.and_eq_true] at h ⊢
  obtain ⟨⟨hfirst, hsecond⟩, hthird⟩ := h
  set first := driveIrcut (Physical.actuators present took) c (m = .day : Bool) o with hfirstEq
  set second := driveLight (Physical.actuators present took) c .ir850 m.lights first.1 with hsecondEq
  set third := driveLight (Physical.actuators present took) c .ir940 m.lights second.1 with hthirdEq
  have hkeepIrcut : third.1.ircut = first.1.ircut := by
    have hsame : second.1.ircut = first.1.ircut :=
      driveLight_keeps (P := fun o' => o'.ircut = first.1.ircut) (fun o' ho' => (light_ircut _ _ o').trans ho') rfl
    exact driveLight_keeps (P := fun o' => o'.ircut = first.1.ircut) (fun o' ho' => (light_ircut _ _ o').trans ho') hsame
  have hkeepLit : third.1.lit .ir850 = second.1.lit .ir850 :=
    driveLight_keeps (P := fun o' => o'.lit .ir850 = second.1.lit .ir850)
      (fun o' ho' => (light_lit (by decide) _ o').trans ho') rfl
  constructor
  · intro hdrives
    have hset := driveIrcut_ircut hfirst hdrives
    rw [hkeepIrcut, hset]
    cases m <;> rfl
  · intro led
    cases led with
    | ir850 =>
      rw [lightIn_congr hkeepLit]
      exact driveLight_lightIn hsecond
    | ir940 => exact driveLight_lightIn hthird

/-! ### The invariant -/

/-- As long as no failed switch has moved an actuator, what is driven is in the mode of the marker. -/
structure Inv (present : Led → Bool) (c : Controls) (s : Session) : Prop where
  marker : ∀ m, s.exec.applied = some m → s.changed = false → DrivenIn present c m s.exec.hw
  truthful : Truthful s

/-- Optics that nobody moved are in the mode they were in. -/
theorem drivenIn_of_not_moved {o' : Physical} (h : DrivenIn present c m o) (hmoved : moved o o' = false) :
    DrivenIn present c m o' := by
  simp only [moved, Bool.or_eq_false_iff, decide_eq_false_iff_not, ne_eq, not_not] at hmoved
  obtain ⟨⟨hircut, hfirst⟩, hsecond⟩ := hmoved
  refine ⟨fun hdrives => hircut ▸ h.ircut hdrives, fun led => ?_⟩
  cases led with
  | ir850 => exact (lightIn_congr hfirst.symm).trans (h.light .ir850)
  | ir940 => exact (lightIn_congr hsecond.symm).trans (h.light .ir940)

/-- A filter that is not driven stays where it is. -/
theorem switchTo_ircut (hdrives : c.drivesIrcut = false) :
    (switchTo (Physical.actuators present took) c false m o).1.ircut = o.ircut := by
  have hdrive : ∀ ircutWant lightWant,
      (drive (Physical.actuators present took) c ircutWant lightWant o).1.ircut = o.ircut := by
    intro ircutWant lightWant
    have hfirst : (driveIrcut (Physical.actuators present took) c ircutWant o).1 = o := by
      rw [driveIrcut, hdrives]
      rfl
    have hsecond : (driveLight (Physical.actuators present took) c .ir850 lightWant o).1.ircut = o.ircut :=
      driveLight_keeps (P := fun o' => o'.ircut = o.ircut) (fun o' ho' => (light_ircut _ _ o').trans ho') rfl
    rw [drive, hfirst]
    exact driveLight_keeps (P := fun o' => o'.ircut = o.ircut) (fun o' ho' => (light_ircut _ _ o').trans ho') hsecond
  cases m with
  | day => exact hdrive true false
  | night => exact hdrive false true

theorem inMode_of_drivenIn (h : DrivenIn present c m o) (hircut : o.ircut = m) : inMode present c m o = true := by
  rw [inMode, hircut, decide_eq_true rfl, h.light .ir850, h.light .ir940]
  rfl

theorem target_of_requested (h : requested arg = some m) (applied : Option Mode) : target applied arg = some m := by
  cases arg <;> cases h <;> rfl

/-- An invocation that does nothing. -/
theorem daynight_of_skips (h : s.skips arg = true) :
    daynight (Physical.actuators present took) c false arg s.exec = (s.exec, true) := by
  rw [skips] at h
  unfold daynight
  cases htarget : target s.exec.applied arg with
  | none => rfl
  | some m =>
    rw [htarget, Option.all_some, decide_eq_true_eq] at h
    exact if_pos h

/-- An invocation that switches: to which mode, and what it leaves. -/
theorem daynight_of_switches (h : s.skips arg = false) :
    ∃ m, target s.exec.applied arg = some m ∧
      daynight (Physical.actuators present took) c false arg s.exec =
        let r := switchTo (Physical.actuators present took) c false m s.exec.hw
        (⟨r.1, if r.2 then some m else s.exec.applied⟩, r.2) := by
  rw [skips] at h
  unfold daynight
  cases htarget : target s.exec.applied arg with
  | none =>
    rw [htarget] at h
    cases h
  | some m =>
    rw [htarget, Option.all_some, decide_eq_false_iff_not] at h
    exact ⟨m, rfl, if_neg h⟩

theorem inv_step (h : Inv present c s) (hsettled : s.settled c arg = true) (hstep : s.step present took c arg = some s') :
    Inv present c s' := by
  have hreport : ∀ m, requested arg = some m → (s.exec.applied = some m → s.changed = false) ∧
      (c.drivesIrcut = true ∨ s.exec.hw.ircut = m) := by
    intro m hm
    rw [settled, hm, Option.all_some] at hsettled
    simp only [Bool.and_eq_true, Bool.or_eq_true, decide_eq_true_eq, Bool.not_eq_true'] at hsettled
    exact ⟨fun happlied => hsettled.1.resolve_left fun hne => hne happlied, hsettled.2⟩
  obtain rfl := Option.some.inj hstep
  cases hskips : s.skips arg with
  | true =>
    rw [daynight_of_skips hskips]
    refine ⟨h.marker, ?_⟩
    cases hm : requested arg with
    | none => exact h.truthful
    | some m =>
      obtain ⟨hchanged, hircut⟩ := hreport m hm
      have happlied : s.exec.applied = some m := by
        rw [skips, target_of_requested hm, Option.all_some, decide_eq_true_eq] at hskips
        exact hskips
      have hdriven := h.marker m happlied (hchanged happlied)
      exact List.forall_mem_cons.mpr ⟨inMode_of_drivenIn hdriven (hircut.elim hdriven.ircut id), h.truthful⟩
  | false =>
    obtain ⟨m, htarget, heq⟩ := @daynight_of_switches present took c _ _ hskips
    rw [heq]
    simp only
    cases hok : (switchTo (Physical.actuators present took) c false m s.exec.hw).2 with
    | true =>
      have hdriven := drivenIn_switchTo hok
      refine ⟨fun m' hm' _ => ?_, ?_⟩
      · obtain rfl := Option.some.inj hm'
        exact hdriven
      · cases hm : requested arg with
        | none => exact h.truthful
        | some m' =>
          obtain rfl := Option.some.inj (htarget.symm.trans (target_of_requested hm s.exec.applied))
          refine List.forall_mem_cons.mpr ⟨inMode_of_drivenIn hdriven ?_, h.truthful⟩
          cases hdrives : c.drivesIrcut with
          | true => exact hdriven.ircut hdrives
          | false =>
            rcases (hreport m hm).2 with hcontra | hsame
            · rw [hdrives] at hcontra
              cases hcontra
            · exact (switchTo_ircut hdrives).trans hsame
    | false =>
      refine ⟨fun m' hm' hchanged => ?_, ?_⟩
      · obtain ⟨hbefore, hmoved⟩ := Bool.or_eq_false_iff.mp hchanged
        exact drivenIn_of_not_moved (h.marker m' hm' hbefore) hmoved
      · cases requested arg <;> exact h.truthful

theorem inv_start (o : Physical) : Inv present c (start o) :=
  ⟨fun m hm => absurd hm (Option.some_ne_none m).symm, fun _ hr => absurd hr List.not_mem_nil⟩

end Session

/-- **The reports are true**, in runs where the mode of the marker is requested only while no failed switch
has moved an actuator. -/
theorem truthful_of_settled {present : Led → Bool} {took : Nat → Bool} {c : Controls} {o : Physical} {s : Session}
    (h : Reach (Session.step present took c) (fun s arg => s.settled c arg = true) (Session.start o) s) : Truthful s := by
  have hinv : Session.Inv present c s :=
    Reach.invariant (Session.inv_start o) (fun _ _ _ hs hok hstep => Session.inv_step hs hok hstep) h
  exact hinv.truthful

/-- Everything is enabled and there. -/
def allControls : Controls := ⟨true, true, true, true, true⟩

/-- Optics by day, with the lights off. -/
def byDay : Physical := ⟨.day, fun _ => false, 0⟩

/-- The first command for the filter has no effect, the retry has. -/
theorem truthful_after_retry :
    ∃ s, Reach (Session.step (fun led => led = .ir850) (fun n => n ≠ 0) allControls)
        (fun s arg => s.settled allControls arg = true) (Session.start byDay) s ∧
      s.reports = [true, true] ∧ s.exec.hw.ircut = .night ∧ Truthful s := by
  have hrun : ∃ s, Reach (Session.step (fun led => led = .ir850) (fun n => n ≠ 0) allControls)
      (fun s arg => s.settled allControls arg = true) (Session.start byDay) s ∧
      (s.reports = [true, true] ∧ s.exec.hw.ircut = .night) :=
    exists_reach [.night, .night] (by decide)
  obtain ⟨s, hs, hreports, hnight⟩ := hrun
  exact ⟨s, hs, hreports, hnight, truthful_of_settled hs⟩

/-- Day has been applied; a switch to night moves the filter and fails at a light; day is requested again and
skipped, with the filter at night. -/
theorem skip_reports_day :
    ∃ s, Reach (Session.step (fun led => led = .ir850) (fun n => n < 4) allControls) (fun _ _ => True)
        (Session.start byDay) s ∧
      s.exec.hw.ircut = .night ∧ s.exec.applied = some .day ∧ s.reports = [false, true] ∧ ¬Truthful s := by
  have hrun : ∃ s, Reach (Session.step (fun led => led = .ir850) (fun n => n < 4) allControls) (fun _ _ => True)
      (Session.start byDay) s ∧
      (s.exec.hw.ircut = .night ∧ s.exec.applied = some .day ∧ s.reports = [false, true]) :=
    exists_reach [.day, .night, .day] (by decide)
  obtain ⟨s, hs, hnight, hday, hreports⟩ := hrun
  refine ⟨s, hs, hnight, hday, hreports, fun h => ?_⟩
  have hreport := h false (by rw [hreports]; exact List.mem_cons_self)
  cases hreport

end Thingino.Optics
