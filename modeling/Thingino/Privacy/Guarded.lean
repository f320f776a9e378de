import Thingino.Privacy.Intent

/-! Armed implies guarded: what the armed marker promises about the state file.

The marker in `/run` says that the lens is parked; the emitter guard reads `active` in the state file.
`on` writes the state before it arms, `off` lifts the state only to disarm behind it, and a state that
could not be written ends the transition. But `set-pose` writes the state without the lock, after a look
at both flags, and `reenter` looks at the state before it has the lock. -/
namespace Thingino.Privacy
open Lib

/-- The camera and the `set-pose` commands on their way: those that have found it unarmed (`looking`)
and those that have found it inactive as well (`posing`). -/
structure Guarded where
  camera : Camera
  looking : Nat
  posing : Nat

/-- A command or a step of the camera; a write that fails, of the state or of the sidecar; `guard`; and
the steps of `set-pose`, the last of which may fail as well. -/
inductive Guarded.Event
  | act (action : Action)
  | writeFails
  | sidecarFails
  | guard
  | setPose
  | look
  | pose (tilt : Tilt) (succeeds : Bool)

namespace Guarded

/-- The state cannot be written: `on` gives up unarmed, `off` keeps both flags. -/
def writeFails (c : Camera) : Option Camera :=
  match c.job with
  | .enter .. | .lift _ => some { c with job := .idle }
  | _ => none

/-- The sidecar cannot be written, and nobody looks. -/
def sidecarFails (c : Camera) : Option Camera :=
  match c.job with
  | .freeze _ => some { c with job := .park }
  | .restore _ => some { c with job := .idle }
  | _ => none

/-- A step of the camera; a power cut ends every command with it. -/
def act (g : Guarded) (action : Action) : Option Guarded :=
  (g.camera.step action).map fun camera =>
    match action with
    | .cut => ⟨camera, 0, 0⟩
    | _ => { g with camera }

def step (g : Guarded) : Event → Option Guarded
  | .act action => g.act action
  | .writeFails => (writeFails g.camera).map fun camera => { g with camera }
  | .sidecarFails => (sidecarFails g.camera).map fun camera => { g with camera }
  | .guard => g.camera.off.map fun camera => { g with camera }
  | .setPose =>
    match g.camera.job with
    | .boot => none
    | _ => some (if g.camera.armed then g else { g with looking := g.looking + 1 })
  | .look =>
    match g.looking with
    | 0 => none
    | looking + 1 => some { g with looking, posing := if g.camera.active then g.posing else g.posing + 1 }
  | .pose tilt succeeds =>
    match g.posing with
    | 0 => none
    | posing + 1 =>
      let state := if succeeds then some (StateFile.writeOff tilt.text) else g.camera.state
      some { g with camera := { g.camera with state }, posing }

/-- After a boot, whatever the files are. -/
def start (state sidecar : Option (List Byte)) : Guarded := ⟨⟨state, sidecar, false, 0, .idle⟩, 0, 0⟩

end Guarded

/-- **The property.** While no transition runs, an armed camera is an active one. -/
def ArmedGuarded (g : Guarded) : Prop := g.camera.job = .idle → g.camera.armed = true → g.camera.active = true

namespace Guarded

/-- A `set-pose` that writes finds privacy off still, and a `reenter` that gets to park the lens finds
it active still. -/
def current (g : Guarded) : Event → Bool
  | .pose _ succeeds => !succeeds || (!g.camera.armed && !g.camera.active)
  | .act .reacquire =>
    match g.camera.job with
    | .idle => g.camera.armed || g.camera.active
    | _ => true
  | _ => true

/-! ### The invariant -/

/-- What the flags are, by what the transition does next. -/
def ArmedAt (c : Camera) : Job → Prop
  | .idle | .boot | .recover _ | .lift _ => c.armed = true → c.active = true
  | .enter .. | .restore _ => c.armed = false
  | .freeze _ | .park | .repark => c.active = true
  | .disarm _ => True

theorem armedAt_advance {c c' : Camera} (h : ArmedAt c c.job) (hstep : c.advance = some c') : ArmedAt c' c'.job := by
  unfold Camera.advance at hstep
  cases hjob : c.job
  all_goals
    rw [hjob] at hstep h
    cases hstep
  case enter poseTilt savedTilt mode live => exact StateFile.active_writeOn poseTilt savedTilt.text mode live
  case freeze live => exact h
  case park => exact fun _ => h
  case recover mode => exact h
  case lift mode => exact trivial
  case disarm mode => exact rfl
  case restore mode => exact fun harmed => absurd (h.symm.trans harmed) Bool.false_ne_true
  case repark => exact fun _ => h

theorem armedAt_on {c c' : Camera} {tilt : Tilt} {night : Bool} (h : ArmedAt c c.job)
    (hstep : c.on tilt night = some c') : ArmedAt c' c'.job := by
  unfold Camera.on at hstep
  split at hstep
  · cases hstep
  · split at hstep
    · cases hstep
      exact h
    · rename_i hoff
      cases hstep
      rw [Bool.or_eq_true, not_or, Bool.not_eq_true] at hoff
      exact hoff.1
  · cases hstep
    exact h

/-- An `off` that finds nothing to lift changes nothing; else both flags are still as they were. -/
theorem armedAt_off {c c' : Camera} (h : ArmedAt c c.job) (hstep : c.off = some c') : ArmedAt c' c'.job := by
  unfold Camera.off at hstep
  split at hstep
  · cases hstep
  · rename_i hjob
    cases hstep
    rw [hjob] at h
    split
    · exact h
    · rw [hjob]
      exact h
  · cases hstep
    exact h

/-- A `reenter` that finds the camera armed knows it active; else it has to be active still. -/
theorem armedAt_reacquire {c c' : Camera} (h : ArmedAt c c.job)
    (hok : c.job = .idle → c.armed = true ∨ c.active = true) (hstep : c.reacquire = some c') : ArmedAt c' c'.job := by
  unfold Camera.reacquire at hstep
  split at hstep
  · cases hstep
  · rename_i hjob
    cases hstep
    rw [hjob] at h
    cases harmed : c.armed with
    | true => exact fun _ => h harmed
    | false => exact (hok hjob).resolve_left (by rw [harmed]; exact Bool.false_ne_true)
  · cases hstep
    exact h

/-- A step of the camera. -/
theorem armedAt_step {c c' : Camera} {a : Action} (h : ArmedAt c c.job)
    (hok : a = .reacquire → c.job = .idle → c.armed = true ∨ c.active = true) (hstep : c.step a = some c') :
    ArmedAt c' c'.job := by
  cases a with
  | on tilt night => exact armedAt_on h hstep
  | off => exact armedAt_off h hstep
  | reenter =>
    simp only [Camera.step] at hstep
    split at hstep
    · cases hstep
    · cases hstep
      exact h
  | reacquire => exact armedAt_reacquire h (hok rfl) hstep
  | advance => exact armedAt_advance h hstep
  | stuck =>
    simp only [Camera.step] at hstep
    split at hstep
    · rename_i hjob
      cases hstep
      rw [hjob] at h
      exact h
    · cases hstep
  | migrate =>
    cases hstep
    dsimp only
    split
    · rename_i hjob
      rw [hjob] at h
      exact h
    · exact h
  | switch mode =>
    rw [Camera.step, Option.ite_none_right_eq_some] at hstep
    obtain ⟨-, hstep⟩ := hstep
    cases hstep
    exact h
  | cut =>
    cases hstep
    exact fun harmed => absurd harmed Bool.false_ne_true

/-- The state is written behind the back of the transition, with privacy off. -/
theorem armedAt_pose {c : Camera} (h : ArmedAt c c.job) (harmed : c.armed = false) (hactive : c.active = false)
    (state : Option (List Byte)) : ArmedAt { c with state } c.job := by
  have hon : c.active ≠ true := fun hon => Bool.noConfusion (hactive.symm.trans hon)
  generalize c.job = job at h
  cases job with
  | idle | boot | recover | lift => exact fun hmark => absurd (harmed.symm.trans hmark) Bool.false_ne_true
  | enter | restore => exact harmed
  | freeze | park | repark => exact absurd h hon
  | disarm => exact trivial

theorem armedAt_fails {c c' : Camera} (h : ArmedAt c c.job) (hstep : writeFails c = some c' ∨ sidecarFails c = some c') :
    ArmedAt c' c'.job := by
  have hunarmed : ∀ {job}, c.armed = false → ArmedAt { c with job } .idle := fun hoff harmed =>
    absurd (hoff.symm.trans harmed) Bool.false_ne_true
  obtain hstep | hstep := hstep
  · unfold writeFails at hstep
    split at hstep
    · rename_i hjob
      cases hstep
      rw [hjob] at h
      exact hunarmed h
    · rename_i hjob
      cases hstep
      rw [hjob] at h
      exact h
    · cases hstep
  · unfold sidecarFails at hstep
    split at hstep
    · rename_i hjob
      cases hstep
      rw [hjob] at h
      exact h
    · rename_i hjob
      cases hstep
      rw [hjob] at h
      exact hunarmed h
    · cases hstep

/-- The invariant of the camera, whoever else is on the way. -/
def Inv (g : Guarded) : Prop := ArmedAt g.camera g.camera.job

theorem inv_start (state sidecar : Option (List Byte)) : (start state sidecar).Inv := fun harmed =>
  absurd harmed Bool.false_ne_true

theorem inv_step {g g' : Guarded} {e : Event} (h : g.Inv) (hok : g.current e = true) (hstep : g.step e = some g') :
    g'.Inv := by
  cases e with
  | act action =>
    obtain ⟨camera, hcamera, rfl⟩ := Option.map_eq_some_iff.mp hstep
    have hnext : ArmedAt camera camera.job := by
      refine armedAt_step h (fun haction hjob => ?_) hcamera
      subst haction
      simpa [current, hjob] using hok
    cases action <;> exact hnext
  | writeFails =>
    obtain ⟨camera, hcamera, rfl⟩ := Option.map_eq_some_iff.mp hstep
    exact armedAt_fails h (.inl hcamera)
  | sidecarFails =>
    obtain ⟨camera, hcamera, rfl⟩ := Option.map_eq_some_iff.mp hstep
    exact armedAt_fails h (.inr hcamera)
  | guard =>
    obtain ⟨camera, hcamera, rfl⟩ := Option.map_eq_some_iff.mp hstep
    exact armedAt_off h hcamera
  | setPose =>
    simp only [step] at hstep
    split at hstep
    · cases hstep
    · cases hstep
      split <;> exact h
  | look =>
    simp only [step] at hstep
    split at hstep
    · cases hstep
    · cases hstep
      exact h
  | pose tilt succeeds =>
    simp only [step] at hstep
    split at hstep
    · cases hstep
    · cases hstep
      cases succeeds with
      | false => exact h
      | true =>
        have hoff : g.camera.armed = false ∧ g.camera.active = false := by simpa [current] using hok
        exact armedAt_pose h hoff.1 hoff.2 _

end Guarded

/-- **Armed implies guarded**, whatever the order of the commands and the failures, in runs where
`set-pose` and `reenter` act on what they have seen while it is still so. -/
theorem armedGuarded_of_current {state sidecar : Option (List Byte)} {g : Guarded}
    (h : Reach Guarded.step (fun g e => g.current e = true) (Guarded.start state sidecar) g) : ArmedGuarded g := by
  have hinv : g.Inv :=
    Reach.invariant (Guarded.inv_start state sidecar) (fun _ _ _ hg hok hstep => Guarded.inv_step hg hok hstep) h
  intro hjob
  rw [Guarded.Inv, hjob] at hinv
  exact hinv

/-- At rest, and the two flags. -/
def restsArmed (active : Bool) (g : Guarded) : Bool :=
  match g.camera.job with
  | .idle => g.camera.armed && g.camera.active == active
  | _ => false

theorem restsArmed_iff {active : Bool} {g : Guarded} :
    restsArmed active g = true ↔ g.camera.job = .idle ∧ g.camera.armed = true ∧ g.camera.active = active := by
  unfold restsArmed
  split
  · rename_i hjob
    simp [hjob]
  · rename_i hjob
    exact ⟨(nomatch ·), fun h => absurd h.1 hjob⟩

/-- A pose is set, and then `on` parks the lens there. -/
theorem armedGuarded_after_pose :
    ∃ g, Reach Guarded.step (fun g e => g.current e = true) (Guarded.start none none) g ∧
      g.camera.job = .idle ∧ g.camera.armed = true ∧ ArmedGuarded g := by
  have hrun : ∃ g, Reach Guarded.step (fun g e => g.current e = true) (Guarded.start none none) g ∧
      restsArmed true g = true :=
    exists_reach [.setPose, .look, .pose homeTilt true, .act (.on homeTilt true), .act .advance, .act .advance,
      .act .advance, .act .reenter, .act .reacquire] (by decide +kernel)
  obtain ⟨g, hg, hrest⟩ := hrun
  obtain ⟨hjob, harmed, -⟩ := restsArmed_iff.mp hrest
  exact ⟨g, hg, hjob, harmed, armedGuarded_of_current hg⟩

def Guarded.Event.isPose : Guarded.Event → Bool
  | .pose .. => true
  | _ => false

/-- A `set-pose` looks, `on` runs to its end, and the `set-pose` writes; or, with no `set-pose` at all, a
`reenter` looks, `off` runs to its end, and the `reenter` parks the lens. -/
theorem armed_unguarded :
    (∃ g, Reach Guarded.step (fun _ _ => True) (Guarded.start none none) g ∧ ¬ArmedGuarded g) ∧
      ∃ g, Reach Guarded.step (fun _ e => e.isPose = false) (Guarded.start none none) g ∧ ¬ArmedGuarded g := by
  have hbad : ∀ {g : Guarded}, restsArmed false g = true → ¬ArmedGuarded g := fun hrest h => by
    obtain ⟨hjob, harmed, hoff⟩ := restsArmed_iff.mp hrest
    exact Bool.noConfusion (hoff.symm.trans (h hjob harmed))
  constructor
  · have hrun : ∃ g, Reach Guarded.step (fun _ _ => True) (Guarded.start none none) g ∧ restsArmed false g = true :=
      exists_reach [.setPose, .look, .act (.on homeTilt true), .act .advance, .act .advance, .act .advance,
        .pose homeTilt true] (by decide +kernel)
    obtain ⟨g, hg, hrest⟩ := hrun
    exact ⟨g, hg, hbad hrest⟩
  · have hrun : ∃ g, Reach Guarded.step (fun _ e => e.isPose = false) (Guarded.start none none) g ∧
        restsArmed false g = true :=
      exists_reach [.act (.on homeTilt true), .act .advance, .act .advance, .act .advance, .act .reenter, .act .off,
        .act .advance, .act .advance, .act .advance, .act .advance, .act .reacquire, .act .advance] (by decide +kernel)
    obtain ⟨g, hg, hrest⟩ := hrun
    exact ⟨g, hg, hbad hrest⟩

end Thingino.Privacy
