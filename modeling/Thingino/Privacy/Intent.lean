import Thingino.Lib.Transition
import Thingino.Privacy.StateFile

/-! The day/night intent across privacy and power cuts.

Two files must move together and there is no transaction: `on` saves the intent in the state
file and then freezes the sidecar on the mode that is showing, `off` lifts the state and then
puts the saved intent back into the sidecar. Each write is a rename and happens as a whole; the
power may fail before or behind any of them, and then `/run` with the armed marker and the lock
is gone, and every process with it.

The camera runs at most one transition at a time; what finds the lock busy is dropped. A
`reenter` looks at the state before it tries the lock, so it may come with old news (`passed`
counts those on their way). While privacy is active others may switch the mode; `off` is to
restore the intent all the same. -/
namespace Thingino.Privacy
open Lib

/-- The tilt `on` saves: what `get_tilt` reads, or else the home position. -/
structure Tilt where
  text : List Byte
  nonempty : text ≠ []
  digits : ∀ b ∈ text, isTilt b = true

theorem Tilt.quote_notMem (tilt : Tilt) : 34 ∉ tilt.text := fun h => absurd (tilt.digits 34 h) (by decide)

/-- What the running transition does next: `on` writes the state, freezes the mode and parks the
lens; `off` waits for the lens, lifts the state, disarms and restores the mode; `reenter`
parks the lens. After a power cut comes the boot. -/
inductive Job
  | idle
  | boot
  | enter (poseTilt : List Byte) (savedTilt : Tilt) (mode live : Mode)
  | freeze (live : Mode)
  | park
  | recover (mode : List Byte)
  | lift (mode : List Byte)
  | disarm (mode : List Byte)
  | restore (mode : List Byte)
  | repark

structure Camera where
  state : Option (List Byte)
  sidecar : Option (List Byte)
  armed : Bool
  passed : Nat
  job : Job

inductive Action
  | on (tilt : Tilt) (night : Bool)
  | off
  | reenter
  | reacquire
  | advance
  | stuck
  | migrate
  | switch (mode : Mode)
  | cut

namespace Camera

def active (c : Camera) : Bool := StateFile.active c.state

/-- The mode that is showing: a forced one shows itself, for `auto` the engine tells. -/
def live (mode : Mode) (night : Bool) : Mode :=
  match mode with
  | .day | .night => mode
  | .auto => if night then .night else .day

/-- `do_on` up to its first write. -/
def on (c : Camera) (tilt : Tilt) (night : Bool) : Option Camera :=
  match c.job with
  | .boot => none
  | .idle =>
    if c.armed || c.active then some c
    else
      let mode := Sidecar.get c.sidecar
      some { c with job := .enter (StateFile.stPoseTilt c.state) tilt mode (live mode night) }
  | _ => some c

/-- `do_off` up to its waiter. -/
def off (c : Camera) : Option Camera :=
  match c.job with
  | .boot => none
  | .idle => some (if c.armed || c.active then { c with job := .recover (StateFile.stSavedMode c.state) } else c)
  | _ => some c

/-- `do_reenter` from `acquire_lock` on. -/
def reacquire (c : Camera) : Option Camera :=
  match c.passed, c.job with
  | 0, _ => none
  | passed + 1, .idle => some { c with passed, job := if c.armed then .idle else .repark }
  | passed + 1, _ => some { c with passed }

/-- The next step of the transition. -/
def advance (c : Camera) : Option Camera :=
  match c.job with
  | .idle | .boot => none
  | .enter poseTilt savedTilt mode live =>
    some { c with state := some (StateFile.writeOn poseTilt savedTilt.text mode live), job := .freeze live }
  | .freeze live => some { c with sidecar := Sidecar.setMode live c.sidecar, job := .park }
  | .park | .repark => some { c with armed := true, job := .idle }
  | .recover mode => some { c with job := .lift mode }
  | .lift mode =>
    some { c with state := some (StateFile.writeOff (StateFile.stPoseTilt c.state)), job := .disarm mode }
  | .disarm mode => some { c with armed := false, job := .restore mode }
  | .restore mode =>
    some { c with
      sidecar := match Mode.ofWord mode with
        | some mode => Sidecar.setMode mode c.sidecar
        | none => c.sidecar
      job := .idle }

def step (c : Camera) : Action → Option Camera
  | .on tilt night => c.on tilt night
  | .off => c.off
  | .reenter =>
    match c.job with
    | .boot => none
    | _ => some { c with passed := if c.active then c.passed + 1 else c.passed }
  | .reacquire => c.reacquire
  | .advance => c.advance
  | .stuck =>
    match c.job with
    | .recover _ => some { c with job := .idle }
    | _ => none
  | .migrate =>
    some { c with
      sidecar := Sidecar.migrate c.sidecar
      job := match c.job with
        | .boot => .idle
        | job => job }
  | .switch mode => if c.active then some { c with sidecar := Sidecar.setMode mode c.sidecar } else none
  | .cut => some { c with armed := false, passed := 0, job := .boot }

/-- Privacy is off: there is no state file yet, or one that `write_off` left. -/
def start (pose : Option Tilt) (sidecar : Option (List Byte)) : Camera :=
  ⟨pose.map fun tilt => StateFile.writeOff tilt.text, sidecar, false, 0, .idle⟩

end Camera

/-- **The property.** At rest, with privacy off, the sidecar holds the intent. -/
def Intact (m : Mode) (c : Camera) : Prop :=
  c.job = .idle → c.active = false → c.armed = false → Sidecar.parse c.sidecar = some m

namespace Camera

/-- The power does not fail between the lifting of the state and the restoring of the mode,
unless the sidecar has the saved mode already. -/
def graceful (c : Camera) : Action → Bool
  | .cut =>
    match c.job with
    | .disarm mode | .restore mode => (Mode.ofWord mode).all fun m => Sidecar.parse c.sidecar = some m
    | _ => true
  | _ => true

/-! ### The invariant -/

/-- Where the intent is, by what the transition does next. -/
def KeptAt (m : Mode) (c : Camera) : Job → Prop
  | .idle | .boot | .repark => c.active = false → Sidecar.parse c.sidecar = some m
  | .enter poseTilt _ mode _ => 34 ∉ poseTilt ∧ mode = m ∧ c.active = false ∧ Sidecar.parse c.sidecar = some m
  | .freeze _ | .park => c.active = true
  | .recover mode | .lift mode =>
    (c.active = true ∧ mode = m.word) ∨ (c.active = false ∧ mode = [] ∧ Sidecar.parse c.sidecar = some m)
  | .disarm mode | .restore mode =>
    c.active = false ∧ (mode = m.word ∨ (mode = [] ∧ Sidecar.parse c.sidecar = some m))

structure Kept (m : Mode) (c : Camera) : Prop where
  saved : c.active = true → StateFile.stSavedMode c.state = m.word
  unsaved : c.active = false → StateFile.stSavedMode c.state = []
  kept : KeptAt m c c.job

/-- The state that `write_off` leaves. -/
theorem off_writeOff {poseTilt : List Byte} (h : 34 ∉ poseTilt) :
    StateFile.active (some (StateFile.writeOff poseTilt)) = false ∧
      StateFile.stSavedMode (some (StateFile.writeOff poseTilt)) = [] :=
  ⟨StateFile.active_writeOff poseTilt, StateFile.stSavedMode_writeOff h⟩

theorem kept_start {m : Mode} {sidecar : Option (List Byte)} (pose : Option Tilt)
    (hm : Sidecar.parse sidecar = some m) : Kept m (start pose sidecar) := by
  have hoff : (start pose sidecar).active = false ∧ StateFile.stSavedMode (start pose sidecar).state = [] := by
    cases pose with
    | none => exact ⟨rfl, rfl⟩
    | some tilt => exact off_writeOff tilt.quote_notMem
  exact ⟨fun hon => Bool.noConfusion (hoff.1.symm.trans hon), fun _ => hoff.2, fun _ => hm⟩

/-- A step that leaves the two files alone. -/
theorem Kept.of_files {m : Mode} {c : Camera} (h : Kept m c) {armed : Bool} {passed : Nat} {job : Job}
    (hjob : KeptAt m { c with armed, passed, job } job) : Kept m { c with armed, passed, job } :=
  ⟨h.saved, h.unsaved, hjob⟩

/-- The intent at rest does not depend on the markers in `/run`. -/
theorem kept_idle {m : Mode} {c : Camera} (h : Kept m c) (hjob : c.job = .idle) :
    c.active = false → Sidecar.parse c.sidecar = some m := by
  have hkept := h.kept
  rw [hjob] at hkept
  exact hkept

theorem kept_on {m : Mode} {c c' : Camera} {tilt : Tilt} {night : Bool} (h : Kept m c)
    (hstep : c.on tilt night = some c') : Kept m c' := by
  unfold on at hstep
  split at hstep
  · cases hstep
  · rename_i hjob
    split at hstep
    · cases hstep
      exact h
    · rename_i hoff
      cases hstep
      rw [Bool.or_eq_true, not_or, Bool.not_eq_true, Bool.not_eq_true] at hoff
      have hparse := kept_idle h hjob hoff.2
      exact h.of_files ⟨StateFile.quote_notMem_stPoseTilt c.state, Sidecar.get_of_parse hparse, hoff.2, hparse⟩
  · cases hstep
    exact h

theorem kept_off {m : Mode} {c c' : Camera} (h : Kept m c) (hstep : c.off = some c') : Kept m c' := by
  unfold off at hstep
  split at hstep
  · cases hstep
  · rename_i hjob
    cases hstep
    have hidle := kept_idle h hjob
    split
    · refine h.of_files ?_
      cases hactive : c.active with
      | true => exact .inl ⟨hactive, h.saved hactive⟩
      | false => exact .inr ⟨hactive, h.unsaved hactive, hidle hactive⟩
    · exact h
  · cases hstep
    exact h

theorem kept_reacquire {m : Mode} {c c' : Camera} (h : Kept m c) (hstep : c.reacquire = some c') : Kept m c' := by
  unfold reacquire at hstep
  split at hstep
  · cases hstep
  · rename_i hjob
    cases hstep
    have hidle := kept_idle h hjob
    refine h.of_files ?_
    split <;> exact hidle
  · cases hstep
    exact h.of_files h.kept

theorem kept_advance {m : Mode} {c c' : Camera} (h : Kept m c) (hstep : c.advance = some c') : Kept m c' := by
  have hkept := h.kept
  unfold advance at hstep
  cases hjob : c.job
  all_goals
    rw [hjob] at hstep hkept
    cases hstep
  case enter poseTilt savedTilt mode live =>
    obtain ⟨hpose, rfl, -, -⟩ := hkept
    have hactive := StateFile.active_writeOn poseTilt savedTilt.text mode live
    refine ⟨fun _ => ?_, fun hoff => ?_, hactive⟩
    · exact StateFile.stSavedMode_writeOn hpose savedTilt.quote_notMem mode live
    · exact Bool.noConfusion (hactive.symm.trans hoff)
  case freeze live => exact ⟨h.saved, h.unsaved, hkept⟩
  case park => exact h.of_files fun hoff => Bool.noConfusion (hkept.symm.trans hoff)
  case repark => exact h.of_files hkept
  case recover mode => exact h.of_files hkept
  case lift mode =>
    obtain ⟨hactive, hsaved⟩ := off_writeOff (StateFile.quote_notMem_stPoseTilt c.state)
    refine ⟨fun hon => ?_, fun _ => hsaved, hactive, ?_⟩
    · exact Bool.noConfusion (hactive.symm.trans hon)
    · exact hkept.imp And.right And.right
  case disarm mode => exact h.of_files hkept
  case restore mode =>
    refine ⟨h.saved, h.unsaved, fun _ => ?_⟩
    obtain ⟨-, rfl | ⟨rfl, hparse⟩⟩ := hkept
    · rw [Mode.ofWord_word]
      exact Sidecar.parse_setMode m c.sidecar
    · exact hparse

/-- Others switch the mode of an active camera. -/
theorem keptAt_switch {m : Mode} {c : Camera} {sidecar : Option (List Byte)} (hactive : c.active = true)
    (h : KeptAt m c c.job) : KeptAt m { c with sidecar } c.job := by
  have hoff : c.active ≠ false := fun hoff => Bool.noConfusion (hactive.symm.trans hoff)
  generalize c.job = job at h
  cases job with
  | idle | boot | repark => exact fun hf => absurd hf hoff
  | enter => exact absurd h.2.2.1 hoff
  | freeze | park => exact h
  | recover | lift => exact h.imp id fun hf => absurd hf.1 hoff
  | disarm | restore => exact absurd h.1 hoff

/-- The boot finds a valid sidecar, or one that does not matter. -/
theorem keptAt_migrate {m : Mode} {c : Camera} (h : KeptAt m c c.job) :
    KeptAt m { c with sidecar := Sidecar.migrate c.sidecar } c.job := by
  have hsame : ∀ {mode}, Sidecar.parse c.sidecar = some mode → Sidecar.parse (Sidecar.migrate c.sidecar) = some mode := by
    intro mode hparse
    rw [Sidecar.migrate_of_parse hparse]
    exact hparse
  generalize c.job = job at h
  cases job with
  | idle | boot | repark => exact fun hoff => hsame (h hoff)
  | enter => exact ⟨h.1, h.2.1, h.2.2.1, hsame h.2.2.2⟩
  | freeze | park => exact h
  | recover | lift => exact h.imp id fun hf => ⟨hf.1, hf.2.1, hsame hf.2.2⟩
  | disarm | restore => exact ⟨h.1, h.2.imp id fun hf => ⟨hf.1, hsame hf.2⟩⟩

/-- With the power gone, the files alone must tell the intent. -/
theorem kept_cut {m : Mode} {c : Camera} (h : Kept m c) (hok : c.graceful .cut = true) (hoff : c.active = false) :
    Sidecar.parse c.sidecar = some m := by
  have hon : c.active ≠ true := fun hon => Bool.noConfusion (hoff.symm.trans hon)
  have hkept := h.kept
  cases hjob : c.job with
  | idle | boot | repark =>
    rw [hjob] at hkept
    exact hkept hoff
  | enter =>
    rw [hjob] at hkept
    exact hkept.2.2.2
  | freeze | park =>
    rw [hjob] at hkept
    exact absurd hkept hon
  | recover | lift =>
    rw [hjob] at hkept
    exact hkept.elim (fun h => absurd h.1 hon) fun h => h.2.2
  | disarm | restore =>
    rw [hjob] at hkept
    obtain ⟨-, rfl | ⟨-, hparse⟩⟩ := hkept
    · rw [graceful, hjob] at hok
      simpa using hok
    · exact hparse

theorem kept_step {m : Mode} {c c' : Camera} {e : Action} (h : Kept m c) (hok : c.graceful e = true)
    (hstep : c.step e = some c') : Kept m c' := by
  cases e with
  | on tilt night => exact kept_on h hstep
  | off => exact kept_off h hstep
  | reenter =>
    simp only [step] at hstep
    split at hstep
    · cases hstep
    · cases hstep
      exact h.of_files h.kept
  | reacquire => exact kept_reacquire h hstep
  | advance => exact kept_advance h hstep
  | stuck =>
    simp only [step] at hstep
    split at hstep
    · rename_i mode hjob
      cases hstep
      have hkept := h.kept
      rw [hjob] at hkept
      exact h.of_files fun hoff => hkept.elim (fun h => Bool.noConfusion (hoff.symm.trans h.1)) fun h => h.2.2
    · cases hstep
  | migrate =>
    cases hstep
    have hkept := keptAt_migrate h.kept
    refine ⟨h.saved, h.unsaved, ?_⟩
    split
    · rename_i hjob
      rw [hjob] at hkept
      exact hkept
    · exact hkept
  | switch mode =>
    rw [step, Option.ite_none_right_eq_some] at hstep
    obtain ⟨hactive, hstep⟩ := hstep
    cases hstep
    exact ⟨h.saved, h.unsaved, keptAt_switch hactive h.kept⟩
  | cut =>
    cases hstep
    have hcut := kept_cut h hok
    exact h.of_files hcut

end Camera

/-- **The intent survives**, whatever the order of `on`, `off`, `reenter` and power cuts, if no
cut falls into the gap of an `off`. -/
theorem intact_of_graceful {m : Mode} {pose : Option Tilt} {sidecar : Option (List Byte)} {c : Camera}
    (hm : Sidecar.parse sidecar = some m)
    (h : Reach Camera.step (fun c e => c.graceful e = true) (Camera.start pose sidecar) c) : Intact m c := by
  have hkept : c.Kept m :=
    Reach.invariant (Camera.kept_start pose hm) (fun _ _ _ hc hok hstep => Camera.kept_step hc hok hstep) h
  exact fun hjob hoff _ => Camera.kept_idle hkept hjob hoff

/-- At rest, privacy off, and the mode that the sidecar has then. -/
def restsWith (m : Mode) (c : Camera) : Bool :=
  match c.job with
  | .idle => !c.active && !c.armed && Sidecar.parse c.sidecar = some m
  | _ => false

theorem restsWith_iff {m : Mode} {c : Camera} :
    restsWith m c = true ↔ c.job = .idle ∧ c.active = false ∧ c.armed = false ∧ Sidecar.parse c.sidecar = some m := by
  unfold restsWith
  split
  · rename_i hjob
    simp [hjob, and_assoc]
  · rename_i hjob
    exact ⟨(nomatch ·), fun h => absurd h.1 hjob⟩

/-- The tilt of the witnesses. -/
def homeTilt : Tilt := ⟨ascii "1152", by decide, by decide⟩

/-- `auto` is saved, the power fails before the freeze, and a later `off` finds it. -/
theorem intact_after_cut :
    ∃ c, Reach Camera.step (fun c e => c.graceful e = true) (Camera.start none (some (Sidecar.text .auto))) c ∧
      c.job = .idle ∧ c.active = false ∧ c.armed = false ∧ Intact .auto c := by
  have hrun : ∃ c, Reach Camera.step (fun c e => c.graceful e = true) (Camera.start none (some (Sidecar.text .auto))) c ∧
      restsWith .auto c = true :=
    exists_reach [.on homeTilt true, .advance, .cut, .migrate, .reenter, .reacquire, .advance, .off, .advance, .advance,
      .advance, .advance] (by decide +kernel)
  obtain ⟨c, hc, hrest⟩ := hrun
  obtain ⟨hjob, hoff, harmed, -⟩ := restsWith_iff.mp hrest
  exact ⟨c, hc, hjob, hoff, harmed, intact_of_graceful (Sidecar.parse_text .auto) hc⟩

/-- The power fails right behind `write_off`: the state has lost the intent and the sidecar has
not got it back. -/
theorem cut_loses_auto :
    ∃ c, Reach Camera.step (fun _ _ => True) (Camera.start none (some (Sidecar.text .auto))) c ∧ ¬Intact .auto c := by
  have hrun : ∃ c, Reach Camera.step (fun _ _ => True) (Camera.start none (some (Sidecar.text .auto))) c ∧
      restsWith .day c = true :=
    exists_reach [.on homeTilt false, .advance, .advance, .advance, .off, .advance, .advance, .cut, .migrate, .reenter]
      (by decide +kernel)
  obtain ⟨c, hc, hrest⟩ := hrun
  obtain ⟨hjob, hoff, harmed, hday⟩ := restsWith_iff.mp hrest
  exact ⟨c, hc, fun h => Mode.noConfusion (Option.some.inj ((h hjob hoff harmed).symm.trans hday))⟩

end Thingino.Privacy
