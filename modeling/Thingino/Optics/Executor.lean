/-! The day/night executor `daynight`.

It drives the IR-cut filter and the IR LEDs with commands of their own and reads each of them back, at most
three times. It keeps a marker of the mode that it has applied and verified last, and a request for that mode
is skipped. The commands and what reads them back are a parameter (`Actuators`), for a hardware state `σ`. -/
namespace Thingino.Optics

inductive Mode
  | day
  | night
deriving DecidableEq

inductive Led
  | ir850
  | ir940
deriving DecidableEq

/-- `ircut on` and `off`, `light <type> on` and `off`, and what `read` prints: nothing for a light without a
pin, and no 0 or 1 for a filter in no known position. -/
structure Actuators (σ : Type) where
  ircut : Bool → σ → σ
  readIrcut : σ → Option Bool
  light : Led → Bool → σ → σ
  readLight : Led → σ → Option Bool

/-- The control flags, and which of the commands are there. The colour does not count: its switch is best
effort and moves nothing. -/
structure Controls where
  ircut : Bool
  ir850 : Bool
  ir940 : Bool
  hasIrcut : Bool
  hasLight : Bool

def Controls.led (c : Controls) : Led → Bool
  | .ir850 => c.ir850
  | .ir940 => c.ir940

/-- The filter is driven. -/
def Controls.drivesIrcut (c : Controls) : Bool := c.ircut && c.hasIrcut

/-- A light is driven. -/
def Controls.drivesLight (c : Controls) (led : Led) : Bool := c.led led && c.hasLight

inductive Arg
  | day
  | night
  | toggle
  | read
deriving DecidableEq

/-- `applied` is the word in `APPLIED_FILE`. -/
structure Executor (σ : Type) where
  hw : σ
  applied : Option Mode

section Executor
variable {σ : Type} (A : Actuators σ)

/-- `set_light_verified`, for a number of tries. -/
def setLightVerified (led : Led) (want : Bool) : Nat → σ → σ × Bool
  | 0, s => (s, false)
  | n + 1, s =>
    let s' := A.light led want s
    match A.readLight led s' with
    | none => (s', true)
    | some cur => if cur = want then (s', true) else setLightVerified led want n s'

/-- `set_ircut_verified`, for a number of tries. -/
def setIrcutVerified (want : Bool) : Nat → σ → σ × Bool
  | 0, s => (s, false)
  | n + 1, s =>
    let s' := A.ircut want s
    if A.readIrcut s' = some want then (s', true) else setIrcutVerified want n s'

variable (c : Controls)

def driveIrcut (want : Bool) (s : σ) : σ × Bool :=
  if c.drivesIrcut then setIrcutVerified A want 3 s else (s, true)

def driveLight (led : Led) (want : Bool) (s : σ) : σ × Bool :=
  if c.drivesLight led then setLightVerified A led want 3 s else (s, true)

/-- The filter and then the lights; each failure counts. -/
def drive (ircutWant lightWant : Bool) (s : σ) : σ × Bool :=
  let first := driveIrcut A c ircutWant s
  let second := driveLight A c .ir850 lightWant first.1
  let third := driveLight A c .ir940 lightWant second.1
  (third.1, first.2 && second.2 && third.2)

/-- What a switch does; while physical privacy is active the lights stay off at night. -/
def switchTo (privacy : Bool) : Mode → σ → σ × Bool
  | .day, s => drive A c true false s
  | .night, s => drive A c false (!privacy) s

/-- `switch_to_day` and `switch_to_night`. -/
def request (privacy : Bool) (m : Mode) (e : Executor σ) : Executor σ × Bool :=
  if e.applied = some m then (e, true)
  else
    let r := switchTo A c privacy m e.hw
    (⟨r.1, if r.2 then some m else e.applied⟩, r.2)

/-- The mode that an invocation switches to. -/
def target (applied : Option Mode) : Arg → Option Mode
  | .day => some .day
  | .night => some .night
  | .toggle => some (if applied = some .night then .day else .night)
  | .read => none

/-- An invocation, and whether it exits 0. -/
def daynight (privacy : Bool) (arg : Arg) (e : Executor σ) : Executor σ × Bool :=
  match target e.applied arg with
  | some m => request A c privacy m e
  | none => (e, true)

/-! ### What an invocation keeps -/

variable {A c} {P : σ → Prop} {s : σ}

theorem setLightVerified_keeps {led : Led} {want : Bool} (hcmd : ∀ s, P s → P (A.light led want s)) (n : Nat)
    (h : P s) : P (setLightVerified A led want n s).1 := by
  induction n generalizing s with
  | zero => exact h
  | succ n ih =>
    rw [setLightVerified]
    split
    · exact hcmd s h
    · split
      · exact hcmd s h
      · exact ih (hcmd s h)

theorem setIrcutVerified_keeps {want : Bool} (hcmd : ∀ s, P s → P (A.ircut want s)) (n : Nat) (h : P s) :
    P (setIrcutVerified A want n s).1 := by
  induction n generalizing s with
  | zero => exact h
  | succ n ih =>
    rw [setIrcutVerified]
    split
    · exact hcmd s h
    · exact ih (hcmd s h)

theorem driveIrcut_keeps {want : Bool} (hcmd : ∀ s, P s → P (A.ircut want s)) (h : P s) :
    P (driveIrcut A c want s).1 := by
  unfold driveIrcut
  split
  · exact setIrcutVerified_keeps hcmd 3 h
  · exact h

theorem driveLight_keeps {led : Led} {want : Bool} (hcmd : ∀ s, P s → P (A.light led want s)) (h : P s) :
    P (driveLight A c led want s).1 := by
  unfold driveLight
  split
  · exact setLightVerified_keeps hcmd 3 h
  · exact h

/-- What the commands of a switch keep, the switch keeps. -/
theorem drive_keeps {ircutWant lightWant : Bool} (hircut : ∀ s, P s → P (A.ircut ircutWant s))
    (hlight : ∀ led s, P s → P (A.light led lightWant s)) (h : P s) : P (drive A c ircutWant lightWant s).1 :=
  driveLight_keeps (hlight .ir940) (driveLight_keeps (hlight .ir850) (driveIrcut_keeps hircut h))

/-- While physical privacy is active an invocation turns no light on. -/
theorem daynight_keeps_privacy {arg : Arg} {e : Executor σ} (hircut : ∀ want s, P s → P (A.ircut want s))
    (hlight : ∀ led s, P s → P (A.light led false s)) (h : P e.hw) : P (daynight A c true arg e).1.hw := by
  have hswitch : ∀ m, P (switchTo A c true m e.hw).1 := by
    intro m
    cases m with
    | day => exact drive_keeps (hircut true) hlight h
    | night => exact drive_keeps (hircut false) hlight h
  unfold daynight
  cases target e.applied arg with
  | none => exact h
  | some m =>
    show P (request A c true m e).1.hw
    unfold request
    split
    · exact h
    · exact hswitch m

/-- A filter that was set with success reads so. -/
theorem readIrcut_setIrcutVerified {want : Bool} {n : Nat} (h : (setIrcutVerified A want n s).2 = true) :
    A.readIrcut (setIrcutVerified A want n s).1 = some want := by
  induction n generalizing s with
  | zero => cases h
  | succ n ih =>
    rw [setIrcutVerified] at h ⊢
    split
    · assumption
    · rename_i hread
      rw [if_neg hread] at h
      exact ih h

/-- A light that was set with success reads so, or cannot be read. -/
theorem readLight_setLightVerified {led : Led} {want : Bool} {n : Nat}
    (h : (setLightVerified A led want n s).2 = true) :
    ∀ cur ∈ A.readLight led (setLightVerified A led want n s).1, cur = want := by
  induction n generalizing s with
  | zero => cases h
  | succ n ih =>
    rw [setLightVerified] at h ⊢
    split
    · rename_i hread
      rw [hread]
      exact fun cur hcur => absurd hcur (Option.not_mem_none cur)
    · rename_i cur hread
      simp only [hread] at h
      split
      · rename_i heq
        rw [hread]
        exact fun cur' hcur' => (Option.some.inj hcur').symm.trans heq
      · rename_i hne
        rw [if_neg hne] at h
        exact ih h

end Executor

end Thingino.Optics
