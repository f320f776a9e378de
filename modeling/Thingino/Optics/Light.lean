import Mathlib.Logic.Function.Basic
import Thingino.Lib.Transition
import Thingino.Optics.Executor

/-! The command `light`, and that nothing is lit while the lens is parked.

A light has a pin and may be active at the low level; both are in `/etc/thingino.json` under its type. The type
`ir` has no pin of its own and takes that of `ir850` or else of `ir940`, but its polarity is looked up under
`ir`. While physical privacy is active the modes that turn a light on are refused; `off` is not, whatever level
it sets. -/
namespace Thingino.Optics
open Lib

inductive LightType
  | ir
  | ir850
  | ir940
  | white
  | flood
deriving DecidableEq

inductive LightMode
  | off
  | on
  | toggle
  | read
deriving DecidableEq

/-- What stands under `gpio.<type>`: a pin, or an object that has perhaps a pin. -/
inductive GpioEntry
  | plain (pin : Nat)
  | structured (pin : Option Nat) (activeLow : Bool)

abbrev GpioConfig := LightType → Option GpioEntry

/-- What `get_config_pin` prints: nothing, an object without a pin, or the number of a pin. -/
inductive PinText
  | none
  | object
  | number (pin : Nat)
deriving DecidableEq

abbrev Levels := Nat → Bool

section Config
variable (cfg : GpioConfig)

def getConfigPin (type : LightType) : PinText :=
  match cfg type with
  | none => .none
  | some (.plain pin) => .number pin
  | some (.structured (some pin) _) => .number pin
  | some (.structured none _) => .object

def getConfigActiveLow (type : LightType) : Bool :=
  match cfg type with
  | some (.structured _ activeLow) => activeLow
  | _ => false

/-- The pin that a type is driven at. -/
def lightPin : LightType → PinText
  | .ir => if getConfigPin cfg .ir850 = .none then getConfigPin cfg .ir940 else getConfigPin cfg .ir850
  | type => getConfigPin cfg type

def pinOn (type : LightType) : Bool := !getConfigActiveLow cfg type

def pinOff (type : LightType) : Bool := getConfigActiveLow cfg type

end Config

/-- `gpio set`, which fails without a number. -/
def gpioSet (pin : PinText) (level : Bool) (levels : Levels) : Levels :=
  match pin with
  | .number n => Function.update levels n level
  | _ => levels

def gpioValue (pin : PinText) (levels : Levels) : Option Bool :=
  match pin with
  | .number n => some (levels n)
  | _ => none

def gpioToggle (pin : PinText) (levels : Levels) : Levels :=
  match pin with
  | .number n => Function.update levels n !(levels n)
  | _ => levels

/-- `light <type> <mode>`: the levels it leaves, and what it prints. -/
def light (cfg : GpioConfig) (privacy : Bool) (type : LightType) (mode : LightMode) (levels : Levels) :
    Levels × Option Bool :=
  if lightPin cfg type = .none then (levels, none)
  else if privacy && (mode = .on || mode = .toggle) then (levels, none)
  else
    match mode with
    | .off => (gpioSet (lightPin cfg type) (pinOff cfg type) levels, none)
    | .on => (gpioSet (lightPin cfg type) (pinOn cfg type) levels, none)
    | .toggle => (gpioToggle (lightPin cfg type) levels, none)
    | .read => (levels, some (gpioValue (lightPin cfg type) levels = some (pinOn cfg type)))

/-! ### Emitters -/

inductive Emitter
  | ir850
  | ir940
  | white
  | flood
deriving DecidableEq

def Emitter.type : Emitter → LightType
  | .ir850 => .ir850
  | .ir940 => .ir940
  | .white => .white
  | .flood => .flood

def Led.type : Led → LightType
  | .ir850 => .ir850
  | .ir940 => .ir940

/-- The emitter's pin is at the active level of its own type. -/
def lit (cfg : GpioConfig) (levels : Levels) (e : Emitter) : Bool :=
  gpioValue (getConfigPin cfg e.type) levels = some (pinOn cfg e.type)

/-- The executor drives its lights with `light`; the filter has pins of its own. -/
def gpioActuators (cfg : GpioConfig) (readIrcut : Levels → Option Bool) : Actuators Levels where
  ircut _ levels := levels
  readIrcut := readIrcut
  light led on levels := (light cfg true led.type (if on then .on else .off) levels).1
  readLight led levels := (light cfg true led.type .read levels).2

/-- What is called while the lens is parked. -/
inductive Call
  | light (type : LightType) (mode : LightMode)
  | daynight (arg : Arg)

def Call.step (cfg : GpioConfig) (c : Controls) (readIrcut : Levels → Option Bool) (s : Executor Levels) :
    Call → Option (Executor Levels)
  | .light type mode => some { s with hw := (Optics.light cfg true type mode s.hw).1 }
  | .daynight arg => some (Optics.daynight (gpioActuators cfg readIrcut) c true arg s).1

/-- **The property** of a configuration. An emitter that is off when the lens is parked is never lit as long
as it stays parked. -/
def StaysDark (cfg : GpioConfig) : Prop :=
  ∀ (c : Controls) (readIrcut : Levels → Option Bool) (s s' : Executor Levels),
    Reach (Call.step cfg c readIrcut) (fun _ _ => True) s s' →
    ∀ e, lit cfg s.hw e = false → lit cfg s'.hw e = false

/-- A type that is driven at the pin of an emitter has the emitter's polarity. -/
def agrees (cfg : GpioConfig) (type : LightType) (e : Emitter) : Bool :=
  match lightPin cfg type, getConfigPin cfg e.type with
  | .number n, .number k => n ≠ k || (getConfigActiveLow cfg type = getConfigActiveLow cfg e.type : Bool)
  | _, _ => true

variable {cfg : GpioConfig} {levels : Levels} {e : Emitter} {type : LightType}

/-! ### What a call changes -/

/-- While the lens is parked `light` does nothing, or sets the off level of the type. -/
theorem light_privacy (type : LightType) (mode : LightMode) (levels : Levels) :
    (light cfg true type mode levels).1 = levels ∨
      (light cfg true type mode levels).1 = gpioSet (lightPin cfg type) (pinOff cfg type) levels := by
  unfold light
  split
  · exact .inl rfl
  · cases mode with
    | off => exact .inr rfl
    | on => exact .inl rfl
    | toggle => exact .inl rfl
    | read => exact .inl rfl

/-- The off level of a type that agrees with an emitter does not light it. -/
theorem dark_gpioSet (hagrees : agrees cfg type e = true) (hdark : lit cfg levels e = false) :
    lit cfg (gpioSet (lightPin cfg type) (pinOff cfg type) levels) e = false := by
  rw [lit, decide_eq_false_iff_not] at hdark ⊢
  cases hpin : lightPin cfg type with
  | none => exact hdark
  | object => exact hdark
  | number n =>
    cases hown : getConfigPin cfg e.type with
    | none => exact (Option.some_ne_none _).symm
    | object => exact (Option.some_ne_none _).symm
    | number k =>
      rw [hown] at hdark
      rw [agrees, hpin, hown] at hagrees
      simp only [Bool.or_eq_true, decide_eq_true_eq] at hagrees
      show ¬some (Function.update levels n (pinOff cfg type) k) = some (pinOn cfg e.type)
      by_cases hnk : k = n
      · subst hnk
        have hsame := hagrees.resolve_left fun hne => hne rfl
        rw [Function.update_self, pinOff, pinOn, hsame]
        cases getConfigActiveLow cfg e.type <;> decide
      · rw [Function.update_of_ne hnk]
        exact hdark

theorem dark_light (hall : ∀ type, agrees cfg type e = true) (type : LightType) (mode : LightMode)
    (hdark : lit cfg levels e = false) : lit cfg (light cfg true type mode levels).1 e = false := by
  rcases light_privacy type mode levels with heq | heq
  · rw [heq]
    exact hdark
  · rw [heq]
    exact dark_gpioSet (hall type) hdark

theorem dark_step {c : Controls} {readIrcut : Levels → Option Bool} {s s' : Executor Levels} {call : Call}
    (hall : ∀ type, agrees cfg type e = true) (hdark : lit cfg s.hw e = false)
    (hstep : Call.step cfg c readIrcut s call = some s') : lit cfg s'.hw e = false := by
  cases call with
  | light type mode =>
    obtain rfl := Option.some.inj hstep
    exact dark_light hall type mode hdark
  | daynight arg =>
    obtain rfl := Option.some.inj hstep
    exact daynight_keeps_privacy (P := fun levels => lit cfg levels e = false) (fun _ _ hs => hs)
      (fun led _ hs => dark_light hall led.type .off hs) hdark

/-- A type of the other polarity lights the emitter with its `off`. -/
theorem lit_off (hdisagrees : agrees cfg type e = false) :
    lit cfg (fun _ => pinOff cfg e.type) e = false ∧
      lit cfg (light cfg true type .off fun _ => pinOff cfg e.type).1 e = true := by
  unfold agrees at hdisagrees
  split at hdisagrees
  · rename_i n k hpin hown
    simp only [Bool.or_eq_false_iff, decide_eq_false_iff_not, ne_eq, not_not] at hdisagrees
    obtain ⟨rfl, hne⟩ := hdisagrees
    have hoff : pinOff cfg type = pinOn cfg e.type := by
      rw [pinOff, pinOn]
      revert hne
      cases getConfigActiveLow cfg type <;> cases getConfigActiveLow cfg e.type <;> decide
    constructor
    · rw [lit, hown, decide_eq_false_iff_not]
      show ¬some (pinOff cfg e.type) = some (pinOn cfg e.type)
      rw [pinOff, pinOn]
      cases getConfigActiveLow cfg e.type <;> decide
    · have hlight : (light cfg true type .off fun _ => pinOff cfg e.type).1 =
          Function.update (fun _ => pinOff cfg e.type) n (pinOff cfg type) := by
        rw [light, hpin]
        rfl
      rw [hlight, lit, hown, decide_eq_true_eq]
      show some (Function.update (fun _ => pinOff cfg e.type) n (pinOff cfg type) n) = some (pinOn cfg e.type)
      rw [Function.update_self, hoff]
  · cases hdisagrees

/-- The 850 nm light at a pin that is active at the low level, and no other one. -/
def activeLowIr850 : GpioConfig
  | .ir850 => some (.structured (some 49) true)
  | _ => none

end Thingino.Optics
