import Thingino.Daynightd.Config
import Thingino.Lib.Transition

/-! The main loop of `daynightd` with signals between any two of its accesses.

Each iteration takes a brightness sample, chooses a mode from the mean of the last ten, and lets a
mode that was forced by a signal take its place. The handler only writes `pending_mode`; the loop
tests it, reads it and clears it, and then `trigger_mode_change` decides whether the mode is to
change: not if it is the current one, not before the transition delay is over, and only if the
script succeeds. -/
namespace Thingino.Daynightd
open Lib

inductive Mode
  | day
  | night
  | unknown
deriving DecidableEq

def brightnessSamples : Nat := 10

/-- Where the loop is. `now` is the clock that `trigger_mode_change` has read. -/
inductive Pc
  | sample
  | test (targetMode : Mode)
  | read
  | clear (targetMode : Mode)
  | decide (targetMode : Mode) (forced : Bool)
  | delay (newMode : Mode) (isForced : Bool)
  | apply (newMode : Mode) (isForced : Bool) (now : Int)

/-- What became of a request that was cleared: the mode at the end of its iteration, and what was
pending by then. -/
structure Outcome where
  request : Mode
  current : Mode
  pending : Mode
deriving DecidableEq

/-- The clock is in microseconds. The last two fields are for the record: the request that was
cleared in this iteration, and what became of the earlier ones. -/
structure Daemon where
  config : Config
  thresholdLowHyst : ℚ
  thresholdHighHyst : ℚ
  currentMode : Mode
  pendingMode : Mode
  lastTransition : Int
  brightnessHistory : List ℚ
  brightnessIndex : Nat
  pc : Pc
  cleared : Mode
  outcomes : List Outcome

/-- A sample, negative for a failure; the next access of the loop; the clock; the end of the
script; and the signals. -/
inductive Event
  | sample (brightness : ℚ)
  | advance
  | clock (now : Int)
  | script (succeeds : Bool)
  | sigusr1
  | sigusr2
  | sighup (config : Config)

namespace Daemon

/-- The mean of the history, or the sample itself if the history is empty. -/
def avgBrightness (history : List ℚ) (brightness : ℚ) : ℚ :=
  let valid := history.filter (0 ≤ ·)
  if 0 < valid.length then valid.foldl (· + ·) 0 / valid.length else brightness

/-- The mode that the brightness asks for. -/
def targetMode (d : Daemon) (avg : ℚ) : Mode :=
  match d.currentMode with
  | .day => if avg < d.config.thresholdLow then .night else .day
  | .night => if avg > d.config.thresholdHigh then .day else .night
  | .unknown =>
    if avg < d.thresholdLowHyst then .night else if avg > d.thresholdHighHyst then .day else d.currentMode

/-- `calculate_brightness_thingino` and the choice of a mode. -/
def sample (d : Daemon) (brightness : ℚ) : Daemon :=
  if brightness < 0 then d
  else
    let brightnessHistory := d.brightnessHistory.set d.brightnessIndex brightness
    { d with
      brightnessHistory
      brightnessIndex := (d.brightnessIndex + 1) % brightnessSamples
      pc := .test (d.targetMode (avgBrightness brightnessHistory brightness)) }

/-- The iteration is over; a request that was cleared in it goes on record. -/
def finish (d : Daemon) : Daemon :=
  { d with
    pc := .sample
    cleared := .unknown
    outcomes := match d.cleared with
      | .unknown => d.outcomes
      | request => ⟨request, d.currentMode, d.pendingMode⟩ :: d.outcomes }

/-- The accesses around `pending_mode`. -/
def advance (d : Daemon) : Option Daemon :=
  match d.pc with
  | .test targetMode => some { d with pc := if d.pendingMode ≠ .unknown then .read else .decide targetMode false }
  | .read => some { d with pc := .clear d.pendingMode }
  | .clear targetMode =>
    some { d with pendingMode := .unknown, cleared := d.pendingMode, pc := .decide targetMode true }
  | .decide targetMode forced =>
    some (if targetMode ≠ d.currentMode ∧ targetMode ≠ .unknown then { d with pc := .delay targetMode forced }
      else d.finish)
  | _ => none

/-- The transition delay has passed, in whole seconds as `timersub` gives them. -/
def delayMet (d : Daemon) (now : Int) : Bool :=
  d.currentMode = .unknown ∨ d.config.transitionDelayS ≤ (now - d.lastTransition) / 1000000

/-- `trigger_mode_change` up to the script. -/
def clock (d : Daemon) (now : Int) : Option Daemon :=
  match d.pc with
  | .delay newMode isForced =>
    some (if newMode = d.currentMode then d.finish
      else if d.delayMet now then { d with pc := .apply newMode isForced now }
      else d.finish)
  | _ => none

/-- The script has run. -/
def script (d : Daemon) (succeeds : Bool) : Option Daemon :=
  match d.pc with
  | .apply newMode _ now =>
    some (if succeeds then finish { d with currentMode := newMode, lastTransition := now } else d.finish)
  | _ => none

def step (d : Daemon) : Event → Option Daemon
  | .sample brightness =>
    match d.pc with
    | .sample => some (d.sample brightness)
    | _ => none
  | .advance => d.advance
  | .clock now => d.clock now
  | .script succeeds => d.script succeeds
  | .sigusr1 => some { d with pendingMode := .day }
  | .sigusr2 => some { d with pendingMode := .night }
  | .sighup config => some { d with config }

/-- `main_loop` before its first iteration; a signal may have come in before it. -/
def start (config : Config) (pendingMode : Mode) : Daemon :=
  let hystRange := (config.thresholdHigh - config.thresholdLow) * config.hysteresisFactor
  ⟨config, config.thresholdLow + hystRange, config.thresholdHigh - hystRange, .unknown, pendingMode, 0,
    List.replicate brightnessSamples 50, 0, .sample, .unknown, []⟩

end Daemon

/-- **The property.** A request that was cleared is the current mode when its iteration ends, or a
newer one has come in. -/
def Honoured (d : Daemon) : Prop :=
  ∀ outcome ∈ d.outcomes, outcome.current = outcome.request ∨ outcome.pending ≠ .unknown

namespace Daemon

/-- No signal falls between the reading and the clearing of a request; and when a forced change is
refused for the delay or by the script, a newer request has come in. -/
def granted (d : Daemon) : Event → Bool
  | .advance =>
    match d.pc with
    | .clear targetMode => d.pendingMode = targetMode
    | _ => true
  | .clock now =>
    match d.pc with
    | .delay _ isForced => !isForced || d.delayMet now || d.pendingMode ≠ .unknown
    | _ => true
  | .script succeeds =>
    match d.pc with
    | .apply _ isForced _ => !isForced || succeeds || d.pendingMode ≠ .unknown
    | _ => true
  | _ => true

/-! ### The invariant -/

/-- A request that was cleared is what the iteration is about. -/
def InvAt (d : Daemon) : Pc → Prop
  | .sample | .test _ | .read | .clear _ => d.cleared = .unknown
  | .decide targetMode forced | .delay targetMode forced | .apply targetMode forced _ =>
    d.cleared ≠ .unknown → d.cleared = targetMode ∧ forced = true

structure Inv (d : Daemon) : Prop where
  honoured : Honoured d
  at_pc : d.InvAt d.pc

theorem inv_start (config : Config) (pendingMode : Mode) : (start config pendingMode).Inv :=
  ⟨fun _ => (nomatch ·), rfl⟩

/-- An iteration may end when its request is served. -/
theorem inv_finish {d : Daemon} (h : Honoured d)
    (hserved : d.cleared ≠ .unknown → d.currentMode = d.cleared ∨ d.pendingMode ≠ .unknown) : d.finish.Inv := by
  refine ⟨?_, rfl⟩
  unfold Honoured finish
  dsimp only
  split
  · exact h
  · rename_i request hrequest
    intro outcome hmem
    cases hmem with
    | head => exact hserved hrequest
    | tail _ hmem => exact h outcome hmem

theorem inv_advance {d d' : Daemon} (h : d.Inv) (hok : d.granted .advance = true) (hstep : d.advance = some d') :
    d'.Inv := by
  have hat := h.at_pc
  unfold granted at hok
  unfold advance at hstep
  cases hpc : d.pc with
  | sample | delay | apply =>
    rw [hpc] at hstep
    cases hstep
  | test targetMode =>
    rw [hpc] at hstep hat
    cases hstep
    refine ⟨h.honoured, ?_⟩
    dsimp only
    split
    · exact hat
    · exact fun hne => absurd hat hne
  | read =>
    rw [hpc] at hstep hat
    cases hstep
    exact ⟨h.honoured, hat⟩
  | clear targetMode =>
    rw [hpc] at hstep hok
    cases hstep
    exact ⟨h.honoured, fun _ => ⟨of_decide_eq_true hok, rfl⟩⟩
  | decide targetMode forced =>
    rw [hpc] at hstep hat
    cases hstep
    split
    · exact ⟨h.honoured, hat⟩
    · rename_i hstay
      refine inv_finish h.honoured fun hne => .inl ?_
      have htarget := (hat hne).1
      by_contra hother
      exact hstay ⟨fun heq => hother (heq.symm.trans htarget.symm), htarget ▸ hne⟩

theorem inv_clock {d d' : Daemon} {now : Int} (h : d.Inv) (hok : d.granted (.clock now) = true)
    (hstep : d.clock now = some d') : d'.Inv := by
  have hat := h.at_pc
  unfold granted at hok
  unfold clock at hstep
  split at hstep
  · rename_i newMode isForced hpc
    rw [hpc] at hat hok
    cases hstep
    split
    · rename_i hsame
      exact inv_finish h.honoured fun hne => .inl (hsame.symm.trans (hat hne).1.symm)
    · split
      · exact ⟨h.honoured, hat⟩
      · rename_i hdelay
        refine inv_finish h.honoured fun hne => .inr ?_
        simpa [(hat hne).2, hdelay] using hok
  · cases hstep

theorem inv_script {d d' : Daemon} {succeeds : Bool} (h : d.Inv) (hok : d.granted (.script succeeds) = true)
    (hstep : d.script succeeds = some d') : d'.Inv := by
  have hat := h.at_pc
  unfold granted at hok
  unfold script at hstep
  split at hstep
  · rename_i newMode isForced now hpc
    rw [hpc] at hat hok
    cases hstep
    split
    · exact inv_finish h.honoured fun hne => .inl (hat hne).1.symm
    · rename_i hfails
      refine inv_finish h.honoured fun hne => .inr ?_
      simpa [(hat hne).2, hfails] using hok
  · cases hstep

theorem inv_step {d d' : Daemon} {e : Event} (h : d.Inv) (hok : d.granted e = true) (hstep : d.step e = some d') :
    d'.Inv := by
  cases e with
  | sample brightness =>
    simp only [step] at hstep
    split at hstep
    · rename_i hpc
      cases hstep
      have hat := h.at_pc
      rw [hpc] at hat
      unfold sample
      split
      · exact h
      · exact ⟨h.honoured, hat⟩
    · cases hstep
  | advance => exact inv_advance h hok hstep
  | clock now => exact inv_clock h hok hstep
  | script succeeds => exact inv_script h hok hstep
  | sigusr1 | sigusr2 | sighup =>
    cases hstep
    exact ⟨h.honoured, h.at_pc⟩

end Daemon

/-- **No forced mode is lost**, whatever the samples, the clock and the signals, in runs that grant
what they take. -/
theorem honoured_of_granted {config : Config} {pendingMode : Mode} {d : Daemon}
    (h : Reach Daemon.step (fun d e => d.granted e = true) (Daemon.start config pendingMode) d) : Honoured d := by
  have hinv : d.Inv :=
    Reach.invariant (Daemon.inv_start config pendingMode) (fun _ _ _ hd hok hstep => Daemon.inv_step hd hok hstep) h
  exact hinv.honoured

/-- An iteration that takes a request and changes the mode. -/
def switching (now : Int) : List Event := [.sample 50, .advance, .advance, .advance, .advance, .clock now, .script true]

/-- `day` is forced, and `night` six seconds later. -/
theorem honoured_after_delay :
    ∃ d, Reach Daemon.step (fun d e => d.granted e = true) (Daemon.start Config.zero.setDefaults .unknown) d ∧
      d.outcomes = [⟨.night, .night, .unknown⟩, ⟨.day, .day, .unknown⟩] ∧ Honoured d := by
  have hrun : ∃ d, Reach Daemon.step (fun d e => d.granted e = true) (Daemon.start Config.zero.setDefaults .unknown) d ∧
      d.outcomes = [⟨.night, .night, .unknown⟩, ⟨.day, .day, .unknown⟩] :=
    exists_reach ([.sigusr1] ++ switching 100000000 ++ [.sigusr2] ++ switching 106000000) (by decide)
  obtain ⟨d, hd, houtcomes⟩ := hrun
  exact ⟨d, hd, houtcomes, honoured_of_granted hd⟩

/-- `night` is forced one second after a change to `day`: the request is gone and the mode is still
`day`. -/
theorem delay_drops_request :
    ∃ d, Reach Daemon.step (fun _ _ => True) (Daemon.start Config.zero.setDefaults .unknown) d ∧ ¬Honoured d := by
  have hrun : ∃ d, Reach Daemon.step (fun _ _ => True) (Daemon.start Config.zero.setDefaults .unknown) d ∧
      d.outcomes = [⟨.night, .day, .unknown⟩, ⟨.day, .day, .unknown⟩] :=
    exists_reach ([.sigusr1] ++ switching 100000000 ++
      [.sigusr2, .sample 50, .advance, .advance, .advance, .advance, .clock 101000000]) (by decide)
  obtain ⟨d, hd, houtcomes⟩ := hrun
  refine ⟨d, hd, fun h => ?_⟩
  have hlost := h ⟨.night, .day, .unknown⟩ (by simp [houtcomes])
  exact absurd hlost (by decide)

end Thingino.Daynightd
