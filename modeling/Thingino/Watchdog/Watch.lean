import Thingino.Lib.Transition

/-! The stream watchdog: `watch()` of `S32prudyntwd`.

The loop knows the world by what it samples: whether `prudynt` is alive, whether it serves,
the uptime, the kill switch, and the exit code of `S31prudynt restart`. The model stops
where one of these is read and takes the value as an event (`Obs`), so every sequence of
answers is a run. Between two readings the script computes: `Watch.step` follows it. `log`
records what became of each cycle, the confirmation windows, the restarts and the reboot. -/
namespace Thingino.Watchdog
open Lib

/-! ### Tunables -/

def graceSeconds : Nat := 200

def downStreakLimit : Nat := 2

def healthyStreakLimit : Nat := 2

def restartLimit : Nat := 3

def goneConfirmDelay : Nat := 5

def goneConfirmBudget : Nat := 25

/-! ### The loop -/

/-- What a reading returns; an unreadable `/proc/uptime` is `none`. -/
inductive Obs
  | disabled (on : Bool)
  | live (alive : Bool)
  | probe (serving : Bool)
  | uptime (now : Option Nat)
  | exit (ok : Bool)
  deriving DecidableEq

/-- Why `do_restart` is called: the process is gone, or it is alive and does not serve. -/
inductive Path
  | gone
  | wedged
  deriving DecidableEq

/-- What the script reads next. The names follow its sections: the seed before the loop, the
head with the kill switch, leaving a disabled window, the liveness sample with a new
incarnation or a confirmation window behind it (`waited` seconds of it are over), the probe,
the grace test, and `do_restart`. After `do_reboot` it only sleeps. -/
inductive Pc
  | seedLive
  | seedProbe
  | seedArm
  | seedLast
  | head
  | leaveArm
  | leaveLast
  | sample
  | newArm
  | confirm (waited : Nat) (polls : List Bool)
  | reappearArm
  | probe
  | grace
  | restarting (path : Path)
  | restartArm
  | parked
  deriving DecidableEq

/-- What happened: a cycle with the kill switch on, one that found `prudynt` serving, one that
found it alive and not serving (`fresh`: a new incarnation was seen in it, `past`: the grace
window was over), a confirmation window that ran to its end, and the two actions. -/
inductive Mark
  | disabled
  | serving
  | notServing (fresh past : Bool)
  | gone (polls : List Bool)
  | restart (ok : Bool)
  | reboot
  deriving DecidableEq

/-- The variables of the script, the newest entry of the log first. -/
structure Watch where
  pc : Pc
  restartCount : Nat
  graceUntil : Nat
  downStreak : Nat
  healthyStreak : Nat
  lastLive : Bool
  wasDisabled : Bool
  fresh : Bool
  log : List Mark
  deriving DecidableEq

namespace Watch

def init : Watch := ⟨.seedLive, 0, 0, 0, 0, false, false, false, []⟩

/-- `arm_grace`: an unreadable uptime keeps the old deadline. -/
def armGrace (w : Watch) (now : Option Nat) : Watch :=
  { w with
    graceUntil := match now with
      | none => w.graceUntil
      | some now => now + graceSeconds }

/-- `within_grace`: an unreadable uptime counts as inside. -/
def withinGrace (w : Watch) : Option Nat → Bool
  | none => true
  | some now => now < w.graceUntil

/-- A `prudynt` that serves before the loop starts gets no grace. -/
def onSeed (w : Watch) (serving : Bool) : Watch :=
  if serving then { w with graceUntil := 0, healthyStreak := healthyStreakLimit, pc := .seedLast }
  else { w with pc := .seedArm }

/-- The kill switch. -/
def onHead (w : Watch) (on : Bool) : Watch :=
  if on then { w with wasDisabled := true, log := .disabled :: w.log, pc := .head }
  else { w with wasDisabled := false, fresh := false, pc := if w.wasDisabled then .leaveArm else .sample }

/-- Alive or gone; it is a new incarnation if it was not alive the last time. -/
def onSample (w : Watch) (alive : Bool) : Watch :=
  if alive then { w with pc := if w.lastLive then .probe else .newArm }
  else { w with lastLive := false, pc := .confirm 0 [] }

/-- A new incarnation gets its bringup time. -/
def newIncarnation (w : Watch) (now : Option Nat) : Watch :=
  { w.armGrace now with downStreak := 0, lastLive := true, fresh := true, pc := .probe }

/-- One more poll of `confirm_gone`. -/
def onPoll (w : Watch) (waited : Nat) (polls : List Bool) (alive : Bool) : Watch :=
  if alive then { w with pc := .reappearArm }
  else if waited < goneConfirmBudget then { w with pc := .confirm (waited + goneConfirmDelay) (alive :: polls) }
  else { w with pc := .restarting .gone, log := .gone (alive :: polls) :: w.log }

def onProbe (w : Watch) (serving : Bool) : Watch :=
  if serving then
    { w with
      healthyStreak := w.healthyStreak + 1
      downStreak := 0
      restartCount := if healthyStreakLimit ≤ w.healthyStreak + 1 then 0 else w.restartCount
      log := .serving :: w.log
      pc := .head }
  else { w with healthyStreak := 0, pc := .grace }

/-- Alive and not serving: the grace window and the streak decide. -/
def onGrace (w : Watch) (now : Option Nat) : Watch :=
  if w.withinGrace now then
    { w with downStreak := 0, log := .notServing w.fresh false :: w.log, pc := .head }
  else
    { w with
      downStreak := w.downStreak + 1
      log := .notServing w.fresh true :: w.log
      pc := if w.downStreak + 1 < downStreakLimit then .head else .restarting .wedged }

/-- Behind `do_restart`: the next cycle, or `do_reboot`. -/
def afterRestart (w : Watch) : Watch :=
  if restartLimit ≤ w.restartCount then { w with pc := .parked, log := .reboot :: w.log } else { w with pc := .head }

/-- `do_restart`, from the exit code of `S31prudynt` on. -/
def onExit (w : Watch) (ok : Bool) : Watch :=
  let w :=
    { w with
      restartCount := w.restartCount + 1
      downStreak := 0
      healthyStreak := 0
      log := .restart ok :: w.log }
  if ok then { w with pc := .restartArm } else { w with graceUntil := 0 }.afterRestart

def step (w : Watch) (o : Obs) : Option Watch :=
  match w.pc, o with
  | .seedLive, .live alive => some { w with pc := if alive then .seedProbe else .seedArm }
  | .seedProbe, .probe serving => some (w.onSeed serving)
  | .seedArm, .uptime now => some { w.armGrace now with pc := .seedLast }
  | .seedLast, .live alive => some { w with lastLive := alive, pc := .head }
  | .head, .disabled on => some (w.onHead on)
  | .leaveArm, .uptime now => some { w.armGrace now with downStreak := 0, healthyStreak := 0, pc := .leaveLast }
  | .leaveLast, .live alive => some { w with lastLive := alive, pc := .sample }
  | .sample, .live alive => some (w.onSample alive)
  | .newArm, .uptime now => some (w.newIncarnation now)
  | .confirm waited polls, .live alive => some (w.onPoll waited polls alive)
  | .reappearArm, .uptime now => some (w.newIncarnation now)
  | .probe, .probe serving => some (w.onProbe serving)
  | .grace, .uptime now => some (w.onGrace now)
  | .restarting _, .exit ok => some (w.onExit ok)
  | .restartArm, .uptime now => some (w.armGrace now).afterRestart
  | _, _ => none

end Watch

/-- The states of `watch()`, whatever it reads. -/
def Watches (w : Watch) : Prop := Reach Watch.step (fun _ _ => True) Watch.init w

end Thingino.Watchdog
