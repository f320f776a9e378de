import Thingino.Watchdog.Watch

/-! The watchdog in its surroundings.

`watch()` runs beside everybody else who starts and stops `prudynt` (the init script, the
day/night switch, the web interface, a crash) and beside the captive portal, which raises and
lowers `/run/portal_mode`. `World` puts the loop into that company: time passes, `prudynt` has
a launch time as long as it runs, and what the loop reads is what is the case. Between two
readings anything may happen, also between the decision to restart and the call of
`S31prudynt`. The work of `S31prudynt` itself is `kill` and `launch` events like any other.

Two things can then be asked of a call: how old was the incarnation it hit, and was the kill
switch on when the loop last looked at `prudynt`. -/
namespace Thingino.Watchdog
open Lib

inductive Action
  | restart (path : Path)
  | reboot
  deriving DecidableEq

/-- A call of `do_restart` or `do_reboot`: when it was made, the launch time of what was
running, and whether the portal flag was there at the last poll or probe before it. -/
structure Call where
  action : Action
  time : Nat
  running : Option Nat
  flagSeen : Bool
  deriving DecidableEq

/-- `invoked` is set while `S31prudynt restart` is under way. -/
structure World where
  watch : Watch
  now : Nat
  running : Option Nat
  flag : Bool
  flagSeen : Bool
  invoked : Bool
  calls : List Call
  deriving DecidableEq

inductive Event
  | tick (seconds : Nat)
  | launch
  | kill
  | raise
  | lower
  | invoke
  | read (o : Obs)
  deriving DecidableEq

/-- A reading that looks at `prudynt`: a liveness poll or a serving probe. -/
def Obs.looks : Obs → Bool
  | .live _ | .probe _ => true
  | .disabled _ | .uptime _ | .exit _ => false

namespace World

def init : World := ⟨.init, 0, none, false, false, false, []⟩

/-- What can be read: `prudynt_live`, `is_streamer_disabled` and the uptime tell what is the
case, the probe may say anything, and an exit code comes from a script that was called. -/
def answers (disableStreamer : Bool) (w : World) : Obs → Bool
  | .disabled on => on == (disableStreamer || w.flag)
  | .live alive => alive == w.running.isSome
  | .probe _ => true
  | .uptime now => now == some w.now
  | .exit _ => w.invoked

def call (w : World) (action : Action) : Call := ⟨action, w.now, w.running, w.flagSeen⟩

/-- The loop has read `o` and went on to `watch`; if it is parked now, it just called `do_reboot`. -/
def advance (w : World) (o : Obs) (watch : Watch) : World :=
  { w with
    watch
    flagSeen := if o.looks then w.flag else w.flagSeen
    invoked := false
    calls := if watch.pc = .parked then w.call .reboot :: w.calls else w.calls }

def step (disableStreamer : Bool) (w : World) : Event → Option World
  | .tick seconds => some { w with now := w.now + seconds }
  | .launch => if w.running.isSome then none else some { w with running := some w.now }
  | .kill => some { w with running := none }
  | .raise => some { w with flag := true }
  | .lower => some { w with flag := false }
  | .invoke =>
    match w.watch.pc with
    | .restarting path =>
      if w.invoked then none else some { w with invoked := true, calls := w.call (.restart path) :: w.calls }
    | _ => none
  | .read o => if w.answers disableStreamer o then (w.watch.step o).map (w.advance o) else none

theorem step_read {disableStreamer : Bool} {w w' : World} {o : Obs}
    (h : w.step disableStreamer (.read o) = some w') :
    w.answers disableStreamer o = true ∧ ∃ watch, w.watch.step o = some watch ∧ w' = w.advance o watch := by
  rw [step, Option.ite_none_right_eq_some, Option.map_eq_some_iff] at h
  obtain ⟨hanswers, watch, hwatch, hw'⟩ := h
  exact ⟨hanswers, watch, hwatch, hw'.symm⟩

theorem step_invoke {disableStreamer : Bool} {w w' : World} (h : w.step disableStreamer .invoke = some w') :
    ∃ path, w.watch.pc = .restarting path ∧ w.invoked = false ∧
      w' = { w with invoked := true, calls := w.call (.restart path) :: w.calls } := by
  simp only [step] at h
  split at h
  · rename_i path hpc
    split at h
    · cases h
    · rename_i hinvoked
      cases h
      exact ⟨path, hpc, Bool.eq_false_iff.mpr hinvoked, rfl⟩
  · cases h

theorem step_launch {disableStreamer : Bool} {w w' : World} (h : w.step disableStreamer .launch = some w') :
    w' = { w with running := some w.now } := by
  simp only [step] at h
  split at h
  · cases h
  · cases h
    rfl

end World

/-! ### Where the calls come from -/

theorem Watch.afterRestart_pc (w : Watch) : w.afterRestart.pc = .parked ∨ w.afterRestart.pc = .head := by
  unfold Watch.afterRestart
  split
  · exact .inl rfl
  · exact .inr rfl

theorem Watch.onExit_pc (w : Watch) (ok : Bool) :
    (w.onExit ok).pc = .restartArm ∨ (w.onExit ok).pc = .parked ∨ (w.onExit ok).pc = .head := by
  cases ok with
  | true => exact .inl rfl
  | false => exact .inr (Watch.afterRestart_pc _)

theorem Watch.onGrace_pc (w : Watch) (now : Option Nat) :
    (w.onGrace now).pc = .head ∨ (w.onGrace now).pc = .restarting .wedged := by
  unfold Watch.onGrace
  split
  · exact .inl rfl
  · dsimp only
    split
    · exact .inl rfl
    · exact .inr rfl

/-- The steps behind which `do_restart` is called on the alive-but-not-serving path, or `do_reboot`. -/
theorem step_acts {w w' : Watch} {o : Obs} (h : w.step o = some w')
    (hacts : w'.pc = .restarting .wedged ∨ w'.pc = .parked) :
    (∃ now, o = .uptime now ∧ w.pc = .grace ∧ w' = w.onGrace now) ∨
      (∃ path ok, o = .exit ok ∧ w.pc = .restarting path ∧ w' = w.onExit ok) ∨
      ∃ now, o = .uptime now ∧ w.pc = .restartArm ∧ w' = (w.armGrace now).afterRestart := by
  unfold Watch.step at h
  split at h
  case h_16 => cases h
  all_goals
    rename_i hpc
    cases h
  case h_13 now => exact .inl ⟨now, rfl, hpc, rfl⟩
  case h_14 path ok => exact .inr (.inl ⟨path, ok, rfl, hpc, rfl⟩)
  case h_15 now => exact .inr (.inr ⟨now, rfl, hpc, rfl⟩)
  case h_3 | h_4 | h_6 | h_7 | h_9 | h_11 => exact hacts.elim (nomatch ·) (nomatch ·)
  case h_1 answer | h_2 answer | h_12 answer => cases answer <;> exact hacts.elim (nomatch ·) (nomatch ·)
  case h_5 on =>
    unfold Watch.onHead at hacts
    cases on <;> cases hdisabled : w.wasDisabled <;> simp [hdisabled] at hacts
  case h_8 alive =>
    unfold Watch.onSample at hacts
    cases alive <;> cases hlast : w.lastLive <;> simp [hlast] at hacts
  case h_10 waited polls alive =>
    unfold Watch.onPoll at hacts
    split at hacts
    · exact hacts.elim (nomatch ·) (nomatch ·)
    · split at hacts <;> exact hacts.elim (nomatch ·) (nomatch ·)

/-! ### Young incarnations -/

/-- **The property.** A call on the alive-but-not-serving path does not hit an incarnation
younger than the grace time. -/
def Undisturbed (calls : List Call) : Prop :=
  ∀ c ∈ calls, c.action = .restart .wedged → ∀ launched, c.running = some launched → launched + graceSeconds ≤ c.time

namespace World

/-- The loop arms the grace window before it judges a `prudynt` that appears now. Where it has
last seen `prudynt` alive it does not: it takes a new process for the old one. -/
def armsNext (w : World) : Bool :=
  match w.watch.pc with
  | .seedLive | .seedProbe | .seedArm | .leaveArm | .newArm | .confirm _ _ | .reappearArm | .restartArm | .parked => true
  | .head => w.watch.wasDisabled || !w.watch.lastLive
  | .sample => !w.watch.lastLive
  | .restarting path => w.invoked || path = .gone
  | .seedLast | .leaveLast | .probe | .grace => false

/-- Whatever runs has had its grace time. -/
def grown (w : World) : Bool := w.running.all fun launched => launched + graceSeconds ≤ w.now

/-- `prudynt` is launched only where the loop will notice it or still has a long enough
deadline, and the two places that drop the deadline, the seed that finds it serving and a
restart that fails, do so with no young incarnation running. -/
def noticed (w : World) : Event → Bool
  | .launch => w.armsNext || w.now + graceSeconds ≤ w.watch.graceUntil
  | .read (.probe true) => w.watch.pc != .seedProbe || w.grown
  | .read (.exit false) => !w.watch.lastLive || w.grown
  | _ => true

/-- A running incarnation is covered: the deadline is armed before the next judgement, it is
late enough, or the grace time is over. -/
structure Covered (w : World) : Prop where
  launched : ∀ t, w.running = some t → t ≤ w.now
  cover : ∀ t, w.running = some t →
    w.armsNext = true ∨ t + graceSeconds ≤ w.watch.graceUntil ∨ t + graceSeconds ≤ w.now
  judged : w.watch.pc = .restarting .wedged → w.invoked = false → w.watch.graceUntil ≤ w.now

theorem covered_init : Covered init := by
  refine ⟨fun t ht => ?_, fun t ht => ?_, fun hpc => ?_⟩
  · cases ht
  · cases ht
  · cases hpc

theorem grown_iff {w : World} : w.grown = true ↔ ∀ t, w.running = some t → t + graceSeconds ≤ w.now := by
  unfold grown
  cases w.running with
  | none => simp
  | some t => simp

/-- After arming, everything that runs is covered. -/
theorem armed_cover {w : World} {t : Nat} (h : Covered w) (ht : w.running = some t) :
    t + graceSeconds ≤ (w.watch.armGrace (some w.now)).graceUntil :=
  Nat.add_le_add_right (h.launched t ht) graceSeconds

/-- A restart that fails leaves the loop at its head, or parked: with `prudynt` absent the last
time, the next one is noticed. -/
theorem armsNext_failed {w : World} (hlast : w.watch.lastLive = false) :
    (w.advance (.exit false) (w.watch.onExit false)).armsNext = true := by
  simp only [advance, Watch.onExit, Bool.false_eq_true, if_false, Watch.afterRestart]
  split
  · rfl
  · simp only [armsNext, hlast, Bool.not_false, Bool.or_true]

/-- Past the kill switch: a process that was missed before is still going to be noticed. -/
theorem cover_onHead {w : World} {t : Nat} (on : Bool)
    (h : (w.watch.wasDisabled || !w.watch.lastLive) = true ∨
      t + graceSeconds ≤ w.watch.graceUntil ∨ t + graceSeconds ≤ w.now) :
    (w.advance (.disabled on) (w.watch.onHead on)).armsNext = true ∨
      t + graceSeconds ≤ (w.watch.onHead on).graceUntil ∨ t + graceSeconds ≤ w.now := by
  cases on with
  | true => exact .inl rfl
  | false =>
    cases hdisabled : w.watch.wasDisabled with
    | true => exact .inl (by simp [advance, armsNext, Watch.onHead, hdisabled])
    | false =>
      rw [hdisabled, Bool.false_or] at h
      refine h.imp (fun hlast => ?_) id
      simpa [advance, armsNext, Watch.onHead, hdisabled] using hlast

/-- The liveness sample: alive again is a new incarnation, alive still is the one covered before. -/
theorem cover_onSample {w : World} {t : Nat}
    (h : (!w.watch.lastLive) = true ∨ t + graceSeconds ≤ w.watch.graceUntil ∨ t + graceSeconds ≤ w.now) :
    (w.advance (.live true) (w.watch.onSample true)).armsNext = true ∨
      t + graceSeconds ≤ (w.watch.onSample true).graceUntil ∨ t + graceSeconds ≤ w.now := by
  cases hlast : w.watch.lastLive with
  | true =>
    rw [hlast] at h
    exact .inr (h.resolve_left (by decide))
  | false => exact .inl (by simp [advance, armsNext, Watch.onSample, hlast])

theorem cover_read {disableStreamer : Bool} {w : World} {o : Obs} {watch : Watch} {t : Nat} (h : Covered w)
    (hok : w.noticed (.read o) = true) (hanswers : w.answers disableStreamer o = true)
    (hstep : w.watch.step o = some watch) (ht : w.running = some t) :
    (w.advance o watch).armsNext = true ∨ t + graceSeconds ≤ watch.graceUntil ∨ t + graceSeconds ≤ w.now := by
  have hcover := h.cover t ht
  have harmed := armed_cover h ht
  have halive : ∀ alive, w.answers disableStreamer (.live alive) = true → alive = true := by
    intro alive hlive
    rw [answers, ht, Option.isSome_some, beq_iff_eq] at hlive
    exact hlive
  unfold Watch.step at hstep
  split at hstep
  case h_16 => cases hstep
  all_goals
    rename_i hpc
    simp only [armsNext, hpc, Bool.false_eq_true, false_or] at hcover
    cases hstep
  case h_1 alive =>
    cases halive alive hanswers
    exact .inl rfl
  case h_2 serving =>
    cases serving with
    | true =>
      simp only [noticed, hpc, bne_self_eq_false, Bool.false_or] at hok
      exact .inr (.inr (grown_iff.mp hok t ht))
    | false => exact .inl rfl
  case h_3 now | h_6 now | h_9 now | h_11 now =>
    cases eq_of_beq hanswers
    exact .inr (.inl harmed)
  case h_4 | h_7 => exact .inr hcover
  case h_5 on => exact cover_onHead on hcover
  case h_8 alive =>
    cases halive alive hanswers
    exact cover_onSample hcover
  case h_10 waited polls alive =>
    cases halive alive hanswers
    exact .inl rfl
  case h_12 serving =>
    cases serving with
    | true => exact .inr hcover
    | false => exact .inr hcover
  case h_13 now =>
    refine .inr ?_
    unfold Watch.onGrace
    split <;> exact hcover
  case h_14 path ok =>
    cases ok with
    | true => exact .inl rfl
    | false =>
      rw [noticed, Bool.or_eq_true, Bool.not_eq_true', grown_iff] at hok
      exact hok.imp (fun hlast => armsNext_failed hlast) fun hgrown => .inr (hgrown t ht)
  case h_15 now =>
    cases eq_of_beq hanswers
    refine .inr (.inl ?_)
    unfold Watch.afterRestart
    split <;> exact harmed

/-- Only the grace test leads to a restart on this path, and then the deadline is over. -/
theorem judged_read {disableStreamer : Bool} {w : World} {o : Obs} {watch : Watch}
    (hanswers : w.answers disableStreamer o = true) (hstep : w.watch.step o = some watch)
    (hpc' : watch.pc = .restarting .wedged) : watch.graceUntil ≤ w.now := by
  obtain ⟨now, rfl, -, rfl⟩ | ⟨path, ok, rfl, -, rfl⟩ | ⟨now, rfl, -, rfl⟩ := step_acts hstep (.inl hpc')
  · cases eq_of_beq hanswers
    unfold Watch.onGrace at hpc' ⊢
    split at hpc'
    · cases hpc'
    · rename_i hpast
      rw [if_neg hpast]
      exact Nat.le_of_not_lt (of_decide_eq_false (Bool.eq_false_iff.mpr hpast))
  · obtain hpc | hpc | hpc := w.watch.onExit_pc ok <;> cases hpc.symm.trans hpc'
  · obtain hpc | hpc := (w.watch.armGrace now).afterRestart_pc <;> cases hpc.symm.trans hpc'

theorem covered_step {disableStreamer : Bool} {w w' : World} {e : Event} (h : Covered w) (hok : w.noticed e = true)
    (hstep : w.step disableStreamer e = some w') : Covered w' := by
  cases e with
  | tick seconds =>
    cases hstep
    refine ⟨fun t ht => ?_, fun t ht => ?_, fun hpc hinvoked => ?_⟩
    · exact Nat.le_add_right_of_le (h.launched t ht)
    · exact (h.cover t ht).imp id (.imp id Nat.le_add_right_of_le)
    · exact Nat.le_add_right_of_le (h.judged hpc hinvoked)
  | launch =>
    cases step_launch hstep
    rw [noticed, Bool.or_eq_true, decide_eq_true_eq] at hok
    refine ⟨fun t ht => ?_, fun t ht => ?_, h.judged⟩
    · cases ht
      exact Nat.le_refl _
    · cases ht
      exact hok.imp id .inl
  | kill =>
    cases hstep
    exact ⟨fun t ht => (nomatch ht), fun t ht => (nomatch ht), h.judged⟩
  | raise | lower =>
    cases hstep
    exact ⟨h.launched, h.cover, h.judged⟩
  | invoke =>
    obtain ⟨path, hpc, -, rfl⟩ := step_invoke hstep
    refine ⟨h.launched, fun t ht => .inl ?_, fun _ hinvoked => nomatch hinvoked⟩
    simp only [armsNext, hpc, Bool.true_or]
  | read o =>
    obtain ⟨hanswers, watch, hwatch, rfl⟩ := step_read hstep
    have hjudged : watch.pc = .restarting .wedged → watch.graceUntil ≤ w.now := judged_read hanswers hwatch
    exact ⟨h.launched, fun t ht => cover_read h hok hanswers hwatch ht, fun hpc _ => hjudged hpc⟩

/-- What is hit at the call on this path has had its grace time. -/
theorem Covered.wedged {w : World} (h : Covered w) (hpc : w.watch.pc = .restarting .wedged)
    (hinvoked : w.invoked = false) {t : Nat} (ht : w.running = some t) : t + graceSeconds ≤ w.now := by
  have hcover := h.cover t ht
  simp only [armsNext, hpc, hinvoked, Bool.false_or, decide_eq_true_eq, reduceCtorEq, false_or] at hcover
  exact hcover.elim (fun hdeadline => Nat.le_trans hdeadline (h.judged hpc hinvoked)) id

theorem undisturbed_step {disableStreamer : Bool} {w w' : World} {e : Event} (h : Undisturbed w.calls)
    (hcovered : Covered w) (hstep : w.step disableStreamer e = some w') : Undisturbed w'.calls := by
  cases e with
  | tick | kill | raise | lower =>
    cases hstep
    exact h
  | launch =>
    cases step_launch hstep
    exact h
  | invoke =>
    obtain ⟨path, hpc, hinvoked, rfl⟩ := step_invoke hstep
    refine List.forall_mem_cons.mpr ⟨fun haction t ht => ?_, h⟩
    cases haction
    exact hcovered.wedged hpc hinvoked ht
  | read o =>
    obtain ⟨-, watch, -, rfl⟩ := step_read hstep
    simp only [advance]
    split
    · exact List.forall_mem_cons.mpr ⟨(nomatch ·), h⟩
    · exact h

structure Gentle (w : World) : Prop where
  covered : Covered w
  undisturbed : Undisturbed w.calls

theorem gentle_init : Gentle init := ⟨covered_init, fun _ hc => absurd hc List.not_mem_nil⟩

theorem gentle_step {disableStreamer : Bool} {w w' : World} {e : Event} (h : Gentle w) (hok : w.noticed e = true)
    (hstep : w.step disableStreamer e = some w') : Gentle w' :=
  ⟨covered_step h.covered hok hstep, undisturbed_step h.undisturbed h.covered hstep⟩

end World

/-- **A bootstrapping `prudynt` is left alone** in every run in which each launch is noticed. -/
theorem undisturbed_of_noticed {disableStreamer : Bool} {w : World}
    (h : Reach (World.step disableStreamer) (fun w e => w.noticed e = true) World.init w) : Undisturbed w.calls := by
  have hgentle : w.Gentle := Reach.invariant World.gentle_init (fun _ _ _ hw hok hstep => World.gentle_step hw hok hstep) h
  exact hgentle.undisturbed

/-- The rest of the pause, and a cycle that finds `prudynt` alive and not serving; the probe takes
30 seconds. -/
def wedgedCycle (pause now : Nat) : List Event :=
  [.tick pause, .read (.disabled false), .read (.live true), .tick 30, .read (.probe false), .read (.uptime (some now))]

/-- At boot `prudynt` gets its 200 seconds, and is restarted when it does not serve by then. -/
theorem undisturbed_at_boot :
    ∃ w, Reach (World.step false) (fun w e => w.noticed e = true) World.init w ∧
      w.calls = [⟨.restart .wedged, 340, some 10, false⟩] ∧ Undisturbed w.calls := by
  have hrun : ∃ w, Reach (World.step false) (fun w e => w.noticed e = true) World.init w ∧
      w.calls = [⟨.restart .wedged, 340, some 10, false⟩] :=
    exists_reach ([.tick 10, .launch, .read (.live true), .tick 30, .read (.probe false), .read (.uptime (some 40)),
      .read (.live true)] ++ wedgedCycle 0 70 ++ wedgedCycle 60 160 ++ wedgedCycle 60 250 ++ wedgedCycle 60 340 ++
      [.invoke]) (by decide)
  obtain ⟨w, hw, hcalls⟩ := hrun
  exact ⟨w, hw, hcalls, undisturbed_of_noticed hw⟩

/-- `prudynt` has served for minutes. In the pause between two cycles it is restarted from
outside and gone for 20 seconds; the loop takes the new process for the old one and restarts it
140 seconds after its launch. -/
theorem outside_restart_disturbed :
    ∃ w, Reach (World.step false) (fun _ _ => True) World.init w ∧ ¬Undisturbed w.calls := by
  have hrun : ∃ w, Reach (World.step false) (fun _ _ => True) World.init w ∧
      w.calls = [⟨.restart .wedged, 480, some 340, false⟩] :=
    exists_reach ([.tick 10, .launch, .tick 290, .read (.live true), .read (.probe true), .read (.live true),
      .read (.disabled false), .read (.live true), .read (.probe true), .tick 20, .kill, .tick 20, .launch] ++
      wedgedCycle 20 390 ++ wedgedCycle 60 480 ++ [.invoke]) (by decide)
  obtain ⟨w, hw, hcalls⟩ := hrun
  refine ⟨w, hw, fun h => ?_⟩
  rw [hcalls] at h
  exact absurd (h _ (List.mem_singleton.mpr rfl) rfl 340 rfl) (by decide)

/-! ### The kill switch -/

/-- **The property.** The flag was not there when the loop last looked at `prudynt`. -/
def Unflagged (calls : List Call) : Prop := ∀ c ∈ calls, c.flagSeen = false

namespace World

/-- The loop has passed the kill switch in this cycle and looks at `prudynt` once more. -/
def looksAgain : Pc → Bool
  | .leaveArm | .leaveLast | .sample | .newArm | .confirm _ _ | .reappearArm | .probe => true
  | .seedLive | .seedProbe | .seedArm | .seedLast | .head | .grace | .restarting _ | .restartArm | .parked => false

/-- The portal does not raise its flag between the test of the kill switch and the last look. -/
def heeded (w : World) : Event → Bool
  | .raise => !looksAgain w.watch.pc
  | _ => true

/-- The flag is down up to the last look, and what was seen there stays. -/
def FlagAt (w : World) : Pc → Prop
  | .leaveArm | .leaveLast | .sample | .newArm | .confirm _ _ | .reappearArm | .probe => w.flag = false
  | .grace | .restarting _ | .restartArm => w.flagSeen = false
  | .seedLive | .seedProbe | .seedArm | .seedLast | .head | .parked => True

theorem flagAt_read {disableStreamer : Bool} {w : World} {o : Obs} {watch : Watch} (h : FlagAt w w.watch.pc)
    (hanswers : w.answers disableStreamer o = true) (hstep : w.watch.step o = some watch) :
    FlagAt (w.advance o watch) watch.pc := by
  unfold Watch.step at hstep
  split at hstep
  case h_16 => cases hstep
  all_goals
    rename_i hpc
    rw [hpc] at h
    cases hstep
  case h_3 | h_4 => trivial
  case h_1 alive => cases alive <;> trivial
  case h_2 serving => cases serving <;> trivial
  case h_5 on =>
    cases on with
    | true => trivial
    | false =>
      have hflag : w.flag = false := by
        rw [answers, beq_iff_eq, eq_comm, Bool.or_eq_false_iff] at hanswers
        exact hanswers.2
      unfold Watch.onHead
      cases w.watch.wasDisabled <;> exact hflag
  case h_6 | h_7 | h_9 | h_11 => exact h
  case h_8 alive =>
    unfold Watch.onSample
    cases alive <;> cases w.watch.lastLive <;> exact h
  case h_10 waited polls alive =>
    unfold Watch.onPoll
    cases alive with
    | true => exact h
    | false =>
      rw [if_neg Bool.false_ne_true]
      split <;> exact h
  case h_12 serving =>
    cases serving with
    | true => trivial
    | false => exact h
  case h_13 now =>
    unfold Watch.onGrace
    split
    · trivial
    · dsimp only
      split
      · trivial
      · exact h
  case h_14 path ok =>
    cases ok with
    | true => exact h
    | false =>
      simp only [Watch.onExit, Bool.false_eq_true, if_false, Watch.afterRestart]
      split <;> trivial
  case h_15 now =>
    unfold Watch.afterRestart
    split <;> trivial

/-- Only the end of a restart leads to the reboot, and no look lies between. -/
theorem flagSeen_parked {w : World} {o : Obs} {watch : Watch} (h : FlagAt w w.watch.pc)
    (hstep : w.watch.step o = some watch) (hparked : watch.pc = .parked) : w.flagSeen = false := by
  obtain ⟨now, -, -, rfl⟩ | ⟨path, ok, -, hpc, -⟩ | ⟨now, -, hpc, -⟩ := step_acts hstep (.inr hparked)
  · obtain hpc | hpc := w.watch.onGrace_pc now <;> cases hpc.symm.trans hparked
  · rw [hpc] at h
    exact h
  · rw [hpc] at h
    exact h

structure Heeds (w : World) : Prop where
  flag : FlagAt w w.watch.pc
  unflagged : Unflagged w.calls

theorem heeds_init : Heeds init := ⟨trivial, fun _ hc => absurd hc List.not_mem_nil⟩

/-- Outside of the window the flag may be raised. -/
theorem flagAt_raise {w : World} (h : FlagAt w w.watch.pc) (hok : looksAgain w.watch.pc = false) :
    FlagAt { w with flag := true } w.watch.pc := by
  generalize w.watch.pc = pc at h hok
  cases pc with
  | leaveArm | leaveLast | sample | newArm | confirm | reappearArm | probe => cases hok
  | grace | restarting | restartArm => exact h
  | seedLive | seedProbe | seedArm | seedLast | head | parked => trivial

theorem flagAt_lower {w : World} (h : FlagAt w w.watch.pc) : FlagAt { w with flag := false } w.watch.pc := by
  generalize w.watch.pc = pc at h
  cases pc with
  | leaveArm | leaveLast | sample | newArm | confirm | reappearArm | probe => rfl
  | grace | restarting | restartArm => exact h
  | seedLive | seedProbe | seedArm | seedLast | head | parked => trivial

theorem heeds_step {disableStreamer : Bool} {w w' : World} {e : Event} (h : Heeds w) (hok : w.heeded e = true)
    (hstep : w.step disableStreamer e = some w') : Heeds w' := by
  obtain ⟨hflag, hcalls⟩ := h
  cases e with
  | tick | kill =>
    cases hstep
    exact ⟨hflag, hcalls⟩
  | launch =>
    cases step_launch hstep
    exact ⟨hflag, hcalls⟩
  | raise =>
    cases hstep
    exact ⟨flagAt_raise hflag (Bool.not_eq_true' _ ▸ hok), hcalls⟩
  | lower =>
    cases hstep
    exact ⟨flagAt_lower hflag, hcalls⟩
  | invoke =>
    obtain ⟨path, hpc, -, rfl⟩ := step_invoke hstep
    refine ⟨hflag, List.forall_mem_cons.mpr ⟨?_, hcalls⟩⟩
    rw [hpc] at hflag
    exact hflag
  | read o =>
    obtain ⟨hanswers, watch, hwatch, rfl⟩ := step_read hstep
    refine ⟨flagAt_read hflag hanswers hwatch, ?_⟩
    simp only [advance]
    split
    · rename_i hparked
      exact List.forall_mem_cons.mpr ⟨flagSeen_parked hflag hwatch hparked, hcalls⟩
    · exact hcalls

end World

/-- **The kill switch is honoured** in every run in which the flag is not raised in the window. -/
theorem unflagged_of_heeded {disableStreamer : Bool} {w : World}
    (h : Reach (World.step disableStreamer) (fun w e => w.heeded e = true) World.init w) : Unflagged w.calls := by
  have hheeds : w.Heeds := Reach.invariant World.heeds_init (fun _ _ _ hw hok hstep => World.heeds_step hw hok hstep) h
  exact hheeds.unflagged

/-- The loop finds `prudynt` gone and polls for the 25 seconds of the confirmation window. -/
def confirmation : List Event :=
  .read (.live false) :: .read (.live false) :: (List.replicate 5 [.tick 5, .read (.live false)]).flatten

/-- A crash with the portal closed, and the portal opening while `S31prudynt` is at work. -/
theorem unflagged_crash :
    ∃ w, Reach (World.step false) (fun w e => w.heeded e = true) World.init w ∧
      w.calls = [⟨.restart .gone, 25, none, false⟩] ∧ w.flag = true ∧ Unflagged w.calls := by
  have hrun : ∃ w, Reach (World.step false) (fun w e => w.heeded e = true) World.init w ∧
      (w.calls = [⟨.restart .gone, 25, none, false⟩] ∧ w.flag = true) :=
    exists_reach ([.read (.live false), .read (.uptime (some 0)), .read (.live false), .read (.disabled false)] ++
      confirmation ++ [.invoke, .raise]) (by decide)
  obtain ⟨w, hw, hcalls, hflag⟩ := hrun
  exact ⟨w, hw, hcalls, hflag, unflagged_of_heeded hw⟩

/-- The portal stops `prudynt` and raises its flag right after the loop has passed the kill
switch: the loop polls for 25 seconds beside the flag, and starts `prudynt` again. -/
theorem portal_overridden :
    ∃ w, Reach (World.step false) (fun _ _ => True) World.init w ∧ ¬Unflagged w.calls := by
  have hrun : ∃ w, Reach (World.step false) (fun _ _ => True) World.init w ∧
      w.calls = [⟨.restart .gone, 325, none, true⟩] :=
    exists_reach ([.tick 10, .launch, .tick 290, .read (.live true), .read (.probe true), .read (.live true),
      .read (.disabled false), .kill, .raise] ++ confirmation ++ [.invoke]) (by decide)
  obtain ⟨w, hw, hcalls⟩ := hrun
  refine ⟨w, hw, fun h => ?_⟩
  rw [hcalls] at h
  exact Bool.noConfusion (h _ (List.mem_singleton.mpr rfl))

end Thingino.Watchdog
