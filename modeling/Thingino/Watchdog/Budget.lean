import Thingino.Watchdog.Watch

/-! The reboot budget of the watchdog.

`RESTART_COUNT` counts the restarts since the last sustained recovery. On the log this is a
function of the past (`warranted`): the loop keeps four counters and a flag in step with it
through every exit of its body. A reboot follows a restart just if the budget is used up, and
a restart follows a whole confirmation window or enough bad cycles in a row. -/
namespace Thingino.Watchdog
open Lib

/-! ### What the log says -/

/-- Serving cycles since the last cycle that did not serve, restart or disabled window. -/
def streak : List Mark → Nat
  | .serving :: log => streak log + 1
  | .gone _ :: log => streak log
  | .notServing _ _ :: _ | .restart _ :: _ | .disabled :: _ | .reboot :: _ | [] => 0

/-- A sustained recovery has just been counted. -/
def Healthy (log : List Mark) : Prop := healthyStreakLimit ≤ streak log

instance (log : List Mark) : Decidable (Healthy log) := inferInstanceAs (Decidable (_ ≤ _))

def Mark.isRestart : Mark → Bool
  | .restart _ => true
  | _ => false

/-- The restarts since the last sustained recovery. -/
def warranted : List Mark → Nat
  | [] => 0
  | m :: log => if Healthy (m :: log) then 0 else (if m.isRestart then 1 else 0) + warranted log

/-- Some restart is the `n`-th last, and since then there was no sustained recovery. -/
def Unrecovered (n : Nat) (log : List Mark) : Prop :=
  ∃ recent ok old, log = recent ++ .restart ok :: old ∧ recent.countP Mark.isRestart + 1 = n ∧
    ∀ a b, recent = a ++ b → ¬Healthy (b ++ .restart ok :: old)

/-- The newest entry is a restart, the last of `RESTART_LIMIT` without sustained recovery. -/
def Exhausted (log : List Mark) : Prop :=
  (∃ ok old, log = .restart ok :: old) ∧ Unrecovered restartLimit log

/-- The confirmation window in front of a restart ran to its end, and every poll of it read
that the process is absent. -/
def ConfirmedGone (log : List Mark) : Prop :=
  ∃ old, log = .gone (List.replicate (goneConfirmBudget / goneConfirmDelay + 1) false) :: old

/-- The last cycles were alive, not serving and past grace, and a new incarnation was seen in
none of them, except perhaps in the first. -/
def Wedged (log : List Mark) : Prop :=
  ∃ fresh old, log = List.replicate (downStreakLimit - 1) (.notServing false true) ++ .notServing fresh true :: old

/-! ### Counting restarts -/

theorem not_healthy_of_streak {log : List Mark} (h : streak log = 0) : ¬Healthy log := by
  intro hhealthy
  rw [Healthy, h] at hhealthy
  exact absurd hhealthy (by decide)

theorem warranted_cons (m : Mark) (log : List Mark) :
    warranted (m :: log) = if Healthy (m :: log) then 0 else (if m.isRestart then 1 else 0) + warranted log := rfl

/-- One more entry without a recovery at it. -/
theorem not_healthy_splits {m : Mark} {log recent old : List Mark} {ok : Bool} (hno : ¬Healthy (m :: log))
    (hlog : log = recent ++ .restart ok :: old)
    (hrest : ∀ a b, recent = a ++ b → ¬Healthy (b ++ .restart ok :: old)) :
    ∀ a b, m :: recent = a ++ b → ¬Healthy (b ++ .restart ok :: old) := by
  intro a b hab
  cases a with
  | nil =>
    rw [← (show m :: recent = b from hab), List.cons_append, ← hlog]
    exact hno
  | cons x a => exact hrest a b (List.cons.inj hab).2

theorem unrecovered_cons (n : Nat) (m : Mark) (log : List Mark) :
    Unrecovered (n + 1) (m :: log) ↔
      ¬Healthy (m :: log) ∧
        if m.isRestart then n = 0 ∨ Unrecovered n log else Unrecovered (n + 1) log := by
  constructor
  · rintro ⟨recent, ok, old, hlog, hcount, hno⟩
    refine ⟨hlog ▸ hno [] recent rfl, ?_⟩
    cases recent with
    | nil =>
      obtain ⟨rfl, rfl⟩ := List.cons.inj hlog
      exact .inl (Nat.succ.inj hcount).symm
    | cons x recent =>
      obtain ⟨rfl, rfl⟩ := List.cons.inj hlog
      have hrest : ∀ a b, recent = a ++ b → ¬Healthy (b ++ .restart ok :: old) := fun a b hab =>
        hno (m :: a) b (by rw [hab, List.cons_append])
      split
      · rename_i hrestart
        rw [List.countP_cons_of_pos hrestart] at hcount
        exact .inr ⟨recent, ok, old, rfl, Nat.succ.inj hcount, hrest⟩
      · rename_i hother
        rw [List.countP_cons_of_neg hother] at hcount
        exact ⟨recent, ok, old, rfl, hcount, hrest⟩
  · rintro ⟨hno, h⟩
    split at h
    · rename_i hrestart
      obtain rfl | ⟨recent, ok, old, hlog, hcount, hrest⟩ := h
      · cases m with
        | restart ok =>
          refine ⟨[], ok, log, rfl, rfl, fun a b hab => ?_⟩
          rw [(List.append_eq_nil_iff.mp hab.symm).2]
          exact hno
        | disabled | serving | notServing | gone | reboot => cases hrestart
      · refine ⟨m :: recent, ok, old, by rw [hlog]; rfl, ?_, not_healthy_splits hno hlog hrest⟩
        rw [List.countP_cons_of_pos hrestart, hcount]
    · rename_i hother
      obtain ⟨recent, ok, old, hlog, hcount, hrest⟩ := h
      refine ⟨m :: recent, ok, old, by rw [hlog]; rfl, ?_, not_healthy_splits hno hlog hrest⟩
      rw [List.countP_cons_of_neg hother, hcount]

/-- `warranted` counts what it should. -/
theorem unrecovered_iff (n : Nat) (log : List Mark) : Unrecovered (n + 1) log ↔ n + 1 ≤ warranted log := by
  induction log generalizing n with
  | nil =>
    refine iff_of_false ?_ (Nat.not_succ_le_zero n)
    rintro ⟨recent, ok, old, hlog, -, -⟩
    exact absurd hlog.symm (List.append_ne_nil_of_right_ne_nil _ (List.cons_ne_nil _ _))
  | cons m log ih =>
    rw [unrecovered_cons, warranted_cons]
    by_cases hhealthy : Healthy (m :: log)
    · simp [hhealthy]
    · rw [if_neg hhealthy]
      by_cases hrestart : m.isRestart = true
      · cases n with
        | zero => simp [hhealthy, hrestart]
        | succ n =>
          simp only [hhealthy, hrestart, ih n, not_false_eq_true, true_and, if_true, Nat.succ_ne_zero, false_or]
          omega
      · simp [hhealthy, hrestart, ih n]

/-- The budget is used up when the newest entry is a restart and the count reaches the limit. -/
theorem exhausted_iff (log : List Mark) :
    Exhausted log ↔ (∃ ok old, log = .restart ok :: old) ∧ restartLimit ≤ warranted log :=
  and_congr_right fun _ => unrecovered_iff 2 log

theorem warranted_of_streak {m : Mark} {log : List Mark} (h : streak (m :: log) = 0) :
    warranted (m :: log) = (if m.isRestart then 1 else 0) + warranted log := by
  rw [warranted_cons, if_neg (not_healthy_of_streak h)]

@[simp] theorem warranted_disabled (log : List Mark) : warranted (.disabled :: log) = warranted log :=
  (warranted_of_streak rfl).trans (Nat.zero_add _)

@[simp] theorem warranted_notServing (fresh past : Bool) (log : List Mark) :
    warranted (.notServing fresh past :: log) = warranted log :=
  (warranted_of_streak rfl).trans (Nat.zero_add _)

@[simp] theorem warranted_restart (ok : Bool) (log : List Mark) :
    warranted (.restart ok :: log) = warranted log + 1 :=
  (warranted_of_streak rfl).trans (Nat.add_comm _ _)

@[simp] theorem warranted_reboot (log : List Mark) : warranted (.reboot :: log) = warranted log :=
  (warranted_of_streak rfl).trans (Nat.zero_add _)

@[simp] theorem warranted_serving (log : List Mark) :
    warranted (.serving :: log) = if healthyStreakLimit ≤ streak log + 1 then 0 else warranted log := by
  rw [warranted_cons]
  split
  · rename_i h
    exact (if_pos h).symm
  · rename_i h
    exact (Nat.zero_add _).trans (if_neg h).symm

/-- A confirmation window changes nothing: a recovery in front of it has been counted already. -/
@[simp] theorem warranted_gone (polls : List Bool) (log : List Mark) :
    warranted (.gone polls :: log) = warranted log := by
  have hsame : Healthy (.gone polls :: log) ↔ Healthy log := Iff.rfl
  rw [warranted_cons]
  by_cases h : Healthy log
  · rw [if_pos (hsame.mpr h)]
    cases log with
    | nil => rfl
    | cons m log => rw [warranted_cons, if_pos h]
  · rw [if_neg fun h' => h (hsame.mp h')]
    exact Nat.zero_add _

/-! ### The counters and the log -/

/-- The budget is not used up, and the last disabled window has been dealt with. -/
structure Steady (w : Watch) : Prop where
  below : w.restartCount < restartLimit
  enabled : w.wasDisabled = false

/-- The streak is that of the log; it may be ahead of it before the first restart. -/
def StreakKept (w : Watch) : Prop := w.healthyStreak = streak w.log ∨ warranted w.log = 0

/-- What is known where the script reads something. In a disabled window and between a failed
probe and the test of the grace the streak is about to be corrected. -/
def CountedAt (w : Watch) : Pc → Prop
  | .seedLive | .seedProbe => Steady w ∧ w.log = []
  | .head => w.restartCount < restartLimit ∧ if w.wasDisabled then streak w.log = 0 else StreakKept w
  | .leaveArm => Steady w ∧ streak w.log = 0
  | .grace => Steady w ∧ w.healthyStreak = 0
  | .restartArm => w.wasDisabled = false ∧ StreakKept w
  | .parked => True
  | .seedArm | .seedLast | .leaveLast | .sample | .newArm | .confirm _ _ | .reappearArm | .probe | .restarting _ =>
    Steady w ∧ StreakKept w

structure Counted (w : Watch) : Prop where
  count : w.restartCount = warranted w.log
  at' : CountedAt w w.pc

theorem counted_init : Counted .init := ⟨rfl, ⟨by decide, rfl⟩, rfl⟩

theorem streakKept_or {w : Watch} (henabled : w.wasDisabled = false) (hstreak : StreakKept w) :
    if w.wasDisabled then streak w.log = 0 else StreakKept w := by
  rw [henabled]
  exact hstreak

/-- The end of `do_restart`: the count is checked. -/
theorem counted_afterRestart {w : Watch} (hcount : w.restartCount = warranted w.log) (henabled : w.wasDisabled = false)
    (hstreak : StreakKept w) : Counted w.afterRestart := by
  unfold Watch.afterRestart
  split
  · exact ⟨hcount.trans (warranted_reboot _).symm, trivial⟩
  · rename_i hlimit
    exact ⟨hcount, Nat.not_le.mp hlimit, streakKept_or henabled hstreak⟩

theorem counted_onExit {w : Watch} (hcount : w.restartCount = warranted w.log) (hw : Steady w) (ok : Bool) :
    Counted (w.onExit ok) := by
  have hcount' : w.restartCount + 1 = warranted (.restart ok :: w.log) := by rw [warranted_restart, hcount]
  unfold Watch.onExit
  cases ok with
  | true => exact ⟨hcount', hw.enabled, .inl rfl⟩
  | false => exact counted_afterRestart hcount' hw.enabled (.inl rfl)

theorem counted_onSeed {w : Watch} (hcount : w.restartCount = warranted w.log) (hw : Steady w) (hlog : w.log = [])
    (serving : Bool) : Counted (w.onSeed serving) := by
  have hzero : warranted w.log = 0 := by rw [hlog]; rfl
  cases serving with
  | true => exact ⟨hcount, ⟨hw.below, hw.enabled⟩, .inr hzero⟩
  | false => exact ⟨hcount, ⟨hw.below, hw.enabled⟩, .inr hzero⟩

theorem counted_onHead {w : Watch} (hcount : w.restartCount = warranted w.log) (hbelow : w.restartCount < restartLimit)
    (hstreak : if w.wasDisabled then streak w.log = 0 else StreakKept w) (on : Bool) : Counted (w.onHead on) := by
  cases on with
  | true => exact ⟨hcount.trans (warranted_disabled _).symm, hbelow, rfl⟩
  | false =>
    refine ⟨hcount, ?_⟩
    cases hd : w.wasDisabled with
    | true =>
      rw [hd] at hstreak
      simp only [Watch.onHead, hd]
      exact ⟨⟨hbelow, rfl⟩, hstreak⟩
    | false =>
      rw [hd] at hstreak
      simp only [Watch.onHead, hd]
      exact ⟨⟨hbelow, rfl⟩, hstreak⟩

theorem counted_onSample {w : Watch} (hcount : w.restartCount = warranted w.log) (hw : Steady w) (hstreak : StreakKept w)
    (alive : Bool) : Counted (w.onSample alive) := by
  cases alive with
  | true =>
    refine ⟨hcount, ?_⟩
    cases hlive : w.lastLive with
    | true | false =>
      simp only [Watch.onSample, hlive]
      exact ⟨⟨hw.below, hw.enabled⟩, hstreak⟩
  | false => exact ⟨hcount, ⟨hw.below, hw.enabled⟩, hstreak⟩

theorem counted_onPoll {w : Watch} (hcount : w.restartCount = warranted w.log) (hw : Steady w) (hstreak : StreakKept w)
    (waited : Nat) (polls : List Bool) (alive : Bool) : Counted (w.onPoll waited polls alive) := by
  unfold Watch.onPoll
  split
  · exact ⟨hcount, ⟨hw.below, hw.enabled⟩, hstreak⟩
  · split
    · exact ⟨hcount, ⟨hw.below, hw.enabled⟩, hstreak⟩
    · refine ⟨hcount.trans (warranted_gone _ _).symm, ⟨hw.below, hw.enabled⟩, ?_⟩
      exact hstreak.imp id fun hzero => (warranted_gone _ _).trans hzero

theorem counted_onProbe {w : Watch} (hcount : w.restartCount = warranted w.log) (hw : Steady w) (hstreak : StreakKept w)
    (serving : Bool) : Counted (w.onProbe serving) := by
  cases serving with
  | true =>
    have hcount' : (if healthyStreakLimit ≤ w.healthyStreak + 1 then 0 else w.restartCount) =
        warranted (.serving :: w.log) := by
      rw [warranted_serving, hcount]
      obtain hsame | hzero := hstreak
      · rw [hsame]
      · rw [hzero, ite_self, ite_self]
    refine ⟨hcount', ?_, streakKept_or hw.enabled ?_⟩
    · show (if healthyStreakLimit ≤ w.healthyStreak + 1 then 0 else w.restartCount) < restartLimit
      split
      · decide
      · exact hw.below
    · obtain hsame | hzero := hstreak
      · exact .inl (congrArg Nat.succ hsame)
      · exact .inr ((warranted_serving w.log).trans (by rw [hzero, ite_self]))
  | false => exact ⟨hcount, ⟨hw.below, hw.enabled⟩, rfl⟩

theorem counted_onGrace {w : Watch} (hcount : w.restartCount = warranted w.log) (hw : Steady w)
    (hfailed : w.healthyStreak = 0) (now : Option Nat) : Counted (w.onGrace now) := by
  have hcount' (past : Bool) : w.restartCount = warranted (.notServing w.fresh past :: w.log) :=
    hcount.trans (warranted_notServing _ _ _).symm
  unfold Watch.onGrace
  split
  · exact ⟨hcount' false, hw.below, streakKept_or hw.enabled (.inl hfailed)⟩
  · refine ⟨hcount' true, ?_⟩
    by_cases hdown : w.downStreak + 1 < downStreakLimit
    · simp only [if_pos hdown]
      exact ⟨hw.below, streakKept_or hw.enabled (.inl hfailed)⟩
    · simp only [if_neg hdown]
      exact ⟨⟨hw.below, hw.enabled⟩, .inl hfailed⟩

theorem counted_step {w w' : Watch} {o : Obs} (h : Counted w) (hstep : w.step o = some w') : Counted w' := by
  obtain ⟨hcount, hat⟩ := h
  unfold Watch.step at hstep
  split at hstep
  case h_16 => cases hstep
  all_goals
    rename_i hpc
    rw [hpc] at hat
    cases hstep
  case h_1 alive =>
    obtain ⟨⟨hbelow, henabled⟩, hlog⟩ := hat
    cases alive with
    | true => exact ⟨hcount, ⟨hbelow, henabled⟩, hlog⟩
    | false => exact ⟨hcount, ⟨hbelow, henabled⟩, .inr (by rw [hlog]; rfl)⟩
  case h_2 serving => exact counted_onSeed hcount hat.1 hat.2 serving
  case h_3 | h_7 | h_9 | h_11 => exact ⟨hcount, ⟨hat.1.below, hat.1.enabled⟩, hat.2⟩
  case h_4 => exact ⟨hcount, hat.1.below, streakKept_or hat.1.enabled hat.2⟩
  case h_5 on => exact counted_onHead hcount hat.1 hat.2 on
  case h_6 => exact ⟨hcount, ⟨hat.1.below, hat.1.enabled⟩, .inl hat.2.symm⟩
  case h_8 alive => exact counted_onSample hcount hat.1 hat.2 alive
  case h_10 waited polls alive => exact counted_onPoll hcount hat.1 hat.2 waited polls alive
  case h_12 serving => exact counted_onProbe hcount hat.1 hat.2 serving
  case h_13 now => exact counted_onGrace hcount hat.1 hat.2 now
  case h_14 ok => exact counted_onExit hcount hat.1 ok
  case h_15 now => exact counted_afterRestart (w := w.armGrace now) hcount hat.1 hat.2

/-! ### What a restart rests on -/

/-- `DOWN_STREAK` bad cycles are the newest entries of the log. -/
def DownRun (w : Watch) : Prop :=
  w.downStreak < downStreakLimit ∧
    (w.downStreak = 0 ∨
      ∃ fresh old, w.log = List.replicate (w.downStreak - 1) (.notServing false true) ++ .notServing fresh true :: old)

/-- The polls of a confirmation window so far. -/
structure Polled (waited : Nat) (polls : List Bool) : Prop where
  absent : polls = List.replicate polls.length false
  spaced : waited = goneConfirmDelay * polls.length
  within : waited ≤ goneConfirmBudget

def PacedAt (w : Watch) : Pc → Prop
  | .seedLive | .seedProbe | .seedArm | .seedLast => w.downStreak = 0
  | .head => w.wasDisabled = false → DownRun w
  | .leaveArm => w.fresh = false
  | .leaveLast | .sample | .newArm | .reappearArm => DownRun w ∧ w.fresh = false
  | .confirm waited polls => DownRun w ∧ w.fresh = false ∧ Polled waited polls
  | .probe | .grace => DownRun w ∧ (w.fresh = true → w.downStreak = 0)
  | .restarting .gone => ConfirmedGone w.log
  | .restarting .wedged => Wedged w.log
  | .restartArm => w.downStreak = 0 ∧ ∃ ok old, w.log = .restart ok :: old
  | .parked => ∃ old, w.log = .reboot :: old

theorem downRun_zero {w : Watch} (h : w.downStreak = 0) : DownRun w := ⟨by rw [h]; decide, .inl h⟩

theorem paced_afterRestart {w : Watch} (h : w.downStreak = 0) : PacedAt w.afterRestart w.afterRestart.pc := by
  unfold Watch.afterRestart
  split
  · exact ⟨_, rfl⟩
  · exact fun _ => downRun_zero h

theorem paced_onHead {w : Watch} (h : w.wasDisabled = false → DownRun w) (on : Bool) :
    PacedAt (w.onHead on) (w.onHead on).pc := by
  cases on with
  | true => exact fun hd => nomatch hd
  | false =>
    cases hd : w.wasDisabled with
    | true =>
      simp only [Watch.onHead, hd]
      rfl
    | false =>
      simp only [Watch.onHead, hd]
      exact ⟨h hd, rfl⟩

theorem paced_onSample {w : Watch} (h : DownRun w) (hfresh : w.fresh = false) (alive : Bool) :
    PacedAt (w.onSample alive) (w.onSample alive).pc := by
  cases alive with
  | true =>
    cases hlive : w.lastLive with
    | true =>
      simp only [Watch.onSample, hlive]
      exact ⟨h, fun hf => nomatch hfresh.symm.trans hf⟩
    | false =>
      simp only [Watch.onSample, hlive]
      exact ⟨h, hfresh⟩
  | false => exact ⟨h, hfresh, rfl, rfl, Nat.zero_le _⟩

theorem paced_onPoll {w : Watch} {waited : Nat} {polls : List Bool} (h : DownRun w) (hfresh : w.fresh = false)
    (hpolls : Polled waited polls) (alive : Bool) :
    PacedAt (w.onPoll waited polls alive) (w.onPoll waited polls alive).pc := by
  cases alive with
  | true => exact ⟨h, hfresh⟩
  | false =>
    have habsent : false :: polls = List.replicate (polls.length + 1) false := by
      rw [List.replicate_succ, ← hpolls.absent]
    have hwaited := hpolls.spaced
    simp only [Watch.onPoll, Bool.false_eq_true, if_false]
    by_cases hmore : waited < goneConfirmBudget
    · rw [if_pos hmore]
      refine ⟨h, hfresh, habsent, ?_, ?_⟩
      · rw [List.length_cons, hwaited]
        rfl
      · simp only [goneConfirmBudget, goneConfirmDelay] at hmore hwaited ⊢
        omega
    · rw [if_neg hmore]
      have hlength : polls.length = goneConfirmBudget / goneConfirmDelay := by
        have := hpolls.within
        simp only [goneConfirmBudget, goneConfirmDelay] at hmore hwaited this ⊢
        omega
      exact ⟨w.log, by rw [habsent, hlength]⟩

/-- One more bad cycle. -/
theorem wedged_run {w : Watch} (h : DownRun w) (hfresh : w.fresh = true → w.downStreak = 0) :
    ∃ fresh old, .notServing w.fresh true :: w.log =
      List.replicate w.downStreak (.notServing false true) ++ .notServing fresh true :: old := by
  obtain hzero | ⟨fresh, old, hlog⟩ := h.2
  · exact ⟨w.fresh, w.log, by rw [hzero]; rfl⟩
  · by_cases hzero : w.downStreak = 0
    · exact ⟨w.fresh, w.log, by rw [hzero]; rfl⟩
    · have hstale : w.fresh = false := Bool.eq_false_iff.mpr fun hf => hzero (hfresh hf)
      obtain ⟨n, hn⟩ := Nat.exists_eq_succ_of_ne_zero hzero
      refine ⟨fresh, old, ?_⟩
      rw [hstale, hlog, hn]
      rfl

theorem paced_onGrace {w : Watch} (h : DownRun w) (hfresh : w.fresh = true → w.downStreak = 0) (now : Option Nat) :
    PacedAt (w.onGrace now) (w.onGrace now).pc := by
  unfold Watch.onGrace
  split
  · exact fun _ => downRun_zero rfl
  · obtain ⟨fresh, old, hlog⟩ := wedged_run h hfresh
    by_cases hdown : w.downStreak + 1 < downStreakLimit
    · simp only [if_pos hdown]
      exact fun _ => ⟨hdown, .inr ⟨fresh, old, hlog⟩⟩
    · simp only [if_neg hdown]
      have hfull : w.downStreak = downStreakLimit - 1 := by
        have := h.1
        simp only [downStreakLimit] at hdown this ⊢
        omega
      exact ⟨fresh, old, hfull ▸ hlog⟩

theorem paced_step {w w' : Watch} {o : Obs} (h : PacedAt w w.pc) (hstep : w.step o = some w') : PacedAt w' w'.pc := by
  unfold Watch.step at hstep
  split at hstep
  case h_16 => cases hstep
  all_goals
    rename_i hpc
    rw [hpc] at h
    cases hstep
  case h_1 alive =>
    cases alive with
    | true | false => exact h
  case h_2 serving =>
    cases serving with
    | true | false => exact h
  case h_3 => exact h
  case h_4 => exact fun _ => downRun_zero h
  case h_5 on => exact paced_onHead h on
  case h_6 => exact ⟨downRun_zero rfl, h⟩
  case h_7 => exact h
  case h_8 alive => exact paced_onSample h.1 h.2 alive
  case h_9 | h_11 => exact ⟨downRun_zero rfl, fun _ => rfl⟩
  case h_10 alive => exact paced_onPoll h.1 h.2.1 h.2.2 alive
  case h_12 serving =>
    cases serving with
    | true => exact fun _ => downRun_zero rfl
    | false => exact h
  case h_13 now => exact paced_onGrace h.1 h.2 now
  case h_14 ok =>
    cases ok with
    | true => exact ⟨rfl, _, _, rfl⟩
    | false => exact paced_afterRestart rfl
  case h_15 now => exact paced_afterRestart (w := w.armGrace now) h.1

/-! ### The history -/

/-- An entry is justified by the log before it: a reboot stands where the budget is used up
and nowhere else, a restart behind a confirmation window or enough bad cycles. -/
structure Justified (m : Mark) (log : List Mark) : Prop where
  reboot : m = .reboot ↔ Exhausted log
  restart : m.isRestart → ConfirmedGone log ∨ Wedged log

def History (log : List Mark) : Prop := ∀ m old, m :: old <:+ log → Justified m old

theorem History.cons {m : Mark} {log : List Mark} (h : History log) (hm : Justified m log) : History (m :: log) := by
  intro m' old hsuffix
  obtain heq | hsuffix := List.suffix_cons_iff.mp hsuffix
  · obtain ⟨rfl, rfl⟩ := List.cons.inj heq
    exact hm
  · exact h m' old hsuffix

theorem not_exhausted {w : Watch} (hcount : w.restartCount = warranted w.log) (hbelow : w.restartCount < restartLimit) :
    ¬Exhausted w.log := fun h => by
  have := ((exhausted_iff _).mp h).2
  omega

/-- An entry that is neither a restart nor a reboot needs no more than a budget that is left. -/
theorem justified_plain {m : Mark} {w : Watch} (hcount : w.restartCount = warranted w.log)
    (hbelow : w.restartCount < restartLimit) (hreboot : m ≠ .reboot) (hrestart : m.isRestart = false) :
    Justified m w.log :=
  ⟨iff_of_false hreboot (not_exhausted hcount hbelow), fun h => nomatch hrestart.symm.trans h⟩

theorem history_afterRestart {w : Watch} (h : History w.log) (hcount : w.restartCount = warranted w.log)
    (hlast : ∃ ok old, w.log = .restart ok :: old) : History w.afterRestart.log := by
  unfold Watch.afterRestart
  split
  · rename_i hlimit
    exact h.cons ⟨iff_of_true rfl ((exhausted_iff _).mpr ⟨hlast, hcount ▸ hlimit⟩), fun h => nomatch h⟩
  · exact h

theorem history_onExit {w : Watch} (h : History w.log) (hcount : w.restartCount = warranted w.log)
    (hbelow : w.restartCount < restartLimit) (hcause : ConfirmedGone w.log ∨ Wedged w.log) (ok : Bool) :
    History (w.onExit ok).log := by
  have hrestart : History (.restart ok :: w.log) :=
    h.cons ⟨iff_of_false (fun heq => nomatch heq) (not_exhausted hcount hbelow), fun _ => hcause⟩
  cases ok with
  | true => exact hrestart
  | false => exact history_afterRestart hrestart (by rw [warranted_restart, ← hcount]) ⟨_, _, rfl⟩

theorem history_step {w w' : Watch} {o : Obs} (h : History w.log) (hcounted : Counted w) (hpaced : PacedAt w w.pc)
    (hstep : w.step o = some w') : History w'.log := by
  obtain ⟨hcount, hat⟩ := hcounted
  unfold Watch.step at hstep
  split at hstep
  case h_16 => cases hstep
  all_goals
    rename_i hpc
    rw [hpc] at hat hpaced
    cases hstep
  case h_1 | h_3 | h_4 | h_6 | h_7 | h_9 | h_11 => exact h
  case h_2 serving => cases serving <;> exact h
  case h_5 on =>
    cases on with
    | true => exact h.cons (justified_plain hcount hat.1 (fun heq => nomatch heq) rfl)
    | false => exact h
  case h_8 alive => cases alive <;> exact h
  case h_10 waited polls alive =>
    unfold Watch.onPoll
    split
    · exact h
    · split
      · exact h
      · exact h.cons (justified_plain hcount hat.1.below (fun heq => nomatch heq) rfl)
  case h_12 serving =>
    cases serving with
    | true => exact h.cons (justified_plain hcount hat.1.below (fun heq => nomatch heq) rfl)
    | false => exact h
  case h_13 now =>
    unfold Watch.onGrace
    split <;> exact h.cons (justified_plain hcount hat.1.below (fun heq => nomatch heq) rfl)
  case h_14 path ok =>
    refine history_onExit h hcount hat.1.below ?_ ok
    cases path with
    | gone => exact .inl hpaced
    | wedged => exact .inr hpaced
  case h_15 now => exact history_afterRestart (w := w.armGrace now) h hcount hpaced.2

/-! ### All runs -/

/-- The three facts about a state. -/
structure Lawful (w : Watch) : Prop where
  counted : Counted w
  paced : PacedAt w w.pc
  history : History w.log

theorem lawful_init : Lawful .init := by
  have hnil : History [] := fun m old hsuffix => absurd (List.suffix_nil.mp hsuffix) (List.cons_ne_nil _ _)
  exact ⟨counted_init, rfl, hnil⟩

theorem lawful {w : Watch} (h : Watches w) : Lawful w := by
  refine Reach.invariant lawful_init (fun w o w' hw _ hstep => ?_) h
  exact ⟨counted_step hw.counted hstep, paced_step hw.paced hstep, history_step hw.history hw.counted hw.paced hstep⟩

/-- Outside of `do_restart` the log does not end in a used up budget. -/
theorem Lawful.not_exhausted_log {w : Watch} (h : Lawful w) (hpc : w.pc ≠ .restartArm) : ¬Exhausted w.log := by
  obtain ⟨⟨hcount, hat⟩, hpaced, -⟩ := h
  by_cases hparked : w.pc = .parked
  · rw [hparked] at hpaced
    obtain ⟨old, hlog⟩ := hpaced
    rintro ⟨⟨ok, old', hlog'⟩, -⟩
    exact nomatch hlog.symm.trans hlog'
  · refine not_exhausted hcount ?_
    generalize w.pc = pc at hat hpc hparked
    cases pc with
    | restartArm => exact absurd rfl hpc
    | parked => exact absurd rfl hparked
    | head => exact hat.1
    | seedLive | seedProbe | seedArm | seedLast | leaveArm | leaveLast | sample | newArm | confirm | reappearArm
    | probe | grace | restarting => exact hat.1.below

/-- **Reboot budget.** At the loop head the budget is not used up; a reboot follows a restart
just if that restart is the last of `RESTART_LIMIT` without a sustained recovery; and every
restart follows a whole confirmation window that read absent, or `DOWN_STREAK_LIMIT` cycles in
a row that were alive, not serving and past grace, with a new incarnation seen at most in the
first of them. -/
theorem reboot_budget {w : Watch} (h : Watches w) :
    (w.pc = .head → w.restartCount < restartLimit) ∧
      (∀ m log, m :: log <:+ w.log → (m = .reboot ↔ Exhausted log)) ∧
      (w.pc ≠ .restartArm → ¬Exhausted w.log) ∧
      ∀ ok log, .restart ok :: log <:+ w.log → ConfirmedGone log ∨ Wedged log := by
  have hw := lawful h
  refine ⟨fun hpc => ?_, fun m log hsuffix => (hw.history m log hsuffix).reboot, hw.not_exhausted_log,
    fun ok log hsuffix => (hw.history _ log hsuffix).restart rfl⟩
  have hat := hw.counted.at'
  rw [hpc] at hat
  exact hat.1

/-- A cycle that finds the process gone and a restart that fails. -/
def goneCycle : List Obs := .disabled false :: List.replicate 7 (.live false) ++ [.exit false]

/-- Three of them use up the budget. -/
theorem reboot_budget_spent :
    ∃ w, Watches w ∧ w.pc = .parked ∧ (w.log.head? = some .reboot ∧ Exhausted w.log.tail) := by
  have hrun : ∃ w, Watches w ∧ (w.pc = .parked ∧ w.log.head? = some .reboot) :=
    exists_reach ([.live false, .uptime none, .live false] ++ goneCycle ++ goneCycle ++ goneCycle) (by decide)
  obtain ⟨w, hw, hpc, hlast⟩ := hrun
  refine ⟨w, hw, hpc, hlast, ?_⟩
  cases hlog : w.log with
  | nil => rw [hlog] at hlast; cases hlast
  | cons m log =>
    rw [hlog, List.head?_cons, Option.some.injEq] at hlast
    exact ((reboot_budget hw).2.1 m log (hlog ▸ List.suffix_refl _)).mp hlast

/-- The uptime cannot be read when a new incarnation is seen, and can a moment later: the old
deadline is over, and the cycle counts as the first of the two bad ones. -/
theorem fresh_cycle_counts :
    ∃ w, Watches w ∧ ∃ ok log, .restart ok :: log <:+ w.log ∧ ¬ConfirmedGone log ∧
      ¬∃ old, log = List.replicate downStreakLimit (.notServing false true) ++ old := by
  have hrun : ∃ w, Watches w ∧ w.log = [.restart true, .notServing false true, .notServing true true] :=
    exists_reach [.live false, .uptime none, .live false, .disabled false, .live true, .uptime none, .probe false,
      .uptime (some 30), .disabled false, .live true, .probe false, .uptime (some 90), .exit true] (by decide)
  obtain ⟨w, hw, hlog⟩ := hrun
  refine ⟨w, hw, true, [.notServing false true, .notServing true true], ?_, ?_, ?_⟩
  · simp only [hlog, List.suffix_refl]
  · rintro ⟨old, hgone⟩
    cases hgone
  · rintro ⟨old, hold⟩
    exact absurd (congrArg (List.take 2) hold) (by simp [downStreakLimit])

end Thingino.Watchdog
