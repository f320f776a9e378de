import Thingino.Lib.Transition

/-! Stall recovery of a video channel: three rebuilds of the pipeline, then SIGTERM.

A worker that gets no frame for eight seconds asks the main loop for a rebuild and counts; with
three rebuilds asked for and no frame, it raises SIGTERM instead. The count and the time of the last
progress are locals of `VideoWorker::run`. The main loop answers a request by ending `run` and
starting it again, and then the count starts at 0 with it. -/
namespace Thingino.Prudynt
open Lib

namespace Stall

def kStallRestartMs : Nat := 8000
def kMaxStallRestarts : Nat := 3

/-- `now` is the monotonic clock and `restartVideo` the main loop's flag; then the locals of `run`.
The last four fields are for the record, from the last frame or subscriber on: the stalls, the
rebuilds asked for, whether SIGTERM was raised; and for each SIGTERM ever the rebuilds asked for then. -/
structure Channel where
  now : Nat
  restartVideo : Bool
  lastProgressMs : Nat
  stallRestartCount : Nat
  stalls : Nat
  requests : Nat
  escalated : Bool
  raised : List Nat
deriving DecidableEq

/-- `miss` is a `GetStream` that fails or a `PollingStream` that times out, `connect` the loop seeing
video clients where it had none; `demand` is a rebuild that another channel or the API asks for. -/
inductive Event
  | tick (ms : Nat)
  | frame
  | connect
  | miss
  | demand
  | restart

namespace Channel

/-- A delivered frame or a subscriber: the stall is over. -/
def progress (c : Channel) : Channel :=
  { c with lastProgressMs := c.now, stallRestartCount := 0, stalls := 0, requests := 0, escalated := false }

/-- `request_restart_if_stalled`. -/
def requestRestartIfStalled (c : Channel) : Channel :=
  let idle := c.now - c.lastProgressMs
  if idle ≤ kStallRestartMs then c
  else
    let stallRestartCount := c.stallRestartCount + 1
    if stallRestartCount > kMaxStallRestarts then
      { c with
        stallRestartCount
        lastProgressMs := c.now
        stalls := c.stalls + 1
        escalated := true
        raised := c.requests :: c.raised }
    else
      { c with
        stallRestartCount
        restartVideo := true
        lastProgressMs := c.now
        stalls := c.stalls + 1
        requests := c.requests + 1 }

/-- The main loop joins the worker and starts it again. -/
def restart (c : Channel) : Option Channel :=
  if c.restartVideo then some { c with restartVideo := false, lastProgressMs := c.now, stallRestartCount := 0 }
  else none

def step (c : Channel) : Event → Option Channel
  | .tick ms => some { c with now := c.now + ms }
  | .frame | .connect => some c.progress
  | .miss => some c.requestRestartIfStalled
  | .demand => some { c with restartVideo := true }
  | .restart => c.restart

def start (now : Nat) : Channel := ⟨now, false, now, 0, 0, 0, false, []⟩

end Channel

/-- Every SIGTERM comes behind as many rebuilds as there are to try, with no progress since the
first of them. -/
def Justified (c : Channel) : Prop := ∀ requests ∈ c.raised, kMaxStallRestarts ≤ requests

/-- **The property.** A channel without progress asks for so many rebuilds and no more, and its
next stall raises SIGTERM. -/
structure Escalates (c : Channel) : Prop where
  bounded : c.requests ≤ kMaxStallRestarts
  exits : kMaxStallRestarts < c.stalls → c.escalated = true
  justified : Justified c

namespace Channel

/-- `run` ends only while its count is 0. -/
def keepsCount (c : Channel) : Event → Bool
  | .restart => c.stallRestartCount = 0
  | _ => true

/-- What a miss does: nothing yet, a request, or SIGTERM. -/
theorem miss_cases (c : Channel) :
    c.requestRestartIfStalled = c ∨
      (c.stallRestartCount < kMaxStallRestarts ∧ c.requestRestartIfStalled =
        { c with
          stallRestartCount := c.stallRestartCount + 1
          restartVideo := true
          lastProgressMs := c.now
          stalls := c.stalls + 1
          requests := c.requests + 1 }) ∨
      (kMaxStallRestarts ≤ c.stallRestartCount ∧ c.requestRestartIfStalled =
        { c with
          stallRestartCount := c.stallRestartCount + 1
          lastProgressMs := c.now
          stalls := c.stalls + 1
          escalated := true
          raised := c.requests :: c.raised }) := by
  unfold requestRestartIfStalled
  dsimp only
  split
  · exact .inl rfl
  · split
    · exact .inr (.inr ⟨by omega, rfl⟩)
    · exact .inr (.inl ⟨by omega, rfl⟩)

theorem restart_eq_some {c c' : Channel} (h : c.restart = some c') :
    c.restartVideo = true ∧
      c' = { c with restartVideo := false, lastProgressMs := c.now, stallRestartCount := 0 } := by
  rw [restart, Option.ite_none_right_eq_some] at h
  exact ⟨h.1, (Option.some.inj h.2).symm⟩

/-! ### Every run -/

/-- What the count has seen, the record has seen too. -/
structure Backed (c : Channel) : Prop where
  requests : c.stallRestartCount ≤ c.requests ∨ kMaxStallRestarts ≤ c.requests
  justified : Justified c

theorem backed_start (now : Nat) : (start now).Backed := ⟨.inl (Nat.le_refl 0), fun _ => (nomatch ·)⟩

theorem backed_miss {c : Channel} (h : c.Backed) : c.requestRestartIfStalled.Backed := by
  obtain heq | ⟨-, heq⟩ | ⟨hmax, heq⟩ := miss_cases c
  · rw [heq]
    exact h
  · rw [heq]
    exact ⟨h.requests.imp Nat.succ_le_succ Nat.le_succ_of_le, h.justified⟩
  · have hrequests : kMaxStallRestarts ≤ c.requests := h.requests.elim (Nat.le_trans hmax) id
    rw [heq]
    refine ⟨.inr hrequests, fun n hn => ?_⟩
    cases hn with
    | head => exact hrequests
    | tail _ hn => exact h.justified n hn

theorem backed_step {c c' : Channel} {e : Event} (h : c.Backed) (hstep : c.step e = some c') : c'.Backed := by
  cases e with
  | tick | demand =>
    cases hstep
    exact ⟨h.requests, h.justified⟩
  | frame | connect =>
    cases hstep
    exact ⟨.inl (Nat.le_refl 0), h.justified⟩
  | miss =>
    cases hstep
    exact backed_miss h
  | restart =>
    obtain ⟨-, rfl⟩ := restart_eq_some hstep
    exact ⟨.inl (Nat.zero_le _), h.justified⟩

/-! ### Runs that keep the count -/

/-- The count is the number of stalls since the last progress. -/
structure Counted (c : Channel) : Prop where
  stalls : c.stalls = c.stallRestartCount
  requests : c.requests = min c.stallRestartCount kMaxStallRestarts
  escalated : kMaxStallRestarts < c.stallRestartCount → c.escalated = true

theorem counted_start (now : Nat) : (start now).Counted := ⟨rfl, rfl, (nomatch ·)⟩

theorem counted_miss {c : Channel} (h : c.Counted) : c.requestRestartIfStalled.Counted := by
  have hstalls := h.stalls
  have hrequests := h.requests
  obtain heq | ⟨hmore, heq⟩ | ⟨hmax, heq⟩ := miss_cases c
  · rw [heq]
    exact h
  · rw [heq]
    refine ⟨?_, ?_, ?_⟩ <;> dsimp only <;> omega
  · rw [heq]
    refine ⟨?_, ?_, fun _ => rfl⟩ <;> dsimp only <;> omega

theorem counted_step {c c' : Channel} {e : Event} (h : c.Counted) (hok : c.keepsCount e = true)
    (hstep : c.step e = some c') : c'.Counted := by
  cases e with
  | tick | demand =>
    cases hstep
    exact ⟨h.stalls, h.requests, h.escalated⟩
  | frame | connect =>
    cases hstep
    exact ⟨rfl, rfl, (nomatch ·)⟩
  | miss =>
    cases hstep
    exact counted_miss h
  | restart =>
    obtain ⟨-, rfl⟩ := restart_eq_some hstep
    have hzero : c.stallRestartCount = 0 := of_decide_eq_true hok
    obtain ⟨hstalls, hrequests, -⟩ := h
    rw [hzero] at hstalls hrequests
    exact ⟨hstalls, hrequests, (nomatch ·)⟩

theorem Counted.escalates {c : Channel} (h : c.Counted) (hjustified : Justified c) : Escalates c := by
  refine ⟨?_, fun hstalls => h.escalated (h.stalls ▸ hstalls), hjustified⟩
  rw [h.requests]
  exact Nat.min_le_right ..

theorem justified_of_reach {ok : Channel → Event → Prop} {now : Nat} {c : Channel}
    (h : Reach step ok (start now) c) : Justified c := by
  have hbacked : c.Backed :=
    Reach.invariant (backed_start now) (fun _ _ _ hc _ hstep => backed_step hc hstep) h
  exact hbacked.justified

/-! ### Runs in which each request is answered -/

/-- The main loop has restarted the worker before the next miss. -/
def answered (c : Channel) : Event → Bool
  | .miss => !c.restartVideo
  | _ => true

/-- With a request on the count, the answer is still to come; every stall so far was a request. -/
structure Awaits (c : Channel) : Prop where
  waiting : c.stallRestartCount ≠ 0 → c.restartVideo = true
  requests : c.requests = c.stalls
  escalated : c.escalated = false
  quiet : c.raised = []

theorem awaits_start (now : Nat) : (start now).Awaits := ⟨fun hzero => absurd rfl hzero, rfl, rfl, rfl⟩

theorem awaits_step {c c' : Channel} {e : Event} (h : c.Awaits) (hok : c.answered e = true)
    (hstep : c.step e = some c') : c'.Awaits := by
  cases e with
  | tick =>
    cases hstep
    exact ⟨h.waiting, h.requests, h.escalated, h.quiet⟩
  | demand =>
    cases hstep
    exact ⟨fun _ => rfl, h.requests, h.escalated, h.quiet⟩
  | frame | connect =>
    cases hstep
    exact ⟨fun hzero => absurd rfl hzero, rfl, rfl, h.quiet⟩
  | miss =>
    cases hstep
    have hzero : c.stallRestartCount = 0 := by
      by_contra hne
      rw [answered, h.waiting hne] at hok
      cases hok
    obtain heq | ⟨-, heq⟩ | ⟨hmax, -⟩ := miss_cases c
    · rw [heq]
      exact h
    · rw [heq]
      exact ⟨fun _ => rfl, congrArg (· + 1) h.requests, h.escalated, h.quiet⟩
    · rw [hzero] at hmax
      cases hmax
  | restart =>
    obtain ⟨-, rfl⟩ := restart_eq_some hstep
    exact ⟨fun hzero => absurd rfl hzero, h.requests, h.escalated, h.quiet⟩

/-- A main loop that answers every request is never told to give up, so the channel keeps to its
bound just as long as it does not stall more often than that. -/
theorem Awaits.escalates_iff {c : Channel} (h : c.Awaits) : Escalates c ↔ c.stalls ≤ kMaxStallRestarts := by
  constructor
  · intro hescalates
    rw [← h.requests]
    exact hescalates.bounded
  · intro hstalls
    refine ⟨h.requests ▸ hstalls, fun hmore => absurd hstalls (Nat.not_le_of_lt hmore), ?_⟩
    rw [Justified, h.quiet]
    exact fun _ => (nomatch ·)

end Channel

/-- **The escalation is bounded** in runs that restart the worker only while its count is 0. Where
the main loop answers every request it is bounded just as long as the stalls are; and in every run
SIGTERM is raised only behind three rebuilds without progress. -/
theorem escalates_of_keepsCount (now : Nat) :
    (∀ c, Reach Channel.step (fun c e => c.keepsCount e = true) (Channel.start now) c → Escalates c) ∧
      (∀ c, Reach Channel.step (fun c e => c.answered e = true) (Channel.start now) c →
        (Escalates c ↔ c.stalls ≤ kMaxStallRestarts)) ∧
      ∀ c, Reach Channel.step (fun _ _ => True) (Channel.start now) c → Justified c := by
  refine ⟨fun c h => ?_, fun c h => ?_, fun c h => Channel.justified_of_reach h⟩
  · have hcounted : c.Counted :=
      Reach.invariant (Channel.counted_start now) (fun _ _ _ hc hok hstep => Channel.counted_step hc hok hstep) h
    exact hcounted.escalates (Channel.justified_of_reach h)
  · have hawaits : c.Awaits :=
      Reach.invariant (Channel.awaits_start now) (fun _ _ _ hc hok hstep => Channel.awaits_step hc hok hstep) h
    exact hawaits.escalates_iff

/-- A stall of eight seconds and what the worker does about it. -/
def stall : List Event := [.tick 8001, .miss]

/-- The main loop does not get to it: three requests, then SIGTERM. Or it answers the one request. -/
theorem escalates_unanswered :
    (∃ c, Reach Channel.step (fun c e => c.keepsCount e = true) (Channel.start 0) c ∧
      c.requests = 3 ∧ c.raised = [3] ∧ Escalates c ∧ Justified c) ∧
    ∃ c, Reach Channel.step (fun c e => c.answered e = true) (Channel.start 0) c ∧
      c.stalls = 1 ∧ c.requests = 1 ∧ Escalates c := by
  constructor
  · have hrun : ∃ c, Reach Channel.step (fun c e => c.keepsCount e = true) (Channel.start 0) c ∧
        (c.requests = 3 ∧ c.raised = [3]) :=
      exists_reach ([.demand, .restart] ++ stall ++ stall ++ stall ++ stall) (by decide)
    obtain ⟨c, hc, hrequests, hraised⟩ := hrun
    exact ⟨c, hc, hrequests, hraised, (escalates_of_keepsCount 0).1 c hc,
      (escalates_of_keepsCount 0).2.2 c (hc.weaken fun _ _ _ => trivial)⟩
  · have hrun : ∃ c, Reach Channel.step (fun c e => c.answered e = true) (Channel.start 0) c ∧
        (c.stalls = 1 ∧ c.requests = 1) :=
      exists_reach (stall ++ [.restart, .tick 40, .miss]) (by decide)
    obtain ⟨c, hc, hstalls, hrequests⟩ := hrun
    exact ⟨c, hc, hstalls, hrequests, ((escalates_of_keepsCount 0).2.1 c hc).mpr (hstalls ▸ by decide)⟩

/-- Each request is answered, the count starts again each time, and the fourth rebuild is asked
for with no SIGTERM raised. -/
theorem restart_forgets_count :
    ∃ c, Reach Channel.step (fun c e => c.answered e = true) (Channel.start 0) c ∧ c.raised = [] ∧ ¬Escalates c := by
  have hrun : ∃ c, Reach Channel.step (fun c e => c.answered e = true) (Channel.start 0) c ∧
      (c.raised = [] ∧ c.requests = 4) :=
    exists_reach (stall ++ [.restart] ++ stall ++ [.restart] ++ stall ++ [.restart] ++ stall) (by decide)
  obtain ⟨c, hc, hraised, hrequests⟩ := hrun
  refine ⟨c, hc, hraised, fun h => ?_⟩
  have hbounded := h.bounded
  rw [hrequests] at hbounded
  exact absurd hbounded (by decide)

end Stall

end Thingino.Prudynt
