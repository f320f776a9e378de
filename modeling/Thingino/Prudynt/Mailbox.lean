import Thingino.Lib.Transition

/-! The forced day/night mode: one slot between the JSON API and the day/night worker.

The API stores 1 (day) or 2 (night) into `force_mode` whenever a command comes in. The worker
loads the slot at the top of an iteration, switches if the mode is another one, and stores 0
behind that: two accesses with an actuation of seconds between them. A command that comes in
meanwhile is in the slot when the 0 is stored. -/
namespace Thingino.Prudynt
open Lib

namespace Mailbox

/-- `DayNightAlgo::Mode`. -/
inductive Mode
  | unknown
  | day
  | night
deriving DecidableEq

/-- The mode that a value of `force_mode` other than 0 asks for. -/
def forcedMode (forceReq : Nat) : Mode := if forceReq = 2 then .night else .day

/-- Where the worker is in its iteration; `forceReq` is what it loaded. -/
inductive Pc
  | load
  | compare (forceReq : Nat)
  | apply (forceReq : Nat)
  | update (forceReq : Nat)
  | store (forceReq : Nat)
  | rest

/-- The last four fields are for the record: `last` is the last request (0 for none), `fresh` says
that the iteration began behind it and no actuation has failed in it, `done` that such an iteration
is complete, and `cleared` has what each store of 0 found in the slot, with the mode at the time. -/
structure Worker where
  forceMode : Nat
  forceModeCfg : Option String
  current : Mode
  pc : Pc
  last : Nat
  fresh : Bool
  done : Bool
  cleared : List (Nat × Mode)

inductive Event
  | handle (mode : String)
  | advance
  | fail

namespace Worker

/-- `handle_daynight` with a string for `force_mode`. -/
def handleDaynight (w : Worker) (mode : String) : Worker :=
  if mode = "day" ∨ mode = "night" then
    let forceMode := if mode = "night" then 2 else 1
    { w with
      forceMode
      forceModeCfg := if w.forceModeCfg = some mode then w.forceModeCfg else some mode
      last := forceMode
      fresh := false
      done := false }
  else w

/-- The next access of the worker; an actuation succeeds. -/
def advance (w : Worker) : Worker :=
  match w.pc with
  | .load =>
    let forceReq := w.forceMode
    { w with pc := if forceReq = 0 then .rest else .compare forceReq, fresh := true }
  | .compare forceReq =>
    { w with pc := if forcedMode forceReq = w.current then .store forceReq else .apply forceReq }
  | .apply forceReq => { w with pc := .update forceReq }
  | .update forceReq => { w with current := forcedMode forceReq, pc := .store forceReq }
  | .store _ => { w with forceMode := 0, cleared := (w.forceMode, w.current) :: w.cleared, pc := .rest }
  | .rest => { w with pc := .load, done := w.done || w.fresh }

/-- `apply_mode` fails: the request stays for the next iteration. -/
def fail (w : Worker) : Option Worker :=
  match w.pc with
  | .apply _ => some { w with pc := .rest, fresh := false }
  | _ => none

def step (w : Worker) : Event → Option Worker
  | .handle mode => some (w.handleDaynight mode)
  | .advance => some w.advance
  | .fail => w.fail

/-- The top of the loop, with what `force_mode` has there. -/
def start (forceMode : Nat) (current : Mode) : Worker := ⟨forceMode, none, current, .load, forceMode, false, false, []⟩

end Worker

/-- **The property.** A request is wiped only when its mode is the current one, and with an
iteration behind the last request the current mode is the one it asked for. -/
structure Served (w : Worker) : Prop where
  cleared : ∀ entry ∈ w.cleared, entry.1 ≠ 0 → entry.2 = forcedMode entry.1
  last : w.done = true → w.last ≠ 0 → w.current = forcedMode w.last

namespace Worker

/-- When the worker stores its 0, the slot still has what it loaded. -/
def undisturbed (w : Worker) : Event → Bool
  | .advance =>
    match w.pc with
    | .store forceReq => w.forceMode = forceReq
    | _ => true
  | _ => true

/-! ### The invariant -/

/-- A request that has been loaded is still in the slot, or a newer one is. -/
structure Loaded (w : Worker) (forceReq : Nat) : Prop where
  nonzero : forceReq ≠ 0
  slot : w.forceMode = w.last
  pending : w.last ≠ 0
  fresh : w.fresh = true → forceReq = w.last
  done : w.done = false

def InvAt (w : Worker) : Pc → Prop
  | .load => True
  | .compare forceReq | .apply forceReq | .update forceReq => w.Loaded forceReq
  | .store forceReq => w.Loaded forceReq ∧ w.current = forcedMode forceReq
  | .rest => w.fresh = true → w.forceMode = 0

structure Inv (w : Worker) : Prop where
  cleared : ∀ entry ∈ w.cleared, entry.1 ≠ 0 → entry.2 = forcedMode entry.1
  slot : w.forceMode = w.last ∨ (w.forceMode = 0 ∧ w.current = forcedMode w.last)
  done : w.done = true → w.forceMode = 0
  at_pc : w.InvAt w.pc

theorem inv_start (forceMode : Nat) (current : Mode) : (start forceMode current).Inv :=
  ⟨fun _ => (nomatch ·), .inl rfl, (nomatch ·), trivial⟩

theorem inv_handle {w : Worker} (h : w.Inv) (mode : String) : (w.handleDaynight mode).Inv := by
  unfold handleDaynight
  split
  · have hone : (if mode = "night" then 2 else 1) ≠ 0 := by split <;> decide
    refine ⟨h.cleared, .inl rfl, (nomatch ·), ?_⟩
    have hat := h.at_pc
    cases hpc : w.pc with
    | load => trivial
    | rest => exact (nomatch ·)
    | compare | apply | update =>
      rw [hpc] at hat
      exact ⟨hat.nonzero, rfl, hone, (nomatch ·), rfl⟩
    | store =>
      rw [hpc] at hat
      exact ⟨⟨hat.1.nonzero, rfl, hone, (nomatch ·), rfl⟩, hat.2⟩
  · exact h

theorem inv_advance {w : Worker} (h : w.Inv) (hok : w.undisturbed .advance = true) : w.advance.Inv := by
  have hat := h.at_pc
  unfold undisturbed at hok
  unfold advance
  cases hpc : w.pc with
  | load =>
    refine ⟨h.cleared, h.slot, h.done, ?_⟩
    by_cases hzero : w.forceMode = 0
    · simp only [if_pos hzero]
      exact fun _ => hzero
    · simp only [if_neg hzero]
      have hslot : w.forceMode = w.last := h.slot.resolve_right fun hr => hzero hr.1
      exact ⟨hzero, hslot, hslot ▸ hzero, fun _ => hslot, Bool.eq_false_iff.mpr fun hd => hzero (h.done hd)⟩
  | compare forceReq =>
    rw [hpc] at hat
    refine ⟨h.cleared, h.slot, h.done, ?_⟩
    by_cases hsame : forcedMode forceReq = w.current
    · simp only [if_pos hsame]
      exact ⟨⟨hat.nonzero, hat.slot, hat.pending, hat.fresh, hat.done⟩, hsame.symm⟩
    · simp only [if_neg hsame]
      exact ⟨hat.nonzero, hat.slot, hat.pending, hat.fresh, hat.done⟩
  | apply forceReq =>
    rw [hpc] at hat
    exact ⟨h.cleared, h.slot, h.done, hat.nonzero, hat.slot, hat.pending, hat.fresh, hat.done⟩
  | update forceReq =>
    rw [hpc] at hat
    exact ⟨h.cleared, .inl hat.slot, h.done, ⟨hat.nonzero, hat.slot, hat.pending, hat.fresh, hat.done⟩, rfl⟩
  | store forceReq =>
    rw [hpc] at hat hok
    have hslot : w.forceMode = forceReq := of_decide_eq_true hok
    refine ⟨fun entry hentry => ?_, .inr ⟨rfl, ?_⟩, fun _ => rfl, fun _ => rfl⟩
    · cases hentry with
      | head => exact fun _ => hslot ▸ hat.2
      | tail _ hrest => exact h.cleared entry hrest
    · rw [← hat.1.slot, hslot]
      exact hat.2
  | rest =>
    rw [hpc] at hat
    refine ⟨h.cleared, h.slot, fun hdone => ?_, trivial⟩
    rw [Bool.or_eq_true] at hdone
    exact hdone.elim h.done hat

theorem inv_step {w w' : Worker} {e : Event} (h : w.Inv) (hok : w.undisturbed e = true)
    (hstep : w.step e = some w') : w'.Inv := by
  cases e with
  | handle mode =>
    cases hstep
    exact inv_handle h mode
  | advance =>
    cases hstep
    exact inv_advance h hok
  | fail =>
    simp only [step, fail] at hstep
    split at hstep
    · cases hstep
      exact ⟨h.cleared, h.slot, h.done, (nomatch ·)⟩
    · cases hstep

theorem Inv.served {w : Worker} (h : w.Inv) : Served w := by
  refine ⟨h.cleared, fun hdone hlast => ?_⟩
  have hzero := h.done hdone
  exact h.slot.elim (fun hslot => absurd (hslot ▸ hzero) hlast) And.right

end Worker

/-- **No request is lost**, whatever the commands and the failures, if no command falls between
the load of a request and the store of 0 behind it. -/
theorem served_of_undisturbed {forceMode : Nat} {current : Mode} {w : Worker}
    (h : Reach Worker.step (fun w e => w.undisturbed e = true) (Worker.start forceMode current) w) : Served w := by
  have hinv : w.Inv :=
    Reach.invariant (Worker.inv_start forceMode current) (fun _ _ _ hw hok hstep => Worker.inv_step hw hok hstep) h
  exact hinv.served

/-- `night` is forced, the first actuation fails, the next iteration has it. -/
theorem served_after_failure :
    ∃ w, Reach Worker.step (fun w e => w.undisturbed e = true) (Worker.start 0 .day) w ∧
      w.done = true ∧ w.last = 2 ∧ w.current = .night ∧ Served w := by
  have hrun : ∃ w, Reach Worker.step (fun w e => w.undisturbed e = true) (Worker.start 0 .day) w ∧
      (w.done = true ∧ w.last = 2 ∧ w.current = .night) :=
    exists_reach [.advance, .advance, .handle "night", .advance, .advance, .fail, .advance, .advance, .advance,
      .advance, .advance, .advance, .advance] (by decide)
  obtain ⟨w, hw, hdone, hlast, hcurrent⟩ := hrun
  exact ⟨w, hw, hdone, hlast, hcurrent, served_of_undisturbed hw⟩

/-- `night` is being applied when `day` comes in: the 0 behind the switch wipes `day` with the
camera in `night`. -/
theorem store_wipes_newer :
    ∃ w, Reach Worker.step (fun _ _ => True) (Worker.start 0 .day) w ∧ ¬Served w := by
  have hrun : ∃ w, Reach Worker.step (fun _ _ => True) (Worker.start 0 .day) w ∧ w.cleared = [(1, .night)] :=
    exists_reach [.handle "night", .advance, .advance, .handle "day", .advance, .advance, .advance] (by decide)
  obtain ⟨w, hw, hcleared⟩ := hrun
  refine ⟨w, hw, fun h => ?_⟩
  have hentry := h.cleared (1, .night) (by simp [hcleared]) (by decide)
  exact absurd hentry (by decide)

end Mailbox

end Thingino.Prudynt
