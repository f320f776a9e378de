import Mathlib.Logic.Function.Basic
import Thingino.Lib.CString
import Thingino.Lib.Transition

/-! Publishing the state of an entity, by `ha-common`.

`ha-commands` handles one command after the other: it counts up the epoch of the entity, actuates, and
publishes at once. Each run of `ha-state` reads the entities, queues what it wants to publish, and flushes
the queue. `ha_pub_state` notes the epoch, compares the value with the cache unless it is forced, and
`_ha_pub_confirm` takes the lock of the entity, tests the epoch again, publishes, and writes the cache
when the broker has acknowledged.

There is any number of processes, and each of these is a step of its own. A publish is delivered and
acknowledged, or delivered without the acknowledgement, or not delivered; a process may be killed at any
step. The lock is taken for exclusive here, and the lock of a dead process is free. -/
namespace Thingino.Ha
open Lib

abbrev Entity := List Byte

abbrev Value := List Byte

/-- A number for a process. -/
abbrev Publisher := Nat

/-- A state to publish. `seen` is for the record: how often the entity had been actuated when the value
was read. -/
structure Message where
  entity : Entity
  state : Value
  epoch0 : Nat
  seen : Nat
deriving DecidableEq

/-- `ha-commands`, or a run of `ha-state`, which has no session when there is no file for the queue. -/
inductive Job
  | commands
  | state (force session : Bool)
deriving DecidableEq

def Job.force : Job → Bool
  | .commands => false
  | .state force _ => force

def Job.session : Job → Bool
  | .commands => false
  | .state _ session => session

/-- Where a process is: `stamped` and `actuated` in `dispatch`, `call` to `emit` in `ha_pub_state`, `flush`
in `ha_pub_flush`, and the others in `_ha_pub_confirm`; `sent` is after the delivery and `record` after the
acknowledgement. -/
inductive At
  | idle
  | stamped (entity : Entity)
  | actuated (entity : Entity)
  | call (entity : Entity) (state : Value) (seen : Nat)
  | compare (m : Message)
  | emit (m : Message)
  | flush
  | lock (m : Message)
  | check (m : Message)
  | publish (m : Message)
  | sent (m : Message)
  | record (m : Message)
  | unlock (m : Message)
deriving DecidableEq

/-- The message whose lock is held. -/
def At.locked : At → Option Message
  | .check m | .publish m | .sent m | .record m | .unlock m => some m
  | _ => none

structure Proc where
  job : Job
  pc : At
  queue : List Message
deriving DecidableEq

/-- The camera and the broker. The last two fields are for the record: how often each entity has been
actuated, and how often it had been when a command last published its own result. -/
structure Home where
  device : Entity → Value
  epoch : Entity → Nat
  cache : Entity → Option Value
  retained : Entity → Option Value
  holder : Entity → Option Publisher
  proc : Publisher → Option Proc
  actuated : Entity → Nat
  published : Entity → Nat

/-- `launch` starts a process and `change` is a device that changes by itself; `dispatch`, `actuate` and
`request` are what a command does, `read` and `flush` what a run of `ha-state` does. `fail` is a step that
does not succeed, and the end of a dispatch that has nothing to publish. `clear` is `ha_state_cache_clear`
for one entity. -/
inductive HaEvent
  | launch (p : Publisher) (job : Job)
  | change (entity : Entity) (value : Value)
  | dispatch (p : Publisher) (entity : Entity)
  | actuate (p : Publisher) (value : Value)
  | request (p : Publisher) (state : Value)
  | read (p : Publisher) (entity : Entity)
  | flush (p : Publisher)
  | advance (p : Publisher)
  | fail (p : Publisher)
  | kill (p : Publisher)
  | clear (entity : Entity)

namespace Home

def set (s : Home) (p : Publisher) (r : Option Proc) : Home := { s with proc := Function.update s.proc p r }

def goto (s : Home) (p : Publisher) (r : Proc) (pc : At) : Home := s.set p (some { r with pc })

/-- `_ha_state_changed`; without a cache file the last value is empty. -/
def stateChanged (s : Home) (m : Message) : Bool := m.state ≠ (s.cache m.entity).getD []

/-- The caller of `_ha_pub_confirm`. -/
def resume (r : Proc) : At := if r.job.session then .flush else .idle

/-- The next step of a process. -/
def advance (s : Home) (p : Publisher) (r : Proc) : Option Home :=
  match r.pc with
  | .idle | .stamped _ | .actuated _ => none
  | .call entity state seen =>
    some (s.goto p r (if state = [] then .idle else .compare ⟨entity, state, s.epoch entity, seen⟩))
  | .compare m => some (s.goto p r (if r.job.force || s.stateChanged m then .emit m else .idle))
  | .emit m =>
    some (if r.job.session then s.set p (some { r with pc := .idle, queue := r.queue ++ [m] }) else s.goto p r (.lock m))
  | .flush =>
    match r.queue with
    | [] => some (s.set p none)
    | m :: queue => some (s.set p (some { r with pc := .lock m, queue }))
  | .lock m =>
    if s.holder m.entity = none then
      some ({ s with holder := Function.update s.holder m.entity (some p) }.goto p r (.check m))
    else none
  | .check m => some (s.goto p r (if s.epoch m.entity = m.epoch0 then .publish m else .unlock m))
  | .publish m =>
    some ({ s with
      retained := Function.update s.retained m.entity (some m.state)
      published := if r.job = Job.commands then Function.update s.published m.entity m.seen else s.published }.goto p r
        (.sent m))
  | .sent m => some (s.goto p r (.record m))
  | .record m => some ({ s with cache := Function.update s.cache m.entity (some m.state) }.goto p r (.unlock m))
  | .unlock m => some ({ s with holder := Function.update s.holder m.entity none }.goto p r (resume r))

/-- The next step does not succeed: there is no file for the message, the publish is not delivered, or its
acknowledgement does not come in time, or the cache file is not written. -/
def fail (s : Home) (p : Publisher) (r : Proc) : Option Home :=
  match r.pc with
  | .stamped _ | .actuated _ | .emit _ => some (s.goto p r .idle)
  | .publish m | .sent m | .record m => some (s.goto p r (.unlock m))
  | _ => none

/-- Where a dispatch stamps the epoch of its entity. -/
def dispatch (s : Home) (p : Publisher) (r : Proc) (entity : Entity) : Option Home :=
  if r.job = .commands ∧ r.pc = .idle then
    some ({ s with epoch := Function.update s.epoch entity (s.epoch entity + 1) }.goto p r (.stamped entity))
  else none

def actuate (s : Home) (p : Publisher) (r : Proc) (value : Value) : Option Home :=
  match r.pc with
  | .stamped entity =>
    some ({ s with
      device := Function.update s.device entity value
      actuated := Function.update s.actuated entity (s.actuated entity + 1) }.goto p r (.actuated entity))
  | _ => none

def request (s : Home) (p : Publisher) (r : Proc) (state : Value) : Option Home :=
  match r.pc with
  | .actuated entity => some (s.goto p r (.call entity state (s.actuated entity)))
  | _ => none

def kill (s : Home) (p : Publisher) : Home :=
  { s with holder := fun entity => (s.holder entity).filter (· ≠ p) }.set p none

def step (s : Home) : HaEvent → Option Home
  | .launch p job => if s.proc p = none then some (s.set p (some ⟨job, .idle, []⟩)) else none
  | .change entity value => some { s with device := Function.update s.device entity value }
  | .dispatch p entity => (s.proc p).bind fun r => s.dispatch p r entity
  | .actuate p value => (s.proc p).bind fun r => s.actuate p r value
  | .request p state => (s.proc p).bind fun r => s.request p r state
  | .read p entity =>
    (s.proc p).bind fun r =>
      if r.job ≠ .commands ∧ r.pc = .idle then some (s.goto p r (.call entity (s.device entity) (s.actuated entity)))
      else none
  | .flush p => (s.proc p).bind fun r => if r.job ≠ .commands ∧ r.pc = .idle then some (s.goto p r .flush) else none
  | .advance p => (s.proc p).bind fun r => s.advance p r
  | .fail p => (s.proc p).bind fun r => s.fail p r
  | .kill p => some (s.kill p)
  | .clear entity => some { s with cache := Function.update s.cache entity none }

/-- As `ha-daemon` starts: nothing is cached. -/
def start (device : Entity → Value) (retained : Entity → Option Value) : Home :=
  ⟨device, fun _ => 0, fun _ => none, retained, fun _ => none, fun _ => none, fun _ => 0, fun _ => 0⟩

/-! ### The lock -/

variable {s s' : Home} {p q : Publisher} {r : Proc} {pc : At}

@[simp] theorem proc_set (s : Home) (p : Publisher) (r : Option Proc) : (s.set p r).proc p = r :=
  Function.update_self ..

theorem proc_set_of_ne (s : Home) (r : Option Proc) (h : q ≠ p) : (s.set p r).proc q = s.proc q :=
  Function.update_of_ne h ..

/-- Where a process is not behind a lock, not about to publish, or not there. -/
theorem absurd_none {α : Type} {a : α} {P : Prop} (h : none = some a) : P := (Option.some_ne_none a h.symm).elim

/-- Who is behind the lock of an entity holds it. -/
def Locked (s : Home) : Prop := ∀ p r m, s.proc p = some r → r.pc.locked = some m → s.holder m.entity = some p

/-- A step of `p` that leaves the other processes their locks. -/
theorem locked_of (h : s.Locked) (hproc : ∀ q, q ≠ p → s'.proc q = s.proc q)
    (hholder : ∀ entity q, q ≠ p → s.holder entity = some q → s'.holder entity = some q)
    (hself : ∀ r m, s'.proc p = some r → r.pc.locked = some m → s'.holder m.entity = some p) : s'.Locked := by
  intro q r m hr hm
  by_cases hq : q = p
  · subst hq
    exact hself r m hr hm
  · rw [hproc q hq] at hr
    exact hholder _ q hq (h q r m hr hm)

/-- A step of `p` alone, to where it holds no lock or the one it held. -/
theorem locked_goto (h : s.Locked) (hr : s.proc p = some r)
    (hlock : ∀ m, pc.locked = some m → r.pc.locked = some m) : (s.goto p r pc).Locked := by
  refine locked_of h (fun q hq => proc_set_of_ne s _ hq) (fun _ _ _ hholder => hholder) fun r' m hr' hm => ?_
  rw [goto, proc_set, Option.some.injEq] at hr'
  subst hr'
  exact h p r m hr (hlock m hm)

/-- A step of `p` alone, to where it holds no lock. -/
theorem locked_set (h : s.Locked) {r : Option Proc} (hlock : ∀ r' ∈ r, r'.pc.locked = none) : (s.set p r).Locked := by
  refine locked_of h (fun q hq => proc_set_of_ne s _ hq) (fun _ _ _ hholder => hholder) fun r' m hr' hm => ?_
  rw [proc_set] at hr'
  rw [hlock r' hr'] at hm
  cases hm

theorem locked_resume (r : Proc) : (resume r).locked = none := by
  unfold resume
  split <;> rfl

theorem locked_advance (h : s.Locked) (hr : s.proc p = some r) (hstep : s.advance p r = some s') : s'.Locked := by
  cases hpc : r.pc with
  | idle | stamped _ | actuated _ =>
    simp only [advance, hpc] at hstep
    cases hstep
  | call entity state seen =>
    simp only [advance, hpc] at hstep
    cases hstep
    refine locked_goto h hr fun m hm => ?_
    split at hm <;> cases hm
  | compare m =>
    simp only [advance, hpc] at hstep
    cases hstep
    refine locked_goto h hr fun m hm => ?_
    split at hm <;> cases hm
  | emit m =>
    simp only [advance, hpc] at hstep
    cases hstep
    split
    · exact locked_set h fun r' hr' => by cases hr'; rfl
    · exact locked_goto h hr fun _ => absurd_none
  | flush =>
    simp only [advance, hpc] at hstep
    split at hstep
    · cases hstep
      exact locked_set h fun _ => absurd_none
    · cases hstep
      exact locked_set h fun r' hr' => by cases hr'; rfl
  | lock m =>
    simp only [advance, hpc, Option.ite_none_right_eq_some, Option.some.injEq] at hstep
    obtain ⟨hfree, rfl⟩ := hstep
    refine locked_of h (fun q hq => proc_set_of_ne _ _ hq) (fun entity q hq hholder => ?_) fun r' m' hr' hm' => ?_
    · have hne : entity ≠ m.entity := by
        rintro rfl
        rw [hfree] at hholder
        cases hholder
      exact (Function.update_of_ne hne ..).trans hholder
    · rw [goto, proc_set, Option.some.injEq] at hr'
      subst hr'
      cases hm'
      exact Function.update_self ..
  | check m =>
    simp only [advance, hpc] at hstep
    cases hstep
    refine locked_goto h hr fun m' hm' => ?_
    rw [hpc]
    split at hm' <;> exact hm'
  | publish m =>
    simp only [advance, hpc] at hstep
    cases hstep
    exact locked_goto (s := { s with retained := _, published := _ }) h hr fun m' hm' => by rw [hpc]; exact hm'
  | sent m =>
    simp only [advance, hpc] at hstep
    cases hstep
    exact locked_goto h hr fun m' hm' => by rw [hpc]; exact hm'
  | record m =>
    simp only [advance, hpc] at hstep
    cases hstep
    exact locked_goto (s := { s with cache := _ }) h hr fun m' hm' => by rw [hpc]; exact hm'
  | unlock m =>
    simp only [advance, hpc] at hstep
    cases hstep
    refine locked_of h (fun q hq => proc_set_of_ne _ _ hq) (fun entity q hq hholder => ?_) fun r' m' hr' hm' => ?_
    · have hmine : s.holder m.entity = some p := h p r m hr (by rw [hpc]; rfl)
      have hne : entity ≠ m.entity := by
        rintro rfl
        exact hq (Option.some.inj (hholder.symm.trans hmine))
      exact (Function.update_of_ne hne ..).trans hholder
    · rw [goto, proc_set, Option.some.injEq] at hr'
      subst hr'
      rw [locked_resume] at hm'
      cases hm'

theorem locked_kill (h : s.Locked) (p : Publisher) : (s.kill p).Locked := by
  refine locked_of (p := p) h (fun q hq => proc_set_of_ne _ _ hq) (fun entity q hq hholder => ?_) fun r m hr => ?_
  · change (s.holder entity).filter (· ≠ p) = some q
    rw [hholder, Option.filter_some, if_pos (decide_eq_true hq)]
  · rw [kill, proc_set] at hr
    cases hr

theorem locked_fail (h : s.Locked) (hr : s.proc p = some r) (hstep : s.fail p r = some s') : s'.Locked := by
  cases hpc : r.pc with
  | stamped _ | actuated _ | emit _ =>
    simp only [fail, hpc] at hstep
    cases hstep
    exact locked_goto h hr fun _ => absurd_none
  | publish m | sent m | record m =>
    simp only [fail, hpc] at hstep
    cases hstep
    exact locked_goto h hr fun m' hm' => by rw [hpc]; exact hm'
  | _ =>
    simp only [fail, hpc] at hstep
    cases hstep

theorem locked_step {e : HaEvent} (h : s.Locked) (hstep : s.step e = some s') : s'.Locked := by
  cases e with
  | launch p job =>
    rw [step, Option.ite_none_right_eq_some, Option.some.injEq] at hstep
    obtain ⟨-, rfl⟩ := hstep
    exact locked_set h fun r' hr' => by cases hr'; rfl
  | change entity value =>
    cases hstep
    exact h
  | dispatch p entity =>
    obtain ⟨r, hr, hstep⟩ := Option.bind_eq_some_iff.mp hstep
    rw [dispatch, Option.ite_none_right_eq_some, Option.some.injEq] at hstep
    obtain ⟨-, rfl⟩ := hstep
    exact locked_goto (s := { s with epoch := _ }) h hr fun _ => absurd_none
  | actuate p value =>
    obtain ⟨r, hr, hstep⟩ := Option.bind_eq_some_iff.mp hstep
    unfold actuate at hstep
    split at hstep
    · cases hstep
      exact locked_goto (s := { s with device := _, actuated := _ }) h hr fun _ => absurd_none
    · cases hstep
  | request p state =>
    obtain ⟨r, hr, hstep⟩ := Option.bind_eq_some_iff.mp hstep
    unfold request at hstep
    split at hstep
    · cases hstep
      exact locked_goto h hr fun _ => absurd_none
    · cases hstep
  | read p entity =>
    obtain ⟨r, hr, hstep⟩ := Option.bind_eq_some_iff.mp hstep
    rw [Option.ite_none_right_eq_some, Option.some.injEq] at hstep
    obtain ⟨-, rfl⟩ := hstep
    exact locked_goto h hr fun _ => absurd_none
  | flush p =>
    obtain ⟨r, hr, hstep⟩ := Option.bind_eq_some_iff.mp hstep
    rw [Option.ite_none_right_eq_some, Option.some.injEq] at hstep
    obtain ⟨-, rfl⟩ := hstep
    exact locked_goto h hr fun _ => absurd_none
  | advance p =>
    obtain ⟨r, hr, hstep⟩ := Option.bind_eq_some_iff.mp hstep
    exact locked_advance h hr hstep
  | fail p =>
    obtain ⟨r, hr, hstep⟩ := Option.bind_eq_some_iff.mp hstep
    exact locked_fail h hr hstep
  | kill p =>
    cases hstep
    exact locked_kill h p
  | clear entity =>
    cases hstep
    exact h

end Home

/-! ### Runs of a poll -/

/-- A poll of one entity, as far as the delivery of its value. -/
def pollEvents (p : Publisher) (entity : Entity) : List HaEvent :=
  [.launch p (.state false true), .read p entity, .advance p, .advance p, .advance p, .flush p, .advance p, .advance p,
    .advance p, .advance p]

/-- The acknowledgement, the cache, and the end. -/
def confirmEvents (p : Publisher) : List HaEvent := [.advance p, .advance p, .advance p, .advance p]

def on : Value := ascii "ON"

def off : Value := ascii "OFF"

def white : Entity := ascii "white"

end Thingino.Ha
