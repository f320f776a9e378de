import Thingino.Lib.Holder
import Thingino.Lib.Transition
import Mathlib.Data.Fintype.Basic
import Mathlib.Data.List.Range

/-! The event queue of the Bluetooth host, between threads.

An event has a flag that it is queued. `ble_npl_eventq_put` looks at the flag and sets it without the lock; the queue
itself is changed under a mutex, and whoever waits for an event waits on its condition variable. A step below is what
a thread does between two looks at what it shares.

The flag is enough as long as no put begins between the look and the mark of another put of the same event, or while
a removal has taken the flag back and not the event, and no removal begins while a put has set the flag and not
queued the event; and one thread takes and removes events. Then (`queue_sound`) an event is in the queue once at
most, what is put is taken in order, once, unless it is removed, whoever asks for an event has it run behind that, and
nobody sleeps before a queue that has something. -/
namespace Thingino.Bluetooth
open Lib

namespace EventQueue

section Model
variable {τ ε : Type}

/-- Where a thread is. At the second line are the places of `eventq_put`, then those of `eventq_get` and the call
behind it, and those of `eventq_remove`. -/
inductive Pc (ε : Type)
  | idle
  | unlocking
  | marking (ev : ε)
  | putting (ev : ε)
  | inserting (ev : ε)
  | signalling
  | getting (tmo : Bool)
  | picking (tmo : Bool)
  | waiting
  | woken
  | taking
  | leaving (item : Option (Nat × ε))
  | clearing (ev : ε)
  | running (ev : ε)
  | dropping (ev : ε)
  | removing (ev : ε)
  | deleting (ev : ε)
  deriving DecidableEq

/-- The queue has its events with the number of their insertion, which tells two insertions apart. `broken` says that
an event was linked in twice, or taken out without being there. `owed` tells whether an event was asked for since its
callback was last called. -/
structure Queue (τ ε : Type) where
  pcs : τ → Pc ε
  lock : Option τ
  queue : List (Nat × ε)
  queued : ε → Bool
  next : Nat
  broken : Bool
  taken : List (Nat × ε)
  removed : List (Nat × ε)
  ran : List ε
  owed : ε → Bool

def initial : Queue τ ε := ⟨fun _ => .idle, none, [], fun _ => false, 0, false, [], [], [], fun _ => false⟩

inductive Op (ε : Type)
  | put (ev : ε)
  | get (tmo : Bool)
  | remove (ev : ε)

/-- A thread calls a function or goes one step on; the one that waits may wake up without a signal. -/
inductive Event (τ ε : Type)
  | call (i : τ) (op : Op ε)
  | go (i : τ)
  | wake

variable [DecidableEq τ] [DecidableEq ε] (host : τ) (s : Queue τ ε)

def goto (i : τ) (pc : Pc ε) : Queue τ ε := { s with pcs := Function.update s.pcs i pc }

/-- The thread takes the mutex, if it is free. -/
def acquire (i : τ) (pc : Pc ε) : Option (Queue τ ε) :=
  if s.lock = none then some (goto { s with lock := some i } i pc) else none

def release (i : τ) (pc : Pc ε) : Queue τ ε := goto { s with lock := none } i pc

def mark (ev : ε) (b : Bool) : Queue τ ε := { s with queued := Function.update s.queued ev b }

def call (i : τ) : Op ε → Queue τ ε
  | .put ev =>
    if s.queued ev then { s with owed := Function.update s.owed ev true } else goto s i (.marking ev)
  | .get tmo => goto s i (.getting tmo)
  | .remove ev => if s.queued ev then goto s i (.dropping ev) else s

/-- `STAILQ_INSERT_TAIL`. -/
def insertTail (ev : ε) : Queue τ ε :=
  { s with
    queue := s.queue ++ [(s.next, ev)]
    next := s.next + 1
    broken := s.broken || s.queue.any fun x => x.2 = ev
    owed := Function.update s.owed ev true }

/-- `STAILQ_REMOVE`. -/
def remove (ev : ε) : Queue τ ε :=
  { s with
    queue := s.queue.filter fun x => x.2 ≠ ev
    broken := s.broken || s.queue.all fun x => x.2 ≠ ev
    removed := s.queue.filter (fun x => x.2 = ev) ++ s.removed
    owed := Function.update s.owed ev false }

def go (i : τ) : Option (Queue τ ε) :=
  match s.pcs i with
  | .idle | .waiting => none
  | .marking ev => some (goto (mark s ev true) i (.putting ev))
  | .putting ev => acquire s i (.inserting ev)
  | .inserting ev => some (goto (insertTail s ev) i .signalling)
  | .signalling => some (goto (if s.pcs host = .waiting then goto s host .woken else s) i .unlocking)
  | .unlocking => some (release s i .idle)
  | .getting tmo => acquire s i (.picking tmo)
  | .picking tmo => some (if tmo && s.queue.isEmpty then release s i .waiting else goto s i .taking)
  | .woken => acquire s i (.picking true)
  | .taking =>
    match s.queue with
    | [] => some (goto s i (.leaving none))
    | x :: queue => some (goto { s with queue := queue, taken := x :: s.taken } i (.leaving (some x)))
  | .leaving none => some (release s i .idle)
  | .leaving (some x) => some (release s i (.clearing x.2))
  | .clearing ev => some (goto (mark s ev false) i (.running ev))
  | .running ev => some (goto { s with ran := ev :: s.ran, owed := Function.update s.owed ev false } i .idle)
  | .dropping ev => some (goto (mark s ev false) i (.removing ev))
  | .removing ev => acquire s i (.deleting ev)
  | .deleting ev => some (goto (remove s ev) i .unlocking)

def step : Event τ ε → Option (Queue τ ε)
  | .call i op => if s.pcs i = .idle then some (call s i op) else none
  | .go i => go host s i
  | .wake => if s.pcs host = .waiting then some (goto s host .woken) else none

/-! ### What the callers keep to -/

/-- The event that is being put, and whether its flag is set. -/
def Pc.puts : Pc ε → Option (ε × Bool)
  | .marking ev => some (ev, false)
  | .putting ev | .inserting ev => some (ev, true)
  | _ => none

/-- The event that was taken, as long as its flag is set. -/
def Pc.holds : Pc ε → Option ε
  | .leaving (some x) => some x.2
  | .clearing ev => some ev
  | _ => none

/-- The event that is being removed, and whether its flag is cleared. -/
def Pc.removes : Pc ε → Option (ε × Bool)
  | .dropping ev => some (ev, false)
  | .removing ev | .deleting ev => some (ev, true)
  | _ => none

/-- A put does not begin in the middle of another put or of a removal of its event, nor a removal in the middle of a
put, and one thread takes and removes. -/
def Ordered (s : Queue τ ε) : Event τ ε → Prop
  | .call _ (.put ev) => (∀ j, (s.pcs j).puts ≠ some (ev, false)) ∧ (s.pcs host).removes ≠ some (ev, true)
  | .call i (.get _) => i = host
  | .call i (.remove ev) => i = host ∧ ∀ j, (s.pcs j).puts ≠ some (ev, true)
  | _ => True

instance [Fintype τ] (e : Event τ ε) : Decidable (Ordered host s e) := by
  unfold Ordered
  split <;> infer_instance

end Model

/-! ### Flags -/

section Flags
variable {τ ε : Type} {i : τ} {puts : τ → Option (ε × Bool)} {holds : Option ε}
  {removes : Option (ε × Bool)} {events : List ε} {queued : ε → Bool} {ev : ε} {b : Bool}

/-- **The invariant** of the flags: each event is nowhere, being put by one thread, in the queue or taken, and its flag
says so. -/
structure Places (puts : τ → Option (ε × Bool)) (holds : Option ε) (removes : Option (ε × Bool)) (events : List ε)
    (queued : ε → Bool) : Prop where
  one : ∀ i j ev b b', puts i = some (ev, b) → puts j = some (ev, b') → i = j
  put : ∀ i ev b, puts i = some (ev, b) → ev ∉ events ∧ holds ≠ some ev ∧ queued ev = b
  held : ∀ ev, holds = some ev → ev ∉ events ∧ queued ev = true
  member : ∀ ev ∈ events, queued ev = true ↔ removes ≠ some (ev, true)
  removed : ∀ ev b, removes = some (ev, b) → ev ∈ events
  flagged : ∀ ev, queued ev = true → ev ∈ events ∨ holds = some ev ∨ ∃ i, puts i = some (ev, true)
  nodup : events.Nodup

theorem Places.take (h : Places puts none none (ev :: events) queued) : Places puts (some ev) none events queued := by
  obtain ⟨hone, hput, hheld, hmember, hremoved, hflagged, hnodup⟩ := h
  constructor <;> grind

/-- The call of a removal that finds the flag. -/
theorem Places.beginRemove (h : Places puts none none events queued) (hflag : queued ev = true)
    (hputs : ∀ j, puts j ≠ some (ev, true)) : Places puts none (some (ev, false)) events queued := by
  obtain ⟨hone, hput, hheld, hmember, hremoved, hflagged, hnodup⟩ := h
  constructor <;> grind

variable [DecidableEq τ] [DecidableEq ε]

omit [DecidableEq ε] in
/-- The call of a put that finds no flag. -/
theorem Places.begin (h : Places puts holds removes events queued) (hidle : puts i = none) (hflag : queued ev = false)
    (hputs : ∀ j, puts j ≠ some (ev, false)) (hremoves : removes ≠ some (ev, true)) :
    Places (Function.update puts i (some (ev, false))) holds removes events queued := by
  obtain ⟨hone, hput, hheld, hmember, hremoved, hflagged, hnodup⟩ := h
  constructor
  case flagged =>
    intro ev' hflag'
    obtain hmem | hholds | ⟨j, hj⟩ := hflagged ev' hflag'
    · exact .inl hmem
    · exact .inr (.inl hholds)
    · have hne : j ≠ i := fun heq => by rw [heq, hidle] at hj; cases hj
      exact .inr (.inr ⟨j, by rwa [Function.update_of_ne hne]⟩)
  all_goals grind [Function.update_apply]

theorem Places.mark (h : Places puts holds removes events queued) (hputs : puts i = some (ev, false)) :
    Places (Function.update puts i (some (ev, true))) holds removes events (Function.update queued ev true) := by
  obtain ⟨hone, hput, hheld, hmember, hremoved, hflagged, hnodup⟩ := h
  constructor
  case flagged =>
    intro ev' hflag'
    by_cases heq : ev' = ev
    · exact .inr (.inr ⟨i, by rw [Function.update_self, heq]⟩)
    · rw [Function.update_of_ne heq] at hflag'
      obtain hmem | hholds | ⟨j, hj⟩ := hflagged ev' hflag'
      · exact .inl hmem
      · exact .inr (.inl hholds)
      · have hne : j ≠ i := fun h => by rw [h, hputs] at hj; cases hj
        exact .inr (.inr ⟨j, by rwa [Function.update_of_ne hne]⟩)
  all_goals grind [Function.update_apply]

omit [DecidableEq ε] in
theorem Places.insert (h : Places puts holds removes events queued) (hputs : puts i = some (ev, true)) :
    Places (Function.update puts i none) holds removes (events ++ [ev]) queued := by
  obtain ⟨hone, hput, hheld, hmember, hremoved, hflagged, hnodup⟩ := h
  constructor
  case flagged =>
    intro ev' hflag'
    obtain hmem | hholds | ⟨j, hj⟩ := hflagged ev' hflag'
    · exact .inl (List.mem_append_left [ev] hmem)
    · exact .inr (.inl hholds)
    · by_cases hne : j = i
      · rw [hne, hputs] at hj
        cases hj
        exact .inl (List.mem_append_right events List.mem_cons_self)
      · exact .inr (.inr ⟨j, by rwa [Function.update_of_ne hne]⟩)
  all_goals grind [Function.update_apply, List.nodup_append]

omit [DecidableEq τ] in
theorem Places.clear (h : Places puts (some ev) removes events queued) :
    Places puts none removes events (Function.update queued ev false) := by
  obtain ⟨hone, hput, hheld, hmember, hremoved, hflagged, hnodup⟩ := h
  constructor <;> grind [Function.update_apply]

omit [DecidableEq τ] in
theorem Places.unmark (h : Places puts none (some (ev, false)) events queued) :
    Places puts none (some (ev, true)) events (Function.update queued ev false) := by
  obtain ⟨hone, hput, hheld, hmember, hremoved, hflagged, hnodup⟩ := h
  constructor <;> grind [Function.update_apply]

omit [DecidableEq τ] in
theorem Places.delete (h : Places puts none (some (ev, true)) events queued) :
    Places puts none none (events.filter (· ≠ ev)) queued := by
  obtain ⟨hone, hput, hheld, hmember, hremoved, hflagged, hnodup⟩ := h
  constructor <;> grind [List.Nodup.filter]

end Flags

/-! ### Steps -/

section Steps
variable {τ ε : Type} [DecidableEq τ] [DecidableEq ε] {host i : τ} {s s' : Queue τ ε} {pc : Pc ε} {ev : ε}

/-- The places with the mutex. -/
def Pc.locks : Pc ε → Bool
  | .unlocking | .inserting _ | .signalling | .picking _ | .taking | .leaving _ | .deleting _ => true
  | _ => false

/-- The places of the one thread that takes and removes. -/
def Pc.isHost : Pc ε → Bool
  | .idle | .unlocking | .marking _ | .putting _ | .inserting _ | .signalling => false
  | _ => true

/-- The event whose callback is to be called. -/
def Pc.inHand : Pc ε → Option ε
  | .leaving (some x) => some x.2
  | .clearing ev | .running ev => some ev
  | _ => none

structure Control (host : τ) (s : Queue τ ε) : Prop where
  lock : Holds Pc.locks s.pcs s.lock
  roles : ∀ i, (s.pcs i).isHost = true → i = host

/-- What a step can do. A quiet one concerns no event: a thread goes on, and may take the mutex or give it back. -/
inductive Moved (host : τ) (s : Queue τ ε) : Queue τ ε → Prop
  | same : Moved host s s
  | quiet {i : τ} {pc : Pc ε} {lock : Option τ} (hputs : pc.puts = (s.pcs i).puts)
    (hholds : pc.holds = (s.pcs i).holds) (hremoves : pc.removes = (s.pcs i).removes)
    (hhand : pc.inHand = (s.pcs i).inHand) (hwaiting : pc = .waiting → s.queue = [])
    (hsignal : s.pcs i = .signalling → s.pcs host ≠ .waiting)
    (hlock : Holds Pc.locks (Function.update s.pcs i pc) lock) (hrole : pc.isHost = true → i = host) :
    Moved host s (goto { s with lock := lock } i pc)
  | asked {ev : ε} (hflag : s.queued ev = true) : Moved host s { s with owed := Function.update s.owed ev true }
  | begin {i : τ} {ev : ε} (hpc : s.pcs i = .idle) (hflag : s.queued ev = false)
    (hputs : ∀ j, (s.pcs j).puts ≠ some (ev, false)) (hremoves : (s.pcs host).removes ≠ some (ev, true)) :
    Moved host s (goto s i (.marking ev))
  | mark {i : τ} {ev : ε} (hpc : s.pcs i = .marking ev) : Moved host s (goto (mark s ev true) i (.putting ev))
  | insert {i : τ} {ev : ε} (hpc : s.pcs i = .inserting ev) : Moved host s (goto (insertTail s ev) i .signalling)
  | signal {i : τ} (hpc : s.pcs i = .signalling) (hwaiting : s.pcs host = .waiting) :
    Moved host s (goto (goto s host .woken) i .unlocking)
  | take {x : Nat × ε} {queue : List (Nat × ε)} (hpc : s.pcs host = .taking) (hqueue : s.queue = x :: queue) :
    Moved host s (goto { s with queue := queue, taken := x :: s.taken } host (.leaving (some x)))
  | clear {ev : ε} (hpc : s.pcs host = .clearing ev) :
    Moved host s (goto (EventQueue.mark s ev false) host (.running ev))
  | run {ev : ε} (hpc : s.pcs host = .running ev) :
    Moved host s (goto { s with ran := ev :: s.ran, owed := Function.update s.owed ev false } host .idle)
  | beginRemove {ev : ε} (hpc : s.pcs host = .idle) (hflag : s.queued ev = true)
    (hputs : ∀ j, (s.pcs j).puts ≠ some (ev, true)) : Moved host s (goto s host (.dropping ev))
  | unmark {ev : ε} (hpc : s.pcs host = .dropping ev) :
    Moved host s (goto (EventQueue.mark s ev false) host (.removing ev))
  | delete {ev : ε} (hpc : s.pcs host = .deleting ev) : Moved host s (goto (remove s ev) host .unlocking)

omit [DecidableEq ε] in
theorem Control.take (h : Control host s) (hfree : s.lock = none) (hown : pc.locks = true) :
    Holds Pc.locks (Function.update s.pcs i pc) (some i) := by
  have hnone := h.lock
  rw [hfree] at hnone
  exact hnone.take hown

omit [DecidableEq ε] in
theorem Control.leave (h : Control host s) (hheld : (s.pcs i).locks = true) (hown : pc.locks = false) :
    Holds Pc.locks (Function.update s.pcs i pc) none := by
  have hleave : Holds Pc.locks (Function.update s.pcs i pc) (s.lock.filter (· ≠ i)) := h.lock.leave hown
  have hfilter : (some i).filter (fun j => decide (j ≠ i)) = none := Option.filter_some_neg (by simp)
  rw [(h.lock i).mp hheld, hfilter] at hleave
  exact hleave

/-- A step from one place to another that concerns no event. -/
theorem Moved.plain {lock : Option τ} {pc' : Pc ε} (hpc : s.pcs i = pc')
    (hsame : pc.puts = pc'.puts ∧ pc.holds = pc'.holds ∧ pc.removes = pc'.removes ∧ pc.inHand = pc'.inHand)
    (hwaiting : pc = .waiting → s.queue = []) (hsignal : pc' ≠ .signalling)
    (hlock : Holds Pc.locks (Function.update s.pcs i pc) lock) (hrole : pc.isHost = true → i = host) :
    Moved host s (goto { s with lock := lock } i pc) := by
  subst hpc
  exact .quiet hsame.1 hsame.2.1 hsame.2.2.1 hsame.2.2.2 hwaiting (fun heq => absurd heq hsignal) hlock hrole

/-- A call, as far as the callers keep to their order. -/
theorem moved_of_call (h : Control host s) {op : Op ε} (hpc : s.pcs i = .idle)
    (hordered : Ordered host s (.call i op)) : Moved host s (call s i op) := by
  cases op with
  | put ev =>
    rw [call]
    split
    · rename_i hflag
      exact .asked hflag
    · rename_i hflag
      exact .begin hpc (Bool.not_eq_true _ ▸ hflag) hordered.1 hordered.2
  | get tmo =>
    have hlock : Holds Pc.locks (Function.update s.pcs i (.getting tmo)) s.lock := h.lock.move (by rw [hpc]; rfl)
    exact .plain hpc ⟨rfl, rfl, rfl, rfl⟩ nofun nofun hlock fun _ => hordered
  | remove ev =>
    obtain ⟨rfl, hputs⟩ := hordered
    rw [call]
    split
    · rename_i hflag
      exact .beginRemove hpc hflag hputs
    · exact .same

/-- A thread that takes the mutex. -/
theorem moved_of_acquire (h : Control host s) {pc' : Pc ε} (hpc : s.pcs i = pc') (hstep : acquire s i pc = some s')
    (hsame : pc.puts = pc'.puts ∧ pc.holds = pc'.holds ∧ pc.removes = pc'.removes ∧ pc.inHand = pc'.inHand)
    (hown : pc.locks = true) (hsignal : pc' ≠ .signalling) (hrole : pc.isHost = true → i = host) :
    Moved host s s' := by
  rw [acquire, Option.ite_none_right_eq_some] at hstep
  obtain ⟨hfree, hstep⟩ := hstep
  obtain rfl := Option.some.inj hstep
  have hwaiting : pc ≠ .waiting := fun heq => by rw [heq] at hown; cases hown
  exact .plain hpc hsame (fun heq => absurd heq hwaiting) hsignal (h.take hfree hown) hrole

/-- The waiting thread is woken, if there is one. -/
theorem moved_of_signalling (h : Control host s) (hpc : s.pcs i = .signalling) :
    Moved host s (goto (if s.pcs host = .waiting then goto s host .woken else s) i .unlocking) := by
  split
  · rename_i hwaiting
    exact .signal hpc hwaiting
  · rename_i hwaiting
    have hlock : Holds Pc.locks (Function.update s.pcs i .unlocking) s.lock := h.lock.move (by rw [hpc]; rfl)
    exact .quiet (by rw [hpc]; rfl) (by rw [hpc]; rfl) (by rw [hpc]; rfl) (by rw [hpc]; rfl) nofun (fun _ => hwaiting)
      hlock nofun

/-- A wait begins with an empty queue only. -/
theorem moved_of_picking (h : Control host s) {tmo : Bool} (hpc : s.pcs i = .picking tmo) :
    Moved host s (if tmo && s.queue.isEmpty then release s i .waiting else goto s i .taking) := by
  have hhost : i = host := h.roles i (by rw [hpc]; rfl)
  split
  · rename_i hempty
    have hnil : s.queue = [] := List.isEmpty_iff.mp (Bool.and_eq_true_iff.mp hempty).2
    exact .plain hpc ⟨rfl, rfl, rfl, rfl⟩ (fun _ => hnil) nofun (h.leave (by rw [hpc]; rfl) rfl) fun _ => hhost
  · have hlock : Holds Pc.locks (Function.update s.pcs i .taking) s.lock := h.lock.move (by rw [hpc]; rfl)
    exact .plain hpc ⟨rfl, rfl, rfl, rfl⟩ nofun nofun hlock fun _ => hhost

/-- The first event is taken, if there is one. -/
theorem moved_of_taking (h : Control host s) (hpc : s.pcs i = .taking) (hstep : go host s i = some s') :
    Moved host s s' := by
  obtain rfl : i = host := h.roles i (by rw [hpc]; rfl)
  rw [go, hpc] at hstep
  dsimp only at hstep
  split at hstep
  · obtain rfl := Option.some.inj hstep
    have hlock : Holds Pc.locks (Function.update s.pcs i (.leaving none)) s.lock := h.lock.move (by rw [hpc]; rfl)
    exact .plain hpc ⟨rfl, rfl, rfl, rfl⟩ nofun nofun hlock fun _ => rfl
  · rename_i hqueue
    obtain rfl := Option.some.inj hstep
    exact .take hpc hqueue

/-- What was taken is handled without the mutex. -/
theorem moved_of_leaving (h : Control host s) {item : Option (Nat × ε)} (hpc : s.pcs i = .leaving item)
    (hstep : go host s i = some s') : Moved host s s' := by
  have hheld : (s.pcs i).locks = true := by rw [hpc]; rfl
  have hhost : i = host := h.roles i (by rw [hpc]; rfl)
  rw [go, hpc] at hstep
  cases item with
  | none =>
    obtain rfl := Option.some.inj hstep
    exact .plain hpc ⟨rfl, rfl, rfl, rfl⟩ nofun nofun (h.leave hheld rfl) nofun
  | some x =>
    obtain rfl := Option.some.inj hstep
    exact .plain hpc ⟨rfl, rfl, rfl, rfl⟩ nofun nofun (h.leave hheld rfl) fun _ => hhost

/-- The thread that takes and removes, where it has an event. -/
theorem moved_of_host (h : Control host s) (hhost : (s.pcs i).isHost = true)
    (hevent : (s.pcs i).inHand.isSome = true ∨ (s.pcs i).removes.isSome = true) (hstep : go host s i = some s') :
    Moved host s s' := by
  obtain rfl := h.roles i hhost
  cases hpc : s.pcs i with
  | leaving item => exact moved_of_leaving h hpc hstep
  | clearing ev =>
    rw [go, hpc] at hstep
    obtain rfl := Option.some.inj hstep
    exact .clear hpc
  | running ev =>
    rw [go, hpc] at hstep
    obtain rfl := Option.some.inj hstep
    exact .run hpc
  | dropping ev =>
    rw [go, hpc] at hstep
    obtain rfl := Option.some.inj hstep
    exact .unmark hpc
  | removing ev =>
    rw [go, hpc] at hstep
    change acquire s i (.deleting ev) = some s' at hstep
    exact moved_of_acquire h hpc hstep ⟨rfl, rfl, rfl, rfl⟩ rfl nofun fun _ => rfl
  | deleting ev =>
    rw [go, hpc] at hstep
    obtain rfl := Option.some.inj hstep
    exact .delete hpc
  | _ => simp [hpc, Pc.inHand, Pc.removes] at hevent

/-- A thread that goes on. -/
theorem moved_of_go (h : Control host s) (hstep : go host s i = some s') : Moved host s s' := by
  have hgo := hstep
  rw [go] at hgo
  cases hpc : s.pcs i with
  | idle | waiting =>
    rw [hpc] at hgo
    cases hgo
  | marking ev =>
    rw [hpc] at hgo
    obtain rfl := Option.some.inj hgo
    exact .mark hpc
  | putting ev =>
    rw [hpc] at hgo
    exact moved_of_acquire h hpc hgo ⟨rfl, rfl, rfl, rfl⟩ rfl nofun nofun
  | inserting ev =>
    rw [hpc] at hgo
    obtain rfl := Option.some.inj hgo
    exact .insert hpc
  | signalling =>
    rw [hpc] at hgo
    obtain rfl := Option.some.inj hgo
    exact moved_of_signalling h hpc
  | unlocking =>
    rw [hpc] at hgo
    obtain rfl := Option.some.inj hgo
    exact .plain hpc ⟨rfl, rfl, rfl, rfl⟩ nofun nofun (h.leave (by rw [hpc]; rfl) rfl) nofun
  | getting tmo | woken =>
    rw [hpc] at hgo
    exact moved_of_acquire h hpc hgo ⟨rfl, rfl, rfl, rfl⟩ rfl nofun fun _ => h.roles i (by rw [hpc]; rfl)
  | picking tmo =>
    rw [hpc] at hgo
    obtain rfl := Option.some.inj hgo
    exact moved_of_picking h hpc
  | taking => exact moved_of_taking h hpc hstep
  | leaving item => exact moved_of_leaving h hpc hstep
  | clearing ev | running ev => exact moved_of_host h (by rw [hpc]; rfl) (.inl (by rw [hpc]; rfl)) hstep
  | dropping ev | removing ev | deleting ev => exact moved_of_host h (by rw [hpc]; rfl) (.inr (by rw [hpc]; rfl)) hstep

theorem moved_of_step (h : Control host s) {e : Event τ ε} (hordered : Ordered host s e)
    (hstep : step host s e = some s') : Moved host s s' := by
  cases e with
  | call i op =>
    rw [step, Option.ite_none_right_eq_some] at hstep
    obtain ⟨hpc, hstep⟩ := hstep
    obtain rfl := Option.some.inj hstep
    exact moved_of_call h hpc hordered
  | go i => exact moved_of_go h hstep
  | wake =>
    rw [step, Option.ite_none_right_eq_some] at hstep
    obtain ⟨hpc, hstep⟩ := hstep
    obtain rfl := Option.some.inj hstep
    have hlock : Holds Pc.locks (Function.update s.pcs host .woken) s.lock := h.lock.move (by rw [hpc]; rfl)
    exact .plain hpc ⟨rfl, rfl, rfl, rfl⟩ nofun nofun hlock fun _ => rfl

end Steps

/-! ### Runs -/

section Run
variable {τ ε : Type} [DecidableEq τ] {host i j : τ} {s s' : Queue τ ε} {pc : Pc ε} {ev : ε}

/-- Somebody's request is still to come to the callback. -/
def Pending (host : τ) (s : Queue τ ε) (ev : ε) : Prop :=
  ev ∈ s.queue.map Prod.snd ∨ (s.pcs host).inHand = some ev ∨ ∃ i, (s.pcs i).puts = some (ev, true)

structure Inv (host : τ) (s : Queue τ ε) : Prop where
  control : Control host s
  places : Places (fun j => (s.pcs j).puts) (s.pcs host).holds (s.pcs host).removes (s.queue.map Prod.snd) s.queued
  intact : s.broken = false
  accounted : ((s.taken ++ (s.removed ++ s.queue)).map Prod.fst).Perm (List.range s.next)
  inOrder : ((s.taken.reverse ++ s.queue).map Prod.fst).Pairwise (· < ·)
  calls : s.taken.map Prod.snd = (s.pcs host).inHand.toList ++ s.ran
  asked : ∀ ev, s.owed ev = true → Pending host s ev
  awake : s.pcs host = .waiting → s.queue ≠ [] → ∃ i, s.pcs i = .signalling

@[simp] theorem goto_pcs_self : (goto s i pc).pcs i = pc := Function.update_self _ _ _

@[simp] theorem goto_pcs_of_ne (h : j ≠ i) : (goto s i pc).pcs j = s.pcs j := Function.update_of_ne h _ _

/-- What a thread's move does not change of it, it does not change of any. -/
theorem project_goto {α : Type} (f : Pc ε → α) (h : f pc = f (s.pcs i)) (j : τ) :
    f ((goto s i pc).pcs j) = f (s.pcs j) := by
  by_cases hj : j = i
  · rw [hj, goto_pcs_self, h]
  · rw [goto_pcs_of_ne hj]

theorem puts_goto (s : Queue τ ε) (i : τ) (pc : Pc ε) :
    (fun j => ((goto s i pc).pcs j).puts) = Function.update (fun j => (s.pcs j).puts) i pc.puts :=
  Function.comp_update Pc.puts s.pcs i pc

theorem Control.move (h : Control host s) (hlocks : pc.locks = (s.pcs i).locks) (hrole : pc.isHost = true → i = host) :
    Control host (goto s i pc) := by
  refine ⟨h.lock.move hlocks, fun j hj => ?_⟩
  by_cases heq : j = i
  · rw [heq, goto_pcs_self] at hj
    exact heq.trans (hrole hj)
  · rw [goto_pcs_of_ne heq] at hj
    exact h.roles j hj

/-- Who signals stays, but for the thread that moves. -/
theorem awake_goto (h : s.pcs host = .waiting → s.queue ≠ [] → ∃ i, s.pcs i = .signalling)
    (hwaiting : pc = .waiting → s.queue = []) (hsignal : s.pcs i = .signalling → s.pcs host ≠ .waiting)
    (hhost : (goto s i pc).pcs host = .waiting) (hqueue : s.queue ≠ []) : ∃ j, (goto s i pc).pcs j = .signalling := by
  by_cases heq : host = i
  · rw [← heq, goto_pcs_self] at hhost
    exact absurd (hwaiting hhost) hqueue
  · rw [goto_pcs_of_ne heq] at hhost
    obtain ⟨j, hj⟩ := h hhost hqueue
    have hne : j ≠ i := fun h => hsignal (h ▸ hj) hhost
    exact ⟨j, by rw [goto_pcs_of_ne hne, hj]⟩

theorem inHand_of_holds (h : pc.holds = some ev) : pc.inHand = some ev := by
  unfold Pc.holds at h
  split at h
  · exact h
  · exact h
  · cases h

/-- A request is as near to the callback as before. -/
theorem Pending.goto (h : Pending host s ev) (hhand : pc.inHand = (s.pcs i).inHand)
    (hputs : (s.pcs i).puts = some (ev, true) → pc.puts = some (ev, true)) : Pending host (goto s i pc) ev := by
  obtain hmem | hheld | ⟨k, hk⟩ := h
  · exact .inl hmem
  · exact .inr (.inl ((project_goto Pc.inHand hhand host).trans hheld))
  · by_cases hne : k = i
    · exact .inr (.inr ⟨k, by rw [hne, goto_pcs_self, hputs (hne ▸ hk)]⟩)
    · exact .inr (.inr ⟨k, by rw [goto_pcs_of_ne hne, hk]⟩)

theorem inv_quiet (h : Inv host s) {lock : Option τ} (hputs : pc.puts = (s.pcs i).puts)
    (hholds : pc.holds = (s.pcs i).holds) (hremoves : pc.removes = (s.pcs i).removes)
    (hhand : pc.inHand = (s.pcs i).inHand) (hwaiting : pc = .waiting → s.queue = [])
    (hsignal : s.pcs i = .signalling → s.pcs host ≠ .waiting)
    (hlock : Holds Pc.locks (Function.update s.pcs i pc) lock) (hrole : pc.isHost = true → i = host) :
    Inv host (goto { s with lock := lock } i pc) := by
  have hsame : ∀ {α : Type} (f : Pc ε → α), f pc = f (s.pcs i) → ∀ j, f ((goto s i pc).pcs j) = f (s.pcs j) :=
    fun f hf => project_goto f hf
  have hplaces := h.places
  have hcalls := h.calls
  refine ⟨⟨hlock, fun j hj => ?_⟩, ?_, h.intact, h.accounted, h.inOrder, ?_, fun ev hev => ?_,
    awake_goto h.awake hwaiting hsignal⟩
  · by_cases heq : j = i
    · have hself : (goto { s with lock := lock } i pc).pcs j = pc := heq ▸ goto_pcs_self
      rw [hself] at hj
      exact heq.trans (hrole hj)
    · have hother : (goto { s with lock := lock } i pc).pcs j = s.pcs j := goto_pcs_of_ne heq
      rw [hother] at hj
      exact h.control.roles j hj
  · rw [← funext (hsame Pc.puts hputs), ← hsame Pc.holds hholds host, ← hsame Pc.removes hremoves host] at hplaces
    exact hplaces
  · rw [← hsame Pc.inHand hhand host] at hcalls
    exact hcalls
  · exact (h.asked ev hev).goto hhand hputs.trans

/-! The moves that concern an event, one by one; `hsame` says what they leave of the places. -/

section Moves
variable (h : Inv host s)
include h

theorem inv_begin (hpc : s.pcs i = .idle) (hflag : s.queued ev = false) (hputs : ∀ j, (s.pcs j).puts ≠ some (ev, false))
    (hremoves : (s.pcs host).removes ≠ some (ev, true)) : Inv host (goto s i (.marking ev)) := by
  have hsame : ∀ {α : Type} (f : Pc ε → α), f (.marking ev) = f .idle → ∀ j,
      f ((goto s i (.marking ev)).pcs j) = f (s.pcs j) := fun f hf => project_goto f (by rw [hpc, hf])
  have hview : (fun j => ((goto s i (.marking ev)).pcs j).puts) =
      Function.update (fun j => (s.pcs j).puts) i (some (ev, false)) := puts_goto s i (.marking ev)
  have hidle : (s.pcs i).puts = none := by rw [hpc]; rfl
  have hplaces := h.places.begin hidle hflag hputs hremoves
  refine ⟨h.control.move (by rw [hpc]; rfl) nofun, ?_, h.intact, h.accounted, h.inOrder, ?_, fun ev' hev => ?_,
    awake_goto h.awake nofun fun heq => absurd (hpc.symm.trans heq) nofun⟩
  · rw [← hview, ← hsame Pc.holds rfl, ← hsame Pc.removes rfl] at hplaces
    exact hplaces
  · exact h.calls.trans (congrArg (fun x => x.toList ++ s.ran) (hsame Pc.inHand rfl host).symm)
  · exact (h.asked ev' hev).goto (by rw [hpc]; rfl) fun heq => absurd (hidle.symm.trans heq) nofun

theorem inv_take {x : Nat × ε} {queue : List (Nat × ε)} (hpc : s.pcs host = .taking) (hqueue : s.queue = x :: queue) :
    Inv host (goto { s with queue := queue, taken := x :: s.taken } host (.leaving (some x))) := by
  have hsame : ∀ {α : Type} (f : Pc ε → α), f (.leaving (some x)) = f .taking → ∀ j,
      f ((goto s host (.leaving (some x))).pcs j) = f (s.pcs j) := fun f hf => project_goto f (by rw [hpc, hf])
  have hcontrol : Control host (goto s host (.leaving (some x))) := h.control.move (by rw [hpc]; rfl) fun _ => rfl
  have hself : (goto s host (.leaving (some x))).pcs host = .leaving (some x) := goto_pcs_self
  have hplaces := h.places
  have haccounted := h.accounted
  have hinOrder := h.inOrder
  have hcalls := h.calls
  rw [hqueue] at hplaces haccounted hinOrder
  rw [hpc] at hplaces hcalls
  refine ⟨⟨hcontrol.lock, hcontrol.roles⟩, ?_, h.intact, ?_, ?_, ?_, fun ev hev => ?_,
    fun hwaiting => absurd (hself.symm.trans hwaiting) nofun⟩
  · have htake := hplaces.take
    have hholds : ((goto s host (.leaving (some x))).pcs host).holds = some x.2 := by rw [hself]; rfl
    have hremoves : ((goto s host (.leaving (some x))).pcs host).removes = none := by rw [hself]; rfl
    rw [← funext (hsame Pc.puts rfl), ← hholds, ← hremoves] at htake
    exact htake
  · have hperm : (x :: (s.taken ++ (s.removed ++ queue))).Perm (s.taken ++ (s.removed ++ x :: queue)) := by
      rw [← List.append_assoc, ← List.append_assoc]
      exact List.perm_middle.symm
    exact (hperm.map Prod.fst).trans haccounted
  · have hlist : (x :: s.taken).reverse ++ queue = s.taken.reverse ++ x :: queue := by
      rw [List.reverse_cons, List.append_assoc]
      rfl
    rw [← hlist] at hinOrder
    exact hinOrder
  · have hhand : ((goto s host (.leaving (some x))).pcs host).inHand = some x.2 := by rw [hself]; rfl
    exact (congrArg (x.2 :: ·) hcalls).trans (congrArg (fun y => y.toList ++ s.ran) hhand.symm)
  · obtain hmem | hheld | ⟨k, hk⟩ := h.asked ev hev
    · rw [hqueue, List.map_cons, List.mem_cons] at hmem
      obtain rfl | hmem := hmem
      · exact .inr (.inl (congrArg Pc.inHand hself))
      · exact .inl hmem
    · rw [hpc] at hheld
      cases hheld
    · exact .inr (.inr ⟨k, (hsame Pc.puts rfl k).trans hk⟩)

theorem inv_beginRemove (hpc : s.pcs host = .idle) (hflag : s.queued ev = true)
    (hputs : ∀ j, (s.pcs j).puts ≠ some (ev, true)) : Inv host (goto s host (.dropping ev)) := by
  have hsame : ∀ {α : Type} (f : Pc ε → α), f (.dropping ev) = f .idle → ∀ j,
      f ((goto s host (.dropping ev)).pcs j) = f (s.pcs j) := fun f hf => project_goto f (by rw [hpc, hf])
  have hself : (goto s host (.dropping ev)).pcs host = .dropping ev := goto_pcs_self
  have hplaces := h.places
  rw [hpc] at hplaces
  refine ⟨h.control.move (by rw [hpc]; rfl) fun _ => rfl, ?_, h.intact, h.accounted, h.inOrder, ?_, fun ev' hev => ?_,
    awake_goto h.awake nofun fun heq => absurd (hpc.symm.trans heq) nofun⟩
  · have hbegin := hplaces.beginRemove hflag hputs
    rw [← funext (hsame Pc.puts rfl)] at hbegin
    rw [hself]
    exact hbegin
  · exact h.calls.trans (congrArg (fun x => x.toList ++ s.ran) (hsame Pc.inHand rfl host).symm)
  · exact (h.asked ev' hev).goto (by rw [hpc]; rfl) fun heq => absurd (by rw [← heq, hpc]; rfl) (Option.some_ne_none _)

variable [DecidableEq ε]

theorem inv_mark (hpc : s.pcs i = .marking ev) : Inv host (goto (mark s ev true) i (.putting ev)) := by
  have hsame : ∀ {α : Type} (f : Pc ε → α), f (.putting ev) = f (.marking ev) → ∀ j,
      f ((goto s i (.putting ev)).pcs j) = f (s.pcs j) := fun f hf => project_goto f (by rw [hpc, hf])
  have hview : (fun j => ((goto s i (.putting ev)).pcs j).puts) =
      Function.update (fun j => (s.pcs j).puts) i (some (ev, true)) := puts_goto s i (.putting ev)
  have hputs : (s.pcs i).puts = some (ev, false) := by rw [hpc]; rfl
  have hplaces := h.places.mark hputs
  have hcontrol : Control host (goto s i (.putting ev)) := h.control.move (by rw [hpc]; rfl) nofun
  refine ⟨⟨hcontrol.lock, hcontrol.roles⟩, ?_, h.intact, h.accounted, h.inOrder, ?_, fun ev' hev => ?_,
    awake_goto h.awake nofun fun heq => absurd (hpc.symm.trans heq) nofun⟩
  · rw [← hview, ← hsame Pc.holds rfl, ← hsame Pc.removes rfl] at hplaces
    exact hplaces
  · exact h.calls.trans (congrArg (fun x => x.toList ++ s.ran) (hsame Pc.inHand rfl host).symm)
  · have hgoto : Pending host (goto s i (.putting ev)) ev' :=
      (h.asked ev' hev).goto (by rw [hpc]; rfl) fun heq => by rw [hputs] at heq; cases heq
    exact hgoto

theorem inv_insert (hpc : s.pcs i = .inserting ev) : Inv host (goto (insertTail s ev) i .signalling) := by
  have hsame : ∀ {α : Type} (f : Pc ε → α), f .signalling = f (.inserting ev) → ∀ j,
      f ((goto s i .signalling).pcs j) = f (s.pcs j) := fun f hf => project_goto f (by rw [hpc, hf])
  have hview : (fun j => ((goto s i .signalling).pcs j).puts) = Function.update (fun j => (s.pcs j).puts) i none :=
    puts_goto s i .signalling
  have hputs : (s.pcs i).puts = some (ev, true) := by rw [hpc]; rfl
  have hplaces := h.places.insert hputs
  have hcontrol : Control host (goto s i .signalling) := h.control.move (by rw [hpc]; rfl) nofun
  have hfresh : ∀ x ∈ s.taken.reverse ++ s.queue, x.1 < s.next := by
    intro x hx
    have hmem : x ∈ s.taken ++ (s.removed ++ s.queue) := by
      simp only [List.mem_append, List.mem_reverse] at hx ⊢
      exact hx.imp_right .inr
    exact List.mem_range.mp (h.accounted.mem_iff.mp (List.mem_map_of_mem hmem))
  refine ⟨⟨hcontrol.lock, hcontrol.roles⟩, ?_, ?_, ?_, ?_, ?_, fun ev' hev => ?_, fun _ _ => ⟨i, goto_pcs_self⟩⟩
  · have hlist : (s.queue ++ [(s.next, ev)]).map Prod.snd = s.queue.map Prod.snd ++ [ev] := List.map_append
    rw [← hview, ← hsame Pc.holds rfl, ← hsame Pc.removes rfl, ← hlist] at hplaces
    exact hplaces
  · have habsent : (s.queue.any fun x => decide (x.2 = ev)) = false := by
      refine List.any_eq_false.mpr fun x hx heq => (h.places.put i ev true hputs).1 ?_
      exact of_decide_eq_true heq ▸ List.mem_map_of_mem hx
    exact Bool.or_eq_false_iff.mpr ⟨h.intact, habsent⟩
  · have hlist : s.taken ++ (s.removed ++ (s.queue ++ [(s.next, ev)])) =
        s.taken ++ (s.removed ++ s.queue) ++ [(s.next, ev)] := by
      simp only [List.append_assoc]
    have hperm := h.accounted.append_right [s.next]
    rw [← List.range_succ] at hperm
    change ((s.taken ++ (s.removed ++ (s.queue ++ [(s.next, ev)]))).map Prod.fst).Perm (List.range (s.next + 1))
    rw [hlist, List.map_append]
    exact hperm
  · have hlist : s.taken.reverse ++ (s.queue ++ [(s.next, ev)]) = s.taken.reverse ++ s.queue ++ [(s.next, ev)] :=
      (List.append_assoc _ _ _).symm
    change ((s.taken.reverse ++ (s.queue ++ [(s.next, ev)])).map Prod.fst).Pairwise (· < ·)
    rw [hlist, List.map_append, List.pairwise_append]
    refine ⟨h.inOrder, List.pairwise_singleton _ _, fun n hn m hm => ?_⟩
    obtain ⟨x, hx, rfl⟩ := List.mem_map.mp hn
    rw [List.mem_singleton.mp hm]
    exact hfresh x hx
  · exact h.calls.trans (congrArg (fun x => x.toList ++ s.ran) (hsame Pc.inHand rfl host).symm)
  · by_cases heq : ev' = ev
    · exact .inl (heq ▸ List.mem_map_of_mem (List.mem_append_right s.queue List.mem_cons_self))
    · have hev : s.owed ev' = true := (Function.update_of_ne heq _ _).symm.trans hev
      have hgoto : Pending host (goto s i .signalling) ev' :=
        (h.asked ev' hev).goto (by rw [hpc]; rfl) fun h => by
          rw [hputs] at h
          exact absurd (congrArg Prod.fst (Option.some.inj h)).symm heq
      obtain hmem | hrest := hgoto
      · obtain ⟨x, hx, rfl⟩ := List.mem_map.mp hmem
        exact .inl (List.mem_map_of_mem (List.mem_append_left _ hx))
      · exact .inr hrest

theorem inv_clear (hpc : s.pcs host = .clearing ev) : Inv host (goto (mark s ev false) host (.running ev)) := by
  have hsame : ∀ {α : Type} (f : Pc ε → α), f (.running ev) = f (.clearing ev) → ∀ j,
      f ((goto s host (.running ev)).pcs j) = f (s.pcs j) := fun f hf => project_goto f (by rw [hpc, hf])
  have hcontrol : Control host (goto s host (.running ev)) := h.control.move (by rw [hpc]; rfl) fun _ => rfl
  have hholds : ((goto s host (.running ev)).pcs host).holds = none := congrArg Pc.holds goto_pcs_self
  have hheld : (s.pcs host).holds = some ev := by rw [hpc]; rfl
  have hplaces := h.places
  rw [hheld] at hplaces
  refine ⟨⟨hcontrol.lock, hcontrol.roles⟩, ?_, h.intact, h.accounted, h.inOrder, ?_, fun ev' hev => ?_,
    awake_goto h.awake nofun fun heq => absurd (hpc.symm.trans heq) nofun⟩
  · have hclear := hplaces.clear
    rw [← funext (hsame Pc.puts rfl), ← hholds, ← hsame Pc.removes rfl] at hclear
    exact hclear
  · exact h.calls.trans (congrArg (fun x => x.toList ++ s.ran) (hsame Pc.inHand rfl host).symm)
  · have hgoto : Pending host (goto s host (.running ev)) ev' :=
      (h.asked ev' hev).goto (by rw [hpc]; rfl) fun heq => by rw [hpc] at heq; cases heq
    exact hgoto

theorem inv_run (hpc : s.pcs host = .running ev) :
    Inv host (goto { s with ran := ev :: s.ran, owed := Function.update s.owed ev false } host .idle) := by
  have hsame : ∀ {α : Type} (f : Pc ε → α), f .idle = f (.running ev) → ∀ j,
      f ((goto s host .idle).pcs j) = f (s.pcs j) := fun f hf => project_goto f (by rw [hpc, hf])
  have hcontrol : Control host (goto s host .idle) := h.control.move (by rw [hpc]; rfl) nofun
  have hhand : ((goto s host .idle).pcs host).inHand = none := congrArg Pc.inHand goto_pcs_self
  have hplaces := h.places
  have hcalls := h.calls
  rw [hpc] at hcalls
  refine ⟨⟨hcontrol.lock, hcontrol.roles⟩, ?_, h.intact, h.accounted, h.inOrder, ?_, fun ev' hev => ?_,
    awake_goto h.awake nofun fun heq => absurd (hpc.symm.trans heq) nofun⟩
  · rw [← funext (hsame Pc.puts rfl), ← hsame Pc.holds rfl, ← hsame Pc.removes rfl] at hplaces
    exact hplaces
  · exact hcalls.trans (congrArg (fun x => x.toList ++ ev :: s.ran) hhand.symm)
  · by_cases heq : ev' = ev
    · rw [heq] at hev
      exact absurd ((Function.update_self _ _ _).symm.trans hev) nofun
    · have hev : s.owed ev' = true := (Function.update_of_ne heq _ _).symm.trans hev
      obtain hmem | hheld | ⟨k, hk⟩ := h.asked ev' hev
      · exact .inl hmem
      · rw [hpc] at hheld
        exact absurd (Option.some.inj hheld).symm heq
      · exact .inr (.inr ⟨k, (hsame Pc.puts rfl k).trans hk⟩)

theorem inv_unmark (hpc : s.pcs host = .dropping ev) : Inv host (goto (mark s ev false) host (.removing ev)) := by
  have hsame : ∀ {α : Type} (f : Pc ε → α), f (.removing ev) = f (.dropping ev) → ∀ j,
      f ((goto s host (.removing ev)).pcs j) = f (s.pcs j) := fun f hf => project_goto f (by rw [hpc, hf])
  have hcontrol : Control host (goto s host (.removing ev)) := h.control.move (by rw [hpc]; rfl) fun _ => rfl
  have hself : (goto s host (.removing ev)).pcs host = .removing ev := goto_pcs_self
  have hplaces := h.places
  rw [hpc] at hplaces
  refine ⟨⟨hcontrol.lock, hcontrol.roles⟩, ?_, h.intact, h.accounted, h.inOrder, ?_, fun ev' hev => ?_,
    awake_goto h.awake nofun fun heq => absurd (hpc.symm.trans heq) nofun⟩
  · have hunmark := hplaces.unmark
    have hholds : ((goto s host (.removing ev)).pcs host).holds = none := congrArg Pc.holds hself
    have hremoves : ((goto s host (.removing ev)).pcs host).removes = some (ev, true) := congrArg Pc.removes hself
    rw [← funext (hsame Pc.puts rfl), ← hholds, ← hremoves] at hunmark
    exact hunmark
  · exact h.calls.trans (congrArg (fun x => x.toList ++ s.ran) (hsame Pc.inHand rfl host).symm)
  · have hgoto : Pending host (goto s host (.removing ev)) ev' :=
      (h.asked ev' hev).goto (by rw [hpc]; rfl) fun heq => by rw [hpc] at heq; cases heq
    exact hgoto

theorem inv_delete (hpc : s.pcs host = .deleting ev) : Inv host (goto (remove s ev) host .unlocking) := by
  have hsame : ∀ {α : Type} (f : Pc ε → α), f .unlocking = f (.deleting ev) → ∀ j,
      f ((goto s host .unlocking).pcs j) = f (s.pcs j) := fun f hf => project_goto f (by rw [hpc, hf])
  have hcontrol : Control host (goto s host .unlocking) := h.control.move (by rw [hpc]; rfl) nofun
  have hself : (goto s host .unlocking).pcs host = .unlocking := goto_pcs_self
  have hlist : (s.queue.filter fun x => decide (x.2 ≠ ev)).map Prod.snd = (s.queue.map Prod.snd).filter (· ≠ ev) := by
    rw [List.filter_map]
    rfl
  have hplaces := h.places
  rw [hpc] at hplaces
  refine ⟨⟨hcontrol.lock, hcontrol.roles⟩, ?_, ?_, ?_, ?_, ?_, fun ev' hev => ?_,
    fun hwaiting => absurd (hself.symm.trans hwaiting) nofun⟩
  · have hdelete := hplaces.delete
    have hholds : ((goto s host .unlocking).pcs host).holds = none := congrArg Pc.holds hself
    have hremoves : ((goto s host .unlocking).pcs host).removes = none := congrArg Pc.removes hself
    rw [← funext (hsame Pc.puts rfl), ← hholds, ← hremoves, ← hlist] at hdelete
    exact hdelete
  · have hthere : (s.queue.all fun x => decide (x.2 ≠ ev)) = false := by
      obtain ⟨x, hx, heq⟩ := List.mem_map.mp (hplaces.removed ev true rfl)
      exact List.all_eq_false.mpr ⟨x, hx, by simpa using heq⟩
    exact Bool.or_eq_false_iff.mpr ⟨h.intact, hthere⟩
  · have hperm : ((s.queue.filter fun x => decide (x.2 = ev)) ++
        s.queue.filter fun x => decide (x.2 ≠ ev)).Perm s.queue := by
      have hsplit := List.filter_append_perm (fun x : Nat × ε => decide (x.2 = ev)) s.queue
      simpa using hsplit
    have hmoved : (s.taken ++ ((s.queue.filter (fun x => decide (x.2 = ev)) ++ s.removed) ++
        s.queue.filter fun x => decide (x.2 ≠ ev))).Perm (s.taken ++ (s.removed ++ s.queue)) := by
      refine List.Perm.append_left s.taken ?_
      refine (List.perm_append_comm.append_right _).trans ?_
      rw [List.append_assoc]
      exact hperm.append_left s.removed
    exact (hmoved.map Prod.fst).trans h.accounted
  · have hsub : (s.taken.reverse ++ s.queue.filter fun x => decide (x.2 ≠ ev)).Sublist (s.taken.reverse ++ s.queue) :=
      List.filter_sublist.append_left s.taken.reverse
    exact h.inOrder.sublist (hsub.map Prod.fst)
  · exact h.calls.trans (congrArg (fun x => x.toList ++ s.ran) (hsame Pc.inHand rfl host).symm)
  · by_cases heq : ev' = ev
    · rw [heq] at hev
      exact absurd ((Function.update_self _ _ _).symm.trans hev) nofun
    · have hev : s.owed ev' = true := (Function.update_of_ne heq _ _).symm.trans hev
      obtain hmem | hheld | ⟨k, hk⟩ := h.asked ev' hev
      · refine .inl ?_
        have hkept : ev' ∈ (s.queue.map Prod.snd).filter (· ≠ ev) := List.mem_filter.mpr ⟨hmem, decide_eq_true heq⟩
        rw [← hlist] at hkept
        exact hkept
      · rw [hpc] at hheld
        cases hheld
      · exact .inr (.inr ⟨k, (hsame Pc.puts rfl k).trans hk⟩)

end Moves

theorem inv_moved [DecidableEq ε] (h : Inv host s) (hmoved : Moved host s s') : Inv host s' := by
  cases hmoved with
  | same => exact h
  | quiet hputs hholds hremoves hhand hwaiting hsignal hlock hrole =>
    exact inv_quiet h hputs hholds hremoves hhand hwaiting hsignal hlock hrole
  | @asked ev hflag =>
    refine ⟨⟨h.control.lock, h.control.roles⟩, h.places, h.intact, h.accounted, h.inOrder, h.calls,
      fun ev' hev => ?_, h.awake⟩
    by_cases heq : ev' = ev
    · subst heq
      obtain hmem | hheld | hputs := h.places.flagged ev' hflag
      · exact .inl hmem
      · exact .inr (.inl (inHand_of_holds hheld))
      · exact .inr (.inr hputs)
    · exact h.asked ev' ((Function.update_of_ne heq _ _).symm.trans hev)
  | begin hpc hflag hputs hremoves => exact inv_begin h hpc hflag hputs hremoves
  | mark hpc => exact inv_mark h hpc
  | insert hpc => exact inv_insert h hpc
  | @signal i hpc hwaiting =>
    -- first the host wakes, then the signalling thread goes on
    have hwoken : Inv host (goto s host .woken) :=
      inv_quiet h (by rw [hwaiting]; rfl) (by rw [hwaiting]; rfl) (by rw [hwaiting]; rfl) (by rw [hwaiting]; rfl) nofun
        (fun heq => absurd (hwaiting.symm.trans heq) nofun) (h.control.lock.move (by rw [hwaiting]; rfl)) fun _ => rfl
    have hne : i ≠ host := fun heq => by rw [heq, hwaiting] at hpc; cases hpc
    have hpc' : (goto s host .woken).pcs i = .signalling := (goto_pcs_of_ne hne).trans hpc
    have hawake : (goto s host .woken).pcs host ≠ .waiting := fun heq => absurd (goto_pcs_self.symm.trans heq) nofun
    exact inv_quiet hwoken (by rw [hpc']; rfl) (by rw [hpc']; rfl) (by rw [hpc']; rfl) (by rw [hpc']; rfl) nofun
      (fun _ => hawake) (hwoken.control.lock.move (by rw [hpc']; rfl)) nofun
  | take hpc hqueue => exact inv_take h hpc hqueue
  | clear hpc => exact inv_clear h hpc
  | run hpc => exact inv_run h hpc
  | beginRemove hpc hflag hputs => exact inv_beginRemove h hpc hflag hputs
  | unmark hpc => exact inv_unmark h hpc
  | delete hpc => exact inv_delete h hpc

omit [DecidableEq τ] in
theorem inv_initial (host : τ) : Inv host (initial : Queue τ ε) where
  control := ⟨fun _ => iff_of_false nofun nofun, nofun⟩
  places := ⟨nofun, nofun, nofun, nofun, nofun, nofun, List.nodup_nil⟩
  intact := rfl
  accounted := List.Perm.refl _
  inOrder := List.Pairwise.nil
  calls := rfl
  asked := nofun
  awake := nofun

/-- **The property** of the queue. It is linked as it should be, with each event once; every insertion is taken, in
order, or removed, or still there; what was taken is called, once; a request is followed by a call, unless the event
is removed; and where the host waits beside an event, the thread that put it is about to wake it. -/
structure Sound (host : τ) (s : Queue τ ε) : Prop where
  intact : s.broken = false ∧ (s.queue.map Prod.snd).Nodup
  accounted : ((s.taken ++ (s.removed ++ s.queue)).map Prod.fst).Perm (List.range s.next)
  inOrder : ((s.taken.reverse ++ s.queue).map Prod.fst).Pairwise (· < ·)
  calls : s.taken.map Prod.snd = (s.pcs host).inHand.toList ++ s.ran
  asked : ∀ ev, s.owed ev = true → Pending host s ev
  awake : s.pcs host = .waiting → s.queue ≠ [] → ∃ i, s.pcs i = .signalling ∧ s.lock = some i

omit [DecidableEq τ] in
theorem Inv.sound (h : Inv host s) : Sound host s where
  intact := ⟨h.intact, h.places.nodup⟩
  accounted := h.accounted
  inOrder := h.inOrder
  calls := h.calls
  asked := h.asked
  awake hwaiting hqueue := by
    obtain ⟨i, hi⟩ := h.awake hwaiting hqueue
    exact ⟨i, hi, (h.control.lock i).mp (by rw [hi]; rfl)⟩

theorem queue_sound [DecidableEq ε] (h : Reach (step host) (Ordered host) initial s) : Sound host s := by
  have hinv : Inv host s := h.invariant (inv_initial host) fun _ _ _ hinv hordered hstep =>
    inv_moved hinv (moved_of_step hinv.control hordered hstep)
  exact hinv.sound

/-- The host waits, and another thread puts an event, twice; the second time it is in the queue already. -/
def ring : List (Event Bool Nat) :=
  [.call false (.get true), .go false, .go false, .call true (.put 7)] ++ List.replicate 5 (.go true) ++
    [.call true (.put 7)] ++ List.replicate 6 (.go false)

theorem queue_sound_rung : ∃ s : Queue Bool Nat, Sound false s ∧ s.ran = [7] ∧ s.next = 1 := by
  obtain ⟨s, hreach, hdone⟩ : ∃ s : Queue Bool Nat, Reach (step false) (Ordered false) initial s ∧
      (s.ran = [7] ∧ s.next = 1) :=
    exists_reach ring (by decide +kernel)
  exact ⟨s, queue_sound hreach, hdone⟩

/-- Out of order, two threads that put the same event link it in twice. -/
example : ∃ s : Queue Bool Nat, Reach (step false) (fun _ _ => True) initial s ∧ s.broken = true :=
  exists_reach
    ([.call false (.put 7), .call true (.put 7)] ++ List.replicate 5 (.go false) ++ List.replicate 3 (.go true))
    (by decide +kernel)

end Run

end EventQueue

end Thingino.Bluetooth
