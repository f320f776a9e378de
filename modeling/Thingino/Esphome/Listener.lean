import Thingino.Lib.Bytes
import Thingino.Lib.History
import Thingino.Lib.Holder
import Thingino.Lib.Transition
import Mathlib.Data.List.Chain

/-! The thread that listens for the wake word.

`wake_word_start`, `wake_word_resume`, `wake_word_stop` and `wake_word_suspend` may be called from any thread. They
hold the lock for a few assignments only: what lies between, where a thread is created or joined, is guarded by the
state alone. The thread itself writes the input of the model and counts the frames in it without the lock.
What comes out of the floating point is a parameter: whether an average or a single probability is high enough. -/
namespace Thingino.Esphome
open Lib

namespace Listener

/-- `WAKE_WORD_WARMUP_INFERENCES`, `WAKE_WORD_SLIDING_WINDOW_AVERAGE_SIZE` and `WAKE_WORD_COOLDOWN_MS`. -/
def warmupInferences : Nat := 10
def averageSize : Nat := 5
def cooldownMs : UInt64 := 2000

/-- `slots` is the dimension of the input tensor that counts frames, and is not 0 in a tensor. -/
structure Model (φ : Type) where
  slots : Nat
  room : 0 < slots
  zero : φ
  averaged : List Byte → Bool
  peak : Byte → Bool

/-- `model_stride`: a byte, and at least 1. -/
def Model.stride {φ : Type} (m : Model φ) : Nat := if m.slots % 256 < 1 then 1 else m.slots % 256

inductive State
  | stopped
  | starting
  | detecting
  | stopping
  deriving DecidableEq

/-- Where a caller is: before the audio input, the creation of the thread and the last assignment of a start, or
before the join and the last assignment of a stop. -/
inductive Place
  | idle
  | audio
  | create
  | started
  | join
  | joined
  deriving DecidableEq

/-- A detection, with what it rests on: the array of the last probabilities, all of them since the last detection or
start, and how many inferences there were since that start. -/
structure Detection where
  time : UInt64
  probability : Byte
  window : List Byte
  values : List Byte
  judged : Nat

/-- Where the thread is in its loop. -/
inductive Pc (φ : Type)
  | check
  | generate
  | load (features : φ)
  | advance
  | judge (probability : Byte)
  | decide (probability : Byte) (window values : List Byte) (judged : Nat)
  | clear
  | call
  | exited
  deriving DecidableEq

end Listener

open Listener

/-- `workers` are the threads that were ever created. The last seven fields are for the record: the caller that has
taken the state away from the others, the threads joined, then since the last start the frames, the inputs of the
inferences and their number, since the last detection or start the probabilities, and all detections. -/
structure Listener (φ : Type) where
  state : State
  detectionActive : Bool
  detectionThread : Nat
  places : Nat → Place
  workers : List (Pc φ)
  tensor : List φ
  strideStep : Nat
  warmup : Nat
  history : List Byte
  historyPos : Nat
  lastDetection : UInt64
  now : UInt64
  holder : Option Nat
  joins : List Nat
  frames : List φ
  inputs : List (List φ)
  judged : Nat
  values : List Byte
  detections : List Detection

namespace Listener

/-- The calls of a caller `c` and its steps; then those of a thread `t`. `stop` is `wake_word_stop` or
`wake_word_suspend`, which differ in the audio input only. -/
inductive Event (φ : Type)
  | clock (now : UInt64)
  | start (c : Nat)
  | resume (c : Nat)
  | audio (c : Nat) (ok : Bool)
  | create (c : Nat) (ok : Bool)
  | started (c : Nat)
  | stop (c : Nat)
  | join (c : Nat)
  | stopped (c : Nat)
  | check (t : Nat) (shutdown : Bool)
  | generate (t : Nat) (features : Option φ)
  | load (t : Nat)
  | advance (t : Nat) (output : Option Byte)
  | judge (t : Nat)
  | decide (t : Nat)
  | clear (t : Nat)
  | call (t : Nat)

variable {φ : Type} (m : Model φ) (d : Listener φ)

/-! ### The callers -/

def move (c : Nat) (place : Place) : Listener φ := { d with places := Function.update d.places c place }

/-- The first locked part of a start. -/
def reset (c : Nat) (place : Place) : Listener φ :=
  { d.move c place with
    state := .starting
    detectionActive := true
    tensor := List.replicate m.slots m.zero
    strideStep := 0
    warmup := warmupInferences
    history := List.replicate averageSize 0
    historyPos := 0
    holder := some c
    frames := []
    inputs := []
    judged := 0
    values := [] }

def begin (c : Nat) (place : Place) : Option (Listener φ) :=
  if d.places c ≠ .idle then none else if d.state ≠ .stopped then some d else some (d.reset m c place)

/-- The way out of a start that failed. -/
def abandon (c : Nat) : Listener φ :=
  { d.move c .idle with state := .stopped, detectionActive := false, holder := none }

def audio (c : Nat) (ok : Bool) : Option (Listener φ) :=
  if d.places c ≠ .audio then none else if ok then some (d.move c .create) else some (d.abandon c)

def create (c : Nat) (ok : Bool) : Option (Listener φ) :=
  if d.places c ≠ .create then none
  else if ok then
    some { d.move c .started with detectionThread := d.workers.length, workers := d.workers ++ [.check] }
  else some (d.abandon c)

def started (c : Nat) : Option (Listener φ) :=
  if d.places c ≠ .started then none else some { d.move c .idle with state := .detecting, holder := none }

def stop (c : Nat) : Option (Listener φ) :=
  if d.places c ≠ .idle then none
  else if d.state ≠ .detecting then some d
  else some { d.move c .join with state := .stopping, detectionActive := false, holder := some c }

/-- `pthread_join` returns when the thread has. -/
def join [DecidableEq φ] (c : Nat) : Option (Listener φ) :=
  if d.places c ≠ .join ∨ d.workers[d.detectionThread]? ≠ some .exited then none
  else some { d.move c .joined with joins := d.detectionThread :: d.joins }

def stopped (c : Nat) : Option (Listener φ) :=
  if d.places c ≠ .joined then none else some { d.move c .idle with state := .stopped, holder := none }

/-! ### The thread -/

def goto (t : Nat) (pc : Pc φ) : Listener φ := { d with workers := d.workers.set t pc }

/-- `generate_features` gives a frame or nothing. The frames are counted when they go into the tensor. -/
def load (t : Nat) (features : φ) : Listener φ :=
  { d.goto t .advance with
    tensor := d.tensor.set d.strideStep features
    strideStep := d.strideStep + 1
    frames := d.frames ++ [features] }

/-- The rest of `run_inference`; without an output the thread gives up. -/
def advance (t : Nat) (output : Option Byte) : Listener φ :=
  if d.strideStep < m.stride then d.goto t .check
  else
    { d.goto t (match output with | some probability => .judge probability | none => .exited) with
      strideStep := 0
      inputs := d.inputs ++ [d.tensor.take m.stride] }

/-- The locked part behind an inference. -/
def judge (t : Nat) (probability : Byte) : Listener φ :=
  if 0 < d.warmup then { d.goto t .check with warmup := d.warmup - 1, judged := d.judged + 1 }
  else
    let history := d.history.set d.historyPos probability
    { d.goto t (.decide probability history (probability :: d.values) (d.judged + 1)) with
      history
      historyPos := (d.historyPos + 1) % averageSize
      judged := d.judged + 1
      values := probability :: d.values }

def settle (t : Nat) (found : Detection) : Listener φ :=
  if (m.averaged found.window || m.peak found.probability) && decide (cooldownMs ≤ d.now - d.lastDetection) then
    { d.goto t .clear with lastDetection := d.now, detections := found :: d.detections }
  else d.goto t .check

def forget (t : Nat) : Listener φ :=
  { d.goto t .call with history := List.replicate averageSize 0, strideStep := 0, values := [] }

/-- A step of the thread `t`, which is at the place that the event is for. -/
def turn (pc : Pc φ) : Event φ → Option (Listener φ)
  | .check t shutdown =>
    match pc with
    | .check => some (d.goto t (if shutdown || !d.detectionActive then .exited else .generate))
    | _ => none
  | .generate t features =>
    match pc with
    | .generate => some (d.goto t (features.elim .check .load))
    | _ => none
  | .load t =>
    match pc with
    | .load features => some (d.load t features)
    | _ => none
  | .advance t output =>
    match pc with
    | .advance => some (d.advance m t output)
    | _ => none
  | .judge t =>
    match pc with
    | .judge probability => some (d.judge t probability)
    | _ => none
  | .decide t =>
    match pc with
    | .decide probability window values judged => some (d.settle m t ⟨d.now, probability, window, values, judged⟩)
    | _ => none
  | .clear t =>
    match pc with
    | .clear => some (d.forget t)
    | _ => none
  | .call t =>
    match pc with
    | .call => some (d.goto t .check)
    | _ => none
  | _ => none

/-- The thread that an event is a step of. -/
def Event.thread : Event φ → Option Nat
  | .check t _ | .generate t _ | .load t | .advance t _ | .judge t | .decide t | .clear t | .call t => some t
  | _ => none

def step [DecidableEq φ] (e : Event φ) : Option (Listener φ) :=
  match e with
  | .clock now => some { d with now }
  | .start c => d.begin m c .audio
  | .resume c => d.begin m c .create
  | .audio c ok => d.audio c ok
  | .create c ok => d.create c ok
  | .started c => d.started c
  | .stop c => d.stop c
  | .join c => d.join c
  | .stopped c => d.stopped c
  | e => e.thread.bind fun t => d.workers[t]?.bind fun pc => d.turn m pc e

/-- As `wake_word_init` leaves it, at some time. -/
def initial (now : UInt64) : Listener φ :=
  ⟨.stopped, false, 0, fun _ => .idle, [], List.replicate m.slots m.zero, 0, 0, List.replicate averageSize 0, 0, 0,
    now, none, [], [], [], 0, [], []⟩

/-! ### One thread at a time -/

/-- Every thread has returned and was joined, in the order of their creation. -/
structure Closed : Prop where
  exited : ∀ pc ∈ d.workers, pc = .exited
  joins : d.joins = (List.range d.workers.length).reverse

/-- So they were, but for the last one. -/
structure Opened (before : List (Pc φ)) (pc : Pc φ) : Prop where
  workers : d.workers = before ++ [pc]
  exited : ∀ pc ∈ before, pc = .exited
  joins : d.joins = (List.range before.length).reverse
  thread : d.detectionThread = before.length

/-- The state and the threads, by the place of the caller that has the state; `idle` if there is none. -/
def Phase : Place → Prop
  | .idle => (d.state = .stopped ∧ d.Closed) ∨ (d.state = .detecting ∧ ∃ before pc, d.Opened before pc)
  | .audio | .create => d.state = .starting ∧ d.Closed
  | .started => d.state = .starting ∧ ∃ before pc, d.Opened before pc
  | .join => d.state = .stopping ∧ d.detectionActive = false ∧ ∃ before pc, d.Opened before pc
  | .joined => d.state = .stopping ∧ d.Closed

variable {d} in
theorem Phase.congr {d' : Listener φ} {place : Place} (h : d.Phase place) (hstate : d'.state = d.state)
    (hactive : d'.detectionActive = d.detectionActive) (hthread : d'.detectionThread = d.detectionThread)
    (hworkers : d'.workers = d.workers) (hjoins : d'.joins = d.joins) : d'.Phase place := by
  have hclosed : d.Closed → d'.Closed := fun h => ⟨hworkers ▸ h.exited, by rw [hjoins, hworkers]; exact h.joins⟩
  have hopen : (∃ before pc, d.Opened before pc) → ∃ before pc, d'.Opened before pc := by
    rintro ⟨before, pc, h⟩
    exact ⟨before, pc, hworkers.trans h.workers, h.exited, hjoins.trans h.joins, hthread.trans h.thread⟩
  cases place with
  | idle => exact h.imp (And.imp hstate.trans hclosed) (And.imp hstate.trans hopen)
  | audio | create | joined => exact And.imp hstate.trans hclosed h
  | started => exact And.imp hstate.trans hopen h
  | join => exact And.imp hstate.trans (And.imp hactive.trans hopen) h

/-- A caller between its first and its last locked part has the state. -/
def owns (place : Place) : Bool := place ≠ .idle

structure Owned : Prop where
  holds : Holds owns d.places d.holder
  phase : d.Phase (d.holder.elim .idle d.places)

variable {m d} {d' : Listener φ} {before : List (Pc φ)} {pc : Pc φ} {t c : Nat} {e : Event φ}

theorem Opened.running (h : d.Opened before pc) {i : Nat} {pc' : Pc φ} (hi : d.workers[i]? = some pc')
    (hpc : pc' ≠ .exited) : i = before.length ∧ pc' = pc := by
  rw [h.workers] at hi
  obtain hlt | hge := Nat.lt_or_ge i before.length
  · rw [List.getElem?_append_left hlt] at hi
    exact absurd (h.exited pc' (List.mem_of_getElem? hi)) hpc
  · rw [List.getElem?_append_right hge] at hi
    rw [List.getElem?_singleton, Option.ite_none_right_eq_some] at hi
    exact ⟨by omega, (Option.some.inj hi.2).symm⟩

theorem Closed.not_running (h : d.Closed) {i : Nat} {pc' : Pc φ} (hi : d.workers[i]? = some pc') : pc' = .exited :=
  h.exited pc' (List.mem_of_getElem? hi)

/-- The steps of the thread `t`, by its place. -/
inductive Turn (m : Model φ) (d : Listener φ) (t : Nat) : Pc φ → Listener φ → Prop
  | check (shutdown : Bool) :
    Turn m d t .check (d.goto t (if shutdown || !d.detectionActive then .exited else .generate))
  | generate (features : Option φ) : Turn m d t .generate (d.goto t (features.elim .check .load))
  | load (features : φ) : Turn m d t (.load features) (d.load t features)
  | advance (output : Option Byte) : Turn m d t .advance (d.advance m t output)
  | judge (probability : Byte) : Turn m d t (.judge probability) (d.judge t probability)
  | decide (probability : Byte) (window values : List Byte) (judged : Nat) :
    Turn m d t (.decide probability window values judged) (d.settle m t ⟨d.now, probability, window, values, judged⟩)
  | clear : Turn m d t .clear (d.forget t)
  | call : Turn m d t .call (d.goto t .check)

theorem turn_of_eq_some (h : d.turn m pc e = some d') (ht : e.thread = some t) : Turn m d t pc d' := by
  cases e with
  | check t' shutdown => cases ht; cases pc with
    | check => cases h; exact .check shutdown
    | _ => cases h
  | generate t' features => cases ht; cases pc with
    | generate => cases h; exact .generate features
    | _ => cases h
  | load t' => cases ht; cases pc with
    | load features => cases h; exact .load features
    | _ => cases h
  | advance t' output => cases ht; cases pc with
    | advance => cases h; exact .advance output
    | _ => cases h
  | judge t' => cases ht; cases pc with
    | judge probability => cases h; exact .judge probability
    | _ => cases h
  | decide t' => cases ht; cases pc with
    | decide probability window values judged => cases h; exact .decide probability window values judged
    | _ => cases h
  | clear t' => cases ht; cases pc with
    | clear => cases h; exact .clear
    | _ => cases h
  | call t' => cases ht; cases pc with
    | call => cases h; exact .call
    | _ => cases h
  | _ => cases ht

/-- What a step of the thread leaves to the callers. -/
structure Kept (d d' : Listener φ) (t : Nat) : Prop where
  state : d'.state = d.state
  active : d'.detectionActive = d.detectionActive
  thread : d'.detectionThread = d.detectionThread
  places : d'.places = d.places
  holder : d'.holder = d.holder
  joins : d'.joins = d.joins
  workers : ∃ pc', d'.workers = d.workers.set t pc'

theorem kept_goto (d : Listener φ) (t : Nat) (pc : Pc φ) : Kept d (d.goto t pc) t :=
  ⟨rfl, rfl, rfl, rfl, rfl, rfl, pc, rfl⟩

theorem Turn.kept (h : Turn m d t pc d') : pc ≠ .exited ∧ Kept d d' t := by
  cases h with
  | check shutdown => exact ⟨nofun, kept_goto d t _⟩
  | generate features => exact ⟨nofun, kept_goto d t _⟩
  | load features => exact ⟨nofun, rfl, rfl, rfl, rfl, rfl, rfl, _, rfl⟩
  | advance output =>
    refine ⟨nofun, ?_⟩
    unfold Listener.advance
    split
    · exact kept_goto d t _
    · exact ⟨rfl, rfl, rfl, rfl, rfl, rfl, _, rfl⟩
  | judge probability =>
    refine ⟨nofun, ?_⟩
    unfold Listener.judge
    split <;> exact ⟨rfl, rfl, rfl, rfl, rfl, rfl, _, rfl⟩
  | decide probability window values judged =>
    refine ⟨nofun, ?_⟩
    unfold settle
    split
    · exact ⟨rfl, rfl, rfl, rfl, rfl, rfl, _, rfl⟩
    · exact kept_goto d t _
  | clear => exact ⟨nofun, rfl, rfl, rfl, rfl, rfl, rfl, _, rfl⟩
  | call => exact ⟨nofun, kept_goto d t _⟩

/-- A step of the thread is one of the last thread. -/
theorem Opened.kept (h : d.Opened before pc) (hkept : Kept d d' before.length) : ∃ pc', d'.Opened before pc' := by
  obtain ⟨pc', hworkers⟩ := hkept.workers
  refine ⟨pc', ?_, h.exited, hkept.joins.trans h.joins, hkept.thread.trans h.thread⟩
  rw [hworkers, h.workers, List.set_append_right _ _ (Nat.le_refl _), Nat.sub_self]
  rfl

/-- The place of a caller on its way tells the state. -/
theorem Owned.busy (h : d.Owned) (hc : d.places c ≠ .idle) : d.holder = some c ∧ d.Phase (d.places c) := by
  have hholder := (h.holds c).mp (decide_eq_true hc)
  have hphase := h.phase
  rw [hholder] at hphase
  exact ⟨hholder, hphase⟩

/-- In these states no caller is on its way. -/
theorem Owned.free (h : d.Owned) (hstate : d.state = .stopped ∨ d.state = .detecting) :
    d.holder = none ∧ d.Phase .idle := by
  have hphase := h.phase
  cases hholder : d.holder with
  | none => exact ⟨rfl, by rwa [hholder] at hphase⟩
  | some c =>
    exfalso
    have hbusy := (h.holds c).mpr hholder
    rw [hholder] at hphase
    change d.Phase (d.places c) at hphase
    cases hplace : d.places c <;> rw [hplace] at hphase hbusy <;> simp [Phase, owns] at hphase hbusy <;>
      simp [hphase.1] at hstate

/-- A caller sets out. -/
theorem owned_take (h : d.Owned) (hholder : d.holder = none) {place : Place} (hplace : place ≠ .idle)
    (hplaces : d'.places = Function.update d.places c place) (hholder' : d'.holder = some c) (hphase : d'.Phase place) :
    d'.Owned := by
  refine ⟨?_, ?_⟩
  · rw [hplaces, hholder']
    exact Holds.take (hholder ▸ h.holds) (decide_eq_true hplace)
  · rw [hholder', hplaces, Option.elim_some, Function.update_self]
    exact hphase

/-- A caller goes on. -/
theorem owned_move (h : d.Owned) (hc : d.places c ≠ .idle) {place : Place} (hplace : place ≠ .idle)
    (hplaces : d'.places = Function.update d.places c place) (hholder' : d'.holder = d.holder)
    (hphase : d'.Phase place) : d'.Owned := by
  have hholder := (h.busy hc).1
  refine ⟨?_, ?_⟩
  · rw [hplaces, hholder']
    exact h.holds.move (by simp only [owns, decide_eq_decide]; exact iff_of_true hplace hc)
  · rw [hholder', hholder, hplaces, Option.elim_some, Function.update_self]
    exact hphase

/-- A caller is back. -/
theorem owned_leave (h : d.Owned) (hc : d.places c ≠ .idle)
    (hplaces : d'.places = Function.update d.places c .idle) (hholder' : d'.holder = none)
    (hphase : d'.Phase .idle) : d'.Owned := by
  refine ⟨?_, ?_⟩
  · have hleave := h.holds.leave (p := c) (t := .idle) (by decide)
    rw [(h.busy hc).1, Option.filter_some, if_neg (by simp)] at hleave
    rw [hplaces, hholder']
    exact hleave
  · rw [hholder']
    exact hphase

theorem owned_initial (m : Model φ) (now : UInt64) : (initial m now).Owned :=
  ⟨fun _ => ⟨nofun, nofun⟩, .inl ⟨rfl, nofun, rfl⟩⟩

theorem owned_begin (h : d.Owned) {place : Place} (hplace : place = .audio ∨ place = .create)
    (hstep : d.begin m c place = some d') : d'.Owned := by
  unfold begin at hstep
  split at hstep
  · cases hstep
  split at hstep <;> obtain rfl := Option.some.inj hstep
  · exact h
  · rename_i hstate
    obtain ⟨hholder, hphase⟩ := h.free (.inl (not_not.mp hstate))
    obtain ⟨-, hclosed⟩ | ⟨hdetecting, -⟩ := hphase
    · have hclosed' : (d.reset m c place).Closed := ⟨hclosed.exited, hclosed.joins⟩
      refine @owned_take φ d (d.reset m c place) c h hholder place ?_ rfl rfl ?_
      · rintro rfl
        simp at hplace
      · obtain rfl | rfl := hplace <;> exact ⟨rfl, hclosed'⟩
    · rw [hdetecting] at hstate
      exact absurd (not_not.mp hstate) nofun

theorem owned_abandon (h : d.Owned) (hplace : d.places c = .audio ∨ d.places c = .create) : (d.abandon c).Owned := by
  have hbusy : d.places c ≠ .idle := by
    intro hidle
    rw [hidle] at hplace
    simp at hplace
  have hclosed : d.Closed := by
    have hphase := (h.busy hbusy).2
    obtain hplace | hplace := hplace <;> rw [hplace] at hphase <;> exact hphase.2
  exact owned_leave h hbusy rfl rfl (.inl ⟨rfl, hclosed.exited, hclosed.joins⟩)

theorem owned_audio (h : d.Owned) {ok : Bool} (hstep : d.audio c ok = some d') : d'.Owned := by
  unfold Listener.audio at hstep
  split at hstep
  · cases hstep
  rename_i hplace
  have hplace : d.places c = .audio := not_not.mp hplace
  split at hstep <;> obtain rfl := Option.some.inj hstep
  · have hphase := (h.busy (by rw [hplace]; nofun)).2
    rw [hplace] at hphase
    exact owned_move h (by rw [hplace]; nofun) (by nofun) rfl rfl ⟨hphase.1, hphase.2.exited, hphase.2.joins⟩
  · exact owned_abandon h (.inl hplace)

theorem owned_create (h : d.Owned) {ok : Bool} (hstep : d.create c ok = some d') : d'.Owned := by
  unfold Listener.create at hstep
  split at hstep
  · cases hstep
  rename_i hplace
  have hplace : d.places c = .create := not_not.mp hplace
  split at hstep <;> obtain rfl := Option.some.inj hstep
  · have hphase := (h.busy (by rw [hplace]; nofun)).2
    rw [hplace] at hphase
    exact owned_move h (by rw [hplace]; nofun) (by nofun) rfl rfl
      ⟨hphase.1, d.workers, .check, rfl, hphase.2.exited, hphase.2.joins, rfl⟩
  · exact owned_abandon h (.inr hplace)

theorem owned_started (h : d.Owned) (hstep : d.started c = some d') : d'.Owned := by
  unfold Listener.started at hstep
  split at hstep
  · cases hstep
  rename_i hplace
  have hplace : d.places c = .started := not_not.mp hplace
  obtain rfl := Option.some.inj hstep
  have hphase := (h.busy (by rw [hplace]; nofun)).2
  rw [hplace] at hphase
  obtain ⟨-, before, pc, hopen⟩ := hphase
  exact owned_leave h (by rw [hplace]; nofun) rfl rfl
    (.inr ⟨rfl, before, pc, hopen.workers, hopen.exited, hopen.joins, hopen.thread⟩)

theorem owned_stop (h : d.Owned) (hstep : d.stop c = some d') : d'.Owned := by
  unfold stop at hstep
  split at hstep
  · cases hstep
  split at hstep <;> obtain rfl := Option.some.inj hstep
  · exact h
  · rename_i hstate
    obtain ⟨hholder, hphase⟩ := h.free (.inr (not_not.mp hstate))
    obtain ⟨hstopped, -⟩ | ⟨-, before, pc, hopen⟩ := hphase
    · rw [hstopped] at hstate
      exact absurd (not_not.mp hstate) nofun
    · exact owned_take h hholder (by nofun) rfl rfl
        ⟨rfl, rfl, before, pc, hopen.workers, hopen.exited, hopen.joins, hopen.thread⟩

theorem owned_join [DecidableEq φ] (h : d.Owned) (hstep : d.join c = some d') : d'.Owned := by
  unfold Listener.join at hstep
  split at hstep
  · cases hstep
  rename_i hready
  obtain ⟨hplace, hexited⟩ := not_or.mp hready
  have hplace : d.places c = .join := not_not.mp hplace
  have hexited := not_not.mp hexited
  obtain rfl := Option.some.inj hstep
  have hphase := (h.busy (by rw [hplace]; nofun)).2
  rw [hplace] at hphase
  obtain ⟨hstate, -, before, pc, hopen⟩ := hphase
  rw [hopen.thread, hopen.workers, List.getElem?_concat_length] at hexited
  have hlen : d.workers.length = before.length + 1 := by rw [hopen.workers, List.length_append, List.length_singleton]
  refine owned_move h (by rw [hplace]; nofun) (by nofun) rfl rfl ⟨hstate, ?_, ?_⟩
  · intro pc' hpc'
    have hpc' : pc' ∈ d.workers := hpc'
    rw [hopen.workers] at hpc'
    obtain hmem | hlast := List.mem_append.mp hpc'
    · exact hopen.exited pc' hmem
    · exact (List.mem_singleton.mp hlast).trans (Option.some.inj hexited)
  · change d.detectionThread :: d.joins = (List.range d.workers.length).reverse
    rw [hlen, List.range_succ, List.reverse_concat, hopen.thread, hopen.joins]

theorem owned_stopped (h : d.Owned) (hstep : d.stopped c = some d') : d'.Owned := by
  unfold Listener.stopped at hstep
  split at hstep
  · cases hstep
  rename_i hplace
  have hplace : d.places c = .joined := not_not.mp hplace
  obtain rfl := Option.some.inj hstep
  have hphase := (h.busy (by rw [hplace]; nofun)).2
  rw [hplace] at hphase
  exact owned_leave h (by rw [hplace]; nofun) rfl rfl (.inl ⟨rfl, hphase.2.exited, hphase.2.joins⟩)

/-- A thread that is not over is the last one, and the state is that of an open one. -/
theorem Owned.running (h : d.Owned) {i : Nat} (hi : d.workers[i]? = some pc) (hpc : pc ≠ .exited) :
    d.state ≠ .stopped ∧ ∃ before, d.Opened before pc ∧ i = before.length := by
  have hopen : ∀ before pc', d.Opened before pc' → ∃ before, d.Opened before pc ∧ i = before.length := by
    intro before pc' hopened
    obtain ⟨hlen, rfl⟩ := hopened.running hi hpc
    exact ⟨before, hopened, hlen⟩
  have hphase := h.phase
  cases hplace : d.holder.elim .idle d.places <;> rw [hplace] at hphase
  · obtain ⟨-, hclosed⟩ | ⟨hstate, before, pc', hopened⟩ := hphase
    · exact absurd (hclosed.not_running hi) hpc
    · exact ⟨by rw [hstate]; nofun, hopen before pc' hopened⟩
  · exact absurd (hphase.2.not_running hi) hpc
  · exact absurd (hphase.2.not_running hi) hpc
  · obtain ⟨hstate, before, pc', hopened⟩ := hphase
    exact ⟨by rw [hstate]; nofun, hopen before pc' hopened⟩
  · obtain ⟨hstate, -, before, pc', hopened⟩ := hphase
    exact ⟨by rw [hstate]; nofun, hopen before pc' hopened⟩
  · exact absurd (hphase.2.not_running hi) hpc

theorem owned_turn (h : d.Owned) (hpc : d.workers[t]? = some pc) (hturn : Turn m d t pc d') : d'.Owned := by
  obtain ⟨hexited, hkept⟩ := hturn.kept
  obtain ⟨-, before, hopen, rfl⟩ := h.running hpc hexited
  obtain ⟨pc', hopen'⟩ := hopen.kept hkept
  have hopened : ∃ before pc, d'.Opened before pc := ⟨before, pc', hopen'⟩
  have hnot : ¬d.Closed := fun hclosed => hexited (hclosed.not_running hpc)
  refine ⟨?_, ?_⟩
  · rw [hkept.places, hkept.holder]
    exact h.holds
  · have hphase := h.phase
    rw [hkept.holder, hkept.places]
    cases hplace : d.holder.elim .idle d.places <;> rw [hplace] at hphase
    · obtain ⟨-, hclosed⟩ | ⟨hstate, -⟩ := hphase
      · exact absurd hclosed hnot
      · exact .inr ⟨hkept.state.trans hstate, hopened⟩
    · exact absurd hphase.2 hnot
    · exact absurd hphase.2 hnot
    · exact ⟨hkept.state.trans hphase.1, hopened⟩
    · exact ⟨hkept.state.trans hphase.1, hkept.active.trans hphase.2.1, hopened⟩
    · exact absurd hphase.2 hnot

/-- A step is one of a caller, one of a thread, or one of the clock. -/
theorem step_thread [DecidableEq φ] (hstep : d.step m e = some d') (ht : e.thread = some t) :
    ∃ pc, d.workers[t]? = some pc ∧ Turn m d t pc d' := by
  have hbind : (d.workers[t]?.bind fun pc => d.turn m pc e) = some d' := by
    cases e <;> first | cases ht; exact hstep | cases ht
  obtain ⟨pc, hpc, hturn⟩ := Option.bind_eq_some_iff.mp hbind
  exact ⟨pc, hpc, turn_of_eq_some hturn ht⟩

theorem owned_step [DecidableEq φ] (h : d.Owned) (hstep : d.step m e = some d') : d'.Owned := by
  cases ht : e.thread with
  | some t =>
    obtain ⟨pc, hpc, hturn⟩ := step_thread hstep ht
    exact owned_turn h hpc hturn
  | none =>
    cases e with
    | clock now =>
      obtain rfl := Option.some.inj hstep
      exact ⟨h.holds, h.phase.congr rfl rfl rfl rfl rfl⟩
    | start c => exact owned_begin h (.inl rfl) hstep
    | resume c => exact owned_begin h (.inr rfl) hstep
    | audio c ok => exact owned_audio h hstep
    | create c ok => exact owned_create h hstep
    | started c => exact owned_started h hstep
    | stop c => exact owned_stop h hstep
    | join c => exact owned_join h hstep
    | stopped c => exact owned_stopped h hstep
    | _ => cases ht

/-- How many steps the thread has before it at most, once it is told to end. -/
def remaining : Pc φ → Nat
  | .exited => 0
  | .check => 1
  | .call => 2
  | .clear => 3
  | .decide .. => 4
  | .judge _ => 5
  | .advance => 6
  | .load _ => 7
  | .generate => 8

theorem Turn.remaining_lt (h : Turn m d t pc d') (hactive : d.detectionActive = false) {pc' : Pc φ}
    (hpc : d.workers[t]? = some pc) (hpc' : d'.workers[t]? = some pc') : remaining pc' < remaining pc := by
  have hset : ∀ pc'', (d.workers.set t pc'')[t]? = some pc' → pc' = pc'' := by
    intro pc'' hset
    rw [List.getElem?_set_self (List.getElem?_eq_some_iff.mp hpc).1] at hset
    exact (Option.some.inj hset).symm
  cases h with
  | check shutdown =>
    obtain rfl := hset _ hpc'
    rw [hactive, Bool.not_false, Bool.or_true, if_pos rfl]
    simp [remaining]
  | generate features =>
    obtain rfl := hset _ hpc'
    cases features <;> simp [remaining]
  | load features =>
    obtain rfl := hset _ hpc'
    simp [remaining]
  | advance output =>
    unfold Listener.advance at hpc'
    split at hpc'
    · obtain rfl := hset _ hpc'
      simp [remaining]
    · obtain rfl := hset _ hpc'
      cases output <;> simp [remaining]
  | judge probability =>
    unfold Listener.judge at hpc'
    split at hpc' <;> obtain rfl := hset _ hpc' <;> simp [remaining]
  | decide probability window values judged =>
    unfold settle at hpc'
    split at hpc' <;> obtain rfl := hset _ hpc' <;> simp [remaining]
  | clear | call =>
    obtain rfl := hset _ hpc'
    simp [remaining]

/-- **The property** of the threads. One runs at most; none does when a start clears what it works on; each one is
joined once, when it has returned; and a caller that waits for it waits for the rest of one turn of its loop. -/
structure Exclusive [DecidableEq φ] (m : Model φ) (d : Listener φ) : Prop where
  one : ∀ (i j : Nat) (pc pc' : Pc φ), d.workers[i]? = some pc → pc ≠ .exited → d.workers[j]? = some pc' →
    pc' ≠ .exited → i = j
  quiet : d.state = .stopped ∨ (∃ c, d.places c = .audio ∨ d.places c = .create) → ∀ pc ∈ d.workers, pc = .exited
  joins : d.joins.Nodup ∧ ∀ i ∈ d.joins, d.workers[i]? = some .exited
  waiting : ∀ c, d.places c = .join → d.detectionThread < d.workers.length ∧ d.detectionThread ∉ d.joins
  bounded : ∀ (c t : Nat) (pc pc' : Pc φ) (e : Event φ) (d' : Listener φ), d.places c = .join → d.step m e = some d' →
    e.thread = some t → d.workers[t]? = some pc → d'.workers[t]? = some pc' → remaining pc' < remaining pc

theorem Owned.joins (h : d.Owned) : d.joins.Nodup ∧ ∀ i ∈ d.joins, d.workers[i]? = some .exited := by
  have hrange : ∀ n, (List.range n).reverse.Nodup := fun n => List.nodup_reverse.mpr List.nodup_range
  have hclosed : d.Closed → d.joins.Nodup ∧ ∀ i ∈ d.joins, d.workers[i]? = some .exited := by
    intro hclosed
    rw [hclosed.joins]
    refine ⟨hrange _, fun i hi => ?_⟩
    have hlt := List.mem_range.mp (List.mem_reverse.mp hi)
    rw [List.getElem?_eq_getElem hlt, hclosed.exited _ (List.getElem_mem hlt)]
  have hopen : (∃ before pc, d.Opened before pc) → d.joins.Nodup ∧ ∀ i ∈ d.joins, d.workers[i]? = some .exited := by
    rintro ⟨before, pc, hopen⟩
    rw [hopen.joins, hopen.workers]
    refine ⟨hrange _, fun i hi => ?_⟩
    have hlt := List.mem_range.mp (List.mem_reverse.mp hi)
    rw [List.getElem?_append_left hlt, List.getElem?_eq_getElem hlt, hopen.exited _ (List.getElem_mem hlt)]
  have hphase := h.phase
  cases hplace : d.holder.elim .idle d.places <;> rw [hplace] at hphase
  · exact hphase.elim (fun h => hclosed h.2) fun h => hopen h.2
  · exact hclosed hphase.2
  · exact hclosed hphase.2
  · exact hopen hphase.2
  · exact hopen hphase.2.2
  · exact hclosed hphase.2

theorem Owned.exclusive [DecidableEq φ] (h : d.Owned) (m : Model φ) : Exclusive m d where
  one := by
    intro i j pc pc' hi hpc hj hpc'
    obtain ⟨-, before, hopen, rfl⟩ := h.running hi hpc
    exact (hopen.running hj hpc').1.symm
  quiet := by
    rintro (hstate | ⟨c, hplace⟩)
    · obtain ⟨-, hclosed⟩ | ⟨hdetecting, -⟩ := (h.free (.inl hstate)).2
      · exact hclosed.exited
      · rw [hstate] at hdetecting
        cases hdetecting
    · obtain hplace | hplace := hplace <;>
      · have hphase := (h.busy (by rw [hplace]; nofun)).2
        rw [hplace] at hphase
        exact hphase.2.exited
  joins := h.joins
  waiting := by
    intro c hplace
    have hphase := (h.busy (by rw [hplace]; nofun)).2
    rw [hplace] at hphase
    obtain ⟨-, -, before, pc, hopen⟩ := hphase
    rw [hopen.thread, hopen.workers, hopen.joins]
    simp
  bounded := by
    intro c t pc pc' e d' hplace hstep ht hpc hpc'
    have hphase := (h.busy (by rw [hplace]; nofun)).2
    rw [hplace] at hphase
    obtain ⟨pc₀, hpc₀, hturn⟩ := step_thread hstep ht
    obtain rfl := Option.some.inj (hpc.symm.trans hpc₀)
    exact hturn.remaining_lt hphase.2.1 hpc hpc'

theorem exclusive_of_reach [DecidableEq φ] {now : UInt64}
    (h : Reach (fun d e => d.step m e) (fun _ _ => True) (initial m now) d) : Exclusive m d := by
  have howned : d.Owned := h.invariant (owned_initial m now) fun _ _ _ howned _ hstep => owned_step howned hstep
  exact howned.exclusive m

/-- A model for which everything is the word. -/
def eager : Model Nat := ⟨1, by decide, 0, fun _ => true, fun _ => true⟩

/-- A start, with nobody else about, and one turn of the loop after the other. -/
def listening (turns : Nat) : List (Event Nat) :=
  [.clock 5000, .resume 0, .create 0 true, .started 0] ++
    (List.replicate turns [.check 0 false, .generate 0 (some 7), .load 0, .advance 0 (some 255), .judge 0]).flatten

theorem exclusive_while_waiting : ∃ d : Listener Nat, Exclusive eager d ∧ d.places 1 = .join := by
  obtain ⟨d, hreach, hplace⟩ : ∃ d : Listener Nat,
      Reach (fun d e => d.step eager e) (fun _ _ => True) (initial eager 0) d ∧ d.places 1 = .join :=
    exists_reach (listening 2 ++ [.stop 1]) (by decide)
  exact ⟨d, exclusive_of_reach hreach, hplace⟩

/-! ### What is detected -/

/-- The detection is one of a start whose first inferences are over, and what was high enough is the average of the
last probabilities or the last one. -/
structure Earned (m : Model φ) (x : Detection) : Prop where
  warm : warmupInferences < x.judged
  newest : x.values.head? = some x.probability
  recent : x.window.Perm (History.recent averageSize 0 x.values)
  high : (m.averaged x.window || m.peak x.probability) = true

/-- The second one is not close to the first one, unless the clock was set back between them. -/
def Apart (later earlier : Detection) : Prop :=
  earlier.time.toNat + cooldownMs.toNat ≤ later.time.toNat ∨ later.time < earlier.time

/-- **The property** of the detections. Each frame since the last start has gone into one inference, or waits for the
next one, in order and within the tensor; two detections in succession are apart, even across a restart. -/
structure Sound (m : Model φ) (d : Listener φ) : Prop where
  frames : d.inputs.flatten ++ d.tensor.take d.strideStep = d.frames
  inputs : ∀ input ∈ d.inputs, input.length = m.stride
  bounds : ∀ features : φ, .load features ∈ d.workers → d.strideStep < d.tensor.length
  earned : ∀ x ∈ d.detections, Earned m x
  apart : d.detections.IsChain Apart

theorem stride_pos (m : Model φ) : 0 < m.stride := by
  unfold Model.stride
  split <;> omega

theorem stride_le (m : Model φ) : m.stride ≤ m.slots := by
  have hroom := m.room
  unfold Model.stride
  split
  · omega
  · exact Nat.mod_le _ _

/-- What the last thread may rely on at its place. -/
def At (m : Model φ) (d : Listener φ) : Pc φ → Prop
  | .advance => d.strideStep ≤ m.stride
  | .judge _ | .clear => d.strideStep = 0
  | .decide probability window values judged =>
    d.strideStep = 0 ∧ warmupInferences < judged ∧ values.head? = some probability ∧
      window.Perm (History.recent averageSize 0 values)
  | .check | .generate | .load _ | .call | .exited => d.strideStep < m.stride

/-- Before the first thread is there, it is as if one had returned. -/
def last (d : Listener φ) : Pc φ := d.workers.getLast?.getD .exited

structure Inv (m : Model φ) (d : Listener φ) : Prop where
  owned : d.Owned
  place : At m d d.last
  frames : d.inputs.flatten ++ d.tensor.take d.strideStep = d.frames
  inputs : ∀ input ∈ d.inputs, input.length = m.stride
  tensor : d.tensor.length = m.slots
  warm : d.state = .stopped ∨ warmupInferences ≤ d.warmup + d.judged
  history : History.Tracks averageSize 0 d.values d.history d.historyPos
  earned : ∀ x ∈ d.detections, Earned m x
  apart : d.detections.IsChain Apart
  latest : ∀ x ∈ d.detections.head?, x.time = d.lastDetection

theorem Closed.last (h : d.Closed) : d.last = .exited := by
  unfold Listener.last
  cases hlast : d.workers.getLast? with
  | none => rfl
  | some pc => exact h.exited pc (List.mem_of_getLast? hlast)

theorem Opened.last (h : d.Opened before pc) : d.last = pc := by
  rw [Listener.last, h.workers, List.getLast?_concat, Option.getD_some]

theorem inv_initial (m : Model φ) (now : UInt64) : Inv m (initial m now) where
  owned := owned_initial m now
  place := stride_pos m
  frames := by simp [initial]
  inputs := nofun
  tensor := List.length_replicate
  warm := .inl rfl
  history := History.tracks_start (by decide)
  earned := nofun
  apart := .nil
  latest := nofun

/-- What a caller leaves to the thread. -/
structure Same (d d' : Listener φ) : Prop where
  tensor : d'.tensor = d.tensor
  strideStep : d'.strideStep = d.strideStep
  warmup : d'.warmup = d.warmup
  history : d'.history = d.history
  historyPos : d'.historyPos = d.historyPos
  lastDetection : d'.lastDetection = d.lastDetection
  frames : d'.frames = d.frames
  inputs : d'.inputs = d.inputs
  judged : d'.judged = d.judged
  values : d'.values = d.values
  detections : d'.detections = d.detections

/-- A caller clears everything, with no thread at work, or leaves it and creates a thread at most. -/
theorem step_caller [DecidableEq φ] (h : d.Owned) (hstep : d.step m e = some d') (ht : e.thread = none) :
    (∃ c place, d.Closed ∧ d' = d.reset m c place) ∨
      Same d d' ∧ (d'.state = .stopped ∨ d.state ≠ .stopped ∨ d'.state = d.state) ∧
        (d'.workers = d.workers ∨ d.Closed ∧ d'.workers = d.workers ++ [.check]) := by
  have hsame : Same d d := ⟨rfl, rfl, rfl, rfl, rfl, rfl, rfl, rfl, rfl, rfl, rfl⟩
  have hbegin : ∀ c place, d.begin m c place = some d' →
      (∃ c place, d.Closed ∧ d' = d.reset m c place) ∨
        Same d d' ∧ (d'.state = .stopped ∨ d.state ≠ .stopped ∨ d'.state = d.state) ∧
          (d'.workers = d.workers ∨ d.Closed ∧ d'.workers = d.workers ++ [.check]) := by
    intro c place hbegin
    unfold begin at hbegin
    split at hbegin
    · cases hbegin
    split at hbegin <;> obtain rfl := Option.some.inj hbegin
    · exact .inr ⟨hsame, .inr (.inr rfl), .inl rfl⟩
    · rename_i hstate
      have hstate := not_not.mp hstate
      obtain ⟨-, hclosed⟩ | ⟨hdetecting, -⟩ := (h.free (.inl hstate)).2
      · exact .inl ⟨c, place, hclosed, rfl⟩
      · rw [hdetecting] at hstate
        cases hstate
  cases e with
  | clock now =>
    obtain rfl := Option.some.inj hstep
    exact .inr ⟨⟨rfl, rfl, rfl, rfl, rfl, rfl, rfl, rfl, rfl, rfl, rfl⟩, .inr (.inr rfl), .inl rfl⟩
  | start c => exact hbegin c .audio hstep
  | resume c => exact hbegin c .create hstep
  | audio c ok =>
    change d.audio c ok = some d' at hstep
    unfold Listener.audio at hstep
    split at hstep
    · cases hstep
    split at hstep <;> obtain rfl := Option.some.inj hstep
    · exact .inr ⟨⟨rfl, rfl, rfl, rfl, rfl, rfl, rfl, rfl, rfl, rfl, rfl⟩, .inr (.inr rfl), .inl rfl⟩
    · exact .inr ⟨⟨rfl, rfl, rfl, rfl, rfl, rfl, rfl, rfl, rfl, rfl, rfl⟩, .inl rfl, .inl rfl⟩
  | create c ok =>
    change d.create c ok = some d' at hstep
    unfold Listener.create at hstep
    split at hstep
    · cases hstep
    rename_i hplace
    have hplace : d.places c = .create := not_not.mp hplace
    have hphase := (h.busy (by rw [hplace]; nofun)).2
    rw [hplace] at hphase
    split at hstep <;> obtain rfl := Option.some.inj hstep
    · exact .inr ⟨⟨rfl, rfl, rfl, rfl, rfl, rfl, rfl, rfl, rfl, rfl, rfl⟩, .inr (.inr rfl), .inr ⟨hphase.2, rfl⟩⟩
    · exact .inr ⟨⟨rfl, rfl, rfl, rfl, rfl, rfl, rfl, rfl, rfl, rfl, rfl⟩, .inl rfl, .inl rfl⟩
  | started c =>
    change d.started c = some d' at hstep
    unfold Listener.started at hstep
    split at hstep
    · cases hstep
    rename_i hplace
    have hplace : d.places c = .started := not_not.mp hplace
    have hphase := (h.busy (by rw [hplace]; nofun)).2
    rw [hplace] at hphase
    obtain rfl := Option.some.inj hstep
    exact .inr ⟨⟨rfl, rfl, rfl, rfl, rfl, rfl, rfl, rfl, rfl, rfl, rfl⟩, .inr (.inl (by rw [hphase.1]; nofun)), .inl rfl⟩
  | stop c =>
    change d.stop c = some d' at hstep
    unfold stop at hstep
    split at hstep
    · cases hstep
    split at hstep <;> obtain rfl := Option.some.inj hstep
    · exact .inr ⟨hsame, .inr (.inr rfl), .inl rfl⟩
    · rename_i hstate
      refine .inr ⟨⟨rfl, rfl, rfl, rfl, rfl, rfl, rfl, rfl, rfl, rfl, rfl⟩, .inr (.inl ?_), .inl rfl⟩
      rw [not_not.mp hstate]
      nofun
  | join c =>
    change d.join c = some d' at hstep
    unfold Listener.join at hstep
    split at hstep
    · cases hstep
    obtain rfl := Option.some.inj hstep
    exact .inr ⟨⟨rfl, rfl, rfl, rfl, rfl, rfl, rfl, rfl, rfl, rfl, rfl⟩, .inr (.inr rfl), .inl rfl⟩
  | stopped c =>
    change d.stopped c = some d' at hstep
    unfold Listener.stopped at hstep
    split at hstep
    · cases hstep
    obtain rfl := Option.some.inj hstep
    exact .inr ⟨⟨rfl, rfl, rfl, rfl, rfl, rfl, rfl, rfl, rfl, rfl, rfl⟩, .inl rfl, .inl rfl⟩
  | _ => cases ht

theorem at_congr (hstride : d'.strideStep = d.strideStep) (h : At m d pc) : At m d' pc := by
  cases pc <;> simp only [At, hstride] at h ⊢ <;> exact h

theorem inv_reset (h : Inv m d) (hclosed : d.Closed) {place : Place} (howned : (d.reset m c place).Owned) :
    Inv m (d.reset m c place) where
  owned := howned
  place := by
    have hclosed' : (d.reset m c place).Closed := ⟨hclosed.exited, hclosed.joins⟩
    rw [hclosed'.last]
    exact stride_pos m
  frames := by simp [reset]
  inputs := nofun
  tensor := List.length_replicate
  warm := .inr (Nat.le_refl _)
  history := History.tracks_start (by decide)
  earned := h.earned
  apart := h.apart
  latest := h.latest

theorem inv_same (h : Inv m d) (howned : d'.Owned) (hsame : Same d d') (hplace : At m d d'.last)
    (hstate : d'.state = .stopped ∨ d.state ≠ .stopped ∨ d'.state = d.state) : Inv m d' where
  owned := howned
  place := at_congr hsame.strideStep hplace
  frames := by rw [hsame.inputs, hsame.tensor, hsame.strideStep, hsame.frames, h.frames]
  inputs := hsame.inputs ▸ h.inputs
  tensor := hsame.tensor ▸ h.tensor
  warm := by
    rw [hsame.warmup, hsame.judged]
    obtain hstate | hstate | hstate := hstate
    · exact .inl hstate
    · exact .inr (h.warm.resolve_left hstate)
    · rw [hstate]
      exact h.warm
  history := by
    rw [hsame.values, hsame.history, hsame.historyPos]
    exact h.history
  earned := hsame.detections ▸ h.earned
  apart := hsame.detections ▸ h.apart
  latest := by
    rw [hsame.detections, hsame.lastDetection]
    exact h.latest

theorem inv_caller [DecidableEq φ] (h : Inv m d) (hstep : d.step m e = some d') (ht : e.thread = none) : Inv m d' := by
  have howned := owned_step h.owned hstep
  obtain ⟨c, place, hclosed, rfl⟩ | ⟨hsame, hstate, hworkers | ⟨hclosed, hworkers⟩⟩ := step_caller h.owned hstep ht
  · exact inv_reset h hclosed howned
  · refine inv_same h howned hsame ?_ hstate
    rw [Listener.last, hworkers]
    exact h.place
  · refine inv_same h howned hsame ?_ hstate
    have hplace := h.place
    rw [hclosed.last] at hplace
    rw [Listener.last, hworkers, List.getLast?_concat, Option.getD_some]
    exact hplace

theorem Opened.last_set (h : d.Opened before pc) {pc' : Pc φ}
    (hworkers : d'.workers = d.workers.set before.length pc') : d'.last = pc' := by
  rw [Listener.last, hworkers, h.workers, List.set_append_right _ _ (Nat.le_refl _), Nat.sub_self]
  change (before ++ [pc']).getLast?.getD .exited = pc'
  rw [List.getLast?_concat, Option.getD_some]

theorem inv_goto (h : Inv m d) (hopen : d.Opened before pc) (howned : (d.goto before.length pc').Owned)
    (hplace : At m d pc') : Inv m (d.goto before.length pc') := by
  have hlast : (d.goto before.length pc').last = pc' := hopen.last_set rfl
  refine ⟨howned, ?_, h.frames, h.inputs, h.tensor, h.warm, h.history, h.earned, h.apart, h.latest⟩
  rw [hlast]
  exact at_congr rfl hplace

theorem inv_load (h : Inv m d) {features : φ} (hopen : d.Opened before (.load features))
    (howned : (d.load before.length features).Owned) : Inv m (d.load before.length features) := by
  have hlast : (d.load before.length features).last = .advance := hopen.last_set rfl
  have hplace : d.strideStep < m.stride := by
    have hplace := h.place
    rw [hopen.last] at hplace
    exact hplace
  have hroom : d.strideStep < d.tensor.length := by
    have hle := stride_le m
    rw [h.tensor]
    omega
  refine ⟨howned, ?_, ?_, h.inputs, List.length_set.trans h.tensor, h.warm, h.history, h.earned, h.apart, h.latest⟩
  · rw [hlast]
    exact hplace
  · change d.inputs.flatten ++ (d.tensor.set d.strideStep features).take (d.strideStep + 1) = d.frames ++ [features]
    rw [List.take_add_one, List.getElem?_set_self hroom, List.take_set_of_le (Nat.le_refl _), ← h.frames]
    simp

theorem inv_advance (h : Inv m d) {output : Option Byte} (hopen : d.Opened before .advance)
    (howned : (d.advance m before.length output).Owned) : Inv m (d.advance m before.length output) := by
  have hplace : d.strideStep ≤ m.stride := by
    have hplace := h.place
    rw [hopen.last] at hplace
    exact hplace
  unfold Listener.advance at howned ⊢
  split
  · rename_i hlt
    rw [if_pos hlt] at howned
    exact inv_goto h hopen howned hlt
  · rename_i hfull
    rw [if_neg hfull] at howned
    have hfull : d.strideStep = m.stride := by omega
    have hle := stride_le m
    refine ⟨howned, ?_, ?_, ?_, h.tensor, h.warm, h.history, h.earned, h.apart, h.latest⟩
    · rw [hopen.last_set rfl]
      cases output with
      | none => exact stride_pos m
      | some probability => exact rfl
    · change (d.inputs ++ [d.tensor.take m.stride]).flatten ++ d.tensor.take 0 = d.frames
      rw [← h.frames, hfull]
      simp
    · intro input hinput
      obtain hinput | hinput := List.mem_append.mp hinput
      · exact h.inputs input hinput
      · rw [List.mem_singleton.mp hinput, List.length_take, h.tensor, Nat.min_eq_left hle]

theorem inv_judge (h : Inv m d) {probability : Byte} (hopen : d.Opened before (.judge probability))
    (hwarm : warmupInferences ≤ d.warmup + d.judged) (howned : (d.judge before.length probability).Owned) :
    Inv m (d.judge before.length probability) := by
  have hplace : d.strideStep = 0 := by
    have hplace := h.place
    rw [hopen.last] at hplace
    exact hplace
  unfold Listener.judge at howned ⊢
  split
  · rename_i hleft
    rw [if_pos hleft] at howned
    refine ⟨howned, ?_, h.frames, h.inputs, h.tensor, .inr ?_, h.history, h.earned, h.apart, h.latest⟩
    · rw [hopen.last_set rfl]
      change d.strideStep < m.stride
      rw [hplace]
      exact stride_pos m
    · change warmupInferences ≤ d.warmup - 1 + (d.judged + 1)
      omega
  · rename_i hover
    rw [if_neg hover] at howned
    have hpush := h.history.push probability
    refine ⟨howned, ?_, h.frames, h.inputs, h.tensor, .inr ?_, hpush, h.earned, h.apart, h.latest⟩
    · rw [hopen.last_set rfl]
      refine ⟨hplace, ?_, rfl, hpush.perm⟩
      omega
    · change warmupInferences ≤ d.warmup + (d.judged + 1)
      omega

/-- Past the cooldown, as the clock has it: the difference may only have wrapped around. -/
theorem apart_of_cooldown {x y : Detection} (h : cooldownMs ≤ x.time - y.time) : Apart x y := by
  obtain hlt | hge := UInt64.lt_or_le x.time y.time
  · exact .inr hlt
  · have h' : cooldownMs.toNat ≤ (x.time - y.time).toNat := h
    have hge' : y.time.toNat ≤ x.time.toNat := hge
    rw [UInt64.toNat_sub_of_le _ _ hge] at h'
    exact .inl (by omega)

theorem inv_settle (h : Inv m d) {probability : Byte} {window values : List Byte} {judged : Nat}
    (hopen : d.Opened before (.decide probability window values judged))
    (howned : (d.settle m before.length ⟨d.now, probability, window, values, judged⟩).Owned) :
    Inv m (d.settle m before.length ⟨d.now, probability, window, values, judged⟩) := by
  obtain ⟨hstride, hwarm, hnewest, hrecent⟩ : d.strideStep = 0 ∧ warmupInferences < judged ∧
      values.head? = some probability ∧ window.Perm (History.recent averageSize 0 values) := by
    have hplace := h.place
    rw [hopen.last] at hplace
    exact hplace
  unfold settle at howned ⊢
  split
  · rename_i hfound
    rw [if_pos hfound] at howned
    obtain ⟨hhigh, hcooldown⟩ := Bool.and_eq_true_iff.mp hfound
    refine ⟨howned, ?_, h.frames, h.inputs, h.tensor, h.warm, h.history, ?_, ?_, ?_⟩
    · rw [hopen.last_set rfl]
      exact hstride
    · intro x hx
      obtain rfl | hx := List.mem_cons.mp hx
      · exact ⟨hwarm, hnewest, hrecent, hhigh⟩
      · exact h.earned x hx
    · refine List.isChain_cons.mpr ⟨?_, h.apart⟩
      intro earlier hearlier
      refine apart_of_cooldown ?_
      rw [h.latest earlier hearlier]
      exact of_decide_eq_true hcooldown
    · intro x hx
      cases hx
      rfl
  · rename_i hnone
    rw [if_neg hnone] at howned
    refine inv_goto h hopen howned ?_
    change d.strideStep < m.stride
    rw [hstride]
    exact stride_pos m

theorem inv_forget (h : Inv m d) (hopen : d.Opened before .clear) (howned : (d.forget before.length).Owned) :
    Inv m (d.forget before.length) := by
  have hplace : d.strideStep = 0 := by
    have hplace := h.place
    rw [hopen.last] at hplace
    exact hplace
  refine ⟨howned, ?_, ?_, h.inputs, h.tensor, h.warm, ?_, h.earned, h.apart, h.latest⟩
  · rw [hopen.last_set rfl]
    exact stride_pos m
  · have hframes := h.frames
    rw [hplace] at hframes
    exact hframes
  · -- the place at which the next value goes stays where it is
    have hstart : History.Tracks averageSize 0 [] (List.replicate averageSize (0 : Byte)) 0 :=
      History.tracks_start (by decide)
    refine ⟨hstart.length, h.history.index_lt, ?_⟩
    change (List.replicate averageSize (0 : Byte)).rotate d.historyPos = _
    rw [List.rotate_replicate]
    exact List.rotate_zero (List.replicate averageSize (0 : Byte)) ▸ hstart.rotate

theorem inv_turn (h : Inv m d) (hpc : d.workers[t]? = some pc) (hturn : Turn m d t pc d') : Inv m d' := by
  have howned := owned_turn h.owned hpc hturn
  obtain ⟨hstate, before, hopen, rfl⟩ := h.owned.running hpc hturn.kept.1
  have hplace := h.place
  rw [hopen.last] at hplace
  cases hturn with
  | check shutdown =>
    refine inv_goto h hopen howned ?_
    split <;> exact hplace
  | generate features =>
    refine inv_goto h hopen howned ?_
    cases features <;> exact hplace
  | load features => exact inv_load h hopen howned
  | advance output => exact inv_advance h hopen howned
  | judge probability => exact inv_judge h hopen (h.warm.resolve_left hstate) howned
  | decide probability window values judged => exact inv_settle h hopen howned
  | clear => exact inv_forget h hopen howned
  | call => exact inv_goto h hopen howned hplace

theorem inv_step [DecidableEq φ] (h : Inv m d) (hstep : d.step m e = some d') : Inv m d' := by
  cases ht : e.thread with
  | none => exact inv_caller h hstep ht
  | some t =>
    obtain ⟨pc, hpc, hturn⟩ := step_thread hstep ht
    exact inv_turn h hpc hturn

theorem Inv.sound (h : Inv m d) : Sound m d where
  frames := h.frames
  inputs := h.inputs
  bounds := by
    intro features hfeatures
    obtain ⟨t, ht⟩ := List.getElem?_of_mem hfeatures
    obtain ⟨-, before, hopen, -⟩ := h.owned.running ht nofun
    have hplace := h.place
    rw [hopen.last] at hplace
    have hplace : d.strideStep < m.stride := hplace
    have hle := stride_le m
    rw [h.tensor]
    omega
  earned := h.earned
  apart := h.apart

theorem detections_sound [DecidableEq φ] {now : UInt64}
    (h : Reach (fun d e => d.step m e) (fun _ _ => True) (initial m now) d) : Sound m d := by
  have hinv : Inv m d := h.invariant (inv_initial m now) fun _ _ _ hinv _ hstep => inv_step hinv hstep
  exact hinv.sound

theorem detections_sound_once : ∃ d : Listener Nat, Sound eager d ∧ d.detections ≠ [] := by
  obtain ⟨d, hreach, hfound⟩ : ∃ d : Listener Nat,
      Reach (fun d e => d.step eager e) (fun _ _ => True) (initial eager 0) d ∧ d.detections ≠ [] :=
    exists_reach (listening 11 ++ [.decide 0]) (by decide +kernel)
  exact ⟨d, detections_sound hreach, hfound⟩

end Listener

end Thingino.Esphome
