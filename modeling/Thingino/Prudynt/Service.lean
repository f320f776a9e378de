import Mathlib.Data.List.Basic
import Mathlib.Logic.Function.Basic
import Thingino.Lib.Transition

/-! The init script `S31prudynt`: any number of `start`, `stop` and `restart` at the same time.

Whether a prudynt is alive is decided by the pid file or by name, but a start looks at the pid file alone
(`start-stop-daemon -S`), and a stop removes that file in the end whether the process has died or not. A
restart waits between its last look at the processes and its start.

A signal only asks a process to exit. Processes exit at any time here, so a signal changes nothing by itself;
a process that is defunct counts as exited (`pid_live`). -/
namespace Thingino.Prudynt.Service
open Lib

abbrev Pid := Nat

/-- A second, in nanoseconds. -/
def second : Nat := 1000000000

def reclaimWait : Nat := 15

inductive Phase
  | term
  | kill
deriving DecidableEq

/-- `TERM_GRACE` and `KILL_GRACE`. -/
def Phase.grace : Phase → Nat
  | .term => 2
  | .kill => 2

/-- The places in `stop_daemon`: `clear` and `drop` remove the pid file. -/
inductive Stop
  | test
  | clear
  | term
  | await (phase : Phase) (waited : Nat)
  | nap (phase : Phase) (waited : Nat) (wake : Nat)
  | escalate
  | killPid
  | killAll
  | drop
  | confirm
deriving DecidableEq

/-- `settle i wake` is the sleep number `i` in `reclaim_wait`. -/
inductive Pc
  | stopping (restart : Bool) (place : Stop)
  | settle (i : Nat) (wake : Nat)
  | launch (restart : Bool)
  | done
deriving DecidableEq

/-- `prudynts` are the live ones, `others` the other programs. `lastExit` is when a prudynt exited last;
`reclaimed` says for each launch by a restart, the last one first, whether all earlier prudynts had exited
`RECLAIM_WAIT` before. -/
structure State where
  prudynts : List Pid
  others : Pid → Bool
  pidFile : Option Pid
  now : Nat
  lastExit : Option Nat
  pcs : List Pc
  reclaimed : List Bool

/-- `pid` is the one that a process gets that is launched in the step. -/
inductive Event
  | start
  | stop
  | restart
  | advance (i : Nat) (pid : Pid)
  | exit (pid : Pid)
  | other (pid : Pid) (live : Bool)
  | pass (d : Nat)

namespace State

/-- `prudynt_alive`: the pid file names a live process, or there is a prudynt. -/
def alive (s : State) : Bool := s.pidFile.any (fun p => s.prudynts.contains p || s.others p) || !s.prudynts.isEmpty

/-- The pid file names a live prudynt. -/
def named (s : State) : Bool := s.pidFile.any s.prudynts.contains

def goto (s : State) (i : Nat) (pc : Pc) : State := { s with pcs := s.pcs.set i pc }

/-- `rm -f "$PIDFILE"`. -/
def unfile (s : State) : State := { s with pidFile := none }

/-- What follows a `stop_daemon` that found no prudynt alive. -/
def stopped (s : State) (restart : Bool) : Pc := if restart then .settle 0 (s.now + second) else .done

def advanceStop (s : State) (i : Nat) (restart : Bool) : Stop → Option State
  | .test => some (s.goto i (.stopping restart (if s.alive then .term else .clear)))
  | .clear => some (s.unfile.goto i (s.stopped restart))
  | .term => some (s.goto i (.stopping restart (.await .term 0)))
  | .await phase waited =>
    some (s.goto i (.stopping restart
      (if s.alive && waited < phase.grace then .nap phase waited (s.now + second)
      else match phase with
        | .term => .escalate
        | .kill => .drop)))
  | .nap phase waited wake =>
    if wake ≤ s.now then some (s.goto i (.stopping restart (.await phase (waited + 1)))) else none
  | .escalate => some (s.goto i (.stopping restart (if s.alive then .killPid else .drop)))
  | .killPid => some (s.goto i (.stopping restart .killAll))
  | .killAll => some (s.goto i (.stopping restart (.await .kill 0)))
  | .drop => some (s.unfile.goto i (.stopping restart .confirm))
  | .confirm => some (s.goto i (if s.alive then .done else s.stopped restart))

/-- Every prudynt had exited `RECLAIM_WAIT` ago. -/
def settled (s : State) : Bool := s.prudynts.isEmpty && s.lastExit.all fun t => t + reclaimWait * second ≤ s.now

/-- `start-stop-daemon -S`. -/
def launch (s : State) (i : Nat) (restart : Bool) (pid : Pid) : Option State :=
  if s.named then some (s.goto i .done)
  else if s.prudynts.contains pid || s.others pid then none
  else
    some ({ s with
      prudynts := pid :: s.prudynts
      pidFile := some pid
      reclaimed := if restart then s.settled :: s.reclaimed else s.reclaimed }.goto i .done)

def advance (s : State) (i : Nat) (pid : Pid) : Option State :=
  match s.pcs[i]? with
  | some (.stopping restart place) => s.advanceStop i restart place
  | some (.settle n wake) =>
    if wake ≤ s.now then
      some (s.goto i (if n + 1 < reclaimWait then .settle (n + 1) (s.now + second) else .launch true))
    else none
  | some (.launch restart) => s.launch i restart pid
  | some .done | none => none

def step (s : State) : Event → Option State
  | .start => some { s with pcs := s.pcs ++ [.launch false] }
  | .stop => some { s with pcs := s.pcs ++ [.stopping false .test] }
  | .restart => some { s with pcs := s.pcs ++ [.stopping true .test] }
  | .advance i pid => s.advance i pid
  | .exit pid =>
    if s.prudynts.contains pid then some { s with prudynts := s.prudynts.erase pid, lastExit := some s.now } else none
  | .other pid live =>
    if s.prudynts.contains pid then none else some { s with others := Function.update s.others pid live }
  | .pass d => some { s with now := s.now + d }

/-- After a boot: no pid file and no prudynt. -/
def boot (others : Pid → Bool) : State := ⟨[], others, none, 0, none, [], []⟩

end State

/-- From the begin of the reclaim wait of a restart to its start. -/
def Pc.settling : Pc → Bool
  | .settle _ _ | .launch true => true
  | _ => false

/-- A pid file is removed only when no prudynt is live, and no prudynt exits while a restart is between its last
look at the processes and its start. -/
def State.careful (s : State) : Event → Bool
  | .advance i _ =>
    match s.pcs[i]? with
    | some (.stopping _ .clear) | some (.stopping _ .drop) => s.prudynts.isEmpty
    | _ => true
  | .exit _ => s.pcs.all fun pc => !pc.settling
  | _ => true

/-- **The property.** There is one live prudynt at most, and what a restart launched came `RECLAIM_WAIT` after
the exit of every earlier one. -/
structure OneStreamer (s : State) : Prop where
  one : s.prudynts.length ≤ 1
  reclaimed : ∀ b ∈ s.reclaimed, b = true

namespace State

/-! ### The invariant -/

/-- What an invocation that is about to start has waited since a moment. -/
def Waited (now t : Nat) : Pc → Prop
  | .settle i wake => t + (i + 1) * second ≤ wake
  | .launch true => t + reclaimWait * second ≤ now
  | _ => True

/-- A live prudynt is the only one and stands in the pid file; a restart has waited since the last exit. -/
structure Inv (s : State) : Prop where
  filed : s.prudynts = [] ∨ ∃ p, s.prudynts = [p] ∧ s.pidFile = some p
  past : ∀ t, s.lastExit = some t → t ≤ s.now
  waited : ∀ pc ∈ s.pcs, ∀ t, s.lastExit = some t → Waited s.now t pc
  reclaimed : ∀ b ∈ s.reclaimed, b = true

variable {s s' : State} {i : Nat} {pc : Pc} {restart : Bool} {pid : Pid}

theorem waited_of_not_settling {now t : Nat} (h : pc.settling = false) : Waited now t pc := by
  cases pc with
  | settle i wake => cases h
  | launch restart =>
    cases restart with
    | true => cases h
    | false => trivial
  | stopping restart place => trivial
  | done => trivial

/-- An invocation goes to a place where it has waited long enough. -/
theorem inv_goto (h : s.Inv) (hpc : ∀ t, s.lastExit = some t → Waited s.now t pc) : (s.goto i pc).Inv := by
  refine ⟨h.filed, h.past, fun qc hqc t ht => ?_, h.reclaimed⟩
  obtain hqc | rfl := List.mem_or_eq_of_mem_set hqc
  · exact h.waited qc hqc t ht
  · exact hpc t ht

theorem inv_walk (h : s.Inv) (hpc : pc.settling = false) : (s.goto i pc).Inv :=
  inv_goto h fun _ _ => waited_of_not_settling hpc

/-- The reclaim wait begins now, and the last exit was before. -/
theorem inv_stopped (h : s.Inv) (restart : Bool) : (s.goto i (s.stopped restart)).Inv := by
  refine inv_goto h fun t ht => ?_
  have hpast := h.past t ht
  cases restart with
  | false => trivial
  | true =>
    show t + (0 + 1) * second ≤ s.now + second
    omega

/-- The pid file of no one is removed. -/
theorem inv_unfile (h : s.Inv) (hnone : s.prudynts.isEmpty = true) : s.unfile.Inv :=
  ⟨.inl (List.isEmpty_iff.mp hnone), h.past, h.waited, h.reclaimed⟩

/-- A pid file that does not name a live prudynt shows that there is none. -/
theorem eq_nil_of_not_named (h : s.Inv) (hnamed : s.named = false) : s.prudynts = [] := by
  refine h.filed.resolve_right ?_
  rintro ⟨p, hp, hfile⟩
  rw [named, hfile, hp, Option.any_some, List.contains_cons, BEq.rfl, Bool.true_or] at hnamed
  cases hnamed

/-- What starts finds no prudynt, and a restart finds the last one long gone. -/
theorem inv_launch (h : s.Inv) (hold : s.pcs[i]? = some (.launch restart)) (hstep : s.launch i restart pid = some s') :
    s'.Inv := by
  unfold launch at hstep
  split at hstep
  · cases hstep
    exact inv_walk h rfl
  · rename_i hnamed
    split at hstep <;> cases hstep
    have hnone := eq_nil_of_not_named h (Bool.eq_false_iff.mpr hnamed)
    refine inv_walk ⟨.inr ⟨pid, by rw [hnone], rfl⟩, h.past, h.waited, ?_⟩ rfl
    cases restart with
    | false => exact h.reclaimed
    | true =>
      refine List.forall_mem_cons.mpr ⟨?_, h.reclaimed⟩
      rw [settled, hnone, List.isEmpty_nil, Bool.true_and, Option.all_eq_true]
      intro t ht
      exact decide_eq_true (h.waited _ (List.mem_of_getElem? hold) t ht)

theorem inv_advanceStop {place : Stop} (h : s.Inv) (hold : s.pcs[i]? = some (.stopping restart place))
    (hcareful : s.careful (.advance i pid) = true) (hstep : s.advanceStop i restart place = some s') : s'.Inv := by
  cases place with
  | test | term | escalate | killPid | killAll =>
    cases hstep
    exact inv_walk h rfl
  | await phase waited =>
    cases hstep
    exact inv_walk h rfl
  | nap phase waited wake =>
    rw [advanceStop, Option.ite_none_right_eq_some] at hstep
    cases hstep.2
    exact inv_walk h rfl
  | clear =>
    cases hstep
    simp only [careful, hold] at hcareful
    exact inv_stopped (inv_unfile h hcareful) restart
  | drop =>
    cases hstep
    simp only [careful, hold] at hcareful
    exact inv_walk (inv_unfile h hcareful) rfl
  | confirm =>
    cases hstep
    cases s.alive with
    | true => exact inv_walk h rfl
    | false => exact inv_stopped h restart

/-- One second of the reclaim wait is over. -/
theorem inv_settle {n wake : Nat} (h : s.Inv) (hold : s.pcs[i]? = some (.settle n wake)) (hwake : wake ≤ s.now) :
    (s.goto i (if n + 1 < reclaimWait then .settle (n + 1) (s.now + second) else .launch true)).Inv := by
  refine inv_goto h fun t ht => ?_
  have hwaited : t + (n + 1) * second ≤ wake := h.waited _ (List.mem_of_getElem? hold) t ht
  split
  · show t + (n + 1 + 1) * second ≤ s.now + second
    rw [Nat.add_mul (n + 1) 1, Nat.one_mul]
    omega
  · rename_i hlast
    have hrounds : reclaimWait * second ≤ (n + 1) * second := Nat.mul_le_mul_right second (Nat.le_of_not_lt hlast)
    show t + reclaimWait * second ≤ s.now
    omega

theorem inv_advance (h : s.Inv) (hcareful : s.careful (.advance i pid) = true) (hstep : s.advance i pid = some s') :
    s'.Inv := by
  unfold advance at hstep
  split at hstep
  case h_1 restart place hold => exact inv_advanceStop h hold hcareful hstep
  case h_2 n wake hold =>
    rw [Option.ite_none_right_eq_some] at hstep
    cases hstep.2
    exact inv_settle h hold hstep.1
  case h_3 restart hold => exact inv_launch h hold hstep
  case h_4 | h_5 => cases hstep

/-- An invocation begins at a place where it need not have waited. -/
theorem inv_begin (h : s.Inv) (hpc : pc.settling = false) : ({ s with pcs := s.pcs ++ [pc] } : State).Inv := by
  refine ⟨h.filed, h.past, fun qc hqc t ht => ?_, h.reclaimed⟩
  obtain hqc | hqc := List.mem_append.mp hqc
  · exact h.waited qc hqc t ht
  · rw [List.mem_singleton.mp hqc]
    exact waited_of_not_settling hpc

/-- When a prudynt exits nobody is waiting. -/
theorem inv_exit (h : s.Inv) (hcareful : s.careful (.exit pid) = true) (hpid : s.prudynts.contains pid = true) :
    ({ s with prudynts := s.prudynts.erase pid, lastExit := some s.now } : State).Inv := by
  simp only [careful, List.all_eq_true, Bool.not_eq_true'] at hcareful
  refine ⟨.inl ?_, fun t ht => ?_, fun pc hpc t _ => waited_of_not_settling (hcareful pc hpc), h.reclaimed⟩
  · obtain hnone | ⟨p, hp, -⟩ := h.filed
    · rw [hnone]
      rfl
    · rw [hp, List.contains_cons, List.contains_nil, Bool.or_false, beq_iff_eq] at hpid
      rw [hp, hpid]
      exact List.erase_cons_head p []
  · cases ht
    exact Nat.le_refl s.now

theorem inv_pass (h : s.Inv) (d : Nat) : ({ s with now := s.now + d } : State).Inv := by
  refine ⟨h.filed, fun t ht => Nat.le_add_right_of_le (h.past t ht), fun pc hpc t ht => ?_, h.reclaimed⟩
  have hwaited := h.waited pc hpc t ht
  cases pc with
  | settle i wake => exact hwaited
  | launch restart =>
    cases restart with
    | true => exact Nat.le_add_right_of_le hwaited
    | false => trivial
  | stopping restart place => trivial
  | done => trivial

theorem inv_step {e : Event} (h : s.Inv) (hcareful : s.careful e = true) (hstep : s.step e = some s') : s'.Inv := by
  cases e with
  | start | stop | restart =>
    cases hstep
    exact inv_begin h rfl
  | advance i pid => exact inv_advance h hcareful hstep
  | exit pid =>
    rw [step, Option.ite_none_right_eq_some] at hstep
    cases hstep.2
    exact inv_exit h hcareful hstep.1
  | other pid live =>
    rw [step, Option.ite_none_left_eq_some] at hstep
    cases hstep.2
    exact ⟨h.filed, h.past, h.waited, h.reclaimed⟩
  | pass d =>
    cases hstep
    exact inv_pass h d

theorem inv_boot (others : Pid → Bool) : (boot others).Inv := by
  refine ⟨.inl rfl, fun t ht => ?_, fun pc hpc => absurd hpc List.not_mem_nil, fun b hb => absurd hb List.not_mem_nil⟩
  cases ht

end State

/-- **Never two streamers**, in runs that keep to the conditions. -/
theorem one_streamer_of_careful {others : Pid → Bool} {s : State}
    (h : Reach State.step (fun s e => s.careful e = true) (State.boot others) s) : OneStreamer s := by
  have hinv : s.Inv :=
    Reach.invariant (State.inv_boot others) (fun _ _ _ hs hok hstep => State.inv_step hs hok hstep) h
  refine ⟨?_, hinv.reclaimed⟩
  obtain hnone | ⟨p, hp, -⟩ := hinv.filed
  · rw [hnone]
    exact Nat.zero_le 1
  · rw [hp]
    exact Nat.le_refl 1

/-- A prudynt exits on SIGTERM, and the restart launches the next one. -/
theorem one_streamer_after_restart :
    ∃ s, Reach State.step (fun s e => s.careful e = true) (State.boot fun _ => false) s ∧
      s.prudynts = [8] ∧ s.reclaimed = [true] ∧ OneStreamer s := by
  have hrun : ∃ s, Reach State.step (fun s e => s.careful e = true) (State.boot fun _ => false) s ∧
      (s.prudynts = [8] ∧ s.reclaimed = [true]) :=
    exists_reach ([.start, .advance 0 7, .restart, .advance 1 0, .advance 1 0, .advance 1 0, .exit 7, .pass second,
      .advance 1 0, .advance 1 0, .advance 1 0, .advance 1 0, .advance 1 0] ++
      (List.replicate 15 [.pass second, .advance 1 0]).flatten ++ [.advance 1 8]) (by decide)
  obtain ⟨s, hs, hprudynts, hreclaimed⟩ := hrun
  exact ⟨s, hs, hprudynts, hreclaimed, one_streamer_of_careful hs⟩

/-- A prudynt that no signal ends: the stop gives up and removes its pid file, and the next start launches
another one beside it. -/
theorem wedged_doubled :
    ∃ s, Reach State.step (fun _ _ => True) (State.boot fun _ => false) s ∧ s.prudynts = [8, 7] ∧ ¬OneStreamer s := by
  have hrun : ∃ s, Reach State.step (fun _ _ => True) (State.boot fun _ => false) s ∧ s.prudynts = [8, 7] :=
    exists_reach [.start, .advance 0 7, .stop, .advance 1 0, .advance 1 0, .advance 1 0, .pass second, .advance 1 0,
      .advance 1 0, .pass second, .advance 1 0, .advance 1 0, .advance 1 0, .advance 1 0, .advance 1 0, .advance 1 0,
      .pass second, .advance 1 0, .advance 1 0, .pass second, .advance 1 0, .advance 1 0, .advance 1 0, .advance 1 0,
      .start, .advance 2 8] (by decide)
  obtain ⟨s, hs, hprudynts⟩ := hrun
  refine ⟨s, hs, hprudynts, fun h => ?_⟩
  have hone := h.one
  rw [hprudynts] at hone
  exact absurd hone (by decide)

/-- Another start in the reclaim wait of a restart launches a prudynt that soon exits: the restart launches the
next one at once. -/
theorem crash_not_reclaimed :
    ∃ s, Reach State.step (fun _ _ => True) (State.boot fun _ => false) s ∧ s.reclaimed = [false] ∧ ¬OneStreamer s := by
  have hrun : ∃ s, Reach State.step (fun _ _ => True) (State.boot fun _ => false) s ∧ s.reclaimed = [false] :=
    exists_reach ([.restart, .advance 0 0, .advance 0 0, .start, .advance 1 7] ++
      (List.replicate 15 [.pass second, .advance 0 0]).flatten ++ [.exit 7, .advance 0 8]) (by decide)
  obtain ⟨s, hs, hreclaimed⟩ := hrun
  refine ⟨s, hs, hreclaimed, fun h => ?_⟩
  have hearly := h.reclaimed false (by rw [hreclaimed]; exact List.mem_singleton_self false)
  cases hearly

end Thingino.Prudynt.Service
