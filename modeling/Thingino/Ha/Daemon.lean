import Thingino.Ha.Lock
import Thingino.Lib.Holder

/-! Which ha-daemon runs: the directory `/run/ha/daemon.lock.d`.

`mkdir` takes it and the pid is written into it afterwards. Who finds it taken reads the pid, tests whether
that process lives, and otherwise removes the directory and makes one of its own. A daemon that ends by a
signal removes the directory; the trap for that is set only when the daemon has been started up.

The model has any number of processes, known by their pids; each may be killed between any two steps, and a
pid may be used again, by a ha-daemon or by another program. -/
namespace Thingino.Ha.Daemon
open Lib

/-- What a process does next: it is gone, or it is another program. A ha-daemon tries `mkdir`, reads the pid
it finds and tests it, removes the directory, tries `mkdir` once more, and notes its own pid. Past that it
starts up (`discover`, without a trap yet), goes round its loop (`serve`), or cleans up after a signal
(`release`, up to its last `rm -rf`). -/
inductive Pc
  | dead
  | other
  | make
  | read
  | test (oldPid : Option Pid)
  | remove
  | remake
  | note
  | discover
  | serve
  | release
deriving DecidableEq

/-- `maker` is for the record: the process that made the directory, while it lives. -/
structure LockDir where
  pid : Option Pid
  maker : Option Pid
deriving DecidableEq

/-- A process that is gone has made no directory any more. -/
def LockDir.bereave (d : LockDir) (p : Pid) : LockDir := { d with maker := d.maker.filter (· ≠ p) }

/-- The pid is written into it. -/
def LockDir.note (d : LockDir) (p : Pid) : LockDir := { d with pid := some p }

/-- `removed` is for the record: for each `rm -rf` of a daemon that ended, whether the directory was that of
another process alive. -/
structure State where
  dir : Option LockDir
  pc : Pid → Pc
  removed : List Bool

/-- `fail` is a step that does not succeed: a `mkdir` without room, the pid not written, no discovery. -/
inductive Event
  | spawn (p : Pid)
  | launch (p : Pid)
  | advance (p : Pid)
  | fail (p : Pid)
  | signal (p : Pid)
  | kill (p : Pid)

namespace State

def goto (s : State) (p : Pid) (pc : Pc) : State := { s with pc := Function.update s.pc p pc }

/-- `kill -0`. -/
def alive (s : State) (p : Pid) : Bool := s.pc p ≠ .dead

/-- Who has made the directory that is there, if that process lives. -/
def maker (s : State) : Option Pid := s.dir.bind LockDir.maker

def kill (s : State) (p : Pid) : State := { s with dir := s.dir.map (LockDir.bereave · p) }.goto p .dead

/-- The next step of a process. -/
def advance (s : State) (p : Pid) : Option State :=
  match s.pc p with
  | .dead | .other | .serve => none
  | .make =>
    match s.dir with
    | none => some ({ s with dir := some ⟨none, some p⟩ }.goto p .note)
    | some _ => some (s.goto p .read)
  | .read => some (s.goto p (.test (s.dir.bind LockDir.pid)))
  | .test oldPid => some (if oldPid.any s.alive then s.kill p else s.goto p .remove)
  | .remove => some ({ s with dir := none }.goto p .remake)
  | .remake =>
    match s.dir with
    | none => some ({ s with dir := some ⟨none, some p⟩ }.goto p .note)
    | some _ => some (s.kill p)
  | .note => some ({ s with dir := s.dir.map (LockDir.note · p) }.goto p .discover)
  | .discover => some (s.goto p .serve)
  | .release =>
    -- After its `rm -rf` a daemon does nothing more.
    some ({ s with dir := none, removed := s.maker.any (· ≠ p) :: s.removed }.goto p .dead)

def fail (s : State) (p : Pid) : Option State :=
  match s.pc p with
  | .make => some (s.goto p .read)
  | .remake => some (s.kill p)
  | .note => some (s.goto p .discover)
  | .discover => some (s.kill p)
  | _ => none

/-- Without the trap a signal ends the process at once. -/
def signal (s : State) (p : Pid) : State :=
  match s.pc p with
  | .serve => s.goto p .release
  | _ => s.kill p

def step (s : State) : Event → Option State
  | .spawn p => if s.pc p = .dead then some (s.goto p .other) else none
  | .launch p => if s.pc p = .dead then some (s.goto p .make) else none
  | .advance p => s.advance p
  | .fail p => s.fail p
  | .signal p => some (s.signal p)
  | .kill p => some (s.kill p)

/-- No ha-daemon, any other programs, and perhaps a directory that a dead daemon has left. -/
def start (left : Option (Option Pid)) (others : Pid → Bool) : State :=
  ⟨left.map fun pid => ⟨pid, none⟩, fun p => if others p then .other else .dead, []⟩

/-- Whenever a directory is taken over, its maker is dead at that moment. -/
def careful (s : State) : Event → Bool
  | .advance p =>
    match s.pc p with
    | .remove => s.maker.isNone
    | _ => true
  | _ => true

/-- Past the singleton section. -/
def running (pc : Pc) : Bool :=
  match pc with
  | .discover | .serve | .release => true
  | _ => false

end State

/-- **The property.** At most one live ha-daemon is past the singleton section, and no daemon that ended has
removed the directory of another live one. -/
structure Single (s : State) : Prop where
  single : ∀ p q, State.running (s.pc p) = true → State.running (s.pc q) = true → p = q
  spared : ∀ hit ∈ s.removed, hit = false

namespace State

/-! ### The invariant -/

/-- From the `mkdir` to the last `rm -rf`. -/
def owns (pc : Pc) : Bool := pc = .note || running pc

/-- Who owns the lock has made the directory that is there, and the other way round. -/
structure Inv (s : State) : Prop where
  holds : Holds owns s.pc s.maker
  spared : ∀ hit ∈ s.removed, hit = false

variable {s s' : State} {p : Pid} {pc : Pc}

theorem inv_goto (h : s.Inv) (howns : owns pc = owns (s.pc p)) : (s.goto p pc).Inv :=
  ⟨h.holds.move howns, h.spared⟩

theorem maker_bereave (dir : Option LockDir) (p : Pid) :
    (dir.map (LockDir.bereave · p)).bind LockDir.maker = (dir.bind LockDir.maker).filter (· ≠ p) := by
  cases dir <;> rfl

theorem inv_kill (h : s.Inv) (p : Pid) : (s.kill p).Inv := by
  refine ⟨?_, h.spared⟩
  show Holds owns (Function.update s.pc p .dead) ((s.dir.map (LockDir.bereave · p)).bind LockDir.maker)
  rw [maker_bereave]
  exact h.holds.leave rfl

/-- A directory made when there was none is its maker's. -/
theorem inv_make (h : s.Inv) (hdir : s.dir = none) :
    ({ s with dir := some ⟨none, some p⟩ }.goto p .note).Inv := by
  have hfree : s.maker = none := by rw [maker, hdir]; rfl
  have hholds := h.holds
  rw [hfree] at hholds
  exact ⟨hholds.take rfl, h.spared⟩

/-- A pid in the directory does not change who made it. -/
theorem inv_note (h : s.Inv) (hpc : s.pc p = .note) :
    ({ s with dir := s.dir.map (LockDir.note · p) }.goto p .discover).Inv := by
  refine ⟨?_, h.spared⟩
  have hmaker : (s.dir.map (LockDir.note · p)).bind LockDir.maker = s.maker := by
    rw [maker]
    cases s.dir <;> rfl
  show Holds owns (Function.update s.pc p .discover) ((s.dir.map (LockDir.note · p)).bind LockDir.maker)
  rw [hmaker]
  exact h.holds.move (by rw [hpc]; rfl)

/-- A daemon that ends removes the directory it has made itself. -/
theorem inv_release (h : s.Inv) (hpc : s.pc p = .release) :
    ({ s with dir := none, removed := s.maker.any (· ≠ p) :: s.removed }.goto p .dead).Inv := by
  have hmine : s.maker = some p := (h.holds p).mp (by rw [hpc]; rfl)
  constructor
  · have hleft := h.holds.leave (p := p) (t := .dead) rfl
    have hnone : s.maker.filter (· ≠ p) = none := by simp [hmine]
    rw [hnone] at hleft
    exact hleft
  · refine List.forall_mem_cons.mpr ⟨?_, h.spared⟩
    simp [hmine]

theorem inv_advance (h : s.Inv) (hcareful : s.careful (.advance p) = true) (hstep : s.advance p = some s') :
    s'.Inv := by
  unfold advance at hstep
  split at hstep
  case h_1 | h_2 | h_3 => cases hstep
  case h_4 hpc =>
    split at hstep <;> cases hstep
    · exact inv_make h (by assumption)
    · exact inv_goto h (by rw [hpc]; rfl)
  case h_5 hpc =>
    cases hstep
    exact inv_goto h (by rw [hpc]; rfl)
  case h_6 hpc =>
    cases hstep
    split
    · exact inv_kill h p
    · exact inv_goto h (by rw [hpc]; rfl)
  case h_7 hpc =>
    cases hstep
    simp only [careful, hpc, Option.isNone_iff_eq_none] at hcareful
    have hholds := h.holds.move (p := p) (t := .remake) (by rw [hpc]; rfl)
    rw [hcareful] at hholds
    exact ⟨hholds, h.spared⟩
  case h_8 hpc =>
    split at hstep <;> cases hstep
    · exact inv_make h (by assumption)
    · exact inv_kill h p
  case h_9 hpc =>
    cases hstep
    exact inv_note h hpc
  case h_10 hpc =>
    cases hstep
    exact inv_goto h (by rw [hpc]; rfl)
  case h_11 hpc =>
    cases hstep
    exact inv_release h hpc

theorem inv_fail (h : s.Inv) (hstep : s.fail p = some s') : s'.Inv := by
  unfold fail at hstep
  split at hstep
  case h_1 hpc | h_3 hpc =>
    cases hstep
    exact inv_goto h (by rw [hpc]; rfl)
  case h_2 | h_4 =>
    cases hstep
    exact inv_kill h p
  case h_5 => cases hstep

theorem inv_step {e : Event} (h : s.Inv) (hcareful : s.careful e = true) (hstep : s.step e = some s') : s'.Inv := by
  cases e with
  | spawn p =>
    rw [step, Option.ite_none_right_eq_some, Option.some.injEq] at hstep
    obtain ⟨hpc, rfl⟩ := hstep
    exact inv_goto h (by rw [hpc]; rfl)
  | launch p =>
    rw [step, Option.ite_none_right_eq_some, Option.some.injEq] at hstep
    obtain ⟨hpc, rfl⟩ := hstep
    exact inv_goto h (by rw [hpc]; rfl)
  | advance p => exact inv_advance h hcareful hstep
  | fail p => exact inv_fail h hstep
  | signal p =>
    cases hstep
    unfold signal
    split
    · rename_i hpc
      exact inv_goto h (by rw [hpc]; rfl)
    · exact inv_kill h p
  | kill p =>
    cases hstep
    exact inv_kill h p

theorem inv_start (left : Option (Option Pid)) (others : Pid → Bool) : (start left others).Inv := by
  refine ⟨fun p => ?_, fun _ hmem => absurd hmem List.not_mem_nil⟩
  have hmaker : (start left others).maker = none := by
    rw [maker, start]
    cases left <;> rfl
  have hplace : owns ((start left others).pc p) = false := by
    show owns (if others p then .other else .dead) = false
    split <;> rfl
  rw [hmaker, hplace]
  exact iff_of_false Bool.false_ne_true (Option.some_ne_none p).symm

end State

/-- **At most one ha-daemon runs**, in runs where whoever takes a directory over does so when its maker is
dead. -/
theorem single_of_careful {left : Option (Option Pid)} {others : Pid → Bool} {s : State}
    (h : Reach State.step (fun s e => s.careful e = true) (State.start left others) s) : Single s := by
  have hinv : s.Inv :=
    Reach.invariant (State.inv_start left others) (fun _ _ _ hs hok hstep => State.inv_step hs hok hstep) h
  have howns : ∀ p, State.running (s.pc p) = true → State.owns (s.pc p) = true := by
    intro p hp
    rw [State.owns, hp, Bool.or_true]
  exact ⟨fun p q hp hq => hinv.holds.unique (howns p hp) (howns q hq), hinv.spared⟩

/-- A dead daemon's directory is taken over, and the new daemon ends by a signal while another one tries to
start. -/
theorem single_after_crash :
    ∃ s, Reach State.step (fun s e => s.careful e = true) (State.start (some (some 9)) fun _ => false) s ∧
      s.removed = [false] ∧ s.pc 2 = .dead ∧ Single s := by
  have hrun : ∃ s, Reach State.step (fun s e => s.careful e = true) (State.start (some (some 9)) fun _ => false) s ∧
      (s.removed = [false] ∧ s.pc 2 = .dead) :=
    exists_reach [.launch 1, .advance 1, .advance 1, .advance 1, .advance 1, .advance 1, .advance 1, .advance 1,
      .launch 2, .advance 2, .advance 2, .advance 2, .signal 1, .advance 1] (by decide)
  obtain ⟨s, hs, hremoved, hdead⟩ := hrun
  exact ⟨s, hs, hremoved, hdead, single_of_careful hs⟩

/-- A second ha-daemon starts before the first one has written its pid: both run. -/
theorem second_start_runs :
    ∃ s, Reach State.step (fun _ _ => True) (State.start none fun _ => false) s ∧
      s.pc 1 = .serve ∧ s.pc 2 = .serve ∧ ¬Single s := by
  have hrun : ∃ s, Reach State.step (fun _ _ => True) (State.start none fun _ => false) s ∧
      (s.pc 1 = .serve ∧ s.pc 2 = .serve) :=
    exists_reach [.launch 1, .advance 1, .launch 2, .advance 2, .advance 2, .advance 2, .advance 2, .advance 2,
      .advance 1, .advance 1, .advance 2, .advance 2] (by decide)
  obtain ⟨s, hs, hone, htwo⟩ := hrun
  exact ⟨s, hs, hone, htwo, fun h => absurd (h.single 1 2 (by rw [hone]; rfl) (by rw [htwo]; rfl)) (by decide)⟩

/-- The first of the two to end removes the directory of the other. -/
theorem end_of_first_removes :
    ∃ s, Reach State.step (fun _ _ => True) (State.start none fun _ => false) s ∧
      s.pc 2 = .serve ∧ s.removed = [true] ∧ ¬Single s := by
  have hrun : ∃ s, Reach State.step (fun _ _ => True) (State.start none fun _ => false) s ∧
      (s.pc 2 = .serve ∧ s.removed = [true]) :=
    exists_reach [.launch 1, .advance 1, .launch 2, .advance 2, .advance 2, .advance 2, .advance 2, .advance 2,
      .advance 1, .advance 1, .advance 2, .advance 2, .signal 1, .advance 1] (by decide)
  obtain ⟨s, hs, hserve, hremoved⟩ := hrun
  refine ⟨s, hs, hserve, hremoved, fun h => ?_⟩
  have hspared := h.spared true (by rw [hremoved]; exact List.mem_singleton_self true)
  cases hspared

end Thingino.Ha.Daemon
