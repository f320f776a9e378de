import Thingino.Lib.Transition

/-! The lock of `physical-privacy`.

A transition is guarded by the directory `/run/physical-privacy.lock`: `mkdir` takes it, a file
in it holds the pid of who has it, and whoever finds the pid missing or dead removes the
directory and tries again. The transition itself outlives its invocation: the shell forks a
waiter, and both of them write the waiter's pid into the file.

The model has any number of processes, known by their pids. Each `mkdir`, each `rm -rf`, each
access to the pid file and each `kill -0` is one step of one process, in any order, and a
process can be killed anywhere. What the script decides by other means (the state file, the
armed marker, a failed write) may come out either way. Two ghosts are added: the process a
directory belongs to, and a list of the removals that hit somebody else's directory. -/
namespace Thingino.Privacy
open Lib

abbrev Pid := Nat

inductive Command
  | on
  | off
  | guard
  | reenter
  | other
  deriving DecidableEq

/-- What a process does next. `lock_busy` tests the directory, reads the pid and tests it;
`acquire_lock` tries `mkdir` (`make`), notes its pid, or reads the pid that is there, tests it,
breaks the lock and tries once more (`remake`). With the lock `held` an invocation either drops
it or forks and writes the backup; the waiter claims the lock, works and leaves through its
trap. Behind all that a process only has to exit (`leaving`), and one that has is `dead`. -/
inductive Pc
  | dead
  | other
  | busyDir
  | busyRead
  | busyTest (hp : Pid)
  | ready
  | make
  | note
  | readPid
  | test (hp : Pid)
  | breaking
  | remake
  | held
  | dropping
  | backup (waiter : Pid)
  | claim (parent : Pid)
  | work
  | leave
  | leaving
  deriving DecidableEq

def Command.entry : Command → Pc
  | .on | .off => .make
  | .guard => .busyDir
  | .reenter => .ready
  | .other => .other

namespace Pc

/-- From a successful `acquire_lock` to the release. -/
def inTransition : Pc → Bool
  | .held | .dropping | .claim _ | .work | .leave => true
  | .dead | .other | .busyDir | .busyRead | .busyTest _ | .ready | .make | .note | .readPid | .test _ | .breaking
  | .remake | .backup _ | .leaving => false

/-- From the `mkdir` to the release. -/
def owns (pc : Pc) : Bool := pc = .note || pc.inTransition

end Pc

/-- The directory: the pid in its file, and the process it belongs to. -/
structure Dir where
  pid : Option Pid
  owner : Pid
  deriving DecidableEq

structure State where
  pc : Pid → Pc
  lock : Option Dir
  broken : List (Pid × Pid)

inductive Event
  | start (p : Pid) (command : Command)
  | move (p : Pid)
  | quit (p : Pid)
  | fork (p waiter : Pid)
  | kill (p : Pid)
  deriving DecidableEq

namespace State

def init : State := ⟨fun _ => .dead, none, []⟩

def goto (s : State) (p : Pid) (pc : Pc) : State := { s with pc := fun q => if q = p then pc else s.pc q }

/-- `kill -0`. -/
def alive (s : State) (p : Pid) : Bool := s.pc p ≠ .dead

/-- `cat "$LOCK/pid"`, empty also without a directory. -/
def pidFile (s : State) : Option Pid := s.lock.bind Dir.pid

/-- `echo "$pid" >"$LOCK/pid"`, which fails without a directory. -/
def writePid (s : State) (pid : Pid) : State := { s with lock := s.lock.map fun d => { d with pid := some pid } }

/-- `mkdir "$LOCK"`, where there is none. -/
def mkdir (s : State) (p : Pid) : State := { s with lock := some ⟨none, p⟩ }

/-- The process whose directory is removed when `p` removes it, if that process is still there. -/
def victim (s : State) (p : Pid) : Option Pid :=
  (s.lock.map Dir.owner).filter fun owner => owner ≠ p && (s.pc owner).owns

/-- `rm -rf "$LOCK"`. -/
def remove (s : State) (p : Pid) : State :=
  { s with lock := none, broken := ((s.victim p).map (p, ·)).toList ++ s.broken }

/-- The directory goes with the transition to the waiter. -/
def handOver (s : State) (p waiter : Pid) : State :=
  { s with lock := s.lock.map fun d => if d.owner = p then { d with owner := waiter } else d }

/-- The next step of a process. -/
def move (s : State) (p : Pid) : Option State :=
  match s.pc p with
  | .dead => none
  | .other => some (s.goto p .dead)
  | .busyDir => some (s.goto p (if s.lock.isSome then .busyRead else .ready))
  | .busyRead => some (s.goto p (s.pidFile.elim .ready .busyTest))
  | .busyTest hp => some (s.goto p (if s.alive hp then .leaving else .ready))
  | .ready => some (s.goto p .make)
  | .make => some (if s.lock.isSome then s.goto p .readPid else (s.mkdir p).goto p .note)
  | .note => some ((s.writePid p).goto p .held)
  | .readPid => some (s.goto p (s.pidFile.elim .breaking .test))
  | .test hp => some (s.goto p (if s.alive hp then .leaving else .breaking))
  | .breaking => some ((s.remove p).goto p .remake)
  | .remake => some (if s.lock.isSome then s.goto p .leaving else (s.mkdir p).goto p .note)
  | .held => none
  | .dropping => some ((s.remove p).goto p .leaving)
  | .backup waiter => some ((s.writePid waiter).goto p .leaving)
  | .claim _ => some ((s.writePid p).goto p .work)
  | .work => some (s.goto p .leave)
  | .leave => some ((s.remove p).goto p .leaving)
  | .leaving => some (s.goto p .dead)

/-- `ready` and `held` are the two places where an invocation may find that it has nothing to do. -/
def quit (s : State) (p : Pid) : Option State :=
  match s.pc p with
  | .ready => some (s.goto p .leaving)
  | .held => some (s.goto p .dropping)
  | _ => none

def step (s : State) : Event → Option State
  | .start p command => if s.alive p then none else some (s.goto p command.entry)
  | .move p => s.move p
  | .quit p => s.quit p
  | .fork p waiter =>
    if s.pc p = .held ∧ s.alive waiter = false then
      some (((s.handOver p waiter).goto p (.backup waiter)).goto waiter (.claim p))
    else none
  | .kill p => some (s.goto p .dead)

/-- `lock_busy`. -/
def lockBusy (s : State) : Bool := s.pidFile.any s.alive

end State

/-- **The property.** At most one transition is there, nobody has removed the directory of
another live process, and as long as there is a transition the lock is busy. -/
structure Exclusive (s : State) : Prop where
  one : ∀ p q, (s.pc p).inTransition = true → (s.pc q).inTransition = true → p = q
  kept : s.broken = []
  busy : ∀ p, (s.pc p).inTransition = true → s.lockBusy = true

/-! ### The steps that must not come too late -/

namespace State

/-- The directory is not one whose maker has yet to write its pid. -/
def named (s : State) : Bool := !s.lock.any fun d => s.pc d.owner = .note

/-- A lock is broken while it is not busy, the backup write of an invocation meets its own
transition or a lock that is not busy, and an invocation is not killed while it alone vouches
for its waiter. -/
def orderly (s : State) : Event → Bool
  | .move p =>
    match s.pc p with
    | .breaking => !s.lockBusy && s.named
    | .backup waiter => !s.lockBusy || s.pidFile = some p || s.pidFile = some waiter
    | _ => true
  | .kill p =>
    match s.pc p with
    | .backup waiter => s.pidFile ≠ some p || !s.alive waiter
    | _ => true
  | .start _ _ | .quit _ | .fork _ _ => true

/-! ### Reading the state -/

@[simp] theorem goto_pc_self (s : State) (p : Pid) (pc : Pc) : (s.goto p pc).pc p = pc := if_pos rfl

theorem goto_pc_of_ne (s : State) {p q : Pid} (pc : Pc) (h : q ≠ p) : (s.goto p pc).pc q = s.pc q := if_neg h

@[simp] theorem goto_lock (s : State) (p : Pid) (pc : Pc) : (s.goto p pc).lock = s.lock := rfl

theorem alive_iff {s : State} {p : Pid} : s.alive p = true ↔ s.pc p ≠ .dead := decide_eq_true_iff

theorem pidFile_of_lock {s : State} {d : Dir} (h : s.lock = some d) : s.pidFile = d.pid := by
  rw [pidFile, h, Option.bind_some]

/-! ### The invariant -/

/-- What the pid file says, by where the owner of the directory is. Until the waiter's pid is
written, the pid of its parent stands in for it. -/
def Noted (s : State) (d : Dir) : Pc → Prop
  | .held | .dropping | .work | .leave => d.pid = some d.owner
  | .claim parent => d.pid = some d.owner ∨ (d.pid = some parent ∧ s.pc parent = .backup d.owner)
  | .dead | .other | .busyDir | .busyRead | .busyTest _ | .ready | .make | .note | .readPid | .test _ | .breaking
  | .remake | .backup _ | .leaving => True

/-- Whoever owns a directory owns the one that is there. -/
structure Ordered (s : State) : Prop where
  owned : ∀ p, (s.pc p).owns = true → ∃ d, s.lock = some d ∧ d.owner = p
  noted : ∀ d, s.lock = some d → s.Noted d (s.pc d.owner)
  kept : s.broken = []

theorem ordered_init : Ordered init := by
  refine ⟨fun p hp => ?_, fun d hd => ?_, rfl⟩
  · cases hp
  · cases hd

theorem Noted.of_not_inTransition {s : State} {d : Dir} {pc : Pc} (h : pc.inTransition = false) : s.Noted d pc := by
  cases pc with
  | held | dropping | work | leave | claim => cases h
  | dead | other | busyDir | busyRead | busyTest | ready | make | note | readPid | test | breaking | remake | backup
  | leaving => trivial

/-- The pid file matters only where the parent of a waiter stands in for it. -/
theorem Noted.congr {s s' : State} {d : Dir} {pc : Pc} (h : s.Noted d pc)
    (hparent : ∀ parent, pc = .claim parent → d.pid = some parent → s.pc parent = .backup d.owner →
      s'.pc parent = .backup d.owner) : s'.Noted d pc := by
  cases pc with
  | held | dropping | work | leave => exact h
  | claim parent => exact h.imp id fun hpid => ⟨hpid.1, hparent parent rfl hpid.1 hpid.2⟩
  | dead | other | busyDir | busyRead | busyTest | ready | make | note | readPid | test | breaking | remake | backup
  | leaving => trivial

/-- Behind the first note, the pid in the file is that of a live process. -/
theorem Ordered.vouched {s : State} {p : Pid} (h : Ordered s) (hp : (s.pc p).inTransition = true) :
    ∃ q, s.pidFile = some q ∧ s.alive q = true := by
  have howns : (s.pc p).owns = true := Bool.or_eq_true_iff.mpr (.inr hp)
  obtain ⟨d, hd, howner⟩ := h.owned p howns
  have hnoted := h.noted d hd
  rw [howner] at hnoted
  have hself : d.pid = some p → ∃ q, s.pidFile = some q ∧ s.alive q = true := by
    intro hpid
    refine ⟨p, (pidFile_of_lock hd).trans hpid, alive_iff.mpr fun hdead => ?_⟩
    rw [hdead] at hp
    cases hp
  cases hpc : s.pc p with
  | held | dropping | work | leave =>
    rw [hpc] at hnoted
    exact hself (howner ▸ hnoted)
  | claim parent =>
    rw [hpc] at hnoted
    refine hnoted.elim (fun hpid => hself (howner ▸ hpid)) fun hpid => ⟨parent, ?_, alive_iff.mpr ?_⟩
    · exact (pidFile_of_lock hd).trans hpid.1
    · rw [hpid.2]
      exact Pc.noConfusion
  | dead | other | busyDir | busyRead | busyTest | ready | make | note | readPid | test | breaking | remake | backup
  | leaving =>
    rw [hpc] at hp
    cases hp

theorem Ordered.unique {s : State} {p q : Pid} (h : Ordered s) (hp : (s.pc p).owns = true) (hq : (s.pc q).owns = true) :
    p = q := by
  obtain ⟨d, hd, hdp⟩ := h.owned p hp
  obtain ⟨d', hd', hdq⟩ := h.owned q hq
  cases hd.symm.trans hd'
  exact hdp.symm.trans hdq

/-- While it holds the lock or works, a process has its own pid in the file. -/
theorem Ordered.pidFile_self {s : State} {p : Pid} (h : Ordered s) (hpc : s.pc p = .held ∨ s.pc p = .work) :
    s.pidFile = some p := by
  have howns : (s.pc p).owns = true := by
    obtain hpc | hpc := hpc <;> rw [hpc] <;> rfl
  obtain ⟨d, hd, howner⟩ := h.owned p howns
  have hnoted := h.noted d hd
  rw [howner] at hnoted
  have hpid : d.pid = some d.owner := by
    obtain hpc | hpc := hpc <;> rw [hpc] at hnoted <;> exact hnoted
  rw [pidFile_of_lock hd, hpid, howner]

theorem Ordered.exclusive {s : State} (h : Ordered s) : Exclusive s := by
  refine ⟨fun p q hp hq => ?_, h.kept, fun p hp => ?_⟩
  · exact h.unique (Bool.or_eq_true_iff.mpr (.inr hp)) (Bool.or_eq_true_iff.mpr (.inr hq))
  · obtain ⟨q, hq, halive⟩ := h.vouched hp
    rw [lockBusy, hq, Option.any_some, halive]

/-! ### One step -/

/-- A process outside of the lock moves on. If it is the one that vouches for a waiter, the
waiter must be gone or vouch for itself. -/
theorem Ordered.passive {s : State} {p : Pid} {pc : Pc} (h : Ordered s) (hpc : pc.owns = false)
    (hvouch : ∀ waiter, s.pc p = .backup waiter → s.pidFile = some p → s.alive waiter = false) :
    Ordered (s.goto p pc) := by
  refine ⟨fun q hq => ?_, fun d hd => ?_, h.kept⟩
  · by_cases hqp : q = p
    · rw [hqp, goto_pc_self, hpc] at hq
      cases hq
    · rw [goto_pc_of_ne s pc hqp] at hq
      exact h.owned q hq
  · rw [goto_lock] at hd
    by_cases howner : d.owner = p
    · rw [howner, goto_pc_self]
      exact .of_not_inTransition (Bool.or_eq_false_iff.mp hpc).2
    · rw [goto_pc_of_ne s pc howner]
      refine (h.noted d hd).congr fun parent hclaim hpid hparent => ?_
      by_cases hpp : parent = p
      · subst hpp
        have hdead := hvouch d.owner hparent ((pidFile_of_lock hd).trans hpid)
        rw [Bool.eq_false_iff, ne_eq, alive_iff, not_not, hclaim] at hdead
        cases hdead
      · rw [goto_pc_of_ne s pc hpp]
        exact hparent

/-- The owner moves on and the pid file is its own already. -/
theorem Ordered.hold {s : State} {p : Pid} {pc : Pc} (h : Ordered s) (howns : (s.pc p).owns = true)
    (hpid : s.pidFile = some p) (hpc : ∀ d : Dir, d.pid = some d.owner → (s.goto p pc).Noted d pc) :
    Ordered (s.goto p pc) := by
  obtain ⟨d, hd, howner⟩ := h.owned p howns
  refine ⟨fun q hq => ?_, fun d' hd' => ?_, h.kept⟩
  · by_cases hqp : q = p
    · exact ⟨d, hd, howner.trans hqp.symm⟩
    · rw [goto_pc_of_ne s pc hqp] at hq
      exact h.owned q hq
  · cases hd.symm.trans hd'
    rw [howner, goto_pc_self]
    refine hpc d ?_
    rw [howner, ← pidFile_of_lock hd, hpid]

/-- `mkdir` where there is no directory. -/
theorem Ordered.acquire {s : State} {p : Pid} (h : Ordered s) (hlock : s.lock = none) :
    Ordered ((s.mkdir p).goto p .note) := by
  refine ⟨fun q hq => ?_, fun d hd => ?_, h.kept⟩
  · by_cases hqp : q = p
    · exact ⟨⟨none, p⟩, rfl, hqp.symm⟩
    · rw [goto_pc_of_ne _ _ hqp] at hq
      obtain ⟨d, hd, -⟩ := h.owned q hq
      cases hlock.symm.trans hd
  · cases hd
    rw [goto_pc_self]
    trivial

/-- The owner writes its own pid. -/
theorem Ordered.sign {s : State} {p : Pid} {pc : Pc} (h : Ordered s) (howns : (s.pc p).owns = true)
    (hpc : ∀ d : Dir, d.pid = some d.owner → ((s.writePid p).goto p pc).Noted d pc) :
    Ordered ((s.writePid p).goto p pc) := by
  obtain ⟨d, hd, howner⟩ := h.owned p howns
  have hlock : ((s.writePid p).goto p pc).lock = some { d with pid := some p } := by
    rw [goto_lock, writePid, hd, Option.map_some]
  refine ⟨fun q hq => ?_, fun d' hd' => ?_, h.kept⟩
  · refine ⟨_, hlock, ?_⟩
    by_cases hqp : q = p
    · exact howner.trans hqp.symm
    · rw [goto_pc_of_ne _ _ hqp] at hq
      exact absurd (h.unique hq howns) hqp
  · cases hlock.symm.trans hd'
    rw [howner, goto_pc_self]
    exact hpc _ rfl

/-- The lock is removed by its owner, or where it has none. -/
theorem Ordered.clear {s : State} {p : Pid} {pc : Pc} (h : Ordered s) (hpc : pc.owns = false)
    (honly : ∀ q, (s.pc q).owns = true → q = p) : Ordered ((s.remove p).goto p pc) := by
  have hvictim : s.victim p = none := by
    rw [victim, Option.filter_eq_none_iff]
    intro owner _ hbad
    rw [Bool.and_eq_true, decide_eq_true_eq] at hbad
    exact hbad.1 (honly owner hbad.2)
  refine ⟨fun q hq => ?_, fun d hd => ?_, ?_⟩
  · by_cases hqp : q = p
    · rw [hqp, goto_pc_self, hpc] at hq
      cases hq
    · rw [goto_pc_of_ne _ _ hqp] at hq
      exact absurd (honly q hq) hqp
  · cases hd
  · show ((s.victim p).map (p, ·)).toList ++ s.broken = []
    rw [hvictim, h.kept]
    rfl

/-- A lock that is not busy belongs to no transition. -/
theorem Ordered.not_inTransition {s : State} (h : Ordered s) (hbusy : s.lockBusy = false) (q : Pid) :
    (s.pc q).inTransition = false := by
  rw [Bool.eq_false_iff]
  intro hq
  obtain ⟨r, hr, halive⟩ := h.vouched hq
  rw [lockBusy, hr, Option.any_some, halive] at hbusy
  cases hbusy

/-- If it is named too, it belongs to nobody. -/
theorem Ordered.not_owns {s : State} (h : Ordered s) (hbusy : s.lockBusy = false) (hnamed : s.named = true) (q : Pid) :
    (s.pc q).owns = false := by
  refine Bool.or_eq_false_iff.mpr ⟨decide_eq_false fun hnote => ?_, h.not_inTransition hbusy q⟩
  have howns : (s.pc q).owns = true := by
    rw [hnote]
    rfl
  obtain ⟨d, hd, howner⟩ := h.owned q howns
  rw [named, hd, Option.any_some, howner, hnote] at hnamed
  cases hnamed

/-- The backup write leaves the owner of the directory in the pid file. -/
theorem noted_backup {s : State} {p waiter : Pid} {d : Dir} {pc : Pc} (hpc : s.pc p = .backup waiter)
    (hne : d.owner ≠ p) (hown : d.pid = some p ∨ d.pid = some waiter) (h : s.Noted d pc) :
    ((s.writePid waiter).goto p .leaving).Noted { d with pid := some waiter } pc := by
  have hself : d.pid = some d.owner → some waiter = some d.owner := by
    intro hpid
    refine hown.elim (fun hp => ?_) fun hwaiter => hwaiter.symm.trans hpid
    exact absurd (Option.some.inj (hpid.symm.trans hp)) hne
  cases pc with
  | held | dropping | work | leave => exact hself h
  | claim parent =>
    obtain hpid | ⟨hpid, hparent⟩ := h
    · exact .inl (hself hpid)
    · by_cases hpp : parent = p
      · rw [hpp, hpc, Pc.backup.injEq] at hparent
        exact .inl (congrArg some hparent)
      · have hwaiter : d.pid = some waiter :=
          hown.resolve_left fun hp => hpp (Option.some.inj (hpid.symm.trans hp))
        refine .inr ⟨hwaiter.symm.trans hpid, ?_⟩
        rw [goto_pc_of_ne _ _ hpp]
        exact hparent
  | dead | other | busyDir | busyRead | busyTest | ready | make | note | readPid | test | breaking | remake | backup
  | leaving => trivial

/-- The backup write of an invocation. -/
theorem Ordered.backUp {s : State} {p waiter : Pid} (h : Ordered s) (hpc : s.pc p = .backup waiter)
    (hown : s.lockBusy = false ∨ s.pidFile = some p ∨ s.pidFile = some waiter) :
    Ordered ((s.writePid waiter).goto p .leaving) := by
  cases hlock : s.lock with
  | none =>
    have hsame : s.writePid waiter = s := by
      rw [writePid, hlock, Option.map_none, ← hlock]
    rw [hsame]
    refine h.passive rfl fun _ _ hpid => ?_
    rw [pidFile, hlock] at hpid
    cases hpid
  | some d =>
    rw [pidFile_of_lock hlock] at hown
    have hlock' : ((s.writePid waiter).goto p .leaving).lock = some { d with pid := some waiter } := by
      rw [goto_lock, writePid, hlock, Option.map_some]
    refine ⟨fun q hq => ?_, fun d' hd' => ?_, h.kept⟩
    · refine ⟨_, hlock', ?_⟩
      by_cases hqp : q = p
      · rw [hqp, goto_pc_self] at hq
        cases hq
      · rw [goto_pc_of_ne _ _ hqp] at hq
        obtain ⟨d', hd', howner⟩ := h.owned q hq
        cases hlock.symm.trans hd'
        exact howner
    · cases hlock'.symm.trans hd'
      by_cases howner : d.owner = p
      · rw [howner, goto_pc_self]
        trivial
      · rw [goto_pc_of_ne _ _ howner]
        obtain hbusy | hown := hown
        · exact .of_not_inTransition (h.not_inTransition hbusy d.owner)
        · exact noted_backup hpc howner hown (h.noted d hlock)

theorem Ordered.forked {s : State} {p waiter : Pid} (h : Ordered s) (hpc : s.pc p = .held)
    (hdead : s.alive waiter = false) :
    Ordered (((s.handOver p waiter).goto p (.backup waiter)).goto waiter (.claim p)) := by
  have howns : (s.pc p).owns = true := by
    rw [hpc]
    rfl
  obtain ⟨d, hd, howner⟩ := h.owned p howns
  have hnoted := h.noted d hd
  rw [howner, hpc] at hnoted
  have hne : p ≠ waiter := by
    rintro rfl
    rw [Bool.eq_false_iff, ne_eq, alive_iff, not_not, hpc] at hdead
    cases hdead
  have hlock : (((s.handOver p waiter).goto p (.backup waiter)).goto waiter (.claim p)).lock =
      some { d with owner := waiter } := by
    rw [goto_lock, goto_lock, handOver, hd, Option.map_some, if_pos howner]
  refine ⟨fun q hq => ?_, fun d' hd' => ?_, h.kept⟩
  · refine ⟨_, hlock, ?_⟩
    by_cases hqw : q = waiter
    · exact hqw.symm
    · rw [goto_pc_of_ne _ _ hqw] at hq
      by_cases hqp : q = p
      · rw [hqp, goto_pc_self] at hq
        cases hq
      · rw [goto_pc_of_ne _ _ hqp] at hq
        exact absurd (h.unique hq howns) hqp
  · cases hlock.symm.trans hd'
    rw [goto_pc_self]
    refine .inr ⟨?_, ?_⟩
    · exact hnoted.trans (congrArg some howner)
    · rw [goto_pc_of_ne _ _ hne, goto_pc_self]

/-- A process that is not an invocation behind its fork vouches for nobody. -/
theorem vouches_nobody {s : State} {p : Pid} {pc : Pc} (hpc : s.pc p = pc) (h : ∀ waiter, pc ≠ .backup waiter) :
    ∀ waiter, s.pc p = .backup waiter → s.pidFile = some p → s.alive waiter = false :=
  fun waiter hbackup => absurd (hpc.symm.trans hbackup) (h waiter)

theorem ordered_move {s s' : State} {p : Pid} (h : Ordered s) (hok : s.orderly (.move p) = true)
    (hmove : s.move p = some s') : Ordered s' := by
  have hown : (s.pc p).owns = true → ∀ q, (s.pc q).owns = true → q = p := fun hp q hq => h.unique hq hp
  unfold move at hmove
  cases hpc : s.pc p
  all_goals
    rw [hpc] at hmove hown
    cases hmove
  case other | ready | leaving => exact h.passive rfl (vouches_nobody hpc fun _ => Pc.noConfusion)
  case busyDir | busyTest hp | test hp =>
    refine h.passive ?_ (vouches_nobody hpc fun _ => Pc.noConfusion)
    split <;> rfl
  case busyRead | readPid =>
    refine h.passive ?_ (vouches_nobody hpc fun _ => Pc.noConfusion)
    cases s.pidFile <;> rfl
  case make | remake =>
    split
    · exact h.passive rfl (vouches_nobody hpc fun _ => Pc.noConfusion)
    · rename_i hlock
      exact h.acquire (Option.not_isSome_iff_eq_none.mp hlock)
  case note | claim parent => exact h.sign (hpc ▸ rfl) fun d hd => hd
  case breaking =>
    rw [orderly, hpc, Bool.and_eq_true, Bool.not_eq_true'] at hok
    refine h.clear rfl fun q hq => ?_
    rw [h.not_owns hok.1 hok.2 q] at hq
    cases hq
  case dropping | leave => exact h.clear rfl (hown rfl)
  case backup waiter =>
    rw [orderly, hpc, Bool.or_eq_true, Bool.or_eq_true, decide_eq_true_eq, decide_eq_true_eq, Bool.not_eq_true',
      or_assoc] at hok
    exact h.backUp hpc hok
  case work => exact h.hold (hpc ▸ rfl) (h.pidFile_self (.inr hpc)) fun d hd => hd

theorem ordered_step {s s' : State} {e : Event} (h : Ordered s) (hok : s.orderly e = true)
    (hstep : s.step e = some s') : Ordered s' := by
  cases e with
  | start p command =>
    rw [step, Option.ite_none_left_eq_some, Option.some.injEq, alive_iff, not_not] at hstep
    obtain ⟨hdead, rfl⟩ := hstep
    refine h.passive ?_ (vouches_nobody hdead fun _ => Pc.noConfusion)
    cases command <;> rfl
  | move p => exact ordered_move h hok hstep
  | quit p =>
    simp only [step, quit] at hstep
    split at hstep
    · rename_i hpc
      cases hstep
      exact h.passive rfl (vouches_nobody hpc fun _ => Pc.noConfusion)
    · rename_i hpc
      cases hstep
      exact h.hold (hpc ▸ rfl) (h.pidFile_self (.inl hpc)) fun d hd => hd
    · cases hstep
  | fork p waiter =>
    rw [step, Option.ite_none_right_eq_some, Option.some.injEq] at hstep
    obtain ⟨⟨hpc, hdead⟩, rfl⟩ := hstep
    exact h.forked hpc hdead
  | kill p =>
    cases hstep
    refine h.passive rfl fun waiter hpc hpid => ?_
    rw [orderly, hpc, Bool.or_eq_true, decide_eq_true_eq, Bool.not_eq_true'] at hok
    exact hok.resolve_left (not_not_intro hpid)

end State

/-- **Mutual exclusion** in every run in which the late steps find what they expect. -/
theorem exclusive_of_orderly {s : State}
    (h : Reach State.step (fun s e => s.orderly e = true) State.init s) : Exclusive s := by
  have hordered : s.Ordered :=
    Reach.invariant State.ordered_init (fun _ _ _ hs hok hstep => State.ordered_step hs hok hstep) h
  exact hordered.exclusive

/-- The waiter of an `on` is killed at work, and an `off` breaks the lock it left behind. -/
theorem exclusive_after_crash :
    ∃ s, Reach State.step (fun s e => s.orderly e = true) State.init s ∧
      s.pc 3 = .held ∧ s.lock = some ⟨some 3, 3⟩ ∧ Exclusive s := by
  have hrun : ∃ s, Reach State.step (fun s e => s.orderly e = true) State.init s ∧
      (s.pc 3 = .held ∧ s.lock = some ⟨some 3, 3⟩) :=
    exists_reach [.start 1 .on, .move 1, .move 1, .fork 1 2, .move 2, .move 1, .move 1, .kill 2, .start 3 .off, .move 3,
      .move 3, .move 3, .move 3, .move 3, .move 3] (by decide)
  obtain ⟨s, hs, hpc, hlock⟩ := hrun
  exact ⟨s, hs, hpc, hlock, exclusive_of_orderly hs⟩

/-- Two invocations of `on`. The second finds the directory of the first before there is a pid
in it, takes it for stale, and removes it. -/
theorem young_lock_broken : ∃ s, Reach State.step (fun _ _ => True) State.init s ∧ ¬Exclusive s := by
  have hrun : ∃ s, Reach State.step (fun _ _ => True) State.init s ∧ (s.pc 1 = .held ∧ s.pc 2 = .held) :=
    exists_reach [.start 1 .on, .start 2 .on, .move 1, .move 2, .move 2, .move 2, .move 2, .move 2, .move 1] (by decide)
  obtain ⟨s, hs, h₁, h₂⟩ := hrun
  refine ⟨s, hs, fun h => ?_⟩
  exact absurd (h.one 1 2 (h₁ ▸ rfl) (h₂ ▸ rfl)) (by decide)

end Thingino.Privacy
