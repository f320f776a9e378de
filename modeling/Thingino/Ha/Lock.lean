import Mathlib.Logic.Function.Basic
import Thingino.Lib.Transition

/-! The lock that publishers of one entity take, a directory in `/run/ha/pub`.

`mkdir` takes it and a file in it names the owner. Who finds it taken reads the owner, tests whether it
lives, looks at the age of the directory, and moves the directory aside if the owner is dead or the
directory old. These are steps of their own, and the last one moves whatever directory is there by then.

The model has any number of processes, known by their pids; each may be killed between any two steps,
and a pid may be used again. The clock goes on by any number of seconds. -/
namespace Thingino.Ha
open Lib

abbrev Pid := Nat

/-- `_HA_LOCK_TRIES`. -/
def lockTries : Nat := 240

/-- `_HA_LOCK_STALE_AGE`, in seconds. -/
def lockStaleAge : Nat := 15

/-- What a process does next: it is gone, or it is outside of a call (`idle`). `_ha_lock` tries `mkdir`,
tests for the directory, reads the owner and tests it, takes the directory's age in two steps, moves it
aside and removes it there; at last it notes its own pid. `held` is the time up to `_ha_unlock`. -/
inductive Pc
  | dead
  | idle
  | make (i : Nat)
  | look (i : Nat)
  | read (i : Nat)
  | test (i : Nat) (owner : Option Pid)
  | stat (i : Nat)
  | aged (i : Nat) (mt : Nat)
  | steal (i : Nat)
  | discard (i : Nat)
  | note
  | held
deriving DecidableEq

/-- `maker` is for the record: the process that made the directory, while it lives. -/
structure LockDir where
  mtime : Nat
  pid : Option Pid
  maker : Option Pid
deriving DecidableEq

/-- A pid is written into it; a new file changes the directory. -/
def LockDir.note (d : LockDir) (now : Nat) (p : Pid) : LockDir :=
  ⟨if d.pid.isSome then d.mtime else now, some p, d.maker⟩

/-- A process that is gone has made no directory any more. -/
def LockDir.bereave (d : LockDir) (p : Pid) : LockDir := { d with maker := d.maker.filter (· ≠ p) }

/-- `removed` is for the record: for each directory that was moved or removed, whether it was that of
another process alive. -/
structure LockState where
  dir : Option LockDir
  now : Nat
  pc : Pid → Pc
  removed : List Bool

/-- `fail` is a step that does not succeed: a `mkdir` without room, a move, or the pid not written. -/
inductive LockEvent
  | launch (p : Pid)
  | lock (p : Pid)
  | advance (p : Pid)
  | fail (p : Pid)
  | kill (p : Pid)
  | tick (seconds : Nat)

namespace LockState

def goto (s : LockState) (p : Pid) (pc : Pc) : LockState := { s with pc := Function.update s.pc p pc }

/-- `kill -0`. -/
def alive (s : LockState) (p : Pid) : Bool := s.pc p ≠ .dead

/-- A try that found the lock taken: the next one, or the end of the wait. -/
def again (s : LockState) (p : Pid) (i : Nat) : LockState :=
  if i + 1 ≥ lockTries then s.goto p .idle else s.goto p (.make (i + 1))

/-- The directory goes. -/
def clear (s : LockState) (p : Pid) : LockState :=
  match s.dir with
  | none => s
  | some d => { s with dir := none, removed := (d.maker.isSome && d.maker ≠ some p) :: s.removed }

/-- The next step of a process. -/
def advance (s : LockState) (p : Pid) : Option LockState :=
  match s.pc p with
  | .dead | .idle => none
  | .make i =>
    match s.dir with
    | none => some ({ s with dir := some ⟨s.now, none, some p⟩ }.goto p .note)
    | some _ => some (s.goto p (.look i))
  | .look i => some (if s.dir.isNone then s.goto p .idle else s.goto p (.read i))
  | .read i => some (s.goto p (.test i (s.dir.bind LockDir.pid)))
  | .test i owner => some (if owner.any fun o => !s.alive o then s.goto p (.steal i) else s.goto p (.stat i))
  | .stat i =>
    match s.dir with
    | none => some (s.again p i)
    | some d => some (s.goto p (.aged i d.mtime))
  | .aged i mt => some (if s.now - mt ≥ lockStaleAge then s.goto p (.steal i) else s.again p i)
  | .steal i =>
    match s.dir with
    | none => some (s.goto p (.make i))
    | some _ => some ((s.clear p).goto p (.discard i))
  | .discard i => some (s.goto p (.make i))
  | .note => some ({ s with dir := s.dir.map (LockDir.note · s.now p) }.goto p .held)
  | .held => some ((s.clear p).goto p .idle)

def fail (s : LockState) (p : Pid) : Option LockState :=
  match s.pc p with
  | .make i => some (s.goto p (.look i))
  | .steal i => some (s.goto p (.make i))
  | .note => some (s.goto p .held)
  | _ => none

def kill (s : LockState) (p : Pid) : LockState := { s with dir := s.dir.map (LockDir.bereave · p) }.goto p .dead

def step (s : LockState) : LockEvent → Option LockState
  | .launch p => if s.pc p = .dead then some (s.goto p .idle) else none
  | .lock p => if s.pc p = .idle then some (s.goto p (.make 0)) else none
  | .advance p => s.advance p
  | .fail p => s.fail p
  | .kill p => some (s.kill p)
  | .tick seconds => some { s with now := s.now + seconds }

/-- No process, and perhaps a directory that a dead one has left. -/
def start (now : Nat) (left : Option (Nat × Option Pid)) : LockState :=
  ⟨left.map fun (mtime, pid) => ⟨mtime, pid, none⟩, now, fun _ => .dead, []⟩

/-- No directory of a live process gets as old as the stale age. -/
def prompt (s : LockState) : LockEvent → Bool
  | .tick seconds => s.dir.all fun d => d.maker.isNone || s.now + seconds < d.mtime + lockStaleAge
  | _ => true

/-- The directory there is one to steal: its owner is dead, or it is old, or its maker died before it
could write its pid. -/
def stale (s : LockState) : Bool :=
  s.dir.all fun d =>
    match d.pid with
    | some owner => !s.alive owner || s.now - d.mtime ≥ lockStaleAge
    | none => d.maker.isNone || s.now - d.mtime ≥ lockStaleAge

/-- Whenever a directory is moved aside, it is one to steal still. -/
def careful (s : LockState) : LockEvent → Bool
  | .advance p =>
    match s.pc p with
    | .steal _ => s.stale
    | _ => true
  | _ => true

end LockState

/-- **The property.** At most one process is between its `_ha_lock` and its `_ha_unlock`, and no live
process has lost its directory to another. -/
structure Exclusive (s : LockState) : Prop where
  exclusive : ∀ p q, s.pc p = .held → s.pc q = .held → p = q
  spared : ∀ hit ∈ s.removed, hit = false

namespace LockState

/-! ### The invariant -/

/-- From the `mkdir` to the `_ha_unlock`. -/
def owns : Pc → Bool
  | .note | .held => true
  | _ => false

/-- Who owns the lock has made the directory that is there; who has made it and lives is its owner, by
the pid in it as well, and not for long yet. -/
structure Inv (s : LockState) : Prop where
  owner : ∀ p, owns (s.pc p) = true → ∃ d, s.dir = some d ∧ d.maker = some p
  maker : ∀ d, s.dir = some d → ∀ p, d.maker = some p →
    owns (s.pc p) = true ∧ (∀ owner ∈ d.pid, owner = p) ∧ s.now < d.mtime + lockStaleAge
  spared : ∀ hit ∈ s.removed, hit = false

variable {s s' : LockState} {p : Pid} {pc : Pc}

theorem pc_goto (s : LockState) (p : Pid) (pc : Pc) (q : Pid) : (s.goto p pc).pc q = if q = p then pc else s.pc q :=
  Function.update_apply ..

/-- A step that leaves the directory alone and owns as much as before. -/
theorem inv_goto (h : s.Inv) (howns : owns pc = owns (s.pc p)) : (s.goto p pc).Inv := by
  have hsame : ∀ q, owns ((s.goto p pc).pc q) = owns (s.pc q) := by
    intro q
    rw [pc_goto]
    split
    · rename_i hq
      rw [hq, howns]
    · rfl
  refine ⟨fun q hq => h.owner q (hsame q ▸ hq), fun d hd q hq => ?_, h.spared⟩
  obtain ⟨hown, hpid, hyoung⟩ := h.maker d hd q hq
  exact ⟨hsame q ▸ hown, hpid, hyoung⟩

theorem inv_again (h : s.Inv) (i : Nat) (howns : owns (s.pc p) = false) : (s.again p i).Inv := by
  unfold again
  split <;> exact inv_goto h howns.symm

/-- With no directory there, nobody owns the lock. -/
theorem owns_of_none (h : s.Inv) (hdir : s.dir = none) (q : Pid) : owns (s.pc q) = false := by
  rw [← Bool.not_eq_true]
  intro hown
  obtain ⟨d, hd, -⟩ := h.owner q hown
  rw [hdir] at hd
  cases hd

/-- A directory made when there was none is its maker's. -/
theorem inv_make (h : s.Inv) (hdir : s.dir = none) :
    ({ s with dir := some ⟨s.now, none, some p⟩ }.goto p .note).Inv := by
  have hnobody := owns_of_none h hdir
  refine ⟨fun q hq => ⟨_, rfl, ?_⟩, fun d hd q hq => ?_, h.spared⟩
  · rw [pc_goto] at hq
    split at hq
    · rename_i heq
      rw [heq]
    · rw [hnobody q] at hq
      cases hq
  · cases hd
    obtain rfl := Option.some.inj hq
    refine ⟨?_, fun _ => (nomatch ·), Nat.lt_add_of_pos_right (by decide)⟩
    rw [pc_goto, if_pos rfl]
    rfl

/-- The maker of the directory writes its own pid into it. -/
theorem inv_note (h : s.Inv) (hpc : s.pc p = .note) :
    ({ s with dir := s.dir.map (LockDir.note · s.now p) }.goto p .held).Inv := by
  obtain ⟨d, hd, hmaker⟩ := h.owner p (by rw [hpc]; rfl)
  refine ⟨fun q hq => ?_, fun d' hd' q hq => ?_, h.spared⟩
  · have hown : owns (s.pc q) = true := by
      rw [pc_goto] at hq
      split at hq
      · rename_i heq
        rw [heq, hpc]
        rfl
      · exact hq
    obtain ⟨e, he, hq⟩ := h.owner q hown
    exact ⟨e.note s.now p, by rw [goto, he]; rfl, hq⟩
  · rw [goto, hd] at hd'
    cases hd'
    obtain rfl := Option.some.inj (hmaker.symm.trans hq)
    refine ⟨?_, fun owner howner => (Option.some.inj howner).symm, ?_⟩
    · rw [pc_goto, if_pos rfl]
      rfl
    · change s.now < (if d.pid.isSome then d.mtime else s.now) + lockStaleAge
      split
      · exact (h.maker d hd p hmaker).2.2
      · exact Nat.lt_add_of_pos_right (by decide)

/-- The directory goes, and no live process but `p` can have made it. -/
theorem inv_clear (h : s.Inv) (howns : owns pc = false) (hmine : ∀ d, s.dir = some d → ∀ q, d.maker = some q → q = p) :
    ((s.clear p).goto p pc).Inv := by
  have hpc : (s.clear p).pc = s.pc := by unfold clear; split <;> rfl
  have hdir : (s.clear p).dir = none := by
    unfold clear
    split
    · assumption
    · rfl
  refine ⟨fun q hq => ?_, fun d hd => ?_, ?_⟩
  · rw [pc_goto, hpc] at hq
    split at hq
    · rw [howns] at hq
      cases hq
    · rename_i hne
      obtain ⟨d, hd, hmaker⟩ := h.owner q hq
      exact absurd (hmine d hd q hmaker) hne
  · rw [goto, hdir] at hd
    cases hd
  · show ∀ hit ∈ (s.clear p).removed, hit = false
    unfold clear
    split
    · exact h.spared
    · rename_i d hd
      refine List.forall_mem_cons.mpr ⟨?_, h.spared⟩
      cases hmaker : d.maker with
      | none => rfl
      | some q => simp [hmine d hd q hmaker]

/-- What is to steal was made by nobody who lives. -/
theorem maker_of_stale (h : s.Inv) (hstale : s.stale = true) {d : LockDir} (hd : s.dir = some d) : d.maker = none := by
  rw [stale, hd, Option.all_some] at hstale
  cases hmaker : d.maker with
  | none => rfl
  | some q =>
    obtain ⟨hown, hpid, hyoung⟩ := h.maker d hd q hmaker
    have halive : s.alive q = true := by
      rw [alive, decide_eq_true_eq]
      intro hdead
      rw [hdead] at hown
      cases hown
    have hold : ¬s.now - d.mtime ≥ lockStaleAge := by
      have hage : 0 < lockStaleAge := by decide
      omega
    cases hp : d.pid with
    | none => simp [hp, hmaker, hold] at hstale
    | some owner =>
      obtain rfl := hpid owner hp
      simp [hp, halive, hold] at hstale

theorem inv_advance (h : s.Inv) (hcareful : s.careful (.advance p) = true) (hstep : s.advance p = some s') : s'.Inv := by
  unfold advance at hstep
  split at hstep
  · cases hstep
  · cases hstep
  · rename_i hpc
    split at hstep
    · rename_i hdir
      cases hstep
      exact inv_make h hdir
    · cases hstep
      exact inv_goto h (by rw [hpc]; rfl)
  · rename_i hpc
    cases hstep
    split <;> exact inv_goto h (by rw [hpc]; rfl)
  · rename_i hpc
    cases hstep
    exact inv_goto h (by rw [hpc]; rfl)
  · rename_i hpc
    cases hstep
    split <;> exact inv_goto h (by rw [hpc]; rfl)
  · rename_i hpc
    split at hstep
    · cases hstep
      exact inv_again h _ (by rw [hpc]; rfl)
    · cases hstep
      exact inv_goto h (by rw [hpc]; rfl)
  · rename_i hpc
    cases hstep
    split
    · exact inv_goto h (by rw [hpc]; rfl)
    · exact inv_again h _ (by rw [hpc]; rfl)
  · rename_i hpc
    simp only [careful, hpc] at hcareful
    split at hstep
    · cases hstep
      exact inv_goto h (by rw [hpc]; rfl)
    · cases hstep
      refine inv_clear h rfl fun d hd q hq => ?_
      rw [maker_of_stale h hcareful hd] at hq
      cases hq
  · rename_i hpc
    cases hstep
    exact inv_goto h (by rw [hpc]; rfl)
  · rename_i hpc
    cases hstep
    exact inv_note h hpc
  · rename_i hpc
    cases hstep
    refine inv_clear h rfl fun d hd q hq => ?_
    obtain ⟨e, he, hmaker⟩ := h.owner p (by rw [hpc]; rfl)
    rw [he, Option.some.injEq] at hd
    subst hd
    exact Option.some.inj (hq.symm.trans hmaker)

theorem inv_fail (h : s.Inv) (hstep : s.fail p = some s') : s'.Inv := by
  unfold fail at hstep
  split at hstep
  · rename_i hpc
    cases hstep
    exact inv_goto h (by rw [hpc]; rfl)
  · rename_i hpc
    cases hstep
    exact inv_goto h (by rw [hpc]; rfl)
  · rename_i hpc
    cases hstep
    exact inv_goto h (by rw [hpc]; rfl)
  · cases hstep

theorem inv_kill (h : s.Inv) (p : Pid) : (s.kill p).Inv := by
  refine ⟨fun q hq => ?_, fun d hd q hq => ?_, h.spared⟩
  · rw [kill, pc_goto] at hq
    split at hq
    · cases hq
    · rename_i hne
      obtain ⟨d, hd, hmaker⟩ := h.owner q hq
      refine ⟨d.bereave p, by rw [kill, goto, hd]; rfl, ?_⟩
      rw [LockDir.bereave, hmaker, Option.filter_some, if_pos (decide_eq_true hne)]
  · obtain ⟨e, he, rfl⟩ := Option.map_eq_some_iff.mp hd
    obtain ⟨hmaker, hne⟩ := Option.filter_eq_some_iff.mp hq
    obtain ⟨hown, hpid, hyoung⟩ := h.maker e he q hmaker
    refine ⟨?_, hpid, hyoung⟩
    rw [kill, pc_goto, if_neg (of_decide_eq_true hne)]
    exact hown

theorem inv_step {e : LockEvent} (h : s.Inv) (hok : (s.prompt e && s.careful e) = true) (hstep : s.step e = some s') :
    s'.Inv := by
  obtain ⟨hprompt, hcareful⟩ := (Bool.and_eq_true ..).mp hok
  cases e with
  | launch p =>
    rw [step, Option.ite_none_right_eq_some, Option.some.injEq] at hstep
    obtain ⟨hpc, rfl⟩ := hstep
    exact inv_goto h (by rw [hpc]; rfl)
  | lock p =>
    rw [step, Option.ite_none_right_eq_some, Option.some.injEq] at hstep
    obtain ⟨hpc, rfl⟩ := hstep
    exact inv_goto h (by rw [hpc]; rfl)
  | advance p => exact inv_advance h hcareful hstep
  | fail p => exact inv_fail h hstep
  | kill p =>
    cases hstep
    exact inv_kill h p
  | tick seconds =>
    cases hstep
    refine ⟨h.owner, fun d hd q hq => ?_, h.spared⟩
    obtain ⟨hown, hpid, -⟩ := h.maker d hd q hq
    refine ⟨hown, hpid, ?_⟩
    change s.dir = some d at hd
    rw [prompt, hd] at hprompt
    simpa [hq] using hprompt

theorem inv_start (now : Nat) (left : Option (Nat × Option Pid)) : (start now left).Inv := by
  refine ⟨fun _ => (nomatch ·), fun d hd p hp => ?_, fun _ => (nomatch ·)⟩
  obtain ⟨⟨mtime, pid⟩, -, rfl⟩ := Option.map_eq_some_iff.mp hd
  cases hp

end LockState

/-- **The lock is exclusive**, and nobody alive loses it, in runs where whoever moves a directory aside
finds it one to steal at that moment. -/
theorem exclusive_of_careful {now : Nat} {left : Option (Nat × Option Pid)} {s : LockState}
    (h : Reach LockState.step (fun s e => (s.prompt e && s.careful e) = true) (LockState.start now left) s) :
    Exclusive s := by
  have hinv : s.Inv :=
    Reach.invariant (LockState.inv_start now left) (fun _ _ _ hs hok hstep => LockState.inv_step hs hok hstep) h
  refine ⟨fun p q hp hq => ?_, hinv.spared⟩
  obtain ⟨d, hd, hmaker⟩ := hinv.owner p (by rw [hp]; rfl)
  obtain ⟨e, he, hother⟩ := hinv.owner q (by rw [hq]; rfl)
  rw [hd, Option.some.injEq] at he
  subst he
  exact Option.some.inj (hmaker.symm.trans hother)

/-- A dead owner's lock is stolen, taken, and given back. -/
theorem exclusive_after_steal :
    ∃ s, Reach LockState.step (fun s e => (s.prompt e && s.careful e) = true) (LockState.start 100 (some (95, some 9))) s ∧
      s.pc 1 = .held ∧ s.removed = [false] ∧ Exclusive s := by
  have hrun : ∃ s, Reach LockState.step (fun s e => (s.prompt e && s.careful e) = true)
      (LockState.start 100 (some (95, some 9))) s ∧ (s.pc 1 = .held ∧ s.removed = [false]) :=
    exists_reach [.launch 1, .lock 1, .advance 1, .advance 1, .advance 1, .advance 1, .advance 1, .advance 1,
      .advance 1, .advance 1] (by decide)
  obtain ⟨s, hs, hheld, hremoved⟩ := hrun
  exact ⟨s, hs, hheld, hremoved, exclusive_of_careful hs⟩

/-- Two processes find a dead owner. One steals the lock and takes it; the other one moves the new
directory aside and takes the lock as well. -/
theorem steal_hits_new_owner :
    ∃ s, Reach LockState.step (fun s e => s.prompt e = true) (LockState.start 100 (some (95, some 9))) s ∧
      s.pc 1 = .held ∧ s.pc 2 = .held ∧ true ∈ s.removed ∧ ¬Exclusive s := by
  have hrun : ∃ s, Reach LockState.step (fun s e => s.prompt e = true) (LockState.start 100 (some (95, some 9))) s ∧
      (s.pc 1 = .held ∧ s.pc 2 = .held ∧ true ∈ s.removed) :=
    exists_reach [.launch 1, .launch 2, .lock 1, .lock 2, .advance 1, .advance 1, .advance 1, .advance 1, .advance 2,
      .advance 2, .advance 2, .advance 2, .advance 1, .advance 1, .advance 1, .advance 1, .advance 2, .advance 2,
      .advance 2, .advance 2] (by decide)
  obtain ⟨s, hs, hone, htwo, hremoved⟩ := hrun
  exact ⟨s, hs, hone, htwo, hremoved, fun h => absurd (h.exclusive 1 2 hone htwo) (by decide)⟩

end Thingino.Ha
