import Mathlib.Data.List.Nodup
import Thingino.Lib.Shell
import Thingino.Prudynt.Service

/-! `stop_daemon` in `S31prudynt`, and what it sends signals to.

`start-stop-daemon` looks at the executable, `pidof` and `killall` at the name, and the pid file only has a number:
`pid_live` and `kill -9` take whatever process has it by now. Between two steps of the script the processes and the
pid file may change in any way; a look at the processes, and a signal, is one step. -/
namespace Thingino.Prudynt.StopDaemon
open Lib Lib.Shell
open Service (Phase)

/-- A process: its group, whether its executable is `DAEMON`, whether `pidof prudynt` finds it, and whether it is
defunct. What has the executable has its name as well. -/
structure Process where
  pid : Nat
  group : Nat
  prudynt : Bool
  named : Bool
  dead : Bool
  pos : 0 < pid
  named_of_prudynt : prudynt = true → named = true

/-- The processes there are. -/
structure Table where
  procs : List Process
  distinct : (procs.map Process.pid).Nodup

/-- The process that runs the script, and its group; and how `kill` and `start-stop-daemon -p` read a number. -/
structure Shell where
  self : Nat
  group : Nat
  number : List Byte → Option Int
  filed : List Byte → Option Nat
  number_digits : ∀ n : Nat, number (digits n) = some (n : Int)

/-- The places in `stop_daemon`; `pid` is what `read_pid` has found. -/
inductive Place
  | test
  | readTerm
  | term (pid : Option (List Byte))
  | await (phase : Phase) (waited : Nat)
  | nap (phase : Phase) (waited : Nat)
  | escalate
  | readKill
  | killPid (pid : Option (List Byte))
  | killAll
  | drop
  | confirm
  | done
deriving DecidableEq

/-- How `stop_daemon` has returned, and whether a live prudynt was there at its last look at the processes. -/
structure Verdict where
  success : Bool
  live : Bool

/-- The last three fields are for the record: the processes that have got a signal, as they were then, the seconds
waited, and the return. -/
structure State where
  table : Table
  pidFile : Option (List Byte)
  place : Place
  signalled : List Process
  waits : Nat
  verdict : Option Verdict

/-- The script goes on, or the processes and the pid file change. -/
inductive Event
  | advance
  | change (table : Table) (pidFile : Option (List Byte))

/-- `kill` sends to a process, to the own group, to all but the first process and the own one, or to a group. -/
def Shell.hit (sh : Shell) (n : Int) (p : Process) : Bool :=
  if 0 < n then p.pid = n
  else if n = 0 then p.group = sh.group
  else if n = -1 then p.pid ≠ 1 ∧ p.pid ≠ sh.self
  else p.group = -n

/-- The targets of `kill … "$pid"`. -/
def Shell.targets (sh : Shell) (pid : List Byte) (t : Table) : List Process :=
  match sh.number pid with
  | none => []
  | some n => t.procs.filter (sh.hit n)

namespace State

/-- `read_pid`: the first line, if it is ended and not empty. -/
def readPid (s : State) : Option (List Byte) :=
  match s.pidFile with
  | none => none
  | some file => if file.contains 10 ∧ file.head? ≠ some 10 then some (file.takeWhile (· ≠ 10)) else none

/-- `pid_live`; only a process has a `/proc/$_p/stat`. -/
def pidLive (sh : Shell) (s : State) (pid : List Byte) : Bool :=
  (sh.targets pid s.table) ≠ [] && !s.table.procs.any fun p => digits p.pid = pid && p.dead

/-- `prudynt_alive`. -/
def alive (sh : Shell) (s : State) : Bool :=
  s.readPid.any (s.pidLive sh) || s.table.procs.any fun p => p.named && s.pidLive sh (digits p.pid)

/-- There is a prudynt, and it is not defunct. -/
def live (s : State) : Bool := s.table.procs.any fun p => p.prudynt && !p.dead

def goto (s : State) (place : Place) : State := { s with place }

def signal (s : State) (ps : List Process) : State := { s with signalled := s.signalled ++ ps }

/-- `start-stop-daemon -K -x "$DAEMON"`, with `-p "$PIDFILE"` where there is a pid. -/
def startStopDaemon (sh : Shell) (s : State) (pid : Option (List Byte)) : State :=
  let filed := s.pidFile.bind sh.filed
  s.signal (s.table.procs.filter fun p => p.prudynt && !p.dead && (pid.isNone || filed = some p.pid))

/-- `return`, behind a look at the processes. -/
def returned (s : State) (success : Bool) : State :=
  { s with place := .done, verdict := some ⟨success, s.live⟩ }

def advance (sh : Shell) (s : State) : Option State :=
  match s.place with
  | .test => some (if s.alive sh then s.goto .readTerm else { s with pidFile := none }.returned true)
  | .readTerm => some (s.goto (.term s.readPid))
  | .term pid => some ((s.startStopDaemon sh pid).goto (.await .term 0))
  | .await phase waited =>
    some (s.goto (if s.alive sh && waited < phase.grace then .nap phase waited
      else match phase with
        | .term => .escalate
        | .kill => .drop))
  | .nap phase waited => some { s with place := .await phase (waited + 1), waits := s.waits + 1 }
  | .escalate => some (s.goto (if s.alive sh then .readKill else .drop))
  | .readKill => some (s.goto (.killPid s.readPid))
  | .killPid pid => some ((s.signal (pid.elim [] fun pid => sh.targets pid s.table)).goto .killAll)
  | .killAll => some ((s.signal (s.table.procs.filter Process.named)).goto (.await .kill 0))
  | .drop => some ({ s with pidFile := none }.goto .confirm)
  | .confirm => some (s.returned (!s.alive sh))
  | .done => none

def step (sh : Shell) (s : State) : Event → Option State
  | .advance => s.advance sh
  | .change table pidFile => some { s with table, pidFile }

/-- `stop_daemon` begins. -/
def start (table : Table) (pidFile : Option (List Byte)) : State := ⟨table, pidFile, .test, [], 0, none⟩

end State

/-- The waits that may still come. -/
def Place.left : Place → Nat
  | .test | .readTerm | .term _ => Phase.term.grace + Phase.kill.grace
  | .await .term waited => Phase.term.grace - waited + Phase.kill.grace
  | .nap .term waited => Phase.term.grace - (waited + 1) + 1 + Phase.kill.grace
  | .escalate | .readKill | .killPid _ | .killAll => Phase.kill.grace
  | .await .kill waited => Phase.kill.grace - waited
  | .nap .kill waited => Phase.kill.grace - (waited + 1) + 1
  | .drop | .confirm | .done => 0

/-- A bound for the steps that may still come. -/
def Place.rank : Place → Nat
  | .test => 19
  | .readTerm => 18
  | .term _ => 17
  | .await .term waited => 2 * (Phase.term.grace - waited) + 12
  | .nap .term waited => 2 * (Phase.term.grace - (waited + 1)) + 13
  | .escalate => 11
  | .readKill => 10
  | .killPid _ => 9
  | .killAll => 8
  | .await .kill waited => 2 * (Phase.kill.grace - waited) + 3
  | .nap .kill waited => 2 * (Phase.kill.grace - (waited + 1)) + 4
  | .drop => 2
  | .confirm => 1
  | .done => 0

namespace State

/-- `kill -9` and `killall -9` hit prudynts only, and what the last look takes for alive is a prudynt. -/
def careful (sh : Shell) (s : State) : Event → Bool
  | .advance =>
    match s.place with
    | .killPid pid => (pid.elim [] fun pid => sh.targets pid s.table).all Process.prudynt
    | .killAll => (s.table.procs.filter Process.named).all Process.prudynt
    | .confirm => !s.alive sh || s.live
    | _ => true
  | .change _ _ => true

/-- **The property.** Signals go to prudynts, `stop_daemon` succeeds exactly when there is no live one at its last look,
and it waits four seconds at most. -/
structure Sound (s : State) : Prop where
  own : ∀ p ∈ s.signalled, p.prudynt = true
  truthful : ∀ v, s.verdict = some v → v.success = !v.live
  bounded : s.waits ≤ Phase.term.grace + Phase.kill.grace

/-- The waits so far and those that may still come. -/
structure Inv (s : State) : Prop where
  own : ∀ p ∈ s.signalled, p.prudynt = true
  truthful : ∀ v, s.verdict = some v → v.success = !v.live
  budget : s.waits + s.place.left ≤ Phase.term.grace + Phase.kill.grace

variable {sh : Shell} {s s' : State} {place : Place} {e : Event}

theorem sound_of_inv (h : s.Inv) : s.Sound := ⟨h.own, h.truthful, le_trans (Nat.le_add_right _ _) h.budget⟩

/-! ### Looks at the processes -/

/-- A process that is found by its own number is live or defunct. -/
theorem pidLive_digits {p : Process} (hp : p ∈ s.table.procs) : s.pidLive sh (digits p.pid) = !p.dead := by
  have htargets : sh.targets (digits p.pid) s.table ≠ [] := by
    refine List.ne_nil_of_mem (a := p) ?_
    rw [Shell.targets, sh.number_digits]
    refine List.mem_filter.mpr ⟨hp, ?_⟩
    rw [Shell.hit, if_pos (Int.natCast_pos.mpr p.pos)]
    exact decide_eq_true rfl
  have hdead : (s.table.procs.any fun q => digits q.pid = digits p.pid && q.dead) = p.dead := by
    cases hp' : p.dead with
    | true => exact List.any_eq_true.mpr ⟨p, hp, by rw [hp', decide_eq_true rfl]; rfl⟩
    | false =>
      refine List.any_eq_false.mpr fun q hq hboth => ?_
      rw [Bool.and_eq_true, decide_eq_true_eq] at hboth
      have heq := List.inj_on_of_nodup_map s.table.distinct hq hp (digits_injective hboth.1)
      rw [heq, hp'] at hboth
      exact absurd hboth.2 Bool.false_ne_true
  rw [pidLive, hdead, decide_eq_true htargets, Bool.true_and]

/-- A live prudynt is seen. -/
theorem alive_of_live (h : s.live = true) : s.alive sh = true := by
  obtain ⟨p, hp, hlive⟩ := List.any_eq_true.mp h
  rw [Bool.and_eq_true] at hlive
  rw [alive, Bool.or_eq_true]
  refine .inr (List.any_eq_true.mpr ⟨p, hp, ?_⟩)
  rw [p.named_of_prudynt hlive.1, pidLive_digits hp, hlive.2]
  rfl

theorem live_eq_false (h : s.alive sh = false) : s.live = false := by
  cases hlive : s.live with
  | false => rfl
  | true => exact absurd ((alive_of_live hlive).symm.trans h) (by decide)

/-! ### Steps -/

theorem inv_goto (h : s.Inv) (hleft : place.left ≤ s.place.left) : (s.goto place).Inv :=
  ⟨h.own, h.truthful, le_trans (Nat.add_le_add_left hleft s.waits) h.budget⟩

theorem inv_signal (h : s.Inv) {ps : List Process} (hps : ∀ p ∈ ps, p.prudynt = true) : (s.signal ps).Inv :=
  ⟨fun p hp => (List.mem_append.mp hp).elim (h.own p) (hps p), h.truthful, h.budget⟩

theorem inv_unfile (h : s.Inv) : ({ s with pidFile := none } : State).Inv := ⟨h.own, h.truthful, h.budget⟩

theorem inv_returned (h : s.Inv) {success : Bool} (hexact : success = !s.live) : (s.returned success).Inv := by
  refine ⟨h.own, fun v hv => ?_, le_trans (Nat.le_add_right s.waits _) h.budget⟩
  obtain rfl := Option.some.inj hv
  exact hexact

/-- A look at the processes again, and a second more or the next place. -/
theorem left_await (phase : Phase) (waited : Nat) (alive : Bool) :
    (if alive && waited < phase.grace then Place.nap phase waited
      else match phase with
        | .term => .escalate
        | .kill => .drop).left ≤ (Place.await phase waited).left := by
  split
  · rename_i hmore
    rw [Bool.and_eq_true, decide_eq_true_eq] at hmore
    cases phase <;> simp only [Place.left] <;> omega
  · cases phase <;> simp only [Place.left] <;> omega

theorem inv_advance (h : s.Inv) (hcareful : s.careful sh .advance = true) (hstep : s.advance sh = some s') :
    s'.Inv := by
  unfold advance at hstep
  rw [careful] at hcareful
  have hstay {place place' : Place} (hplace : s.place = place') (hleft : place.left ≤ place'.left) :
      (s.goto place).Inv :=
    inv_goto h (hplace ▸ hleft)
  cases hplace : s.place with
  | test =>
    rw [hplace] at hstep
    cases hstep
    cases halive : s.alive sh with
    | true => exact hstay hplace le_rfl
    | false => exact inv_returned (inv_unfile h) (congrArg not (live_eq_false halive)).symm
  | readTerm =>
    rw [hplace] at hstep
    cases hstep
    exact hstay hplace le_rfl
  | term pid =>
    rw [hplace] at hstep
    cases hstep
    refine inv_goto (inv_signal h fun p hp => ?_) (hplace ▸ le_rfl)
    have hmatch := (List.mem_filter.mp hp).2
    rw [Bool.and_eq_true, Bool.and_eq_true] at hmatch
    exact hmatch.1.1
  | await phase waited =>
    rw [hplace] at hstep
    cases hstep
    exact hstay hplace (left_await phase waited (s.alive sh))
  | nap phase waited =>
    rw [hplace] at hstep
    cases hstep
    refine ⟨h.own, h.truthful, ?_⟩
    have hbudget := h.budget
    rw [hplace] at hbudget
    cases phase <;> simp only [Place.left] at hbudget ⊢ <;> omega
  | escalate =>
    rw [hplace] at hstep
    cases hstep
    refine hstay hplace ?_
    split
    · exact le_rfl
    · exact Nat.zero_le _
  | readKill =>
    rw [hplace] at hstep
    cases hstep
    exact hstay hplace le_rfl
  | killPid pid =>
    rw [hplace] at hstep hcareful
    cases hstep
    exact inv_goto (inv_signal h (List.all_eq_true.mp hcareful)) (hplace ▸ le_rfl)
  | killAll =>
    rw [hplace] at hstep hcareful
    cases hstep
    exact inv_goto (inv_signal h (List.all_eq_true.mp hcareful)) (hplace ▸ le_rfl)
  | drop =>
    rw [hplace] at hstep
    cases hstep
    have hconfirm : (s.goto .confirm).Inv := inv_goto h (Nat.zero_le _)
    exact inv_unfile hconfirm
  | confirm =>
    rw [hplace] at hstep hcareful
    cases hstep
    refine inv_returned h (congrArg not ?_)
    cases halive : s.alive sh with
    | true =>
      rw [halive, Bool.not_true, Bool.false_or] at hcareful
      exact hcareful.symm
    | false => exact (live_eq_false halive).symm
  | done =>
    rw [hplace] at hstep
    exact absurd hstep.symm (Option.some_ne_none _)

theorem inv_step (h : s.Inv) (hcareful : s.careful sh e = true) (hstep : s.step sh e = some s') : s'.Inv := by
  cases e with
  | advance => exact inv_advance h hcareful hstep
  | change table pidFile =>
    cases hstep
    exact ⟨h.own, h.truthful, h.budget⟩

theorem inv_start (table : Table) (pidFile : Option (List Byte)) : (start table pidFile).Inv :=
  ⟨fun _ hp => absurd hp List.not_mem_nil, fun _ hv => absurd hv (Option.some_ne_none _).symm, le_rfl⟩

/-- Until it has returned the script goes on, and comes nearer to the end. -/
theorem advance_rank (sh : Shell) (h : s.place ≠ .done) :
    ∃ s', s.step sh .advance = some s' ∧ s'.place.rank < s.place.rank := by
  rw [step, advance]
  cases hplace : s.place with
  | test =>
    refine ⟨_, rfl, ?_⟩
    cases s.alive sh <;> exact Nat.le_of_ble_eq_true rfl
  | readTerm | term pid | readKill | killPid pid | killAll | drop | confirm =>
    exact ⟨_, rfl, Nat.le_of_ble_eq_true rfl⟩
  | await phase waited =>
    refine ⟨_, rfl, ?_⟩
    dsimp only [goto]
    split
    · rename_i hmore
      rw [Bool.and_eq_true, decide_eq_true_eq] at hmore
      cases phase <;> simp only [Place.rank] <;> omega
    · cases phase <;> simp only [Place.rank] <;> omega
  | nap phase waited =>
    refine ⟨_, rfl, ?_⟩
    cases phase <;> simp only [Place.rank] <;> omega
  | escalate =>
    refine ⟨_, rfl, ?_⟩
    cases s.alive sh <;> exact Nat.le_of_ble_eq_true rfl
  | done => exact absurd hplace h

/-- **Where each `kill -9` hits prudynts and the last look sees no other program, `stop_daemon` is sound at every step,
and it ends.** -/
theorem sound_of_careful {sh : Shell} {table : Table} {pidFile : Option (List Byte)} {s : State}
    (h : Reach (State.step sh) (fun s e => s.careful sh e = true) (start table pidFile) s) :
    s.Sound ∧ (s.place ≠ .done → ∃ s', s.step sh .advance = some s' ∧ s'.place.rank < s.place.rank) :=
  ⟨sound_of_inv (h.invariant (inv_start table pidFile) fun _ _ _ => inv_step), advance_rank sh⟩

/-- A script in the process 100, where a pid is read as the number that it is written as. -/
def initShell : Shell where
  self := 100
  group := 100
  number pid := if pid ≠ [] ∧ pid.all isDigit = true then some (decimal pid : Int) else none
  filed file := if (file.takeWhile isDigit) ≠ [] then some (decimal (file.takeWhile isDigit)) else none
  number_digits n := by
    rw [if_pos ⟨digits_ne_nil n, all_isDigit_digits n⟩, decimal_digits]

def streamer : Process := ⟨7, 7, true, true, false, by decide, fun _ => rfl⟩

def exitEvents : List Event :=
  [.advance, .advance, .advance, .change ⟨[], by decide⟩ (some (ascii "7\n")), .advance, .advance, .advance, .advance]

/-- A prudynt that exits on the first signal. -/
theorem sound_after_exit : ∃ s, Reach (State.step initShell) (fun s e => s.careful initShell e = true)
    (start ⟨[streamer], by decide⟩ (some (ascii "7\n"))) s ∧
      (s.signalled.map Process.pid = [7] ∧ s.verdict.any Verdict.success = true) ∧ s.Sound := by
  obtain ⟨s, hreach, hend⟩ : ∃ s, Reach (State.step initShell) (fun s e => s.careful initShell e = true)
      (start ⟨[streamer], by decide⟩ (some (ascii "7\n"))) s ∧
        (s.signalled.map Process.pid = [7] ∧ s.verdict.any Verdict.success = true) := by
    refine exists_reach exitEvents ?_
    decide +kernel
  exact ⟨s, hreach, hend, (sound_of_careful hreach).1⟩

/-- A step that is not careful makes a sound run unsound. -/
theorem not_sound_of_careless (hcareless : s.careful sh e = false) (hstep : s.step sh e = some s') : ¬s'.Sound := by
  intro hsound
  cases e with
  | change table pidFile => exact absurd hcareless.symm Bool.false_ne_true
  | advance =>
    rw [step, advance] at hstep
    rw [careful] at hcareless
    split at hcareless
    · rename_i pid hplace
      rw [hplace] at hstep
      cases hstep
      obtain ⟨p, hp, hother⟩ := List.all_eq_false.mp hcareless
      exact hother (hsound.own p (List.mem_append_right s.signalled hp))
    · rename_i hplace
      rw [hplace] at hstep
      cases hstep
      obtain ⟨p, hp, hother⟩ := List.all_eq_false.mp hcareless
      exact hother (hsound.own p (List.mem_append_right s.signalled hp))
    · rename_i hplace
      rw [hplace] at hstep
      cases hstep
      rw [Bool.or_eq_false_iff, Bool.not_eq_false'] at hcareless
      have htruthful := hsound.truthful ⟨!s.alive sh, s.live⟩ rfl
      rw [hcareless.1, hcareless.2] at htruthful
      exact absurd htruthful Bool.false_ne_true
    · exact absurd hcareless.symm Bool.false_ne_true

/-- The pid of a prudynt that has crashed belongs to another program. -/
def stranger : Process := ⟨42, 42, false, false, false, by decide, fun h => absurd h Bool.false_ne_true⟩

/-- The other program is killed. -/
theorem stranger_killed : ∃ s, Reach (State.step initShell) (fun _ _ => True)
    (start ⟨[stranger], by decide⟩ (some (ascii "42\n"))) s ∧ ¬s.Sound := by
  obtain ⟨s, hreach, hother⟩ : ∃ s, Reach (State.step initShell) (fun _ _ => True)
      (start ⟨[stranger], by decide⟩ (some (ascii "42\n"))) s ∧ (s.signalled.any fun p => !p.prudynt) = true := by
    refine exists_reach (List.replicate 11 .advance) ?_
    decide +kernel
  refine ⟨s, hreach, fun hsound => ?_⟩
  obtain ⟨p, hp, hstranger⟩ := List.any_eq_true.mp hother
  rw [hsound.own p hp] at hstranger
  exact absurd hstranger Bool.false_ne_true

end State

end Thingino.Prudynt.StopDaemon
