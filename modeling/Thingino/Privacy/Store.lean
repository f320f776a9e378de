import Mathlib.Logic.Function.Basic
import Thingino.Lib.Transition
import Thingino.Privacy.Sidecar

/-! The sidecar as a store: any number of `daynight-state set` and `migrate` at once, without a lock.

A writer fills a temporary file of its own, named by its process id, and renames it into place; `sync`
comes behind that. `set` writes unless it finds its mode there already. `migrate` first removes the
temporary files of processes that are gone and then, if it finds no mode in the sidecar, writes forced
day. Each looks at the sidecar, or at the list of processes, some time before it acts. A process may be
killed and the power may fail between any two steps. The file system is a log: a power cut may take
back what was renamed since the last `sync`, the newest first, and leaves no file half written. -/
namespace Thingino.Privacy
open Lib

namespace Store

/-- Who writes: `set`, or `migrate` with forced day. -/
inductive Writer
  | set (mode : Mode)
  | seed
deriving DecidableEq

def Writer.mode : Writer → Mode
  | .set mode => mode
  | .seed => .day

/-- What a process does next: `set_mode` compares; `_write` creates its file, fills it, renames it and
syncs, or cleans up; `migrate` goes through the files of the glob, removes one, and then checks the
sidecar. -/
inductive Pc
  | compare (mode : Mode)
  | create (writer : Writer)
  | fill (writer : Writer)
  | rename (writer : Writer)
  | sync (writer : Writer)
  | cleanup
  | sweep (orphans : List Nat)
  | remove (orphan : Nat) (orphans : List Nat)
  | check
deriving DecidableEq

/-- `durable` are the sidecars since the last `sync`, which a power cut may bring back. The last fields
are for the record: the modes asked for, whether a `migrate` was started, the last `set` that renamed (by
process and mode), the mode of the last `set` that returned 0, if no other has renamed since, and for each
file that a `migrate` removed, whether it was a live writer's. -/
structure State where
  file : Option (List Byte)
  durable : List (Option (List Byte))
  temps : Nat → Option (List Byte)
  live : List Nat
  pc : Nat → Pc
  requested : List Mode
  migrating : Bool
  latest : Option (Nat × Mode)
  acked : Option Mode
  removed : List Bool

/-- `fail` ends the step of a writer without success, a filled file cut off after `bytes`; `skip` is a
file of the glob that is gone or whose process id is in use by any program. -/
inductive Event
  | set (pid : Nat) (mode : Mode)
  | migrate (pid : Nat) (orphans : List Nat)
  | advance (pid : Nat)
  | fail (pid : Nat) (bytes : Nat)
  | skip (pid : Nat)
  | kill (pid : Nat)
  | cut (lost : Nat)

namespace State

/-- A process goes on. -/
def goto (s : State) (pid : Nat) (pc : Pc) : State := { s with pc := Function.update s.pc pid pc }

/-- A process ends. -/
def exit (s : State) (pid : Nat) : State := { s with live := s.live.filter (· ≠ pid) }

def setTemp (s : State) (pid : Nat) (temp : Option (List Byte)) : State :=
  { s with temps := Function.update s.temps pid temp }

/-- `mv -f "$tmp" "$STATE"`. -/
def rename (s : State) (pid : Nat) (writer : Writer) : State :=
  match s.temps pid with
  | none => s.goto pid .cleanup
  | some text =>
    let s := ({ s with file := some text, durable := some text :: s.durable }.setTemp pid none).goto pid (.sync writer)
    match writer with
    | .set mode => { s with latest := some (pid, mode), acked := none }
    | .seed => s

/-- `sync`, and success. -/
def sync (s : State) (pid : Nat) (writer : Writer) : State :=
  let s := { s with durable := [s.file] }.exit pid
  match writer with
  | .set mode => { s with acked := if s.latest = some (pid, mode) then some mode else s.acked }
  | .seed => s

/-- `printf` writes through the descriptor that `>` opened: a file that was removed meanwhile stays
removed. -/
def fill (s : State) (pid : Nat) (text : List Byte) : State := s.setTemp pid ((s.temps pid).map fun _ => text)

/-- A process that has its temporary file in use. -/
def writes : Pc → Bool
  | .fill _ | .rename _ | .cleanup => true
  | _ => false

/-- The next step of a process. -/
def advance (s : State) (pid : Nat) : State :=
  match s.pc pid with
  | .compare mode => if Sidecar.parse s.file = some mode then s.exit pid else s.goto pid (.create (.set mode))
  | .create writer => (s.setTemp pid (some [])).goto pid (.fill writer)
  | .fill writer => (s.fill pid (Sidecar.text writer.mode)).goto pid (.rename writer)
  | .rename writer => s.rename pid writer
  | .sync writer => s.sync pid writer
  | .cleanup => (s.setTemp pid none).exit pid
  | .sweep [] => s.goto pid .check
  | .sweep (orphan :: orphans) =>
    if s.live.contains orphan then s.goto pid (.sweep orphans) else s.goto pid (.remove orphan orphans)
  | .remove orphan orphans =>
    { (s.setTemp orphan none).goto pid (.sweep orphans) with
      removed := (s.live.contains orphan && writes (s.pc orphan)) :: s.removed }
  | .check => if (Sidecar.parse s.file).isSome then s.exit pid else s.goto pid (.create .seed)

/-- A step that fails. -/
def fail (s : State) (pid bytes : Nat) : Option State :=
  match s.pc pid with
  | .create _ | .rename _ => some (s.goto pid .cleanup)
  | .fill writer => some ((s.fill pid ((Sidecar.text writer.mode).take bytes)).goto pid .cleanup)
  | _ => none

def skip (s : State) (pid : Nat) : Option State :=
  match s.pc pid with
  | .sweep (_ :: orphans) => some (s.goto pid (.sweep orphans))
  | _ => none

/-- A new process, under an id that is free. -/
def launch (s : State) (pid : Nat) (pc : Pc) : Option State :=
  if s.live.contains pid then none else some { s.goto pid pc with live := pid :: s.live }

def step (s : State) : Event → Option State
  | .set pid mode => { s with requested := mode :: s.requested }.launch pid (.compare mode)
  | .migrate pid orphans => { s with migrating := true }.launch pid (.sweep orphans)
  | .advance pid => if s.live.contains pid then some (s.advance pid) else none
  | .fail pid bytes => if s.live.contains pid then s.fail pid bytes else none
  | .skip pid => if s.live.contains pid then s.skip pid else none
  | .kill pid => some (s.exit pid)
  | .cut lost =>
    s.durable[lost]?.map fun file => { s with file, durable := [file], live := [], latest := none }

/-- No process runs; the files are as they are. -/
def start (file : Option (List Byte)) (temps : Nat → Option (List Byte)) : State :=
  ⟨file, [file], temps, [], fun _ => .check, [], false, none, none, []⟩

end State

/-- The sidecar is as it was, or holds a mode that someone asked for. -/
def Genuine (initial : Option (List Byte)) (s : State) (file : Option (List Byte)) : Prop :=
  file = initial ∨ (∃ mode ∈ s.requested, file = some (Sidecar.text mode)) ∨
    (s.migrating = true ∧ file = some (Sidecar.text .day))

/-- **The property.** The sidecar is genuine, a `set` that returned 0 stands, and no `migrate` has
removed the file of a live writer. -/
structure Kept (initial : Option (List Byte)) (s : State) : Prop where
  genuine : Genuine initial s s.file
  stands : ∀ mode, s.acked = some mode → Sidecar.get s.file = mode
  spared : ∀ inUse ∈ s.removed, inUse = false

namespace State

def removes (pc : Pc) (pid : Nat) : Bool :=
  match pc with
  | .remove orphan _ => orphan = pid
  | _ => false

/-- No `migrate` is about to remove the temporary file of this name. -/
def unclaimed (s : State) (pid : Nat) : Bool := s.live.all fun other => !removes (s.pc other) pid

/-- The sidecar that a `migrate` replaces still reads as day, and nobody creates a temporary file that a
`migrate` is about to remove. -/
def orderly (s : State) : Event → Bool
  | .advance pid =>
    match s.pc pid with
    | .rename .seed => Sidecar.get s.file = .day
    | .create _ => s.unclaimed pid
    | _ => true
  | .fail pid _ =>
    match s.pc pid with
    | .create _ => s.unclaimed pid
    | _ => true
  | _ => true

/-! ### Every run -/

/-- Somebody asked for what is written. -/
def Asked (s : State) : Writer → Prop
  | .set mode => mode ∈ s.requested
  | .seed => s.migrating = true

/-- What holds of a process, by what it does next: a file about to be renamed is complete. -/
def ProcOk (s : State) (temp : Option (List Byte)) : Pc → Prop
  | .compare mode => mode ∈ s.requested
  | .create writer | .fill writer | .sync writer => s.Asked writer
  | .rename writer => s.Asked writer ∧ ∀ text, temp = some text → text = Sidecar.text writer.mode
  | .cleanup => True
  | .sweep _ | .remove _ _ | .check => s.migrating = true

def Procs (s : State) : Prop := ∀ pid ∈ s.live, s.ProcOk (s.temps pid) (s.pc pid)

structure Inv (initial : Option (List Byte)) (s : State) : Prop where
  file : Genuine initial s s.file
  durable : ∀ file ∈ s.durable, Genuine initial s file
  procs : s.Procs

variable {initial : Option (List Byte)} {s s' : State} {pid : Nat} {pc : Pc}

theorem genuine_text {writer : Writer} (h : s.Asked writer) : Genuine initial s (some (Sidecar.text writer.mode)) := by
  cases writer with
  | set mode => exact .inr (.inl ⟨mode, h, rfl⟩)
  | seed => exact .inr (.inr ⟨h, rfl⟩)

theorem ProcOk.unlinked {temp : Option (List Byte)} (h : s.ProcOk temp pc) : s.ProcOk none pc := by
  cases pc with
  | rename => exact ⟨h.1, fun _ => (nomatch ·)⟩
  | compare | create | fill | sync | cleanup | sweep | remove | check => exact h

/-- Only the process that moves needs a look. -/
theorem procOk_move {temp : Option (List Byte)} {other : Nat}
    (h : other ≠ pid → s.ProcOk (s.temps other) (s.pc other)) (hok : s.ProcOk temp pc) :
    s.ProcOk (Function.update s.temps pid temp other) (Function.update s.pc pid pc other) := by
  by_cases hpid : other = pid
  · rwa [hpid, Function.update_self, Function.update_self]
  · rw [Function.update_of_ne hpid, Function.update_of_ne hpid]
    exact h hpid

theorem procs_move {temp : Option (List Byte)} (h : s.Procs) (hok : s.ProcOk temp pc) :
    ((s.setTemp pid temp).goto pid pc).Procs := fun other hother => procOk_move (fun _ => h other hother) hok

theorem procs_goto (h : s.Procs) (hok : s.ProcOk (s.temps pid) pc) : (s.goto pid pc).Procs := by
  have hmove : ((s.setTemp pid (s.temps pid)).goto pid pc).Procs := procs_move h hok
  rwa [setTemp, Function.update_eq_self] at hmove

theorem procs_unlink (h : s.Procs) (orphan : Nat) : (s.setTemp orphan none).Procs := by
  intro other hother
  by_cases hpid : other = orphan
  · subst hpid
    have htemp : (s.setTemp other none).temps other = none := Function.update_self ..
    rw [htemp]
    exact (h other hother).unlinked
  · have htemp : (s.setTemp orphan none).temps other = s.temps other := Function.update_of_ne hpid ..
    rw [htemp]
    exact h other hother

theorem procs_exit (h : s.Procs) (pid : Nat) : (s.exit pid).Procs := fun other hother =>
  h other (List.mem_filter.mp hother).1

theorem inv_rename {writer : Writer} (h : s.Inv initial) (hok : s.ProcOk (s.temps pid) (.rename writer)) :
    (s.rename pid writer).Inv initial := by
  unfold rename
  split
  · exact ⟨h.file, h.durable, procs_goto h.procs trivial⟩
  · rename_i text htemp
    have htext := hok.2 text htemp
    subst htext
    have hfile : Genuine initial s (some (Sidecar.text writer.mode)) := genuine_text hok.1
    have hdurable := List.forall_mem_cons.mpr ⟨hfile, h.durable⟩
    have hprocs : ((s.setTemp pid none).goto pid (.sync writer)).Procs := procs_move h.procs hok.1
    cases writer <;> exact ⟨hfile, hdurable, hprocs⟩

theorem inv_sync (h : s.Inv initial) (writer : Writer) : (s.sync pid writer).Inv initial := by
  have hdurable := List.forall_mem_singleton.mpr h.file
  have hprocs := procs_exit h.procs pid
  cases writer <;> exact ⟨h.file, hdurable, hprocs⟩

/-- What was filled is complete. -/
theorem filled_text {temp : Option (List Byte)} {text text' : List Byte}
    (h : (temp.map fun _ => text) = some text') : text' = text := by
  obtain ⟨_, _, htext⟩ := Option.map_eq_some_iff.mp h
  exact htext.symm

theorem inv_advance (h : s.Inv initial) (hlive : pid ∈ s.live) : (s.advance pid).Inv initial := by
  have hok := h.procs pid hlive
  unfold advance
  split
  · rename_i mode hpc
    rw [hpc] at hok
    split
    · exact ⟨h.file, h.durable, procs_exit h.procs pid⟩
    · exact ⟨h.file, h.durable, procs_goto h.procs hok⟩
  · rename_i writer hpc
    rw [hpc] at hok
    exact ⟨h.file, h.durable, procs_move h.procs hok⟩
  · rename_i writer hpc
    rw [hpc] at hok
    exact ⟨h.file, h.durable, procs_move h.procs ⟨hok, fun _ => filled_text⟩⟩
  · rename_i writer hpc
    rw [hpc] at hok
    exact inv_rename h hok
  · exact inv_sync h _
  · exact ⟨h.file, h.durable, procs_exit (procs_unlink h.procs pid) pid⟩
  · rename_i hpc
    rw [hpc] at hok
    exact ⟨h.file, h.durable, procs_goto h.procs hok⟩
  · rename_i hpc
    rw [hpc] at hok
    split <;> exact ⟨h.file, h.durable, procs_goto h.procs hok⟩
  · rename_i orphan orphans hpc
    rw [hpc] at hok
    exact ⟨h.file, h.durable, procs_goto (procs_unlink h.procs orphan) hok⟩
  · rename_i hpc
    rw [hpc] at hok
    split
    · exact ⟨h.file, h.durable, procs_exit h.procs pid⟩
    · exact ⟨h.file, h.durable, procs_goto h.procs hok⟩

/-- A writer that fails cleans up; it was about to create its file, or had it in use. -/
theorem fail_cases {bytes : Nat} (hstep : s.fail pid bytes = some s') :
    (∃ temp, s' = (s.setTemp pid temp).goto pid .cleanup) ∧
      (writes (s.pc pid) = true ∨ ∃ writer, s.pc pid = .create writer) := by
  have hsame : s.setTemp pid (s.temps pid) = s := by rw [setTemp, Function.update_eq_self]
  unfold fail at hstep
  split at hstep
  · rename_i writer hpc
    cases hstep
    exact ⟨⟨s.temps pid, by rw [hsame]⟩, .inr ⟨writer, hpc⟩⟩
  · rename_i hpc
    cases hstep
    exact ⟨⟨s.temps pid, by rw [hsame]⟩, .inl (hpc ▸ rfl)⟩
  · rename_i hpc
    cases hstep
    exact ⟨⟨_, rfl⟩, .inl (hpc ▸ rfl)⟩
  · cases hstep

theorem skip_cases (hstep : s.skip pid = some s') :
    ∃ orphan orphans, s.pc pid = .sweep (orphan :: orphans) ∧ s' = s.goto pid (.sweep orphans) := by
  unfold skip at hstep
  split at hstep
  · rename_i orphan orphans hpc
    cases hstep
    exact ⟨orphan, orphans, hpc, rfl⟩
  · cases hstep

theorem inv_fail {bytes : Nat} (h : s.Inv initial) (hstep : s.fail pid bytes = some s') : s'.Inv initial := by
  obtain ⟨⟨temp, rfl⟩, -⟩ := fail_cases hstep
  exact ⟨h.file, h.durable, procs_move h.procs trivial⟩

theorem inv_skip (h : s.Inv initial) (hlive : pid ∈ s.live) (hstep : s.skip pid = some s') : s'.Inv initial := by
  obtain ⟨orphan, orphans, hpc, rfl⟩ := skip_cases hstep
  have hok := h.procs pid hlive
  rw [hpc] at hok
  exact ⟨h.file, h.durable, procs_goto h.procs hok⟩

/-- What was asked for stays asked for. -/
theorem inv_grow {requested : List Mode} {migrating : Bool} (h : s.Inv initial) (hrequested : s.requested ⊆ requested)
    (hmigrating : s.migrating = true → migrating = true) : { s with requested, migrating }.Inv initial := by
  have hgenuine : ∀ file, Genuine initial s file → Genuine initial { s with requested, migrating } file := by
    rintro file (hfile | ⟨mode, hmode, hfile⟩ | ⟨hseed, hfile⟩)
    · exact .inl hfile
    · exact .inr (.inl ⟨mode, hrequested hmode, hfile⟩)
    · exact .inr (.inr ⟨hmigrating hseed, hfile⟩)
  have hasked : ∀ writer, s.Asked writer → { s with requested, migrating }.Asked writer
    | .set _, hmode => hrequested hmode
    | .seed, hseed => hmigrating hseed
  refine ⟨hgenuine _ h.file, fun file hfile => hgenuine file (h.durable file hfile), fun pid hlive => ?_⟩
  have hok : s.ProcOk (s.temps pid) (s.pc pid) := h.procs pid hlive
  show { s with requested, migrating }.ProcOk (s.temps pid) (s.pc pid)
  cases hpc : s.pc pid with
  | compare =>
    rw [hpc] at hok
    exact hrequested hok
  | create writer | fill writer | sync writer =>
    rw [hpc] at hok
    exact hasked writer hok
  | rename writer =>
    rw [hpc] at hok
    exact ⟨hasked writer hok.1, hok.2⟩
  | cleanup => trivial
  | sweep | remove | check =>
    rw [hpc] at hok
    exact hmigrating hok

theorem inv_launch (h : s.Inv initial) (hok : s.ProcOk (s.temps pid) pc) (hstep : s.launch pid pc = some s') :
    s'.Inv initial := by
  rw [launch, Option.ite_none_left_eq_some, Option.some.injEq] at hstep
  obtain ⟨-, rfl⟩ := hstep
  refine ⟨h.file, h.durable, fun other hother => ?_⟩
  have hmove := procOk_move (fun hne => h.procs other (List.mem_of_ne_of_mem hne hother)) hok
  rwa [Function.update_eq_self] at hmove

theorem inv_step {e : Event} (h : s.Inv initial) (hstep : s.step e = some s') : s'.Inv initial := by
  cases e with
  | set pid mode =>
    exact inv_launch (inv_grow h (List.subset_cons_self ..) id) (List.mem_cons_self ..) hstep
  | migrate pid orphans =>
    have hgrow : { s with migrating := true }.Inv initial := inv_grow h (List.Subset.refl _) fun _ => rfl
    have hok : { s with migrating := true }.ProcOk (s.temps pid) (.sweep orphans) := rfl
    exact inv_launch hgrow hok hstep
  | advance pid =>
    rw [step, Option.ite_none_right_eq_some, Option.some.injEq] at hstep
    obtain ⟨hlive, rfl⟩ := hstep
    exact inv_advance h (List.contains_iff_mem.mp hlive)
  | fail pid bytes =>
    rw [step, Option.ite_none_right_eq_some] at hstep
    exact inv_fail h hstep.2
  | skip pid =>
    rw [step, Option.ite_none_right_eq_some] at hstep
    exact inv_skip h (List.contains_iff_mem.mp hstep.1) hstep.2
  | kill pid =>
    rw [← Option.some.inj hstep]
    exact ⟨h.file, h.durable, procs_exit h.procs pid⟩
  | cut lost =>
    obtain ⟨file, hfile, rfl⟩ := Option.map_eq_some_iff.mp hstep
    have hgenuine := h.durable file (List.mem_of_getElem? hfile)
    exact ⟨hgenuine, List.forall_mem_singleton.mpr hgenuine, fun _ => (nomatch ·)⟩

theorem inv_start (initial : Option (List Byte)) (temps : Nat → Option (List Byte)) :
    (start initial temps).Inv initial :=
  ⟨.inl rfl, List.forall_mem_singleton.mpr (.inl rfl), fun _ => (nomatch ·)⟩

/-! ### Orderly runs -/

/-- Nobody is about to remove a file that is in use. -/
def Clear (s : State) : Prop := ∀ pid ∈ s.live, writes (s.pc pid) = true → s.unclaimed pid = true

/-- The last `set` that renamed stands, and once it has returned, no power cut takes it back. -/
structure Tidy (s : State) : Prop where
  latest : ∀ pid mode, s.latest = some (pid, mode) → s.file = some (Sidecar.text mode)
  acked : ∀ mode, s.acked = some mode →
    s.file = some (Sidecar.text mode) ∧ ∀ file ∈ s.durable, file = some (Sidecar.text mode)
  clear : s.Clear
  spared : ∀ inUse ∈ s.removed, inUse = false

theorem unclaimed_iff : s.unclaimed pid = true ↔ ∀ other ∈ s.live, removes (s.pc other) pid = false := by
  simp only [unclaimed, List.all_eq_true, Bool.not_eq_true']

theorem removes_of_writes (h : writes pc = true) : removes pc pid = false := by
  cases pc with
  | fill | rename | cleanup => rfl
  | compare | create | sync | sweep | remove | check => cases h

/-- A process moves on: the file it has in use is not to be removed, and the one it is about to remove
is not in use. -/
theorem clear_goto (h : s.Clear) (hwrites : writes pc = true → s.unclaimed pid = true)
    (hremoves : ∀ other ∈ s.live, removes pc other = true → writes (s.pc other) = false) : (s.goto pid pc).Clear := by
  intro user huser huses
  rw [unclaimed_iff]
  intro other hother
  have hmoved : ∀ q, (s.goto pid pc).pc q = if q = pid then pc else s.pc q := Function.update_apply s.pc pid pc
  rw [hmoved] at huses ⊢
  by_cases huserPid : user = pid <;> by_cases hotherPid : other = pid
  · rw [if_pos huserPid] at huses
    rw [if_pos hotherPid]
    exact removes_of_writes huses
  · rw [if_pos huserPid] at huses
    rw [if_neg hotherPid, huserPid]
    exact unclaimed_iff.mp (hwrites huses) other hother
  · rw [if_neg huserPid] at huses
    rw [if_pos hotherPid, ← Bool.not_eq_true]
    intro hremove
    rw [hremoves user huser hremove] at huses
    cases huses
  · rw [if_neg huserPid] at huses
    rw [if_neg hotherPid]
    exact unclaimed_iff.mp (h user huser huses) other hother

theorem clear_exit (h : s.Clear) (pid : Nat) : (s.exit pid).Clear := by
  intro user huser huses
  rw [unclaimed_iff]
  intro other hother
  exact unclaimed_iff.mp (h user (List.mem_filter.mp huser).1 huses) other (List.mem_filter.mp hother).1

/-- A step to where no file is used or removed. -/
theorem clear_idle (h : s.Clear) (hwrites : writes pc = false) (hremoves : ∀ other, removes pc other = false) :
    (s.goto pid pc).Clear := by
  refine clear_goto h (fun huses => ?_) fun other _ hremove => ?_
  · rw [hwrites] at huses
    cases huses
  · rw [hremoves other] at hremove
    cases hremove

theorem clear_busy (h : s.Clear) (hclaim : s.unclaimed pid = true) (hremoves : ∀ other, removes pc other = false) :
    (s.goto pid pc).Clear := by
  refine clear_goto h (fun _ => hclaim) fun other _ hremove => ?_
  rw [hremoves other] at hremove
  cases hremove

/-- Where the sidecar reads as day, the seed replaces a text of day by the same. -/
theorem day_of_get {mode : Mode} (hget : Sidecar.get s.file = .day) (hfile : s.file = some (Sidecar.text mode)) :
    mode = .day := by
  rw [hfile, Sidecar.get_of_parse (Sidecar.parse_text mode)] at hget
  exact hget

theorem tidy_rename {writer : Writer} (h : s.Tidy) (hok : s.ProcOk (s.temps pid) (.rename writer))
    (hclaim : s.unclaimed pid = true) (hseed : writer = .seed → Sidecar.get s.file = .day) :
    (s.rename pid writer).Tidy := by
  have hsync : (s.goto pid (.sync writer)).Clear := clear_idle h.clear rfl fun _ => rfl
  unfold rename
  split
  · exact ⟨h.latest, h.acked, clear_busy h.clear hclaim fun _ => rfl, h.spared⟩
  · rename_i text htemp
    have htext := hok.2 text htemp
    subst htext
    cases writer with
    | set mode =>
      refine ⟨fun _ _ hlatest => ?_, fun _ hacked => absurd hacked.symm (Option.some_ne_none _), hsync, h.spared⟩
      obtain ⟨-, rfl⟩ := Prod.mk.inj (Option.some.inj hlatest)
      rfl
    | seed =>
      have hday : ∀ mode, s.file = some (Sidecar.text mode) → mode = .day := fun _ => day_of_get (hseed rfl)
      refine ⟨fun other mode hlatest => ?_, fun mode hacked => ?_, hsync, h.spared⟩
      · rw [hday mode (h.latest other mode hlatest)]
        rfl
      · obtain ⟨hfile, hdurable⟩ := h.acked mode hacked
        have hmode := hday mode hfile
        subst hmode
        exact ⟨rfl, List.forall_mem_cons.mpr ⟨rfl, hdurable⟩⟩

theorem tidy_sync (h : s.Tidy) (writer : Writer) : (s.sync pid writer).Tidy := by
  have hexit := clear_exit h.clear pid
  have hacked : ∀ mode, s.acked = some mode →
      s.file = some (Sidecar.text mode) ∧ ∀ file ∈ [s.file], file = some (Sidecar.text mode) := fun mode hmode =>
    ⟨(h.acked mode hmode).1, List.forall_mem_singleton.mpr (h.acked mode hmode).1⟩
  cases writer with
  | seed => exact ⟨h.latest, hacked, hexit, h.spared⟩
  | set mode =>
    refine ⟨h.latest, fun mode' hmode => ?_, hexit, h.spared⟩
    change (if s.latest = some (pid, mode) then some mode else s.acked) = some mode' at hmode
    split at hmode
    · rename_i hlatest
      obtain rfl := Option.some.inj hmode
      have hfile := h.latest pid mode hlatest
      exact ⟨hfile, List.forall_mem_singleton.mpr hfile⟩
    · exact hacked mode' hmode

theorem tidy_advance (hinv : s.Inv initial) (h : s.Tidy) (hlive : pid ∈ s.live)
    (horderly : s.orderly (.advance pid) = true) : (s.advance pid).Tidy := by
  have hok := hinv.procs pid hlive
  have hbusy := h.clear pid hlive
  unfold orderly at horderly
  unfold advance
  split
  · split
    · exact ⟨h.latest, h.acked, clear_exit h.clear pid, h.spared⟩
    · exact ⟨h.latest, h.acked, clear_idle h.clear rfl fun _ => rfl, h.spared⟩
  · rename_i hpc
    simp only [hpc] at horderly
    exact ⟨h.latest, h.acked, clear_busy h.clear horderly fun _ => rfl, h.spared⟩
  · rename_i hpc
    rw [hpc] at hbusy
    exact ⟨h.latest, h.acked, clear_busy h.clear (hbusy rfl) fun _ => rfl, h.spared⟩
  · rename_i writer hpc
    rw [hpc] at hok hbusy
    refine tidy_rename h hok (hbusy rfl) ?_
    rintro rfl
    simpa only [hpc, decide_eq_true_eq] using horderly
  · exact tidy_sync h _
  · exact ⟨h.latest, h.acked, clear_exit h.clear pid, h.spared⟩
  · exact ⟨h.latest, h.acked, clear_idle h.clear rfl fun _ => rfl, h.spared⟩
  · rename_i orphan orphans hpc
    split
    · exact ⟨h.latest, h.acked, clear_idle h.clear rfl fun _ => rfl, h.spared⟩
    · rename_i hgone
      refine ⟨h.latest, h.acked, clear_goto h.clear (fun huses => (nomatch huses)) ?_, h.spared⟩
      intro other hother hremove
      obtain rfl : orphan = other := of_decide_eq_true hremove
      exact absurd (List.contains_iff_mem.mpr hother) hgone
  · rename_i orphan orphans hpc
    have hinUse : (s.live.contains orphan && writes (s.pc orphan)) = false := by
      rw [← Bool.not_eq_true, Bool.and_eq_true]
      rintro ⟨horphan, huses⟩
      have hspare := unclaimed_iff.mp (h.clear orphan (List.contains_iff_mem.mp horphan) huses) pid hlive
      rw [hpc, removes, decide_eq_false_iff_not] at hspare
      exact hspare rfl
    exact ⟨h.latest, h.acked, clear_idle h.clear rfl fun _ => rfl, List.forall_mem_cons.mpr ⟨hinUse, h.spared⟩⟩
  · split
    · exact ⟨h.latest, h.acked, clear_exit h.clear pid, h.spared⟩
    · exact ⟨h.latest, h.acked, clear_idle h.clear rfl fun _ => rfl, h.spared⟩

theorem tidy_fail {bytes : Nat} (h : s.Tidy) (hlive : pid ∈ s.live) (horderly : s.orderly (.fail pid bytes) = true)
    (hstep : s.fail pid bytes = some s') : s'.Tidy := by
  obtain ⟨⟨temp, rfl⟩, hwriter⟩ := fail_cases hstep
  have hclaim : s.unclaimed pid = true := by
    obtain huses | ⟨writer, hpc⟩ := hwriter
    · exact h.clear pid hlive huses
    · simpa only [orderly, hpc] using horderly
  exact ⟨h.latest, h.acked, clear_busy h.clear hclaim fun _ => rfl, h.spared⟩

theorem tidy_skip (h : s.Tidy) (hstep : s.skip pid = some s') : s'.Tidy := by
  obtain ⟨orphan, orphans, -, rfl⟩ := skip_cases hstep
  exact ⟨h.latest, h.acked, clear_idle h.clear rfl fun _ => rfl, h.spared⟩

/-- A new process neither uses nor removes a file yet. -/
theorem tidy_launch (h : s.Tidy) (hwrites : writes pc = false) (hremoves : ∀ other, removes pc other = false)
    (hstep : s.launch pid pc = some s') : s'.Tidy := by
  rw [launch, Option.ite_none_left_eq_some, Option.some.injEq] at hstep
  obtain ⟨-, rfl⟩ := hstep
  refine ⟨h.latest, h.acked, fun user huser huses => unclaimed_iff.mpr fun other hother => ?_, h.spared⟩
  have hmoved : ∀ q, (s.goto pid pc).pc q = if q = pid then pc else s.pc q := Function.update_apply s.pc pid pc
  have huserPid : user ≠ pid := by
    rintro rfl
    rw [hmoved, if_pos rfl, hwrites] at huses
    cases huses
  rw [hmoved, if_neg huserPid] at huses
  rw [hmoved]
  split
  · exact hremoves user
  · rename_i hotherPid
    have hclear := h.clear user (List.mem_of_ne_of_mem huserPid huser) huses
    exact unclaimed_iff.mp hclear other (List.mem_of_ne_of_mem hotherPid hother)

theorem tidy_step {e : Event} (hinv : s.Inv initial) (h : s.Tidy) (horderly : s.orderly e = true)
    (hstep : s.step e = some s') : s'.Tidy := by
  cases e with
  | set pid mode =>
    have hgrow : { s with requested := mode :: s.requested }.Tidy := ⟨h.latest, h.acked, h.clear, h.spared⟩
    refine tidy_launch hgrow ?_ ?_ hstep
    · rfl
    · exact fun _ => rfl
  | migrate pid orphans =>
    have hgrow : { s with migrating := true }.Tidy := ⟨h.latest, h.acked, h.clear, h.spared⟩
    refine tidy_launch hgrow ?_ ?_ hstep
    · rfl
    · exact fun _ => rfl
  | advance pid =>
    rw [step, Option.ite_none_right_eq_some, Option.some.injEq] at hstep
    obtain ⟨hlive, rfl⟩ := hstep
    exact tidy_advance hinv h (List.contains_iff_mem.mp hlive) horderly
  | fail pid bytes =>
    rw [step, Option.ite_none_right_eq_some] at hstep
    exact tidy_fail h (List.contains_iff_mem.mp hstep.1) horderly hstep.2
  | skip pid =>
    rw [step, Option.ite_none_right_eq_some] at hstep
    exact tidy_skip h hstep.2
  | kill pid =>
    rw [← Option.some.inj hstep]
    exact ⟨h.latest, h.acked, clear_exit h.clear pid, h.spared⟩
  | cut lost =>
    obtain ⟨file, hfile, rfl⟩ := Option.map_eq_some_iff.mp hstep
    refine ⟨fun _ _ => (nomatch ·), fun mode hacked => ?_, fun _ => (nomatch ·), h.spared⟩
    have htext := (h.acked mode hacked).2 file (List.mem_of_getElem? hfile)
    exact ⟨htext, List.forall_mem_singleton.mpr htext⟩

theorem tidy_start (initial : Option (List Byte)) (temps : Nat → Option (List Byte)) : (start initial temps).Tidy :=
  ⟨fun _ _ => (nomatch ·), fun _ => (nomatch ·), fun _ => (nomatch ·), fun _ => (nomatch ·)⟩

end State

/-- **The sidecar is never anything but a whole text that was asked for**, whatever fails and whoever is
killed. **In orderly runs no migrate undoes a set** that has returned, and none removes the file of a live
writer. -/
theorem kept_of_orderly (file : Option (List Byte)) (temps : Nat → Option (List Byte)) :
    (∀ s, Reach State.step (fun _ _ => True) (State.start file temps) s → Genuine file s s.file) ∧
    (∀ s, Reach State.step (fun s e => s.orderly e = true) (State.start file temps) s → Kept file s) := by
  have hinv : ∀ s, Reach State.step (fun _ _ => True) (State.start file temps) s → s.Inv file := fun s h =>
    Reach.invariant (State.inv_start file temps) (fun _ _ _ hs _ hstep => State.inv_step hs hstep) h
  refine ⟨fun s h => (hinv s h).file, fun s h => ?_⟩
  have htidy : s.Tidy := by
    induction h with
    | start => exact State.tidy_start file temps
    | next hreach hok hstep ih => exact State.tidy_step (hinv _ (hreach.weaken fun _ _ _ => trivial)) ih hok hstep
  refine ⟨(hinv s (h.weaken fun _ _ _ => trivial)).file, fun mode hacked => ?_, htidy.spared⟩
  rw [(htidy.acked mode hacked).1]
  exact Sidecar.get_of_parse (Sidecar.parse_text mode)

/-- The temporary file of a process that is gone. -/
def leftover (pid : Nat) : Nat → Option (List Byte) := Function.update (fun _ => none) pid (some [])

/-- `set night` comes between the sweep of a `migrate` and its check; the power fails behind both. -/
theorem kept_set_and_migrate :
    ∃ s, Reach State.step (fun s e => s.orderly e = true) (State.start none (leftover 5)) s ∧
      s.acked = some .night ∧ s.removed = [false] ∧ s.live = [] ∧ Kept none s := by
  have hrun : ∃ s, Reach State.step (fun s e => s.orderly e = true) (State.start none (leftover 5)) s ∧
      (s.acked = some .night ∧ s.removed = [false] ∧ s.live = []) :=
    exists_reach [.migrate 1 [5], .advance 1, .set 2 .night, .advance 2, .advance 2, .advance 1, .advance 2,
      .advance 2, .advance 1, .advance 2, .advance 1, .cut 0] (by decide +kernel)
  obtain ⟨s, hs, hacked, hremoved, hlive⟩ := hrun
  exact ⟨s, hs, hacked, hremoved, hlive, (kept_of_orderly none _).2 s hs⟩

/-- There is no sidecar. A `migrate` has found that out when `set night` comes, writes and returns 0; then
the `migrate` writes forced day. And: a `migrate` has found process 7 gone when a `set` starts under that
id and creates its file, which the `migrate` removes. -/
theorem migrate_undoes_set :
    (∃ s, Reach State.step (fun _ _ => True) (State.start none fun _ => none) s ∧ s.live = [] ∧
      s.requested = [.night] ∧ s.acked = some .night ∧ Sidecar.get s.file = .day ∧ ¬Kept none s) ∧
    ∃ s, Reach State.step (fun _ _ => True) (State.start none (leftover 7)) s ∧
      s.live.contains 7 = true ∧ s.temps 7 = none ∧ ¬Kept none s := by
  constructor
  · have hrun : ∃ s, Reach State.step (fun _ _ => True) (State.start none fun _ => none) s ∧
        (s.live = [] ∧ s.requested = [.night] ∧ s.acked = some .night ∧ Sidecar.get s.file = .day) :=
      exists_reach [.migrate 1 [], .advance 1, .advance 1, .set 2 .night, .advance 2, .advance 2, .advance 2,
        .advance 2, .advance 2, .advance 1, .advance 1, .advance 1, .advance 1] (by decide +kernel)
    obtain ⟨s, hs, hlive, hrequested, hacked, hget⟩ := hrun
    refine ⟨s, hs, hlive, hrequested, hacked, hget, fun h => ?_⟩
    have hstands := h.stands .night hacked
    rw [hget] at hstands
    cases hstands
  · have hrun : ∃ s, Reach State.step (fun _ _ => True) (State.start none (leftover 7)) s ∧
        (s.live.contains 7 = true ∧ s.temps 7 = none ∧ s.removed = [true]) :=
      exists_reach [.migrate 1 [7], .advance 1, .set 7 .auto, .advance 7, .advance 7, .advance 1] (by decide +kernel)
    obtain ⟨s, hs, hlive, htemp, hremoved⟩ := hrun
    refine ⟨s, hs, hlive, htemp, fun h => ?_⟩
    have hspared := h.spared true (by simp [hremoved])
    cases hspared

end Store

end Thingino.Privacy
