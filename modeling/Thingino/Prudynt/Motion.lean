import Mathlib.Data.List.Basic
import Mathlib.Logic.Function.Basic
import Thingino.Lib.Numbered
import Thingino.Lib.Transition

/-! The script `motion`: any number of events at the same time.

An event reads the clock once, and names its files after the second that it showed. It takes its snapshot and
its clip under the lock of `singleton`, lets the lock go, starts the children that send the files, and leaves
a clean-up behind that removes the files when all of them are gone. The children work on copies.

The clip is made by the recorder: it creates the file some time after it was asked to, and the script waits
until a file of that name is there. -/
namespace Thingino.Prudynt.Motion
open Lib

/-- What `date` printed, a second as the clock showed it. -/
abbrev Stamp := Nat

inductive Kind
  | photo
  | clip
deriving DecidableEq

/-- The places in `start` and in the clean-up. -/
inductive Pc
  | date
  | snapshot
  | record
  | await
  | release
  | fanout
  | cleaning
  | remove (k : Kind)
  | done
deriving DecidableEq

namespace Pc

/-- The lock is held. -/
def locked : Pc → Bool
  | .date | .snapshot | .record | .await | .release => true
  | _ => false

/-- Children are still to come. -/
def before : Pc → Bool
  | .snapshot | .record | .await | .release | .fanout => true
  | _ => false

/-- The file of a kind has been taken and not yet been removed; for a clip, it has been asked for. -/
def keeps : Kind → Pc → Bool
  | .photo, .record | .photo, .await | .photo, .release | .photo, .fanout | .photo, .cleaning => true
  | .photo, .remove .photo => true
  | .clip, .await | .clip, .release | .clip, .fanout | .clip, .cleaning | .clip, .remove _ => true
  | _, _ => false

end Pc

/-- An event; `recorded` says that the recorder has created its clip. -/
structure Run where
  stamp : Stamp
  needs : Kind → Bool
  pc : Pc
  children : Nat
  started : Bool
  recorded : Bool

namespace Run

/-- Some child has not exited, or not even started. -/
def inUse (q : Run) : Bool := q.pc.before || q.children != 0

/-- The file of a kind is the event's. -/
def owns (q : Run) (k : Kind) : Bool := q.needs k && q.pc.keeps k && (k = .photo || q.recorded)

/-- The script waits for a clip that is not there yet. -/
def pending (q : Run) : Bool := q.pc = .await && !q.recorded

end Run

/-- `files` has for each name the event that wrote the file. `harmed` says for each write and each removal, the
last one first, whether it has hit a file that some child of its event needed, or a clean-up has removed the
file of another event. -/
structure State where
  files : Kind × Stamp → Option Nat
  runs : List Run
  harmed : List Bool

/-- What an event finds: `motors` is there, the clock, and what the services need. -/
structure Reading where
  motors : Bool
  stamp : Stamp
  needs : Kind → Bool

inductive Event
  | start
  | read (i : Nat) (r : Reading)
  | advance (i : Nat)
  | create (i : Nat)
  | fork (i : Nat)
  | exit (i : Nat)

namespace State

def put (s : State) (i : Nat) (q : Run) : State := { s with runs := s.runs.set i q }

def usedBy (s : State) (i : Nat) : Bool := s.runs[i]?.any Run.inUse

/-- The event `i` creates or truncates a file; `late` says that its own children may be at work. -/
def write (s : State) (i : Nat) (k : Kind) (stamp : Stamp) (late : Bool) : State :=
  { s with
    files := Function.update s.files (k, stamp) (some i)
    harmed := ((s.files (k, stamp)).any (fun j => j ≠ i && s.usedBy j) || late) :: s.harmed }

/-- The clean-up of the event `i` removes a file. -/
def unlink (s : State) (i : Nat) (k : Kind) (stamp : Stamp) : State :=
  { s with
    files := Function.update s.files (k, stamp) none
    harmed := (s.files (k, stamp)).any (fun j => j ≠ i || s.usedBy j) :: s.harmed }

def advance (s : State) (i : Nat) (q : Run) : Option State :=
  match q.pc with
  | .date => none
  | .snapshot =>
    some ((if q.needs .photo then s.write i .photo q.stamp false else s).put i { q with pc := .record })
  | .record => some (s.put i { q with pc := if q.needs .clip then .await else .release })
  | .await => if (s.files (.clip, q.stamp)).isSome then some (s.put i { q with pc := .release }) else none
  | .release => some (s.put i { q with pc := .fanout })
  | .fanout => some (s.put i { q with pc := if q.started then .cleaning else .done })
  | .cleaning => if q.children = 0 then some (s.put i { q with pc := .remove .photo }) else none
  | .remove .photo =>
    some ((if q.needs .photo then s.unlink i .photo q.stamp else s).put i { q with pc := .remove .clip })
  | .remove .clip => some ((if q.needs .clip then s.unlink i .clip q.stamp else s).put i { q with pc := .done })
  | .done => none

def stepRun (s : State) (i : Nat) (q : Run) : Event → Option State
  | .read _ r =>
    if q.pc = .date then
      some (s.put i (if r.motors then { q with pc := .done }
        else { q with stamp := r.stamp, needs := r.needs, pc := .snapshot }))
    else none
  | .advance _ => s.advance i q
  | .create _ =>
    if q.needs .clip && !q.recorded && !(q.pc = .date || q.pc = .snapshot || q.pc = .record) then
      some ((s.write i .clip q.stamp (q.pc ≠ .await && q.inUse)).put i { q with recorded := true })
    else none
  | .fork _ => if q.pc = .fanout then some (s.put i { q with children := q.children + 1, started := true }) else none
  | .exit _ => if q.children = 0 then none else some (s.put i { q with children := q.children - 1 })
  | .start => none

/-- An invocation that does not get the lock ends at once. -/
def step (s : State) (e : Event) : Option State :=
  match e with
  | .start =>
    some (if s.runs.any fun q => q.pc.locked then s
      else { s with runs := s.runs ++ [⟨0, fun _ => false, .date, 0, false, false⟩] })
  | .read i _ | .advance i | .create i | .fork i | .exit i => s.runs[i]?.bind fun q => s.stepRun i q e

/-- Before the first event. -/
def boot : State := ⟨fun _ => none, [], []⟩

/-- When a snapshot is taken there is no file of its name, except one that an event left that is over; when a
clip is asked for there is none of its name. -/
def careful (s : State) (e : Event) : Bool :=
  match e with
  | .advance i =>
    s.runs[i]?.all fun q =>
      match q.pc with
      | .snapshot => !q.needs .photo || (s.files (.photo, q.stamp)).all fun j => s.runs[j]?.any fun r => r.pc = .done
      | .record => !q.needs .clip || (s.files (.clip, q.stamp)).isNone
      | _ => true
  | _ => true

end State

/-- **The property.** Nothing that a child needed was overwritten, truncated or removed, and each clean-up has
removed files of its own event alone. -/
def Unharmed (s : State) : Prop := ∀ hit ∈ s.harmed, hit = false

/-! ### The invariant -/

namespace Pc

/-- The clip has not been asked for. -/
def early : Pc → Bool
  | .date | .snapshot | .record => true
  | _ => false

/-- The clip has been waited for. -/
def late : Pc → Bool
  | .release | .fanout | .cleaning | .remove _ | .done => true
  | _ => false

/-- No child is running. -/
def childless : Pc → Bool
  | .fanout | .cleaning => false
  | _ => true

end Pc

/-- What holds of an event at its place. -/
structure Shape (q : Run) : Prop where
  fresh : q.pc = .date → q.needs .clip = false
  early : q.pc.early = true → q.recorded = false
  late : q.needs .clip = true → q.pc.late = true → q.recorded = true
  childless : q.pc.childless = true → q.children = 0
  unstarted : q.started = false → q.children = 0

/-- The files that an event owns are the ones that it wrote, and the clip that it waits for is not there. -/
structure Fits (files : Kind × Stamp → Option Nat) (i : Nat) (q : Run) : Prop where
  owned : ∀ k, q.owns k = true → files (k, q.stamp) = some i
  pending : q.pending = true → files (.clip, q.stamp) = none

structure Inv (s : State) : Prop where
  shape : ∀ (i : Nat) q, s.runs[i]? = some q → Shape q
  fits : ∀ (i : Nat) q, s.runs[i]? = some q → Fits s.files i q
  locked : ∀ (i j : Nat) q r, s.runs[i]? = some q → s.runs[j]? = some r → q.pc.locked = true → r.pc.locked = true →
    i = j
  unharmed : Unharmed s

namespace State
variable {s s' t : State} {i : Nat} {q q' : Run} {files : Kind × Stamp → Option Nat}

/-- A file that an event neither owns nor waits for is not its concern. -/
theorem fits_update {k : Kind} {stamp : Stamp} {v : Option Nat} (h : Fits files i q)
    (howns : q.owns k = true → q.stamp ≠ stamp)
    (hpending : q.pending = true → v = none ∨ (k, stamp) ≠ (.clip, q.stamp)) :
    Fits (Function.update files (k, stamp) v) i q := by
  constructor
  · intro k' hk'
    by_cases heq : (k', q.stamp) = (k, stamp)
    · obtain ⟨rfl, hstamp⟩ := Prod.mk.inj heq
      exact absurd hstamp (howns hk')
    · rw [Function.update_of_ne heq]
      exact h.owned k' hk'
  · intro hwait
    by_cases heq : ((Kind.clip, q.stamp) : Kind × Stamp) = (k, stamp)
    · rw [heq, Function.update_self]
      exact (hpending hwait).resolve_right (absurd heq.symm)
    · rw [Function.update_of_ne heq]
      exact h.pending hwait

/-- One event goes on, while the files of the others stay as they were. -/
theorem inv_put (h : Inv s) (hold : s.runs[i]? = some q) (hruns : t.runs = s.runs) (hunharmed : Unharmed t)
    (hothers : ∀ (j : Nat) r, j ≠ i → s.runs[j]? = some r → Fits t.files j r) (hshape : Shape q') (hfits : Fits t.files i q')
    (hlocked : q'.pc.locked = true → q.pc.locked = true) : Inv (t.put i q') := by
  have hget : ∀ (j : Nat) r, (t.put i q').runs[j]? = some r → j = i ∧ r = q' ∨ j ≠ i ∧ s.runs[j]? = some r := by
    intro j r hr
    rw [put, hruns] at hr
    exact Numbered.of_getElem?_set hold hr
  refine ⟨fun j r hr => ?_, fun j r hr => ?_, fun j k r u hr hu hrl hul => ?_, hunharmed⟩
  · obtain ⟨-, rfl⟩ | ⟨-, hr⟩ := hget j r hr
    · exact hshape
    · exact h.shape j r hr
  · obtain ⟨rfl, rfl⟩ | ⟨hne, hr⟩ := hget j r hr
    · exact hfits
    · exact hothers j r hne hr
  · obtain ⟨rfl, rfl⟩ | ⟨-, hr'⟩ := hget j r hr <;> obtain ⟨rfl, rfl⟩ | ⟨-, hu'⟩ := hget k u hu
    · rfl
    · exact h.locked j k q u hold hu' (hlocked hrl) hul
    · exact h.locked j k r q hr' hold hrl (hlocked hul)
    · exact h.locked j k r u hr' hu' hrl hul

/-- One event goes on without a file. -/
theorem inv_walk (h : Inv s) (hold : s.runs[i]? = some q) (hshape : Shape q') (hfits : Fits s.files i q')
    (hlocked : q'.pc.locked = true → q.pc.locked = true) : Inv (s.put i q') :=
  inv_put h hold rfl h.unharmed (fun j r _ hr => h.fits j r hr) hshape hfits hlocked

/-! ### The steps -/

theorem owns_of_keeps {k : Kind} (hkeeps : q.pc.keeps k = false) : q.owns k = false := by
  rw [Run.owns, hkeeps, Bool.and_false, Bool.false_and]

/-- An event at a place without files. -/
theorem fits_empty (hphoto : q.pc.keeps .photo = false) (hclip : q.pc.keeps .clip = false) : Fits files i q := by
  constructor
  · intro k hk
    have hnone : q.pc.keeps k = false := by cases k <;> assumption
    rw [owns_of_keeps hnone] at hk
    cases hk
  · intro hwait
    rw [Run.pending, Bool.and_eq_true, decide_eq_true_eq] at hwait
    rw [hwait.1] at hclip
    cases hclip

/-- What an event owns at a new place it owned at the old one, and it does not wait. -/
theorem fits_walk (h : Fits files i q) (hstamp : q'.stamp = q.stamp) (howns : ∀ k, q'.owns k = true → q.owns k = true)
    (hpending : q'.pending = true → q.pending = true) : Fits files i q' := by
  constructor
  · intro k hk
    rw [hstamp]
    exact h.owned k (howns k hk)
  · intro hwait
    rw [hstamp]
    exact h.pending (hpending hwait)

/-- An event goes on to a place. -/
theorem shape_goto {pc : Pc} (h : Shape q) (hdate : pc ≠ .date) (hearly : pc.early = true → q.pc.early = true)
    (hlate : q.needs .clip = true → pc.late = true → q.pc.late = true ∨ q.recorded = true)
    (hchildless : pc.childless = true → q.children = 0) : Shape { q with pc := pc } :=
  ⟨fun hpc => absurd hpc hdate, fun he => h.early (hearly he),
    fun hneeds hl => (hlate hneeds hl).elim (h.late hneeds) fun hrecorded => hrecorded, hchildless, h.unstarted⟩

/-- The event reads the clock. -/
theorem inv_read {r : Reading} (h : Inv s) (hold : s.runs[i]? = some q) (hpc : q.pc = .date) :
    Inv (s.put i (if r.motors then { q with pc := .done }
      else { q with stamp := r.stamp, needs := r.needs, pc := .snapshot })) := by
  have hshape := h.shape i q hold
  have hchildren := hshape.childless (by rw [hpc]; rfl)
  split
  · have hnone : q.needs .clip = true → False := fun hneeds => Bool.false_ne_true ((hshape.fresh hpc).symm.trans hneeds)
    have hshape' : Shape { q with pc := .done } :=
      shape_goto hshape (by decide) (absurd · Bool.false_ne_true) (fun hneeds _ => (hnone hneeds).elim) fun _ => hchildren
    exact inv_walk h hold hshape' (fits_empty rfl rfl) (absurd · Bool.false_ne_true)
  · have hshape' : Shape { q with stamp := r.stamp, needs := r.needs, pc := .snapshot } :=
      ⟨fun hdate => absurd (show Pc.snapshot = .date from hdate) (by decide), fun _ => hshape.early (by rw [hpc]; rfl),
        fun _ => (absurd · Bool.false_ne_true), fun _ => hchildren, hshape.unstarted⟩
    exact inv_walk h hold hshape' (fits_empty rfl rfl) fun _ => by rw [hpc]; rfl

/-- What `careful` asks of a snapshot: the file of its name is no event's. -/
theorem not_owned_of_done {stamp : Stamp} (h : Inv s)
    (hdone : (s.files (.photo, stamp)).all (fun j => s.runs[j]?.any fun r => r.pc = .done) = true) {j : Nat} {r : Run}
    (hr : s.runs[j]? = some r) (howns : r.owns .photo = true) : r.stamp ≠ stamp := by
  intro hstamp
  rw [← hstamp, (h.fits j r hr).owned .photo howns, Option.all_some, hr, Option.any_some, decide_eq_true_eq] at hdone
  rw [owns_of_keeps (by rw [hdone]; rfl)] at howns
  cases howns

theorem not_inUse_of_done (h : Shape q) (hdone : q.pc = .done) : q.inUse = false := by
  rw [Run.inUse, h.childless (by rw [hdone]; rfl), hdone]
  rfl

/-- The snapshot is taken. -/
theorem inv_snapshot (h : Inv s) (hold : s.runs[i]? = some q) (hpc : q.pc = .snapshot)
    (hcareful : s.careful (.advance i) = true) :
    Inv ((if q.needs .photo then s.write i .photo q.stamp false else s).put i { q with pc := .record }) := by
  simp only [careful, hold, Option.all_some, hpc, Bool.or_eq_true, Bool.not_eq_true'] at hcareful
  have hshape := h.shape i q hold
  have hchildren := hshape.childless (by rw [hpc]; rfl)
  have hshape' : Shape { q with pc := .record } :=
    shape_goto hshape (by decide) (fun _ => by rw [hpc]; rfl) (fun _ => (absurd · Bool.false_ne_true)) fun _ => hchildren
  have hlocked : ({ q with pc := .record } : Run).pc.locked = true → q.pc.locked = true := fun _ => by rw [hpc]; rfl
  cases hneeds : q.needs .photo with
  | false =>
    refine inv_walk h hold hshape' ⟨fun k hk => ?_, (absurd · Bool.false_ne_true)⟩ hlocked
    cases k with
    | photo =>
      rw [Run.owns, hneeds, Bool.false_and, Bool.false_and] at hk
      cases hk
    | clip =>
      rw [owns_of_keeps rfl] at hk
      cases hk
  | true =>
    have hdone := hcareful.resolve_left (by rw [hneeds]; decide)
    refine inv_put h hold rfl (List.forall_mem_cons.mpr ⟨?_, h.unharmed⟩) (fun j r _ hr => ?_) hshape'
      ⟨fun k hk => ?_, (absurd · Bool.false_ne_true)⟩ hlocked
    · -- who left the file is over
      cases hfile : s.files (.photo, q.stamp) with
      | none => rfl
      | some j =>
        rw [hfile, Option.all_some] at hdone
        cases hr : s.runs[j]? with
        | none => simp [usedBy, hr]
        | some r =>
          rw [hr, Option.any_some, decide_eq_true_eq] at hdone
          simp [usedBy, hr, not_inUse_of_done (h.shape j r hr) hdone]
    · refine fits_update (h.fits j r hr) (not_owned_of_done h hdone hr) fun _ => .inr ?_
      intro heq
      cases (Prod.mk.inj heq).1
    · cases k with
      | photo => exact Function.update_self ..
      | clip =>
        rw [owns_of_keeps rfl] at hk
        cases hk

/-- The clip is asked for, if it is needed. -/
theorem inv_record (h : Inv s) (hold : s.runs[i]? = some q) (hpc : q.pc = .record)
    (hcareful : s.careful (.advance i) = true) :
    Inv (s.put i { q with pc := if q.needs .clip then .await else .release }) := by
  simp only [careful, hold, Option.all_some, hpc, Bool.or_eq_true, Bool.not_eq_true', Option.isNone_iff_eq_none] at hcareful
  have hshape := h.shape i q hold
  have hchildren := hshape.childless (by rw [hpc]; rfl)
  have hrecorded := hshape.early (by rw [hpc]; rfl)
  have hphoto : q.needs .photo = true → q.owns .photo = true := fun hneeds => by rw [Run.owns, hneeds, hpc]; rfl
  cases hneeds : q.needs .clip with
  | false =>
    have hshape' : Shape { q with pc := .release } := by
      refine shape_goto hshape (by decide) (absurd · Bool.false_ne_true) (fun hclip => ?_) fun _ => hchildren
      rw [hneeds] at hclip
      cases hclip
    refine inv_walk h hold hshape' (fits_walk (h.fits i q hold) rfl (fun k hk => ?_) (absurd · Bool.false_ne_true))
      fun _ => by rw [hpc]; rfl
    cases k with
    | photo => exact hphoto (Bool.and_eq_true_iff.mp (Bool.and_eq_true_iff.mp hk).1).1
    | clip =>
      rw [Run.owns, hneeds, Bool.false_and, Bool.false_and] at hk
      cases hk
  | true =>
    have hfree := hcareful.resolve_left (by rw [hneeds]; decide)
    have hshape' : Shape { q with pc := .await } :=
      shape_goto hshape (by decide) (absurd · Bool.false_ne_true) (fun _ => (absurd · Bool.false_ne_true)) fun _ => hchildren
    refine inv_walk h hold hshape' ⟨fun k hk => ?_, fun _ => hfree⟩ fun _ => by rw [hpc]; rfl
    cases k with
    | photo => exact (h.fits i q hold).owned .photo (hphoto (Bool.and_eq_true_iff.mp (Bool.and_eq_true_iff.mp hk).1).1)
    | clip =>
      simp only [Run.owns, hrecorded] at hk
      simp at hk

/-- A clip of the name is there: it is the event's own. -/
theorem inv_await (h : Inv s) (hold : s.runs[i]? = some q) (hpc : q.pc = .await)
    (hfile : (s.files (.clip, q.stamp)).isSome = true) : Inv (s.put i { q with pc := .release }) := by
  have hshape := h.shape i q hold
  have hrecorded : q.recorded = true := by
    cases hrec : q.recorded with
    | true => rfl
    | false =>
      rw [(h.fits i q hold).pending (by rw [Run.pending, hpc, hrec]; rfl)] at hfile
      cases hfile
  have hchildren := hshape.childless (by rw [hpc]; rfl)
  have hshape' : Shape { q with pc := .release } :=
    shape_goto hshape (by decide) (absurd · Bool.false_ne_true) (fun _ _ => .inr hrecorded) fun _ => hchildren
  refine inv_walk h hold hshape' (fits_walk (h.fits i q hold) rfl (fun k hk => ?_) (absurd · Bool.false_ne_true))
    fun _ => by rw [hpc]; rfl
  rw [Run.owns, hpc]
  cases k <;> exact hk

/-- From the release of the lock to the clean-up nothing changes hands. -/
theorem inv_late {pc : Pc} (h : Inv s) (hold : s.runs[i]? = some q) (hlate : q.pc.late = true) (hkept : pc.late = true)
    (hkeeps : ∀ k, pc.keeps k = true → q.pc.keeps k = true) (hchildless : pc.childless = true → q.children = 0)
    (hlocked : pc.locked = true → q.pc.locked = true) : Inv (s.put i { q with pc := pc }) := by
  have hshape := h.shape i q hold
  refine inv_walk h hold (shape_goto hshape ?_ (fun hearly => ?_) (fun _ _ => .inl hlate) hchildless)
    (fits_walk (h.fits i q hold) rfl (fun k hk => ?_) fun hwait => ?_) hlocked
  · intro hdate
    rw [hdate] at hkept
    cases hkept
  · have hnot : pc.early = false := by cases pc <;> first | rfl | cases hkept
    rw [hnot] at hearly
    cases hearly
  · simp only [Run.owns, Bool.and_eq_true] at hk ⊢
    exact ⟨⟨hk.1.1, hkeeps k hk.1.2⟩, hk.2⟩
  · rw [Run.pending, Bool.and_eq_true, decide_eq_true_eq] at hwait
    have hpc : pc = .await := hwait.1
    rw [hpc] at hkept
    cases hkept

/-- What an event owns no other one does. -/
theorem stamp_ne_of_owns {k : Kind} (h : Inv s) (hold : s.runs[i]? = some q) (howns : q.owns k = true) {j : Nat}
    {r : Run} (hne : j ≠ i) (hr : s.runs[j]? = some r) (howns' : r.owns k = true) : r.stamp ≠ q.stamp := by
  intro hstamp
  have hfile := (h.fits j r hr).owned k howns'
  rw [hstamp, (h.fits i q hold).owned k howns, Option.some.injEq] at hfile
  exact hne hfile.symm

/-- The clean-up removes a file of its own event. -/
theorem inv_remove {k : Kind} {pc : Pc} (h : Inv s) (hold : s.runs[i]? = some q) (hpc : q.pc = .remove k)
    (hkept : pc.late = true) (hkeeps : ∀ k', pc.keeps k' = true → q.pc.keeps k' = true ∧ k' ≠ k)
    (hlocked : pc.locked = false) :
    Inv ((if q.needs k then s.unlink i k q.stamp else s).put i { q with pc := pc }) := by
  have hshape := h.shape i q hold
  have hchildren := hshape.childless (by rw [hpc]; rfl)
  have hlate : q.pc.late = true := by rw [hpc]; rfl
  cases hneeds : q.needs k with
  | false =>
    refine inv_late h hold hlate hkept (fun k' hk' => (hkeeps k' hk').1) (fun _ => hchildren) fun hl => ?_
    rw [hlocked] at hl
    cases hl
  | true =>
    have howns : q.owns k = true := by
      rw [Run.owns, hneeds, hpc]
      cases k with
      | photo => rfl
      | clip => rw [hshape.late hneeds hlate]; rfl
    have hwalk := inv_late h hold hlate hkept (fun k' hk' => (hkeeps k' hk').1) (fun _ => hchildren) fun hl => by
      rw [hlocked] at hl
      cases hl
    have hself : (s.put i { q with pc := pc }).runs[i]? = some { q with pc := pc } := Numbered.getElem?_set_self hold
    refine inv_put h hold rfl (List.forall_mem_cons.mpr ⟨?_, h.unharmed⟩) (fun j r hne hr => ?_)
      (hwalk.shape i _ hself) ?_ fun hl => ?_
    · have hunused : q.inUse = false := by
        rw [Run.inUse, hchildren, hpc]
        rfl
      simp [(h.fits i q hold).owned k howns, usedBy, hold, hunused]
    · exact fits_update (h.fits j r hr) (stamp_ne_of_owns h hold howns hne hr) fun _ => .inl rfl
    · refine fits_update (hwalk.fits i _ hself) (fun hk => ?_) fun _ => .inl rfl
      exact absurd rfl (hkeeps k (Bool.and_eq_true_iff.mp (Bool.and_eq_true_iff.mp hk).1).2).2
    · rw [hlocked] at hl
      cases hl

theorem inv_advance (h : Inv s) (hold : s.runs[i]? = some q) (hcareful : s.careful (.advance i) = true)
    (hstep : s.advance i q = some s') : Inv s' := by
  unfold advance at hstep
  split at hstep
  case h_1 => cases hstep
  case h_2 hpc =>
    cases hstep
    exact inv_snapshot h hold hpc hcareful
  case h_3 hpc =>
    cases hstep
    exact inv_record h hold hpc hcareful
  case h_4 hpc =>
    rw [Option.ite_none_right_eq_some] at hstep
    cases hstep.2
    exact inv_await h hold hpc hstep.1
  case h_5 hpc =>
    cases hstep
    refine inv_late h hold (by rw [hpc]; rfl) rfl (fun k hk => ?_) (absurd · Bool.false_ne_true) (absurd · Bool.false_ne_true)
    rw [hpc]
    cases k <;> rfl
  case h_6 hpc =>
    cases hstep
    split
    · refine inv_late h hold (by rw [hpc]; rfl) rfl (fun k hk => ?_) (absurd · Bool.false_ne_true)
        (absurd · Bool.false_ne_true)
      rw [hpc]
      cases k <;> rfl
    · rename_i hstarted
      have hnone := (h.shape i q hold).unstarted (Bool.eq_false_iff.mpr hstarted)
      refine inv_late h hold (by rw [hpc]; rfl) rfl (fun k hk => ?_) (fun _ => hnone) (absurd · Bool.false_ne_true)
      cases k <;> cases hk
  case h_7 hpc =>
    rw [Option.ite_none_right_eq_some] at hstep
    cases hstep.2
    refine inv_late h hold (by rw [hpc]; rfl) rfl (fun k hk => ?_) (fun _ => hstep.1) (absurd · Bool.false_ne_true)
    rw [hpc]
    cases k <;> rfl
  case h_8 hpc =>
    cases hstep
    refine inv_remove h hold hpc rfl (fun k hk => ?_) rfl
    rw [hpc]
    cases k with
    | photo => cases hk
    | clip => exact ⟨rfl, by decide⟩
  case h_9 hpc =>
    cases hstep
    refine inv_remove h hold hpc rfl (fun k hk => ?_) rfl
    cases k <;> cases hk
  case h_10 => cases hstep

/-- The recorder creates the clip while the script waits for it. -/
theorem inv_create (h : Inv s) (hold : s.runs[i]? = some q) (hneeds : q.needs .clip = true) (hrecorded : q.recorded = false)
    (hearly : q.pc.early = false) :
    Inv ((s.write i .clip q.stamp (q.pc ≠ .await && q.inUse)).put i { q with recorded := true }) := by
  have hshape := h.shape i q hold
  have hpc : q.pc = .await := by
    cases hpc : q.pc with
    | await => rfl
    | date | snapshot | record =>
      rw [hpc] at hearly
      cases hearly
    | _ =>
      have hlate := hshape.late hneeds (by rw [hpc]; rfl)
      rw [hrecorded] at hlate
      cases hlate
  have hpending : q.pending = true := by
    rw [Run.pending, hpc, hrecorded]
    rfl
  have hfree := (h.fits i q hold).pending hpending
  refine inv_put h hold rfl (List.forall_mem_cons.mpr ⟨?_, h.unharmed⟩) (fun j r hne hr => ?_) ⟨hshape.fresh, fun he => ?_,
    fun _ _ => rfl, hshape.childless, hshape.unstarted⟩ ⟨fun k hk => ?_, fun hwait => ?_⟩ fun hl => hl
  · simp [hfree, hpc]
  · refine fits_update (h.fits j r hr) (fun howns hstamp => ?_) fun hwait => ?_
    · rw [← hstamp, (h.fits j r hr).owned .clip howns] at hfree
      cases hfree
    · -- both would hold the lock
      rw [Run.pending, Bool.and_eq_true, decide_eq_true_eq] at hwait
      exact absurd (h.locked j i r q hr hold (by rw [hwait.1]; rfl) (by rw [hpc]; rfl)) hne
  · rw [hpc] at he
    cases he
  · cases k with
    | photo =>
      have hne : ((.photo, q.stamp) : Kind × Stamp) ≠ (.clip, q.stamp) := fun heq => by cases (Prod.mk.inj heq).1
      exact (Function.update_of_ne hne (some i) s.files).trans ((h.fits i q hold).owned .photo hk)
    | clip => exact Function.update_self ..
  · rw [Run.pending, Bool.and_eq_true] at hwait
    cases hwait.2

/-- A child starts or exits. -/
theorem inv_children {children : Nat} {started : Bool} (h : Inv s) (hold : s.runs[i]? = some q)
    (hchildless : q.pc.childless = true → children = 0) (hunstarted : started = false → children = 0) :
    Inv (s.put i { q with children := children, started := started }) := by
  have hshape := h.shape i q hold
  exact inv_walk h hold ⟨hshape.fresh, hshape.early, hshape.late, hchildless, hunstarted⟩
    (fits_walk (h.fits i q hold) rfl (fun _ hk => hk) fun hwait => hwait) fun hl => hl

theorem inv_stepRun {e : Event} (h : Inv s) (hold : s.runs[i]? = some q)
    (hcareful : ∀ j, e = .advance j → j = i ∧ s.careful e = true) (hstep : s.stepRun i q e = some s') : Inv s' := by
  cases e with
  | start => cases hstep
  | read j r =>
    rw [stepRun, Option.ite_none_right_eq_some] at hstep
    cases hstep.2
    exact inv_read h hold hstep.1
  | advance j =>
    obtain ⟨rfl, hok⟩ := hcareful j rfl
    exact inv_advance h hold hok hstep
  | create j =>
    rw [stepRun, Option.ite_none_right_eq_some] at hstep
    cases hstep.2
    simp only [Bool.and_eq_true, Bool.not_eq_true', Bool.or_eq_false_iff, decide_eq_false_iff_not] at hstep
    obtain ⟨⟨hneeds, hrecorded⟩, ⟨hdate, hsnapshot⟩, hrecord⟩ := hstep.1
    refine inv_create h hold hneeds hrecorded ?_
    cases hpc : q.pc with
    | date => exact absurd hpc hdate
    | snapshot => exact absurd hpc hsnapshot
    | record => exact absurd hpc hrecord
    | _ => rfl
  | fork j =>
    rw [stepRun, Option.ite_none_right_eq_some] at hstep
    cases hstep.2
    refine inv_children h hold (fun hchildless => ?_) fun hstarted => by cases hstarted
    rw [hstep.1] at hchildless
    cases hchildless
  | exit j =>
    rw [stepRun, Option.ite_none_left_eq_some] at hstep
    cases hstep.2
    have hshape := h.shape i q hold
    have hchildless : q.pc.childless = true → q.children - 1 = 0 := fun hpc => by rw [hshape.childless hpc]
    have hunstarted : q.started = false → q.children - 1 = 0 := fun hstarted => by rw [hshape.unstarted hstarted]
    exact inv_children h hold hchildless hunstarted

/-- An event begins with the lock. -/
theorem inv_start (h : Inv s) (hfree : ∀ q ∈ s.runs, q.pc.locked = false) :
    Inv { s with runs := s.runs ++ [⟨0, fun _ => false, .date, 0, false, false⟩] } := by
  refine ⟨fun j r hr => ?_, fun j r hr => ?_, fun j k r u hr hu hrl hul => ?_, h.unharmed⟩
  · obtain ⟨-, rfl⟩ | hr := Numbered.of_getElem?_concat hr
    · exact ⟨fun _ => rfl, fun _ => rfl, fun _ hlate => absurd hlate (by decide), fun _ => rfl, fun _ => rfl⟩
    · exact h.shape j r hr
  · obtain ⟨-, rfl⟩ | hr := Numbered.of_getElem?_concat hr
    · exact fits_empty rfl rfl
    · exact h.fits j r hr
  · have hnone : ∀ (j : Nat) r, s.runs[j]? = some r → r.pc.locked = true → False := by
      intro j r hr hl
      rw [hfree r (List.mem_of_getElem? hr)] at hl
      cases hl
    obtain ⟨rfl, -⟩ | hr := Numbered.of_getElem?_concat hr
    · obtain ⟨rfl, -⟩ | hu := Numbered.of_getElem?_concat hu
      · rfl
      · exact absurd hul (hnone k u hu)
    · exact absurd hrl (hnone j r hr)

theorem inv_step {e : Event} (h : Inv s) (hcareful : s.careful e = true) (hstep : s.step e = some s') : Inv s' := by
  cases e with
  | start =>
    cases hstep
    split
    · exact h
    · rename_i hfree
      refine inv_start h fun q hq => ?_
      rw [List.any_eq_true, not_exists] at hfree
      exact Bool.eq_false_iff.mpr fun hl => hfree q ⟨hq, hl⟩
  | read i r | create i | fork i | exit i =>
    obtain ⟨q, hold, hrun⟩ := Option.bind_eq_some_iff.mp hstep
    exact inv_stepRun h hold (fun j hj => by cases hj) hrun
  | advance i =>
    obtain ⟨q, hold, hrun⟩ := Option.bind_eq_some_iff.mp hstep
    refine inv_stepRun h hold (fun j hj => ?_) hrun
    cases hj
    exact ⟨rfl, hcareful⟩

theorem inv_boot : Inv boot := by
  refine ⟨fun i q hq => ?_, fun i q hq => ?_, fun i j q r hq => ?_, fun hit hmem => absurd hmem List.not_mem_nil⟩ <;> cases hq

end State

/-- **The files belong to one event**, in runs where no event takes over the name of one that is not over. -/
theorem unharmed_of_careful {s : State} (h : Reach State.step (fun s e => s.careful e = true) State.boot s) : Unharmed s :=
  (Reach.invariant State.inv_boot (fun _ _ _ hs hok hstep => State.inv_step hs hok hstep) h).unharmed

/-- An event with a clip while the children of another one are at work, and then an event at a second that the
clock has shown before. -/
theorem unharmed_after_overlap :
    ∃ s, Reach State.step (fun s e => s.careful e = true) State.boot s ∧
      s.harmed = [false, false, false, false] ∧ Unharmed s := by
  have hrun : ∃ s, Reach State.step (fun s e => s.careful e = true) State.boot s ∧
      s.harmed = [false, false, false, false] :=
    exists_reach [.start, .read 0 ⟨false, 5, fun k => k = .photo⟩, .advance 0, .advance 0, .advance 0, .fork 0, .start,
      .read 1 ⟨false, 6, fun k => k = .clip⟩, .advance 1, .advance 1, .advance 0, .exit 0, .create 1, .advance 1,
      .advance 1, .fork 1, .advance 0, .advance 0, .advance 0, .start, .read 2 ⟨false, 5, fun k => k = .photo⟩,
      .advance 2] (by decide)
  obtain ⟨s, hs, hharmed⟩ := hrun
  exact ⟨s, hs, hharmed, unharmed_of_careful hs⟩

/-- Two events in one second: the second snapshot truncates the first one, which a child is still to send. -/
theorem same_second_truncates :
    ∃ s, Reach State.step (fun _ _ => True) State.boot s ∧ s.harmed = [true, false] ∧ ¬Unharmed s := by
  have hrun : ∃ s, Reach State.step (fun _ _ => True) State.boot s ∧ s.harmed = [true, false] :=
    exists_reach [.start, .read 0 ⟨false, 5, fun k => k = .photo⟩, .advance 0, .advance 0, .advance 0, .fork 0, .start,
      .read 1 ⟨false, 5, fun k => k = .photo⟩, .advance 1] (by decide)
  obtain ⟨s, hs, hharmed⟩ := hrun
  refine ⟨s, hs, hharmed, fun h => ?_⟩
  have hhit := h true (by rw [hharmed]; exact List.mem_cons_self)
  cases hhit

end Thingino.Prudynt.Motion
