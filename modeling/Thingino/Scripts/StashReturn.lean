import Thingino.Scripts.StashSteps

/-! What a run of `update_packages.py` owes the developer.

`GivesBack` is said of the trail of a run: after a stash that was saved comes a `stash pop` of that stash, and a
package file whose commit failed has the text that it had. `Meets` has the steps that a run must be spared
for it; from the push on, `Owes` is kept up to the `stash pop` or to the first step that is not spared. -/
namespace Thingino.Scripts.UpdatePackages
open Lib

/-! ### What is said of a trail -/

namespace Event

/-- The commit of the stash that a `stash push` has saved. -/
def saves (e : Event) : Option String :=
  match e.action, e.after with
  | .git (.stashPush _), sha :: rest => if rest = e.before then some sha else none
  | _, _ => none

/-- A `stash pop` of the stash with this commit, whatever comes of it. -/
def pops (sha : String) (e : Event) : Bool :=
  match e.action with
  | .git (.stashPop ref) => resolve e.before ref = some sha
  | _ => false

def raised (e : Event) : Bool :=
  match e.answer with
  | .ok _ => false
  | .error _ => true

/-- What a command of git has answered. -/
def ran : Event → Option Ran
  | ⟨.git _, .ok r, _, _, _⟩ => some r
  | _ => none

/-- `git add` or `git commit` failed: it answered another code than 0, or it was cut short by a raise. -/
def refused (e : Event) : Bool :=
  match e.action with
  | .git (.add _) | .git (.commit _) => e.raised || e.ran.any (·.code ≠ 0)
  | _ => false

/-- The text that was read from a file. -/
def textRead (mk : Path) : Event → Option String
  | ⟨.readText path, .ok text, _, _, _⟩ => if path = mk then some text else none
  | _ => none

/-- The text that was written to a file, and no exception. -/
def textWritten (mk : Path) : Event → Option String
  | ⟨.writeText path text, .ok _, _, _, _⟩ => if path = mk then some text else none
  | _ => none

end Event

/-- The commit of a package has failed: its file could not be added, or the commit after that. -/
def commitFailed (mk : Path) : List Event → Bool
  | [] => false
  | e :: later =>
    decide (e.action = .git (.add mk)) && (e.refused || later.head?.any Event.refused) || commitFailed mk later

def lastRead (mk : Path) (trail : List Event) : Option String := trail.reverse.findSome? (Event.textRead mk)

def lastWritten (mk : Path) (trail : List Event) : Option String := trail.reverse.findSome? (Event.textWritten mk)

/-- A stash that was saved is popped later on, and a file whose commit has failed is left with its text. -/
structure GivesBack (trail : List Event) : Prop where
  popped : Throughout (fun e later => ∀ sha, e.saves = some sha → ∃ e' ∈ later, e'.pops sha = true) trail
  left : ∀ mk, commitFailed mk trail = true → ∀ text, lastWritten mk trail = some text →
    lastRead mk trail = some text

/-! ### The steps that a run is spared -/

/-- If this is the look at the newest stash, it answers with the one whose commit is `sha`. -/
def Event.names (sha : String) : Event → Bool
  | ⟨.git .stashTop, .ok r, _, after, _⟩ =>
    r.code = 0 && (splitOnce (stripped r.out)).any fun found => resolve after found.2 = some sha
  | ⟨.git .stashTop, .error _, _, _, _⟩ => false
  | _ => true

/-- If this is the search for packages, it finds one that is asked for. -/
def Event.matches (patterns : List String) : Event → Bool
  | ⟨.rglob, .ok found, _, _, _⟩ => patterns = [] || selected patterns found ≠ []
  | _ => true

/-- What the push of the stash `sha` and the steps after it are spared. -/
structure Recoverable (patterns : List String) (sha : String) (push : Event) (later : List Event) : Prop where
  /-- The push answers 0. -/
  pushed : push.ran.map Ran.code = some 0
  /-- Its reference is found right away. -/
  named : ∀ e ∈ later, e.names sha = true
  /-- With patterns, some package matches. -/
  matched : ∀ e ∈ later, e.matches patterns = true
  /-- Nothing raises while an interruption is handled, as long as the stash was not popped. -/
  handled : HoldsUntil (fun e => (e.handling && e.raised) = false) (fun e => e.pops sha = true) later

structure Meets (patterns : List String) (trail : List Event) : Prop where
  recoverable : Throughout (fun e later => ∀ sha, e.saves = some sha → Recoverable patterns sha e later) trail
  /-- No `git add` and no `git commit` fails or is interrupted. -/
  accepted : ∀ e ∈ trail, e.refused = false

section Decide

instance decidableOfSome {o : Option String} {P : String → Prop} [∀ sha, Decidable (P sha)] :
    Decidable (∀ sha, o = some sha → P sha) :=
  match o with
  | none => .isTrue fun _ h => nomatch h
  | some sha => decidable_of_iff (P sha) ⟨fun h _ hsha => Option.some.inj hsha ▸ h, fun h => h sha rfl⟩

instance (patterns : List String) (sha : String) (push : Event) (later : List Event) :
    Decidable (Recoverable patterns sha push later) :=
  decidable_of_iff (push.ran.map Ran.code = some 0 ∧ (∀ e ∈ later, e.names sha = true) ∧
      (∀ e ∈ later, e.matches patterns = true) ∧
      HoldsUntil (fun e => (e.handling && e.raised) = false) (fun e => e.pops sha = true) later)
    ⟨fun ⟨h₁, h₂, h₃, h₄⟩ => ⟨h₁, h₂, h₃, h₄⟩, fun h => ⟨h.pushed, h.named, h.matched, h.handled⟩⟩

instance (patterns : List String) (trail : List Event) : Decidable (Meets patterns trail) :=
  decidable_of_iff (Throughout (fun e later => ∀ sha, e.saves = some sha → Recoverable patterns sha e later) trail ∧
      ∀ e ∈ trail, e.refused = false)
    ⟨fun ⟨h₁, h₂⟩ => ⟨h₁, h₂⟩, fun h => ⟨h.recoverable, h.accepted⟩⟩

end Decide

variable {patterns : List String} {sha : String} {push : Event}

/-- What a run is spared, its beginning is spared. -/
theorem Recoverable.of_append {l r : List Event} (h : Recoverable patterns sha push (l ++ r)) :
    Recoverable patterns sha push l where
  pushed := h.pushed
  named e he := h.named e (List.mem_append_left r he)
  matched e he := h.matched e (List.mem_append_left r he)
  handled := h.handled.of_append

theorem exists_refused {mk : Path} {trail : List Event} (h : commitFailed mk trail = true) :
    ∃ e ∈ trail, e.refused = true := by
  induction trail with
  | nil => exact absurd h (by simp [commitFailed])
  | cons e later ih =>
    rw [commitFailed, Bool.or_eq_true, Bool.and_eq_true, Bool.or_eq_true] at h
    rcases h with ⟨-, he | hn⟩ | h
    · exact ⟨e, by simp, he⟩
    · obtain ⟨e', he', hr⟩ := Option.any_eq_true _ _ |>.mp hn
      exact ⟨e', List.mem_cons_of_mem _ (List.mem_of_mem_head? he'), hr⟩
    · obtain ⟨e', he', hr⟩ := ih h
      exact ⟨e', List.mem_cons_of_mem _ he', hr⟩

theorem Event.pops_eq_false {e : Event} (h : e.action.quiet = true) : e.pops sha = false := by
  unfold Event.pops
  split
  · next hpop =>
    rw [hpop] at h
    exact absurd h Bool.false_ne_true
  · rfl

theorem Event.saves_eq_none {e : Event} (h : e.action.isPush = false) : e.saves = none := by
  unfold Event.saves
  split
  · next hpush _ =>
    rw [hpush] at h
    exact absurd h.symm Bool.false_ne_true
  · rfl

section Script
variable {o : Outside}

/-! ### What is owed -/

/-- A stash that a run has saved, with the trail before it. -/
structure Debt where
  patterns : List String
  old : List Event
  push : Event
  sha : String
  first : ∀ e ∈ old, e.saves = none
  saves : push.saves = some sha

namespace Debt
variable (d : Debt)

/-- `Q` of the events since the push, if they are spared what they have to be. -/
def Since (Q : List Event → Prop) (s : State) : Prop :=
  ∃ later, s.trail = d.old ++ d.push :: later ∧ (∀ e ∈ later, e.action.isPush = false) ∧
    (Recoverable d.patterns d.sha d.push later → Q later)

/-- Nothing was popped yet, and the script knows what to pop. -/
structure Holds (s : State) (later : List Event) : Prop where
  kept : ∀ e ∈ later, e.pops d.sha = false
  dryRun : s.dryRun = false
  held : ∃ ref, s.heldStash = some ref ∧ resolve s.stashes ref = some d.sha

def Popped (later : List Event) : Prop := ∃ e ∈ later, e.pops d.sha = true

def Paid (s : State) : Prop := d.Since d.Popped s

def Owes (s : State) : Prop := d.Since (fun later => d.Popped later ∨ d.Holds s later) s

variable {d}

theorem trail_record {a : Action} {s : State} {later : List Event} (ht : s.trail = d.old ++ d.push :: later) :
    (o.record a s).trail = d.old ++ d.push :: (later ++ [o.event a s]) := by
  show s.trail ++ _ = _
  rw [ht, List.append_assoc, List.cons_append]

theorem isPush_record {a : Action} {s : State} {later : List Event} (hp : ∀ e ∈ later, e.action.isPush = false)
    (ha : a.isPush = false) : ∀ e ∈ later ++ [o.event a s], e.action.isPush = false :=
  fun e he => (List.mem_append.mp he).elim (hp e) fun he => by rw [List.mem_singleton.mp he]; exact ha

/-- A debt whose push was not spared what it has to be. -/
theorem owes_of_not {s : State} {later : List Event} (ht : s.trail = d.old ++ d.push :: later)
    (hp : ∀ e ∈ later, e.action.isPush = false) (hno : ¬ Recoverable d.patterns d.sha d.push later) : d.Owes s :=
  ⟨later, ht, hp, fun hr => absurd hr hno⟩

theorem Paid.owes {s : State} (h : d.Paid s) : d.Owes s := by
  obtain ⟨later, ht, hp, hq⟩ := h
  exact ⟨later, ht, hp, fun hr => .inl (hq hr)⟩

/-- What is paid stays so. -/
theorem Paid.extends {s s' : State} (h : d.Paid s) (hs : Extends s s') : d.Paid s' := by
  obtain ⟨later, ht, hp, hq⟩ := h
  obtain ⟨more, hmore, hpush⟩ := hs
  refine ⟨later ++ more, by rw [hmore, ht, List.append_assoc, List.cons_append], ?_, fun hr => ?_⟩
  · exact fun e he => (List.mem_append.mp he).elim (hp e) (hpush e)
  · obtain ⟨e, he, hpop⟩ := hq hr.of_append
    exact ⟨e, List.mem_append_left more he, hpop⟩

/-- A debt is carried through what leaves the stashes alone. -/
theorem Owes.quiet {s s' : State} (h : d.Owes s) (hs : Quiet s s') : d.Owes s' := by
  obtain ⟨later, ht, hp, hq⟩ := h
  obtain ⟨more, hmore, hquiet⟩ := hs.trail
  refine ⟨later ++ more, by rw [hmore, ht, List.append_assoc, List.cons_append], ?_, fun hr => ?_⟩
  · exact fun e he => (List.mem_append.mp he).elim (hp e) fun he => Action.isPush_eq_false (hquiet e he)
  rcases hq hr.of_append with ⟨e, he, hpop⟩ | hold
  · exact .inl ⟨e, List.mem_append_left more he, hpop⟩
  · have hheld : s'.heldStash = s.heldStash := congrArg (Option.filter _) hs.stashRef
    refine .inr ⟨fun e he => ?_, hs.dryRun.trans hold.dryRun, by rw [hheld, hs.stashes]; exact hold.held⟩
    exact (List.mem_append.mp he).elim (hold.kept e) fun he => Event.pops_eq_false (hquiet e he)

/-- The `stash pop` of what is held pays. -/
theorem Owes.pop {s : State} {ref : String} (h : d.Owes s) (href : s.heldStash = some ref) :
    d.Paid (o.record (.git (.stashPop ref)) s) := by
  obtain ⟨later, ht, hp, hq⟩ := h
  refine ⟨later ++ [o.event (.git (.stashPop ref)) s], trail_record ht, isPush_record hp rfl, fun hr => ?_⟩
  rcases hq hr.of_append with ⟨e, he, hpop⟩ | hold
  · exact ⟨e, List.mem_append_left _ he, hpop⟩
  · obtain ⟨ref', href', hsha⟩ := hold.held
    obtain rfl : ref' = ref := Option.some.inj (href'.symm.trans href)
    exact ⟨_, List.mem_append_right _ (List.mem_singleton.mpr rfl), decide_eq_true hsha⟩

/-- Nothing is held: what was owed is paid, or the run was not spared. -/
theorem Owes.paid_of_none {s : State} (h : d.Owes s) (hnone : s.dryRun = true ∨ s.heldStash = none) : d.Paid s := by
  obtain ⟨later, ht, hp, hq⟩ := h
  refine ⟨later, ht, hp, fun hr => (hq hr).elim id fun hold => ?_⟩
  obtain ⟨ref, href, -⟩ := hold.held
  rcases hnone with hdry | hnone
  · exact absurd (hdry.symm.trans hold.dryRun) (by decide)
  · exact absurd (hnone.symm.trans href) (by simp)

/-- A run that raised while it handled an interruption was not spared, unless the stash was popped before. -/
theorem Owes.raised {s s' : State} {init : List Event} {e : Event} (h : d.Owes s)
    (htrail : s'.trail = s.trail ++ (init ++ [e])) (hquiet : ∀ x ∈ init ++ [e], x.action.quiet = true)
    (he : (e.handling && e.raised) = true) : d.Paid s' := by
  obtain ⟨later, ht, hp, hq⟩ := h
  refine ⟨later ++ (init ++ [e]), by rw [htrail, ht, List.append_assoc, List.cons_append], ?_, fun hr => ?_⟩
  · exact fun x hx => (List.mem_append.mp hx).elim (hp x) fun hx => Action.isPush_eq_false (hquiet x hx)
  rcases hq hr.of_append with ⟨x, hx, hpop⟩ | hold
  · exact ⟨x, List.mem_append_left _ hx, hpop⟩
  · have hpops : ∀ x ∈ later ++ init, ¬ x.pops d.sha = true := by
      intro x hx
      rw [Bool.not_eq_true]
      exact (List.mem_append.mp hx).elim (hold.kept x) fun hx =>
        Event.pops_eq_false (hquiet x (List.mem_append_left _ hx))
    have hlast := hr.handled
    rw [← List.append_assoc] at hlast
    rcases hlast.next hpops with hpop | hno
    · exact absurd hpop (by rw [Event.pops_eq_false (hquiet e (by simp))]; decide)
    · exact absurd (he.symm.trans hno) (by decide)

end Debt

/-! ### Messages while an interruption is handled -/

/-- A quiet script in which it is the last action that has raised. -/
def Message {α : Type} (m : Script α) : Prop :=
  ∀ s, Ends m s (fun _ s' => Quiet s s') fun _ s' => Quiet s s' ∧
    ∃ init e, s'.trail = s.trail ++ (init ++ [e]) ∧ (∀ x ∈ init ++ [e], x.action.quiet = true) ∧
      e.handling = s.handling ∧ e.raised = true

theorem act_message {a : Action} (ha : a.quiet = true) : Message (act o a) := by
  intro s
  refine (act_ends a s).mono (fun r s' h => ?_) fun e s' h => ?_
  · rw [h.1]
    exact record_quiet ha s
  · rw [h.1]
    refine ⟨record_quiet ha s, [], o.event a s, rfl, fun x hx => ?_, rfl, ?_⟩
    · rw [List.mem_singleton.mp hx]
      exact ha
    · have hanswer : (o.event a s).answer = .error e := h.2
      rw [Event.raised, hanswer]

theorem logInfo_message (msg : String) : Message (logInfo o msg) := by
  intro s
  refine Ends.bind (Ends.get (Q := fun a s' => s' = s) rfl) fun a s' hs => ?_
  rw [hs]
  exact .ite (fun _ => act_message rfl s) fun _ => Ends.pure (Quiet.refl s)

/-- A message does not lose a debt; when it raises in the handling of an interruption, nothing is owed. -/
theorem Debt.Owes.message {d : Debt} {α : Type} {m : Script α} (hm : Message m) {s : State} (h : d.Owes s) :
    Ends m s (fun _ s' => Quiet s s') fun _ s' => d.Owes s' ∧ (s.handling = true → d.Paid s') := by
  refine (hm s).mono (fun _ _ => id) fun e s' ⟨hquiet, init, e', htrail, hq, hhandling, hraised⟩ => ?_
  refine ⟨h.quiet hquiet, fun hs => h.raised htrail hq ?_⟩
  rw [hhandling, hs, hraised]
  rfl

/-! ### Paying -/

section Run
variable {d : Debt}

theorem popStash_pays {s : State} {ref : String} (h : d.Owes s) (href : s.heldStash = some ref) :
    Ends (popStash o ref) s (fun _ s' => d.Paid s') fun _ s' => d.Owes s' ∧ (s.handling = true → d.Paid s') := by
  refine Ends.bind (Q := fun _ s' => Quiet s s') (h.message (logInfo_message _)) fun _ s₁ hs₁ => ?_
  have hpop : d.Paid (o.record (.git (.stashPop ref)) s₁) :=
    (h.quiet hs₁).pop (congrArg (Option.filter _) hs₁.stashRef |>.trans href)
  refine Ends.bind (Q := fun _ s' => d.Paid s') ((act_ends _ s₁).mono (fun _ s₂ hs₂ => ?_) fun _ s₂ hs₂ => ?_)
    fun r s₂ hs₂ => ?_
  · exact hs₂.1 ▸ hpop
  · exact ⟨(hs₂.1 ▸ hpop).owes, fun _ => hs₂.1 ▸ hpop⟩
  · exact (Ends.carried (finishPop_extends o ref r) fun _ => hs₂.extends).mono (fun _ _ => id)
      fun _ _ hpaid => ⟨hpaid.owes, fun _ => hpaid⟩

/-- Putting the changes back pays what is owed, unless it raises; in the handling of an interruption always. -/
theorem restoreStashedChanges_pays {s : State} (h : d.Owes s) :
    Ends (restoreStashedChanges o) s (fun _ s' => d.Paid s')
      fun _ s' => d.Owes s' ∧ (s.handling = true → d.Paid s') := by
  refine Ends.bind (Ends.get (Q := fun a s' => a = s ∧ s' = s) ⟨rfl, rfl⟩) fun a s' ⟨ha, hs⟩ => ?_
  rw [ha, hs]
  split
  · next hnone =>
    have hpaid := h.paid_of_none (.inr hnone)
    have hrest : Along Quiet (do logDebug o "No stashed changes to restore"; pure true) :=
      (logDebug_quiet o _).bind fun _ => .pure _
    exact (Ends.carried (extends_of_quiet hrest) fun _ => hpaid.extends).mono (fun _ _ => id)
      fun _ _ h => ⟨h.owes, fun _ => h⟩
  · next ref href => exact popStash_pays h href

theorem rescue_pays {s : State} (h : d.Owes s) (hs : s.handling = true) :
    Ends (rescue o) s (fun _ s' => d.Paid s') fun _ s' => d.Paid s' := by
  refine Ends.bind (Ends.get (Q := fun a s' => a = s ∧ s' = s) ⟨rfl, rfl⟩) fun a s' ⟨ha, hs'⟩ => ?_
  rw [ha, hs']
  refine .ite (fun _ => ?_) fun hno => Ends.pure (h.paid_of_none ?_)
  · refine Ends.bind (Q := fun _ s' => Quiet s s') ((h.message (logInfo_message _)).mono (fun _ _ => id)
      fun _ _ hr => hr.2 hs) fun _ s₁ hs₁ => ?_
    have hs₁' : s₁.handling = true := hs₁.handling.trans hs
    exact Ends.bind (Q := fun _ s' => d.Paid s') ((restoreStashedChanges_pays (h.quiet hs₁)).mono (fun _ _ => id)
      fun _ _ hr => hr.2 hs₁') fun _ s₂ hs₂ => Ends.pure hs₂
  · rcases Bool.eq_false_or_eq_true s.dryRun with hdry | hdry
    · exact .inl hdry
    · exact .inr (not_not.mp fun hheld => hno ⟨hdry, hheld⟩)

theorem handle_pays (e : Raise) {s : State} (h : d.Owes s) :
    Ends (handle o e) s (fun _ s' => d.Paid s') fun _ s' => d.Paid s' := by
  have hstart : d.Owes { s with handling := true } := by
    obtain ⟨later, ht, hp, hq⟩ := h
    exact ⟨later, ht, hp, fun hr => (hq hr).imp_right fun hold => ⟨hold.kept, hold.dryRun, hold.held⟩⟩
  refine Ends.bind (Ends.modify (Q := fun _ s' => d.Owes s' ∧ s'.handling = true) ⟨hstart, rfl⟩)
    fun _ s₁ ⟨h₁, hs₁⟩ => ?_
  -- each line that is printed may be the last thing that happens
  have hprint : ∀ {s : State} (_ : d.Owes s ∧ s.handling = true) (line : String),
      Ends (act o (.eprint line)) s (fun _ s' => d.Owes s' ∧ s'.handling = true) fun _ s' => d.Paid s' :=
    fun ⟨hs, hh⟩ line => (hs.message (act_message rfl)).mono
      (fun _ _ hq => ⟨hs.quiet hq, hq.handling.trans hh⟩) fun _ _ hr => hr.2 hh
  cases e with
  | keyboardInterrupt =>
    refine Ends.bind (hprint ⟨h₁, hs₁⟩ "") fun _ s₂ h₂ => Ends.bind (hprint h₂ _) fun _ s₃ h₃ => ?_
    exact Ends.bind (rescue_pays h₃.1 h₃.2) fun _ s₄ h₄ => Ends.pure h₄
  | exception e =>
    refine Ends.bind (hprint ⟨h₁, hs₁⟩ _) fun _ s₂ h₂ => ?_
    exact Ends.bind (rescue_pays h₂.1 h₂.2) fun _ s₃ h₃ => Ends.pure h₃

theorem scan_pays (mks : List Path) {s : State} (h : d.Owes s) :
    Ends (scan o mks) s (fun _ s' => d.Paid s') fun _ s' => d.Owes s' := by
  refine Ends.bind (Ends.carried (Along.forM (examine_quiet o) _) fun _ => h.quiet) fun _ s₁ h₁ => ?_
  refine Ends.bind (Ends.carried (printSummary_quiet o) fun _ => h₁.quiet) fun _ s₂ h₂ => ?_
  refine Ends.bind (Ends.carried (logResult_quiet o) fun _ => h₂.quiet) fun _ s₃ h₃ => ?_
  refine Ends.bind (Ends.get (Q := fun a s' => a = s₃ ∧ s' = s₃) ⟨rfl, rfl⟩) fun a s' ⟨ha, hs⟩ => ?_
  rw [ha, hs]
  refine .ite (fun hdry => Ends.pure (h₃.paid_of_none (.inl hdry))) fun _ => ?_
  refine Ends.bind ((restoreStashedChanges_pays h₃).mono (fun _ _ => id) fun _ _ hr => hr.1) fun ok s₄ h₄ => ?_
  refine .ite (fun _ => Ends.pure h₄) fun _ => ?_
  have hwarn : Along Quiet (do logWarn o "Failed to restore stashed changes - please check manually"; pure (1 : Int)) :=
    (logWarn_quiet o _).bind fun _ => .pure _
  exact (Ends.carried (extends_of_quiet hwarn) fun _ => h₄.extends).mono (fun _ _ => id) fun _ _ => Debt.Paid.owes

theorem matches_rglob {s : State} {found : List Path} (h : o.answer s.trail.length .rglob = .ok found) :
    (o.event .rglob s).matches patterns = (patterns = [] || selected patterns found ≠ []) := by
  unfold Outside.event
  rw [h]
  rfl

/-- Where no package is asked for, the run is not one that is spared. -/
theorem findAndScan_pays {s : State} (h : d.Owes s) :
    Ends (findAndScan o d.patterns) s (fun _ s' => d.Paid s') fun _ s' => d.Owes s' := by
  refine Ends.bind (Q := fun found s' => d.Owes s' ∧ (d.patterns ≠ [] ∧ selected d.patterns found = [] → d.Paid s'))
    ((act_ends _ s).mono (fun found s₁ hs₁ => ?_) fun _ s₁ hs₁ => ?_) fun found s₁ ⟨h₁, hnone⟩ => ?_
  · rw [hs₁.1]
    refine ⟨h.quiet (record_quiet rfl s), fun hno => ?_⟩
    obtain ⟨later, ht, hp, -⟩ := h
    refine ⟨later ++ [o.event .rglob s], Debt.trail_record ht, Debt.isPush_record hp rfl, fun hr => ?_⟩
    have hmatch := hr.matched (o.event .rglob s) (List.mem_append_right _ (List.mem_singleton.mpr rfl))
    rw [matches_rglob hs₁.2] at hmatch
    exact absurd hmatch (by simp [hno])
  · rw [hs₁.1]
    exact h.quiet (record_quiet rfl s)
  · refine .ite (fun hno => ?_) fun _ => scan_pays _ h₁
    have hpaid := hnone hno
    have herr : Along Quiet (do
        logError o ("No packages matched patterns: " ++ " ".intercalate d.patterns)
        pure (1 : Int)) := (logError_quiet o _).bind fun _ => .pure _
    exact (Ends.carried (extends_of_quiet herr) fun _ => hpaid.extends).mono (fun _ _ => id) fun _ _ => Debt.Paid.owes

/-! ### The push -/

theorem ne_empty_of_resolve {stashes : List String} {ref commit : String} (h : resolve stashes ref = some commit) :
    ref ≠ "" := by
  obtain ⟨i, hi, -⟩ := Option.bind_eq_some_iff.mp h
  have href : ref = stashName i := of_decide_eq_true (List.find?_some (p := fun i => ref = stashName i) hi)
  rintro rfl
  exact absurd (congrArg String.toList href) (by simp [stashName])

theorem names_stashTop_ok {s : State} {r : Ran} (h : o.answer s.trail.length (.git .stashTop) = .ok r) :
    (o.event (.git .stashTop) s).names sha = (r.code = 0 && (splitOnce (stripped r.out)).any fun found =>
      resolve (o.record (.git .stashTop) s).stashes found.2 = some sha) := by
  unfold Outside.event
  rw [h]
  rfl

theorem names_stashTop_error {s : State} {e : Raise} (h : o.answer s.trail.length (.git .stashTop) = .error e) :
    (o.event (.git .stashTop) s).names sha = false := by
  unfold Outside.event
  rw [h]
  rfl

/-- Right after the push and the look at the newest stash: if that did not name it, the run was not spared. -/
theorem Debt.owes_unnamed {s : State} (ht : s.trail = d.old ++ [d.push])
    (hno : (o.event (.git .stashTop) s).names d.sha = false) : d.Owes (o.record (.git .stashTop) s) := by
  refine owes_of_not (trail_record ht) (isPush_record (List.forall_mem_nil _) rfl) fun hr => ?_
  have hnamed := hr.named (o.event (.git .stashTop) s) (List.mem_singleton.mpr rfl)
  exact absurd (hnamed.symm.trans hno) (by decide)

/-- The reference that was found is held from then on. -/
theorem Debt.owes_named {s : State} {r : Ran} {commit ref : String} (ht : s.trail = d.old ++ [d.push])
    (hdry : s.dryRun = false) (hr : o.answer s.trail.length (.git .stashTop) = .ok r)
    (hsplit : splitOnce (stripped r.out) = some (commit, ref)) :
    d.Owes { o.record (.git .stashTop) s with stashSha := some commit, stashRef := some ref } := by
  refine ⟨[o.event (.git .stashTop) s], trail_record ht, isPush_record (List.forall_mem_nil _) rfl, fun hrec => .inr ?_⟩
  have hnamed := hrec.named (o.event (.git .stashTop) s) (List.mem_singleton.mpr rfl)
  rw [names_stashTop_ok hr, hsplit, Bool.and_eq_true] at hnamed
  have hfound : resolve (o.record (.git .stashTop) s).stashes ref = some d.sha := of_decide_eq_true hnamed.2
  have href : ref ≠ "" := ne_empty_of_resolve hfound
  refine ⟨fun e he => ?_, hdry, ref, ?_, hfound⟩
  · rw [List.mem_singleton.mp he]
    rfl
  · simp [State.heldStash, href]

/-- After the push: the reference is found, or this was not spared. -/
theorem recordStash_owes {s : State} (ht : s.trail = d.old ++ [d.push]) (hdry : s.dryRun = false) :
    Ends (recordStash o) s (fun _ s' => d.Owes s') fun _ s' => d.Owes s' := by
  refine Ends.bind ((act_ends _ s).mono (fun _ _ => id) fun _ s₁ hs₁ => ?_) fun r s₁ ⟨hs₁, hr⟩ => ?_
  · rw [hs₁.1]
    exact Debt.owes_unnamed ht (names_stashTop_error hs₁.2)
  rw [hs₁]
  have hbad : ∀ msg, (o.event (.git .stashTop) s).names d.sha = false → Ends (do logError o msg; pure none)
      (o.record (.git .stashTop) s) (fun (_ : Option String) s' => d.Owes s') fun _ s' => d.Owes s' :=
    fun msg hno => Ends.carried ((logError_quiet o msg).bind fun _ => .pure _) fun _ =>
      (Debt.owes_unnamed ht hno).quiet
  refine .ite (fun hempty => hbad _ ?_) fun _ => ?_
  · have hnone : splitOnce "" = none := rfl
    rw [names_stashTop_ok hr]
    rcases hempty with hcode | hout
    · simp [hcode]
    · simp [hout, hnone]
  split
  · next hsplit =>
    refine hbad _ ?_
    rw [names_stashTop_ok hr, hsplit]
    simp
  · next commit ref hsplit =>
    refine Ends.bind (Ends.modify (Q := fun _ s' => d.Owes s') (Debt.owes_named ht hdry hr hsplit)) fun _ s₂ hs₂ => ?_
    have hdone : Along Quiet (do
        logSuccess o ("Successfully stashed changes with reference: " ++ ref)
        pure (some ref)) := (logSuccess_quiet o _).bind fun _ => .pure _
    exact Ends.carried hdone fun _ => hs₂.quiet

/-! ### The whole run -/

/-- No stash was saved. -/
def NoStash (s : State) : Prop := ∀ e ∈ s.trail, e.saves = none

theorem NoStash.extends {s s' : State} (h : NoStash s) (hs : Extends s s') : NoStash s' := by
  obtain ⟨more, hmore, hp⟩ := hs
  intro e he
  rw [hmore] at he
  exact (List.mem_append.mp he).elim (h e) fun he => Event.saves_eq_none (hp e he)

/-- Nothing was saved, or what was saved is owed. -/
def Owing (patterns : List String) (s : State) : Prop :=
  NoStash s ∨ ∃ d : Debt, d.patterns = patterns ∧ d.Owes s

/-- Nothing was saved, or what was saved is paid. -/
def Settled (patterns : List String) (s : State) : Prop :=
  NoStash s ∨ ∃ d : Debt, d.patterns = patterns ∧ d.Paid s

theorem Owing.quiet {s s' : State} (h : Owing patterns s) (hs : Quiet s s') : Owing patterns s' :=
  h.imp (·.extends hs.extends) fun ⟨d, hd, h⟩ => ⟨d, hd, h.quiet hs⟩

theorem ran_event_ok {c : Git} {s : State} {r : Ran} (h : o.answer s.trail.length (.git c) = .ok r) :
    (o.event (.git c) s).ran = some r := by
  unfold Outside.event
  rw [h]
  rfl

theorem ran_event_error {c : Git} {s : State} {e : Raise} (h : o.answer s.trail.length (.git c) = .error e) :
    (o.event (.git c) s).ran = none := by
  unfold Outside.event
  rw [h]
  rfl

theorem saves_event (message : String) (s : State) :
    (o.event (.git (.stashPush message)) s).saves = o.saved s.trail.length := by
  unfold Outside.event Event.saves Outside.stashes
  cases o.saved s.trail.length with
  | none => cases s.stashes <;> simp
  | some sha => simp

/-- A push that has saved a stash is a debt from then on; with another answer than 0 it was not spared that. -/
theorem push_owing (patterns : List String) (message : String) {s : State} (hno : NoStash s)
    (hdry : s.dryRun = false) :
    Ends (git o (.stashPush message)) s
      (fun r s' => s'.dryRun = false ∧ (r.code ≠ 0 → Owing patterns s') ∧
        (NoStash s' ∨ ∃ d : Debt, d.patterns = patterns ∧ s'.trail = d.old ++ [d.push]))
      fun _ s' => Owing patterns s' := by
  have hsaves := saves_event (o := o) message s
  cases hsaved : o.saved s.trail.length with
  | none =>
    have hnone : NoStash (o.record (.git (.stashPush message)) s) := fun e he =>
      (List.mem_append.mp he).elim (hno e) fun he => by rw [List.mem_singleton.mp he, hsaves, hsaved]
    exact (act_ends _ s).mono (fun r _ hs => hs.1 ▸ ⟨hdry, fun _ => .inl hnone, .inl hnone⟩)
      fun _ _ hs => hs.1 ▸ .inl hnone
  | some sha =>
    let d : Debt := ⟨patterns, s.trail, o.event (.git (.stashPush message)) s, sha, hno, hsaves.trans hsaved⟩
    have htrail : (o.record (.git (.stashPush message)) s).trail = d.old ++ d.push :: [] := rfl
    refine (act_ends _ s).mono (fun r _ hs => ?_) fun _ _ hs => ?_
    all_goals rw [hs.1]
    · refine ⟨hdry, fun hcode => .inr ⟨d, rfl, Debt.owes_of_not htrail (by simp) fun hr => ?_⟩, .inr ⟨d, rfl, htrail⟩⟩
      have hpushed := hr.pushed
      rw [ran_event_ok hs.2] at hpushed
      exact hcode (Option.some.inj hpushed)
    · refine .inr ⟨d, rfl, Debt.owes_of_not htrail (by simp) fun hr => ?_⟩
      have hpushed := hr.pushed
      rw [ran_event_error hs.2] at hpushed
      exact absurd hpushed (by simp)

theorem stashUncommittedChanges_owing (patterns : List String) {s : State} (hno : NoStash s)
    (hdry : s.dryRun = false) :
    Ends (stashUncommittedChanges o) s (fun _ s' => Owing patterns s') fun _ s' => Owing patterns s' := by
  have hquiet : ∀ {α : Type} {m : Script α} {s : State}, Along Quiet m → NoStash s ∧ s.dryRun = false →
      Ends m s (fun _ s' => NoStash s' ∧ s'.dryRun = false) fun _ s' => Owing patterns s' := fun hm hs =>
    (Ends.carried hm fun _ hq => And.intro (hs.1.extends hq.extends) (hq.dryRun.trans hs.2)).mono (fun _ _ => id)
      fun _ _ h => .inl h.1
  refine Ends.bind (hquiet (checkGitWorkingDirectory_quiet o) ⟨hno, hdry⟩) fun clean s₁ h₁ =>
    .ite (fun _ => ?_) fun _ => ?_
  · have hclean : Along Quiet (do logDebug o "No uncommitted changes to stash"; pure (none : Option String)) :=
      (logDebug_quiet o _).bind fun _ => .pure _
    exact Ends.carried (extends_of_quiet hclean) fun _ hs => .inl (h₁.1.extends hs)
  refine Ends.bind (hquiet (logInfo_quiet o _) h₁) fun _ s₂ h₂ => ?_
  refine Ends.bind (hquiet (act_quiet rfl) h₂) fun date s₃ h₃ => ?_
  refine Ends.bind (push_owing patterns _ h₃.1 h₃.2) fun r s₄ ⟨hdry₄, hbad, hpush⟩ => .ite (fun hcode => ?_) fun _ => ?_
  · have hfailed : Along Quiet (do
        logError o ("Failed to stash uncommitted changes: " ++ r.err)
        pure (none : Option String)) := (logError_quiet o _).bind fun _ => .pure _
    exact Ends.carried hfailed fun _ => (hbad hcode).quiet
  rcases hpush with hno₄ | ⟨d, hd, htrail⟩
  · exact Ends.carried (recordStash_extends o) fun _ hs => .inl (hno₄.extends hs)
  · exact (recordStash_owes htrail hdry₄).mono (fun _ _ h => .inr ⟨d, hd, h⟩) fun _ _ h => .inr ⟨d, hd, h⟩

theorem findAndScan_settles {s : State} (h : Owing patterns s) :
    Ends (findAndScan o patterns) s (fun _ s' => Settled patterns s') fun _ s' => Owing patterns s' := by
  rcases h with hno | ⟨d, rfl, h⟩
  · exact (Ends.carried (findAndScan_extends o patterns) fun _ => hno.extends).mono (fun _ _ => .inl) fun _ _ => .inl
  · exact (findAndScan_pays h).mono (fun _ _ hs => .inr ⟨d, rfl, hs⟩) fun _ _ hs => .inr ⟨d, rfl, hs⟩

theorem handle_settles (e : Raise) {s : State} (h : Owing patterns s) :
    Ends (handle o e) s (fun _ s' => Settled patterns s') fun _ s' => Settled patterns s' := by
  rcases h with hno | ⟨d, rfl, h⟩
  · exact (Ends.carried (handle_extends o e) fun _ => hno.extends).mono (fun _ _ => .inl) fun _ _ => .inl
  · exact (handle_pays e h).mono (fun _ _ hs => .inr ⟨d, rfl, hs⟩) fun _ _ hs => .inr ⟨d, rfl, hs⟩

theorem main_settles (args : Args) {s : State} (hno : NoStash s) :
    Ends (main o args) s (fun _ s' => Settled args.patterns s') fun _ s' => Owing args.patterns s' := by
  refine Ends.bind ((Ends.carried (prepare_extends o args) fun _ => hno.extends).mono (fun _ _ => id)
    fun _ _ => .inl) fun go s₁ h₁ => ?_
  refine .ite (fun _ => ?_) fun _ => Ends.pure (.inl h₁)
  refine Ends.bind (Ends.get (Q := fun a s' => a = s₁ ∧ s' = s₁) ⟨rfl, rfl⟩) fun a s' ⟨ha, hs⟩ => ?_
  rw [ha, hs]
  refine .ite (fun _ => findAndScan_settles (.inl h₁)) fun hdry => ?_
  exact Ends.bind (stashUncommittedChanges_owing args.patterns h₁ (Bool.not_eq_true _ ▸ hdry))
    fun _ s₂ h₂ => findAndScan_settles h₂

end Run

/-- The patterns of a command line. -/
def patternsOf : Except Int Args → List String
  | .ok args => args.patterns
  | .error _ => []

theorem script_settles (args : Except Int Args) {s : State} (hno : NoStash s) :
    Ends (script o args) s (fun _ s' => Settled (patternsOf args) s') fun _ s' => Settled (patternsOf args) s' := by
  cases args with
  | ok args => exact Ends.tryCatch (main_settles args hno) fun e s' h => handle_settles e h
  | error code =>
    have hparse : Along Extends (do act o .parseArgs; pure code) := (act_extends rfl).bind fun _ => .pure _
    exact Ends.tryCatch ((Ends.carried hparse fun _ => hno.extends).mono (fun _ _ => .inl) fun _ _ => .inl)
      fun e s' h => handle_settles e h

theorem Settled.popped {patterns : List String} {s : State} (h : Settled patterns s)
    (hr : Throughout (fun e later => ∀ sha, e.saves = some sha → Recoverable patterns sha e later) s.trail) :
    Throughout (fun e later => ∀ sha, e.saves = some sha → ∃ e' ∈ later, e'.pops sha = true) s.trail := by
  rcases h with hno | ⟨d, rfl, later, ht, hp, hq⟩
  · exact throughout_of_forall fun e he _ sha hsha => absurd (hsha.symm.trans (hno e he)) (by simp)
  -- the push is the only event that saves, so it is the only one that counts
  have hfree : ∀ {P : Event → List Event → String → Prop}, Throughout (fun e later => ∀ sha, e.saves = some sha →
      P e later sha) s.trail ↔ ∀ sha, d.push.saves = some sha → P d.push later sha := by
    intro P
    rw [ht]
    refine throughout_append_cons (fun e he _ sha hsha => ?_) fun e he _ sha hsha => ?_
    · exact absurd (hsha.symm.trans (d.first e he)) (by simp)
    · exact absurd (hsha.symm.trans (Event.saves_eq_none (hp e he))) (by simp)
  rw [hfree] at hr ⊢
  intro sha hsha
  obtain rfl : d.sha = sha := Option.some.inj (d.saves.symm.trans hsha)
  exact hq (hr _ d.saves)

/-- A run whose steps are all spared gives back what it has taken. -/
theorem run_gives_back (o : Outside) (args : Except Int Args) (stashes : List String)
    (h : Meets (patternsOf args) (run o args stashes)) : GivesBack (run o args stashes) where
  popped := by
    have hstart : NoStash (State.start stashes) := fun e he => absurd he (by simp [State.start])
    have hend := script_settles (o := o) args hstart
    have hsettled : Settled (patternsOf args) (finalState (script o args (State.start stashes))) := by
      unfold Ends at hend
      cases hrun : script o args (State.start stashes) <;> rw [hrun] at hend <;> exact hend
    exact hsettled.popped h.recoverable
  left mk hfailed := by
    obtain ⟨e, he, hrefused⟩ := exists_refused hfailed
    exact absurd (hrefused.symm.trans (h.accepted e he)) (by decide)

/-- Changes on the developer's desk, one package with an update, and git's answer to its commit. -/
def desk (commit : Int) : Outside where
  projectRoot := "/src"
  answer _ a :=
    match a with
    | .isDir => .ok true
    | .rglob => .ok [["package", "wifi", "wifi.mk"]]
    | .date => .ok "2025-01-01 12:00:00"
    | .git .diffCached => .ok ⟨1, "", ""⟩
    | .git .stashTop => .ok ⟨0, "5f1e0c2 stash@\x7b0\x7d", ""⟩
    | .git (.commit _) => .ok ⟨commit, "", ""⟩
    | .git _ => .ok ⟨0, "", ""⟩
    | .parseMkFile _ => .ok (some ⟨"wifi", "https://git/wifi", "HEAD", "1a2b3c4"⟩)
    | .getRemoteHash _ _ => .ok (some "9f8e7d6")
    | .getCommitLog _ _ _ _ => .ok []
    | .promptYesNo _ _ _ => .ok true
    | .readText _ => .ok "WIFI_VERSION = 1a2b3c4\n"
    | .writeText _ _ => .ok ()
    | .parseArgs => .ok ()
    | .eprint _ => .ok ()
    | .print _ => .ok ()
    | .flush => .ok ()
  saved _ := some "5f1e0c2"
  popped _ := true

theorem run_gives_back_desk : GivesBack (run (desk 0) (.ok ⟨["wi*"], false, false⟩) []) :=
  run_gives_back (desk 0) (.ok ⟨["wi*"], false, false⟩) [] (by decide +kernel)

/-- Nothing matches: the run is over with the changes in the stash. A commit is refused: the file is left with the
new hash. -/
theorem work_not_given_back : ¬ GivesBack (run (desk 0) (.ok ⟨["usb-*"], false, false⟩) []) ∧
    ¬ GivesBack (run (desk 1) (.ok ⟨[], false, false⟩) []) := by
  constructor
  · intro h
    exact absurd h.popped (by decide +kernel)
  · intro h
    have hleft := h.left ["package", "wifi", "wifi.mk"] (by decide +kernel) "WIFI_VERSION = 9f8e7d6\n"
      (by decide +kernel)
    exact absurd hleft (by decide +kernel)

end Script

end Thingino.Scripts.UpdatePackages
