import Thingino.Scripts.StashReturn

/-! What a refused commit of `update_packages.py` leaves behind.

The new text is in the file before `git add`, and nothing after that writes to it. -/
namespace Thingino.Scripts.UpdatePackages
open Lib

section Left
variable {o : Outside} (mk : Path)

/-- More of the trail, with nothing read from the file and nothing written to it. -/
def Apart (s s' : State) : Prop :=
  ∃ more, s'.trail = s.trail ++ more ∧ ∀ e ∈ more, e.textRead mk = none ∧ e.textWritten mk = none

instance : Std.Refl (Apart mk) := ⟨fun s => ⟨[], (List.append_nil _).symm, by simp⟩⟩

instance : IsTrans State (Apart mk) := ⟨fun s s' s'' ⟨more, hmore, h⟩ ⟨more', hmore', h'⟩ => by
  refine ⟨more ++ more', by rw [hmore', hmore, List.append_assoc], fun e he => ?_⟩
  exact (List.mem_append.mp he).elim (h e) (h' e)⟩

variable {mk}

theorem findSome?_reverse_append {f : Event → Option String} {l more : List Event} (h : ∀ e ∈ more, f e = none) :
    (l ++ more).reverse.findSome? f = l.reverse.findSome? f := by
  rw [List.reverse_append, List.findSome?_append, List.findSome?_eq_none_iff.mpr]
  · rfl
  · exact fun e he => h e (List.mem_reverse.mp he)

theorem Apart.texts {s s' : State} (h : Apart mk s s') :
    lastRead mk s'.trail = lastRead mk s.trail ∧ lastWritten mk s'.trail = lastWritten mk s.trail := by
  obtain ⟨more, hmore, h⟩ := h
  rw [hmore]
  exact ⟨findSome?_reverse_append fun e he => (h e he).1, findSome?_reverse_append fun e he => (h e he).2⟩

/-- Whether an action is about the text of a file. -/
def Action.isText : Action → Bool
  | .readText _ | .writeText _ _ => true
  | _ => false

theorem act_apart {a : Action} (ha : a.isText = false) : Along (Apart mk) (act o a) := by
  intro s
  have hs : Apart mk s (o.record a s) := by
    refine ⟨_, rfl, fun e he => ?_⟩
    rw [List.mem_singleton.mp he]
    unfold Outside.event Event.textRead Event.textWritten
    cases a <;> first | exact ⟨rfl, rfl⟩ | exact absurd ha (by simp [Action.isText])
  have h := act_ends (o := o) a s
  unfold Ends at h
  cases hr : act o a s <;> rw [hr] at h <;> exact h.1 ▸ hs

/-- What stands in the place of the old hash is another one. -/
theorem matchVersion_ne {key oldHash newHash : String} (hne : newHash ≠ oldHash) {text new : Text}
    (h : matchVersion key oldHash newHash text = some new) : new ≠ text := by
  unfold matchVersion at h
  dsimp only at h
  split at h
  case isFalse => exact absurd h (by simp)
  case isTrue hkey =>
    split at h
    case h_2 => exact absurd h (by simp)
    case h_1 s₂ hs₂ =>
      split at h
      case isFalse => exact absurd h (by simp)
      case isTrue hold =>
        -- the text and what it becomes, part by part
        have htext := List.prefix_iff_eq_append.mp (List.isPrefixOf_iff_prefix.mp hkey)
        have hws₁ := List.prefix_iff_eq_append.mp
          (List.takeWhile_prefix isSpace (l := text.drop (key.toList ++ "_VERSION".toList).length))
        have hws₂ := List.prefix_iff_eq_append.mp (List.takeWhile_prefix isSpace (l := s₂))
        have hrest := List.prefix_iff_eq_append.mp (List.isPrefixOf_iff_prefix.mp hold.1)
        rw [hs₂] at hws₁
        generalize List.takeWhile isSpace (text.drop (key.toList ++ "_VERSION".toList).length) = ws₁ at h hws₁
        generalize List.takeWhile isSpace s₂ = ws₂ at h hws₂ hrest
        generalize s₂.drop ws₂.length = s₃ at h hws₂ hrest
        rw [String.length_toList] at hrest
        rintro rfl
        have hsame := (Option.some.inj h).trans htext.symm
        rw [List.append_assoc, List.append_assoc, List.append_assoc, List.append_cancel_left_eq, ← hws₁,
          List.append_cancel_left_eq, ← hws₂, List.cons_append, List.cons.injEq, List.append_cancel_left_eq] at hsame
        have hhash := hsame.2.trans hrest.symm
        rw [List.append_cancel_right_eq] at hhash
        exact hne (String.toList_inj.mp hhash)

theorem subn_ne {f : Text → Option Text} (hf : ∀ {text new}, f text = some new → new ≠ text) {bol : Bool}
    {text new : Text} (h : subn f bol text = some new) : new ≠ text := by
  induction text generalizing bol new with
  | nil =>
    rw [subn] at h
    split at h
    · exact hf h
    · exact absurd h (by simp)
  | cons c s ih =>
    rw [subn, Option.or_eq_some_iff] at h
    rcases h with h | ⟨-, h⟩
    · split at h
      · exact hf h
      · exact absurd h (by simp)
    · obtain ⟨t, ht, rfl⟩ := Option.map_eq_some_iff.mp h
      exact fun he => ih ht (List.cons.inj he).2

theorem lastRead_write {a : Action} (ha : ∀ e : Event, e.action = a → e.textRead mk = none) (s : State) :
    lastRead mk (o.record a s).trail = lastRead mk s.trail :=
  findSome?_reverse_append fun e he => ha e (by rw [List.mem_singleton.mp he]; rfl)

theorem writeUpdate_texts {text newText newHash : String} {s : State} (hread : lastRead mk s.trail = some text) :
    Ends (writeUpdate o mk text newText newHash) s
      (fun ok s' => ok = true → lastRead mk s'.trail = some text ∧ lastWritten mk s'.trail = some newText)
      fun _ _ => True := by
  have hnone : ∀ {path : Path} {t : String} (e : Event), e.action = .writeText path t → e.textRead mk = none := by
    rintro path t ⟨a, answer, before, after, handling⟩ rfl
    rfl
  refine Ends.tryCatch (F := fun _ _ => True) ?_ fun e s' _ => ?_
  · refine Ends.bind (Q := fun _ s' => lastRead mk s'.trail = some text) ((act_ends _ s).mono
      (fun _ s₁ hs₁ => ?_) fun _ _ _ => trivial) fun _ s₁ h₁ => ?_
    · rw [hs₁.1, lastRead_write hnone, hread]
    refine Ends.bind (Q := fun _ s' => lastRead mk s'.trail = some text ∧ lastWritten mk s'.trail = some newText)
      ((act_ends _ s₁).mono (fun _ s₂ hs₂ => ?_) fun _ _ _ => trivial) fun _ s₂ h₂ => ?_
    · rw [hs₂.1]
      refine ⟨(lastRead_write hnone _).trans h₁, ?_⟩
      show (s₁.trail ++ [o.event _ s₁]).reverse.findSome? _ = _
      have hwritten : (o.event (.writeText mk newText) s₁).textWritten mk = some newText := by
        unfold Outside.event
        rw [hs₂.2]
        exact if_pos rfl
      rw [List.reverse_append, List.reverse_singleton, List.singleton_append, List.findSome?_cons, hwritten]
    · refine Ends.bind (Q := fun _ s' => Apart mk s₂ s') ((Ends.carried (act_apart rfl) fun _ => id).mono (fun _ _ => id)
        fun _ _ _ => trivial) fun _ s₃ h₃ => Ends.pure fun _ => ?_
      rw [h₃.texts.1, h₃.texts.2]
      exact h₂
  · cases e with
    | keyboardInterrupt => exact trivial
    | exception e =>
      refine Ends.bind (Ends.true s') fun _ s₁ _ => Ends.bind (Ends.true s₁) fun _ s₂ _ => Ends.pure fun h => ?_
      exact absurd h (by decide)

theorem updatePackageMk_texts {packageName oldHash newHash : String} (hne : newHash ≠ oldHash) (s : State) :
    Ends (updatePackageMk o mk packageName oldHash newHash) s
      (fun ok s' => ok = true → ∃ text newText, newText ≠ text ∧ lastRead mk s'.trail = some text ∧
        lastWritten mk s'.trail = some newText) fun _ _ => True := by
  refine Ends.bind (Q := fun text s' => ∀ t, text = some t → lastRead mk s'.trail = some t) ?_ fun text s₁ h₁ => ?_
  · refine Ends.tryCatch (F := fun _ _ => True) ?_ fun e s' _ => ?_
    · refine Ends.bind (Q := fun t s' => lastRead mk s'.trail = some t) ((act_ends _ s).mono (fun t s₁ hs₁ => ?_)
        fun _ _ _ => trivial) fun t s₁ h₁ => Ends.pure fun t' ht => Option.some.inj ht ▸ h₁
      rw [hs₁.1]
      show (s.trail ++ [o.event _ s]).reverse.findSome? _ = _
      have hread : (o.event (.readText mk) s).textRead mk = some t := by
        unfold Outside.event
        rw [hs₁.2]
        exact if_pos rfl
      rw [List.reverse_append, List.reverse_singleton, List.singleton_append, List.findSome?_cons, hread]
    · cases e with
      | keyboardInterrupt => exact trivial
      | exception e => exact Ends.bind (Ends.true s') fun _ _ _ => Ends.pure fun _ h => absurd h (by simp)
  cases text with
  | none => exact Ends.pure fun h => absurd h (by decide)
  | some text =>
    dsimp only
    split
    · exact Ends.bind (Ends.true s₁) fun _ _ _ => Ends.pure fun h => absurd h (by decide)
    · next newText hsub =>
      refine (writeUpdate_texts (h₁ text rfl)).mono (fun ok s' h hok => ?_) fun _ _ => id
      refine ⟨text, String.ofList newText, fun heq => ?_, h hok⟩
      exact subn_ne (matchVersion_ne hne) hsub (by rw [← heq, String.toList_ofList])

theorem createPackageCommit_apart (packageName oldHash newHash : String) (commitLog : List String) :
    Along (Apart mk) (createPackageCommit o packageName mk oldHash newHash commitLog) := by
  have hdebug : ∀ msg, Along (Apart mk) (logDebug o msg) := fun msg =>
    Along.get.bind fun _ => .ite (act_apart rfl) (.pure _)
  refine (hdebug _).bind fun _ => (act_apart rfl).bind fun r => .ite ?_ ?_
  · exact (act_apart rfl).bind fun _ => .pure _
  refine (act_apart rfl).bind fun r => .ite ?_ ?_
  · exact (act_apart rfl).bind fun _ => (act_apart rfl).bind fun _ => .pure _
  · exact (act_apart rfl).bind fun _ => .pure _

/-- Whatever comes of the commit, the file is left with the update. -/
theorem commit_leaves_update {packageName oldHash newHash : String} {commitLog : List String} {s s₁ : State}
    (hne : hashesMatch oldHash newHash = false)
    (h : updatePackageMk o mk packageName oldHash newHash s = .ok true s₁) :
    let s₂ := finalState (createPackageCommit o packageName mk oldHash newHash commitLog s₁)
    ∃ text newText, newText ≠ text ∧ lastRead mk s₂.trail = some text ∧ lastWritten mk s₂.trail = some newText := by
  intro s₂
  have hhash : newHash ≠ oldHash := by
    rintro rfl
    exact absurd hne (by simp [hashesMatch])
  have htexts : Ends (updatePackageMk o mk packageName oldHash newHash) s _ _ := updatePackageMk_texts hhash s
  unfold Ends at htexts
  rw [h] at htexts
  obtain ⟨text, newText, hdiff, hread, hwritten⟩ := htexts rfl
  have hapart : Apart mk s₁ s₂ := createPackageCommit_apart packageName oldHash newHash commitLog s₁
  exact ⟨text, newText, hdiff, hapart.texts.1.trans hread, hapart.texts.2.trans hwritten⟩

end Left

end Thingino.Scripts.UpdatePackages
