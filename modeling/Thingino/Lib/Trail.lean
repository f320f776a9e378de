import Mathlib.Order.Defs.Unbundled

/-! Scripts that may be interrupted anywhere, and the trail they leave.

A script is an `EStateM`: what it has done to its state stays done when it raises. `Along` is about a script
whose every run, returned or raised, moves the state along a preorder; `Ends` is about one run, with a
postcondition for the value it returns and one for what it raises. The rules follow the way a script is put
together.

The second half is about a finite trail of events: what holds of each event and those after it
(`Throughout`), and what holds up to the first event of a kind (`HoldsUntil`). -/
namespace Thingino.Lib

/-! ### Scripts -/

section Scripts
variable {ε σ α β : Type} {R : σ → σ → Prop}

/-- The state in which a run is over. -/
def finalState : EStateM.Result ε σ α → σ
  | .ok _ s => s
  | .error _ s => s

/-- Returned or raised, `m` has moved the state along `R`. -/
def Along (R : σ → σ → Prop) (m : EStateM ε σ α) : Prop := ∀ s, R s (finalState (m s))

/-- From `s` on, `m` returns in `Q` or raises in `E`. -/
def Ends (m : EStateM ε σ α) (s : σ) (Q : α → σ → Prop) (E : ε → σ → Prop) : Prop :=
  match m s with
  | .ok a s' => Q a s'
  | .error e s' => E e s'

/-- What `R` carries from `s` on is there in either way. -/
theorem Ends.carried {m : EStateM ε σ α} (h : Along R m) {s : σ} {P : σ → Prop} (hP : ∀ s', R s s' → P s') :
    Ends m s (fun _ s' => P s') fun _ s' => P s' := by
  have hs := h s
  unfold Ends
  cases hm : m s <;> rw [hm] at hs <;> exact hP _ hs

theorem Ends.mono {m : EStateM ε σ α} {s : σ} {Q Q' : α → σ → Prop} {E E' : ε → σ → Prop} (h : Ends m s Q E)
    (hQ : ∀ a s', Q a s' → Q' a s') (hE : ∀ e s', E e s' → E' e s') : Ends m s Q' E' := by
  unfold Ends at h ⊢
  cases hm : m s <;> rw [hm] at h
  · exact hQ _ _ h
  · exact hE _ _ h

theorem Ends.bind {m : EStateM ε σ α} {f : α → EStateM ε σ β} {s : σ} {Q : α → σ → Prop} {Q' : β → σ → Prop}
    {E : ε → σ → Prop} (hm : Ends m s Q E) (hf : ∀ a s', Q a s' → Ends (f a) s' Q' E) :
    Ends (m >>= f) s Q' E := by
  show match EStateM.bind m f s with | .ok a s' => Q' a s' | .error e s' => E e s'
  unfold Ends at hm
  unfold EStateM.bind
  cases h : m s with
  | ok a s' =>
    rw [h] at hm
    exact hf a s' hm
  | error e s' =>
    rw [h] at hm
    exact hm

theorem Ends.tryCatch {m : EStateM ε σ α} {f : ε → EStateM ε σ α} {s : σ} {Q : α → σ → Prop}
    {E F : ε → σ → Prop} (hm : Ends m s Q F) (hf : ∀ e s', F e s' → Ends (f e) s' Q E) :
    Ends (MonadExcept.tryCatch m f) s Q E := by
  show match EStateM.tryCatch m f s with | .ok a s' => Q a s' | .error e s' => E e s'
  unfold Ends at hm
  unfold EStateM.tryCatch
  cases h : m s with
  | ok a s' =>
    rw [h] at hm
    exact hm
  | error e s' =>
    rw [h] at hm
    exact hf e s' hm

theorem Ends.true {m : EStateM ε σ α} (s : σ) : Ends m s (fun _ _ => True) fun _ _ => True := by
  unfold Ends
  split <;> trivial

theorem Ends.pure {a : α} {s : σ} {Q : α → σ → Prop} {E : ε → σ → Prop} (h : Q a s) :
    Ends (Pure.pure a) s Q E := h

theorem Ends.ite {c : Prop} [Decidable c] {m m' : EStateM ε σ α} {s : σ} {Q : α → σ → Prop} {E : ε → σ → Prop}
    (ht : c → Ends m s Q E) (he : ¬ c → Ends m' s Q E) : Ends (if c then m else m') s Q E := by
  split
  · next hc => exact ht hc
  · next hc => exact he hc

theorem Along.weaken {R' : σ → σ → Prop} {m : EStateM ε σ α} (h : Along R m) (hR : ∀ s s', R s s' → R' s s') :
    Along R' m := fun s => hR _ _ (h s)

theorem Ends.get {s : σ} {Q : σ → σ → Prop} {E : ε → σ → Prop} (h : Q s s) : Ends get s Q E := h

theorem Ends.modify {s : σ} {f : σ → σ} {Q : PUnit → σ → Prop} {E : ε → σ → Prop} (h : Q ⟨⟩ (f s)) :
    Ends (modify f) s Q E := h

theorem Along.throw [Std.Refl R] (e : ε) : Along R (throw e : EStateM ε σ α) := fun s => Std.Refl.refl s

theorem Along.pure [Std.Refl R] (a : α) : Along R (pure a : EStateM ε σ α) := fun s => Std.Refl.refl s

theorem Along.get [Std.Refl R] : Along R (get : EStateM ε σ σ) := fun s => Std.Refl.refl s

theorem Along.modify {f : σ → σ} (h : ∀ s, R s (f s)) : Along R (modify f : EStateM ε σ PUnit) := h

theorem Along.bind [IsTrans σ R] {m : EStateM ε σ α} {f : α → EStateM ε σ β} (hm : Along R m)
    (hf : ∀ a, Along R (f a)) : Along R (m >>= f) := by
  intro s
  have hs := hm s
  show R s (finalState (EStateM.bind m f s))
  unfold EStateM.bind
  cases h : m s with
  | ok a s' =>
    rw [h] at hs
    exact IsTrans.trans _ _ _ hs (hf a s')
  | error e s' =>
    rw [h] at hs
    exact hs

theorem Along.tryCatch [IsTrans σ R] {m : EStateM ε σ α} {f : ε → EStateM ε σ α} (hm : Along R m)
    (hf : ∀ e, Along R (f e)) : Along R (MonadExcept.tryCatch m f) := by
  intro s
  have hs := hm s
  show R s (finalState (EStateM.tryCatch m f s))
  unfold EStateM.tryCatch
  cases h : m s with
  | ok a s' =>
    rw [h] at hs
    exact hs
  | error e s' =>
    rw [h] at hs
    exact IsTrans.trans _ _ _ hs (hf e s')

theorem Along.ite {c : Prop} [Decidable c] {m m' : EStateM ε σ α} (ht : Along R m) (he : Along R m') :
    Along R (if c then m else m') := by
  split
  · exact ht
  · exact he

/-- A loop whose body moves along `R` does. -/
theorem Along.forM {ι : Type} [Std.Refl R] [IsTrans σ R] {f : ι → EStateM ε σ PUnit} (hf : ∀ i, Along R (f i))
    (l : List ι) : Along R (l.forM f) := by
  induction l with
  | nil => exact Along.pure _
  | cons i l ih => exact Along.bind (hf i) fun _ => ih

end Scripts

/-! ### Trails -/

section Trails
variable {α : Type}

/-- `P` of every event, with the events after it. -/
def Throughout (P : α → List α → Prop) : List α → Prop
  | [] => True
  | a :: l => P a l ∧ Throughout P l

/-- `P` of every event before the first that is `Q`, if there is one. -/
def HoldsUntil (P Q : α → Prop) : List α → Prop
  | [] => True
  | a :: l => Q a ∨ P a ∧ HoldsUntil P Q l

instance Throughout.decidable {P : α → List α → Prop} [∀ a l, Decidable (P a l)] :
    (l : List α) → Decidable (Throughout P l)
  | [] => .isTrue trivial
  | _ :: l => @instDecidableAnd _ _ _ (Throughout.decidable l)

instance HoldsUntil.decidable {P Q : α → Prop} [DecidablePred P] [DecidablePred Q] :
    (l : List α) → Decidable (HoldsUntil P Q l)
  | [] => .isTrue trivial
  | _ :: l => @instDecidableOr _ _ _ (@instDecidableAnd _ _ _ (HoldsUntil.decidable l))

/-- Where all the other events have `P` for free, it is the one event that counts. -/
theorem throughout_append_cons {P : α → List α → Prop} {l r : List α} {a : α}
    (hl : ∀ x ∈ l, ∀ t, P x t) (hr : ∀ x ∈ r, ∀ t, P x t) : Throughout P (l ++ a :: r) ↔ P a r := by
  induction l with
  | nil =>
    refine ⟨fun h => h.1, fun h => ⟨h, ?_⟩⟩
    clear h
    induction r with
    | nil => trivial
    | cons x r ih => exact ⟨hr x (by simp) r, ih fun y hy => hr y (by simp [hy])⟩
  | cons x l ih =>
    have hl' : ∀ y ∈ l, ∀ t, P y t := fun y hy => hl y (by simp [hy])
    exact ⟨fun h => (ih hl').1 h.2, fun h => ⟨hl x (by simp) _, (ih hl').2 h⟩⟩

theorem throughout_of_forall {P : α → List α → Prop} {l : List α} (h : ∀ x ∈ l, ∀ t, P x t) : Throughout P l := by
  induction l with
  | nil => trivial
  | cons x l ih => exact ⟨h x (by simp) l, ih fun y hy => h y (by simp [hy])⟩

theorem HoldsUntil.of_append {P Q : α → Prop} {l r : List α} (h : HoldsUntil P Q (l ++ r)) : HoldsUntil P Q l := by
  induction l with
  | nil => trivial
  | cons x l ih => exact h.imp_right fun h => ⟨h.1, ih h.2⟩

/-- What holds until `Q` holds of the next event, when nothing so far is `Q`. -/
theorem HoldsUntil.next {P Q : α → Prop} {l r : List α} {a : α} (h : HoldsUntil P Q (l ++ a :: r))
    (hl : ∀ x ∈ l, ¬ Q x) : Q a ∨ P a := by
  induction l with
  | nil => exact h.imp_right And.left
  | cons x l ih =>
    rcases h with hq | ⟨_, h⟩
    · exact absurd hq (hl x (by simp))
    · exact ih h fun y hy => hl y (by simp [hy])

end Trails

end Thingino.Lib
