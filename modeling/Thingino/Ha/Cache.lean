import Thingino.Ha.Publish

/-! Is it sound to skip a state that equals the cache?

The cache is written after the acknowledgement, so that it is the last acknowledged value. But a publish
that was delivered without its acknowledgement has changed the retained value and not the cache, and so has
one whose process dies in between. As long as the device keeps that value, the next poll finds the cache
different and publishes again; when the device is back at the cached value, the poll skips it. -/
namespace Thingino.Ha
open Lib

/-- The message that the broker has and the cache may not have. -/
def At.delivered : At → Option Message
  | .sent m | .record m => some m
  | _ => none

namespace Home

def delivered (s : Home) (p : Publisher) : Option Message := (s.proc p).bind fun r => r.pc.delivered

/-- The cache has nothing for the entity, or the value of the message. -/
def settled (s : Home) (m : Message) : Bool := (s.cache m.entity).all fun v => v = m.state

/-- Who has delivered a value other than the cached one gets as far as the cache, and nobody skips a state
of the entity in the meantime. -/
def careful (s : Home) : HaEvent → Bool
  | .advance p =>
    (s.proc p).all fun r =>
      match r.pc with
      | .compare m =>
        r.job.force || s.stateChanged m || (s.holder m.entity).all fun q => (s.delivered q).all fun m' => s.settled m'
      | _ => true
  | .fail p | .kill p => (s.delivered p).all fun m => s.settled m
  | _ => true

/-- **The property** of a step: if it skips a state, the broker has it. -/
def SkipSound (s : Home) (e : HaEvent) : Prop :=
  ∀ p r m, e = .advance p → s.proc p = some r → r.pc = .compare m → (r.job.force || s.stateChanged m) = false →
    s.retained m.entity = some m.state

/-! ### The invariant -/

/-- Where the cache does not have what the broker has, a publisher is on its way to write it. -/
structure CacheInv (s : Home) : Prop where
  locked : s.Locked
  named : ∀ p r m, s.proc p = some r → r.pc = .compare m → m.state ≠ []
  sent : ∀ p m, s.delivered p = some m → s.retained m.entity = some m.state
  cached : ∀ entity v, s.cache entity = some v →
    s.retained entity = some v ∨ ∃ p m, s.delivered p = some m ∧ m.entity = entity

variable {s s' : Home} {p q : Publisher} {r : Proc} {m : Message} {pc : At}

theorem delivered_eq (hr : s.proc p = some r) : s.delivered p = r.pc.delivered := by
  rw [delivered, hr, Option.bind_some]

theorem locked_of_delivered (h : pc.delivered = some m) : pc.locked = some m := by
  cases pc <;> first | exact h | cases h

theorem holder_of_delivered (h : s.Locked) (hm : s.delivered p = some m) : s.holder m.entity = some p := by
  obtain ⟨r, hr, hpc⟩ := Option.bind_eq_some_iff.mp hm
  exact h p r m hr (locked_of_delivered hpc)

/-- What has not been noted in the cache is somebody's message, unless the two agree. -/
theorem cached_of_settled (h : s.CacheInv) (hm : s.delivered p = some m) (hsettled : s.settled m = true) {v : Value}
    (hv : s.cache m.entity = some v) : s.retained m.entity = some v := by
  rw [settled, hv, Option.all_some, decide_eq_true_eq] at hsettled
  rw [hsettled]
  exact h.sent p m hm

/-- A step of `p` that leaves the broker and the cache alone, with no new delivery, and where `p` drops its
delivery only if the cache has it. -/
theorem cacheInv_of (h : s.CacheInv) (hlocked : s'.Locked) (hproc : ∀ q, q ≠ p → s'.proc q = s.proc q)
    (hretained : s'.retained = s.retained) (hcache : s'.cache = s.cache)
    (hnamed : ∀ r m, s'.proc p = some r → r.pc = .compare m → m.state ≠ [])
    (hnew : ∀ m, s'.delivered p = some m → s.delivered p = some m)
    (hold : ∀ m, s.delivered p = some m → s'.delivered p = some m ∨ s.settled m = true) : s'.CacheInv := by
  have hother : ∀ q, q ≠ p → s'.delivered q = s.delivered q := fun q hq => by rw [delivered, delivered, hproc q hq]
  refine ⟨hlocked, fun q r m hr hpc => ?_, fun q m hm => ?_, fun entity v hv => ?_⟩
  · by_cases hq : q = p
    · subst hq
      exact hnamed r m hr hpc
    · exact h.named q r m (hproc q hq ▸ hr) hpc
  · rw [hretained]
    by_cases hq : q = p
    · subst hq
      exact h.sent q m (hnew m hm)
    · exact h.sent q m (hother q hq ▸ hm)
  · rw [hcache] at hv
    rw [hretained]
    obtain hkept | ⟨q, m, hm, rfl⟩ := h.cached entity v hv
    · exact .inl hkept
    · by_cases hq : q = p
      · subst hq
        obtain hstill | hsettled := hold m hm
        · exact .inr ⟨q, m, hstill, rfl⟩
        · exact .inl (cached_of_settled h hm hsettled hv)
      · exact .inr ⟨q, m, (hother q hq).trans hm, rfl⟩

/-- A step of `p` alone to where it has the same delivery. -/
theorem cacheInv_goto (h : s.CacheInv) (hlocked : (s.goto p r pc).Locked) (hr : s.proc p = some r)
    (hnamed : ∀ m, pc = .compare m → m.state ≠ []) (hsame : pc.delivered = r.pc.delivered) : (s.goto p r pc).CacheInv := by
  have hnow : (s.goto p r pc).delivered p = s.delivered p := by
    rw [delivered_eq hr, ← hsame, goto, delivered, proc_set, Option.bind_some]
  refine cacheInv_of h hlocked (fun q hq => proc_set_of_ne s _ hq) rfl rfl (fun r' m hr' hpc => ?_)
    (fun m hm => hnow ▸ hm) fun m hm => .inl (hnow.trans hm)
  rw [goto, proc_set, Option.some.injEq] at hr'
  subst hr'
  exact hnamed m hpc

/-- A step of `p` alone to where it has no delivery; the one it had is in the cache. -/
theorem cacheInv_drop (h : s.CacheInv) (hlocked : s'.Locked) (hproc : ∀ q, q ≠ p → s'.proc q = s.proc q)
    (hretained : s'.retained = s.retained) (hcache : s'.cache = s.cache)
    (hpc : ∀ r, s'.proc p = some r → r.pc.delivered = none ∧ ∀ m, r.pc ≠ .compare m)
    (hsettled : (s.delivered p).all (fun m => s.settled m) = true) : s'.CacheInv := by
  refine cacheInv_of h hlocked hproc hretained hcache (fun r m hr hm => absurd hm ((hpc r hr).2 m)) (fun m hm => ?_)
    fun m hm => ?_
  · obtain ⟨r, hr, hm⟩ := Option.bind_eq_some_iff.mp hm
    rw [(hpc r hr).1] at hm
    cases hm
  · rw [hm, Option.all_some] at hsettled
    exact .inr hsettled

/-- A delivery: the lock keeps the others off the entity. -/
theorem cacheInv_publish (h : s.CacheInv) {published : Entity → Nat} (hr : s.proc p = some r) (hpc : r.pc = .publish m)
    (hlocked : ({ s with
      retained := Function.update s.retained m.entity (some m.state)
      published }.goto p r (.sent m)).Locked) :
    ({ s with
      retained := Function.update s.retained m.entity (some m.state)
      published }.goto p r (.sent m)).CacheInv := by
  have hmine : s.holder m.entity = some p := h.locked p r m hr (by rw [hpc]; rfl)
  refine ⟨hlocked, fun q r' m' hr' hpc' => ?_, fun q m' hm' => ?_, fun entity v hv => ?_⟩
  · by_cases hq : q = p
    · subst hq
      rw [goto, proc_set, Option.some.injEq] at hr'
      subst hr'
      cases hpc'
    · exact h.named q r' m' ((proc_set_of_ne _ _ hq) ▸ hr') hpc'
  · change Function.update s.retained m.entity (some m.state) m'.entity = some m'.state
    by_cases hq : q = p
    · subst hq
      rw [goto, delivered, proc_set] at hm'
      cases hm'
      exact Function.update_self ..
    · rw [goto, delivered, proc_set_of_ne _ _ hq] at hm'
      have hother : s.holder m'.entity = some q := holder_of_delivered h.locked hm'
      have hne : m'.entity ≠ m.entity := fun heq => hq (Option.some.inj (hother.symm.trans (heq ▸ hmine)))
      rw [Function.update_of_ne hne]
      exact h.sent q m' hm'
  · change Function.update s.retained m.entity (some m.state) entity = some v ∨ _
    by_cases hentity : entity = m.entity
    · refine .inr ⟨p, m, ?_, hentity.symm⟩
      rw [goto, delivered, proc_set]
      rfl
    · rw [Function.update_of_ne hentity]
      obtain hkept | ⟨q, m', hm', rfl⟩ := h.cached entity v hv
      · exact .inl hkept
      · refine .inr ⟨q, m', ?_, rfl⟩
        have hq : q ≠ p := by
          rintro rfl
          rw [delivered_eq hr, hpc] at hm'
          cases hm'
        rw [goto, delivered, proc_set_of_ne _ _ hq]
        exact hm'

/-- The acknowledged value goes into the cache. -/
theorem cacheInv_record (h : s.CacheInv) (hr : s.proc p = some r) (hpc : r.pc = .record m)
    (hlocked : ({ s with cache := Function.update s.cache m.entity (some m.state) }.goto p r (.unlock m)).Locked) :
    ({ s with cache := Function.update s.cache m.entity (some m.state) }.goto p r (.unlock m)).CacheInv := by
  have hdelivered : s.delivered p = some m := by rw [delivered_eq hr, hpc]; rfl
  refine ⟨hlocked, fun q r' m' hr' hpc' => ?_, fun q m' hm' => ?_, fun entity v hv => ?_⟩
  · by_cases hq : q = p
    · subst hq
      rw [goto, proc_set, Option.some.injEq] at hr'
      subst hr'
      cases hpc'
    · exact h.named q r' m' ((proc_set_of_ne _ _ hq) ▸ hr') hpc'
  · by_cases hq : q = p
    · subst hq
      rw [goto, delivered, proc_set] at hm'
      cases hm'
    · rw [goto, delivered, proc_set_of_ne _ _ hq] at hm'
      exact h.sent q m' hm'
  · change Function.update s.cache m.entity (some m.state) entity = some v at hv
    by_cases hentity : entity = m.entity
    · subst hentity
      rw [Function.update_self, Option.some.injEq] at hv
      subst hv
      exact .inl (h.sent p m hdelivered)
    · rw [Function.update_of_ne hentity] at hv
      obtain hkept | ⟨q, m', hm', rfl⟩ := h.cached entity v hv
      · exact .inl hkept
      · refine .inr ⟨q, m', ?_, rfl⟩
        have hq : q ≠ p := by
          rintro rfl
          rw [hdelivered, Option.some.injEq] at hm'
          exact hentity (hm' ▸ rfl)
        rw [goto, delivered, proc_set_of_ne _ _ hq]
        exact hm'

/-- A process is set to a place where it has no delivery and compares nothing. -/
theorem cacheInv_set {s₁ : Home} {o : Option Proc} (h : s.CacheInv) (hlocked : (s₁.set p o).Locked)
    (hproc : s₁.proc = s.proc) (hretained : s₁.retained = s.retained) (hcache : s₁.cache = s.cache)
    (hpc : ∀ r ∈ o, r.pc.delivered = none ∧ ∀ m, r.pc ≠ .compare m)
    (hsettled : (s.delivered p).all (fun m => s.settled m) = true) : (s₁.set p o).CacheInv := by
  refine cacheInv_drop h hlocked (fun q hq => ?_) hretained hcache (fun r hr => ?_) hsettled
  · rw [proc_set_of_ne _ _ hq, hproc]
  · rw [proc_set] at hr
    exact hpc r hr

theorem cacheInv_rest {s₁ : Home} (h : s.CacheInv) (hlocked : (s₁.goto p r pc).Locked) (hproc : s₁.proc = s.proc)
    (hretained : s₁.retained = s.retained) (hcache : s₁.cache = s.cache) (hdelivered : pc.delivered = none)
    (hcompare : ∀ m, pc ≠ .compare m) (hsettled : (s.delivered p).all (fun m => s.settled m) = true) :
    (s₁.goto p r pc).CacheInv :=
  cacheInv_set h hlocked hproc hretained hcache (fun _ hr => Option.some.inj hr ▸ ⟨hdelivered, hcompare⟩) hsettled

theorem all_delivered (hr : s.proc p = some r) (hnone : r.pc.delivered = none) (f : Message → Bool) :
    (s.delivered p).all f = true := by
  rw [delivered_eq hr, hnone, Option.all_none]

theorem cacheInv_advance (h : s.CacheInv) (hr : s.proc p = some r) (hstep : s.advance p r = some s') : s'.CacheInv := by
  have hlocked : s'.Locked := locked_advance h.locked hr hstep
  have hnobody := fun hnone => all_delivered hr hnone fun m => s.settled m
  cases hpc : r.pc with
  | idle | stamped _ | actuated _ =>
    simp only [advance, hpc] at hstep
    cases hstep
  | call entity state seen =>
    simp only [advance, hpc] at hstep
    cases hstep
    refine cacheInv_goto h hlocked hr (fun m hm => ?_) ?_
    · split at hm
      · cases hm
      · rename_i hstate
        cases hm
        exact hstate
    · rw [hpc]
      split <;> rfl
  | compare m =>
    simp only [advance, hpc] at hstep
    cases hstep
    refine cacheInv_goto h hlocked hr (fun m hm => ?_) ?_
    · split at hm <;> cases hm
    · rw [hpc]
      split <;> rfl
  | emit m =>
    simp only [advance, hpc] at hstep
    cases hstep
    split at hlocked <;> rename_i hsession
    · rw [if_pos hsession]
      exact cacheInv_set h hlocked rfl rfl rfl
        (fun _ hr => Option.some.inj hr ▸ ⟨rfl, fun _ h => At.noConfusion h⟩) (hnobody (by rw [hpc]; rfl))
    · rw [if_neg hsession]
      exact cacheInv_goto h hlocked hr (fun _ h => At.noConfusion h) (by rw [hpc]; rfl)
  | flush =>
    simp only [advance, hpc] at hstep
    split at hstep
    · cases hstep
      exact cacheInv_set h hlocked rfl rfl rfl (fun _ => absurd_none)
        (hnobody (by rw [hpc]; rfl))
    · cases hstep
      exact cacheInv_set h hlocked rfl rfl rfl
        (fun _ hr => Option.some.inj hr ▸ ⟨rfl, fun _ h => At.noConfusion h⟩) (hnobody (by rw [hpc]; rfl))
  | lock m =>
    simp only [advance, hpc, Option.ite_none_right_eq_some, Option.some.injEq] at hstep
    obtain ⟨-, rfl⟩ := hstep
    exact cacheInv_rest h hlocked rfl rfl rfl rfl (fun _ h => At.noConfusion h)
      (hnobody (by rw [hpc]; rfl))
  | check m =>
    simp only [advance, hpc] at hstep
    cases hstep
    refine cacheInv_goto h hlocked hr (fun m hm => ?_) ?_
    · split at hm <;> cases hm
    · rw [hpc]
      split <;> rfl
  | publish m =>
    simp only [advance, hpc] at hstep
    cases hstep
    exact cacheInv_publish h hr hpc hlocked
  | sent m =>
    simp only [advance, hpc] at hstep
    cases hstep
    exact cacheInv_goto h hlocked hr (fun _ h => At.noConfusion h) (by rw [hpc]; rfl)
  | record m =>
    simp only [advance, hpc] at hstep
    cases hstep
    exact cacheInv_record h hr hpc hlocked
  | unlock m =>
    simp only [advance, hpc] at hstep
    cases hstep
    refine cacheInv_rest h hlocked rfl rfl rfl ?_ (fun m => ?_)
      (hnobody (by rw [hpc]; rfl))
    · unfold resume
      split <;> rfl
    · unfold resume
      split <;> exact fun h => At.noConfusion h

theorem cacheInv_fail (h : s.CacheInv) (hr : s.proc p = some r) (hcareful : (s.delivered p).all (fun m => s.settled m) = true)
    (hstep : s.fail p r = some s') : s'.CacheInv := by
  have hlocked : s'.Locked := locked_fail h.locked hr hstep
  unfold fail at hstep
  split at hstep <;> cases hstep
  all_goals
    exact cacheInv_rest h hlocked rfl rfl rfl rfl (fun _ h => At.noConfusion h) hcareful

theorem cacheInv_step {e : HaEvent} (h : s.CacheInv) (hok : s.careful e = true) (hstep : s.step e = some s') :
    s'.CacheInv := by
  have hlocked : s'.Locked := locked_step h.locked hstep
  cases e with
  | launch p job =>
    rw [step, Option.ite_none_right_eq_some, Option.some.injEq] at hstep
    obtain ⟨hgone, rfl⟩ := hstep
    refine cacheInv_set h hlocked rfl rfl rfl
      (fun _ hr => Option.some.inj hr ▸ ⟨rfl, fun _ h => At.noConfusion h⟩) ?_
    rw [delivered, hgone, Option.bind_none, Option.all_none]
  | change entity value =>
    cases hstep
    exact ⟨h.locked, h.named, h.sent, h.cached⟩
  | dispatch p entity =>
    obtain ⟨r, hr, hstep⟩ := Option.bind_eq_some_iff.mp hstep
    rw [dispatch, Option.ite_none_right_eq_some, Option.some.injEq] at hstep
    obtain ⟨⟨-, hpc⟩, rfl⟩ := hstep
    exact cacheInv_rest h hlocked rfl rfl rfl rfl (fun _ h => At.noConfusion h)
      (all_delivered hr (by rw [hpc]; rfl) _)
  | actuate p value =>
    obtain ⟨r, hr, hstep⟩ := Option.bind_eq_some_iff.mp hstep
    unfold actuate at hstep
    split at hstep
    · rename_i hpc
      cases hstep
      exact cacheInv_rest h hlocked rfl rfl rfl rfl (fun _ h => At.noConfusion h)
        (all_delivered hr (by rw [hpc]; rfl) _)
    · cases hstep
  | request p state =>
    obtain ⟨r, hr, hstep⟩ := Option.bind_eq_some_iff.mp hstep
    unfold request at hstep
    split at hstep
    · rename_i hpc
      cases hstep
      exact cacheInv_rest h hlocked rfl rfl rfl rfl (fun _ h => At.noConfusion h)
        (all_delivered hr (by rw [hpc]; rfl) _)
    · cases hstep
  | read p entity =>
    obtain ⟨r, hr, hstep⟩ := Option.bind_eq_some_iff.mp hstep
    rw [Option.ite_none_right_eq_some, Option.some.injEq] at hstep
    obtain ⟨⟨-, hpc⟩, rfl⟩ := hstep
    exact cacheInv_rest h hlocked rfl rfl rfl rfl (fun _ h => At.noConfusion h)
      (all_delivered hr (by rw [hpc]; rfl) _)
  | flush p =>
    obtain ⟨r, hr, hstep⟩ := Option.bind_eq_some_iff.mp hstep
    rw [Option.ite_none_right_eq_some, Option.some.injEq] at hstep
    obtain ⟨⟨-, hpc⟩, rfl⟩ := hstep
    exact cacheInv_rest h hlocked rfl rfl rfl rfl (fun _ h => At.noConfusion h)
      (all_delivered hr (by rw [hpc]; rfl) _)
  | advance p =>
    obtain ⟨r, hr, hstep⟩ := Option.bind_eq_some_iff.mp hstep
    exact cacheInv_advance h hr hstep
  | fail p =>
    obtain ⟨r, hr, hstep⟩ := Option.bind_eq_some_iff.mp hstep
    exact cacheInv_fail h hr hok hstep
  | kill p =>
    cases hstep
    exact cacheInv_set h hlocked rfl rfl rfl (fun _ => absurd_none) hok
  | clear entity =>
    cases hstep
    refine ⟨hlocked, h.named, h.sent, fun entity' v hv => ?_⟩
    change Function.update s.cache entity none entity' = some v at hv
    by_cases heq : entity' = entity
    · rw [heq, Function.update_self] at hv
      cases hv
    · rw [Function.update_of_ne heq] at hv
      exact h.cached entity' v hv

theorem cacheInv_start (device : Entity → Value) (retained : Entity → Option Value) : (start device retained).CacheInv :=
  ⟨fun _ _ _ => absurd_none, fun _ _ _ => absurd_none, fun _ _ => absurd_none, fun _ _ => absurd_none⟩

/-- In a state of the invariant, a careful step skips only what the broker has. -/
theorem skipSound_of_inv {e : HaEvent} (h : s.CacheInv) (hok : s.careful e = true) : s.SkipSound e := by
  rintro p r m rfl hr hpc hskip
  simp only [careful, hr, Option.all_some, hpc, hskip, Bool.false_or] at hok
  obtain ⟨-, hsame⟩ := Bool.or_eq_false_iff.mp hskip
  have hlast : (s.cache m.entity).getD [] = m.state := by
    have hsame : m.state = (s.cache m.entity).getD [] := by simpa [stateChanged] using hsame
    exact hsame.symm
  have hnamed : m.state ≠ [] := h.named p r m hr hpc
  cases hcache : s.cache m.entity with
  | none =>
    rw [hcache] at hlast
    exact absurd hlast.symm hnamed
  | some v =>
    rw [hcache] at hlast
    obtain rfl : v = m.state := hlast
    obtain hkept | ⟨q, m', hm', hentity⟩ := h.cached m.entity _ hcache
    · exact hkept
    · have hholder : s.holder m.entity = some q := hentity ▸ holder_of_delivered h.locked hm'
      rw [hholder, Option.all_some, hm', Option.all_some] at hok
      rw [← hentity]
      rw [← hentity] at hcache
      exact cached_of_settled h hm' hok hcache

end Home

/-- **A state is skipped only if the broker has it**, in runs where each delivery of another value than the
cached one gets as far as the cache before its publisher lets go, and nobody skips meanwhile. -/
theorem skipSound_of_careful {device : Entity → Value} {retained : Entity → Option Value} {s : Home} {e : HaEvent}
    (h : Reach Home.step (fun s e => s.careful e = true) (Home.start device retained) s) (hok : s.careful e = true) :
    s.SkipSound e :=
  Home.skipSound_of_inv
    (Reach.invariant (Home.cacheInv_start device retained)
      (fun _ _ _ hs hcareful hstep => Home.cacheInv_step hs hcareful hstep) h) hok

/-- The second poll finds what the first one has published. -/
theorem skipSound_second_poll :
    ∃ s, Reach Home.step (fun s e => s.careful e = true) (Home.start (fun _ => on) fun _ => none) s ∧
      s.proc 2 = some ⟨.state false true, .compare ⟨white, on, 0, 0⟩, []⟩ ∧ s.cache white = some on ∧
      s.SkipSound (.advance 2) := by
  have hrun : ∃ s, Reach Home.step (fun s e => s.careful e = true) (Home.start (fun _ => on) fun _ => none) s ∧
      (s.proc 2 = some ⟨.state false true, .compare ⟨white, on, 0, 0⟩, []⟩ ∧ s.cache white = some on ∧
        s.careful (.advance 2) = true) :=
    exists_reach (pollEvents 1 white ++ confirmEvents 1 ++ [.launch 2 (.state false true), .read 2 white, .advance 2])
      (by decide)
  obtain ⟨s, hs, hproc, hcache, hok⟩ := hrun
  exact ⟨s, hs, hproc, hcache, skipSound_of_careful hs hok⟩

/-- The light was on, and that is in the cache. It went off; that was delivered, but the acknowledgement did
not come. It goes on again, and the next poll skips that: the broker has it off. -/
theorem skip_after_lost_acknowledgement :
    ∃ s, Reach Home.step (fun _ _ => True) (Home.start (fun _ => on) fun _ => none) s ∧ s.retained white = some off ∧
      s.device white = on ∧ ¬s.SkipSound (.advance 3) := by
  have hrun : ∃ s, Reach Home.step (fun _ _ => True) (Home.start (fun _ => on) fun _ => none) s ∧
      (s.retained white = some off ∧ s.device white = on ∧
        s.proc 3 = some ⟨.state false true, .compare ⟨white, on, 0, 0⟩, []⟩ ∧ s.cache white = some on) :=
    exists_reach (pollEvents 1 white ++ confirmEvents 1 ++ [.change white off] ++ pollEvents 2 white ++
      [.fail 2, .advance 2, .advance 2, .change white on, .launch 3 (.state false true), .read 3 white, .advance 3])
      (by decide)
  obtain ⟨s, hs, hretained, hdevice, hproc, hcache⟩ := hrun
  refine ⟨s, hs, hretained, hdevice, fun h => ?_⟩
  have hskip := h 3 _ _ rfl hproc rfl (by
    change (false || decide (on ≠ (s.cache white).getD [])) = false
    rw [hcache]
    decide)
  change s.retained white = some on at hskip
  rw [hretained] at hskip
  revert hskip
  decide

end Thingino.Ha
