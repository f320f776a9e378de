import Thingino.Ha.Publish

/-! Does a poll overwrite the result of a newer command?

A command stamps the epoch of its entity before it actuates, and `_ha_pub_confirm` drops a value whose
epoch has been left behind. What counts is the epoch at the call of `ha_pub_state`, and the poll has read
the device before that: when a command is carried out in between, the old value goes with the new epoch. -/
namespace Thingino.Ha
open Lib

/-- `ha-commands`, of which there is one at a time. -/
def commander : Publisher := 0

/-- The entity that has been stamped and not been actuated yet. -/
def At.stampedEntity : At → Option Entity
  | .stamped entity => some entity
  | _ => none

/-- The message at hand, from the comparison on. -/
def At.message : At → Option Message
  | .compare m | .emit m | .lock m | .check m | .publish m | .sent m | .record m | .unlock m => some m
  | _ => none

def Proc.messages (r : Proc) : List Message := r.pc.message.toList ++ r.queue

namespace Home

def stamping (s : Home) : Option Entity := (s.proc commander).bind fun r => r.pc.stampedEntity

/-- Commands are carried out by the one process, one after the other. -/
def serial (_ : Home) : HaEvent → Bool
  | .dispatch p _ => p = commander
  | _ => true

/-- When a poll takes the epoch of an entity, no command has actuated it since the poll read it, and none is
about to. -/
def timely (s : Home) : HaEvent → Bool
  | .advance p =>
    (s.proc p).all fun r =>
      match r.pc with
      | .call entity _ seen => r.job = .commands || (seen = s.actuated entity && s.stamping ≠ some entity)
      | _ => true
  | _ => true

/-- **The property** of a step: if a poll delivers a value, it was read after the actuation of each command
that has published its own. -/
def DeliverFresh (s : Home) (e : HaEvent) : Prop :=
  ∀ p r m, e = .advance p → s.proc p = some r → r.job ≠ .commands → r.pc = .publish m → s.published m.entity ≤ m.seen

/-! ### The invariant -/

/-- A message of a poll whose epoch still counts was read after the last actuation. -/
structure MessageFresh (s : Home) (job : Job) (m : Message) : Prop where
  read : m.seen ≤ s.actuated m.entity
  epoch : job ≠ .commands → m.epoch0 ≤ s.epoch m.entity
  current : job ≠ .commands → m.epoch0 = s.epoch m.entity → m.seen = s.actuated m.entity ∧ s.stamping ≠ some m.entity

/-- What goes with the place of a process. -/
def PcFresh (s : Home) (p : Publisher) (job : Job) : At → Prop
  | .stamped _ => p = commander
  | .call entity _ seen => seen ≤ s.actuated entity
  | .publish m => job ≠ .commands → s.published m.entity ≤ m.seen
  | _ => True

structure FreshInv (s : Home) : Prop where
  locked : s.Locked
  published : ∀ entity, s.published entity ≤ s.actuated entity
  pc : ∀ p r, s.proc p = some r → s.PcFresh p r.job r.pc
  messages : ∀ p r, s.proc p = some r → ∀ m ∈ r.messages, s.MessageFresh r.job m

/-- What a step of `p` does to the counts: an entity is actuated between a stamp and the next step of the
commander, and a result is published under the lock. -/
structure Frame (p : Publisher) (s s' : Home) : Prop where
  actuated : ∀ entity, s.actuated entity ≤ s'.actuated entity
  epoch : ∀ entity, s.epoch entity < s'.epoch entity ∨
    (s'.epoch entity = s.epoch entity ∧ (s'.actuated entity = s.actuated entity ∨ s.stamping = some entity) ∧
      (s'.stamping = some entity → s.stamping = some entity))
  published : ∀ entity, s'.published entity = s.published entity ∨ s.holder entity = some p

variable {s s' : Home} {p q : Publisher} {r : Proc} {m : Message} {pc : At} {job : Job}

theorem messageFresh_frame (hframe : Frame p s s') (h : s.MessageFresh job m) : s'.MessageFresh job m := by
  have hepoch : s.epoch m.entity ≤ s'.epoch m.entity := by
    obtain hlt | ⟨heq, -⟩ := hframe.epoch m.entity
    · exact Nat.le_of_lt hlt
    · exact Nat.le_of_eq heq.symm
  refine ⟨Nat.le_trans h.read (hframe.actuated _), fun hjob => Nat.le_trans (h.epoch hjob) hepoch, fun hjob hcurrent => ?_⟩
  have hbefore := h.epoch hjob
  obtain hlt | ⟨heq, hactuated, hstamping⟩ := hframe.epoch m.entity
  · omega
  · obtain ⟨hseen, hstamped⟩ := h.current hjob (hcurrent.trans heq)
    refine ⟨?_, fun hnow => hstamped (hstamping hnow)⟩
    rw [hseen]
    exact (hactuated.resolve_right hstamped).symm

theorem pcFresh_frame (hlocked : s.Locked) (hframe : Frame p s s') (hq : q ≠ p) (hr : s.proc q = some r)
    (h : s.PcFresh q r.job r.pc) : s'.PcFresh q r.job r.pc := by
  cases hpc : r.pc with
  | stamped entity =>
    rw [hpc] at h
    exact h
  | call entity state seen =>
    rw [hpc] at h
    exact Nat.le_trans h (hframe.actuated entity)
  | publish m =>
    rw [hpc] at h
    intro hjob
    have hholder : s.holder m.entity = some q := hlocked q r m hr (by rw [hpc]; rfl)
    obtain hsame | hmine := hframe.published m.entity
    · rw [hsame]
      exact h hjob
    · exact absurd (Option.some.inj (hholder.symm.trans hmine)) hq
  | _ => exact trivial

/-- A step of `p`, by what it does to the counts and to `p`. -/
theorem freshInv_of (h : s.FreshInv) (hlocked : s'.Locked) (hframe : Frame p s s')
    (hproc : ∀ q, q ≠ p → s'.proc q = s.proc q) (hpublished : ∀ entity, s'.published entity ≤ s'.actuated entity)
    (hself : ∀ r, s'.proc p = some r → s'.PcFresh p r.job r.pc ∧ ∀ m ∈ r.messages, s'.MessageFresh r.job m) :
    s'.FreshInv := by
  refine ⟨hlocked, hpublished, fun q r hr => ?_, fun q r hr => ?_⟩
  · by_cases hq : q = p
    · subst hq
      exact (hself r hr).1
    · rw [hproc q hq] at hr
      exact pcFresh_frame h.locked hframe hq hr (h.pc q r hr)
  · by_cases hq : q = p
    · subst hq
      exact (hself r hr).2
    · rw [hproc q hq] at hr
      exact fun m hm => messageFresh_frame hframe (h.messages q r hr m hm)

theorem stamping_of (hproc : ∀ q, q ≠ p → s'.proc q = s.proc q)
    (hself : ∀ r, s'.proc p = some r → r.pc.stampedEntity = none) {entity : Entity} (h : s'.stamping = some entity) :
    s.stamping = some entity := by
  obtain ⟨r, hr, hstamped⟩ := Option.bind_eq_some_iff.mp h
  by_cases hp : commander = p
  · rw [hself r (hp ▸ hr)] at hstamped
    cases hstamped
  · rw [hproc commander hp] at hr
    rw [stamping, hr]
    exact hstamped

/-- A step of `p` that leaves the counts alone. -/
theorem freshInv_quiet (h : s.FreshInv) (hlocked : s'.Locked) (hproc : ∀ q, q ≠ p → s'.proc q = s.proc q)
    (hepoch : s'.epoch = s.epoch) (hactuated : s'.actuated = s.actuated) (hpublished : s'.published = s.published)
    (hself : ∀ r, s'.proc p = some r → r.pc.stampedEntity = none ∧ s.PcFresh p r.job r.pc ∧
      ∀ m ∈ r.messages, s.MessageFresh r.job m) : s'.FreshInv := by
  have hframe : Frame p s s' := by
    refine ⟨fun entity => by rw [hactuated], fun entity => .inr ⟨by rw [hepoch], .inl (by rw [hactuated]), ?_⟩,
      fun entity => .inl (by rw [hpublished])⟩
    exact stamping_of hproc fun r hr => (hself r hr).1
  refine freshInv_of h hlocked hframe hproc (fun entity => ?_) fun r hr => ?_
  · rw [hpublished, hactuated]
    exact h.published entity
  · obtain ⟨-, hpc, hmessages⟩ := hself r hr
    refine ⟨?_, fun m hm => messageFresh_frame hframe (hmessages m hm)⟩
    unfold PcFresh at hpc ⊢
    rw [hactuated, hpublished]
    exact hpc

/-- A step of `p` that changes nothing but what `p` is. -/
theorem freshInv_set (h : s.FreshInv) {t : Option Proc} (hlocked : (s.set p t).Locked)
    (hself : ∀ r ∈ t, r.pc.stampedEntity = none ∧ s.PcFresh p r.job r.pc ∧ ∀ m ∈ r.messages, s.MessageFresh r.job m) :
    (s.set p t).FreshInv := by
  refine freshInv_quiet h hlocked (fun q hq => proc_set_of_ne _ _ hq) rfl rfl rfl fun r hr => hself r ?_
  rwa [proc_set] at hr

/-- Where a process that goes to `pc` is, with the messages it had and perhaps a new one. -/
theorem self_goto (h : s.FreshInv) (hr : s.proc p = some r) {t : Home} {r' : Proc}
    (hr' : (t.goto p r pc).proc p = some r') (hstamped : pc.stampedEntity = none) (hpc : s.PcFresh p r.job pc)
    (hnew : ∀ m, pc.message = some m → r.pc.message = some m ∨ s.MessageFresh r.job m) :
    r'.pc.stampedEntity = none ∧ s.PcFresh p r'.job r'.pc ∧ ∀ m ∈ r'.messages, s.MessageFresh r'.job m := by
  rw [goto, proc_set, Option.some.injEq] at hr'
  subst hr'
  refine ⟨hstamped, hpc, fun m hm => ?_⟩
  obtain hm | hm := List.mem_append.mp hm
  · obtain hold | hfresh := hnew m (Option.mem_toList.mp hm)
    · exact h.messages p r hr m (List.mem_append_left _ (Option.mem_toList.mpr hold))
    · exact hfresh
  · exact h.messages p r hr m (List.mem_append_right _ hm)

theorem freshInv_goto {t : Home} (h : s.FreshInv) (hlocked : (t.goto p r pc).Locked) (hproc : t.proc = s.proc)
    (hepoch : t.epoch = s.epoch) (hactuated : t.actuated = s.actuated) (hpublished : t.published = s.published)
    (hr : s.proc p = some r) (hstamped : pc.stampedEntity = none) (hpc : s.PcFresh p r.job pc)
    (hnew : ∀ m, pc.message = some m → r.pc.message = some m ∨ s.MessageFresh r.job m) : (t.goto p r pc).FreshInv := by
  refine freshInv_quiet h hlocked (fun q hq => ?_) hepoch hactuated hpublished fun r' hr' =>
    self_goto h hr hr' hstamped hpc hnew
  rw [goto, proc_set_of_ne _ _ hq, hproc]

/-- The epoch is taken: a value of a poll is still the last one, and no actuation is on its way. -/
theorem messageFresh_call (h : s.FreshInv) (hr : s.proc p = some r) {entity : Entity} {state : Value} {seen : Nat}
    (hpc : r.pc = .call entity state seen) (htimely : s.timely (.advance p) = true) :
    s.MessageFresh r.job ⟨entity, state, s.epoch entity, seen⟩ := by
  have hseen : seen ≤ s.actuated entity := by
    have hfresh := h.pc p r hr
    rw [hpc] at hfresh
    exact hfresh
  simp only [timely, hr, Option.all_some, hpc, Bool.or_eq_true, Bool.and_eq_true, decide_eq_true_eq] at htimely
  exact ⟨hseen, fun _ => Nat.le_refl _, fun hjob _ => htimely.resolve_left hjob⟩

/-- A result of a command is published under the lock. -/
theorem freshInv_publish (h : s.FreshInv) (hr : s.proc p = some r) (hpc : r.pc = .publish m)
    {retained : Entity → Option Value} {published : Entity → Nat}
    (hpublished : published = s.published ∨ published = Function.update s.published m.entity m.seen)
    (hlocked : ({ s with retained, published }.goto p r (.sent m)).Locked) :
    ({ s with retained, published }.goto p r (.sent m)).FreshInv := by
  have hmine : s.holder m.entity = some p := h.locked p r m hr (by rw [hpc]; rfl)
  have hm : m ∈ r.messages := List.mem_append_left _ (Option.mem_toList.mpr (by rw [hpc]; rfl))
  have hself : ∀ r', ({ s with retained, published }.goto p r (.sent m)).proc p = some r' →
      r'.pc.stampedEntity = none ∧ s.PcFresh p r'.job r'.pc ∧ ∀ m ∈ r'.messages, s.MessageFresh r'.job m :=
    fun r' hr' => self_goto h hr hr' rfl trivial fun m' hm' => .inl (by rw [hpc]; exact hm')
  have hframe : Frame p s ({ s with retained, published }.goto p r (.sent m)) := by
    refine ⟨fun _ => Nat.le_refl _, fun entity => .inr ⟨rfl, .inl rfl, ?_⟩, fun entity => ?_⟩
    · exact stamping_of (fun q hq => proc_set_of_ne _ _ hq) fun r' hr' => (hself r' hr').1
    · by_cases hentity : entity = m.entity
      · rw [hentity]
        exact .inr hmine
      · obtain rfl | rfl := hpublished
        · exact .inl rfl
        · exact .inl (Function.update_of_ne hentity ..)
  refine freshInv_of h hlocked hframe (fun q hq => proc_set_of_ne _ _ hq) (fun entity => ?_) fun r' hr' => ?_
  · change published entity ≤ s.actuated entity
    obtain rfl | rfl := hpublished
    · exact h.published entity
    · by_cases hentity : entity = m.entity
      · rw [hentity, Function.update_self]
        exact (h.messages p r hr m hm).read
      · rw [Function.update_of_ne hentity]
        exact h.published entity
  · refine ⟨?_, fun m' hm' => messageFresh_frame hframe ((hself r' hr').2.2 m' hm')⟩
    rw [goto, proc_set, Option.some.injEq] at hr'
    subst hr'
    exact trivial

section Advance
variable (h : s.FreshInv) (hr : s.proc p = some r) (hstep : s.advance p r = some s')
include h hr hstep

/-- `ha_pub_state` begins. -/
theorem freshInv_call (htimely : s.timely (.advance p) = true) {entity : Entity} {state : Value} {seen : Nat}
    (hpc : r.pc = .call entity state seen) : s'.FreshInv := by
  have hlocked : s'.Locked := locked_advance h.locked hr hstep
  have hfresh := messageFresh_call h hr hpc htimely
  simp only [advance, hpc] at hstep
  cases hstep
  refine freshInv_goto h hlocked rfl rfl rfl rfl hr ?_ ?_ (fun m hm => ?_)
  · split <;> rfl
  · split <;> exact trivial
  · split at hm
    · cases hm
    · cases hm
      exact .inr hfresh

theorem freshInv_compare (hpc : r.pc = .compare m) : s'.FreshInv := by
  have hlocked : s'.Locked := locked_advance h.locked hr hstep
  simp only [advance, hpc] at hstep
  cases hstep
  refine freshInv_goto h hlocked rfl rfl rfl rfl hr ?_ ?_ (fun m hm => ?_)
  · split <;> rfl
  · split <;> exact trivial
  · rw [hpc]
    split at hm
    · exact .inl hm
    · cases hm

/-- A message is put into the session, or published by itself. -/
theorem freshInv_emit (hpc : r.pc = .emit m) : s'.FreshInv := by
  have hlocked : s'.Locked := locked_advance h.locked hr hstep
  simp only [advance, hpc] at hstep
  cases hstep
  split at hlocked <;> rename_i hsession
  · rw [if_pos hsession]
    refine freshInv_set h hlocked fun r' hr' => ?_
    cases hr'
    refine ⟨rfl, trivial, fun m' hm' => h.messages p r hr m' ?_⟩
    rw [Proc.messages, hpc]
    simpa [Proc.messages, At.message, or_comm] using hm'
  · rw [if_neg hsession]
    exact freshInv_goto h hlocked rfl rfl rfl rfl hr rfl trivial (fun m hm => .inl (by rw [hpc]; exact hm))

/-- The next message of the session, or its end. -/
theorem freshInv_flush (hpc : r.pc = .flush) : s'.FreshInv := by
  have hlocked : s'.Locked := locked_advance h.locked hr hstep
  simp only [advance, hpc] at hstep
  split at hstep
  · cases hstep
    exact freshInv_set h hlocked fun _ => absurd_none
  · rename_i m queue hqueue
    cases hstep
    refine freshInv_set h hlocked fun r' hr' => ?_
    cases hr'
    refine ⟨rfl, trivial, fun m' hm' => h.messages p r hr m' ?_⟩
    rw [Proc.messages, hpc, hqueue]
    exact hm'

/-- What passes the check has the last value: no command has changed the epoch since it was read. -/
theorem freshInv_check (hpc : r.pc = .check m) : s'.FreshInv := by
  have hlocked : s'.Locked := locked_advance h.locked hr hstep
  have hm : m ∈ r.messages := List.mem_append_left _ (Option.mem_toList.mpr (by rw [hpc]; rfl))
  have hfresh := h.messages p r hr m hm
  simp only [advance, hpc] at hstep
  cases hstep
  refine freshInv_goto h hlocked rfl rfl rfl rfl hr ?_ ?_ (fun m hm => .inl ?_)
  · split <;> rfl
  · split
    · rename_i hepoch
      intro hjob
      rw [(hfresh.current hjob hepoch.symm).1]
      exact h.published _
    · exact trivial
  · rw [hpc]
    split at hm <;> exact hm

theorem freshInv_unlock (hpc : r.pc = .unlock m) : s'.FreshInv := by
  have hlocked : s'.Locked := locked_advance h.locked hr hstep
  simp only [advance, hpc] at hstep
  cases hstep
  have hrest : resume r = .flush ∨ resume r = .idle := by
    unfold resume
    split
    · exact .inl rfl
    · exact .inr rfl
  refine freshInv_goto h hlocked rfl rfl rfl rfl hr ?_ ?_ (fun m hm => ?_) <;> obtain hrest | hrest := hrest
  all_goals first | rw [hrest]; rfl | rw [hrest]; exact trivial | rw [hrest] at hm; cases hm

/-- A message that goes on under the lock. -/
theorem freshInv_pass (hpc : r.pc = .lock m ∨ r.pc = .sent m ∨ r.pc = .record m) : s'.FreshInv := by
  have hlocked : s'.Locked := locked_advance h.locked hr hstep
  obtain hpc | hpc | hpc := hpc
  · simp only [advance, hpc, Option.ite_none_right_eq_some, Option.some.injEq] at hstep
    obtain ⟨-, rfl⟩ := hstep
    exact freshInv_goto h hlocked rfl rfl rfl rfl hr rfl trivial (fun m hm => .inl (by rw [hpc]; exact hm))
  all_goals
    simp only [advance, hpc] at hstep
    cases hstep
    exact freshInv_goto h hlocked rfl rfl rfl rfl hr rfl trivial (fun m hm => .inl (by rw [hpc]; exact hm))

end Advance

theorem freshInv_advance (h : s.FreshInv) (htimely : s.timely (.advance p) = true) (hr : s.proc p = some r)
    (hstep : s.advance p r = some s') : s'.FreshInv := by
  cases hpc : r.pc with
  | idle | stamped _ | actuated _ =>
    simp only [advance, hpc] at hstep
    cases hstep
  | call entity state seen => exact freshInv_call h hr hstep htimely hpc
  | compare m => exact freshInv_compare h hr hstep hpc
  | emit m => exact freshInv_emit h hr hstep hpc
  | flush => exact freshInv_flush h hr hstep hpc
  | lock m => exact freshInv_pass h hr hstep (.inl hpc)
  | check m => exact freshInv_check h hr hstep hpc
  | publish m =>
    have hlocked : s'.Locked := locked_advance h.locked hr hstep
    simp only [advance, hpc] at hstep
    cases hstep
    refine freshInv_publish h hr hpc ?_ hlocked
    split
    · exact .inr rfl
    · exact .inl rfl
  | sent m => exact freshInv_pass h hr hstep (.inr (.inl hpc))
  | record m => exact freshInv_pass h hr hstep (.inr (.inr hpc))
  | unlock m => exact freshInv_unlock h hr hstep hpc

theorem freshInv_fail (h : s.FreshInv) (hr : s.proc p = some r) (hstep : s.fail p r = some s') : s'.FreshInv := by
  have hlocked : s'.Locked := locked_fail h.locked hr hstep
  cases hpc : r.pc with
  | stamped _ | actuated _ | emit _ =>
    simp only [fail, hpc] at hstep
    cases hstep
    exact freshInv_goto h hlocked rfl rfl rfl rfl hr rfl trivial (fun _ => absurd_none)
  | publish m | sent m | record m =>
    simp only [fail, hpc] at hstep
    cases hstep
    exact freshInv_goto h hlocked rfl rfl rfl rfl hr rfl trivial (fun m hm => .inl (by rw [hpc]; exact hm))
  | _ =>
    simp only [fail, hpc] at hstep
    cases hstep

/-- The stamp leaves every message of a poll behind. -/
theorem freshInv_dispatch (h : s.FreshInv) (hr : s.proc commander = some r) {entity : Entity}
    (hlocked : ({ s with epoch := Function.update s.epoch entity (s.epoch entity + 1) }.goto commander r
      (.stamped entity)).Locked) :
    ({ s with epoch := Function.update s.epoch entity (s.epoch entity + 1) }.goto commander r
      (.stamped entity)).FreshInv := by
  have hframe : Frame commander s ({ s with epoch := Function.update s.epoch entity (s.epoch entity + 1) }.goto commander r
      (.stamped entity)) := by
    refine ⟨fun _ => Nat.le_refl _, fun entity' => ?_, fun _ => .inl rfl⟩
    by_cases hentity : entity' = entity
    · left
      change _ < Function.update s.epoch entity (s.epoch entity + 1) entity'
      rw [hentity, Function.update_self]
      exact Nat.lt_succ_self _
    · refine .inr ⟨Function.update_of_ne hentity .., .inl rfl, fun hstamping => ?_⟩
      rw [goto, stamping, proc_set, Option.bind_some] at hstamping
      exact absurd (Option.some.inj hstamping).symm hentity
  refine freshInv_of h hlocked hframe (fun q hq => proc_set_of_ne _ _ hq) h.published fun r' hr' => ?_
  rw [goto, proc_set, Option.some.injEq] at hr'
  subst hr'
  refine ⟨rfl, fun m hm => messageFresh_frame hframe (h.messages _ r hr m (List.mem_append_right _ ?_))⟩
  simpa [Proc.messages, At.message] using hm

/-- No message of a poll is current when the entity is actuated. -/
theorem freshInv_actuate (h : s.FreshInv) (hr : s.proc p = some r) {entity : Entity} (hpc : r.pc = .stamped entity)
    {device : Entity → Value}
    (hlocked : ({ s with
      device
      actuated := Function.update s.actuated entity (s.actuated entity + 1) }.goto p r (.actuated entity)).Locked) :
    ({ s with
      device
      actuated := Function.update s.actuated entity (s.actuated entity + 1) }.goto p r (.actuated entity)).FreshInv := by
  have hp : p = commander := by
    have hfresh := h.pc p r hr
    rw [hpc] at hfresh
    exact hfresh
  have hstamping : s.stamping = some entity := by
    rw [stamping, ← hp, hr, Option.bind_some, hpc]
    rfl
  have hgrows : ∀ entity', s.actuated entity' ≤ Function.update s.actuated entity (s.actuated entity + 1) entity' := by
    intro entity'
    by_cases hentity : entity' = entity
    · rw [hentity, Function.update_self]
      exact Nat.le_succ _
    · rw [Function.update_of_ne hentity]
  have hframe : Frame p s ({ s with
      device
      actuated := Function.update s.actuated entity (s.actuated entity + 1) }.goto p r (.actuated entity)) := by
    refine ⟨hgrows, fun entity' => .inr ⟨rfl, ?_, ?_⟩, fun _ => .inl rfl⟩
    · by_cases hentity : entity' = entity
      · rw [hentity]
        exact .inr hstamping
      · exact .inl (Function.update_of_ne hentity ..)
    · refine stamping_of (p := p) (fun q hq => proc_set_of_ne _ _ hq) fun r' hr' => ?_
      rw [proc_set, Option.some.injEq] at hr'
      subst hr'
      rfl
  refine freshInv_of h hlocked hframe (fun q hq => proc_set_of_ne _ _ hq)
    (fun entity' => Nat.le_trans (h.published entity') (hgrows entity')) fun r' hr' => ?_
  rw [goto, proc_set, Option.some.injEq] at hr'
  subst hr'
  refine ⟨trivial, fun m hm => messageFresh_frame hframe (h.messages _ r hr m (List.mem_append_right _ ?_))⟩
  simpa [Proc.messages, At.message] using hm

theorem freshInv_step {e : HaEvent} (h : s.FreshInv) (hok : (s.serial e && s.timely e) = true)
    (hstep : s.step e = some s') : s'.FreshInv := by
  obtain ⟨hserial, htimely⟩ := (Bool.and_eq_true ..).mp hok
  have hlocked : s'.Locked := locked_step h.locked hstep
  cases e with
  | launch p job =>
    rw [step, Option.ite_none_right_eq_some, Option.some.injEq] at hstep
    obtain ⟨-, rfl⟩ := hstep
    refine freshInv_set h hlocked fun r' hr' => ?_
    cases hr'
    exact ⟨rfl, trivial, fun _ h => absurd h List.not_mem_nil⟩
  | change entity value =>
    cases hstep
    exact ⟨h.locked, h.published, h.pc, fun p r hr m hm => ⟨(h.messages p r hr m hm).read,
      (h.messages p r hr m hm).epoch, (h.messages p r hr m hm).current⟩⟩
  | dispatch p entity =>
    obtain ⟨r, hr, hstep⟩ := Option.bind_eq_some_iff.mp hstep
    rw [dispatch, Option.ite_none_right_eq_some, Option.some.injEq] at hstep
    obtain ⟨-, rfl⟩ := hstep
    obtain rfl : p = commander := of_decide_eq_true hserial
    exact freshInv_dispatch h hr hlocked
  | actuate p value =>
    obtain ⟨r, hr, hstep⟩ := Option.bind_eq_some_iff.mp hstep
    unfold actuate at hstep
    split at hstep
    · rename_i hpc
      cases hstep
      exact freshInv_actuate h hr hpc hlocked
    · cases hstep
  | request p state =>
    obtain ⟨r, hr, hstep⟩ := Option.bind_eq_some_iff.mp hstep
    unfold request at hstep
    split at hstep
    · cases hstep
      exact freshInv_goto h hlocked rfl rfl rfl rfl hr rfl (Nat.le_refl _) fun _ => absurd_none
    · cases hstep
  | read p entity =>
    obtain ⟨r, hr, hstep⟩ := Option.bind_eq_some_iff.mp hstep
    rw [Option.ite_none_right_eq_some, Option.some.injEq] at hstep
    obtain ⟨-, rfl⟩ := hstep
    exact freshInv_goto h hlocked rfl rfl rfl rfl hr rfl (Nat.le_refl _) fun _ => absurd_none
  | flush p =>
    obtain ⟨r, hr, hstep⟩ := Option.bind_eq_some_iff.mp hstep
    rw [Option.ite_none_right_eq_some, Option.some.injEq] at hstep
    obtain ⟨-, rfl⟩ := hstep
    exact freshInv_goto h hlocked rfl rfl rfl rfl hr rfl trivial fun _ => absurd_none
  | advance p =>
    obtain ⟨r, hr, hstep⟩ := Option.bind_eq_some_iff.mp hstep
    exact freshInv_advance h htimely hr hstep
  | fail p =>
    obtain ⟨r, hr, hstep⟩ := Option.bind_eq_some_iff.mp hstep
    exact freshInv_fail h hr hstep
  | kill p =>
    cases hstep
    refine freshInv_quiet h hlocked (fun q hq => proc_set_of_ne _ _ hq) rfl rfl rfl fun r' hr' => ?_
    rw [kill, proc_set] at hr'
    cases hr'
  | clear entity =>
    cases hstep
    exact ⟨h.locked, h.published, h.pc, fun p r hr m hm => ⟨(h.messages p r hr m hm).read,
      (h.messages p r hr m hm).epoch, (h.messages p r hr m hm).current⟩⟩

theorem freshInv_start (device : Entity → Value) (retained : Entity → Option Value) : (start device retained).FreshInv :=
  ⟨fun _ _ _ => absurd_none, fun _ => Nat.le_refl _, fun _ _ => absurd_none, fun _ _ => absurd_none⟩

end Home

/-- **A poll does not overwrite the result of a newer command**, in runs where no command comes between a
poll's reading of an entity and its taking of the epoch. -/
theorem deliverFresh_of_timely {device : Entity → Value} {retained : Entity → Option Value} {s : Home}
    (h : Reach Home.step (fun s e => (s.serial e && s.timely e) = true) (Home.start device retained) s) (e : HaEvent) :
    s.DeliverFresh e := by
  have hinv : s.FreshInv :=
    Reach.invariant (Home.freshInv_start device retained)
      (fun _ _ _ hs hok hstep => Home.freshInv_step hs hok hstep) h
  intro p r m _ hr hjob hpc
  have hfresh := hinv.pc p r hr
  rw [hpc] at hfresh
  exact hfresh hjob

/-- A command as far as the call of `ha_pub_state`, by the one process. -/
def commandEvents (entity : Entity) (value : Value) : List HaEvent :=
  [.dispatch commander entity, .actuate commander value, .request commander value]

/-- The publish of a value that differs from the cached one, up to the end. -/
def publishEvents : List HaEvent := List.replicate 9 (.advance commander)

/-- A poll that read before a command finds its epoch left behind, and one that reads after it delivers. -/
theorem deliverFresh_after_command :
    ∃ s, Reach Home.step (fun s e => (s.serial e && s.timely e) = true) (Home.start (fun _ => on) fun _ => none) s ∧
      s.published white = 1 ∧ s.retained white = some off ∧ s.proc 1 = some ⟨.state true true, .flush, []⟩ ∧
      s.proc 2 = some ⟨.state true true, .publish ⟨white, off, 1, 1⟩, []⟩ ∧ s.DeliverFresh (.advance 2) := by
  have hrun : ∃ s, Reach Home.step (fun s e => (s.serial e && s.timely e) = true)
      (Home.start (fun _ => on) fun _ => none) s ∧
      (s.published white = 1 ∧ s.retained white = some off ∧ s.proc 1 = some ⟨.state true true, .flush, []⟩ ∧
        s.proc 2 = some ⟨.state true true, .publish ⟨white, off, 1, 1⟩, []⟩) :=
    exists_reach ([.launch commander .commands, .launch 1 (.state true true), .launch 2 (.state true true), .read 1 white,
      .advance 1, .advance 1, .advance 1] ++ commandEvents white off ++ publishEvents ++
      [.flush 1, .advance 1, .advance 1, .advance 1, .advance 1, .read 2 white, .advance 2, .advance 2, .advance 2, .flush 2,
        .advance 2, .advance 2, .advance 2]) (by decide)
  obtain ⟨s, hs, hpublished, hretained, hskipped, hproc⟩ := hrun
  exact ⟨s, hs, hpublished, hretained, hskipped, hproc, deliverFresh_of_timely hs _⟩

/-- A poll reads the light as on; a command puts it off and publishes that; then the poll takes the epoch, and
publishes that it is on. -/
theorem old_value_with_new_epoch :
    ∃ s, Reach Home.step (fun s e => s.serial e = true) (Home.start (fun _ => on) fun _ => none) s ∧
      s.retained white = some off ∧ s.device white = off ∧
      ((s.step (.advance 1)).bind fun s' => s'.retained white) = some on ∧ ¬s.DeliverFresh (.advance 1) := by
  have hrun : ∃ s, Reach Home.step (fun s e => s.serial e = true) (Home.start (fun _ => on) fun _ => none) s ∧
      (s.retained white = some off ∧ s.device white = off ∧
        ((s.step (.advance 1)).bind fun s' => s'.retained white) = some on ∧ s.published white = 1 ∧
        s.proc 1 = some ⟨.state true true, .publish ⟨white, on, 1, 0⟩, []⟩) :=
    exists_reach ([.launch commander .commands, .launch 1 (.state true true), .read 1 white] ++ commandEvents white off ++
      publishEvents ++ [.advance 1, .advance 1, .advance 1, .flush 1, .advance 1, .advance 1, .advance 1]) (by decide)
  obtain ⟨s, hs, hretained, hdevice, hnext, hpublished, hproc⟩ := hrun
  refine ⟨s, hs, hretained, hdevice, hnext, fun h => ?_⟩
  have hfresh := h 1 _ _ rfl hproc (by decide) rfl
  rw [hpublished] at hfresh
  exact absurd hfresh (by decide)

end Thingino.Ha
