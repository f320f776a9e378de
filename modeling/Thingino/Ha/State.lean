import Mathlib.Data.List.Nodup
import Thingino.Ha.Publish
import Thingino.Lib.Grep
import Thingino.Lib.Shell

/-! A run of `ha-state`.

A switch is published by a test, a call for `ON` behind `&&` and a call for `OFF` behind `||`; the second call is
made when the first one fails as well. What other processes do meanwhile, and what fails, is in the fields of `Poll`:
for each call of `ha_pub_state` and each `_ha_pub_confirm` what it finds and how it goes. -/
namespace Thingino.Ha
open Lib Lib.Shell

/-- Acknowledged by the broker, delivered without the acknowledgement, or not delivered. -/
inductive Delivery
  | acknowledged
  | unconfirmed
  | lost
deriving DecidableEq

/-- What `_ha_pub_confirm` finds, and how it goes: the file with the value, the lock, the epoch under the lock, the
publish, and the file of the cache. -/
structure Confirm where
  present : Bool
  lock : Bool
  epoch : Value
  delivery : Delivery
  written : Bool

/-- What `ha_pub_state` finds, and how it goes: the epoch, the value in the cache (empty without one), `mktemp`, the
line for the queue, and the publish where there is no queue. -/
structure Call where
  epoch : Value
  cached : Value
  mktemp : Bool
  append : Bool
  confirm : Confirm

/-- A line of the queue. -/
structure Queued where
  entity : Entity
  state : Value
  epoch0 : Value
deriving DecidableEq

inductive Effect
  | locked (entity : Entity)
  | unlocked (entity : Entity)
  | published (entity : Entity) (state : Value)
  | cached (entity : Entity) (state : Value)
deriving DecidableEq

/-- `_HA_PUB_QUEUE_FILE` is set or not; the queue; and what has happened. -/
structure Session where
  opened : Bool
  queue : List Queued
  effects : List Effect

/-- `_ha_epoch_read`, where the file has `v`. -/
def haEpochRead (v : Value) : Value := if v = [] then ascii "0" else v

/-- `_ha_pub_confirm`: whether it succeeds, and what it does. -/
def haPubConfirm (c : Confirm) (m : Queued) : Bool × List Effect :=
  let around (effects : List Effect) : List Effect :=
    if c.lock then .locked m.entity :: (effects ++ [.unlocked m.entity]) else effects
  if !c.present then (false, [])
  else if haEpochRead c.epoch ≠ m.epoch0 then (true, around [])
  else
    match c.delivery with
    | .acknowledged =>
      (true, around (.published m.entity m.state :: if c.written then [.cached m.entity m.state] else []))
    | .unconfirmed => (false, around [.published m.entity m.state])
    | .lost => (false, around [])

/-- `_ha_queue_or_pub`. -/
def haQueueOrPub (c : Call) (m : Queued) (s : Session) : Bool × Session :=
  if s.opened then (c.append, if c.append then { s with queue := s.queue ++ [m] } else s)
  else ((haPubConfirm c.confirm m).1, { s with effects := s.effects ++ (haPubConfirm c.confirm m).2 })

/-- `ha_pub_state`. -/
def haPubState (c : Call) (force : Bool) (entity : Entity) (state : Value) (s : Session) : Bool × Session :=
  if state = [] then (true, s)
  else if !force && state = c.cached then (true, s)
  else if !c.mktemp then (false, s)
  else haQueueOrPub c ⟨entity, state, haEpochRead c.epoch⟩ s

/-! ### The script -/

/-- The entities that are on or off. -/
inductive Switch
  | motion
  | motionGuard
  | ircut
  | privacy
  | color
  | ir850
  | ir940
  | white
deriving DecidableEq

/-- The other ones. -/
inductive Sensor
  | daynight
  | daynightStatus
  | physicalPrivacy
  | mic
  | gain
  | rssi
  | overlayUsed
  | shabbat
deriving DecidableEq

def Switch.entity : Switch → Entity
  | .motion => ascii "motion"
  | .motionGuard => ascii "motion_guard"
  | .ircut => ascii "ircut"
  | .privacy => ascii "privacy"
  | .color => ascii "color"
  | .ir850 => ascii "ir850"
  | .ir940 => ascii "ir940"
  | .white => ascii "white"

/-- The name that `ha_entity_enabled` is asked for. -/
def Switch.setting : Switch → Entity
  | .white => ascii "white_light"
  | c => c.entity

def Sensor.entity : Sensor → Entity
  | .daynight => ascii "daynight"
  | .daynightStatus => ascii "daynight_status"
  | .physicalPrivacy => ascii "physical_privacy"
  | .mic => ascii "mic"
  | .gain => ascii "gain"
  | .rssi => ascii "rssi"
  | .overlayUsed => ascii "overlay_used"
  | .shabbat => ascii "shabbat"

/-- A run: what is configured, what the camera says, and how the calls go. The answers are those of `ircut read`, of
`prudyntctl json -`, and of `light … read`; a sensor has the value that its part of the script hands on, if any. -/
structure Poll where
  force : Bool
  begin : Bool
  enabled : Entity → Bool
  light : Bool
  motionAlarm : Bool
  motionActive : Bool
  privacyActive : Bool
  ircut : List Byte
  prudynt : List Byte
  ir850 : List Byte
  ir940 : List Byte
  white : List Byte
  sensor : Sensor → Option Value
  call : Entity → Value → Call
  flush : Queued → Confirm

/-- `… | tr -d '\n\r'`. -/
def oneLine (answer : List Byte) : List Byte := answer.filter fun b => b ≠ 10 && b ≠ 13

/-- `grep -o '"running_mode":[^,}]*' | cut -d: -f2 | tr -d ' '`. -/
def runningMode (answer : List Byte) : List Byte :=
  let runs := grepO (ascii "\"running_mode\":") (fun b => b ≠ 44 && b ≠ 125 && b ≠ 10) [] answer
  output (([10].intercalate (runs.map fun run => run.takeWhile (· ≠ 58))).filter (· ≠ 32))

namespace Poll

/-- What is read of a light. -/
def lightVal (p : Poll) : Switch → Option (List Byte)
  | .ir850 => some (oneLine p.ir850)
  | .ir940 => some (oneLine p.ir940)
  | .white => some (oneLine p.white)
  | _ => none

/-- The test in front of the two calls. -/
def test (p : Poll) : Switch → Bool
  | .motion => p.motionAlarm
  | .motionGuard => p.motionActive
  | .ircut => oneLine p.ircut = ascii "1"
  | .privacy => p.privacyActive
  | .color => runningMode p.prudynt = ascii "0"
  | .ir850 => oneLine p.ir850 = ascii "1"
  | .ir940 => oneLine p.ir940 = ascii "1"
  | .white => oneLine p.white = ascii "1"

/-- The conditions in front of the test: `ha_entity_enabled`, and for a light that there is a `light` and that it
reads as `0` or `1`. -/
def reached (p : Poll) (c : Switch) : Bool :=
  p.enabled c.setting && (p.lightVal c).all fun val => p.light && (val = ascii "0" || val = ascii "1")

def pubState (p : Poll) (entity : Entity) (state : Value) (s : Session) : Bool × Session :=
  haPubState (p.call entity state) p.force entity state s

/-- `[ … ] && ha_pub_state … ON || ha_pub_state … OFF`. -/
def chain (p : Poll) (c : Switch) (s : Session) : Session :=
  if !p.reached c then s
  else if p.test c then
    let (ok, s') := p.pubState c.entity on s
    if ok then s' else (p.pubState c.entity off s').2
  else (p.pubState c.entity off s).2

/-- The part of a sensor. -/
def single (p : Poll) (c : Sensor) (s : Session) : Session :=
  if !p.enabled c.entity then s
  else match p.sensor c with
    | none => s
    | some state => (p.pubState c.entity state s).2

def parts : List (Switch ⊕ Sensor) :=
  [.inl .motion, .inl .motionGuard, .inl .ircut, .inr .daynight, .inr .daynightStatus, .inl .privacy,
    .inr .physicalPrivacy, .inl .color, .inl .ir850, .inl .ir940, .inl .white, .inr .mic, .inr .gain, .inr .rssi,
    .inr .overlayUsed, .inr .shabbat]

/-- `ha_pub_flush`. -/
def pubFlush (p : Poll) (s : Session) : List Effect :=
  if s.opened then s.effects ++ s.queue.flatMap fun m => (haPubConfirm (p.flush m) m).2 else s.effects

/-- `ha-state`, up to the update of the firmware. -/
def haState (p : Poll) : List Effect :=
  p.pubFlush (parts.foldl (fun s part => part.elim (p.chain · s) (p.single · s)) ⟨p.begin, [], []⟩)

/-! ### What one call leads to -/

/-- What is read of a switch, if it is read at all. -/
def reading (p : Poll) (c : Switch) : Option Value :=
  if p.reached c then some (if p.test c then on else off) else none

def message (p : Poll) (entity : Entity) (state : Value) : Queued :=
  ⟨entity, state, haEpochRead (p.call entity state).epoch⟩

/-- Nothing is to be published. -/
def skips (p : Poll) (entity : Entity) (state : Value) : Bool :=
  state = [] || !p.force && state = (p.call entity state).cached

end Poll

/-- The value is there, and no command has come in between. -/
def Confirm.current (c : Confirm) (m : Queued) : Bool := c.present && haEpochRead c.epoch = m.epoch0

/-- The value gets to the broker. -/
def Confirm.publishes (c : Confirm) (m : Queued) : Bool := c.current m && c.delivery ≠ .lost

/-- `_ha_pub_confirm` does not succeed. -/
def Confirm.fails (c : Confirm) (m : Queued) : Bool := !c.present || c.current m && c.delivery ≠ .acknowledged

namespace Poll

/-- A call does not succeed: no file for the value, no line in the queue, or no queue and no acknowledgement. -/
def fails (p : Poll) (entity : Entity) (state : Value) : Bool :=
  !p.skips entity state && (!(p.call entity state).mktemp ||
    if p.begin then !(p.call entity state).append else (p.call entity state).confirm.fails (p.message entity state))

/-- The value of a call gets to the broker, at once or from the queue. -/
def publishes (p : Poll) (entity : Entity) (state : Value) : Bool :=
  !p.skips entity state && (p.call entity state).mktemp &&
    if p.begin then
      (p.call entity state).append && (p.flush (p.message entity state)).publishes (p.message entity state)
    else (p.call entity state).confirm.publishes (p.message entity state)

end Poll

theorem haPubConfirm_fst (c : Confirm) (m : Queued) : (haPubConfirm c m).1 = !c.fails m := by
  unfold haPubConfirm Confirm.fails Confirm.current
  cases c.present
  · rfl
  · by_cases hepoch : haEpochRead c.epoch = m.epoch0
    · simp only [hepoch, ne_eq, not_true_eq_false, if_false, Bool.not_true, Bool.false_eq_true, decide_true,
        Bool.true_and, Bool.false_or]
      cases c.delivery <;> rfl
    · simp only [hepoch, ne_eq, not_false_eq_true, if_true, Bool.not_true, Bool.false_eq_true, if_false, decide_false,
        Bool.and_false, Bool.false_and, Bool.false_or, Bool.not_false]

/-- What a publish does, where it comes to it. -/
theorem haPubConfirm_snd {c : Confirm} {m : Queued} {e : Effect} (hlocked : e ≠ .locked m.entity)
    (hunlocked : e ≠ .unlocked m.entity) : e ∈ (haPubConfirm c m).2 ↔ c.publishes m = true ∧
      (e = .published m.entity m.state ∨
        (c.delivery = .acknowledged ∧ c.written = true) ∧ e = .cached m.entity m.state) := by
  have haround (effects : List Effect) :
      e ∈ (if c.lock then .locked m.entity :: (effects ++ [.unlocked m.entity]) else effects) ↔ e ∈ effects := by
    split
    · rw [List.mem_cons, List.mem_append, List.mem_singleton, or_iff_right hlocked, or_iff_left hunlocked]
    · rfl
  unfold haPubConfirm Confirm.publishes Confirm.current
  cases c.present
  · exact iff_of_false List.not_mem_nil fun h => absurd h.1 Bool.false_ne_true
  · by_cases hepoch : haEpochRead c.epoch = m.epoch0
    · rw [if_neg (by decide), if_neg (not_not_intro hepoch), decide_eq_true hepoch]
      cases c.delivery
      · refine (haround _).trans ?_
        cases c.written <;> simp
      · refine (haround _).trans ?_
        simp
      · exact (haround []).trans (iff_of_false List.not_mem_nil fun h => absurd h.1 Bool.false_ne_true)
    · rw [if_neg (by decide), if_pos hepoch, decide_eq_false hepoch]
      exact (haround []).trans (iff_of_false List.not_mem_nil fun h => absurd h.1 Bool.false_ne_true)

/-! ### What a run leads to -/

namespace Poll
variable {p : Poll} {s : Session} {entity : Entity} {state : Value} {e : Effect}

/-- The effects of a call, with those of the flush for what it has queued. -/
def effects (p : Poll) (entity : Entity) (state : Value) : List Effect :=
  if p.skips entity state || !(p.call entity state).mktemp then []
  else if p.begin then
    if (p.call entity state).append then (haPubConfirm (p.flush (p.message entity state)) (p.message entity state)).2
    else []
  else (haPubConfirm (p.call entity state).confirm (p.message entity state)).2

theorem opened_pubState (hs : s.opened = p.begin) : (p.pubState entity state s).2.opened = p.begin := by
  unfold pubState haPubState haQueueOrPub
  split
  · exact hs
  · split
    · exact hs
    · split
      · exact hs
      · split
        · dsimp only
          split <;> exact hs
        · exact hs

/-- **What a call does to the session.** -/
theorem pubState_spec (hs : s.opened = p.begin) : (p.pubState entity state s).1 = !p.fails entity state ∧
    (e ∈ p.pubFlush (p.pubState entity state s).2 ↔ e ∈ p.pubFlush s ∨ e ∈ p.effects entity state) := by
  have hskip (h : p.skips entity state = true) (ok : Bool × Session) (hok : ok = (true, s)) :
      ok.1 = !p.fails entity state ∧ (e ∈ p.pubFlush ok.2 ↔ e ∈ p.pubFlush s ∨ e ∈ p.effects entity state) := by
    subst hok
    rw [fails, effects, h]
    exact ⟨rfl, (or_iff_left List.not_mem_nil).symm⟩
  unfold pubState haPubState
  split
  · rename_i hempty
    refine hskip ?_ _ rfl
    rw [skips, decide_eq_true hempty, Bool.true_or]
  · rename_i hempty
    split
    · rename_i hsame
      refine hskip ?_ _ rfl
      rw [skips, hsame, Bool.or_true]
    · rename_i hsame
      have hgo : p.skips entity state = false := by
        rw [skips, decide_eq_false hempty, Bool.eq_false_iff.mpr hsame]
        rfl
      unfold fails effects
      rw [hgo, ← hs]
      cases hmktemp : (p.call entity state).mktemp
      · exact ⟨rfl, (or_iff_left List.not_mem_nil).symm⟩
      · unfold haQueueOrPub
        cases hopened : s.opened
        · -- Without a queue the value is published now.
          refine ⟨haPubConfirm_fst _ _, ?_⟩
          simp only [pubFlush, hopened, Bool.false_eq_true, if_false, Bool.or_false, Bool.not_true]
          exact List.mem_append
        · cases happend : (p.call entity state).append
          · exact ⟨rfl, (or_iff_left List.not_mem_nil).symm⟩
          · refine ⟨rfl, ?_⟩
            simp only [pubFlush, hopened, if_true, Bool.or_false, Bool.not_true, Bool.false_eq_true, if_false,
              List.flatMap_append, List.flatMap_singleton, ← List.append_assoc]
            exact List.mem_append

/-- The effects of a part of the script. -/
def partEffects (p : Poll) : Switch ⊕ Sensor → List Effect
  | .inl c =>
    if !p.reached c then []
    else if p.test c then
      p.effects c.entity on ++ if p.fails c.entity on then p.effects c.entity off else []
    else p.effects c.entity off
  | .inr c => if !p.enabled c.entity then [] else (p.sensor c).toList.flatMap (p.effects c.entity)

theorem part_spec (part : Switch ⊕ Sensor) (hs : s.opened = p.begin) :
    (part.elim (p.chain · s) (p.single · s)).opened = p.begin ∧
      (e ∈ p.pubFlush (part.elim (p.chain · s) (p.single · s)) ↔ e ∈ p.pubFlush s ∨ e ∈ p.partEffects part) := by
  cases part with
  | inl c =>
    rw [Sum.elim_inl, chain, partEffects]
    split
    · exact ⟨hs, (or_iff_left List.not_mem_nil).symm⟩
    · split
      · have hspec : (p.pubState c.entity on s).1 = !p.fails c.entity on ∧
            (e ∈ p.pubFlush (p.pubState c.entity on s).2 ↔ e ∈ p.pubFlush s ∨ e ∈ p.effects c.entity on) :=
          pubState_spec hs
        obtain ⟨hok, hmem⟩ := hspec
        have hopened : (p.pubState c.entity on s).2.opened = p.begin := opened_pubState hs
        rw [List.mem_append, ← or_assoc, ← hmem]
        dsimp only
        rw [hok]
        cases p.fails c.entity on
        · exact ⟨hopened, (or_iff_left List.not_mem_nil).symm⟩
        · exact ⟨opened_pubState hopened, (pubState_spec hopened).2⟩
      · exact ⟨opened_pubState hs, (pubState_spec hs).2⟩
  | inr c =>
    rw [Sum.elim_inr, single, partEffects]
    split
    · exact ⟨hs, (or_iff_left List.not_mem_nil).symm⟩
    · cases p.sensor c with
      | none => exact ⟨hs, (or_iff_left List.not_mem_nil).symm⟩
      | some state =>
        rw [Option.toList_some, List.flatMap_singleton]
        exact ⟨opened_pubState hs, (pubState_spec hs).2⟩

/-- **A run does what its parts do.** -/
theorem mem_haState_iff : e ∈ p.haState ↔ ∃ part ∈ parts, e ∈ p.partEffects part := by
  have hrun (ps : List (Switch ⊕ Sensor)) {s : Session} (hs : s.opened = p.begin) :
      e ∈ p.pubFlush (ps.foldl (fun s part => part.elim (p.chain · s) (p.single · s)) s) ↔
        e ∈ p.pubFlush s ∨ ∃ part ∈ ps, e ∈ p.partEffects part := by
    induction ps generalizing s with
    | nil => exact (or_iff_left fun ⟨_, hmem, _⟩ => List.not_mem_nil hmem).symm
    | cons part ps ih =>
      obtain ⟨hopened, hmem⟩ := part_spec (e := e) part hs
      rw [List.foldl_cons, ih hopened, hmem, or_assoc, List.exists_mem_cons_iff]
  refine (hrun parts rfl).trans (or_iff_right ?_)
  unfold pubFlush
  split <;> exact List.not_mem_nil

/-! ### What a run publishes -/

def partEntity : Switch ⊕ Sensor → Entity := Sum.elim Switch.entity Sensor.entity

theorem parts_nodup : (parts.map partEntity).Nodup := by decide

theorem mem_parts (c : Switch) : .inl c ∈ parts := by cases c <;> simp [parts]

/-- An entity has this value, by the broker or by the cache. -/
def Tells (effects : List Effect) (entity : Entity) (state : Value) : Prop :=
  .published entity state ∈ effects ∨ .cached entity state ∈ effects

theorem tells_haPubConfirm_iff {c : Confirm} {m : Queued} :
    Tells (haPubConfirm c m).2 entity state ↔ c.publishes m = true ∧ entity = m.entity ∧ state = m.state := by
  rw [Tells, haPubConfirm_snd Effect.noConfusion Effect.noConfusion,
    haPubConfirm_snd Effect.noConfusion Effect.noConfusion]
  constructor
  · rintro (⟨hpublishes, heq | ⟨-, heq⟩⟩ | ⟨hpublishes, heq | ⟨-, heq⟩⟩)
    · exact ⟨hpublishes, Effect.published.inj heq⟩
    · exact Effect.noConfusion heq
    · exact Effect.noConfusion heq
    · exact ⟨hpublishes, Effect.cached.inj heq⟩
  · rintro ⟨hpublishes, rfl, rfl⟩
    exact .inl ⟨hpublishes, .inl rfl⟩

theorem not_tells_nil : ¬Tells [] entity state := by rintro (h | h) <;> exact List.not_mem_nil h

theorem tells_append {a b : List Effect} :
    Tells (a ++ b) entity state ↔ Tells a entity state ∨ Tells b entity state := by
  simp only [Tells, List.mem_append]
  tauto

/-- What a call tells is its own value, where it publishes it. -/
theorem tells_effects_iff {entity' : Entity} {state' : Value} :
    Tells (p.effects entity state) entity' state' ↔
      p.publishes entity state = true ∧ entity' = entity ∧ state' = state := by
  unfold effects publishes
  cases p.skips entity state
  · cases (p.call entity state).mktemp
    · exact iff_of_false not_tells_nil fun h => absurd h.1 Bool.false_ne_true
    · cases p.begin
      · exact tells_haPubConfirm_iff
      · cases (p.call entity state).append
        · exact iff_of_false not_tells_nil fun h => absurd h.1 Bool.false_ne_true
        · exact tells_haPubConfirm_iff
  · exact iff_of_false not_tells_nil fun h => absurd h.1 Bool.false_ne_true

/-- What a part of the script tells is about its own entity. -/
theorem entity_of_tells {part : Switch ⊕ Sensor} (h : Tells (p.partEffects part) entity state) :
    entity = partEntity part := by
  cases part with
  | inl c =>
    rw [partEffects] at h
    split at h
    · exact absurd h not_tells_nil
    · split at h
      · obtain h | h := tells_append.mp h
        · exact (tells_effects_iff.mp h).2.1
        · split at h
          · exact (tells_effects_iff.mp h).2.1
          · exact absurd h not_tells_nil
      · exact (tells_effects_iff.mp h).2.1
  | inr c =>
    rw [partEffects] at h
    split at h
    · exact absurd h not_tells_nil
    · cases hstate : p.sensor c with
      | none =>
        rw [hstate] at h
        exact absurd h not_tells_nil
      | some v =>
        rw [hstate, Option.toList_some, List.flatMap_singleton] at h
        exact (tells_effects_iff.mp h).2.1

/-- What a run tells about a switch. -/
theorem tells_haState_iff {c : Switch} :
    Tells p.haState c.entity state ↔ Tells (p.partEffects (.inl c)) c.entity state := by
  have hmem : Tells p.haState c.entity state ↔ ∃ part ∈ parts, Tells (p.partEffects part) c.entity state := by
    unfold Tells
    rw [mem_haState_iff, mem_haState_iff]
    constructor
    · rintro (⟨part, hpart, h⟩ | ⟨part, hpart, h⟩)
      · exact ⟨part, hpart, .inl h⟩
      · exact ⟨part, hpart, .inr h⟩
    · rintro ⟨part, hpart, h | h⟩
      · exact .inl ⟨part, hpart, h⟩
      · exact .inr ⟨part, hpart, h⟩
  rw [hmem]
  constructor
  · rintro ⟨part, hpart, h⟩
    have heq := List.inj_on_of_nodup_map parts_nodup (mem_parts c) hpart (entity_of_tells h)
    exact heq ▸ h
  · intro h
    exact ⟨_, mem_parts c, h⟩

/-- **A run publishes and caches what it has read, exactly when no call for `ON` fails whose call for `OFF` gets to
the broker.** -/
theorem haState_sound_iff (p : Poll) :
    (∀ c state, Tells p.haState c.entity state → p.reading c = some state) ↔
      ∀ c, p.reading c = some on → p.fails c.entity on = true → p.publishes c.entity off = false := by
  refine forall_congr' fun c => ?_
  have hon : ∀ {b : Bool}, (some (if b then on else off) : Option Value) = some on → b = true := by decide
  constructor
  · intro h hread hfails
    refine Bool.eq_false_iff.mpr fun hpublishes => ?_
    have htells : Tells p.haState c.entity off := by
      rw [tells_haState_iff, partEffects]
      unfold reading at hread
      split at hread
      · rename_i hreached
        rw [hreached, hon hread, hfails]
        exact tells_append.mpr (.inr (tells_effects_iff.mpr ⟨hpublishes, rfl, rfl⟩))
      · exact absurd hread.symm (Option.some_ne_none _)
    exact absurd (hread.symm.trans (h off htells)) (by decide)
  · intro h state htells
    rw [tells_haState_iff, partEffects] at htells
    unfold reading at h ⊢
    cases hreached : p.reached c with
    | false =>
      rw [hreached] at htells
      exact absurd htells not_tells_nil
    | true =>
      rw [hreached] at htells h
      cases htest : p.test c with
      | false =>
        rw [htest] at htells
        rw [(tells_effects_iff.mp htells).2.2]
        rfl
      | true =>
        rw [htest] at htells h
        obtain htells | htells := tells_append.mp htells
        · rw [(tells_effects_iff.mp htells).2.2]
          rfl
        · split at htells
          · rename_i hfails
            have hpublishes := (tells_effects_iff.mp htells).1
            rw [h rfl hfails] at hpublishes
            exact absurd hpublishes Bool.false_ne_true
          · exact absurd htells not_tells_nil

/-- There is motion and no file for the queue; the broker does not acknowledge `ON` in time. -/
def timeoutPoll : Poll where
  force := false
  begin := false
  enabled entity := entity = ascii "motion"
  light := false
  motionAlarm := true
  motionActive := false
  privacyActive := false
  ircut := []
  prudynt := []
  ir850 := []
  ir940 := []
  white := []
  sensor _ := none
  call _ state := ⟨[], [], true, true, ⟨true, true, [], if state = on then .unconfirmed else .acknowledged, true⟩⟩
  flush _ := ⟨true, true, [], .acknowledged, true⟩

/-- `OFF` is published and cached. -/
theorem off_after_timeout : timeoutPoll.reading .motion = some on ∧
    .published (ascii "motion") off ∈ timeoutPoll.haState ∧ .cached (ascii "motion") off ∈ timeoutPoll.haState := by
  decide

end Poll

end Thingino.Ha
