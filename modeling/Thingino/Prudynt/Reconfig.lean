import Thingino.Lib.Transition

/-! Live encoder settings: five slots and a flag between the JSON API and the video worker.

The API thread writes the configuration, stores the configured values of the named knobs into
their slots and raises `reconfig` behind them. The worker, when it has an encoder, exchanges the
flag for `false` and then each slot for -1, and passes what it finds to the encoder. Neither side
waits for the other, so a batch may be taken in two halves; the flag that comes behind it makes
the worker look again. -/
namespace Thingino.Prudynt
open Lib

namespace Reconfig

inductive Knob
  | bitrate
  | fps
  | gop
  | qpMin
  | qpMax
deriving DecidableEq

/-- A field of the message as `obj_get` finds it; `other` is `null` or any value but a number. -/
inductive Field
  | absent
  | other
  | number (value : Int)
deriving DecidableEq

/-- `is_num_set`. -/
def Field.isNumSet : Field → Bool
  | .number _ => true
  | _ => false

/-- A non-negative number. -/
def Field.isValue : Field → Bool
  | .number value => 0 ≤ value
  | _ => false

abbrev Message := Knob → Field

/-- The slots a message fills, in this order. -/
def Message.queue (m : Message) : List Knob :=
  (if (m .bitrate).isNumSet then [.bitrate] else []) ++
    (if (m .fps).isNumSet then [.fps] else []) ++
    (if (m .gop).isNumSet then [.gop] else []) ++
    (if (m .qpMin).isNumSet || (m .qpMax).isNumSet then [.qpMin, .qpMax] else [])

/-- A message that asks for values and sets none. -/
def Message.readsOnly (m : Message) : Bool :=
  !((m .bitrate).isNumSet || (m .fps).isNumSet || (m .gop).isNumSet || (m .qpMin).isNumSet || (m .qpMax).isNumSet)

/-- The setters of `IMPEncoder`. -/
inductive Call
  | setLiveBitrate (kbps : Int)
  | setLiveFps (frmRateNum frmRateDen : Int)
  | setLiveGop (gop : Int)
  | setLiveQp (qpMin qpMax : Int)
deriving DecidableEq

/-- What a call passes for a knob. -/
def Call.argument : Call → Knob → Option Int
  | .setLiveBitrate kbps, .bitrate => some kbps
  | .setLiveFps frmRateNum _, .fps => some frmRateNum
  | .setLiveGop gop, .gop => some gop
  | .setLiveQp qpMin _, .qpMin => some qpMin
  | .setLiveQp _ qpMax, .qpMax => some qpMax
  | _, _ => none

/-- The argument where it is a value: a negative one leaves the encoder as it is. -/
def Call.value (call : Call) (k : Knob) : Option Int := (call.argument k).filter (0 ≤ ·)

def lastArgument (calls : List Call) (k : Knob) : Option Int := calls.findSome? (·.argument k)

def lastValue (calls : List Call) (k : Knob) : Option Int := calls.findSome? (·.value k)

/-- Where the worker is in its iteration. -/
inductive Pc
  | test
  | exchange
  | bitrate
  | fps
  | gop
  | qpMin
  | qpMax (qmin : Int)
  | rest

/-- `posting` has the slots that the API thread has yet to fill, with the flag to come behind them;
`calls` has the last call first. -/
structure VideoStream where
  cfg : Knob → Int
  req : Knob → Int
  reconfig : Bool
  encoder : Bool
  posting : Option (List Knob)
  pc : Pc
  calls : List Call

inductive Event
  | message (m : Message)
  | post
  | advance
  | encoder (present : Bool)

namespace VideoStream
variable (accepts : Knob → Int → Bool)

/-- `add_int`: a new value goes into the configuration if its check accepts it. -/
def addInt (cfg : Knob → Int) (m : Message) (k : Knob) : Int :=
  match m k with
  | .number newv => if cfg k ≠ newv then if accepts k newv then newv else cfg k else cfg k
  | _ => cfg k

/-- `handle_stream` up to its first store. -/
def handleStream (s : VideoStream) (m : Message) : Option VideoStream :=
  match s.posting with
  | some _ => none
  | none => some { s with
      cfg := addInt accepts s.cfg m
      posting := if m.queue = [] then none else some m.queue }

/-- The next store of `handle_stream`. -/
def post (s : VideoStream) : Option VideoStream :=
  match s.posting with
  | none => none
  | some (k :: ks) => some { s with req := Function.update s.req k (s.cfg k), posting := some ks }
  | some [] => some { s with reconfig := true, posting := none }

/-- `exchange(-1)` on a slot. -/
def empty (s : VideoStream) (k : Knob) : VideoStream := { s with req := Function.update s.req k (-1) }

/-- Empties the slot of a knob and passes a value on. -/
def drain (s : VideoStream) (k : Knob) (setLive : Int → Call) (pc : Pc) : VideoStream :=
  let v := s.req k
  { s.empty k with calls := if 0 ≤ v then setLive v :: s.calls else s.calls, pc }

/-- The next access of the worker. -/
def advance (s : VideoStream) : VideoStream :=
  match s.pc with
  | .test => { s with pc := if s.encoder then .exchange else .rest }
  | .exchange => { s with reconfig := false, pc := if s.reconfig then .bitrate else .rest }
  | .bitrate => s.drain .bitrate .setLiveBitrate .fps
  | .fps => s.drain .fps (.setLiveFps · 1) .gop
  | .gop => s.drain .gop .setLiveGop .qpMin
  | .qpMin => { s.empty .qpMin with pc := .qpMax (s.req .qpMin) }
  | .qpMax qmin =>
    let qmax := s.req .qpMax
    { s.empty .qpMax with
      calls := if 0 ≤ qmin ∨ 0 ≤ qmax then .setLiveQp qmin qmax :: s.calls else s.calls
      pc := .rest }
  | .rest => { s with pc := .test }

def step (s : VideoStream) : Event → Option VideoStream
  | .message m => s.handleStream accepts m
  | .post => s.post
  | .advance => some s.advance
  | .encoder present => some { s with encoder := present }

end VideoStream

/-- Beside the stream, for the record: the knobs ever set to a non-negative number, whether the
worker's iteration found an encoder with no message under way or since, and whether such an
iteration is complete. -/
structure Watched where
  stream : VideoStream
  asked : Knob → Bool
  fresh : Bool
  settled : Bool

namespace Watched

def note (w : Watched) : Event → Watched
  | .message m =>
    { w with
      asked := fun k => w.asked k || (m k).isValue
      fresh := false
      settled := false }
  | .advance =>
    match w.stream.pc with
    | .test => { w with fresh := w.stream.encoder && w.stream.posting.isNone }
    | .rest => { w with settled := w.settled || w.fresh, fresh := false }
    | _ => w
  | _ => w

def step (accepts : Knob → Int → Bool) (w : Watched) (e : Event) : Option Watched :=
  (w.stream.step accepts e).map fun stream => { w.note e with stream }

/-- Nothing is queued and nothing has been set. -/
def start (cfg : Knob → Int) (encoder : Bool) : Watched :=
  ⟨⟨cfg, fun _ => -1, false, encoder, none, .test, []⟩, fun _ => false, false, false⟩

end Watched

/-- **The property**, with `last` for the last value passed for a knob, and `counts` for the
configured values it is about. -/
structure Applied (last : List Call → Knob → Option Int) (counts : Int → Prop) (w : Watched) : Prop where
  slots : w.settled = true → ∀ k, w.stream.req k = -1
  reconfig : w.settled = true → w.stream.reconfig = false
  applied : w.settled = true → ∀ k, w.asked k = true → counts (w.stream.cfg k) →
    last w.stream.calls k = some (w.stream.cfg k)

/-! ### The invariant -/

theorem lastValue_cons (call : Call) (calls : List Call) (k : Knob) :
    lastValue (call :: calls) k = (call.value k).or (lastValue calls k) := by
  rw [lastValue, List.findSome?_cons]
  cases call.value k <;> rfl

/-- A call says nothing about the knobs it has no argument for. -/
theorem lastValue_cons_of_none {call : Call} {k : Knob} (h : call.argument k = none) (calls : List Call) :
    lastValue (call :: calls) k = lastValue calls k := by
  rw [lastValue_cons, Call.value, h]
  rfl

theorem lastValue_cons_of_some {call : Call} {k : Knob} {v : Int} (h : call.argument k = some v) (calls : List Call) :
    lastValue (call :: calls) k = if 0 ≤ v then some v else lastValue calls k := by
  rw [lastValue_cons, Call.value, h]
  by_cases hv : 0 ≤ v <;> simp [hv, Option.filter]

theorem queue_eq_nil_iff {m : Message} : m.queue = [] ↔ m.readsOnly = true := by
  unfold Message.queue Message.readsOnly
  cases (m .bitrate).isNumSet <;> cases (m .fps).isNumSet <;> cases (m .gop).isNumSet <;>
    cases (m .qpMin).isNumSet <;> cases (m .qpMax).isNumSet <;> decide

/-- What is set is queued. -/
theorem mem_queue {m : Message} {k : Knob} (h : (m k).isNumSet = true) : k ∈ m.queue := by
  unfold Message.queue
  cases k <;> simp [h]

theorem isValue_of_not_set {field : Field} (h : field.isNumSet = false) : field.isValue = false := by
  cases field with
  | absent | other => rfl
  | number => cases h

namespace VideoStream
variable {accepts : Knob → Int → Bool} {s s' : VideoStream} {k : Knob}

theorem addInt_of_not_set {cfg : Knob → Int} {m : Message} (h : (m k).isNumSet = false) :
    addInt accepts cfg m k = cfg k := by
  unfold addInt
  split
  · rename_i hm
    rw [hm] at h
    cases h
  · rfl

theorem cfg_handleStream {m : Message} (hset : (m k).isNumSet = false) (hstep : s.handleStream accepts m = some s') :
    s'.cfg k = s.cfg k := by
  unfold handleStream at hstep
  split at hstep
  · cases hstep
  · cases hstep
    exact addInt_of_not_set hset

/-- The worker is between the exchange of the flag and that of the slot. -/
def ahead : Pc → Knob → Bool
  | .bitrate, _ => true
  | .fps, k => k ≠ .bitrate
  | .gop, k => k = .gop ∨ k = .qpMin ∨ k = .qpMax
  | .qpMin, k => k = .qpMin ∨ k = .qpMax
  | .qpMax _, k => k = .qpMax
  | _, _ => false

/-- The last value for a knob, with the call that the worker is about to make. -/
def shown (s : VideoStream) (k : Knob) : Option Int :=
  match s.pc, k with
  | .qpMax qmin, .qpMin => if 0 ≤ qmin then some qmin else lastValue s.calls .qpMin
  | _, k => lastValue s.calls k

/-- The configured value is in its slot, or it has gone from there to the encoder. -/
def Arrives (s : VideoStream) (k : Knob) : Prop :=
  s.req k = s.cfg k ∨ (s.req k = -1 ∧ s.shown k = some (s.cfg k))

/-- The API thread has yet to store it, or it is on its way. -/
def Delivers (s : VideoStream) (k : Knob) : Prop := (∃ ks, s.posting = some ks ∧ k ∈ ks) ∨ s.Arrives k

/-- A slot that is in use is looked at again. -/
def Flagged (s : VideoStream) (k : Knob) : Prop :=
  s.req k = -1 ∨ s.posting.isSome = true ∨ s.reconfig = true ∨ ahead s.pc k = true

theorem Arrives.frame (h : s.Arrives k) (hcfg : s'.cfg k = s.cfg k) (hreq : s'.req k = s.req k)
    (hshown : s'.shown k = s.shown k) : s'.Arrives k := by
  unfold Arrives
  rw [hcfg, hreq, hshown]
  exact h

theorem Delivers.frame (h : s.Delivers k) (hposting : s'.posting = s.posting) (hcfg : s'.cfg k = s.cfg k)
    (hreq : s'.req k = s.req k) (hshown : s'.shown k = s.shown k) : s'.Delivers k := by
  unfold Delivers
  rw [hposting]
  exact h.imp id fun h => h.frame hcfg hreq hshown

/-- Emptying a slot hands its value to the encoder. -/
theorem Delivers.taken (h : s.Delivers k) (hpos : 0 ≤ s.cfg k) (hposting : s'.posting = s.posting)
    (hcfg : s'.cfg = s.cfg) (hreq : s'.req k = -1)
    (hshown : s'.shown k = if 0 ≤ s.req k then some (s.req k) else s.shown k) : s'.Delivers k := by
  unfold Delivers
  rw [hposting]
  refine h.imp id fun h => .inr ⟨hreq, ?_⟩
  rw [hshown, hcfg]
  obtain hslot | ⟨hempty, hold⟩ := h
  · rw [hslot, if_pos hpos]
  · rw [hempty, if_neg (by decide), hold]

theorem req_empty (s : VideoStream) (k : Knob) : (s.empty k).req k = -1 := Function.update_self ..

theorem req_empty_of_ne (s : VideoStream) {j k : Knob} (h : j ≠ k) : (s.empty k).req j = s.req j :=
  Function.update_of_ne h ..

section Drain
variable {j : Knob} {setLive : Int → Call} {pc : Pc}

theorem lastValue_drain_self (hself : ∀ v, (setLive v).argument j = some v) :
    lastValue (s.drain j setLive pc).calls j = if 0 ≤ s.req j then some (s.req j) else lastValue s.calls j := by
  unfold drain
  by_cases hv : 0 ≤ s.req j
  · simp only [if_pos hv]
    rw [lastValue_cons_of_some (hself _), if_pos hv]
  · simp only [if_neg hv]

theorem lastValue_drain_of_ne (hother : ∀ v, (setLive v).argument k = none) :
    lastValue (s.drain j setLive pc).calls k = lastValue s.calls k := by
  unfold drain
  by_cases hv : 0 ≤ s.req j
  · simp only [if_pos hv]
    exact lastValue_cons_of_none (hother _) _
  · simp only [if_neg hv]

/-- Emptying the slot of a knob with a setter of its own. -/
theorem delivers_drain (h : s.Delivers k) (hpos : 0 ≤ s.cfg k) (hself : ∀ v, (setLive v).argument j = some v)
    (hother : ∀ v i, i ≠ j → (setLive v).argument i = none) (hbefore : s.shown k = lastValue s.calls k)
    (hafter : (s.drain j setLive pc).shown k = lastValue (s.drain j setLive pc).calls k) :
    (s.drain j setLive pc).Delivers k := by
  by_cases hk : k = j
  · subst hk
    refine h.taken hpos rfl rfl (req_empty s k) ?_
    rw [hafter, hbefore]
    exact lastValue_drain_self hself
  · refine h.frame rfl rfl (req_empty_of_ne s hk) ?_
    rw [hafter, hbefore]
    exact lastValue_drain_of_ne fun v => hother v k hk

end Drain

theorem shown_of_pc (hpc : ∀ qmin, s.pc ≠ .qpMax qmin) : s.shown k = lastValue s.calls k := by
  unfold shown
  split
  · rename_i qmin hq
    exact absurd hq (hpc qmin)
  · rfl

/-- The call at the end of the drain, with both bounds. -/
theorem lastValue_setLiveQp (qmin qmax : Int) (calls : List Call) :
    lastValue (if 0 ≤ qmin ∨ 0 ≤ qmax then .setLiveQp qmin qmax :: calls else calls) k =
      match k with
      | .qpMin => if 0 ≤ qmin then some qmin else lastValue calls .qpMin
      | .qpMax => if 0 ≤ qmax then some qmax else lastValue calls .qpMax
      | k => lastValue calls k := by
  by_cases hq : 0 ≤ qmin ∨ 0 ≤ qmax
  · rw [if_pos hq]
    cases k with
    | qpMin => exact lastValue_cons_of_some rfl calls
    | qpMax => exact lastValue_cons_of_some rfl calls
    | bitrate | fps | gop => exact lastValue_cons_of_none rfl calls
  · rw [if_neg hq]
    rw [not_or] at hq
    cases k with
    | qpMin => exact (if_neg hq.1).symm
    | qpMax => exact (if_neg hq.2).symm
    | bitrate | fps | gop => rfl

theorem delivers_advance (h : s.Delivers k) (hpos : 0 ≤ s.cfg k) : s.advance.Delivers k := by
  cases hpc : s.pc with
  | test =>
    simp only [advance, hpc]
    refine h.frame rfl rfl rfl ?_
    rw [shown_of_pc (s := s) (by simp [hpc])]
    exact shown_of_pc (by dsimp only; split <;> simp)
  | exchange =>
    simp only [advance, hpc]
    refine h.frame rfl rfl rfl ?_
    rw [shown_of_pc (s := s) (by simp [hpc])]
    exact shown_of_pc (by dsimp only; split <;> simp)
  | rest =>
    simp only [advance, hpc]
    exact h.frame rfl rfl rfl (by simp only [shown, hpc])
  | bitrate | fps | gop =>
    simp only [advance, hpc]
    exact delivers_drain h hpos (fun _ => rfl) (fun _ i hi => by cases i <;> first | rfl | exact absurd rfl hi)
      (shown_of_pc (by simp [hpc])) (shown_of_pc (by simp [drain]))
  | qpMin =>
    simp only [advance, hpc]
    have hbefore : s.shown k = lastValue s.calls k := shown_of_pc (by simp [hpc])
    by_cases hk : k = .qpMin
    · subst hk
      refine h.taken hpos rfl rfl (req_empty s .qpMin) ?_
      rw [hbefore]
      rfl
    · refine h.frame rfl rfl (req_empty_of_ne s hk) ?_
      rw [hbefore]
      cases k <;> first | rfl | exact absurd rfl hk
  | qpMax qmin =>
    have hcalls := fun k => lastValue_setLiveQp (k := k) qmin (s.req .qpMax) s.calls
    simp only [advance, hpc]
    by_cases hk : k = .qpMax
    · subst hk
      refine h.taken hpos rfl rfl (req_empty s .qpMax) ?_
      rw [shown_of_pc (by simp)]
      simp only [hcalls, shown, hpc]
    · refine h.frame rfl rfl (req_empty_of_ne s hk) ?_
      rw [shown_of_pc (by simp)]
      cases k with
      | qpMax => exact absurd rfl hk
      | qpMin | bitrate | fps | gop => simp only [hcalls, shown, hpc]

theorem delivers_post (h : s.Delivers k) (hstep : s.post = some s') : s'.Delivers k := by
  unfold post at hstep
  split at hstep
  · cases hstep
  · rename_i j ks hposting
    cases hstep
    by_cases hk : k = j
    · subst hk
      exact .inr (.inl (Function.update_self ..))
    · obtain ⟨ks', hks', hmem⟩ | h := h
      · rw [hposting, Option.some.injEq] at hks'
        subst hks'
        exact .inl ⟨ks, rfl, (List.mem_cons.mp hmem).resolve_left hk⟩
      · exact .inr (h.frame rfl (Function.update_of_ne hk ..) rfl)
  · rename_i hposting
    cases hstep
    obtain ⟨ks, hks, hmem⟩ | h := h
    · rw [hposting, Option.some.injEq] at hks
      subst hks
      cases hmem
    · exact .inr h

/-- A knob that a message sets is queued; another one stays where it is. -/
theorem delivers_handleStream {m : Message} (hstep : s.handleStream accepts m = some s')
    (h : (m k).isNumSet = false → s.Delivers k) : s'.Delivers k := by
  unfold handleStream at hstep
  split at hstep
  · cases hstep
  · rename_i hposting
    cases hstep
    cases hset : (m k).isNumSet with
    | true =>
      have hmem := mem_queue hset
      have hqueue : m.queue ≠ [] := List.ne_nil_of_mem hmem
      exact .inl ⟨m.queue, if_neg hqueue, hmem⟩
    | false =>
      obtain ⟨ks, hks, -⟩ | h := h hset
      · rw [hposting] at hks
        cases hks
      · exact .inr (h.frame (addInt_of_not_set hset) rfl rfl)

theorem Flagged.frame (h : s.Flagged k) (hposting : s'.posting = s.posting) (hreq : s'.req k = s.req k)
    (hreconfig : s'.reconfig = s.reconfig) (hahead : ahead s'.pc k = ahead s.pc k) : s'.Flagged k := by
  unfold Flagged
  rw [hposting, hreq, hreconfig, hahead]
  exact h

/-- Behind the slot that has just been emptied, the others are still ahead. -/
theorem flagged_empty {j : Knob} (h : s.Flagged k) (hposting : s'.posting = s.posting)
    (hreq : s'.req = (s.empty j).req) (hreconfig : s'.reconfig = s.reconfig)
    (hahead : k ≠ j → ahead s'.pc k = ahead s.pc k) : s'.Flagged k := by
  by_cases hk : k = j
  · subst hk
    exact .inl (hreq ▸ req_empty s k)
  · exact h.frame hposting (hreq ▸ req_empty_of_ne s hk) hreconfig (hahead hk)

theorem flagged_advance (h : s.Flagged k) : s.advance.Flagged k := by
  cases hpc : s.pc with
  | test =>
    simp only [advance, hpc]
    refine h.frame rfl rfl rfl ?_
    rw [hpc]
    dsimp only
    split <;> rfl
  | exchange =>
    simp only [advance, hpc]
    cases hflag : s.reconfig with
    | true => exact .inr (.inr (.inr rfl))
    | false => exact h.frame rfl rfl hflag.symm (by rw [hpc]; rfl)
  | bitrate =>
    simp only [advance, hpc]
    refine flagged_empty h rfl rfl rfl fun hk => ?_
    rw [hpc]
    exact decide_eq_true hk
  | fps | gop | qpMin | qpMax =>
    simp only [advance, hpc]
    refine flagged_empty h rfl rfl rfl fun hk => ?_
    rw [hpc]
    cases k <;> first | rfl | exact absurd rfl hk
  | rest =>
    simp only [advance, hpc]
    exact h.frame rfl rfl rfl (by rw [hpc]; rfl)

theorem flagged_post (hstep : s.post = some s') : s'.Flagged k := by
  unfold post at hstep
  split at hstep
  · cases hstep
  · cases hstep
    exact .inr (.inl rfl)
  · cases hstep
    exact .inr (.inr (.inl rfl))

theorem flagged_handleStream {m : Message} (h : s.Flagged k) (hstep : s.handleStream accepts m = some s') :
    s'.Flagged k := by
  unfold handleStream at hstep
  split at hstep
  · cases hstep
  · rename_i hposting
    cases hstep
    by_cases hqueue : m.queue = []
    · exact h.frame (by simp only [hqueue, if_true, hposting]) rfl rfl rfl
    · exact .inr (.inl (by simp [hqueue]))

end VideoStream

namespace Watched
variable {accepts : Knob → Int → Bool} {w w' : Watched}

/-- The worker has the flag behind it in this iteration. -/
def past : Pc → Bool
  | .test | .exchange => false
  | _ => true

/-- The worker is at the slots. -/
def draining : Pc → Bool
  | .test | .exchange | .rest => false
  | _ => true

theorem ahead_of_not_draining {pc : Pc} {k : Knob} (h : draining pc = false) : VideoStream.ahead pc k = false := by
  cases pc with
  | test | exchange | rest => rfl
  | bitrate | fps | gop | qpMin | qpMax => cases h

structure Inv (w : Watched) : Prop where
  delivers : ∀ k, w.asked k = true → 0 ≤ w.stream.cfg k → w.stream.Delivers k
  flagged : ∀ k, w.stream.Flagged k
  fresh : w.fresh = true → w.stream.posting = none ∧ (past w.stream.pc = true → w.stream.reconfig = false)
  settled : w.settled = true →
    w.stream.posting = none ∧ w.stream.reconfig = false ∧ draining w.stream.pc = false

theorem inv_start (cfg : Knob → Int) (encoder : Bool) : (start cfg encoder).Inv :=
  ⟨fun _ => (nomatch ·), fun _ => .inl rfl, (nomatch ·), (nomatch ·)⟩

theorem inv_message {m : Message} (h : w.Inv) (hstep : w.step accepts (.message m) = some w') : w'.Inv := by
  obtain ⟨stream, hs, rfl⟩ := Option.map_eq_some_iff.mp hstep
  refine ⟨fun k hasked hpos => ?_, fun k => VideoStream.flagged_handleStream (h.flagged k) hs, (nomatch ·), (nomatch ·)⟩
  refine VideoStream.delivers_handleStream hs fun hset => ?_
  have hcfg := VideoStream.cfg_handleStream hset hs
  have hbefore : (w.asked k || (m k).isValue) = true := hasked
  rw [isValue_of_not_set hset, Bool.or_false] at hbefore
  exact h.delivers k hbefore (hcfg ▸ hpos)

theorem inv_post (h : w.Inv) (hstep : w.step accepts .post = some w') : w'.Inv := by
  obtain ⟨stream, hs, rfl⟩ := Option.map_eq_some_iff.mp hstep
  have hposting : w.stream.posting ≠ none := by
    intro hnone
    simp only [VideoStream.step, VideoStream.post, hnone] at hs
    cases hs
  have hcfg : stream.cfg = w.stream.cfg := by
    simp only [VideoStream.step, VideoStream.post] at hs
    split at hs <;> cases hs <;> rfl
  refine ⟨fun k hasked hpos => ?_, fun k => VideoStream.flagged_post hs, fun hf => ?_, fun hf => ?_⟩
  · exact VideoStream.delivers_post (h.delivers k hasked (hcfg ▸ hpos)) hs
  · exact absurd (h.fresh hf).1 hposting
  · exact absurd (h.settled hf).1 hposting

/-- The worker touches neither the configuration nor what the API has yet to store. -/
theorem advance_frame (s : VideoStream) : s.advance.cfg = s.cfg ∧ s.advance.posting = s.posting := by
  unfold VideoStream.advance
  split <;> exact ⟨rfl, rfl⟩

theorem fresh_advance (h : w.Inv) (hf : (w.note .advance).fresh = true) :
    w.stream.posting = none ∧ (past w.stream.advance.pc = true → w.stream.advance.reconfig = false) := by
  cases hpc : w.stream.pc with
  | test =>
    simp only [note, hpc, Bool.and_eq_true, Option.isNone_iff_eq_none] at hf
    refine ⟨hf.2, fun hpast => ?_⟩
    simp only [VideoStream.advance, hpc, hf.1, if_true] at hpast
    cases hpast
  | exchange =>
    simp only [note, hpc] at hf
    exact ⟨(h.fresh hf).1, fun _ => by simp only [VideoStream.advance, hpc]⟩
  | bitrate | fps | gop | qpMin | qpMax =>
    simp only [note, hpc] at hf
    obtain ⟨hposting, hreconfig⟩ := h.fresh hf
    rw [hpc] at hreconfig
    refine ⟨hposting, fun _ => ?_⟩
    simp only [VideoStream.advance, hpc]
    exact hreconfig rfl
  | rest =>
    simp only [note, hpc] at hf
    cases hf

theorem settled_advance (h : w.Inv) (hf : (w.note .advance).settled = true) :
    w.stream.posting = none ∧ w.stream.advance.reconfig = false ∧ draining w.stream.advance.pc = false := by
  cases hpc : w.stream.pc with
  | test =>
    simp only [note, hpc] at hf
    obtain ⟨hposting, hreconfig, -⟩ := h.settled hf
    simp only [VideoStream.advance, hpc]
    exact ⟨hposting, hreconfig, by split <;> rfl⟩
  | exchange =>
    simp only [note, hpc] at hf
    obtain ⟨hposting, hreconfig, -⟩ := h.settled hf
    simp only [VideoStream.advance, hpc, hreconfig]
    exact ⟨hposting, trivial, rfl⟩
  | bitrate | fps | gop | qpMin | qpMax =>
    simp only [note, hpc] at hf
    have hdrain := (h.settled hf).2.2
    rw [hpc] at hdrain
    cases hdrain
  | rest =>
    simp only [note, hpc, Bool.or_eq_true] at hf
    simp only [VideoStream.advance, hpc]
    obtain hf | hf := hf
    · obtain ⟨hposting, hreconfig, -⟩ := h.settled hf
      exact ⟨hposting, hreconfig, rfl⟩
    · obtain ⟨hposting, hreconfig⟩ := h.fresh hf
      exact ⟨hposting, hreconfig (by rw [hpc]; rfl), rfl⟩

theorem inv_advance (h : w.Inv) : Inv { w.note .advance with stream := w.stream.advance } := by
  obtain ⟨hcfg, hposting⟩ := advance_frame w.stream
  have hasked : (w.note .advance).asked = w.asked := by
    simp only [note]
    split <;> rfl
  refine ⟨fun k hk hpos => ?_, fun k => VideoStream.flagged_advance (h.flagged k), fun hf => ?_, fun hf => ?_⟩
  · rw [hcfg] at hpos
    exact VideoStream.delivers_advance (h.delivers k (hasked ▸ hk) hpos) hpos
  · simp only [hposting]
    exact fresh_advance h hf
  · simp only [hposting]
    exact settled_advance h hf

theorem inv_step {e : Event} (h : w.Inv) (hstep : w.step accepts e = some w') : w'.Inv := by
  cases e with
  | message m => exact inv_message h hstep
  | post => exact inv_post h hstep
  | advance =>
    cases hstep
    exact inv_advance h
  | encoder present =>
    cases hstep
    exact ⟨fun k hk hpos => (h.delivers k hk hpos).frame rfl rfl rfl rfl, fun k => (h.flagged k).frame rfl rfl rfl rfl,
      h.fresh, h.settled⟩

/-- At rest the slots are empty, so what was set has arrived. -/
theorem Inv.applied (h : w.Inv) : Applied lastValue (0 ≤ ·) w := by
  have hslots : w.settled = true → ∀ k, w.stream.req k = -1 := by
    intro hf k
    obtain ⟨hposting, hreconfig, hdrain⟩ := h.settled hf
    obtain hempty | hflag | hflag | hflag := h.flagged k
    · exact hempty
    · rw [hposting] at hflag
      cases hflag
    · rw [hreconfig] at hflag
      cases hflag
    · rw [ahead_of_not_draining hdrain] at hflag
      cases hflag
  refine ⟨hslots, fun hf => (h.settled hf).2.1, fun hf k hasked hpos => ?_⟩
  obtain ⟨hposting, -, hdrain⟩ := h.settled hf
  have hempty := hslots hf k
  obtain ⟨ks, hks, -⟩ | hslot | ⟨-, hshown⟩ := h.delivers k hasked hpos
  · rw [hposting] at hks
    cases hks
  · omega
  · rw [← hshown, VideoStream.shown_of_pc]
    intro qmin hpc
    rw [hpc] at hdrain
    cases hdrain

end Watched

/-! ### Messages that only read -/

/-- A message that only reads leaves the slots, the flag and the configuration alone. -/
theorem handleStream_of_readsOnly {accepts : Knob → Int → Bool} {s s' : VideoStream} {m : Message}
    (h : m.readsOnly = true) (hstep : s.handleStream accepts m = some s') : s' = s := by
  unfold VideoStream.handleStream at hstep
  split at hstep
  · cases hstep
  · rename_i hposting
    have hqueue := queue_eq_nil_iff.mpr h
    have hcfg : VideoStream.addInt accepts s.cfg m = s.cfg := by
      funext k
      refine VideoStream.addInt_of_not_set (Bool.eq_false_iff.mpr fun hset => ?_)
      exact List.ne_nil_of_mem (mem_queue hset) hqueue
    rw [hcfg, if_pos hqueue, ← hposting] at hstep
    exact (Option.some.inj hstep).symm

def Event.acts : Event → Bool
  | .message m => !m.readsOnly
  | _ => true

/-- A run without those messages makes the same calls. -/
theorem run_filter_acts {accepts : Knob → Int → Bool} {s s' : VideoStream} {es : List Event}
    (h : run (VideoStream.step accepts) (fun _ _ => True) s es = some s') :
    run (VideoStream.step accepts) (fun _ _ => True) s (es.filter Event.acts) = some s' := by
  induction es generalizing s with
  | nil => exact h
  | cons e es ih =>
    rw [run, if_pos trivial, Option.bind_eq_some_iff] at h
    obtain ⟨s₁, hs₁, hrest⟩ := h
    cases hacts : e.acts with
    | true =>
      rw [List.filter_cons_of_pos hacts, run, if_pos trivial, hs₁]
      exact ih hrest
    | false =>
      rw [List.filter_cons_of_neg (by simp [hacts])]
      cases e with
      | message m =>
        have hreads : m.readsOnly = true := by simpa [Event.acts] using hacts
        rw [← handleStream_of_readsOnly hreads hs₁]
        exact ih hrest
      | post | advance | encoder => cases hacts

/-- **No update is lost**, whatever the order of the stores and the exchanges: once the worker has
looked at an encoder behind the last message, nothing is queued, and the last value passed for a knob
is the configured one. A message that only reads makes no difference to the calls. -/
theorem applied_when_settled (accepts : Knob → Int → Bool) (cfg : Knob → Int) (encoder : Bool) :
    (∀ w, Reach (Watched.step accepts) (fun _ _ => True) (Watched.start cfg encoder) w → Applied lastValue (0 ≤ ·) w) ∧
      ∀ s es s', run (VideoStream.step accepts) (fun _ _ => True) s es = some s' →
        run (VideoStream.step accepts) (fun _ _ => True) s (es.filter Event.acts) = some s' := by
  refine ⟨fun w h => ?_, fun s es s' h => run_filter_acts h⟩
  have hinv : w.Inv :=
    Reach.invariant (Watched.inv_start cfg encoder) (fun _ _ _ hw _ hstep => Watched.inv_step hw hstep) h
  exact hinv.applied

/-! ### Runs -/

/-- A check that accepts every number. -/
def lenient : Knob → Int → Bool := fun _ _ => true

/-- A message that sets one knob. -/
def only (k : Knob) (value : Int) : Message := fun j => if j = k then .number value else .absent

/-- A message that sets both bounds. -/
def bounds (qpMin qpMax : Int) : Message
  | .qpMin => .number qpMin
  | .qpMax => .number qpMax
  | _ => .absent

/-- An iteration that finds the flag raised. -/
def fullRound : List Event := List.replicate 8 .advance

/-- The worker drains between the two stores of a batch: `setLiveQp(20, -1)`, then `setLiveQp(-1, 40)`. -/
def tornBatch : List Event :=
  [.message (only .bitrate 1000), .post, .post, .message (bounds 20 40), .post] ++ fullRound ++ [.post, .post] ++ fullRound

/-- A bound is set and then left to the encoder again. -/
def withdrawn : List Event :=
  [.message (only .qpMin 20), .post, .post, .post] ++ fullRound ++ [.message (only .qpMin (-1)), .post, .post, .post] ++
    fullRound

/-- The torn batch, and the last values passed are the configured ones all the same. -/
theorem applied_torn_batch :
    ∃ w, Reach (Watched.step lenient) (fun _ _ => True) (Watched.start (fun _ => -1) true) w ∧
      w.settled = true ∧ w.asked .qpMin = true ∧ w.stream.cfg .qpMin = 20 ∧ Applied lastValue (0 ≤ ·) w := by
  have hrun : ∃ w, Reach (Watched.step lenient) (fun _ _ => True) (Watched.start (fun _ => -1) true) w ∧
      (w.settled = true ∧ w.asked .qpMin = true ∧ w.stream.cfg .qpMin = 20) :=
    exists_reach tornBatch (by decide)
  obtain ⟨w, hw, hsettled, hasked, hcfg⟩ := hrun
  exact ⟨w, hw, hsettled, hasked, hcfg, (applied_when_settled lenient (fun _ => -1) true).1 w hw⟩

/-- The last argument for a knob may be -1 with another value configured, and a knob that has been
set may be configured to -1 with the value still in the encoder. -/
theorem last_argument_not_configured :
    (∃ w, Reach (Watched.step lenient) (fun _ _ => True) (Watched.start (fun _ => -1) true) w ∧
      ¬Applied lastArgument (fun _ => True) w ∧ ¬Applied lastArgument (0 ≤ ·) w) ∧
    ∃ w, Reach (Watched.step lenient) (fun _ _ => True) (Watched.start (fun _ => -1) true) w ∧
      ¬Applied lastArgument (fun _ => True) w ∧ ¬Applied lastValue (fun _ => True) w := by
  constructor
  · have hrun : ∃ w, Reach (Watched.step lenient) (fun _ _ => True) (Watched.start (fun _ => -1) true) w ∧
        (w.settled = true ∧ w.asked .qpMin = true ∧ w.stream.cfg .qpMin = 20 ∧
          lastArgument w.stream.calls .qpMin = some (-1)) :=
      exists_reach tornBatch (by decide)
    obtain ⟨w, hw, hsettled, hasked, hcfg, hlast⟩ := hrun
    refine ⟨w, hw, fun h => ?_, fun h => ?_⟩
    · have := h.applied hsettled .qpMin hasked trivial
      rw [hcfg, hlast] at this
      exact absurd this (by decide)
    · have := h.applied hsettled .qpMin hasked (hcfg ▸ by decide)
      rw [hcfg, hlast] at this
      exact absurd this (by decide)
  · have hrun : ∃ w, Reach (Watched.step lenient) (fun _ _ => True) (Watched.start (fun _ => -1) true) w ∧
        (w.settled = true ∧ w.asked .qpMin = true ∧ w.stream.cfg .qpMin = -1 ∧
          lastArgument w.stream.calls .qpMin = some 20 ∧ lastValue w.stream.calls .qpMin = some 20) :=
      exists_reach withdrawn (by decide)
    obtain ⟨w, hw, hsettled, hasked, hcfg, hargument, hvalue⟩ := hrun
    refine ⟨w, hw, fun h => ?_, fun h => ?_⟩
    · have := h.applied hsettled .qpMin hasked trivial
      rw [hcfg, hargument] at this
      exact absurd this (by decide)
    · have := h.applied hsettled .qpMin hasked trivial
      rw [hcfg, hvalue] at this
      exact absurd this (by decide)

end Reconfig

end Thingino.Prudynt
