import Thingino.Lib.Lines

/-! `ha-commands`: what the broker delivers becomes commands.

`mosquitto_sub -v` writes each message as a line, its topic and its payload with a blank between them, and what
it has to report as lines of their own into the same stream. The loop reads the stream line by line, drops what
looks like a report, cuts a line at its first blank and hands both parts to `dispatch`. -/
namespace Thingino.Ha
open Lib Lines

namespace Commands

/-- A message on one of the topics `cameras/<id>/+/set`. -/
structure Message where
  entity : List Byte
  payload : List Byte
  level : 47 ∉ entity
  noNul : 0 ∉ entity ∧ 0 ∉ payload

def Message.topic (id : List Byte) (m : Message) : List Byte := ascii "cameras/" ++ id ++ 47 :: m.entity ++ ascii "/set"

/-- What a subscriber writes: messages, and lines that it has to report. -/
inductive Event
  | message (m : Message)
  | report (line : List Byte) (oneLine : 10 ∉ line)

/-! ### The loop -/

/-- A broker error. -/
def isError (line : List Byte) : Bool :=
  ascii "Error" <+: line || ascii "Connection refused" <:+: line || ascii "authentication" <:+: line ||
    ascii "not authorised" <:+: line

/-- What a line is dispatched as: topic and payload. -/
def call (line : List Byte) : Option (List Byte × List Byte) :=
  if isError line then none else if first line = [] then none else some (first line, behind line)

variable (id : List Byte)

def written : Event → List Byte
  | .message m => m.topic id ++ 32 :: m.payload ++ [10]
  | .report line _ => line ++ [10]

/-- The calls of `dispatch`, in their order. -/
def calls (es : List Event) : List (List Byte × List Byte) := (lines (es.flatMap (written id))).filterMap call

/-- The messages that were delivered. -/
def delivered (es : List Event) : List (List Byte × List Byte) :=
  es.filterMap fun
    | .message m => some (m.topic id, m.payload)
    | .report _ _ => none

/-- A message is one line, cut where its topic ends, and no broker error; a report is one, or begins with a
blank, or is empty. -/
def framed : Event → Bool
  | .message m =>
    !(m.topic id).contains 32 && !(m.topic id).contains 10 && !m.payload.contains 10 &&
      !isError (m.topic id ++ 32 :: m.payload)
  | .report line _ => isError line || (first line).isEmpty

/-! ### Dispatch -/

inductive Command
  | stamp (entity : List Byte)
  | motionGuard (on : Bool)
  | disableAuto
  | ircut (on : Bool)
  | daynight (mode : List Byte)
  | privacy (on : Bool)
  | physicalPrivacy (on : Bool)
  | color (on : Bool)
  | light (kind : List Byte) (on : Bool)
  | mic (on : Bool)
  | snapshot
  | reboot
  | upgrade
  | ptzMove (x y : Int)
  | ptzHome
  | resync
deriving DecidableEq

/-- `s|pattern||`: the first occurrence goes. -/
def removeFirst (pattern : List Byte) : List Byte → List Byte
  | [] => []
  | b :: s => if pattern <+: b :: s then (b :: s).drop pattern.length else b :: removeFirst pattern s

/-- `s|/set$||`. -/
def removeSet (s : List Byte) : List Byte := if ascii "/set" <:+ s then s.take (s.length - 4) else s

def entityOf (topic : List Byte) : List Byte :=
  (removeSet (removeFirst (ascii "cameras/" ++ id ++ [47]) topic)).map fun b => if b = 47 then 95 else b

/-- A payload out of two lists of words, or any other one. -/
def choose (on off : List String) (payload : List Byte) (command : Bool → List Command) : List Command :=
  if on.any fun word => payload = ascii word then command true
  else if off.any fun word => payload = ascii word then command false
  else []

def switch (payload : List Byte) (command : Bool → List Command) : List Command :=
  choose ["on", "ON", "1"] ["off", "OFF", "0"] payload command

/-- The commands of an entity; `proceed` is what `physpriv_intercept` answers. What is published for Home
Assistant is left out. -/
def entityCommands (proceed : Bool) (entity payload : List Byte) : List Command :=
  if entity = ascii "motion_guard" then
    choose ["on", "ON", "1", "true"] ["off", "OFF", "0", "false"] payload fun on => [.motionGuard on]
  else if entity = ascii "ircut" then
    if proceed then
      .disableAuto :: choose ["on", "ON", "day", "1"] ["off", "OFF", "night", "0"] payload (fun on => [.ircut on]) ++
        [.resync]
    else [.resync]
  else if entity = ascii "daynight" then
    if proceed then
      (if ["auto", "day", "night"].any fun word => payload = ascii word then [.daynight payload] else []) ++ [.resync]
    else [.resync]
  else if entity = ascii "privacy" then switch payload fun on => [.privacy on]
  else if entity = ascii "physical_privacy" then switch payload fun on => [.physicalPrivacy on, .resync]
  else if entity = ascii "color" then if proceed then switch payload fun on => [.color on] else [.resync]
  else if entity = ascii "ir850" ∨ entity = ascii "ir940" then
    .disableAuto :: switch payload fun on => [.light entity on]
  else if entity = ascii "white" then switch payload fun on => [.light entity on]
  else if entity = ascii "mic" then switch payload fun on => [.mic on]
  else if entity = ascii "snapshot" then [.snapshot]
  else if entity = ascii "reboot" then if payload = ascii "1" then [.reboot] else []
  else if entity = ascii "firmware" then if payload = ascii "install" then [.upgrade] else []
  else if entity = ascii "ptz_up" then [.ptzMove 0 (-100)]
  else if entity = ascii "ptz_down" then [.ptzMove 0 100]
  else if entity = ascii "ptz_left" then [.ptzMove (-100) 0]
  else if entity = ascii "ptz_right" then [.ptzMove 100 0]
  else if entity = ascii "ptz_home" then [.ptzHome]
  else []

def dispatch (proceed : Bool) (topic payload : List Byte) : List Command :=
  .stamp (entityOf id topic) :: entityCommands proceed (entityOf id topic) payload

/-! ### One event -/

variable {id : List Byte} {m : Message} {es : List Event} {t p line : List Byte}

/-- What the lines of one event are dispatched as. -/
def eventCalls (id : List Byte) : Event → List (List Byte × List Byte)
  | .message m => ((m.topic id ++ 32 :: m.payload).splitOn 10).filterMap call
  | .report line _ => (call line).toList

theorem calls_cons (id : List Byte) (e : Event) (es : List Event) :
    calls id (e :: es) = eventCalls id e ++ calls id es := by
  have happend : ∀ a s : List Byte, lines (a ++ [10] ++ s) = a.splitOn 10 ++ lines s := by
    intro a s
    rw [List.append_assoc]
    exact lines_append a s
  cases e with
  | message m =>
    rw [calls, List.flatMap_cons, written, happend, List.filterMap_append]
    rfl
  | report line h =>
    rw [calls, List.flatMap_cons, written, happend, List.filterMap_append, splitOn_line h, eventCalls]
    cases hcall : call line <;> rw [List.filterMap_cons, hcall] <;> rfl

theorem topic_cons (id : List Byte) (m : Message) : ∃ rest, m.topic id = 99 :: rest := ⟨_, rfl⟩

/-- A message that is one line is dispatched as what it is, unless the line is dropped. -/
theorem call_message (ht : 32 ∉ m.topic id) (herror : isError (m.topic id ++ 32 :: m.payload) = false) :
    call (m.topic id ++ 32 :: m.payload) = some (m.topic id, m.payload) := by
  obtain ⟨rest, hrest⟩ := topic_cons id m
  have hne : m.topic id ≠ [] := by
    rw [hrest]
    exact List.cons_ne_nil 99 rest
  rw [call, herror, first_append ht, behind_append ht, if_neg Bool.false_ne_true, if_neg hne]

theorem framed_message : framed id (.message m) = true ↔
    32 ∉ m.topic id ∧ 10 ∉ m.topic id ∧ 10 ∉ m.payload ∧ isError (m.topic id ++ 32 :: m.payload) = false := by
  simp only [framed, Bool.and_eq_true, Bool.not_eq_true', List.contains_eq_mem, decide_eq_false_iff_not, and_assoc]

theorem eventCalls_message (h : framed id (.message m) = true) :
    eventCalls id (.message m) = [(m.topic id, m.payload)] := by
  obtain ⟨hblank, htopic, hpayload, herror⟩ := framed_message.mp h
  have hline : 10 ∉ m.topic id ++ 32 :: m.payload := by
    rw [List.mem_append, List.mem_cons]
    rintro (hin | hin | hin)
    · exact htopic hin
    · cases hin
    · exact hpayload hin
  rw [eventCalls, splitOn_line hline, List.filterMap_cons, call_message hblank herror]
  rfl

/-- A report is dispatched once if it is not framed. -/
theorem length_eventCalls_report (h : 10 ∉ line) :
    (eventCalls id (.report line h)).length = if framed id (.report line h) then 0 else 1 := by
  rw [eventCalls, framed, call]
  cases isError line with
  | true => rfl
  | false =>
    cases hfirst : first line with
    | nil => rfl
    | cons b rest => rfl

/-! ### What is dispatched -/

/-- A call comes from a line that is not dropped. -/
theorem exists_of_mem_calls (h : (t, p) ∈ calls id es) :
    ∃ line, 10 ∉ line ∧ isError line = false ∧ first line = t ∧ behind line = p := by
  obtain ⟨line, hline, hcall⟩ := List.mem_filterMap.mp h
  have hnewline : 10 ∉ line := notMem_of_mem_splitOn (List.mem_of_mem_dropLast hline)
  unfold call at hcall
  split at hcall
  · cases hcall
  · rename_i herror
    split at hcall <;> cases hcall
    exact ⟨line, hnewline, Bool.eq_false_iff.mpr herror, rfl, rfl⟩

/-- A topic that is its own payload makes no broker error that the topic alone is not. -/
theorem isError_twice (ht : 32 ∉ 99 :: t) (h : isError (99 :: t) = false) :
    isError (99 :: t ++ 32 :: 99 :: t) = false := by
  simp only [isError, Bool.or_eq_false_iff, decide_eq_false_iff_not] at h ⊢
  obtain ⟨⟨⟨-, -⟩, hauth⟩, -⟩ := h
  refine ⟨⟨⟨fun hin => ?_, fun hin => ?_⟩, fun hin => ?_⟩, fun hin => ?_⟩
  · exact absurd (List.cons_prefix_cons.mp hin).1 (by decide)
  · exact absurd (List.cons_prefix_cons.mp (prefix_of_around (u := ascii "Connection") (v := ascii "refused") ht ht hin)).1
      (by decide)
  · exact (infix_parts (by decide) hin).elim hauth hauth
  · exact absurd (List.cons_prefix_cons.mp (prefix_of_around (u := ascii "not") (v := ascii "authorised") ht ht hin)).1
      (by decide)

/-- A message that is dispatched as what it is was framed. -/
theorem framed_of_mem_calls (h : (m.topic id, m.payload) ∈ calls id es) : framed id (.message m) = true := by
  obtain ⟨line, hnewline, herror, hfirst, hbehind⟩ := exists_of_mem_calls h
  have hblank : 32 ∉ m.topic id := hfirst ▸ notMem_first line
  refine framed_message.mpr ⟨hblank, fun hin => hnewline (mem_of_mem_first (hfirst ▸ hin)),
    fun hin => hnewline (mem_of_mem_behind (hbehind ▸ hin)), ?_⟩
  obtain hparts | ⟨hall, hall'⟩ := eq_or_eq line
  · rwa [hparts, hfirst, hbehind] at herror
  · -- the line has no blank: topic and payload are the same text
    have htopic : m.topic id = line := hfirst.symm.trans hall
    have hpayload : m.payload = line := hbehind.symm.trans hall'
    obtain ⟨rest, hrest⟩ := topic_cons id m
    rw [hpayload, ← htopic, hrest]
    rw [hrest] at hblank
    exact isError_twice hblank (by rw [← hrest, htopic]; exact herror)

/-! ### The whole stream -/

theorem delivered_message (es : List Event) :
    delivered id (.message m :: es) = (m.topic id, m.payload) :: delivered id es := rfl

theorem delivered_report (h : 10 ∉ line) (es : List Event) :
    delivered id (.report line h :: es) = delivered id es := rfl

theorem mem_delivered (h : .message m ∈ es) : (m.topic id, m.payload) ∈ delivered id es :=
  List.mem_filterMap.mpr ⟨.message m, h, rfl⟩

/-- When the messages are framed, the calls beyond them are those of the reports that are not. -/
theorem length_calls (h : ∀ m, .message m ∈ es → framed id (.message m) = true) :
    (calls id es).length = (delivered id es).length + (es.filter fun e => !framed id e).length := by
  induction es with
  | nil => rfl
  | cons e es ih =>
    have hrest := ih fun m hm => h m (List.mem_cons_of_mem e hm)
    rw [calls_cons, List.length_append, hrest]
    cases e with
    | message m =>
      have hframed := h m List.mem_cons_self
      rw [eventCalls_message hframed, delivered_message, List.filter_cons, hframed]
      simp only [List.length_cons, List.length_nil, Bool.not_true, Bool.false_eq_true, if_false]
      omega
    | report line hline =>
      rw [length_eventCalls_report, delivered_report, List.filter_cons]
      cases framed id (.report line hline) with
      | true =>
        simp only [if_true, Bool.not_true, Bool.false_eq_true, if_false]
        omega
      | false =>
        simp only [Bool.false_eq_true, if_false, Bool.not_false, if_true, List.length_cons]
        omega

theorem calls_of_framed (h : ∀ e ∈ es, framed id e = true) : calls id es = delivered id es := by
  induction es with
  | nil => rfl
  | cons e es ih =>
    have hrest := ih fun e' he' => h e' (List.mem_cons_of_mem e he')
    have hframed := h e List.mem_cons_self
    rw [calls_cons, hrest]
    cases e with
    | message m => rw [eventCalls_message hframed, delivered_message, List.singleton_append]
    | report line hline =>
      have hnone : eventCalls id (.report line hline) = [] :=
        List.eq_nil_of_length_eq_zero (by rw [length_eventCalls_report, if_pos hframed])
      rw [hnone, delivered_report, List.nil_append]

/-- **What is dispatched is what was delivered**, exactly when each message is framed and so is each report. -/
theorem calls_eq_delivered_iff (id : List Byte) (es : List Event) :
    calls id es = delivered id es ↔ ∀ e ∈ es, framed id e = true := by
  refine ⟨fun heq e he => ?_, calls_of_framed⟩
  have hmessages : ∀ m, .message m ∈ es → framed id (.message m) = true :=
    fun m hm => framed_of_mem_calls (heq ▸ mem_delivered hm)
  have hlength := length_calls hmessages
  rw [heq] at hlength
  have hnone : es.filter (fun e => !framed id e) = [] := List.eq_nil_of_length_eq_zero (by omega)
  simpa using List.filter_eq_nil_iff.mp hnone e he

/-- A message that reboots the camera, on the topic of the IR-cut. -/
def smuggled : Message :=
  ⟨ascii "ircut", ascii "x\ncameras/0a1b2c3d4e5f/reboot/set 1", by decide, by decide⟩

theorem payload_reboots :
    calls (ascii "0a1b2c3d4e5f") [.message smuggled] ≠ delivered (ascii "0a1b2c3d4e5f") [.message smuggled] ∧
      .reboot ∈ (calls (ascii "0a1b2c3d4e5f") [.message smuggled]).flatMap fun c =>
        dispatch (ascii "0a1b2c3d4e5f") true c.1 c.2 := by
  decide

/-! ### What is carried out -/

theorem removeFirst_append (pattern s : List Byte) (h : pattern ≠ []) : removeFirst pattern (pattern ++ s) = s := by
  obtain ⟨b, rest, rfl⟩ := List.exists_cons_of_ne_nil h
  rw [List.cons_append, removeFirst, ← List.cons_append, if_pos (List.prefix_append _ s), List.drop_left]

theorem removeSet_append (s : List Byte) : removeSet (s ++ ascii "/set") = s := by
  have hlength : (s ++ ascii "/set").length - 4 = s.length := by
    rw [List.length_append, show (ascii "/set").length = 4 from rfl, Nat.add_sub_cancel]
  rw [removeSet, if_pos (List.suffix_append s _), hlength, List.take_left]

/-- The entity of a topic is the one that was asked for. -/
theorem entityOf_topic (id : List Byte) (m : Message) : entityOf id (m.topic id) = m.entity := by
  have hshape : m.topic id = (ascii "cameras/" ++ id ++ [47]) ++ (m.entity ++ ascii "/set") := by
    simp only [Message.topic, List.append_assoc, List.cons_append, List.nil_append]
  rw [entityOf, hshape, removeFirst_append _ _ (List.append_ne_nil_of_right_ne_nil _ (List.cons_ne_nil 47 [])),
    removeSet_append]
  have hsame : ∀ b ∈ m.entity, (if b = 47 then 95 else b) = b := fun b hb => if_neg fun h : b = 47 => m.level (h ▸ hb)
  exact (List.map_congr_left hsame).trans (List.map_id' m.entity)

/-- From a framed stream each message has its own entity's commands carried out, and nothing else is. -/
theorem commands_of_framed (proceed : Bool) (h : ∀ e ∈ es, framed id e = true) :
    ((calls id es).flatMap fun c => dispatch id proceed c.1 c.2) = es.flatMap fun
      | .message m => .stamp m.entity :: entityCommands proceed m.entity m.payload
      | .report _ _ => [] := by
  rw [calls_of_framed h]
  induction es with
  | nil => rfl
  | cons e es ih =>
    have hrest := ih fun e' he' => h e' (List.mem_cons_of_mem e he')
    cases e with
    | message m =>
      rw [delivered_message, List.flatMap_cons, List.flatMap_cons, hrest, dispatch, entityOf_topic]
    | report line hline => rw [delivered_report, List.flatMap_cons, hrest, List.nil_append]

end Commands

end Thingino.Ha
