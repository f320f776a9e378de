import Thingino.Esphome.Proto
import Thingino.Lib.CString

/-! A voice assistant event from the network, and the address that is played with it.

The data of an event are messages in the message. The loop over one of them has the bytes of the outer message, and
looks only between two fields whether it has come to the end of the entry; and whether the bytes could be read at all
is not asked before the event is handled. `SoundEvent` says of the bytes where this does no harm, and there the event
is read as what it is (`isolates_iff`). -/
namespace Thingino.Esphome

open Lib Lib.Protobuf

/-! ### The parser -/

/-- The two buffers of an entry. -/
structure Entry where
  key : List Byte := []
  value : List Byte := []
  deriving DecidableEq

structure VoiceEvent where
  eventType : Nat := 0
  ttsUrl : List Byte := []
  deriving DecidableEq

/-- A string of an entry; a buffer is written only where the string is read. -/
def stringField (pb : PbHelpers) (size wire : Nat) (s : List Byte) (entry : Entry) (set : List Byte → Entry) :
    Option (List Byte) × Entry :=
  if wire = 2 then
    match pb.decodeString size s with
    | some (text, s) => (some s, set text)
    | none => (none, entry)
  else (pb.skipField wire s, entry)

def entryField (pb : PbHelpers) (number wire : Nat) (s : List Byte) (entry : Entry) : Option (List Byte) × Entry :=
  match number with
  | 1 => stringField pb 64 wire s entry fun text => { entry with key := text }
  | 2 => stringField pb 512 wire s entry fun text => { entry with value := text }
  | _ => (pb.skipField wire s, entry)

/-- One tag of an entry and its field; the number of a field is a `uint32_t`. -/
def entryNext (pb : PbHelpers) (s : List Byte) (entry : Entry) : Option (List Byte) × Entry :=
  match pb.decodeVarint s with
  | none => (none, entry)
  | some (tag, s) => entryField pb (tag / 8 % 4294967296) (tag % 8) s entry

/-- The inner loop, for so many tags. `s` is what is left of the whole message of `size` bytes, and `subEnd` the place
where the entry should end. -/
def entryLoop (pb : PbHelpers) (size subEnd : Nat) : Nat → List Byte → Entry → Option (List Byte) × Entry
  | 0, s, entry => (some s, entry)
  | n + 1, s, entry =>
    if size - s.length < subEnd then
      match entryNext pb s entry with
      | (none, entry) => (none, entry)
      | (some s, entry) => entryLoop pb size subEnd n s entry
    else (some s, entry)

/-- What an entry does to the event; the strings end at a NUL. -/
def VoiceEvent.take (event : VoiceEvent) (entry : Entry) : VoiceEvent :=
  if cstr entry.key = ascii "url" ∧ cstr entry.value ≠ [] then { event with ttsUrl := (cstr entry.value).take 511 }
  else event

/-- The end of an entry is a `size_t` of 32 bits. -/
def entryEnd (size : Nat) (len : Nat) (s : List Byte) : Nat := (size - s.length + len) % 4294967296

/-- The `switch` over a field of the message. `garbage` is what an uninitialised variable holds. -/
def eventField (pb : PbHelpers) (garbage size number wire : Nat) (s : List Byte) (event : VoiceEvent) :
    Option (List Byte) × VoiceEvent :=
  match number with
  | 1 =>
    if wire = 0 then
      match pb.decodeVarint s with
      | some (value, s) => (some s, { event with eventType := value % 4294967296 })
      | none => (none, { event with eventType := garbage % 4294967296 })
    else (pb.skipField wire s, event)
  | 2 =>
    if wire = 2 then
      match pb.decodeVarint s with
      | some (len, s) =>
        let r := entryLoop pb size (entryEnd size len s) (s.length + 1) s {}
        (r.1, event.take r.2)
      | none => (none, event)
    else (pb.skipField wire s, event)
  | _ => (pb.skipField wire s, event)

/-- One tag of the message and its field. -/
def eventNext (pb : PbHelpers) (garbage size : Nat) (s : List Byte) (event : VoiceEvent) :
    Option (List Byte) × VoiceEvent :=
  match pb.decodeVarint s with
  | none => (none, event)
  | some (tag, s) => eventField pb garbage size (tag / 8 % 4294967296) (tag % 8) s event

/-- The outer loop. -/
def eventLoop (pb : PbHelpers) (garbage size : Nat) : Nat → List Byte → VoiceEvent → VoiceEvent
  | _, [], event => event
  | 0, _ :: _, event => event
  | n + 1, b :: s, event =>
    match eventNext pb garbage size (b :: s) event with
    | (none, event) => event
    | (some s, event) => eventLoop pb garbage size n s event

def parseEvent (pb : PbHelpers) (garbage : Nat) (data : List Byte) : VoiceEvent :=
  eventLoop pb garbage data.length data.length data {}

/-- The address that the event plays: `TTS_END` with an address. -/
def VoiceEvent.plays (event : VoiceEvent) : Option (List Byte) :=
  if event.eventType = 8 ∧ event.ttsUrl ≠ [] then some event.ttsUrl else none

/-! ### What a message says -/

/-- An entry with the fields behind it. -/
def Entry.update (entry : Entry) (fs : List WireField) : Entry where
  key := (last (WireField.delimited? 1) fs).getD entry.key
  value := (last (WireField.delimited? 2) fs).getD entry.value

def Entry.address (entry : Entry) : Option (List Byte) :=
  if entry.key = ascii "url" ∧ entry.value ≠ [] then some entry.value else none

/-- The address in an entry that is a message. -/
def urlOf (data : List Byte) : Option (List Byte) := (readFields data).bind fun fs => (Entry.update {} fs).address

def VoiceEvent.update (event : VoiceEvent) (fs : List WireField) : VoiceEvent where
  eventType := ((last (WireField.varint? 1) fs).map (· % 4294967296)).getD event.eventType
  ttsUrl := (last (fun f => (WireField.delimited? 2 f).bind urlOf) fs).getD event.ttsUrl

/-- An entry is a message itself. -/
def isWhole (f : WireField) : Bool := (WireField.delimited? 2 f).all fun entry => (readFields entry).isSome

/-- The message is complete fields, and so is each of its entries. -/
def Reads (data : List Byte) (fs : List WireField) : Prop := data = encode fs ∧ fs.all isWhole = true

/-- The field that some bytes of a message begin with. -/
def readEvent (s : List Byte) : Option (WireField × List Byte) := (readField s).filter fun r => isWhole r.1

/-- **The property** of a message: it is read as what it says, and a malformed one plays nothing; -/
def Isolates (pb : PbHelpers) (garbage : Nat) (data : List Byte) : Prop :=
  (∀ fs, Reads data fs → parseEvent pb garbage data = VoiceEvent.update {} fs) ∧
    ((¬∃ fs, Reads data fs) → (parseEvent pb garbage data).plays = none)

/-- the field at a place is taken with just its bytes, and where there is none, or a malformed entry, that is an
error; -/
def TakesField (pb : PbHelpers) (garbage size : Nat) (s : List Byte) : Prop :=
  match readEvent s with
  | some (f, rest) => ∀ event, eventNext pb garbage size s event = (some rest, event.update [f])
  | none => ∀ event, (eventNext pb garbage size s event).1 = none

/-- wherever the loop comes to in it. -/
def EntryWise (pb : PbHelpers) (garbage : Nat) (data : List Byte) : Prop :=
  ∀ fs s, data = encode fs ++ s → fs.all isWhole = true → TakesField pb garbage data.length s

/-! ### Where the parser takes it so -/

/-- The text of a field with this number in its low 32 bits. -/
def textOf (n : Nat) (f : WireField) : Option (List Byte) :=
  if f.number % 4294967296 = n then f.payload.text? else none

/-- The buffers have room for the name and the value. -/
def hasRoom (f : WireField) : Bool := (textOf 1 f).all (·.length < 64) && (textOf 2 f).all (·.length < 512)

/-- An entry by the low bits of the numbers, -/
def Entry.read (entry : Entry) (fs : List WireField) : Entry where
  key := (last (textOf 1) fs).getD entry.key
  value := (last (textOf 2) fs).getD entry.value

/-- and the address in it where the strings end at a NUL. -/
def seenUrl (fs : List WireField) : Option (List Byte) :=
  Entry.address { key := cstr (Entry.read {} fs).key, value := cstr (Entry.read {} fs).value }

/-- A complete field: if its number looks like that of the type, it is the type; and if it looks like that of an
entry, its text is complete fields that fit, with the address that the field has. -/
def soundField (f : WireField) : Bool :=
  match f.number % 4294967296, f.payload with
  | 1, .varint _ => f.number = 1
  | 2, .delimited _ data _ =>
    (readFields data).any fun es => es.all hasRoom && seenUrl es = (WireField.delimited? 2 f).bind urlOf
  | _, _ => true

/-- The length of what looks like an entry, and what stands behind it. -/
def entryAt (s : List Byte) : Option (Varint × List Byte) :=
  (readVarint s).bind fun tag =>
    if tag.1.value / 8 % 4294967296 = 2 ∧ tag.1.value % 8 = 2 then readVarint tag.2 else none

/-- The complete fields behind the length of an entry come up to where it should end. -/
def reachesEnd (size : Nat) (len : Varint) (s : List Byte) : Bool :=
  entryEnd size len.value s ≤ size - s.length + (encode (row hasRoom s)).length

/-- A place in a message: a complete field that is sound; or a malformed one, in which the parser does not come to
the end of the entry. -/
def soundPlace (size : Nat) (s : List Byte) : Bool :=
  match readEvent s with
  | some (f, _) => soundField f
  | none => (entryAt s).all fun r => !reachesEnd size r.1 r.2

/-- The number of the type, without it. -/
def typeAt (s : List Byte) : Bool :=
  (readVarint s).any fun tag => tag.1.value / 8 % 4294967296 = 1 && tag.1.value % 8 = 0

/-- What an event is behind a malformed field: the fields of an entry are read up to where it is malformed, and for a
type that is cut off stands what was in memory. -/
def VoiceEvent.broken (garbage : Nat) (event : VoiceEvent) (s : List Byte) : VoiceEvent :=
  match entryAt s with
  | some (_, rest) => { event with ttsUrl := (seenUrl (row hasRoom rest)).getD event.ttsUrl }
  | none => if typeAt s then { event with eventType := garbage % 4294967296 } else event

/-- The fields of a message end at a place: at the end of the message, or where it is malformed. -/
def EndsAt (data : List Byte) (fs : List WireField) (s : List Byte) : Prop :=
  data = encode fs ++ s ∧ fs.all isWhole = true ∧ readEvent s = none

/-- **The condition**: the places behind complete fields are sound, and where a malformed field stands, there is no
address to play. -/
structure SoundEvent (garbage : Nat) (data : List Byte) : Prop where
  sound : ∀ fs s, data = encode fs ++ s → fs.all isWhole = true → soundPlace data.length s = true
  silent : ∀ fs s, EndsAt data fs s → s ≠ [] → ((VoiceEvent.update {} fs).broken garbage s).plays = none

/-! ### An entry -/

section Entries
variable {pb : PbHelpers} {f : WireField} {es : List WireField} {s rest : List Byte} {entry entry' : Entry}
  {size subEnd n : Nat}

theorem entry_read_cons (entry : Entry) (f : WireField) (es : List WireField) :
    entry.read (f :: es) = (entry.read [f]).read es := by
  have hkey := getD_last_cons (textOf 1) id f es entry.key
  have hvalue := getD_last_cons (textOf 2) id f es entry.value
  simp only [Option.map_id, id] at hkey hvalue
  unfold Entry.read
  simp only [hkey, hvalue]

/-- A string is read where it fits, and any other payload is skipped. -/
theorem stringField_eq (hpb : pb.Standard) (p : Payload) (rest : List Byte) (entry : Entry)
    (set : List Byte → Entry) :
    stringField pb size p.wire (p.bytes ++ rest) entry set =
      if p.text?.all (·.length < size) then (some rest, (p.text?.map set).getD entry) else (none, entry) := by
  cases p with
  | delimited len data hdata =>
    rw [stringField, Payload.wire, if_pos rfl, hpb.decodeString_append]
    simp only [Payload.text?, Option.all_some, decide_eq_true_eq]
    by_cases hshort : data.length < size
    · rw [if_pos hshort, if_pos hshort]
      rfl
    · rw [if_neg hshort, if_neg hshort]
  | varint v =>
    rw [stringField, hpb.skipField_append]
    rfl
  | fixed64 data hdata =>
    rw [stringField, hpb.skipField_append]
    rfl
  | fixed32 data hdata =>
    rw [stringField, hpb.skipField_append]
    rfl

theorem entryField_eq (hpb : pb.Standard) (f : WireField) (rest : List Byte) (entry : Entry) :
    entryField pb (f.number % 4294967296) (f.tag.value % 8) (f.payload.bytes ++ rest) entry =
      if hasRoom f then (some rest, entry.read [f]) else (none, entry) := by
  unfold hasRoom Entry.read
  simp only [last_single, textOf]
  rw [f.wire_eq]
  by_cases h1 : f.number % 4294967296 = 1
  · rw [h1, entryField, stringField_eq hpb]
    cases f.payload.text? <;> simp
  · by_cases h2 : f.number % 4294967296 = 2
    · rw [h2, entryField, stringField_eq hpb]
      cases f.payload.text? <;> simp
    · rw [if_neg h1, if_neg h2, entryField, hpb.skipField_append]
      · rfl
      · exact h1
      · exact h2

/-- Where no payload is, nothing is read. -/
theorem entryField_none (hpb : pb.Standard) {number wire : Nat} (h : readPayload wire s = none) (entry : Entry) :
    entryField pb number wire s entry = (none, entry) := by
  have hstring : ∀ size set, stringField pb size wire s entry set = (none, entry) := by
    intro size set
    unfold stringField
    split
    · rename_i hwire
      rw [hpb.decodeString_none (hwire ▸ h)]
    · rw [hpb.skipField_none h]
  unfold entryField
  split
  · exact hstring 64 _
  · exact hstring 512 _
  · rw [hpb.skipField_none h]

/-- One turn of the loop takes a complete field that fits, and fails over anything else. -/
theorem entryNext_append (hpb : pb.Standard) (f : WireField) (rest : List Byte) (entry : Entry) :
    entryNext pb (f.bytes ++ rest) entry = if hasRoom f then (some rest, entry.read [f]) else (none, entry) := by
  rw [entryNext, WireField.bytes, List.append_assoc, hpb.decodeVarint_append]
  exact entryField_eq hpb f rest entry

theorem entryNext_none (hpb : pb.Standard) (h : readField s = none) (entry : Entry) :
    entryNext pb s entry = (none, entry) := by
  rcases readField_eq_none h with htag | ⟨tag, rest, rfl, hpayload⟩
  · have hvarint : readPayload 0 s = none := by
      rw [readPayload, htag]
      rfl
    rw [entryNext, hpb.decodeVarint_none hvarint]
  · rw [entryNext, hpb.decodeVarint_append]
    exact entryField_none hpb hpayload entry

/-- The loop over complete fields that fit ends where they do. -/
theorem entryLoop_encode (hpb : pb.Standard) (entry : Entry) (hroom : es.all hasRoom = true)
    (hsize : (encode es ++ rest).length ≤ size) (hn : (encode es).length < n) :
    entryLoop pb size (size - rest.length) n (encode es ++ rest) entry = (some rest, entry.read es) := by
  induction es generalizing n entry with
  | nil =>
    cases n with
    | zero => exact absurd hn (Nat.not_lt_zero _)
    | succ n => exact if_neg (Nat.lt_irrefl _)
  | cons f es ih =>
    rw [List.all_cons, Bool.and_eq_true] at hroom
    have hpos := length_field_pos f
    rw [encode_cons, List.append_assoc, List.length_append] at hsize
    rw [encode_cons, List.length_append] at hn
    cases n with
    | zero => omega
    | succ n =>
      have hinside : size - (encode (f :: es) ++ rest).length < size - rest.length := by
        rw [encode_cons, List.append_assoc, List.length_append, List.length_append]
        rw [List.length_append] at hsize
        omega
      rw [entryLoop, if_pos hinside, encode_cons, List.append_assoc, entryNext_append hpb, if_pos hroom.1]
      dsimp only
      rw [ih (entry.read [f]) hroom.2 (by omega) (by omega), ← entry_read_cons]

/-- Where it comes to an end, it has read complete fields that fit, up to the end at least; -/
theorem entryLoop_eq_some (hpb : pb.Standard) (h : entryLoop pb size subEnd n s entry = (some rest, entry'))
    (hn : s.length < n) :
    ∃ es, s = encode es ++ rest ∧ es.all hasRoom = true ∧ subEnd ≤ size - rest.length ∧ entry' = entry.read es := by
  induction n generalizing s entry with
  | zero => exact absurd hn (Nat.not_lt_zero _)
  | succ n ih =>
    rw [entryLoop] at h
    split at h
    · cases hfield : readField s with
      | none =>
        rw [entryNext_none hpb hfield] at h
        cases h
      | some r =>
        obtain ⟨f, more⟩ := r
        obtain rfl := readField_eq_some hfield
        have hpos := length_field_pos f
        rw [List.length_append] at hn
        rw [entryNext_append hpb] at h
        by_cases hroom : hasRoom f = true
        · rw [if_pos hroom] at h
          obtain ⟨es, rfl, hall, hend, hread⟩ := ih h (by omega)
          refine ⟨f :: es, (List.append_assoc _ _ _).symm, ?_, hend, ?_⟩
          · rw [List.all_cons, hroom, hall]
            rfl
          · rw [hread]
            exact (entry_read_cons entry f es).symm
        · rw [if_neg hroom] at h
          cases h
    · rename_i hend
      cases h
      exact ⟨[], rfl, rfl, Nat.not_lt.mp hend, rfl⟩

/-- and where it fails, all complete fields that fit, and they do not come up to the end. -/
theorem entryLoop_eq_none (hpb : pb.Standard) (h : entryLoop pb size subEnd n s entry = (none, entry'))
    (hsize : s.length ≤ size) :
    size - s.length + (encode (row hasRoom s)).length < subEnd ∧ entry' = entry.read (row hasRoom s) := by
  induction n generalizing s entry with
  | zero => cases h
  | succ n ih =>
    rw [entryLoop] at h
    split at h
    · rename_i hinside
      cases hfield : readField s with
      | none =>
        rw [entryNext_none hpb hfield] at h
        cases h
        rw [row_of_none hfield]
        exact ⟨hinside, rfl⟩
      | some r =>
        obtain ⟨f, more⟩ := r
        obtain rfl := readField_eq_some hfield
        rw [entryNext_append hpb] at h
        rw [List.length_append] at hsize
        by_cases hroom : hasRoom f = true
        · rw [if_pos hroom] at h
          obtain ⟨hend, hread⟩ := ih h (by omega)
          rw [row_append, if_pos hroom, encode_cons, List.length_append, List.length_append]
          refine ⟨by omega, ?_⟩
          rw [hread, ← entry_read_cons]
        · rw [if_neg hroom] at h
          cases h
          rw [row_append, if_neg hroom]
          exact ⟨hinside, rfl⟩
    · cases h

theorem entryLoop_snd (hpb : pb.Standard) (h : (entryLoop pb size subEnd n s entry).1 = none) (hsize : s.length ≤ size) :
    (entryLoop pb size subEnd n s entry).2 = entry.read (row hasRoom s) := by
  cases hloop : entryLoop pb size subEnd n s entry with
  | mk left entry' =>
    rw [hloop] at h
    cases h
    exact (entryLoop_eq_none hpb hloop hsize).2

/-- The row of fields reaches as far as any fields that fit. -/
theorem length_row_le (hroom : es.all hasRoom = true) :
    (encode es).length ≤ (encode (row hasRoom (encode es ++ rest))).length := by
  induction es with
  | nil => exact Nat.zero_le _
  | cons f es ih =>
    rw [List.all_cons, Bool.and_eq_true] at hroom
    have hmore := ih hroom.2
    rw [encode_cons, List.append_assoc, row_append, if_pos hroom.1, encode_cons, List.length_append, List.length_append]
    omega

/-- The loop over an entry fails exactly where the fields do not reach the end. -/
theorem entryLoop_fails_iff (hpb : pb.Standard) (hsize : s.length ≤ size) (hn : s.length < n) :
    (entryLoop pb size subEnd n s entry).1 = none ↔ size - s.length + (encode (row hasRoom s)).length < subEnd := by
  cases h : entryLoop pb size subEnd n s entry with
  | mk left entry' =>
    cases left with
    | none => exact iff_of_true rfl (entryLoop_eq_none hpb h hsize).1
    | some rest =>
      refine iff_of_false (Option.some_ne_none rest) fun hlt => ?_
      obtain ⟨es, rfl, hroom, hend, -⟩ := entryLoop_eq_some hpb h hn
      have hreach := @length_row_le es rest hroom
      rw [List.length_append] at hsize hlt
      omega

/-- A value that is read fits its buffer; -/
theorem value_short (hroom : es.all hasRoom = true) : (Entry.read {} es).value.length < 512 := by
  rw [List.all_eq_true] at hroom
  unfold Entry.read
  dsimp only
  cases htext : last (textOf 2) es with
  | none => exact Nat.succ_pos 511
  | some text =>
    obtain ⟨f, hf, hfield⟩ := last_eq_some htext
    have hshort := hroom f hf
    rw [hasRoom, Bool.and_eq_true, hfield] at hshort
    exact of_decide_eq_true hshort.2

/-- an entry gives the event its address. -/
theorem take_read (event : VoiceEvent) (hroom : es.all hasRoom = true) :
    event.take (Entry.read {} es) = { event with ttsUrl := (seenUrl es).getD event.ttsUrl } := by
  have hshort := value_short hroom
  have hlen := (cstr_isPrefix (Entry.read {} es).value).length_le
  rw [VoiceEvent.take, List.take_of_length_le (by omega), seenUrl, Entry.address]
  dsimp only
  split <;> rfl

end Entries

/-! ### A message -/

section Messages
variable {pb : PbHelpers} {f : WireField} {fs gs : List WireField} {s s' rest data : List Byte} {len : Varint}
  {garbage size n : Nat}

theorem event_update_cons (event : VoiceEvent) (f : WireField) (fs : List WireField) :
    event.update (f :: fs) = (event.update [f]).update fs := by
  have hurl := getD_last_cons (fun f => (WireField.delimited? 2 f).bind urlOf) id f fs event.ttsUrl
  simp only [Option.map_id, id] at hurl
  unfold VoiceEvent.update
  simp only [getD_last_cons _ _ f fs, hurl]

theorem event_update_append (event : VoiceEvent) (fs gs : List WireField) :
    event.update (fs ++ gs) = (event.update fs).update gs := by
  induction fs generalizing event with
  | nil => rfl
  | cons f fs ih => rw [List.cons_append, event_update_cons, ih, ← event_update_cons]

theorem event_update_single (event : VoiceEvent) (f : WireField) :
    event.update [f] =
      { eventType := ((f.varint? 1).map (· % 4294967296)).getD event.eventType
        ttsUrl := ((f.delimited? 2).bind urlOf).getD event.ttsUrl } := by
  unfold VoiceEvent.update
  rw [last_single, last_single]

theorem eventNext_append (hpb : pb.Standard) (tag : Varint) (s : List Byte) (event : VoiceEvent) :
    eventNext pb garbage size (tag.bytes ++ s) event =
      eventField pb garbage size (tag.value / 8 % 4294967296) (tag.value % 8) s event := by
  rw [eventNext, hpb.decodeVarint_append]

/-- A field that is neither the type nor an entry is skipped. -/
theorem eventField_skip {number wire : Nat} (h1 : ¬(number = 1 ∧ wire = 0)) (h2 : ¬(number = 2 ∧ wire = 2))
    (s : List Byte) (event : VoiceEvent) :
    eventField pb garbage size number wire s event = (pb.skipField wire s, event) := by
  unfold eventField
  split
  · exact if_neg fun h => h1 ⟨rfl, h⟩
  · exact if_neg fun h => h2 ⟨rfl, h⟩
  · rfl

/-- What looks like an entry is read by the inner loop. -/
theorem eventNext_entry (hpb : pb.Standard) (h : entryAt s = some (len, rest)) (event : VoiceEvent) :
    eventNext pb garbage size s event =
      ((entryLoop pb size (entryEnd size len.value rest) (rest.length + 1) rest {}).1,
        event.take (entryLoop pb size (entryEnd size len.value rest) (rest.length + 1) rest {}).2) := by
  obtain ⟨⟨tag, s'⟩, htag, hlen⟩ := Option.bind_eq_some_iff.mp h
  obtain ⟨⟨hnumber, hwire⟩, hlen⟩ := Option.ite_none_right_eq_some.mp hlen
  obtain rfl := readVarint_eq_some htag
  dsimp only at hnumber hwire hlen
  obtain rfl := readVarint_eq_some hlen
  rw [eventNext_append hpb, hnumber, hwire, eventField, if_pos rfl, hpb.decodeVarint_append]

theorem entryAt_append (tag : Varint) (s : List Byte) :
    entryAt (tag.bytes ++ s) =
      if tag.value / 8 % 4294967296 = 2 ∧ tag.value % 8 = 2 then readVarint s else none := by
  rw [entryAt, readVarint_append]
  rfl

theorem typeAt_append (tag : Varint) (s : List Byte) :
    typeAt (tag.bytes ++ s) = (tag.value / 8 % 4294967296 = 1 && tag.value % 8 = 0) := by
  rw [typeAt, readVarint_append]
  rfl

theorem eventNext_none (hpb : pb.Standard) (h : readVarint s = none) (event : VoiceEvent) :
    eventNext pb garbage size s event = (none, event) := by
  have hnone : readPayload 0 s = none := by
    rw [readPayload, h]
    rfl
  rw [eventNext, hpb.decodeVarint_none hnone]

/-- Where neither a field nor an entry can be read, the parser fails. -/
theorem eventNext_cut (hpb : pb.Standard) (h : readField s = none) (hentry : entryAt s = none) (event : VoiceEvent) :
    eventNext pb garbage size s event = (none, event.broken garbage s) := by
  rw [VoiceEvent.broken, hentry]
  dsimp only
  rcases readField_eq_none h with htag | ⟨tag, rest, rfl, hpayload⟩
  · rw [eventNext_none hpb htag, typeAt, htag]
    rfl
  · rw [typeAt_append]
    rw [entryAt_append] at hentry
    rw [eventNext_append hpb]
    by_cases h1 : tag.value / 8 % 4294967296 = 1 ∧ tag.value % 8 = 0
    · rw [h1.2] at hpayload
      rw [h1.1, h1.2, eventField, if_pos rfl, hpb.decodeVarint_none hpayload]
      rfl
    · have htype : (decide (tag.value / 8 % 4294967296 = 1) && decide (tag.value % 8 = 0)) = false := by
        rw [Bool.and_eq_false_iff, decide_eq_false_iff_not, decide_eq_false_iff_not]
        exact not_and_or.mp h1
      rw [htype]
      by_cases h2 : tag.value / 8 % 4294967296 = 2 ∧ tag.value % 8 = 2
      · rw [if_pos h2] at hentry
        have hnone : readPayload 0 rest = none := by
          rw [readPayload, hentry]
          rfl
        rw [h2.1, h2.2, eventField, if_pos rfl, hpb.decodeVarint_none hnone]
        rfl
      · rw [eventField_skip h1 h2, hpb.skipField_none hpayload]
        rfl

theorem readEvent_append (hwhole : isWhole f = true) (rest : List Byte) :
    readEvent (f.bytes ++ rest) = some (f, rest) := by
  rw [readEvent, readField_append, Option.filter_some, if_pos hwhole]

theorem readEvent_eq_some (h : readEvent s = some (f, rest)) : s = f.bytes ++ rest ∧ isWhole f = true := by
  obtain ⟨hfield, hwhole⟩ := Option.filter_eq_some_iff.mp h
  exact ⟨readField_eq_some hfield, hwhole⟩

/-- A complete field that is not read is an entry. -/
theorem entryAt_of_malformed (hwhole : isWhole f ≠ true) (rest : List Byte) :
    ∃ r, entryAt (f.bytes ++ rest) = some r := by
  rw [isWhole, delimited?_eq] at hwhole
  obtain ⟨tag, payload, wire_eq⟩ := f
  cases payload with
  | delimited len data hdata =>
    by_cases hnumber : tag.value / 8 = 2
    · refine ⟨(len, data ++ rest), ?_⟩
      rw [WireField.bytes, List.append_assoc, entryAt_append,
        if_pos ⟨congrArg (· % 4294967296) hnumber, wire_eq⟩, Payload.bytes,
        List.append_assoc, readVarint_append]
    · rw [WireField.number, if_neg hnumber] at hwhole
      exact absurd rfl hwhole
  | varint v => simp [Payload.text?] at hwhole
  | fixed64 data hdata => simp [Payload.text?] at hwhole
  | fixed32 data hdata => simp [Payload.text?] at hwhole

/-- Where there is no field, and no entry either, the field is cut off. -/
theorem readField_none_of_cut (hnone : readEvent s = none) (hentry : entryAt s = none) : readField s = none := by
  cases hfield : readField s with
  | none => rfl
  | some r =>
    obtain ⟨f, rest⟩ := r
    obtain rfl := readField_eq_some hfield
    by_cases hwhole : isWhole f = true
    · rw [readEvent_append hwhole] at hnone
      cases hnone
    · obtain ⟨r, hsome⟩ := entryAt_of_malformed hwhole rest
      rw [hentry] at hsome
      cases hsome

theorem length_entryAt (h : entryAt s = some (len, rest)) : rest.length ≤ s.length := by
  obtain ⟨⟨tag, s'⟩, htag, hread⟩ := Option.bind_eq_some_iff.mp h
  have htag := congrArg List.length (readVarint_eq_some htag)
  have hlen := congrArg List.length (readVarint_eq_some (Option.ite_none_right_eq_some.mp hread).2)
  rw [List.length_append] at htag hlen
  dsimp only at hlen
  omega

/-- A malformed field is an error exactly where the place is sound, and leaves the broken event. -/
theorem eventNext_malformed (hpb : pb.Standard) (hnone : readEvent s = none) (hsize : s.length ≤ size)
    (event : VoiceEvent) :
    ((eventNext pb garbage size s event).1 = none ↔ soundPlace size s = true) ∧
      ((eventNext pb garbage size s event).1 = none →
        (eventNext pb garbage size s event).2 = event.broken garbage s) := by
  rw [soundPlace, hnone]
  cases hentry : entryAt s with
  | none =>
    rw [eventNext_cut hpb (readField_none_of_cut hnone hentry) hentry]
    exact ⟨iff_of_true rfl rfl, fun _ => rfl⟩
  | some r =>
    obtain ⟨len, rest⟩ := r
    have hrest : rest.length ≤ size := (length_entryAt hentry).trans hsize
    have hfails := @entryLoop_fails_iff pb rest {} size (entryEnd size len.value rest) (rest.length + 1) hpb hrest
      (Nat.lt_succ_self _)
    rw [eventNext_entry hpb hentry, VoiceEvent.broken, hentry]
    dsimp only
    constructor
    · rw [hfails, Option.all_some, Bool.not_eq_true', reachesEnd, decide_eq_false_iff_not, Nat.not_le]
    · intro hleft
      rw [entryLoop_snd hpb hleft hrest, take_read _ (row_all _ _)]

/-! A complete field. -/

/-- A field that is neither the type nor an entry leaves the event as it is. -/
theorem update_of_other (htype : f.varint? 1 = none) (hurl : (f.delimited? 2).bind urlOf = none)
    (event : VoiceEvent) : event.update [f] = event := by
  rw [event_update_single, htype, hurl]
  rfl

theorem typeField_eq (hpb : pb.Standard) (v : Varint) (rest : List Byte) (event : VoiceEvent) :
    eventField pb garbage size 1 0 (v.bytes ++ rest) event =
      (some rest, { event with eventType := v.value % 4294967296 }) := by
  rw [eventField, if_pos rfl, hpb.decodeVarint_append]

/-- A number is taken for the type exactly where it is the type. -/
theorem takes_type_iff (v : Varint) (h : f.payload = .varint v) :
    (∀ event : VoiceEvent, { event with eventType := v.value % 4294967296 } = event.update [f]) ↔ f.number = 1 := by
  have hurl : (f.delimited? 2).bind urlOf = none := by
    rw [delimited?_eq, h]
    simp [Payload.text?]
  constructor
  · intro htakes
    by_contra hnumber
    have htype : f.varint? 1 = none := by rw [varint?_eq, if_neg hnumber]
    have hevent := congrArg VoiceEvent.eventType (htakes { eventType := v.value % 4294967296 + 1 })
    rw [update_of_other htype hurl] at hevent
    exact absurd hevent (Nat.ne_of_lt (Nat.lt_succ_self _))
  · intro hnumber event
    rw [event_update_single, hurl, varint?_eq, if_pos hnumber, h]
    rfl

/-- Two addresses that do the same to every event are the same. -/
theorem getD_inj {a b : Option (List Byte)} (h : ∀ url, a.getD url = b.getD url) : a = b := by
  cases a with
  | none =>
    cases b with
    | none => rfl
    | some url => exact absurd (h (0 :: url)) (List.cons_ne_self _ _)
  | some url =>
    cases b with
    | none => exact absurd (h (0 :: url)).symm (List.cons_ne_self _ _)
    | some url' => exact congrArg some (h [])

/-- The end of an entry that lies in the message. -/
theorem entryEnd_eq {data : List Byte} (hdata : data.length = len.value) (hlen : (data ++ rest).length ≤ size)
    (hsize : size < 4294967296) : entryEnd size len.value (data ++ rest) = size - rest.length := by
  rw [List.length_append] at hlen
  rw [entryEnd, List.length_append, Nat.mod_eq_of_lt (by omega)]
  omega

/-- The text of a field is taken for an entry with just its bytes, and its address, exactly where it is sound. -/
theorem takes_entry_iff (hpb : pb.Standard) {data : List Byte} (url : Option (List Byte))
    (hlen : (data ++ rest).length ≤ size) :
    (∀ event : VoiceEvent,
        ((entryLoop pb size (size - rest.length) ((data ++ rest).length + 1) (data ++ rest) {}).1,
          event.take (entryLoop pb size (size - rest.length) ((data ++ rest).length + 1) (data ++ rest) {}).2) =
            (some rest, { event with ttsUrl := (url.getD event.ttsUrl) })) ↔
      (readFields data).any (fun es => es.all hasRoom && seenUrl es = url) = true := by
  constructor
  · intro htakes
    cases hloop : entryLoop pb size (size - rest.length) ((data ++ rest).length + 1) (data ++ rest) {} with
    | mk left entry' =>
      rw [hloop] at htakes
      obtain rfl : left = some rest := congrArg Prod.fst (htakes {})
      obtain ⟨es, heq, hroom, -, hread⟩ := entryLoop_eq_some hpb hloop (Nat.lt_succ_self _)
      obtain rfl : data = encode es := List.append_cancel_right heq
      rw [readFields_eq_some_iff.mpr rfl, Option.any_some, hroom, Bool.true_and, decide_eq_true_eq]
      refine getD_inj fun default => ?_
      have hevent := congrArg Prod.snd (htakes { ttsUrl := default })
      dsimp only at hevent
      rw [hread, take_read _ hroom] at hevent
      exact congrArg VoiceEvent.ttsUrl hevent
  · intro h event
    rw [Option.any_eq_true] at h
    obtain ⟨es, hes, hboth⟩ := h
    obtain rfl := readFields_eq_some_iff.mp hes
    rw [Bool.and_eq_true, decide_eq_true_eq] at hboth
    rw [entryLoop_encode hpb {} hboth.1 hlen (by rw [List.length_append]; omega), take_read event hboth.1, hboth.2]

theorem eventNext_field (hpb : pb.Standard) (f : WireField) (rest : List Byte) (event : VoiceEvent) :
    eventNext pb garbage size (f.bytes ++ rest) event =
      eventField pb garbage size (f.number % 4294967296) f.payload.wire (f.payload.bytes ++ rest) event := by
  rw [WireField.bytes, List.append_assoc, eventNext_append hpb, f.wire_eq]
  rfl

/-- What looks like neither is skipped, -/
theorem takes_other (hpb : pb.Standard) (f : WireField) (rest : List Byte)
    (h1 : ¬(f.number % 4294967296 = 1 ∧ f.payload.wire = 0)) (h2 : ¬(f.number % 4294967296 = 2 ∧ f.payload.wire = 2))
    (event : VoiceEvent) : eventNext pb garbage size (f.bytes ++ rest) event = (some rest, event.update [f]) := by
  have htype : f.varint? 1 = none := by
    rw [varint?_eq]
    split
    · rename_i hnumber
      cases hp : f.payload with
      | varint v => exact absurd ⟨by rw [hnumber], by rw [hp]; rfl⟩ h1
      | fixed64 data hdata => rfl
      | delimited len data hdata => rfl
      | fixed32 data hdata => rfl
    · rfl
  have htext : f.delimited? 2 = none := by
    rw [delimited?_eq]
    split
    · rename_i hnumber
      cases hp : f.payload with
      | delimited len data hdata => exact absurd ⟨by rw [hnumber], by rw [hp]; rfl⟩ h2
      | varint v => rfl
      | fixed64 data hdata => rfl
      | fixed32 data hdata => rfl
    · rfl
  rw [eventNext_field hpb, eventField_skip h1 h2, hpb.skipField_append, update_of_other htype (by rw [htext]; rfl)]

/-- and sound. -/
theorem soundField_other (h1 : ¬(f.number % 4294967296 = 1 ∧ f.payload.wire = 0))
    (h2 : ¬(f.number % 4294967296 = 2 ∧ f.payload.wire = 2)) : soundField f = true := by
  unfold soundField
  split
  · rename_i v hnumber hp
    exact absurd ⟨hnumber, by rw [hp]; rfl⟩ h1
  · rename_i len data hdata hnumber hp
    exact absurd ⟨hnumber, by rw [hp]; rfl⟩ h2
  · rfl

/-- A complete field is taken with just its bytes exactly where it is sound. -/
theorem takes_iff (hpb : pb.Standard) (f : WireField) (rest : List Byte) (hlen : (f.bytes ++ rest).length ≤ size)
    (hsize : size < 4294967296) :
    (∀ event, eventNext pb garbage size (f.bytes ++ rest) event = (some rest, event.update [f])) ↔
      soundField f = true := by
  by_cases h1 : f.number % 4294967296 = 1 ∧ f.payload.wire = 0
  · cases hp : f.payload with
    | varint v =>
      have hsound : soundField f = decide (f.number = 1) := by
        rw [soundField, h1.1, hp]
        rfl
      rw [hsound, decide_eq_true_eq, ← takes_type_iff v hp]
      simp only [eventNext_field hpb, h1.1, hp, Payload.wire, Payload.bytes, typeField_eq hpb, Prod.mk.injEq, true_and]
    | fixed64 data hdata => exact absurd h1.2 (by simp [hp, Payload.wire])
    | delimited len data hdata => exact absurd h1.2 (by simp [hp, Payload.wire])
    | fixed32 data hdata => exact absurd h1.2 (by simp [hp, Payload.wire])
  · by_cases h2 : f.number % 4294967296 = 2 ∧ f.payload.wire = 2
    · cases hp : f.payload with
      | delimited len data hdata =>
        have hsound : soundField f =
            (readFields data).any fun es => es.all hasRoom && seenUrl es = (f.delimited? 2).bind urlOf := by
          rw [soundField, h2.1, hp]
          rfl
        have hrest : (data ++ rest).length ≤ size := by
          have hbytes := congrArg Payload.bytes hp
          rw [WireField.bytes, hbytes, Payload.bytes, List.length_append, List.length_append, List.length_append] at hlen
          rw [List.length_append]
          omega
        have hentry : entryAt (f.bytes ++ rest) = some (len, data ++ rest) := by
          rw [WireField.bytes, List.append_assoc, entryAt_append, if_pos ⟨h2.1, f.wire_eq.trans h2.2⟩, hp,
            Payload.bytes, List.append_assoc, readVarint_append]
        have htype : f.varint? 1 = none := by
          rw [varint?_eq, hp]
          exact ite_self none
        rw [hsound, ← takes_entry_iff hpb _ hrest]
        simp only [eventNext_entry hpb hentry, entryEnd_eq hdata hrest hsize, event_update_single, htype]
        rfl
      | varint v => exact absurd h2.2 (by simp [hp, Payload.wire])
      | fixed64 data hdata => exact absurd h2.2 (by simp [hp, Payload.wire])
      | fixed32 data hdata => exact absurd h2.2 (by simp [hp, Payload.wire])
    · exact iff_of_true (takes_other hpb f rest h1 h2) (soundField_other h1 h2)

/-- What stands at a place is taken exactly where the place is sound. -/
theorem takesField_iff (hpb : pb.Standard) (hlen : s.length ≤ size) (hsize : size < 4294967296) :
    TakesField pb garbage size s ↔ soundPlace size s = true := by
  unfold TakesField
  cases hread : readEvent s with
  | none =>
    exact ⟨fun h => (eventNext_malformed hpb hread hlen {}).1.mp (h {}),
      fun h event => (eventNext_malformed hpb hread hlen event).1.mpr h⟩
  | some r =>
    obtain ⟨f, rest⟩ := r
    obtain ⟨rfl, -⟩ := readEvent_eq_some hread
    dsimp only
    rw [takes_iff hpb f rest hlen hsize, soundPlace, hread]

/-! The whole message. -/

/-- A reading comes to one place only. -/
theorem EndsAt.unique (h : EndsAt data fs s) (h' : EndsAt data gs s') : fs = gs ∧ s = s' := by
  obtain ⟨heq, hall, hnone⟩ := h
  obtain ⟨heq', hall', hnone'⟩ := h'
  induction fs generalizing gs data with
  | nil =>
    cases gs with
    | nil => exact ⟨rfl, heq.symm.trans heq'⟩
    | cons g gs =>
      rw [List.all_cons, Bool.and_eq_true] at hall'
      have hs : s = g.bytes ++ (encode gs ++ s') := heq.symm.trans (heq'.trans (List.append_assoc _ _ _))
      rw [hs, readEvent_append hall'.1] at hnone
      cases hnone
  | cons f fs ih =>
    rw [List.all_cons, Bool.and_eq_true] at hall
    have hdata : data = f.bytes ++ (encode fs ++ s) := heq.trans (List.append_assoc _ _ _)
    cases gs with
    | nil =>
      have hs' : s' = f.bytes ++ (encode fs ++ s) := heq'.symm.trans hdata
      rw [hs', readEvent_append hall.1] at hnone'
      cases hnone'
    | cons g gs =>
      rw [List.all_cons, Bool.and_eq_true] at hall'
      have hdata' : data = g.bytes ++ (encode gs ++ s') := heq'.trans (List.append_assoc _ _ _)
      have hfields := readField_append f (encode fs ++ s)
      rw [← hdata, hdata', readField_append] at hfields
      obtain ⟨rfl, hrest⟩ := Prod.mk.inj (Option.some.inj hfields)
      obtain ⟨rfl, rfl⟩ := ih rfl hall.2 hrest.symm hall'.2
      exact ⟨rfl, rfl⟩

theorem endsAt_nil_iff : EndsAt data fs [] ↔ Reads data fs := by
  constructor
  · rintro ⟨heq, hall, -⟩
    exact ⟨heq.trans (List.append_nil _), hall⟩
  · rintro ⟨heq, hall⟩
    exact ⟨heq.trans (List.append_nil _).symm, hall, rfl⟩

/-- A message whose places are sound is read up to the place where it breaks. -/
theorem eventLoop_eq (hpb : pb.Standard) (hsize : data.length < 4294967296)
    (hsound : ∀ fs s, data = encode fs ++ s → fs.all isWhole = true → soundPlace data.length s = true)
    (heq : data = encode fs ++ s) (hall : fs.all isWhole = true) (hn : s.length ≤ n) :
    ∃ gs s', EndsAt data gs s' ∧
      eventLoop pb garbage data.length n s (VoiceEvent.update {} fs) = (VoiceEvent.update {} gs).broken garbage s' := by
  induction n generalizing s fs with
  | zero =>
    obtain rfl := List.length_eq_zero_iff.mp (Nat.le_zero.mp hn)
    exact ⟨fs, [], ⟨heq, hall, rfl⟩, rfl⟩
  | succ n ih =>
    cases hs : s with
    | nil => exact ⟨fs, [], ⟨heq.trans (congrArg _ hs), hall, rfl⟩, rfl⟩
    | cons b more =>
      rw [eventLoop, ← hs]
      have hlen : s.length ≤ data.length := by
        rw [heq, List.length_append]
        exact Nat.le_add_left _ _
      have htakes := (@takesField_iff pb s garbage data.length hpb hlen hsize).mpr (hsound fs s heq hall)
      unfold TakesField at htakes
      cases hread : readEvent s with
      | none =>
        rw [hread] at htakes
        have hbroken := (@eventNext_malformed pb s garbage data.length hpb hread hlen (VoiceEvent.update {} fs)).2
          (htakes _)
        refine ⟨fs, s, ⟨heq, hall, hread⟩, ?_⟩
        rw [← hbroken]
        cases hnext : eventNext pb garbage data.length s (VoiceEvent.update {} fs) with
        | mk left event =>
          have hleft := htakes (VoiceEvent.update {} fs)
          rw [hnext] at hleft
          cases hleft
          rfl
      | some r =>
        obtain ⟨f, rest⟩ := r
        obtain ⟨hbytes, hwhole⟩ := readEvent_eq_some hread
        rw [hread] at htakes
        dsimp only at htakes
        rw [htakes, ← event_update_append]
        dsimp only
        refine ih ?_ ?_ ?_
        · rw [heq, hbytes, encode_append, List.append_assoc]
          exact congrArg _ (congrArg (· ++ rest) (List.append_nil _).symm)
        · rw [List.all_append, hall, List.all_cons, hwhole]
          rfl
        · have hpos := length_field_pos f
          have hlen := congrArg List.length hbytes
          rw [List.length_append] at hlen
          omega

end Messages

/-- **An event is read as what it says, and a malformed one plays nothing**, its places taken field by field, exactly
where the message is sound. -/
theorem isolates_iff (pb : PbHelpers) (garbage : Nat) (data : List Byte) (hpb : pb.Standard)
    (hsize : data.length < 4294967296) :
    Isolates pb garbage data ∧ EntryWise pb garbage data ↔ SoundEvent garbage data := by
  have hplaces : EntryWise pb garbage data ↔
      ∀ fs s, data = encode fs ++ s → fs.all isWhole = true → soundPlace data.length s = true := by
    refine forall_congr' fun fs => forall_congr' fun s => forall_congr' fun heq => forall_congr' fun _ => ?_
    refine takesField_iff hpb ?_ hsize
    rw [heq, List.length_append]
    exact Nat.le_add_left _ _
  have hstart : ([] : List WireField).all isWhole = true := rfl
  rw [hplaces]
  constructor
  · rintro ⟨⟨-, hmalformed⟩, hsound⟩
    refine ⟨hsound, fun fs s hends hne => ?_⟩
    obtain ⟨gs, s', hends', hparse⟩ := eventLoop_eq hpb hsize hsound rfl hstart (Nat.le_refl _)
    obtain ⟨rfl, rfl⟩ := hends.unique hends'
    have hnone := hmalformed fun ⟨gs, hreads⟩ => hne ((hends.unique (endsAt_nil_iff.mpr hreads)).2)
    rwa [parseEvent, show ({} : VoiceEvent) = VoiceEvent.update {} [] from rfl, hparse] at hnone
  · intro h
    obtain ⟨gs, s', hends, hparse⟩ := eventLoop_eq hpb hsize h.sound rfl hstart (Nat.le_refl _)
    have hevent : parseEvent pb garbage data = (VoiceEvent.update {} gs).broken garbage s' := hparse
    refine ⟨⟨fun fs hreads => ?_, fun hmalformed => ?_⟩, h.sound⟩
    · obtain ⟨rfl, rfl⟩ := hends.unique (endsAt_nil_iff.mpr hreads)
      exact hevent
    · rw [hevent]
      refine h.silent gs s' hends fun hnil => hmalformed ⟨gs, ?_⟩
      rw [hnil] at hends
      exact endsAt_nil_iff.mp hends

/-! ### The condition, computed -/

/-- The places one after the other, up to so many. -/
def soundFrom (garbage size : Nat) : Nat → VoiceEvent → List Byte → Bool
  | 0, _, _ => true
  | n + 1, event, s =>
    soundPlace size s &&
      match readEvent s with
      | some (f, rest) => soundFrom garbage size n (event.update [f]) rest
      | none => s.isEmpty || (event.broken garbage s).plays = none

section Computed
variable {s : List Byte} {event : VoiceEvent} {garbage size n : Nat}

theorem endsAt_cons {f : WireField} {fs : List WireField} {s' rest : List Byte} (hwhole : isWhole f = true)
    (h : EndsAt rest fs s') : EndsAt (f.bytes ++ rest) (f :: fs) s' := by
  obtain ⟨rfl, hall, hnone⟩ := h
  refine ⟨(List.append_assoc _ _ _).symm, ?_, hnone⟩
  rw [List.all_cons, hwhole, hall]
  rfl

/-- Where no field can be read, no complete one stands in front, -/
theorem eq_nil_of_read {fs : List WireField} {s' : List Byte} (hread : readEvent s = none) (heq : s = encode fs ++ s')
    (hall : fs.all isWhole = true) : fs = [] := by
  cases fs with
  | nil => rfl
  | cons f fs =>
    rw [List.all_cons, Bool.and_eq_true] at hall
    rw [heq, encode_cons, List.append_assoc, readEvent_append hall.1] at hread
    cases hread

/-- and where one can, it is the first of the complete ones. -/
theorem eq_cons_of_read {f g : WireField} {fs : List WireField} {rest s' : List Byte}
    (hread : readEvent s = some (f, rest)) (heq : s = encode (g :: fs) ++ s')
    (hall : (g :: fs).all isWhole = true) : g = f ∧ rest = encode fs ++ s' ∧ fs.all isWhole = true := by
  rw [List.all_cons, Bool.and_eq_true] at hall
  rw [heq, encode_cons, List.append_assoc, readEvent_append hall.1] at hread
  obtain ⟨hfield, hrest⟩ := Prod.mk.inj (Option.some.inj hread)
  exact ⟨hfield, hrest.symm, hall.2⟩

theorem soundFrom_iff (hn : s.length < n) : soundFrom garbage size n event s = true ↔
    (∀ fs s', s = encode fs ++ s' → fs.all isWhole = true → soundPlace size s' = true) ∧
      ∀ fs s', EndsAt s fs s' → s' ≠ [] → ((event.update fs).broken garbage s').plays = none := by
  induction n generalizing s event with
  | zero => exact absurd hn (Nat.not_lt_zero _)
  | succ n ih =>
    rw [soundFrom, Bool.and_eq_true]
    cases hread : readEvent s with
    | none =>
      have hends : EndsAt s [] s := ⟨rfl, rfl, hread⟩
      rw [Bool.or_eq_true, decide_eq_true_eq, List.isEmpty_iff]
      constructor
      · rintro ⟨hplace, hsilent⟩
        refine ⟨fun fs s' heq hall => ?_, fun fs s' hends' hne => ?_⟩
        · obtain rfl := eq_nil_of_read hread heq hall
          obtain rfl : s = s' := heq
          exact hplace
        · obtain ⟨rfl, rfl⟩ := hends.unique hends'
          exact hsilent.resolve_left hne
      · rintro ⟨hplaces, hsilent⟩
        refine ⟨hplaces [] s rfl rfl, ?_⟩
        by_cases hnil : s = []
        · exact .inl hnil
        · exact .inr (hsilent [] s hends hnil)
    | some r =>
      obtain ⟨f, rest⟩ := r
      obtain ⟨hs, hwhole⟩ := readEvent_eq_some hread
      have hpos := length_field_pos f
      rw [hs, List.length_append] at hn
      dsimp only
      rw [ih (by omega)]
      constructor
      · rintro ⟨hplace, hplaces, hsilent⟩
        refine ⟨fun fs s' heq hall => ?_, fun fs s' hends hne => ?_⟩
        · cases fs with
          | nil =>
            obtain rfl : s = s' := heq
            exact hplace
          | cons g fs =>
            obtain ⟨-, hrest, hall⟩ := eq_cons_of_read hread heq hall
            exact hplaces fs s' hrest hall
        · obtain ⟨heq, hall, hnone⟩ := hends
          cases fs with
          | nil =>
            obtain rfl : s = s' := heq
            rw [hread] at hnone
            cases hnone
          | cons g fs =>
            obtain ⟨rfl, hrest, hall⟩ := eq_cons_of_read hread heq hall
            rw [event_update_cons]
            exact hsilent fs s' ⟨hrest, hall, hnone⟩ hne
      · rintro ⟨hplaces, hsilent⟩
        refine ⟨hplaces [] _ rfl rfl, fun fs s' heq hall => ?_, fun fs s' hends hne => ?_⟩
        · refine hplaces (f :: fs) s' ?_ ?_
          · rw [hs, heq]
            exact (List.append_assoc _ _ _).symm
          · rw [List.all_cons, hwhole, hall]
            rfl
        · rw [← event_update_cons]
          exact hsilent (f :: fs) s' (hs ▸ endsAt_cons hwhole hends) hne

end Computed

instance decidableSoundEvent (garbage : Nat) (data : List Byte) : Decidable (SoundEvent garbage data) :=
  decidable_of_iff (soundFrom garbage data.length (data.length + 1) {} data = true)
    ((soundFrom_iff (Nat.lt_succ_self _)).trans ⟨fun h => ⟨h.1, h.2⟩, fun h => ⟨h.sound, h.silent⟩⟩)

/-- The end of the speech with its address, and a field behind it that is cut off. -/
theorem isolates_speech_end :
    Isolates standardHelpers 0 [0x08, 8, 0x12, 10, 0x0A, 3, 117, 114, 108, 0x12, 3, 97, 58, 98] ∧
      Isolates standardHelpers 0 [0x08, 8, 0x7A, 5, 117, 114, 108] :=
  ⟨((isolates_iff _ 0 _ standard_standardHelpers (by decide)).mpr (by decide)).1,
    ((isolates_iff _ 0 _ standard_standardHelpers (by decide)).mpr (by decide)).1⟩

/-- An entry that claims to be longer than the message. -/
theorem long_entry_plays :
    standardHelpers.Standard ∧
      ¬Isolates standardHelpers 0 [0x08, 8, 0x12, 127, 0x0A, 3, 117, 114, 108, 0x12, 3, 97, 58, 98] := by
  refine ⟨standard_standardHelpers, fun h => ?_⟩
  have hplays : (parseEvent standardHelpers 0 [0x08, 8, 0x12, 127, 0x0A, 3, 117, 114, 108, 0x12, 3, 97, 58, 98]).plays =
      some [97, 58, 98] := by decide
  have hnone := h.2 fun hreads => by
    obtain ⟨fs, hfs, -⟩ := hreads
    have hread := readFields_eq_some_iff.mpr hfs
    have hbad : (readFields [0x08, 8, 0x12, 127, 0x0A, 3, 117, 114, 108, 0x12, 3, 97, 58, 98]).isNone = true := by decide
    rw [hread] at hbad
    exact Bool.false_ne_true hbad
  rw [hplays] at hnone
  cases hnone

end Thingino.Esphome
