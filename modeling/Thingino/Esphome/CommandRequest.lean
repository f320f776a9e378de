import Thingino.Esphome.Proto

/-! `media_player_decode_command_request`: a media player command from the network.

The decoder goes from tag to tag. A field that it knows it reads only where the wire type is the declared one; a
field with another wire type it leaves where it is, and goes on in the middle of it. `Clean` says of a message that
this does not happen on the way through it, and these are the messages that the decoder reads field by field
(`decodesFields_iff`). -/
namespace Thingino.Esphome

open Lib Lib.Protobuf

/-- `media_player_command_request_t`; the volume is the 32 bits of its `float`. -/
structure CommandRequest where
  key : Nat := 0
  hasCommand : Bool := false
  command : Nat := 0
  hasVolume : Bool := false
  volume : Nat := 0
  hasMediaUrl : Bool := false
  mediaUrl : List Byte := []
  hasAnnouncement : Bool := false
  announcement : Bool := false
  deriving DecidableEq

/-! ### The decoder -/

/-- A `uint32_t` as it lies in memory. -/
def littleEndian (data : List Byte) : Nat := data.foldr (fun b n => b.toNat + 256 * n) 0

/-- A `bool` from a number. -/
def isSet (n : Nat) : Bool := n ≠ 0

/-- A field that is read as a number where it is one. -/
def varintField (pb : PbHelpers) (wire : Nat) (s : List Byte) (msg : CommandRequest) (set : Nat → CommandRequest) :
    Option (List Byte × CommandRequest) :=
  if wire = 0 then (pb.decodeVarint s).map fun r => (r.2, set r.1) else some (s, msg)

/-- A field that is read as four bytes where it is that and there are four. -/
def fixed32Field (wire : Nat) (s : List Byte) (msg : CommandRequest) (set : Nat → CommandRequest) :
    Option (List Byte × CommandRequest) :=
  some (if wire = 5 ∧ 4 ≤ s.length then (s.drop 4, set (littleEndian (s.take 4))) else (s, msg))

/-- The `switch` over the number of a field. -/
def decodeField (pb : PbHelpers) (number wire : Nat) (s : List Byte) (msg : CommandRequest) :
    Option (List Byte × CommandRequest) :=
  match number with
  | 1 => fixed32Field wire s msg fun n => { msg with key := n }
  | 2 => varintField pb wire s msg fun n => { msg with hasCommand := isSet n }
  | 3 => varintField pb wire s msg fun n => { msg with command := n % 4294967296 }
  | 4 => varintField pb wire s msg fun n => { msg with hasVolume := isSet n }
  | 5 => fixed32Field wire s msg fun n => { msg with volume := n }
  | 6 => varintField pb wire s msg fun n => { msg with hasMediaUrl := isSet n }
  | 7 =>
    if wire = 2 then (pb.decodeString 256 s).map fun r => (r.2, { msg with mediaUrl := r.1 }) else some (s, msg)
  | 8 => varintField pb wire s msg fun n => { msg with hasAnnouncement := isSet n }
  | 9 => varintField pb wire s msg fun n => { msg with announcement := isSet n }
  | _ => (pb.skipField wire s).map fun s => (s, msg)

/-- One tag and its field; the number of a field is a `uint32_t`. -/
def decodeNext (pb : PbHelpers) (s : List Byte) (msg : CommandRequest) : Option (List Byte × CommandRequest) :=
  (pb.decodeVarint s).bind fun tag => decodeField pb (tag.1 / 8 % 4294967296) (tag.1 % 8) tag.2 msg

/-- The loop, for so many tags. -/
def decodeLoop (pb : PbHelpers) : Nat → List Byte → CommandRequest → Option CommandRequest
  | _, [], msg => some msg
  | 0, _ :: _, _ => none
  | n + 1, b :: s, msg => (decodeNext pb (b :: s) msg).bind fun r => decodeLoop pb n r.1 r.2

/-- The message where the decoder returns `true`; each tag has a byte of its own. -/
def mediaPlayerDecodeCommandRequest (pb : PbHelpers) (s : List Byte) : Option CommandRequest :=
  decodeLoop pb s.length s {}

/-! ### What a message says -/

/-- A message with the fields behind it: the last occurrence of each field with its wire type counts. -/
def CommandRequest.update (msg : CommandRequest) (fs : List WireField) : CommandRequest where
  key := ((last (WireField.fixed32? 1) fs).map littleEndian).getD msg.key
  hasCommand := ((last (WireField.varint? 2) fs).map isSet).getD msg.hasCommand
  command := ((last (WireField.varint? 3) fs).map (· % 4294967296)).getD msg.command
  hasVolume := ((last (WireField.varint? 4) fs).map isSet).getD msg.hasVolume
  volume := ((last (WireField.fixed32? 5) fs).map littleEndian).getD msg.volume
  hasMediaUrl := ((last (WireField.varint? 6) fs).map isSet).getD msg.hasMediaUrl
  mediaUrl := (last (WireField.delimited? 7) fs).getD msg.mediaUrl
  hasAnnouncement := ((last (WireField.varint? 8) fs).map isSet).getD msg.hasAnnouncement
  announcement := ((last (WireField.varint? 9) fs).map isSet).getD msg.announcement

/-- The buffer has room for an address. -/
def fits (f : WireField) : Bool := (WireField.delimited? 7 f).all (·.length < 256)

/-- **The property** of some bytes: the decoder takes them exactly where they are complete fields with addresses that
fit, and reads what these say. -/
def DecodesFields (pb : PbHelpers) (s : List Byte) : Prop :=
  ∀ msg, mediaPlayerDecodeCommandRequest pb s = some msg ↔
    ∃ fs, s = encode fs ∧ fs.all fits = true ∧ msg = CommandRequest.update {} fs

/-- The wire types of the fields that are known. -/
def declaredWire : Nat → Option Nat
  | 1 | 5 => some 5
  | 2 | 3 | 4 | 6 | 8 | 9 => some 0
  | 7 => some 2
  | _ => none

/-- The first of some fields, and what it says. -/
def readNext (s : List Byte) (msg : CommandRequest) : Option (List Byte × CommandRequest) :=
  (readField s).bind fun r => if fits r.1 then some (r.2, msg.update [r.1]) else none

def fieldWiseFrom (pb : PbHelpers) : Nat → List Byte → Prop
  | _, [] => True
  | 0, _ :: _ => True
  | n + 1, b :: s =>
    ∀ msg, decodeNext pb (b :: s) msg = readNext (b :: s) msg ∧
      ∀ r, decodeNext pb (b :: s) msg = some r → fieldWiseFrom pb n r.1

/-- **The property**, field by field: wherever the decoder comes to, it reads the field that is there, or skips it
whole. -/
def FieldWise (pb : PbHelpers) (s : List Byte) : Prop := fieldWiseFrom pb s.length s

/-- A tag that the decoder does not misread. Where the number looks like that of a known field in its low 32 bits, the
wire type is the declared one, a `fixed32` has its four bytes, and it is this field, or nothing can be read at all. -/
def CleanTag (tag : Varint) (s : List Byte) : Prop :=
  ∀ wire, declaredWire (tag.value / 8 % 4294967296) = some wire →
    tag.value % 8 = wire ∧ (wire = 5 → 4 ≤ s.length) ∧ (tag.value / 8 < 4294967296 ∨ readPayload wire s = none)

/-- The tags behind complete fields are such, up to an address that does not fit. -/
def Clean (s : List Byte) : Prop :=
  ∀ (fs : List WireField) (tag : Varint) (rest : List Byte),
    s = encode fs ++ (tag.bytes ++ rest) → fs.all fits = true → CleanTag tag rest

/-- A complete field with such a tag. -/
def cleanField (f : WireField) : Bool := f.number < 4294967296 && (declaredWire f.number).all (· = f.payload.wire)

/-! ### One field -/

section Fields
variable {pb : PbHelpers} {msg : CommandRequest} {f : WireField} {fs : List WireField} {s rest : List Byte}
  {tag : Varint} {n wire : Nat}

/-- Fields are read one after the other. -/
theorem update_cons (msg : CommandRequest) (f : WireField) (fs : List WireField) :
    msg.update (f :: fs) = (msg.update [f]).update fs := by
  have hurl := getD_last_cons (WireField.delimited? 7) id f fs msg.mediaUrl
  simp only [Option.map_id, id] at hurl
  unfold CommandRequest.update
  simp only [getD_last_cons _ _ f fs, hurl]

theorem varintField_eq (hpb : pb.Standard) (v : Varint) (rest : List Byte) (set : Nat → CommandRequest) :
    varintField pb 0 (v.bytes ++ rest) msg set = some (rest, set v.value) := by
  rw [varintField, if_pos rfl, hpb.decodeVarint_append]
  rfl

theorem fixed32Field_eq {data : List Byte} (hdata : data.length = 4) (rest : List Byte) (set : Nat → CommandRequest) :
    fixed32Field 5 (data ++ rest) msg set = some (rest, set (littleEndian data)) := by
  have hlen : 4 ≤ (data ++ rest).length := by
    rw [List.length_append]
    omega
  rw [fixed32Field, if_pos ⟨rfl, hlen⟩, ← hdata, List.drop_left, List.take_left]

theorem declaredWire_eq_some (h : declaredWire n = some wire) :
    (wire = 0 ∧ (n = 2 ∨ n = 3 ∨ n = 4 ∨ n = 6 ∨ n = 8 ∨ n = 9)) ∨ (wire = 2 ∧ n = 7) ∨ (wire = 5 ∧ (n = 1 ∨ n = 5)) := by
  unfold declaredWire at h
  split at h <;> cases h <;> simp

theorem decodeField_other (h : declaredWire n = none) (wire : Nat) (s : List Byte) (msg : CommandRequest) :
    decodeField pb n wire s msg = (pb.skipField wire s).map fun s => (s, msg) := by
  unfold declaredWire at h
  split at h <;> try cases h
  rename_i h1 h5 h2 h3 h4 h6 h8 h9 h7
  exact decodeField.eq_10 pb n wire s msg h1 h2 h3 h4 h5 h6 h7 h8 h9

/-- A field that is not known changes nothing. -/
theorem update_other (h : declaredWire f.number = none) (msg : CommandRequest) :
    fits f = true ∧ msg.update [f] = msg := by
  have hne : ∀ k wire, declaredWire k = some wire → f.number ≠ k := by
    intro k wire hk heq
    rw [heq, hk] at h
    cases h
  have h1 := hne 1 5 rfl
  have h2 := hne 2 0 rfl
  have h3 := hne 3 0 rfl
  have h4 := hne 4 0 rfl
  have h5 := hne 5 5 rfl
  have h6 := hne 6 0 rfl
  have h7 := hne 7 2 rfl
  have h8 := hne 8 0 rfl
  have h9 := hne 9 0 rfl
  unfold fits CommandRequest.update
  simp only [last_single, WireField.varint?, WireField.fixed32?, WireField.delimited?]
  cases f.payload <;> simp [h1, h2, h3, h4, h5, h6, h7, h8, h9]

/-- A complete field with its wire type is read as the field it is. -/
theorem decodeField_eq (hpb : pb.Standard) (msg : CommandRequest) (f : WireField) (rest : List Byte)
    (hdeclaredWire : ∀ wire, declaredWire f.number = some wire → f.payload.wire = wire) :
    decodeField pb f.number (f.tag.value % 8) (f.payload.bytes ++ rest) msg =
      if fits f then some (rest, msg.update [f]) else none := by
  cases hdeclared : declaredWire f.number with
  | none =>
    obtain ⟨hfits, hupdate⟩ := update_other hdeclared msg
    rw [decodeField_other hdeclared, f.wire_eq, hpb.skipField_append, if_pos hfits, hupdate]
    rfl
  | some wire =>
    have hwire := hdeclaredWire wire hdeclared
    obtain ⟨tag, payload, wire_eq⟩ := f
    rcases declaredWire_eq_some hdeclared with ⟨rfl, hn⟩ | ⟨rfl, hn⟩ | ⟨rfl, hn⟩
    · cases payload with
      | varint v =>
        rcases hn with hn | hn | hn | hn | hn | hn
        all_goals
          rw [wire_eq, hn, decodeField, Payload.wire, Payload.bytes, varintField_eq hpb]
          simp [fits, CommandRequest.update, last_single, WireField.varint?, WireField.fixed32?, WireField.delimited?, hn]
      | fixed64 data hdata => cases hwire
      | delimited len data hdata => cases hwire
      | fixed32 data hdata => cases hwire
    · cases payload with
      | delimited len data hdata =>
        rw [wire_eq, hn, decodeField, Payload.wire, if_pos rfl, hpb.decodeString_append]
        have hlen : fits ⟨tag, .delimited len data hdata, wire_eq⟩ = decide (data.length < 256) := by
          simp only [fits, WireField.delimited?, if_pos hn, Option.all_some]
        rw [hlen]
        simp only [decide_eq_true_eq]
        split
        · simp [CommandRequest.update, last_single, WireField.varint?, WireField.fixed32?, WireField.delimited?, hn]
        · rfl
      | varint v => cases hwire
      | fixed64 data hdata => cases hwire
      | fixed32 data hdata => cases hwire
    · cases payload with
      | fixed32 data hdata =>
        rcases hn with hn | hn
        all_goals
          rw [wire_eq, hn, decodeField, Payload.wire, Payload.bytes, fixed32Field_eq hdata]
          simp [fits, CommandRequest.update, last_single, WireField.varint?, WireField.fixed32?, WireField.delimited?, hn]
      | varint v => cases hwire
      | fixed64 data hdata => cases hwire
      | delimited len data hdata => cases hwire

/-- Where no payload is, the decoder fails, -/
theorem decodeField_none (hpb : pb.Standard) (msg : CommandRequest)
    (hknown : ∀ w, declaredWire n = some w → wire = w ∧ (w = 5 → 4 ≤ s.length)) (hnone : readPayload wire s = none) :
    decodeField pb n wire s msg = none := by
  cases hdeclared : declaredWire n with
  | none =>
    rw [decodeField_other hdeclared, hpb.skipField_none hnone]
    rfl
  | some w =>
    obtain ⟨rfl, hfour⟩ := hknown w hdeclared
    rcases declaredWire_eq_some hdeclared with ⟨rfl, hn⟩ | ⟨rfl, hn⟩ | ⟨rfl, hn⟩
    · have hfail : ∀ set, varintField pb 0 s msg set = none := by
        intro set
        rw [varintField, if_pos rfl, hpb.decodeVarint_none hnone]
        rfl
      rcases hn with hn | hn | hn | hn | hn | hn
      all_goals
        rw [hn, decodeField, hfail]
    · rw [hn, decodeField, if_pos rfl, hpb.decodeString_none hnone]
      rfl
    · rw [readPayload, readFixed, dif_pos (hfour rfl)] at hnone
      cases hnone

/-- and a known field with another wire type, or too short, it leaves where it is. -/
theorem decodeField_leaves {w : Nat} (hdeclared : declaredWire n = some w) (h : wire ≠ w ∨ w = 5 ∧ ¬4 ≤ s.length) :
    decodeField pb n wire s msg = some (s, msg) := by
  rcases declaredWire_eq_some hdeclared with ⟨rfl, hn⟩ | ⟨rfl, hn⟩ | ⟨rfl, hn⟩
  · have hwire : wire ≠ 0 := h.resolve_right fun h => absurd h.1 (by decide)
    rcases hn with rfl | rfl | rfl | rfl | rfl | rfl <;> exact if_neg hwire
  · have hwire : wire ≠ 2 := h.resolve_right fun h => absurd h.1 (by decide)
    rw [hn]
    exact if_neg hwire
  · have hnot : ¬(wire = 5 ∧ 4 ≤ s.length) := fun hboth => h.elim (fun hne => hne hboth.1) fun h => h.2 hboth.2
    rcases hn with rfl | rfl <;> exact congrArg some (if_neg hnot)

/-- A message with something in every field. -/
def CommandRequest.full : CommandRequest where
  key := 1
  hasCommand := true
  command := 1
  hasVolume := true
  volume := 1
  hasMediaUrl := true
  mediaUrl := [1]
  hasAnnouncement := true
  announcement := true

/-- A known field that is read is changed in one message at least. -/
theorem decodeField_changes {w : Nat} (hdeclared : declaredWire n = some w) (hfour : w = 5 → 4 ≤ s.length)
    (h : ∀ msg, decodeField pb n w s msg = some (rest, msg)) : False := by
  have hempty := h {}
  have hfull := h .full
  rcases declaredWire_eq_some hdeclared with ⟨rfl, hn⟩ | ⟨rfl, hn⟩ | ⟨rfl, hn⟩
  · cases hv : pb.decodeVarint s with
    | none =>
      rcases hn with rfl | rfl | rfl | rfl | rfl | rfl <;> simp [decodeField, varintField, hv] at hempty
    | some v =>
      rcases hn with rfl | rfl | rfl | rfl | rfl | rfl <;>
        simp [decodeField, varintField, hv, CommandRequest.full] at hempty hfull <;>
        simp_all
  · subst hn
    cases hv : pb.decodeString 256 s with
    | none => simp [decodeField, hv] at hempty
    | some v => simp_all [decodeField, CommandRequest.full]
  · have hlen := hfour rfl
    rcases hn with rfl | rfl <;>
      simp [decodeField, fixed32Field, hlen, CommandRequest.full] at hempty hfull <;>
      simp_all

/-- What is not left where it is has its wire type. -/
theorem wire_of_decodeField {w : Nat} (hdeclared : declaredWire n = some w)
    (h : decodeField pb n wire s msg ≠ some (s, msg)) : wire = w ∧ (w = 5 → 4 ≤ s.length) := by
  have hstays : ¬(wire ≠ w ∨ w = 5 ∧ ¬4 ≤ s.length) := fun hleaves => h (decodeField_leaves hdeclared hleaves)
  rw [not_or, not_not, not_and_not_right] at hstays
  exact hstays

theorem declaredWire_large (h : ¬n < 4294967296) : declaredWire n = none := by
  rw [Option.eq_none_iff_forall_ne_some]
  intro wire hwire
  have hsmall := declaredWire_eq_some hwire
  omega

theorem decodeNext_append (hpb : pb.Standard) (tag : Varint) (s : List Byte) (msg : CommandRequest) :
    decodeNext pb (tag.bytes ++ s) msg = decodeField pb (tag.value / 8 % 4294967296) (tag.value % 8) s msg := by
  rw [decodeNext, hpb.decodeVarint_append]
  rfl

theorem readNext_append (f : WireField) (rest : List Byte) (msg : CommandRequest) :
    readNext (f.bytes ++ rest) msg = if fits f then some (rest, msg.update [f]) else none := by
  rw [readNext, readField_append]
  rfl

/-- A field that is cut off is found to be so where its tag is clean, -/
theorem reads_iff_cut (hpb : pb.Standard) (hnone : readPayload (tag.value % 8) s = none) :
    (∀ msg, decodeNext pb (tag.bytes ++ s) msg = readNext (tag.bytes ++ s) msg) ↔ CleanTag tag s := by
  have hread : ∀ msg, readNext (tag.bytes ++ s) msg = none := fun msg => by
    rw [readNext, readField, readVarint_append, Option.bind_some]
    dsimp only
    rw [hnone]
    rfl
  simp only [decodeNext_append hpb, hread]
  constructor
  · intro h wire hdeclared
    have hfails : decodeField pb (tag.value / 8 % 4294967296) (tag.value % 8) s {} ≠ some (s, {}) := by
      rw [h {}]
      exact (Option.some_ne_none _).symm
    obtain ⟨hwire, hfour⟩ := wire_of_decodeField hdeclared hfails
    exact ⟨hwire, hfour, .inr (hwire ▸ hnone)⟩
  · exact fun h msg => decodeField_none hpb msg (fun w hw => ⟨(h w hw).1, (h w hw).2.1⟩) hnone

/-- and a complete one is read as what it is there. -/
theorem reads_iff_complete (hpb : pb.Standard) (f : WireField) (rest : List Byte) :
    (∀ msg, decodeNext pb (f.bytes ++ rest) msg = readNext (f.bytes ++ rest) msg) ↔
      CleanTag f.tag (f.payload.bytes ++ rest) := by
  have hdecode : ∀ msg, decodeNext pb (f.bytes ++ rest) msg =
      decodeField pb (f.number % 4294967296) (f.tag.value % 8) (f.payload.bytes ++ rest) msg := fun msg => by
    rw [WireField.bytes, List.append_assoc, decodeNext_append hpb]
    rfl
  have hsome : ∀ wire, f.tag.value % 8 = wire → readPayload wire (f.payload.bytes ++ rest) ≠ none := by
    rintro wire rfl
    rw [f.wire_eq, readPayload_append]
    exact Option.some_ne_none _
  have hstays : ∀ msg : CommandRequest,
      (if fits f then some (rest, msg.update [f]) else none) ≠ some (f.payload.bytes ++ rest, msg) := by
    intro msg heq
    have hrest := congrArg Prod.fst (Option.some.inj (Option.ite_none_right_eq_some.mp heq).2)
    exact f.payload.bytes_ne_nil (List.self_eq_append_left.mp hrest)
  simp only [hdecode, readNext_append]
  by_cases hnumber : f.number < 4294967296
  · rw [CleanTag, ← WireField.number, Nat.mod_eq_of_lt hnumber]
    constructor
    · intro h wire hdeclared
      obtain ⟨hwire, hfour⟩ := wire_of_decodeField hdeclared fun hleft => hstays {} ((h {}).symm.trans hleft)
      exact ⟨hwire, hfour, .inl hnumber⟩
    · exact fun h msg => decodeField_eq hpb msg f rest fun wire hdeclared => f.wire_eq.symm.trans (h wire hdeclared).1
  · -- The low bits of a large number are no known field, as this one is none.
    obtain ⟨hfits, hupdate⟩ := forall_and.mp (update_other (declaredWire_large hnumber))
    simp only [if_pos (hfits {}), hupdate]
    constructor
    · intro h wire hdeclared
      have hread := h {}
      obtain ⟨hwire, hfour⟩ := wire_of_decodeField hdeclared fun hleft =>
        f.payload.bytes_ne_nil (List.self_eq_append_left.mp (congrArg Prod.fst (Option.some.inj (hread.symm.trans hleft))))
      exact (decodeField_changes hdeclared hfour (hwire ▸ h)).elim
    · intro h msg
      cases hdeclared : declaredWire (f.number % 4294967296) with
      | some wire =>
        obtain ⟨hwire, -, hlarge⟩ := h wire hdeclared
        exact absurd hlarge (not_or.mpr ⟨hnumber, hsome wire hwire⟩)
      | none =>
        rw [decodeField_other hdeclared, f.wire_eq, hpb.skipField_append]
        rfl

/-- The decoder reads what stands at a place exactly where the tag is clean. -/
theorem reads_iff (hpb : pb.Standard) (tag : Varint) (s : List Byte) :
    (∀ msg, decodeNext pb (tag.bytes ++ s) msg = readNext (tag.bytes ++ s) msg) ↔ CleanTag tag s := by
  cases hpayload : readPayload (tag.value % 8) s with
  | none => exact reads_iff_cut hpb hpayload
  | some r =>
    obtain ⟨p, rest⟩ := r
    obtain ⟨rfl, hwire⟩ := readPayload_eq_some hpayload
    have hfield := reads_iff_complete hpb ⟨tag, p, hwire.symm⟩ rest
    rwa [WireField.bytes, List.append_assoc] at hfield

end Fields

/-! ### A message -/

section Message
variable {pb : PbHelpers} {s rest : List Byte} {f : WireField} {n : Nat}

theorem clean_rest (h : Clean (f.bytes ++ rest)) (hfits : fits f = true) : Clean rest := by
  intro fs tag behind heq hall
  refine h (f :: fs) tag behind ?_ ?_
  · rw [heq]
    exact (List.append_assoc _ _ _).symm
  · rw [List.all_cons, hfits, hall]
    rfl

/-- Where a field can be read, it is the one that is there. -/
theorem readNext_eq_some {msg : CommandRequest} {r : List Byte × CommandRequest} (h : readNext s msg = some r) :
    ∃ f, s = f.bytes ++ r.1 ∧ fits f = true ∧ r.2 = msg.update [f] := by
  obtain ⟨⟨f, rest⟩, hf, hif⟩ := Option.bind_eq_some_iff.mp h
  obtain ⟨hfits, heq⟩ := Option.ite_none_right_eq_some.mp hif
  cases heq
  exact ⟨f, readField_eq_some hf, hfits, rfl⟩

/-- Where no tag can be read, neither reading comes to anything. -/
theorem next_none (hpb : pb.Standard) (h : readVarint s = none) (msg : CommandRequest) :
    decodeNext pb s msg = none ∧ readNext s msg = none := by
  have hnone : readPayload 0 s = none := by
    rw [readPayload, h]
    rfl
  constructor
  · rw [decodeNext, hpb.decodeVarint_none hnone]
    rfl
  · rw [readNext, readField, h]
    rfl

/-- **A message is read field by field where it is clean.** -/
theorem fieldWiseFrom_iff (hpb : pb.Standard) (hlen : s.length ≤ n) : fieldWiseFrom pb n s ↔ Clean s := by
  induction n generalizing s with
  | zero =>
    rw [List.length_eq_zero_iff.mp (Nat.le_zero.mp hlen)]
    refine iff_of_true trivial fun fs tag rest heq _ => ?_
    exact absurd (List.append_eq_nil_iff.mp (List.append_eq_nil_iff.mp heq.symm).2).1 tag.bytes_ne_nil
  | succ n ih =>
    cases hs : s with
    | nil =>
      refine iff_of_true trivial fun fs tag rest heq _ => ?_
      exact absurd (List.append_eq_nil_iff.mp (List.append_eq_nil_iff.mp heq.symm).2).1 tag.bytes_ne_nil
    | cons b more =>
      rw [fieldWiseFrom, ← hs]
      have hshort : ∀ f rest, s = WireField.bytes f ++ rest → rest.length ≤ n := by
        intro f rest heq
        have hpos := length_field_pos f
        have hall := congrArg List.length heq
        rw [List.length_append] at hall
        omega
      constructor
      · intro h fs tag rest heq hall
        cases fs with
        | nil =>
          have htag : s = tag.bytes ++ rest := heq
          exact (reads_iff hpb tag rest).mp fun msg => htag ▸ (h msg).1
        | cons f fs =>
          rw [List.all_cons, Bool.and_eq_true] at hall
          have hfield : s = f.bytes ++ (encode fs ++ (tag.bytes ++ rest)) := heq.trans (List.append_assoc _ _ _)
          obtain ⟨hread, hrest⟩ := h {}
          have hnext := hread.trans ((congrArg (readNext · {}) hfield).trans
            ((readNext_append f _ _).trans (if_pos hall.1)))
          exact (ih (hshort f _ hfield)).mp (hrest _ hnext) fs tag rest rfl hall.2
      · intro h msg
        have hread : decodeNext pb s msg = readNext s msg := by
          cases htag : readVarint s with
          | none =>
            obtain ⟨hdecode, hread⟩ := next_none hpb htag msg
            rw [hdecode, hread]
          | some r =>
            have hsplit := readVarint_eq_some htag
            rw [hsplit]
            exact (reads_iff hpb r.1 r.2).mpr (h [] r.1 r.2 hsplit rfl) msg
        refine ⟨hread, fun r hr => ?_⟩
        obtain ⟨f, hfield, hfits, -⟩ := readNext_eq_some (hread.symm.trans hr)
        exact (ih (hshort f r.1 hfield)).mpr (clean_rest (hfield ▸ h) hfits)

/-- What is read field by field is what the message says. -/
theorem decodeLoop_eq (h : fieldWiseFrom pb n s) (hlen : s.length ≤ n) (msg : CommandRequest) :
    decodeLoop pb n s msg =
      (readFieldsFrom n s).bind fun fs => if fs.all fits then some (msg.update fs) else none := by
  induction n generalizing s msg with
  | zero =>
    rw [List.length_eq_zero_iff.mp (Nat.le_zero.mp hlen)]
    rfl
  | succ n ih =>
    cases hs : s with
    | nil => rfl
    | cons b more =>
      rw [hs, fieldWiseFrom, ← hs] at h
      rw [decodeLoop, readFieldsFrom, ← hs, (h msg).1, readNext]
      cases hfield : readField s with
      | none => rfl
      | some r =>
        obtain ⟨f, rest⟩ := r
        have hsplit := readField_eq_some hfield
        have hpos := length_field_pos f
        have hshort : s.length = f.bytes.length + rest.length := by rw [hsplit, List.length_append]
        rw [Option.bind_some, Option.bind_some]
        dsimp only
        by_cases hfits : fits f = true
        · have hnext : decodeNext pb s msg = some (rest, msg.update [f]) := by
            rw [(h msg).1, hsplit, readNext_append, if_pos hfits]
          rw [if_pos hfits, Option.bind_some]
          dsimp only
          have hrest : rest.length ≤ n := by omega
          rw [ih ((h msg).2 _ hnext) hrest, Option.bind_map]
          refine congrArg (Option.bind (readFieldsFrom n rest)) (funext fun fs => ?_)
          rw [Function.comp_apply, List.all_cons, hfits, Bool.true_and, update_cons msg _ fs]
        · rw [if_neg hfits, Option.bind_none, Option.bind_map]
          symm
          rw [Option.bind_eq_none_iff]
          intro fs _
          rw [Function.comp_apply, List.all_cons, Bool.eq_false_iff.mpr hfits, Bool.false_and]
          rfl

/-- **The decoder reads what a message says**, and each field as what it is, exactly where the message is clean. -/
theorem decodesFields_iff (pb : PbHelpers) (hpb : pb.Standard) (s : List Byte) :
    DecodesFields pb s ∧ FieldWise pb s ↔ Clean s := by
  constructor
  · exact fun h => (fieldWiseFrom_iff hpb (Nat.le_refl _)).mp h.2
  · intro hclean
    have hwise : FieldWise pb s := (fieldWiseFrom_iff hpb (Nat.le_refl _)).mpr hclean
    refine ⟨fun msg => ?_, hwise⟩
    rw [mediaPlayerDecodeCommandRequest, decodeLoop_eq hwise (Nat.le_refl _), Option.bind_eq_some_iff]
    constructor
    · intro h
      obtain ⟨fs, hfs, hif⟩ := h
      obtain ⟨hfits, heq⟩ := Option.ite_none_right_eq_some.mp hif
      exact ⟨fs, readFields_eq_some_iff.mp hfs, hfits, (Option.some.inj heq).symm⟩
    · intro h
      obtain ⟨fs, hfs, hfits, rfl⟩ := h
      exact ⟨fs, readFields_eq_some_iff.mpr hfs, if_pos hfits⟩

/-- Complete fields are clean where each of them is. -/
theorem clean_encode {fs : List WireField} (h : fs.all cleanField = true) : Clean (encode fs) := by
  intro gs tag rest heq hall
  induction gs generalizing fs with
  | nil =>
    cases fs with
    | nil => exact absurd (List.append_eq_nil_iff.mp (List.append_eq_nil_iff.mp heq.symm).2).1 tag.bytes_ne_nil
    | cons f fs =>
      simp only [List.all_cons, Bool.and_eq_true, cleanField, decide_eq_true_eq] at h
      have hsplit : f.tag.bytes ++ (f.payload.bytes ++ encode fs) = tag.bytes ++ rest := by
        rw [← List.append_assoc]
        exact heq
      obtain ⟨rfl, rfl⟩ := Varint.append_inj hsplit
      intro wire hwire
      have hdeclared := h.1.2
      rw [← WireField.number, Nat.mod_eq_of_lt h.1.1] at hwire
      rw [hwire, Option.all_some, decide_eq_true_eq] at hdeclared
      refine ⟨f.wire_eq.trans hdeclared.symm, fun hfive => ?_, .inl h.1.1⟩
      cases hpayload : f.payload with
      | fixed32 data hdata =>
        rw [Payload.bytes, List.length_append]
        omega
      | varint v => simp [hdeclared, hpayload, Payload.wire] at hfive
      | fixed64 data hdata => simp [hdeclared, hpayload, Payload.wire] at hfive
      | delimited len data hdata => simp [hdeclared, hpayload, Payload.wire] at hfive
  | cons g gs ih =>
    have hcons : encode (g :: gs) ++ (tag.bytes ++ rest) = g.bytes ++ (encode gs ++ (tag.bytes ++ rest)) :=
      List.append_assoc _ _ _
    cases fs with
    | nil =>
      have hlen := congrArg List.length heq
      have hpos := length_field_pos g
      rw [hcons, List.length_append] at hlen
      simp [encode] at hlen
      omega
    | cons f fs =>
      have hread := readField_append f (encode fs)
      have hfirst : f.bytes ++ encode fs = g.bytes ++ (encode gs ++ (tag.bytes ++ rest)) := heq.trans hcons
      rw [hfirst, readField_append] at hread
      have hrest := congrArg Prod.snd (Option.some.inj hread)
      rw [List.all_cons, Bool.and_eq_true] at h hall
      exact ih h.2 hrest.symm hall.2

/-- A key, and that there is a volume. -/
theorem decodes_key_and_volume :
    let s := encode [⟨⟨[0x0D], rfl⟩, .fixed32 [7, 0, 0, 0] rfl, rfl⟩, ⟨⟨[0x20], rfl⟩, .varint ⟨[1], rfl⟩, rfl⟩]
    DecodesFields standardHelpers s ∧ FieldWise standardHelpers s :=
  (decodesFields_iff _ standard_standardHelpers _).mpr (clean_encode (by decide))

/-- The key as a number: what it holds is read as a tag. -/
theorem key_as_number : standardHelpers.Standard ∧ ¬DecodesFields standardHelpers [0x08, 0x05] := by
  refine ⟨standard_standardHelpers, fun h => ?_⟩
  have hnone : mediaPlayerDecodeCommandRequest standardHelpers [0x08, 0x05] = none := by decide
  have hsome := (h (CommandRequest.update {} [⟨⟨[0x08], rfl⟩, .varint ⟨[5], rfl⟩, rfl⟩])).mpr ⟨_, rfl, rfl, rfl⟩
  rw [hnone] at hsome
  cases hsome

end Message

end Thingino.Esphome
