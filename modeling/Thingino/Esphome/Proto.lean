import Thingino.Lib.Protobuf

/-! The reading functions of `esphome_proto.h`.

They come from outside; the plugin relies on them to read the wire format, and to fail where the bytes end too early
or a string does not fit. What is left to read stands for the buffer, and `none` for its error flag. -/
namespace Thingino.Esphome

open Lib Lib.Protobuf

structure PbHelpers where
  decodeVarint : List Byte → Option (Nat × List Byte)
  decodeString : Nat → List Byte → Option (List Byte × List Byte)
  skipField : Nat → List Byte → Option (List Byte)

/-- What the functions are documented to do; a string takes one byte less than its buffer has. -/
structure PbHelpers.Standard (pb : PbHelpers) : Prop where
  decodeVarint_iff : ∀ s n rest,
    pb.decodeVarint s = some (n, rest) ↔ ∃ v : Varint, s = v.bytes ++ rest ∧ v.value = n
  decodeString_iff : ∀ size s text rest,
    pb.decodeString size s = some (text, rest) ↔
      ∃ len : Varint, s = len.bytes ++ text ++ rest ∧ text.length = len.value ∧ text.length < size
  skipField_iff : ∀ wire s rest,
    pb.skipField wire s = some rest ↔ ∃ p : Payload, p.wire = wire ∧ s = p.bytes ++ rest

/-- Functions that do it. -/
def standardHelpers : PbHelpers where
  decodeVarint s := (readVarint s).map fun r => (r.1.value, r.2)
  decodeString size s := (readVarint s).bind fun len =>
    (readFixed len.1.value len.2).bind fun r => if r.1.1.length < size then some (r.1.1, r.2) else none
  skipField wire s := (readPayload wire s).map Prod.snd

theorem standard_standardHelpers : standardHelpers.Standard where
  decodeVarint_iff s n rest := by
    constructor
    · intro h
      obtain ⟨⟨v, s'⟩, hv, heq⟩ := Option.map_eq_some_iff.mp h
      cases heq
      exact ⟨v, readVarint_eq_some hv, rfl⟩
    · intro h
      obtain ⟨v, rfl, rfl⟩ := h
      exact congrArg (Option.map _) (readVarint_append v rest)
  decodeString_iff size s text rest := by
    constructor
    · intro h
      obtain ⟨⟨len, s'⟩, hlen, hbind⟩ := Option.bind_eq_some_iff.mp h
      obtain ⟨⟨r, s''⟩, hr, hif⟩ := Option.bind_eq_some_iff.mp hbind
      have hdata : s' = r.1 ++ s'' := readFixed_eq_some hr
      obtain ⟨hsize, heq⟩ := Option.ite_none_right_eq_some.mp hif
      cases heq
      refine ⟨len, ?_, r.2, hsize⟩
      rw [readVarint_eq_some hlen, hdata, List.append_assoc]
    · intro h
      obtain ⟨len, rfl, hlen, hsize⟩ := h
      unfold standardHelpers
      dsimp only
      rw [List.append_assoc, readVarint_append, Option.bind_some, readFixed_append hlen, Option.bind_some]
      exact if_pos hsize
  skipField_iff wire s rest := by
    constructor
    · intro h
      obtain ⟨⟨p, s'⟩, hp, heq⟩ := Option.map_eq_some_iff.mp h
      cases heq
      exact ⟨p, (readPayload_eq_some hp).2, (readPayload_eq_some hp).1⟩
    · intro h
      obtain ⟨p, rfl, rfl⟩ := h
      exact congrArg (Option.map Prod.snd) (readPayload_append p rest)

namespace PbHelpers.Standard
variable {pb : PbHelpers} {s rest : List Byte} {n wire : Nat}

theorem decodeVarint_append (hpb : pb.Standard) (v : Varint) (rest : List Byte) :
    pb.decodeVarint (v.bytes ++ rest) = some (v.value, rest) :=
  (hpb.decodeVarint_iff _ _ _).mpr ⟨v, rfl, rfl⟩

theorem skipField_append (hpb : pb.Standard) (p : Payload) (rest : List Byte) :
    pb.skipField p.wire (p.bytes ++ rest) = some rest :=
  (hpb.skipField_iff _ _ _).mpr ⟨p, rfl, rfl⟩

/-- A string is read where its buffer has room. -/
theorem decodeString_append (hpb : pb.Standard) {len : Varint} {data : List Byte} (hdata : data.length = len.value)
    (size : Nat) (rest : List Byte) :
    pb.decodeString size ((Payload.delimited len data hdata).bytes ++ rest) =
      if data.length < size then some (data, rest) else none := by
  split
  · rename_i hsize
    exact (hpb.decodeString_iff _ _ _ _).mpr ⟨len, rfl, hdata, hsize⟩
  · rename_i hsize
    rw [Option.eq_none_iff_forall_not_mem]
    intro r hr
    obtain ⟨len', hsplit, hlen', hsize'⟩ := (hpb.decodeString_iff _ _ r.1 r.2).mp hr
    rw [Payload.bytes, List.append_assoc, List.append_assoc] at hsplit
    obtain ⟨hlen, hrest⟩ := Varint.append_inj hsplit
    have heq := List.append_inj_left hrest (by rw [hdata, hlen', hlen])
    exact hsize (heq ▸ hsize')

/-- Where no payload can be read, no function reads one. -/
theorem decodeVarint_none (hpb : pb.Standard) (h : readPayload 0 s = none) : pb.decodeVarint s = none := by
  rw [Option.eq_none_iff_forall_not_mem]
  intro r hr
  obtain ⟨v, rfl, -⟩ := (hpb.decodeVarint_iff _ r.1 r.2).mp hr
  have hread := readPayload_append (.varint v) r.2
  rw [Payload.wire, Payload.bytes, h] at hread
  cases hread

theorem decodeString_none (hpb : pb.Standard) (h : readPayload 2 s = none) (size : Nat) :
    pb.decodeString size s = none := by
  rw [Option.eq_none_iff_forall_not_mem]
  intro r hr
  obtain ⟨len, rfl, hlen, -⟩ := (hpb.decodeString_iff _ _ r.1 r.2).mp hr
  have hread := readPayload_append (.delimited len r.1 hlen) r.2
  rw [Payload.wire, Payload.bytes, h] at hread
  cases hread

theorem skipField_none (hpb : pb.Standard) (h : readPayload wire s = none) : pb.skipField wire s = none := by
  rw [Option.eq_none_iff_forall_not_mem]
  intro rest hrest
  obtain ⟨p, rfl, rfl⟩ := (hpb.skipField_iff _ _ rest).mp hrest
  rw [readPayload_append] at h
  cases h

end PbHelpers.Standard

end Thingino.Esphome
