import Mathlib.Data.List.TakeWhile
import Thingino.Lib.Bytes

/-! The wire format of protobuf.

A message is a list of fields, each a tag and what the wire type of the tag asks for. The types are the grammar:
a `Varint` and a `WireField` hold the bytes they are written with, and cannot be built from bytes that are none.
`readFields` takes a message apart again (`readFields_eq_some_iff`). -/
namespace Thingino.Lib.Protobuf

/-! ### Numbers -/

/-- Bytes with the high bit, and a last one without it. -/
def isVarint (s : List Byte) : Bool :=
  s.length ≤ 10 && s.dropLast.all (128 ≤ ·.toNat) && s.getLast?.any (·.toNat < 128)

structure Varint where
  bytes : List Byte
  wellFormed : isVarint bytes = true

/-- Groups of seven bits, the lowest first; the value has 64 bits. -/
def Varint.value (v : Varint) : Nat := v.bytes.foldr (fun b n => b.toNat % 128 + 128 * n) 0 % 18446744073709551616

def readVarint (s : List Byte) : Option (Varint × List Byte) :=
  let n := (s.takeWhile (128 ≤ ·.toNat)).length + 1
  if h : isVarint (s.take n) = true then some (⟨s.take n, h⟩, s.drop n) else none

/-! ### Fields -/

/-- What stands behind a tag. -/
inductive Payload
  | varint (v : Varint)
  | fixed64 (data : List Byte) (length_eq : data.length = 8)
  | delimited (len : Varint) (data : List Byte) (length_eq : data.length = len.value)
  | fixed32 (data : List Byte) (length_eq : data.length = 4)

namespace Payload

def wire : Payload → Nat
  | varint _ => 0
  | fixed64 _ _ => 1
  | delimited _ _ _ => 2
  | fixed32 _ _ => 5

def bytes : Payload → List Byte
  | varint v => v.bytes
  | fixed64 data _ => data
  | delimited len data _ => len.bytes ++ data
  | fixed32 data _ => data

def number? : Payload → Option Nat
  | varint v => some v.value
  | _ => none

/-- The data of a string or a message. -/
def text? : Payload → Option (List Byte)
  | delimited _ data _ => some data
  | _ => none

end Payload

structure WireField where
  tag : Varint
  payload : Payload
  wire_eq : tag.value % 8 = payload.wire

namespace WireField

def number (f : WireField) : Nat := f.tag.value / 8

def bytes (f : WireField) : List Byte := f.tag.bytes ++ f.payload.bytes

/-- The value of a field with this number, where it has this type. -/
def varint? (n : Nat) (f : WireField) : Option Nat :=
  match f.payload with
  | .varint v => if f.number = n then some v.value else none
  | _ => none

def delimited? (n : Nat) (f : WireField) : Option (List Byte) :=
  match f.payload with
  | .delimited _ data _ => if f.number = n then some data else none
  | _ => none

def fixed32? (n : Nat) (f : WireField) : Option (List Byte) :=
  match f.payload with
  | .fixed32 data _ => if f.number = n then some data else none
  | _ => none

end WireField

/-- A message is its fields one after the other. -/
def encode (fs : List WireField) : List Byte := fs.flatMap WireField.bytes

/-- The value of the last field that has one. -/
def last {α : Type} (value? : WireField → Option α) (fs : List WireField) : Option α := (fs.filterMap value?).getLast?

def readFixed (n : Nat) (s : List Byte) : Option ({ data : List Byte // data.length = n } × List Byte) :=
  if h : n ≤ s.length then some (⟨s.take n, List.length_take_of_le h⟩, s.drop n) else none

def readPayload (wire : Nat) (s : List Byte) : Option (Payload × List Byte) :=
  match wire with
  | 0 => (readVarint s).map fun r => (.varint r.1, r.2)
  | 1 => (readFixed 8 s).map fun r => (.fixed64 r.1.1 r.1.2, r.2)
  | 2 => (readVarint s).bind fun len => (readFixed len.1.value len.2).map fun r => (.delimited len.1 r.1.1 r.1.2, r.2)
  | 5 => (readFixed 4 s).map fun r => (.fixed32 r.1.1 r.1.2, r.2)
  | _ => none

def readField (s : List Byte) : Option (WireField × List Byte) :=
  (readVarint s).bind fun tag =>
    (readPayload (tag.1.value % 8) tag.2).bind fun r =>
      if h : tag.1.value % 8 = r.1.wire then some (⟨tag.1, r.1, h⟩, r.2) else none

/-- At most so many fields, up to the end of the message. -/
def readFieldsFrom : Nat → List Byte → Option (List WireField)
  | _, [] => some []
  | 0, _ :: _ => none
  | n + 1, b :: s => (readField (b :: s)).bind fun r => (readFieldsFrom n r.2).map (r.1 :: ·)

def readFields (s : List Byte) : Option (List WireField) := readFieldsFrom s.length s

/-- The complete fields that some bytes begin with, up to one that is not of a kind. -/
def rowFrom (kind : WireField → Bool) : Nat → List Byte → List WireField
  | 0, _ => []
  | n + 1, s =>
    match readField s with
    | some (f, rest) => if kind f then f :: rowFrom kind n rest else []
    | none => []

def row (kind : WireField → Bool) (s : List Byte) : List WireField := rowFrom kind s.length s

/-! ### Reading what is written -/

section Read
variable {v w : Varint} {s rest rest' : List Byte} {f g : WireField} {p q : Payload} {n wire : Nat} {fs gs : List WireField}

theorem Varint.bytes_ne_nil (v : Varint) : v.bytes ≠ [] := by
  intro h
  have hv := v.wellFormed
  rw [h] at hv
  exact Bool.false_ne_true hv

theorem Payload.bytes_ne_nil (p : Payload) : p.bytes ≠ [] := by
  cases p with
  | varint v => exact v.bytes_ne_nil
  | delimited len data hdata => exact List.append_ne_nil_of_left_ne_nil len.bytes_ne_nil data
  | fixed32 data hdata => exact List.ne_nil_of_length_pos (hdata ▸ Nat.succ_pos 3)
  | fixed64 data hdata => exact List.ne_nil_of_length_pos (hdata ▸ Nat.succ_pos 7)

theorem readVarint_append (v : Varint) (rest : List Byte) : readVarint (v.bytes ++ rest) = some (v, rest) := by
  have hv := v.wellFormed
  simp only [isVarint, Bool.and_eq_true, List.all_eq_true, decide_eq_true_eq] at hv
  obtain ⟨⟨-, hmore⟩, hlast⟩ := hv
  have hne := v.bytes_ne_nil
  rw [List.getLast?_eq_getLast_of_ne_nil hne, Option.any_some, decide_eq_true_eq] at hlast
  have htake : ((v.bytes ++ rest).takeWhile (128 ≤ ·.toNat)).length + 1 = v.bytes.length := by
    have hsplit := List.dropLast_append_getLast hne
    conv_lhs => rw [← hsplit]
    rw [List.append_assoc, List.takeWhile_append_of_pos fun b hb => decide_eq_true (hmore b hb), List.singleton_append,
      List.takeWhile_cons_of_neg (by simpa using hlast), List.append_nil, List.length_dropLast]
    have hpos := List.length_pos_iff.mpr hne
    omega
  unfold readVarint
  dsimp only
  rw [htake, List.take_left, List.drop_left, dif_pos v.wellFormed]

theorem readVarint_eq_some (h : readVarint s = some (v, rest)) : s = v.bytes ++ rest := by
  unfold readVarint at h
  dsimp only at h
  split at h
  · cases h
    exact (List.take_append_drop _ s).symm
  · cases h

/-- A number at the beginning of some bytes is the only one there. -/
theorem Varint.append_inj (h : v.bytes ++ rest = w.bytes ++ rest') : v = w ∧ rest = rest' := by
  have hread := readVarint_append v rest
  rw [h, readVarint_append] at hread
  cases hread
  exact ⟨rfl, rfl⟩

theorem readFixed_append {data : List Byte} (hdata : data.length = n) (rest : List Byte) :
    readFixed n (data ++ rest) = some (⟨data, hdata⟩, rest) := by
  subst hdata
  unfold readFixed
  rw [dif_pos (by rw [List.length_append]; exact Nat.le_add_right _ _)]
  simp

theorem readFixed_eq_some {r : { data : List Byte // data.length = n }} (h : readFixed n s = some (r, rest)) :
    s = r.1 ++ rest := by
  unfold readFixed at h
  split at h
  · cases h
    exact (List.take_append_drop n s).symm
  · cases h

theorem readPayload_append (p : Payload) (rest : List Byte) :
    readPayload p.wire (p.bytes ++ rest) = some (p, rest) := by
  cases p with
  | varint v => exact congrArg (Option.map _) (readVarint_append v rest)
  | fixed64 data hdata => exact congrArg (Option.map _) (readFixed_append hdata rest)
  | delimited len data hdata =>
    rw [Payload.wire, Payload.bytes, readPayload, List.append_assoc, readVarint_append, Option.bind_some,
      readFixed_append hdata]
    rfl
  | fixed32 data hdata => exact congrArg (Option.map _) (readFixed_append hdata rest)

theorem readPayload_eq_some (h : readPayload wire s = some (p, rest)) : s = p.bytes ++ rest ∧ p.wire = wire := by
  unfold readPayload at h
  split at h
  · obtain ⟨⟨v, s'⟩, hv, heq⟩ := Option.map_eq_some_iff.mp h
    cases heq
    exact ⟨readVarint_eq_some hv, rfl⟩
  · obtain ⟨⟨r, s'⟩, hr, heq⟩ := Option.map_eq_some_iff.mp h
    cases heq
    exact ⟨readFixed_eq_some hr, rfl⟩
  · obtain ⟨⟨len, s'⟩, hlen, hbind⟩ := Option.bind_eq_some_iff.mp h
    obtain ⟨⟨r, s''⟩, hr, heq⟩ := Option.map_eq_some_iff.mp hbind
    cases heq
    have hdata : s' = r.1 ++ s'' := readFixed_eq_some hr
    refine ⟨?_, rfl⟩
    rw [readVarint_eq_some hlen, hdata, Payload.bytes, List.append_assoc]
  · obtain ⟨⟨r, s'⟩, hr, heq⟩ := Option.map_eq_some_iff.mp h
    cases heq
    exact ⟨readFixed_eq_some hr, rfl⟩
  · cases h

theorem readField_append (f : WireField) (rest : List Byte) : readField (f.bytes ++ rest) = some (f, rest) := by
  have hpayload : readPayload (f.tag.value % 8) (f.payload.bytes ++ rest) = some (f.payload, rest) := by
    rw [f.wire_eq]
    exact readPayload_append f.payload rest
  rw [readField, WireField.bytes, List.append_assoc, readVarint_append, Option.bind_some]
  dsimp only
  rw [hpayload, Option.bind_some, dif_pos f.wire_eq]

theorem readField_eq_some (h : readField s = some (f, rest)) : s = f.bytes ++ rest := by
  obtain ⟨⟨tag, s'⟩, htag, hbind⟩ := Option.bind_eq_some_iff.mp h
  obtain ⟨⟨p, s''⟩, hp, hfield⟩ := Option.bind_eq_some_iff.mp hbind
  dsimp only at hfield
  split at hfield
  · have hrest : s' = p.bytes ++ s'' := (readPayload_eq_some hp).1
    cases hfield
    rw [readVarint_eq_some htag, hrest, WireField.bytes, List.append_assoc]
  · cases hfield

/-- Bytes without a field: no tag, or no payload behind it. -/
theorem readField_eq_none (h : readField s = none) :
    readVarint s = none ∨
      ∃ (tag : Varint) (rest : List Byte), s = tag.bytes ++ rest ∧ readPayload (tag.value % 8) rest = none := by
  rw [readField] at h
  cases htag : readVarint s with
  | none => exact .inl rfl
  | some r =>
    obtain ⟨tag, rest⟩ := r
    refine .inr ⟨tag, rest, readVarint_eq_some htag, ?_⟩
    rw [htag, Option.bind_some] at h
    cases hpayload : readPayload (tag.value % 8) rest with
    | none => rfl
    | some r =>
      dsimp only at h
      rw [hpayload, Option.bind_some, dif_pos (readPayload_eq_some hpayload).2.symm] at h
      cases h

theorem length_field_pos (f : WireField) : 0 < f.bytes.length := by
  have hpos := List.length_pos_iff.mpr f.tag.bytes_ne_nil
  rw [WireField.bytes, List.length_append]
  omega

theorem readFieldsFrom_encode (h : (encode fs).length ≤ n) : readFieldsFrom n (encode fs) = some fs := by
  induction fs generalizing n with
  | nil => cases n <;> rfl
  | cons f fs ih =>
    have hpos := length_field_pos f
    have hcons : encode (f :: fs) = f.bytes ++ encode fs := rfl
    rw [hcons, List.length_append] at h
    cases n with
    | zero => omega
    | succ n =>
      cases hall : encode (f :: fs) with
      | nil =>
        have hlen := congrArg List.length hall
        rw [hcons, List.length_append, List.length_nil] at hlen
        omega
      | cons b s =>
        rw [readFieldsFrom, ← hall, hcons, readField_append, Option.bind_some, ih (by omega)]
        rfl

theorem encode_of_readFieldsFrom (h : readFieldsFrom n s = some fs) : s = encode fs := by
  induction n generalizing s fs with
  | zero =>
    cases s with
    | nil =>
      cases h
      rfl
    | cons b s => cases h
  | succ n ih =>
    cases s with
    | nil =>
      cases h
      rfl
    | cons b s =>
      obtain ⟨⟨f, rest⟩, hf, hmap⟩ := Option.bind_eq_some_iff.mp h
      obtain ⟨gs, hgs, rfl⟩ := Option.map_eq_some_iff.mp hmap
      have hrest : rest = encode gs := ih hgs
      rw [readField_eq_some hf, hrest]
      rfl

theorem rowFrom_eq (kind : WireField → Bool) {m : Nat} (hn : s.length ≤ n) (hm : s.length ≤ m) :
    rowFrom kind n s = rowFrom kind m s := by
  induction n generalizing m s with
  | zero =>
    obtain rfl := List.length_eq_zero_iff.mp (Nat.le_zero.mp hn)
    cases m <;> rfl
  | succ n ih =>
    cases m with
    | zero =>
      obtain rfl := List.length_eq_zero_iff.mp (Nat.le_zero.mp hm)
      rfl
    | succ m =>
      unfold rowFrom
      cases hfield : readField s with
      | none => rfl
      | some r =>
        have hpos := length_field_pos r.1
        have hlen := congrArg List.length (readField_eq_some hfield)
        rw [List.length_append] at hlen
        dsimp only
        rw [ih (by omega) (show r.2.length ≤ m by omega)]

theorem row_append (kind : WireField → Bool) (f : WireField) (rest : List Byte) :
    row kind (f.bytes ++ rest) = if kind f then f :: row kind rest else [] := by
  have hpos := length_field_pos f
  have hlen : (f.bytes ++ rest).length = f.bytes.length + rest.length := List.length_append
  cases hn : (f.bytes ++ rest).length with
  | zero => omega
  | succ n =>
    rw [row, hn, rowFrom, readField_append]
    dsimp only
    rw [row, rowFrom_eq kind (show rest.length ≤ n by omega) (Nat.le_refl _)]

theorem row_all (kind : WireField → Bool) (s : List Byte) : (row kind s).all kind = true := by
  have hall : ∀ n s, (rowFrom kind n s).all kind = true := by
    intro n
    induction n with
    | zero => exact fun _ => rfl
    | succ n ih =>
      intro s
      unfold rowFrom
      split
      · rename_i f rest _
        split
        · rename_i hf
          rw [List.all_cons, hf, ih rest]
          rfl
        · rfl
      · rfl
  exact hall _ s

theorem row_of_none {kind : WireField → Bool} (h : readField s = none) : row kind s = [] := by
  cases s with
  | nil => rfl
  | cons b s =>
    rw [row, List.length_cons, rowFrom, h]

/-- The fields of a message are those it is written with. -/
theorem readFields_eq_some_iff : readFields s = some fs ↔ s = encode fs := by
  constructor
  · exact encode_of_readFieldsFrom
  · intro h
    rw [h]
    exact readFieldsFrom_encode (Nat.le_refl _)

theorem last_cons {α : Type} (value? : WireField → Option α) (f : WireField) (fs : List WireField) :
    last value? (f :: fs) = (last value? fs).or (value? f) := by
  rw [last, last, List.filterMap_cons]
  cases value? f with
  | none => rw [Option.or_none]
  | some a => exact List.getLast?_cons.trans (by cases (fs.filterMap value?).getLast? <;> rfl)

theorem last_single {α : Type} (value? : WireField → Option α) (f : WireField) : last value? [f] = value? f := by
  rw [last_cons]
  rfl

theorem getD_last_cons {α β : Type} (value? : WireField → Option α) (g : α → β) (f : WireField) (fs : List WireField) (b : β) :
    ((last value? (f :: fs)).map g).getD b = ((last value? fs).map g).getD (((last value? [f]).map g).getD b) := by
  rw [last_cons, last_cons]
  cases last value? fs with
  | none => rfl
  | some a => rfl

theorem varint?_eq (n : Nat) (f : WireField) : f.varint? n = if f.number = n then f.payload.number? else none := by
  unfold WireField.varint?
  cases f.payload <;> simp [Payload.number?]

theorem delimited?_eq (n : Nat) (f : WireField) : f.delimited? n = if f.number = n then f.payload.text? else none := by
  unfold WireField.delimited?
  cases f.payload <;> simp [Payload.text?]

theorem encode_append (fs gs : List WireField) : encode (fs ++ gs) = encode fs ++ encode gs := List.flatMap_append

theorem encode_cons (f : WireField) (fs : List WireField) : encode (f :: fs) = f.bytes ++ encode fs := rfl

theorem last_eq_some {α : Type} {value? : WireField → Option α} {a : α} (h : last value? fs = some a) :
    ∃ f ∈ fs, value? f = some a := List.mem_filterMap.mp (List.mem_of_getLast? h)

end Read

end Thingino.Lib.Protobuf
