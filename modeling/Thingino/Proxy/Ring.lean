import Thingino.Lib.Circular

/-! The ring buffers of the TLS proxy, `ring_t`.

A connection has one ring per direction. `rb_write` copies at most as much as there
is room for, in as many pieces as the wrap needs; `rb_peek` shows the first piece of
the content; `rb_consume` drops from the front. A ring stands for the queue of bytes
it holds (`contents`), and each operation does to the queue what its name says. Both
copies of the event server have the same ring. -/
namespace Thingino.Proxy
open Lib

/-- `RBUF_SIZE`. -/
def rbufSize : Nat := 64 * 1024

/-- `TMP_READ`. -/
def tmpRead : Nat := 4096

structure Ring where
  buf : Buf
  head : Nat
  tail : Nat
  len : Nat

def rbInit (rb : Ring) : Ring := { rb with head := 0, tail := 0, len := 0 }

def rbSpace (rb : Ring) : Nat := rbufSize - rb.len

def rbSize (rb : Ring) : Nat := rb.len

/-- One turn of the copy loop of `rb_write`: `memcpy` at the head, the indices moved on. -/
def rbCopy (rb : Ring) (bytes : List Byte) : Ring :=
  { rb with
    buf := rb.buf.write rb.head bytes
    head := (rb.head + bytes.length) % rbufSize
    len := rb.len + bytes.length }

/-- The copy loop, over the bytes that are left; every turn stores at least one. -/
def rbWriteLoop : Nat → Ring → List Byte → Ring
  | 0, rb, _ => rb
  | fuel + 1, rb, src =>
    if src = [] then rb
    else
      let chunk := min (rbufSize - rb.head) src.length
      rbWriteLoop fuel (rbCopy rb (src.take chunk)) (src.drop chunk)

/-- The ring and the number of bytes taken. -/
def rbWrite (rb : Ring) (src : List Byte) : Ring × Nat :=
  let n := min src.length (rbSpace rb)
  (rbWriteLoop n rb (src.take n), n)

/-- The bytes at the pointer `rb_peek` gives; none when the ring is empty. -/
def rbPeek (rb : Ring) : List Byte :=
  if rb.len = 0 then [] else rb.buf.read rb.tail (min (rbufSize - rb.tail) rb.len)

def rbConsume (rb : Ring) (n : Nat) : Ring :=
  let n := min n rb.len
  { rb with tail := (rb.tail + n) % rbufSize, len := rb.len - n }

/-! ### The queue a ring stands for -/

namespace Ring

/-- The bytes in the ring, first in first. -/
def contents (rb : Ring) : List Byte := window rbufSize rb.buf.data rb.tail rb.len

/-- The three indices belong together. -/
structure Ok (rb : Ring) : Prop where
  head : rb.head = (rb.tail + rb.len) % rbufSize
  tail : rb.tail < rbufSize
  len : rb.len ≤ rbufSize

@[simp] theorem length_contents (rb : Ring) : rb.contents.length = rb.len := length_window ..

theorem ok_rbInit (rb : Ring) : (rbInit rb).Ok := ⟨rfl, Nat.zero_lt_succ _, Nat.zero_le _⟩

theorem rbSize_eq (rb : Ring) : rbSize rb = rb.contents.length := by rw [length_contents, rbSize]

theorem rbSpace_eq (rb : Ring) : rbSpace rb = rbufSize - rb.contents.length := by rw [length_contents, rbSpace]

theorem rbCopy_spec {rb : Ring} (h : rb.Ok) (bytes : List Byte) (hstraight : rb.head + bytes.length ≤ rbufSize)
    (hfit : rb.len + bytes.length ≤ rbufSize) :
    (rbCopy rb bytes).Ok ∧ (rbCopy rb bytes).contents = rb.contents ++ bytes := by
  have hwindow := window_write rbufSize rb.buf rb.tail rb.len bytes (by rw [← h.head]; exact hstraight) hfit
  rw [← h.head] at hwindow
  refine ⟨⟨?_, h.tail, hfit⟩, hwindow⟩
  simp only [rbCopy, h.head, Nat.mod_add_mod, Nat.add_assoc]

theorem rbWriteLoop_spec (fuel : Nat) (rb : Ring) (src : List Byte) (h : rb.Ok) (hfit : rb.len + src.length ≤ rbufSize)
    (hfuel : src.length ≤ fuel) :
    (rbWriteLoop fuel rb src).Ok ∧ (rbWriteLoop fuel rb src).contents = rb.contents ++ src := by
  induction fuel generalizing rb src with
  | zero =>
    rw [List.length_eq_zero_iff.mp (Nat.le_zero.mp hfuel), List.append_nil]
    exact ⟨h, rfl⟩
  | succ fuel ih =>
    rw [rbWriteLoop]
    by_cases hnil : src = []
    · rw [if_pos hnil, hnil, List.append_nil]
      exact ⟨h, rfl⟩
    · rw [if_neg hnil]
      dsimp only
      have hpos := List.length_pos_of_ne_nil hnil
      have hhead : rb.head < rbufSize := by
        rw [h.head]
        exact Nat.mod_lt _ (by decide)
      generalize hchunk : min (rbufSize - rb.head) src.length = chunk
      have hlen : (src.take chunk).length = chunk := by
        rw [List.length_take]
        omega
      obtain ⟨hok, hcopy⟩ := rbCopy_spec h (src.take chunk) (by omega) (by omega)
      obtain ⟨hok', hrest⟩ := ih (rbCopy rb (src.take chunk)) (src.drop chunk) hok
        (by rw [rbCopy, List.length_drop]; dsimp only; omega) (by rw [List.length_drop]; omega)
      refine ⟨hok', ?_⟩
      rw [hrest, hcopy, List.append_assoc, List.take_append_drop]

/-- `rb_write` appends what fits. -/
theorem rbWrite_spec {rb : Ring} (h : rb.Ok) (src : List Byte) :
    (rbWrite rb src).1.Ok ∧ (rbWrite rb src).1.contents = rb.contents ++ src.take (rbSpace rb) ∧
      (rbWrite rb src).2 = min src.length (rbSpace rb) := by
  have hlen := h.len
  have htake : src.take (min src.length (rbSpace rb)) = src.take (rbSpace rb) := by
    rw [Nat.min_comm, ← List.take_eq_take_min]
  obtain ⟨hok, hcontents⟩ := rbWriteLoop_spec (min src.length (rbSpace rb)) rb
    (src.take (min src.length (rbSpace rb))) h
    (by rw [List.length_take, rbSpace]; omega) (by rw [List.length_take]; omega)
  exact ⟨hok, htake ▸ hcontents, rfl⟩

/-- `rb_peek` shows a prefix of the queue. -/
theorem rbPeek_eq {rb : Ring} (h : rb.Ok) : rbPeek rb = rb.contents.take (rbufSize - rb.tail) := by
  unfold rbPeek
  by_cases h0 : rb.len = 0
  · have hnil : rb.contents = [] := List.length_eq_zero_iff.mp (by rw [length_contents, h0])
    rw [if_pos h0, hnil, List.take_nil]
  · rw [if_neg h0]
    have htail := h.tail
    rw [List.take_eq_take_min, length_contents, contents, take_window _ _ _ _ _ (by omega),
      window_straight _ _ _ _ (by omega)]
    rfl

theorem rbPeek_isPrefix {rb : Ring} (h : rb.Ok) : rbPeek rb <+: rb.contents := by
  rw [rbPeek_eq h]
  exact List.take_prefix ..

/-- A ring with something in it shows something. -/
theorem rbPeek_ne_nil {rb : Ring} (h : rb.Ok) (hne : 0 < rbSize rb) : rbPeek rb ≠ [] := by
  have htail := h.tail
  unfold rbSize at hne
  apply List.ne_nil_of_length_pos
  rw [rbPeek_eq h, List.length_take, length_contents]
  omega

theorem ok_rbConsume {rb : Ring} (h : rb.Ok) (n : Nat) : (rbConsume rb n).Ok := by
  have hlen := h.len
  refine ⟨?_, Nat.mod_lt _ (by decide), ?_⟩
  · simp only [rbConsume, h.head, Nat.mod_add_mod]
    rw [Nat.add_assoc, show min n rb.len + (rb.len - min n rb.len) = rb.len by omega]
  · simp only [rbConsume]
    omega

/-- `rb_consume` drops from the front. -/
theorem contents_rbConsume (rb : Ring) (n : Nat) : (rbConsume rb n).contents = rb.contents.drop n := by
  by_cases h : n ≤ rb.len
  · simp only [contents, rbConsume, Nat.min_eq_left h]
    exact (drop_window _ _ _ _ _ h).symm
  · rw [List.drop_eq_nil_of_le (by rw [length_contents]; omega)]
    apply List.length_eq_zero_iff.mp
    rw [length_contents]
    simp only [rbConsume]
    omega

end Ring

/-! ### Rings that cannot be in disorder -/

/-- A ring whose indices belong together; the operations keep them so. -/
def Queue := { rb : Ring // rb.Ok }

namespace Queue

/-- A ring of a zeroed allocation, after `rb_init`. -/
def empty : Queue := ⟨rbInit ⟨⟨fun _ => 0#8, []⟩, 0, 0, 0⟩, Ring.ok_rbInit _⟩

def space (q : Queue) : Nat := rbSpace q.1

def size (q : Queue) : Nat := rbSize q.1

def peek (q : Queue) : List Byte := rbPeek q.1

def write (q : Queue) (src : List Byte) : Queue := ⟨(rbWrite q.1 src).1, (Ring.rbWrite_spec q.2 src).1⟩

/-- The count `rb_write` returns. -/
def taken (q : Queue) (src : List Byte) : Nat := (rbWrite q.1 src).2

def consume (q : Queue) (n : Nat) : Queue := ⟨rbConsume q.1 n, Ring.ok_rbConsume q.2 n⟩

def contents (q : Queue) : List Byte := q.1.contents

theorem size_eq (q : Queue) : q.size = q.contents.length := Ring.rbSize_eq q.1

theorem space_eq (q : Queue) : q.space = rbufSize - q.contents.length := Ring.rbSpace_eq q.1

theorem contents_write (q : Queue) (src : List Byte) : (q.write src).contents = q.contents ++ src.take q.space :=
  (Ring.rbWrite_spec q.2 src).2.1

theorem taken_eq (q : Queue) (src : List Byte) : q.taken src = min src.length q.space :=
  (Ring.rbWrite_spec q.2 src).2.2

@[simp] theorem contents_consume (q : Queue) (n : Nat) : (q.consume n).contents = q.contents.drop n :=
  Ring.contents_rbConsume q.1 n

theorem peek_isPrefix (q : Queue) : q.peek <+: q.contents := Ring.rbPeek_isPrefix q.2

/-- A queue with something in it shows something. -/
theorem peek_ne_nil {q : Queue} (h : 0 < q.contents.length) : q.peek ≠ [] :=
  Ring.rbPeek_ne_nil q.2 (by rw [Ring.rbSize_eq]; exact h)

/-- What fits is appended whole. -/
theorem contents_write_of_le {q : Queue} {src : List Byte} (h : src.length ≤ q.space) :
    (q.write src).contents = q.contents ++ src := by
  rw [contents_write, List.take_of_length_le h]

/-- The shown bytes are the front of the queue. -/
theorem take_peek {q : Queue} {n : Nat} (h : n ≤ q.peek.length) : q.peek.take n = q.contents.take n := by
  obtain ⟨rest, hrest⟩ := q.peek_isPrefix
  rw [← hrest, List.take_append_of_le_length h]

end Queue

end Thingino.Proxy
