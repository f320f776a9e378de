import Thingino.Lib.BoundedQueue
import Thingino.Proxy.Ring

/-! The ring as a bounded byte queue, over any sequence of calls.

`rb_write` is given here with its counters, `written` and the clamped length, which
`Ring.rbWrite` has no need of; the two agree on a ring in order (`rbWriteAt_eq`). With
the pointer and length that `rb_peek` hands out, the four calls refine the queue of
`Lib.BoundedQueue` (`refines`), and the stores of a call stay inside `buf` and away from
the bytes nobody has read yet (`ringStep_stores`). -/
namespace Thingino.Proxy
open Lib BoundedQueue

/-- The copy loop with its counters: the ring and `written`. -/
def rbWriteLoopAt (src : List Byte) (len : Nat) : Nat → Ring → Nat → Ring × Nat
  | 0, rb, written => (rb, written)
  | fuel + 1, rb, written =>
    if written < len then
      let chunk := rbufSize - rb.head
      let chunk := if len - written < chunk then len - written else chunk
      rbWriteLoopAt src len fuel (rbCopy rb ((src.drop written).take chunk)) (written + chunk)
    else (rb, written)

/-- `rb_write`; the loop is given `fuel` turns. -/
def rbWriteAt (fuel : Nat) (rb : Ring) (src : List Byte) : Ring × Nat :=
  let len := if rbSpace rb < src.length then rbSpace rb else src.length
  rbWriteLoopAt src len fuel rb 0

/-- The offset into `buf` and the length that `rb_peek` gives; the null pointer is `none`. -/
def rbPeekAt (rb : Ring) : Option Nat × Nat :=
  if rb.len = 0 then (none, 0)
  else
    let chunk := rbufSize - rb.tail
    (some rb.tail, if rb.len < chunk then rb.len else chunk)

/-- What the caller of `rb_peek` reads. -/
def shownAt (rb : Ring) : Option Nat × Nat → List Byte
  | (none, _) => []
  | (some off, n) => rb.buf.read off n

/-- One call of the four. -/
def ringStep (rb : Ring) : Op Byte → Ring × Answer Byte
  | .init => (rbInit rb, .done)
  | .write src =>
    let (rb', written) := rbWriteAt src.length rb src
    (rb', .taken written)
  | .peek => (rb, .shown (shownAt rb (rbPeekAt rb)))
  | .consume n => (rbConsume rb n, .done)

namespace Ring

/-! ### The calls with their counters -/

theorem rbWriteLoopAt_eq (src : List Byte) (len fuel : Nat) (rb : Ring) (written : Nat) (h : rb.Ok)
    (hle : written ≤ len) (hlen : len ≤ src.length) (hfuel : len - written ≤ fuel)
    (hfit : rb.len + (len - written) ≤ rbufSize) :
    rbWriteLoopAt src len fuel rb written = (rbWriteLoop fuel rb ((src.take len).drop written), len) := by
  induction fuel generalizing rb written with
  | zero =>
    have hend : written = len := by omega
    simp only [rbWriteLoopAt, rbWriteLoop, hend]
  | succ fuel ih =>
    have hrest : ((src.take len).drop written).length = len - written := by
      rw [List.length_drop, List.length_take]
      omega
    rw [rbWriteLoopAt, rbWriteLoop]
    by_cases hlt : written < len
    · have hne : (src.take len).drop written ≠ [] := List.ne_nil_of_length_pos (by omega)
      have hhead : rb.head < rbufSize := by
        rw [h.head]
        exact Nat.mod_lt _ (by decide)
      have hchunk : (if len - written < rbufSize - rb.head then len - written else rbufSize - rb.head) =
          min (rbufSize - rb.head) ((src.take len).drop written).length := by
        rw [hrest]
        split <;> omega
      rw [if_pos hlt, if_neg hne]
      dsimp only
      rw [hchunk, hrest]
      generalize hc : min (rbufSize - rb.head) (len - written) = chunk
      have hpiece : (src.drop written).take chunk = ((src.take len).drop written).take chunk := by
        rw [List.drop_take, List.take_take, Nat.min_eq_left (by omega)]
      have hpieceLen : (((src.take len).drop written).take chunk).length = chunk := by
        rw [List.length_take, hrest]
        omega
      obtain ⟨hok, -⟩ := rbCopy_spec h (((src.take len).drop written).take chunk) (by omega) (by omega)
      rw [hpiece, ih _ (written + chunk) hok (by omega) (by omega)
        (by rw [rbCopy]; dsimp only; omega), List.drop_drop]
    · have hend : written = len := by omega
      have hnil : (src.take len).drop written = [] := List.length_eq_zero_iff.mp (by omega)
      rw [if_neg hlt, if_pos hnil, hend]

/-- Given a turn for every byte, the loop has come to its end. -/
theorem rbWriteAt_eq {rb : Ring} (h : rb.Ok) (src : List Byte) {fuel : Nat} (hfuel : src.length ≤ fuel) :
    rbWriteAt fuel rb src = (rbWriteLoop fuel rb (src.take (rbSpace rb)), min src.length (rbSpace rb)) := by
  have hlen := h.len
  have hclamp : (if rbSpace rb < src.length then rbSpace rb else src.length) = min src.length (rbSpace rb) := by
    split <;> omega
  have hspace : rb.len + rbSpace rb = rbufSize := by
    rw [rbSpace]
    omega
  rw [rbWriteAt]
  rw [hclamp, rbWriteLoopAt_eq src _ fuel rb 0 h (by omega) (by omega) (by omega) (by omega), List.drop_zero,
    Nat.min_comm, ← List.take_eq_take_min]

/-- The ring of the call with its counters is the one of the call without. -/
theorem rbWriteAt_spec {rb : Ring} (h : rb.Ok) (src : List Byte) {fuel : Nat} (hfuel : src.length ≤ fuel) :
    (rbWriteAt fuel rb src).1.Ok ∧ (rbWriteAt fuel rb src).1.contents = rb.contents ++ src.take (rbSpace rb) ∧
      (rbWriteAt fuel rb src).2 = min src.length (rbSpace rb) := by
  have hlen := h.len
  rw [rbWriteAt_eq h src hfuel]
  have hspec := rbWriteLoop_spec fuel rb (src.take (rbSpace rb)) h
    (by rw [List.length_take, rbSpace]; omega) (by rw [List.length_take]; omega)
  exact ⟨hspec.1, hspec.2, rfl⟩

theorem shownAt_rbPeekAt (rb : Ring) : shownAt rb (rbPeekAt rb) = rbPeek rb := by
  unfold rbPeekAt rbPeek
  by_cases h0 : rb.len = 0
  · rw [if_pos h0, if_pos h0, shownAt]
  · rw [if_neg h0, if_neg h0]
    dsimp only
    rw [shownAt]
    congr 1
    split <;> omega

/-- What `rb_peek` points to lies in `buf`, and is something as long as something is there. -/
theorem rbPeekAt_inside {rb : Ring} (h : rb.Ok) (h0 : 0 < rb.len) :
    ∃ off n, rbPeekAt rb = (some off, n) ∧ 0 < n ∧ off + n ≤ rbufSize := by
  have htail := h.tail
  refine ⟨rb.tail, _, by rw [rbPeekAt, if_neg (by omega)], ?_, ?_⟩
  · split <;> omega
  · split <;> omega

/-! ### The refinement -/

theorem ok_ringStep (rb : Ring) (op : Op Byte) (h : rb.Ok) : (ringStep rb op).1.Ok := by
  cases op with
  | init => exact ok_rbInit rb
  | write src => exact (rbWriteAt_spec h src (Nat.le_refl _)).1
  | peek => exact h
  | consume n => exact ok_rbConsume h n

theorem ringStep_answers (rb : Ring) (op : Op Byte) (h : rb.Ok) :
    Step rbufSize rb.contents op (ringStep rb op).2 (ringStep rb op).1.contents := by
  cases op with
  | init => exact .init _
  | write src =>
    obtain ⟨-, hcontents, htaken⟩ := rbWriteAt_spec h src (Nat.le_refl _)
    have hstep := @Step.write _ rbufSize rb.contents src
    rw [← rbSpace_eq, ← hcontents, ← htaken] at hstep
    exact hstep
  | peek =>
    show Step rbufSize rb.contents .peek (.shown (shownAt rb (rbPeekAt rb))) rb.contents
    rw [shownAt_rbPeekAt]
    refine .peek _ _ (rbPeek_isPrefix h) fun hne => rbPeek_ne_nil h ?_
    rw [rbSize_eq]
    exact List.length_pos_of_ne_nil hne
  | consume n =>
    show Step rbufSize rb.contents (.consume n) .done (rbConsume rb n).contents
    rw [contents_rbConsume]
    exact .consume _ _

theorem refines : Refines ringStep rbufSize Ok contents := ⟨ok_ringStep, ringStep_answers⟩

/-! ### Where the calls store -/

/-- The cells of the bytes nobody has read yet. -/
def Unread (rb : Ring) (cell : Nat) : Prop := ∃ i, i < rb.len ∧ cell = (rb.tail + i) % rbufSize

/-- The stretch lies in `buf` and holds no unread byte. -/
def Free (rb : Ring) (stretch : Nat × Nat) : Prop :=
  stretch.1 + stretch.2 ≤ rbufSize ∧ ∀ k, k < stretch.2 → ¬ rb.Unread (stretch.1 + k)

theorem free_rbCopy {rb : Ring} (h : rb.Ok) (bytes : List Byte) (hstraight : rb.head + bytes.length ≤ rbufSize)
    (hfit : rb.len + bytes.length ≤ rbufSize) : rb.Free (rb.head, bytes.length) := by
  refine ⟨hstraight, fun k hk => ?_⟩
  rintro ⟨i, hi, hcell⟩
  rcases window_disjoint rbufSize rb.tail rb.len bytes.length i k hi hk hfit with hne | hge
  · exact hne (by rw [← hcell, h.head])
  · rw [← h.head] at hge
    dsimp only at hk hstraight
    omega

/-- What is free beside more unread bytes is free beside fewer. -/
theorem Free.of_rbCopy {rb : Ring} {bytes : List Byte} {stretch : Nat × Nat} (h : (rbCopy rb bytes).Free stretch) :
    rb.Free stretch := by
  refine ⟨h.1, fun k hk => ?_⟩
  rintro ⟨i, hi, hcell⟩
  exact h.2 k hk ⟨i, Nat.lt_of_lt_of_le hi (Nat.le_add_right ..), hcell⟩

theorem rbWriteLoop_stores (fuel : Nat) (rb : Ring) (src : List Byte) (h : rb.Ok)
    (hfit : rb.len + src.length ≤ rbufSize) :
    ∃ stores, (rbWriteLoop fuel rb src).buf.touched = stores ++ rb.buf.touched ∧
      ∀ stretch ∈ stores, rb.Free stretch := by
  induction fuel generalizing rb src with
  | zero => exact ⟨[], rfl, fun _ hmem => absurd hmem List.not_mem_nil⟩
  | succ fuel ih =>
    rw [rbWriteLoop]
    by_cases hnil : src = []
    · rw [if_pos hnil]
      exact ⟨[], rfl, fun _ hmem => absurd hmem List.not_mem_nil⟩
    · rw [if_neg hnil]
      dsimp only
      have hhead : rb.head < rbufSize := by
        rw [h.head]
        exact Nat.mod_lt _ (by decide)
      generalize hchunk : min (rbufSize - rb.head) src.length = chunk
      have hlen : (src.take chunk).length = chunk := by
        rw [List.length_take]
        omega
      obtain ⟨hok, -⟩ := rbCopy_spec h (src.take chunk) (by omega) (by omega)
      obtain ⟨stores, hlog, hfree⟩ := ih (rbCopy rb (src.take chunk)) (src.drop chunk) hok
        (by rw [rbCopy, List.length_drop]; dsimp only; omega)
      refine ⟨stores ++ [(rb.head, (src.take chunk).length)], ?_, fun stretch hmem => ?_⟩
      · rw [hlog, List.append_assoc]
        rfl
      · rcases List.mem_append.mp hmem with hmem | hmem
        · exact (hfree stretch hmem).of_rbCopy
        · rw [List.mem_singleton.mp hmem]
          exact free_rbCopy h _ (by omega) (by omega)

/-- A call stores inside `buf` only, and over no byte that is still to be read. -/
theorem ringStep_stores {rb : Ring} (h : rb.Ok) (op : Op Byte) :
    ∃ stores, (ringStep rb op).1.buf.touched = stores ++ rb.buf.touched ∧ ∀ stretch ∈ stores, rb.Free stretch := by
  cases op with
  | init => exact ⟨[], rfl, fun _ hmem => absurd hmem List.not_mem_nil⟩
  | write src =>
    have hlen := h.len
    show ∃ stores, (rbWriteAt src.length rb src).1.buf.touched = stores ++ rb.buf.touched ∧ _
    rw [rbWriteAt_eq h src (Nat.le_refl _)]
    exact rbWriteLoop_stores _ _ _ h (by rw [List.length_take, rbSpace]; omega)
  | peek => exact ⟨[], rfl, fun _ hmem => absurd hmem List.not_mem_nil⟩
  | consume n => exact ⟨[], rfl, fun _ hmem => absurd hmem List.not_mem_nil⟩

/-! ### Any sequence of calls -/

/-- **The ring is a bounded queue**: after `rb_init` and any calls the indices belong
together, the answers so far are those of the queue, and the next call does to the
content what its name says, inside `buf` and over no unread byte. -/
theorem ring_refines_queue (rb : Ring) (ops : List (Op Byte)) :
    let run := runMachine ringStep (rbInit rb) ops
    let now := run.1
    now.head = (now.tail + now.len) % rbufSize ∧ now.len ≤ rbufSize ∧
      Run rbufSize [] ops run.2 now.contents ∧
      (∀ (src : List Byte) (fuel : Nat), src.length ≤ fuel →
        (rbWriteAt fuel now src).1.contents = now.contents ++ src.take (rbSpace now) ∧
          (rbWriteAt fuel now src).2 = min src.length (rbSpace now)) ∧
      (now.contents ≠ [] → ∃ off n, rbPeekAt now = (some off, n) ∧ 0 < n ∧ off + n ≤ rbufSize ∧
        now.buf.read off n <+: now.contents) ∧
      (∀ n, (rbConsume now n).contents = now.contents.drop n ∧ (rbConsume now n).len = now.len - min n now.len) ∧
      ∀ op, ∃ stores, (ringStep now op).1.buf.touched = stores ++ now.buf.touched ∧
        ∀ stretch ∈ stores, now.Free stretch := by
  intro run now
  obtain ⟨hok, hrun⟩ := refines.run (rbInit rb) ops (ok_rbInit rb)
  have hok : now.Ok := hok
  refine ⟨hok.head, hok.len, hrun, fun src fuel hfuel => (rbWriteAt_spec hok src hfuel).2, fun hne => ?_,
    fun n => ⟨contents_rbConsume now n, rfl⟩, fun op => ringStep_stores hok op⟩
  have hpos : 0 < now.len := by
    rw [← length_contents]
    exact List.length_pos_of_ne_nil hne
  obtain ⟨off, n, hpeek, hn, hin⟩ := rbPeekAt_inside hok hpos
  have hshown := shownAt_rbPeekAt now
  rw [hpeek, shownAt] at hshown
  exact ⟨off, n, hpeek, hn, hin, hshown ▸ rbPeek_isPrefix hok⟩

end Ring

end Thingino.Proxy
