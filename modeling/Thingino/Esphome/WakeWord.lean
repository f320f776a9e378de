import Thingino.Lib.Circular
import Thingino.Lib.Transition

/-! The audio ring of the wake-word detector.

`audio_input_handler` puts samples into a ring of 120 ms and counts them, up to the size of the ring;
`generate_features` reads a window of 30 ms at the read position and, if it is loud enough, moves on by
10 ms. Both work under the lock. A sample that comes in when the ring is full takes the place of the
oldest one, but the read position stays where it was. Whether a window is quiet is for floating point to
say: `quiet` may be any function of the samples. -/
namespace Thingino.Esphome
open Lib

abbrev Sample := BitVec 16

/-- `WAKE_WORD_RING_BUFFER_SAMPLES`. -/
def ringBufferSamples : Nat := 16000 * 120 / 1000

def windowSamples : Nat := 16000 * 30 / 1000

def strideSamples : Nat := 16000 * 10 / 1000

/-- A window that went to the frontend, with the places of its samples in the stream, the place where
the last stride ended, and the stream itself at that time. -/
structure Handed where
  audioSamples : List Sample
  places : List Nat
  consumed : Nat
  stream : List Sample

/-- The last four fields are for the record: for each cell the place of its sample in the stream, the
place where the last consumed stride ended, the stream since the last start, and the windows. -/
structure Audio where
  ringBuffer : Nat → Sample
  writePos : Nat
  readPos : Nat
  available : Nat
  places : Nat → Nat
  consumed : Nat
  stream : List Sample
  handed : List Handed

/-- `start` is `wake_word_start` or `wake_word_resume`. -/
inductive AudioEvent
  | start
  | input (buffer : List Sample)
  | generate

namespace Audio

/-- The ring as a start leaves it. -/
def start : Audio := ⟨fun _ => 0, 0, 0, 0, fun _ => 0, 0, [], []⟩

/-- One turn of the loop of `audio_input_handler`. -/
def put (a : Audio) (sample : Sample) : Audio :=
  { a with
    ringBuffer := Function.update a.ringBuffer a.writePos sample
    writePos := (a.writePos + 1) % ringBufferSamples
    available := if a.available < ringBufferSamples then a.available + 1 else a.available
    places := Function.update a.places a.writePos a.stream.length
    stream := a.stream ++ [sample] }

def audioInputHandler (a : Audio) (buffer : List Sample) : Audio := buffer.foldl put a

/-- `generate_features`, as far as it works under the lock. -/
def generateFeatures (quiet : List Sample → Bool) (a : Audio) : Audio :=
  if a.available < windowSamples then a
  else
    let audioSamples := window ringBufferSamples a.ringBuffer a.readPos windowSamples
    if quiet audioSamples then a
    else
      { a with
        readPos := (a.readPos + strideSamples) % ringBufferSamples
        available := a.available - strideSamples
        consumed := a.places ((a.readPos + (strideSamples - 1)) % ringBufferSamples) + 1
        handed := ⟨audioSamples, window ringBufferSamples a.places a.readPos windowSamples, a.consumed, a.stream⟩ ::
          a.handed }

def step (quiet : List Sample → Bool) (a : Audio) : AudioEvent → Option Audio
  | .start => some { start with handed := a.handed }
  | .input buffer => some (a.audioInputHandler buffer)
  | .generate => some (a.generateFeatures quiet)

end Audio

/-- A run of samples of the stream, from where the last stride ended, or later if the sample there had
been overwritten. -/
def Handed.Contiguous (h : Handed) : Prop :=
  ∃ first, h.places = List.range' first windowSamples ∧ h.audioSamples = (h.stream.drop first).take windowSamples ∧
    first + windowSamples ≤ h.stream.length ∧
    (first = h.consumed ∨ (h.consumed < first ∧ h.consumed + ringBufferSamples < h.stream.length))

/-- The count tells the positions apart. -/
def Audio.InStep (a : Audio) : Prop := a.readPos + a.available ≡ a.writePos [MOD ringBufferSamples]

namespace Audio

/-- What an input has beyond the free room is nothing, or whole turns of the ring. -/
def fits (a : Audio) : AudioEvent → Bool
  | .input buffer => (buffer.length - (ringBufferSamples - a.available)) % ringBufferSamples = 0
  | _ => true

/-! ### The invariant -/

/-- The positions by the stream: `lost` samples between the last stride and those that count. -/
structure InvAt (a : Audio) (lost : Nat) : Prop where
  write : a.writePos = a.stream.length % ringBufferSamples
  read : a.readPos = a.consumed % ringBufferSamples
  room : a.available ≤ ringBufferSamples
  count : a.consumed + lost + a.available = a.stream.length
  ring : Laid ringBufferSamples a.ringBuffer a.stream
  places : Laid ringBufferSamples a.places (List.range a.stream.length)

structure Inv (a : Audio) : Prop where
  whole : ∃ turns, a.InvAt (ringBufferSamples * turns)
  handed : ∀ h ∈ a.handed, h.Contiguous

variable {a : Audio} {lost : Nat} {quiet : List Sample → Bool}

theorem invAt_start (handed : List Handed) : { start with handed }.InvAt 0 :=
  ⟨rfl, rfl, Nat.zero_le _, rfl, laid_nil _ _, laid_nil _ _⟩

theorem invAt_put (h : a.InvAt lost) (sample : Sample) :
    (a.put sample).InvAt (lost + if a.available < ringBufferSamples then 0 else 1) := by
  have hring := h.ring.push sample
  have hplaces := h.places.push a.stream.length
  rw [← h.write] at hring
  rw [List.length_range, ← h.write] at hplaces
  have hcount := h.count
  have hroom := h.room
  refine ⟨?_, h.read, ?_, ?_, hring, ?_⟩
  · simp only [put, h.write, Nat.mod_add_mod, List.length_append, List.length_singleton]
  · simp only [put]
    split <;> omega
  · simp only [put, List.length_append, List.length_singleton]
    split <;> omega
  · simpa only [put, List.length_append, List.length_singleton, List.range_succ] using hplaces

/-- An input only writes. -/
theorem frame_input (a : Audio) (buffer : List Sample) :
    (a.audioInputHandler buffer).stream = a.stream ++ buffer ∧ (a.audioInputHandler buffer).readPos = a.readPos ∧
      (a.audioInputHandler buffer).consumed = a.consumed ∧ (a.audioInputHandler buffer).handed = a.handed := by
  induction buffer generalizing a with
  | nil => exact ⟨(List.append_nil _).symm, rfl, rfl, rfl⟩
  | cons sample buffer ih =>
    obtain ⟨hstream, hread, hconsumed, hhanded⟩ := ih (a.put sample)
    refine ⟨hstream.trans ?_, hread, hconsumed, hhanded⟩
    rw [put, List.append_assoc, List.singleton_append]

/-- An input loses what is beyond the free room. -/
theorem invAt_input (h : a.InvAt lost) (buffer : List Sample) :
    (a.audioInputHandler buffer).InvAt (lost + (buffer.length - (ringBufferSamples - a.available))) := by
  induction buffer generalizing a lost with
  | nil =>
    rw [List.length_nil, Nat.zero_sub]
    exact h
  | cons sample buffer ih =>
    have hrest := ih (invAt_put h sample)
    have hroom := h.room
    have hlost : (lost + if a.available < ringBufferSamples then 0 else 1) +
        (buffer.length - (ringBufferSamples - (a.put sample).available)) =
        lost + ((sample :: buffer).length - (ringBufferSamples - a.available)) := by
      simp only [put, List.length_cons]
      split <;> omega
    rwa [hlost] at hrest

theorem inStep_iff (h : a.InvAt lost) : a.InStep ↔ ringBufferSamples ∣ lost := by
  have hread : a.readPos + a.available ≡ a.consumed + a.available [MOD ringBufferSamples] := by
    rw [h.read]
    exact (Nat.mod_modEq ..).add_right _
  have hwrite : a.writePos ≡ a.consumed + a.available + lost [MOD ringBufferSamples] := by
    rw [h.write, ← h.count, Nat.add_right_comm]
    exact Nat.mod_modEq ..
  rw [← Nat.modEq_zero_iff_dvd]
  constructor
  · intro hstep
    have hsame := (hread.symm.trans hstep).trans hwrite
    exact (Nat.ModEq.add_left_cancel' _ hsame).symm
  · intro hlost
    exact (hread.trans (hlost.symm.add_left _)).trans hwrite.symm

theorem run_of_range {first n m : Nat} (h : first + n ≤ m) : ((List.range m).drop first).take n = List.range' first n := by
  rw [List.range_eq_range', List.drop_range', List.take_range'_of_length_ge (by omega), Nat.mul_one, Nat.zero_add]

/-- A window starts behind the lost samples; the ones before it have been overwritten. -/
theorem inv_generate (h : a.Inv) : (a.generateFeatures quiet).Inv := by
  obtain ⟨⟨turns, hat⟩, hhanded⟩ := h
  unfold generateFeatures
  split
  · exact ⟨⟨turns, hat⟩, hhanded⟩
  · rename_i henough
    dsimp only
    split
    · exact ⟨⟨turns, hat⟩, hhanded⟩
    · have hcount := hat.count
      have hroom := hat.room
      have hsizes : windowSamples = 480 ∧ strideSamples = 160 ∧ ringBufferSamples = 1920 := by decide
      obtain ⟨first, hfirst⟩ : ∃ first, first = a.consumed + ringBufferSamples * turns := ⟨_, rfl⟩
      have hread : a.readPos = first % ringBufferSamples := by
        rw [hfirst, Nat.add_mul_mod_self_left]
        exact hat.read
      have hend : first + windowSamples ≤ a.stream.length := by omega
      have hold : a.stream.length ≤ first + ringBufferSamples := by omega
      have hplaces : window ringBufferSamples a.places a.readPos windowSamples = List.range' first windowSamples := by
        rw [hread, hat.places.window (by rwa [List.length_range]) (by rwa [List.length_range])]
        exact run_of_range hend
      have hlast : a.places ((a.readPos + (strideSamples - 1)) % ringBufferSamples) = first + (strideSamples - 1) := by
        rw [hread, Nat.mod_add_mod]
        refine hat.places _ _ ?_ ?_
        · rw [List.getElem?_range (by omega)]
        · rw [List.length_range]
          omega
      refine ⟨⟨0, hat.write, ?_, ?_, ?_, hat.ring, hat.places⟩, List.forall_mem_cons.mpr ⟨?_, hhanded⟩⟩
      · dsimp only
        rw [hlast, hread, Nat.mod_add_mod, Nat.add_assoc]
        rfl
      · exact Nat.le_trans (Nat.sub_le ..) hroom
      · simp only [hlast]
        omega
      · refine ⟨first, hplaces, ?_, hend, ?_⟩
        · rw [hread]
          exact hat.ring.window hend hold
        · cases turns with
          | zero => exact .inl hfirst
          | succ turns =>
            refine .inr ⟨?_, ?_⟩ <;> · dsimp only; rw [Nat.mul_succ] at hfirst; omega

theorem inv_step {a' : Audio} {e : AudioEvent} (h : a.Inv) (hfits : a.fits e = true) (hstep : a.step quiet e = some a') :
    a'.Inv := by
  cases e with
  | start =>
    cases hstep
    exact ⟨⟨0, invAt_start a.handed⟩, h.handed⟩
  | input buffer =>
    cases hstep
    obtain ⟨turns, hat⟩ := h.whole
    have hinput := invAt_input hat buffer
    obtain ⟨more, hmore⟩ := Nat.dvd_of_mod_eq_zero (of_decide_eq_true hfits)
    rw [hmore, ← Nat.mul_add] at hinput
    refine ⟨⟨turns + more, hinput⟩, ?_⟩
    rw [(frame_input a buffer).2.2.2]
    exact h.handed
  | generate =>
    cases hstep
    exact inv_generate h

theorem inStep_of_inv (h : a.Inv) : a.InStep := by
  obtain ⟨turns, hat⟩ := h.whole
  exact (inStep_iff hat).mpr (Nat.dvd_mul_right ..)

end Audio

/-- **The window is contiguous** in runs whose inputs fit, and the first input that does not fit puts the
positions out of step. -/
theorem contiguous_of_fits (quiet : List Sample → Bool) {a : Audio}
    (h : Reach (Audio.step quiet) (fun a e => a.fits e = true) Audio.start a) :
    (a.InStep ∧ ∀ window ∈ a.handed, window.Contiguous) ∧
      ∀ buffer, (a.audioInputHandler buffer).InStep ↔ a.fits (.input buffer) = true := by
  have hinv : a.Inv :=
    Reach.invariant ⟨⟨0, Audio.invAt_start []⟩, fun _ => (nomatch ·)⟩
      (fun _ _ _ ha hok hstep => Audio.inv_step ha hok hstep) h
  refine ⟨⟨Audio.inStep_of_inv hinv, hinv.handed⟩, fun buffer => ?_⟩
  obtain ⟨turns, hat⟩ := hinv.whole
  rw [Audio.inStep_iff (Audio.invAt_input hat buffer), Nat.dvd_add_right (Nat.dvd_mul_right ..)]
  exact Nat.dvd_iff_mod_eq_zero.trans decide_eq_true_iff.symm

/-- A tone. -/
def tone (samples : Nat) : List Sample := List.replicate samples 1000

/-- 20 ms, and 20 ms more: the first window is handed on. -/
theorem contiguous_first_window :
    ∃ a, Reach (Audio.step fun _ => false) (fun a e => a.fits e = true) Audio.start a ∧ a.handed.length = 1 ∧
      a.available = 480 ∧ a.InStep ∧ ∀ window ∈ a.handed, window.Contiguous := by
  have hrun : ∃ a, Reach (Audio.step fun _ => false) (fun a e => a.fits e = true) Audio.start a ∧
      (a.handed.length = 1 ∧ a.available = 480) :=
    exists_reach [.input (tone 320), .generate, .input (tone 320), .generate] (by decide +kernel)
  obtain ⟨a, ha, hhanded, havailable⟩ := hrun
  exact ⟨a, ha, hhanded, havailable, (contiguous_of_fits (fun _ => false) ha).1⟩

/-- One sample more than the ring has room for: the count is not that of the positions any more, and the
window begins with the newest sample, in front of the oldest ones. -/
theorem window_torn :
    ∃ a, Reach (Audio.step fun _ => false) (fun _ _ => True) Audio.start a ∧ ¬a.InStep ∧
      ∃ window ∈ (a.generateFeatures fun _ => false).handed, ¬window.Contiguous := by
  obtain ⟨a, ha⟩ : ∃ a, a = Audio.start.audioInputHandler (tone 1921) := ⟨_, rfl⟩
  have hfirst : Audio.step (fun _ => false) Audio.start (.input (tone 1921)) = some a := congrArg some ha.symm
  have hat : a.InvAt 1 := by
    have hinput := Audio.invAt_input (Audio.invAt_start []) (tone 1921)
    rw [tone, List.length_replicate] at hinput
    rwa [ha]
  obtain ⟨hstream, hread, hconsumed, -⟩ := Audio.frame_input Audio.start (tone 1921)
  rw [← ha] at hstream hread hconsumed
  have hlength : a.stream.length = 1921 := by
    rw [hstream, List.length_append, tone, List.length_replicate]
    rfl
  have havailable : a.available = 1920 := by
    have hcount := hat.count
    rw [hconsumed, hlength] at hcount
    change 0 + 1 + a.available = 1921 at hcount
    omega
  have hsize : ringBufferSamples = 1920 := by decide
  have hlaid (i : Nat) (hlt : i < 1921) (hold : 1921 ≤ i + 1920) : a.places (i % ringBufferSamples) = i :=
    hat.places i i (List.getElem?_range (by omega)) (by rw [List.length_range]; omega)
  have hnewest : a.places 0 = 1920 := hlaid 1920 (by decide) (by decide)
  have holdest : a.places 1 = 1 := hlaid 1 (by decide) (by decide)
  refine ⟨a, .next .start trivial hfirst, ?_, ?_⟩
  · rw [Audio.inStep_iff hat]
    decide
  · have hgenerate : (a.generateFeatures fun _ => false).handed =
        ⟨window ringBufferSamples a.ringBuffer a.readPos windowSamples,
          window ringBufferSamples a.places a.readPos windowSamples, a.consumed, a.stream⟩ :: a.handed := by
      rw [Audio.generateFeatures, if_neg (by rw [havailable]; decide)]
      rfl
    rw [hgenerate]
    refine ⟨_, List.mem_cons_self, ?_⟩
    rintro ⟨first, hplaces, -⟩
    change window ringBufferSamples a.places a.readPos windowSamples = List.range' first windowSamples at hplaces
    have hcell (i : Nat) (hi : i < windowSamples) : a.places i = first + i := by
      have hlt : i < ringBufferSamples := Nat.lt_of_lt_of_le hi (by decide)
      have hget : (window ringBufferSamples a.places a.readPos windowSamples)[i]? = some (first + i) := by
        rw [hplaces, List.getElem?_range' hi, Nat.one_mul]
      rw [hread, window, List.getElem?_map, List.getElem?_range hi] at hget
      simpa [Audio.start, Nat.mod_eq_of_lt hlt] using hget
    have h0 := hcell 0 (by decide)
    have h1 := hcell 1 (by decide)
    omega

end Thingino.Esphome
