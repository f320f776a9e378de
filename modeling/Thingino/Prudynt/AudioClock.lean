import Mathlib.Data.List.Forall2
import Thingino.Lib.Bytes

/-! The presentation times of audio frames: the audio branch of `IMPDeviceSource::deliverFrame`.

Times come from a sample counter behind an anchor on the wall clock, so that the distance between two frames
is the duration of the first. The anchor is set by the first frame, when the capture rate changes, and when
the wall clock is more than 250 ms ahead of the counter; a clock that goes back is not followed. A backstop
keeps the times increasing. Times are in microseconds. -/
namespace Thingino.Prudynt.AudioClock

structure ImpAudio where
  sampleRate : Int
  isAac : Bool

/-- A frame with what the branch reads beside it: the configured rate, the encoder's audio channel and the
wall clock. -/
structure AudioFrame where
  samples : Nat
  inputSampleRate : Option Int
  impAudio : Option ImpAudio
  nowUs : Nat

namespace AudioFrame

def sampleRate (f : AudioFrame) : Int :=
  let rate := (f.inputSampleRate.filter (0 < ·)).getD 16000
  let rate := ((f.impAudio.map ImpAudio.sampleRate).filter (0 < ·)).getD rate
  if rate < 1 then 16000 else rate

/-- The sample count; a frame without one has 1024 samples if it is AAC, and 40 ms of them otherwise. -/
def frameSamples (f : AudioFrame) : Int :=
  let count :=
    if 0 < f.samples then (f.samples : Int)
    else if f.impAudio.any ImpAudio.isAac then 1024 else f.sampleRate * 40 / 1000
  if count < 1 then 1 else count

def stepUs (f : AudioFrame) : Int :=
  let step := f.frameSamples * 1000000 / f.sampleRate
  if step < 1 then 1 else step

end AudioFrame

/-- The samples of some frames. -/
def samplesOf : List AudioFrame → Int
  | [] => 0
  | f :: fs => f.frameSamples + samplesOf fs

theorem samplesOf_nil : samplesOf [] = 0 := rfl

theorem samplesOf_cons (f : AudioFrame) (fs : List AudioFrame) : samplesOf (f :: fs) = f.frameSamples + samplesOf fs :=
  rfl

/-- `kAudioReanchorFwdUs`. -/
def audioReanchorFwdUs : Int := 250000

/-- The last time and the anchor are negative as long as there is none. -/
structure Clock where
  audioLastPtsUs : Int
  audioAnchorUs : Int
  audioSamplesSinceAnchor : Int
  audioAnchorRate : Int

namespace Clock

def start : Clock := ⟨-1, -1, 0, 0⟩

/-- The first frame, or another rate. -/
def rateChanged (c : Clock) (f : AudioFrame) : Bool := c.audioAnchorUs < 0 || f.sampleRate ≠ c.audioAnchorRate

def setAnchor (c : Clock) (f : AudioFrame) (anchorUs : Int) : Clock :=
  { c with audioAnchorUs := anchorUs, audioSamplesSinceAnchor := 0, audioAnchorRate := f.sampleRate }

def anchored (c : Clock) (f : AudioFrame) : Clock := if c.rateChanged f then c.setAnchor f f.nowUs else c

/-- The time by the sample counter. -/
def counted (c : Clock) (f : AudioFrame) : Int :=
  c.audioAnchorUs + c.audioSamplesSinceAnchor * 1000000 / f.sampleRate

/-- The wall clock is too far ahead of the counter. -/
def drifted (c : Clock) (f : AudioFrame) : Bool := audioReanchorFwdUs < f.nowUs - (c.anchored f).counted f

/-- Where the anchor goes on a drift: the wall clock, unless that is not behind the last time. -/
def candidate (c : Clock) (f : AudioFrame) : Int :=
  if 0 ≤ c.audioLastPtsUs ∧ f.nowUs ≤ c.audioLastPtsUs then c.audioLastPtsUs + f.stepUs else f.nowUs

/-- The clock with the anchor for this frame. -/
def reanchored (c : Clock) (f : AudioFrame) : Clock :=
  if c.drifted f then (c.anchored f).setAnchor f (c.candidate f) else c.anchored f

/-- The time without the backstop. -/
def steadyPts (c : Clock) (f : AudioFrame) : Int := (c.reanchored f).counted f

/-- The backstop fires. -/
def backstop (c : Clock) (f : AudioFrame) : Bool := 0 ≤ c.audioLastPtsUs && c.steadyPts f ≤ c.audioLastPtsUs

def ptsUs (c : Clock) (f : AudioFrame) : Int :=
  if c.backstop f then c.audioLastPtsUs + f.stepUs else c.steadyPts f

def deliverFrame (c : Clock) (f : AudioFrame) : Clock :=
  { c.reanchored f with
    audioLastPtsUs := c.ptsUs f
    audioSamplesSinceAnchor := (c.reanchored f).audioSamplesSinceAnchor + f.frameSamples }

/-- The clock after some frames. -/
def after (c : Clock) : List AudioFrame → Clock := List.foldl deliverFrame c

/-- The times stamped on some frames. -/
def timestamps (c : Clock) : List AudioFrame → List Int
  | [] => []
  | f :: fs => c.ptsUs f :: (c.deliverFrame f).timestamps fs

/-- The frame sets the anchor. -/
def setsAnchor (c : Clock) (f : AudioFrame) : Bool := c.rateChanged f || c.drifted f

/-- None of some frames sets the anchor: the rate stays, and no drift is seen. -/
def keepsAnchor (c : Clock) : List AudioFrame → Bool
  | [] => true
  | f :: fs => !c.setsAnchor f && (c.deliverFrame f).keepsAnchor fs

/-- Some frames with one rate, no drift, and no use of the backstop. -/
def quiet (rate : Int) (c : Clock) : List AudioFrame → Bool
  | [] => true
  | f :: fs => f.sampleRate = rate && !c.drifted f && !c.backstop f && (c.deliverFrame f).quiet rate fs

/-- The last time is one, or there is none yet, and the samples are counted up. -/
structure Valid (c : Clock) : Prop where
  last : -1 ≤ c.audioLastPtsUs
  samples : 0 ≤ c.audioSamplesSinceAnchor

end Clock

open AudioFrame Clock

variable {c : Clock} {f f₀ : AudioFrame} {fs pre rest post a b : List AudioFrame}

/-! ### One frame -/

theorem sampleRate_pos (f : AudioFrame) : 0 < f.sampleRate := by
  unfold sampleRate
  dsimp only
  split <;> omega

theorem frameSamples_pos (f : AudioFrame) : 0 < f.frameSamples := by
  unfold frameSamples
  dsimp only
  split <;> omega

theorem stepUs_pos (f : AudioFrame) : 0 < f.stepUs := by
  unfold stepUs
  dsimp only
  split <;> omega

theorem counted_setAnchor (c : Clock) (f : AudioFrame) (anchorUs : Int) :
    (c.setAnchor f anchorUs).counted f = anchorUs := by
  rw [counted, setAnchor, Int.zero_mul, Int.zero_ediv, Int.add_zero]

theorem anchor_le_counted (h : 0 ≤ c.audioSamplesSinceAnchor) : c.audioAnchorUs ≤ c.counted f :=
  Int.le_add_of_nonneg_right
    (Int.ediv_nonneg (Int.mul_nonneg h (by decide)) (Int.le_of_lt (sampleRate_pos f)))

theorem anchored_nonneg (h : c.Valid) :
    0 ≤ (c.anchored f).audioAnchorUs ∧ 0 ≤ (c.anchored f).audioSamplesSinceAnchor := by
  unfold anchored
  split
  · exact ⟨Int.natCast_nonneg _, Int.le_refl 0⟩
  · rename_i hsame
    rw [rateChanged, Bool.or_eq_true, not_or, decide_eq_true_eq, Int.not_lt] at hsame
    exact ⟨hsame.1, h.samples⟩

theorem candidate_nonneg (c : Clock) (f : AudioFrame) : 0 ≤ c.candidate f := by
  have hstep := stepUs_pos f
  unfold candidate
  split <;> omega

theorem nowUs_le_candidate (c : Clock) (f : AudioFrame) : f.nowUs ≤ c.candidate f := by
  have hstep := stepUs_pos f
  unfold candidate
  split <;> omega

theorem reanchored_nonneg (h : c.Valid) :
    0 ≤ (c.reanchored f).audioAnchorUs ∧ 0 ≤ (c.reanchored f).audioSamplesSinceAnchor := by
  unfold reanchored
  split
  · exact ⟨candidate_nonneg c f, Int.le_refl 0⟩
  · exact anchored_nonneg h

theorem steadyPts_nonneg (h : c.Valid) : 0 ≤ c.steadyPts f :=
  Int.le_trans (reanchored_nonneg h).1 (anchor_le_counted (reanchored_nonneg h).2)

/-- A drift of more than 250 ms is taken away. -/
theorem nowUs_le_steadyPts (c : Clock) (f : AudioFrame) : f.nowUs - audioReanchorFwdUs ≤ c.steadyPts f := by
  unfold steadyPts reanchored
  split
  · rw [counted_setAnchor]
    have hnow := nowUs_le_candidate c f
    unfold audioReanchorFwdUs
    omega
  · rename_i hdrift
    rw [drifted, decide_eq_true_eq, Int.not_lt] at hdrift
    omega

theorem steadyPts_le_ptsUs (c : Clock) (f : AudioFrame) : c.steadyPts f ≤ c.ptsUs f := by
  have hstep := stepUs_pos f
  unfold ptsUs
  split
  · rename_i hback
    rw [backstop, Bool.and_eq_true, decide_eq_true_eq, decide_eq_true_eq] at hback
    omega
  · exact Int.le_refl _

theorem last_lt_ptsUs (h : c.Valid) : c.audioLastPtsUs < c.ptsUs f := by
  have hstep := stepUs_pos f
  have hpts := steadyPts_nonneg (f := f) h
  unfold ptsUs
  split
  · omega
  · rename_i hback
    rw [backstop, Bool.and_eq_true, decide_eq_true_eq, decide_eq_true_eq] at hback
    omega

theorem valid_deliverFrame (h : c.Valid) : (c.deliverFrame f).Valid := by
  have hsamples := (reanchored_nonneg (f := f) h).2
  have hcount := frameSamples_pos f
  have hlast := last_lt_ptsUs (f := f) h
  have hvalid := h.last
  exact ⟨show -1 ≤ c.ptsUs f by omega, show 0 ≤ (c.reanchored f).audioSamplesSinceAnchor + f.frameSamples by omega⟩

/-! ### Runs -/

theorem valid_start : start.Valid := ⟨by decide, by decide⟩

theorem timestamps_append (c : Clock) (a b : List AudioFrame) :
    c.timestamps (a ++ b) = c.timestamps a ++ (c.after a).timestamps b := by
  induction a generalizing c with
  | nil => rfl
  | cons f a ih => exact congrArg _ (ih (c.deliverFrame f))

theorem length_timestamps (c : Clock) (fs : List AudioFrame) : (c.timestamps fs).length = fs.length := by
  induction fs generalizing c with
  | nil => rfl
  | cons f fs ih => exact congrArg Nat.succ (ih (c.deliverFrame f))

/-- The time of a frame in the middle of a run. -/
theorem timestamps_getElem? (c : Clock) (a : List AudioFrame) (f : AudioFrame) (b : List AudioFrame) :
    (c.timestamps (a ++ f :: b))[a.length]? = some ((c.after a).ptsUs f) := by
  rw [timestamps_append, ← length_timestamps c a, List.getElem?_append_right (Nat.le_refl _), Nat.sub_self]
  rfl

theorem after_append (c : Clock) (a b : List AudioFrame) : c.after (a ++ b) = (c.after a).after b := List.foldl_append

/-- Each time is later than all before it, those of the run so far included. -/
theorem lt_timestamps (h : c.Valid) (fs : List AudioFrame) :
    (∀ pts ∈ c.timestamps fs, c.audioLastPtsUs < pts) ∧ (c.timestamps fs).Pairwise (· < ·) := by
  induction fs generalizing c with
  | nil => exact ⟨fun pts hpts => absurd hpts List.not_mem_nil, .nil⟩
  | cons f fs ih =>
    obtain ⟨hlater, hpairwise⟩ := ih (valid_deliverFrame h)
    refine ⟨fun pts hpts => ?_, .cons hlater hpairwise⟩
    rcases List.mem_cons.mp hpts with rfl | hpts
    · exact last_lt_ptsUs h
    · exact Int.lt_trans (last_lt_ptsUs h) (hlater pts hpts)

theorem forall_nowUs_le (c : Clock) (fs : List AudioFrame) :
    List.Forall₂ (fun f pts => (f.nowUs : Int) - audioReanchorFwdUs ≤ pts) fs (c.timestamps fs) := by
  induction fs generalizing c with
  | nil => exact .nil
  | cons f fs ih => exact .cons (Int.le_trans (nowUs_le_steadyPts c f) (steadyPts_le_ptsUs c f)) (ih (c.deliverFrame f))

/-! ### Between two anchors -/

/-- The clock counts the samples behind an anchor at some rate. -/
structure Counts (c : Clock) (anchorUs samples rate : Int) : Prop where
  anchor : c.audioAnchorUs = anchorUs
  samples : c.audioSamplesSinceAnchor = samples
  rate : c.audioAnchorRate = rate

theorem reanchored_of_keeps (hkeeps : c.setsAnchor f = false) :
    c.reanchored f = c ∧ f.sampleRate = c.audioAnchorRate := by
  rw [setsAnchor, Bool.or_eq_false_iff] at hkeeps
  obtain ⟨hsame, hdrift⟩ := hkeeps
  have hanchored : c.anchored f = c := if_neg (Bool.not_eq_true _ ▸ hsame)
  rw [rateChanged, Bool.or_eq_false_iff, decide_eq_false_iff_not, decide_eq_false_iff_not, not_not] at hsame
  refine ⟨?_, hsame.2⟩
  rw [reanchored, hdrift, hanchored]
  rfl

/-- The frame that sets the anchor is the first to be counted. -/
theorem counts_of_sets (hsets : c.setsAnchor f = true) :
    (c.reanchored f).audioSamplesSinceAnchor = 0 ∧ (c.reanchored f).audioAnchorRate = f.sampleRate := by
  unfold reanchored
  split
  · exact ⟨rfl, rfl⟩
  · rename_i hdrift
    have hchanged : c.rateChanged f = true := by
      rw [setsAnchor, Bool.or_eq_true] at hsets
      exact hsets.resolve_right hdrift
    rw [anchored, if_pos hchanged]
    exact ⟨rfl, rfl⟩

theorem ptsUs_of_counts {anchorUs samples rate : Int} (h : Counts (c.reanchored f) anchorUs samples rate)
    (hrate : f.sampleRate = rate) (hback : c.backstop f = false) :
    c.ptsUs f = anchorUs + samples * 1000000 / rate := by
  rw [ptsUs, hback, if_neg Bool.false_ne_true, steadyPts, counted, h.anchor, h.samples, hrate]

/-- As long as no frame sets the anchor, the samples of the frames are added up. -/
theorem counts_after {anchorUs samples rate : Int} (h : Counts c anchorUs samples rate)
    (hkeeps : c.keepsAnchor (a ++ f :: b) = true) :
    Counts ((c.after a).reanchored f) anchorUs (samples + samplesOf a) rate ∧ f.sampleRate = rate := by
  induction a generalizing c samples with
  | nil =>
    rw [List.nil_append, keepsAnchor, Bool.and_eq_true, Bool.not_eq_true'] at hkeeps
    obtain ⟨hsame, hrate⟩ := reanchored_of_keeps hkeeps.1
    rw [samplesOf_nil, Int.add_zero]
    exact ⟨show Counts (c.reanchored f) _ _ _ by rw [hsame]; exact h, hrate.trans h.rate⟩
  | cons g a ih =>
    rw [List.cons_append, keepsAnchor, Bool.and_eq_true, Bool.not_eq_true'] at hkeeps
    obtain ⟨hsame, -⟩ := reanchored_of_keeps hkeeps.1
    have hnext : Counts (c.deliverFrame g) anchorUs (samples + g.frameSamples) rate := by
      rw [deliverFrame, hsame]
      exact ⟨h.anchor, congrArg (· + g.frameSamples) h.samples, h.rate⟩
    rw [samplesOf_cons, ← Int.add_assoc]
    exact ih hnext hkeeps.2

/-- The frames from one that sets the anchor on. -/
theorem ptsUs_of_stretch (hsets : c.setsAnchor f₀ = true) (hkeeps : (c.deliverFrame f₀).keepsAnchor rest = true)
    (hsplit : f₀ :: rest = a ++ f :: b) (hback : (c.after a).backstop f = false) :
    (c.after a).ptsUs f =
      (c.deliverFrame f₀).audioAnchorUs + samplesOf a * 1000000 / f₀.sampleRate := by
  obtain ⟨hzero, hrate⟩ := counts_of_sets hsets
  cases a with
  | nil =>
    obtain ⟨rfl, rfl⟩ := List.cons.inj hsplit
    exact ptsUs_of_counts ⟨rfl, hzero, hrate⟩ rfl hback
  | cons g a =>
    obtain ⟨rfl, rfl⟩ := List.cons.inj hsplit
    have hcounts : Counts (c.deliverFrame f₀) (c.deliverFrame f₀).audioAnchorUs f₀.frameSamples f₀.sampleRate :=
      ⟨rfl, by rw [deliverFrame, hzero, Int.zero_add], hrate⟩
    obtain ⟨hafter, hsame⟩ := counts_after hcounts hkeeps
    rw [samplesOf_cons]
    exact ptsUs_of_counts hafter hsame hback

/-- **Steady and increasing.** The times increase, none is more than 250 ms behind the wall clock, and from a
frame that sets the anchor to the next one they are those of the sample counter, but for the backstop. -/
theorem steady_increasing (fs : List AudioFrame) :
    (start.timestamps fs).Pairwise (· < ·) ∧
      List.Forall₂ (fun f pts => (f.nowUs : Int) - audioReanchorFwdUs ≤ pts) fs (start.timestamps fs) ∧
      ∀ pre f₀ rest post, fs = pre ++ (f₀ :: rest) ++ post → (start.after pre).setsAnchor f₀ = true →
        (start.after (pre ++ [f₀])).keepsAnchor rest = true → ∀ a f b, f₀ :: rest = a ++ f :: b →
          (start.after (pre ++ a)).backstop f = false →
          (start.timestamps fs)[(pre ++ a).length]? =
            some ((start.after (pre ++ [f₀])).audioAnchorUs + samplesOf a * 1000000 / f₀.sampleRate) := by
  refine ⟨(lt_timestamps valid_start fs).2, forall_nowUs_le start fs, ?_⟩
  intro pre f₀ rest post hfs hsets hkeeps a f b hsplit hback
  have hrun : fs = (pre ++ a) ++ f :: (b ++ post) := by
    rw [hfs, hsplit, List.append_assoc, List.append_assoc, List.append_assoc, List.cons_append]
  rw [hrun, timestamps_getElem?]
  rw [after_append] at hkeeps hback ⊢
  rw [after_append]
  exact congrArg some (ptsUs_of_stretch hsets hkeeps hsplit hback)

/-- An AAC frame at 44100 Hz. -/
def aacFrame (nowUs : Nat) : AudioFrame := ⟨1024, none, some ⟨44100, true⟩, nowUs⟩

/-- The third frame is two frames behind the anchor that the first has set. -/
theorem steady_third_frame : (start.timestamps [aacFrame 0, aacFrame 23000, aacFrame 46000])[2]? = some 46439 :=
  ((steady_increasing [aacFrame 0, aacFrame 23000, aacFrame 46000]).2.2 [] (aacFrame 0) [aacFrame 23000, aacFrame 46000]
    [] rfl (by decide) (by decide) [aacFrame 0, aacFrame 23000] (aacFrame 46000) [] rfl (by decide)).trans (by decide)

/-- A stretch that begins behind an anchor: its second frame is 23220 µs behind the first, and not the 23219 µs
of the first frame's samples. -/
theorem quiet_not_from_first :
    ∃ pre stretch, (start.after pre).quiet 44100 stretch = true ∧ (∀ f ∈ stretch, 0 < f.samples) ∧
      ∀ anchorUs : Int, ∃ a f b, stretch = a ++ f :: b ∧
        (start.after (pre ++ a)).ptsUs f ≠ anchorUs + samplesOf a * 1000000 / 44100 := by
  refine ⟨[aacFrame 0], [aacFrame 23000, aacFrame 46000], by decide, by decide, fun anchorUs => ?_⟩
  by_cases hfirst : anchorUs = 23219
  · refine ⟨[aacFrame 23000], aacFrame 46000, [], rfl, ?_⟩
    rw [hfirst]
    decide
  · refine ⟨[], aacFrame 23000, [aacFrame 46000], rfl, fun h => hfirst ?_⟩
    have hpts : (start.after ([aacFrame 0] ++ [])).ptsUs (aacFrame 23000) = 23219 := by decide
    rw [hpts, samplesOf_nil, Int.zero_mul, Int.zero_ediv, Int.add_zero] at h
    exact h.symm

end Thingino.Prudynt.AudioClock
