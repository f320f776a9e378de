import Mathlib.Data.List.Perm.Basic
import Thingino.Daynightd.Loop
import Thingino.Lib.History

/-! How `daynightd` changes its mode.

The changes are put on record as they are made, with the mean of the last ten samples, the clock that
`trigger_mode_change` has read and the moment at which the script is back and the mode is set. What follows between the
choice of a mode and the end of its script is one iteration, in which neither the history nor the mode changes: a
change that was not forced is the one that the thresholds asked for. The delay runs from the clock that was read in
front of the script of the last change, so that two changes are apart as long as no script uses the delay up. -/
namespace Thingino.Daynightd
open Lib Lib.History

/-- The mean of the last samples, which are 50 at first. -/
def mean (samples : List ℚ) : ℚ := (recent brightnessSamples 50 samples).foldl (· + ·) 0 / 10

/-- `decided` is the clock that was read, `made` the moment at which `current_mode` is set. -/
structure Change where
  source : Mode
  target : Mode
  forced : Bool
  decided : Int
  made : Int
  mean : ℚ
deriving DecidableEq

/-- An event and its moment, in microseconds. -/
structure Timed where
  event : Event
  moment : Int

/-- The daemon, its samples and its changes, both with the newest one first, and the time. -/
structure Watched where
  daemon : Daemon
  samples : List ℚ
  changes : List Change
  moment : Int

/-- The change that is about to be made was asked for by a signal. -/
def Pc.forced : Pc → Bool
  | .apply _ isForced _ => isForced
  | _ => false

namespace Watched

/-- The time does not go back, and `gettimeofday` gives it. -/
def inTime (w : Watched) (t : Timed) : Bool :=
  w.moment ≤ t.moment &&
    match t.event with
    | .clock now => now = t.moment
    | _ => true

/-- A sample goes on record where one is taken, a change where the mode is another one. -/
def record (w : Watched) (t : Timed) (d : Daemon) : Watched where
  daemon := d
  samples := match t.event with
    | .sample brightness => if brightness < 0 then w.samples else brightness :: w.samples
    | _ => w.samples
  changes :=
    if d.currentMode = w.daemon.currentMode then w.changes
    else
      ⟨w.daemon.currentMode, d.currentMode, w.daemon.pc.forced, d.lastTransition, t.moment, mean w.samples⟩ ::
        w.changes
  moment := t.moment

def step (w : Watched) (t : Timed) : Option Watched :=
  if w.inTime t then (w.daemon.step t.event).map (w.record t) else none

def start (config : Config) (pendingMode : Mode) (moment : Int) : Watched :=
  ⟨Daemon.start config pendingMode, [], [], moment⟩

/-- When the delay is over since the last change was decided, it is over since that change was made. -/
def prompt (w : Watched) (t : Timed) : Bool :=
  match t.event, w.changes with
  | .clock now, c :: _ => !w.daemon.delayMet now || c.made + w.daemon.config.transitionDelayS * 1000000 ≤ now
  | _, _ => true

end Watched

/-- The configuration stays as it is. -/
def keepsConfig (config : Config) : Event → Prop
  | .sighup config' => config' = config
  | _ => True

deriving instance DecidableEq for Config

instance (config : Config) : (e : Event) → Decidable (keepsConfig config e)
  | .sighup config' => inferInstanceAs (Decidable (config' = config))
  | .sample _ | .advance | .clock _ | .script _ | .sigusr1 | .sigusr2 => .isTrue trivial

/-- A change without force is the one that the thresholds ask for. -/
def Change.Justified (config : Config) (c : Change) : Prop :=
  c.forced = false → (c.source = .day → c.target = .night → c.mean < config.thresholdLow) ∧
    (c.source = .night → c.target = .day → config.thresholdHigh < c.mean)

/-- The newer one is decided when the delay is over since the older one was. -/
def Follows (config : Config) (newer older : Change) : Prop :=
  newer.source = older.target ∧ older.decided + config.transitionDelayS * 1000000 ≤ newer.decided

/-- **The property**, apart from the dwell. Once it is known the mode stays known, a change without force is justified,
and two successive changes are decided one after the other. -/
structure Steady (config : Config) (w : Watched) : Prop where
  known : w.changes ≠ [] → w.daemon.currentMode ≠ .unknown
  targets : ∀ c ∈ w.changes, c.target ≠ .unknown
  justified : ∀ c ∈ w.changes, c.Justified config
  follows : w.changes.IsChain (Follows config)

/-- The delay lies between two changes. -/
def Apart (config : Config) (newer older : Change) : Prop :=
  older.made + config.transitionDelayS * 1000000 ≤ newer.made

/-- **The property**, as far as the dwell goes: any two successive changes of the mode are apart. -/
def Dwells (config : Config) (w : Watched) : Prop := w.changes.IsChain (Apart config)

/-! ### The invariant -/

namespace Watched

/-- What is known of the mode that an iteration is about. -/
def InvAt (w : Watched) : Pc → Prop
  | .sample | .read | .clear _ => True
  | .test targetMode => targetMode = w.daemon.targetMode (mean w.samples)
  | .decide targetMode forced => forced = false → targetMode = w.daemon.targetMode (mean w.samples)
  | .delay newMode isForced =>
    newMode ≠ .unknown ∧ (isForced = false → newMode = w.daemon.targetMode (mean w.samples))
  | .apply newMode isForced now =>
    newMode ≠ w.daemon.currentMode ∧ newMode ≠ .unknown ∧
      (isForced = false → newMode = w.daemon.targetMode (mean w.samples)) ∧
      (w.daemon.currentMode ≠ .unknown → w.daemon.lastTransition + w.daemon.config.transitionDelayS * 1000000 ≤ now)

/-- The newest change is the one to the current mode. -/
def Latest (w : Watched) : Prop :=
  match w.changes with
  | [] => w.daemon.currentMode = .unknown
  | c :: _ => c.target = w.daemon.currentMode ∧ c.decided = w.daemon.lastTransition

structure Inv (config : Config) (w : Watched) : Prop where
  fixed : w.daemon.config = config
  tracks : Tracks brightnessSamples 50 w.samples w.daemon.brightnessHistory w.daemon.brightnessIndex
  valid : ∀ b ∈ w.samples, 0 ≤ b
  at_pc : w.InvAt w.daemon.pc
  latest : w.Latest
  steady : Steady config w

variable {config : Config} {w w' : Watched} {d d' : Daemon} {e : Event} {moment : Int}

theorem inv_start (config : Config) (pendingMode : Mode) (moment : Int) :
    (start config pendingMode moment).Inv config where
  fixed := rfl
  tracks := tracks_start (by decide)
  valid := fun _ hb => absurd hb List.not_mem_nil
  at_pc := trivial
  latest := rfl
  steady :=
    ⟨fun h => absurd rfl h, fun _ hc => absurd hc List.not_mem_nil, fun _ hc => absurd hc List.not_mem_nil, .nil⟩

/-- The mean of the history is the mean of the last samples. -/
theorem avgBrightness_eq (htracks : Tracks brightnessSamples 50 w.samples d.brightnessHistory d.brightnessIndex)
    (hvalid : ∀ b ∈ w.samples, 0 ≤ b) (brightness : ℚ) :
    Daemon.avgBrightness d.brightnessHistory brightness = mean w.samples := by
  have hnonneg : ∀ b ∈ d.brightnessHistory, decide (0 ≤ b) = true := by
    intro b hb
    obtain rfl | hb := mem_recent (htracks.perm.mem_iff.mp hb)
    · decide
    · exact decide_eq_true (hvalid b hb)
  have hlen : d.brightnessHistory.length = 10 := htracks.length
  have hsum : d.brightnessHistory.foldl (· + ·) 0 = (recent brightnessSamples 50 w.samples).foldl (· + ·) 0 :=
    htracks.perm.foldl_eq 0
  rw [Daemon.avgBrightness, List.filter_eq_self.mpr hnonneg, if_pos (by rw [hlen]; decide), hlen, hsum, mean]
  rfl

/-! ### Steps that change no mode -/

/-- What an iteration leaves alone before the script. -/
structure Frame (d d' : Daemon) : Prop where
  config : d'.config = d.config
  low : d'.thresholdLowHyst = d.thresholdLowHyst
  high : d'.thresholdHighHyst = d.thresholdHighHyst
  mode : d'.currentMode = d.currentMode
  time : d'.lastTransition = d.lastTransition

theorem Frame.targetMode (h : Frame d d') (avg : ℚ) : d'.targetMode avg = d.targetMode avg := by
  unfold Daemon.targetMode
  rw [h.mode, h.config, h.low, h.high]

/-- Places are as before where only the rest of the daemon is another one. -/
theorem Frame.invAt {pc : Pc} {changes : List Change} (h : Frame w.daemon d') (hat : w.InvAt pc) :
    InvAt ⟨d', w.samples, changes, moment⟩ pc := by
  cases pc with
  | sample | read | clear => trivial
  | test => exact hat.trans (h.targetMode _).symm
  | decide => exact fun hforced => (hat hforced).trans (h.targetMode _).symm
  | delay => exact ⟨hat.1, fun hforced => (hat.2 hforced).trans (h.targetMode _).symm⟩
  | apply newMode isForced now =>
    refine ⟨?_, hat.2.1, fun hforced => (hat.2.2.1 hforced).trans (h.targetMode _).symm, ?_⟩
    · show newMode ≠ d'.currentMode
      rw [h.mode]
      exact hat.1
    · show d'.currentMode ≠ .unknown → d'.lastTransition + d'.config.transitionDelayS * 1000000 ≤ now
      rw [h.mode, h.time, h.config]
      exact hat.2.2.2

/-- A step to another place. -/
theorem inv_move (h : w.Inv config) (hframe : Frame w.daemon d')
    (hhistory : d'.brightnessHistory = w.daemon.brightnessHistory)
    (hindex : d'.brightnessIndex = w.daemon.brightnessIndex) (hat : w.InvAt d'.pc) :
    Inv config ⟨d', w.samples, w.changes, moment⟩ where
  fixed := hframe.config.trans h.fixed
  tracks := by
    show Tracks _ _ _ d'.brightnessHistory d'.brightnessIndex
    rw [hhistory, hindex]
    exact h.tracks
  valid := h.valid
  at_pc := hframe.invAt hat
  latest := by
    have hlatest := h.latest
    unfold Latest at hlatest ⊢
    show match w.changes with
      | [] => d'.currentMode = .unknown
      | c :: _ => c.target = d'.currentMode ∧ c.decided = d'.lastTransition
    rw [hframe.mode, hframe.time]
    exact hlatest
  steady := ⟨fun hne => hframe.mode ▸ h.steady.known hne, h.steady.targets, h.steady.justified, h.steady.follows⟩

theorem frame_finish (d : Daemon) : Frame d d.finish := ⟨rfl, rfl, rfl, rfl, rfl⟩

/-- The iteration ends without a change. -/
theorem inv_finish (h : w.Inv config) : Inv config ⟨w.daemon.finish, w.samples, w.changes, moment⟩ :=
  inv_move h (frame_finish w.daemon) rfl rfl trivial

theorem inv_sample {brightness : ℚ} (h : w.Inv config) (hvalid : 0 ≤ brightness) :
    Inv config ⟨w.daemon.sample brightness, brightness :: w.samples, w.changes, moment⟩ := by
  have hneg : ¬brightness < 0 := not_lt.mpr hvalid
  have hpush : Tracks brightnessSamples 50 (brightness :: w.samples)
      (w.daemon.brightnessHistory.set w.daemon.brightnessIndex brightness)
      ((w.daemon.brightnessIndex + 1) % brightnessSamples) := h.tracks.push brightness
  have hsamples : ∀ b ∈ brightness :: w.samples, 0 ≤ b := List.forall_mem_cons.mpr ⟨hvalid, h.valid⟩
  rw [Daemon.sample, if_neg hneg]
  refine ⟨h.fixed, hpush, hsamples, ?_, h.latest,
    ⟨h.steady.known, h.steady.targets, h.steady.justified, h.steady.follows⟩⟩
  show w.daemon.targetMode (Daemon.avgBrightness _ brightness) = w.daemon.targetMode (mean (brightness :: w.samples))
  have havg := @avgBrightness_eq ⟨w.daemon, brightness :: w.samples, [], moment⟩
    { w.daemon with
      brightnessHistory := w.daemon.brightnessHistory.set w.daemon.brightnessIndex brightness
      brightnessIndex := (w.daemon.brightnessIndex + 1) % brightnessSamples } hpush hsamples brightness
  exact congrArg w.daemon.targetMode havg

theorem inv_advance (h : w.Inv config) (hstep : w.daemon.advance = some d') :
    Inv config ⟨d', w.samples, w.changes, moment⟩ ∧ d'.currentMode = w.daemon.currentMode := by
  have hat := h.at_pc
  unfold Daemon.advance at hstep
  split at hstep
  · rename_i targetMode hpc
    rw [hpc] at hat
    cases hstep
    refine ⟨inv_move h ⟨rfl, rfl, rfl, rfl, rfl⟩ rfl rfl ?_, rfl⟩
    dsimp only
    split
    · trivial
    · exact fun _ => hat
  · cases hstep
    exact ⟨inv_move h ⟨rfl, rfl, rfl, rfl, rfl⟩ rfl rfl trivial, rfl⟩
  · cases hstep
    exact ⟨inv_move h ⟨rfl, rfl, rfl, rfl, rfl⟩ rfl rfl fun hforced => Bool.noConfusion hforced, rfl⟩
  · rename_i targetMode forced hpc
    rw [hpc] at hat
    cases hstep
    split
    · rename_i hchange
      exact ⟨inv_move h ⟨rfl, rfl, rfl, rfl, rfl⟩ rfl rfl ⟨hchange.2, hat⟩, rfl⟩
    · exact ⟨inv_finish h, rfl⟩
  · cases hstep

/-- The delay is over, or there was no mode before. -/
theorem inv_clock {now : Int} (h : w.Inv config) (hstep : w.daemon.clock now = some d') :
    Inv config ⟨d', w.samples, w.changes, moment⟩ ∧ d'.currentMode = w.daemon.currentMode := by
  have hat := h.at_pc
  unfold Daemon.clock at hstep
  split at hstep
  · rename_i newMode isForced hpc
    rw [hpc] at hat
    cases hstep
    split
    · exact ⟨inv_finish h, rfl⟩
    rename_i hnew
    split
    · rename_i hdelay
      refine ⟨inv_move h ⟨rfl, rfl, rfl, rfl, rfl⟩ rfl rfl ⟨hnew, hat.1, hat.2, fun hknown => ?_⟩, rfl⟩
      rw [Daemon.delayMet, decide_eq_true_eq, or_iff_right hknown] at hdelay
      omega
    · exact ⟨inv_finish h, rfl⟩
  · cases hstep

/-! ### The script -/

/-- The change that a script has made is on record. -/
theorem inv_change {newMode : Mode} {isForced : Bool} {now : Int} (h : w.Inv config)
    (hpc : w.daemon.pc = .apply newMode isForced now) :
    Inv config ⟨Daemon.finish { w.daemon with currentMode := newMode, lastTransition := now }, w.samples,
      ⟨w.daemon.currentMode, newMode, isForced, now, moment, mean w.samples⟩ :: w.changes, moment⟩ := by
  have hat := h.at_pc
  rw [hpc] at hat
  obtain ⟨-, hknown, hasked, hdelay⟩ := hat
  rw [h.fixed] at hdelay
  refine ⟨h.fixed, h.tracks, h.valid, trivial, ⟨rfl, rfl⟩, ⟨fun _ => hknown, ?_, ?_, ?_⟩⟩
  · exact List.forall_mem_cons.mpr ⟨hknown, h.steady.targets⟩
  · refine List.forall_mem_cons.mpr ⟨fun hforced => ?_, h.steady.justified⟩
    have hasked := hasked hforced
    rw [Daemon.targetMode, h.fixed] at hasked
    constructor
    · intro hday hnight
      have hday : w.daemon.currentMode = .day := hday
      have hnight : newMode = .night := hnight
      by_contra hbright
      rw [hday, hnight] at hasked
      simp only [if_neg hbright] at hasked
      cases hasked
    · intro hnight hday
      have hnight : w.daemon.currentMode = .night := hnight
      have hday : newMode = .day := hday
      by_contra hdark
      rw [hnight, hday] at hasked
      simp only [gt_iff_lt, if_neg hdark] at hasked
      cases hasked
  · have hlatest := h.latest
    have hold := h.steady.known
    have hchain := h.steady.follows
    unfold Latest at hlatest
    cases hchanges : w.changes with
    | nil => exact .singleton _
    | cons c changes =>
      rw [hchanges] at hlatest hold hchain
      have hapart := hdelay (hold (List.cons_ne_nil c changes))
      rw [← hlatest.2] at hapart
      exact .cons_cons ⟨hlatest.1.symm, hapart⟩ hchain

theorem step_eq {t : Timed} (hstep : w.step t = some w') :
    w.inTime t = true ∧ ∃ d', w.daemon.step t.event = some d' ∧ w' = w.record t d' := by
  rw [step, Option.ite_none_right_eq_some] at hstep
  obtain ⟨d', hd', rfl⟩ := Option.map_eq_some_iff.mp hstep.2
  exact ⟨hstep.1, d', hd', rfl⟩

/-- A step without a sample that changes no mode. -/
theorem inv_quiet (hsamples : ∀ brightness, e ≠ .sample brightness)
    (hinv : Inv config ⟨d', w.samples, w.changes, moment⟩ ∧ d'.currentMode = w.daemon.currentMode) :
    (w.record ⟨e, moment⟩ d').Inv config := by
  obtain ⟨hnext, hmode⟩ := hinv
  have hrecord : w.record ⟨e, moment⟩ d' = ⟨d', w.samples, w.changes, moment⟩ := by
    unfold record
    cases e with
    | sample brightness => exact absurd rfl (hsamples brightness)
    | _ => rw [if_pos hmode]
  rw [hrecord]
  exact hnext

theorem inv_script {succeeds : Bool} (h : w.Inv config) (hd' : w.daemon.script succeeds = some d') :
    (w.record ⟨.script succeeds, moment⟩ d').Inv config := by
  unfold Daemon.script at hd'
  split at hd'
  · rename_i newMode isForced now hpc
    cases succeeds with
    | false =>
      rw [if_neg Bool.false_ne_true, Option.some.injEq] at hd'
      subst hd'
      exact inv_quiet (fun _ => Event.noConfusion) ⟨inv_finish h, rfl⟩
    | true =>
      rw [if_pos rfl, Option.some.injEq] at hd'
      subst hd'
      have hat := h.at_pc
      rw [hpc] at hat
      have hnew : ¬(Daemon.finish { w.daemon with currentMode := newMode, lastTransition := now }).currentMode =
        w.daemon.currentMode := hat.1
      have hforced : w.daemon.pc.forced = isForced := by
        rw [hpc]
        rfl
      unfold record
      rw [if_neg hnew, hforced]
      exact inv_change h hpc
  · cases hd'

theorem inv_step {t : Timed} (h : w.Inv config) (hok : keepsConfig config t.event) (hstep : w.step t = some w') :
    w'.Inv config := by
  obtain ⟨-, d', hd', rfl⟩ := step_eq hstep
  obtain ⟨e, moment⟩ := t
  cases e with
  | sample brightness =>
    simp only [Daemon.step] at hd'
    split at hd'
    · cases hd'
      have hmode : (w.daemon.sample brightness).currentMode = w.daemon.currentMode := by
        unfold Daemon.sample
        split <;> rfl
      unfold record
      rw [if_pos hmode]
      dsimp only
      split
      · rename_i hneg
        have hsame : w.daemon.sample brightness = w.daemon := if_pos hneg
        rw [hsame]
        exact inv_move h ⟨rfl, rfl, rfl, rfl, rfl⟩ rfl rfl h.at_pc
      · rename_i hneg
        exact inv_sample h (not_lt.mp hneg)
    · cases hd'
  | advance => exact inv_quiet (fun _ => Event.noConfusion) (inv_advance h hd')
  | clock now => exact inv_quiet (fun _ => Event.noConfusion) (inv_clock h hd')
  | script succeeds => exact inv_script h hd'
  | sigusr1 | sigusr2 =>
    cases hd'
    exact inv_quiet (fun _ => Event.noConfusion) ⟨inv_move h ⟨rfl, rfl, rfl, rfl, rfl⟩ rfl rfl h.at_pc, rfl⟩
  | sighup config' =>
    cases hd'
    have hsame : config' = w.daemon.config := Eq.trans hok h.fixed.symm
    exact inv_quiet (fun _ => Event.noConfusion) ⟨inv_move h ⟨hsame, rfl, rfl, rfl, rfl⟩ rfl rfl h.at_pc, rfl⟩

/-! ### The dwell -/

/-- Only a script that succeeds changes the mode, -/
theorem mode_step (hstep : d.step e = some d') (hmode : d'.currentMode ≠ d.currentMode) :
    d'.pc = .sample ∧ ∃ newMode isForced now, d.pc = .apply newMode isForced now := by
  cases e with
  | sample brightness =>
    simp only [Daemon.step] at hstep
    split at hstep
    · cases hstep
      refine absurd ?_ hmode
      unfold Daemon.sample
      split <;> rfl
    · cases hstep
  | advance =>
    simp only [Daemon.step, Daemon.advance] at hstep
    split at hstep <;> cases hstep
    · exact absurd rfl hmode
    · exact absurd rfl hmode
    · exact absurd rfl hmode
    · refine absurd ?_ hmode
      split <;> rfl
  | clock now =>
    simp only [Daemon.step, Daemon.clock] at hstep
    split at hstep <;> cases hstep
    refine absurd ?_ hmode
    split
    · rfl
    · split <;> rfl
  | script succeeds =>
    simp only [Daemon.step, Daemon.script] at hstep
    split at hstep
    · rename_i newMode isForced now hpc
      cases hstep
      refine ⟨?_, newMode, isForced, now, hpc⟩
      split <;> rfl
    · cases hstep
  | sigusr1 | sigusr2 | sighup =>
    cases hstep
    exact absurd rfl hmode

/-- and a script is about to run only when the delay is over. -/
theorem apply_step {newMode : Mode} {isForced : Bool} {now : Int} (hstep : d.step e = some d')
    (hpc : d'.pc = .apply newMode isForced now) :
    d.pc = .apply newMode isForced now ∨ e = .clock now ∧ d.delayMet now = true := by
  cases e with
  | sample brightness =>
    simp only [Daemon.step] at hstep
    split at hstep
    · rename_i hsample
      cases hstep
      unfold Daemon.sample at hpc
      split at hpc
      · exact .inl hpc
      · cases hpc
    · cases hstep
  | advance =>
    simp only [Daemon.step, Daemon.advance] at hstep
    split at hstep <;> cases hstep
    · dsimp only at hpc
      split at hpc <;> cases hpc
    · cases hpc
    · cases hpc
    · split at hpc <;> cases hpc
  | clock now' =>
    simp only [Daemon.step, Daemon.clock] at hstep
    split at hstep <;> cases hstep
    split at hpc
    · cases hpc
    · split at hpc
      · rename_i hdelay
        cases hpc
        exact .inr ⟨rfl, hdelay⟩
      · cases hpc
  | script succeeds =>
    simp only [Daemon.step, Daemon.script] at hstep
    split at hstep <;> cases hstep
    split at hpc <;> cases hpc
  | sigusr1 | sigusr2 | sighup =>
    cases hstep
    exact .inl hpc

/-- A script that runs was let through when the delay was over since the last change was made. -/
structure Waits (config : Config) (w : Watched) : Prop where
  at_pc : ∀ newMode isForced now, w.daemon.pc = .apply newMode isForced now → now ≤ w.moment ∧
    ∀ c changes, w.changes = c :: changes → c.made + config.transitionDelayS * 1000000 ≤ now
  dwells : Dwells config w

theorem changes_record {t : Timed} (hmode : d'.currentMode = w.daemon.currentMode) :
    (w.record t d').changes = w.changes := if_pos hmode

theorem waits_step {t : Timed} (h : Waits config w) (hinv : w.Inv config) (hprompt : w.prompt t = true)
    (hstep : w.step t = some w') : Waits config w' := by
  obtain ⟨htime, d', hd', rfl⟩ := step_eq hstep
  obtain ⟨hmoment, hclock⟩ := Bool.and_eq_true_iff.mp htime
  have hmoment : w.moment ≤ t.moment := of_decide_eq_true hmoment
  by_cases hmode : d'.currentMode = w.daemon.currentMode
  · refine ⟨fun newMode isForced now hpc => ?_, ?_⟩
    · obtain hold | ⟨hevent, hdelay⟩ := apply_step hd' hpc
      · obtain ⟨hnow, hlast⟩ := h.at_pc newMode isForced now hold
        refine ⟨hnow.trans hmoment, fun c changes hchanges => hlast c changes ?_⟩
        exact (changes_record hmode).symm.trans hchanges
      · rw [hevent] at hclock
        refine ⟨(of_decide_eq_true hclock).le, fun c changes hchanges => ?_⟩
        rw [changes_record hmode] at hchanges
        rw [prompt, hevent, hchanges, hinv.fixed] at hprompt
        simpa [hdelay] using hprompt
    · rw [Dwells, changes_record hmode]
      exact h.dwells
  · obtain ⟨hsample, newMode, isForced, now, hpc⟩ := mode_step hd' hmode
    obtain ⟨hnow, hlast⟩ := h.at_pc newMode isForced now hpc
    have hchanges : (w.record t d').changes = _ :: w.changes := if_neg hmode
    refine ⟨fun newMode' isForced' now' hpc' => ?_, ?_⟩
    · cases hsample.symm.trans hpc'
    · rw [Dwells, hchanges]
      have hdwells := h.dwells
      rw [Dwells] at hdwells
      cases hold : w.changes with
      | nil => exact .singleton _
      | cons c changes =>
        rw [hold] at hdwells
        exact .cons_cons ((hlast c changes hold).trans (hnow.trans hmoment)) hdwells

end Watched

/-- **The mode changes with hysteresis**, whatever the samples, the signals, the clock and the scripts, and a script that
fails changes neither the mode nor the time of the last change; **and with dwell**, in runs in which no script uses the
delay up. -/
theorem steady_of_prompt {config : Config} {pendingMode : Mode} {moment : Int} {w : Watched}
    (h : Reach Watched.step (fun _ t => keepsConfig config t.event) (Watched.start config pendingMode moment) w) :
    Steady config w ∧
      (∀ moment' w', w.step ⟨.script false, moment'⟩ = some w' →
        w'.daemon.currentMode = w.daemon.currentMode ∧ w'.daemon.lastTransition = w.daemon.lastTransition) ∧
      (Reach Watched.step (fun w t => keepsConfig config t.event ∧ w.prompt t = true)
        (Watched.start config pendingMode moment) w → Dwells config w) := by
  have hinv : ∀ {w}, Reach Watched.step (fun _ t => keepsConfig config t.event)
      (Watched.start config pendingMode moment) w → w.Inv config :=
    Reach.invariant (Watched.inv_start config pendingMode moment) fun _ _ _ hw hok hstep => Watched.inv_step hw hok hstep
  refine ⟨(hinv h).steady, fun moment' w' hstep => ?_, fun hrun => ?_⟩
  · obtain ⟨-, d', hd', rfl⟩ := Watched.step_eq hstep
    simp only [Daemon.step, Daemon.script] at hd'
    split at hd' <;> cases hd'
    exact ⟨rfl, rfl⟩
  · have hwaits : Watched.Waits config w := by
      induction hrun with
      | start =>
        refine ⟨fun newMode isForced now hpc => ?_, .nil⟩
        cases hpc
      | next hrun hok hstep ih =>
        have hrun' := hrun.weaken fun _ _ hok => hok.1
        exact Watched.waits_step (ih hrun') (hinv hrun') hok.2 hstep
    exact hwaits.dwells

/-- Events one after the other, from a moment on. -/
def timed (moment : Int) (es : List Event) : List Timed := es.map fun e => ⟨e, moment⟩

/-- An iteration in which the sample makes the loop change the mode. -/
def turning (brightness : ℚ) (now : Int) (succeeds : Bool) : List Event :=
  [.sample brightness, .advance, .advance, .clock now, .script succeeds]

/-- Day by force; then it is dark, and after five samples the mean of the last ten is below 30. The
first script fails. -/
theorem steady_after_dusk :
    ∃ w : Watched, w.changes = [⟨.day, .night, false, 106000000, 106000000, 20⟩,
        ⟨.unknown, .day, true, 100000000, 100000000, 50⟩] ∧
      Steady Config.zero.setDefaults w ∧ Dwells Config.zero.setDefaults w := by
  have hrun : ∃ w, Reach Watched.step (fun w t => keepsConfig Config.zero.setDefaults t.event ∧ w.prompt t = true)
      (Watched.start Config.zero.setDefaults .unknown 0) w ∧
        w.changes = [⟨.day, .night, false, 106000000, 106000000, 20⟩,
          ⟨.unknown, .day, true, 100000000, 100000000, 50⟩] :=
    exists_reach (timed 100000000 ([.sigusr1] ++ switching 100000000 ++
        (List.replicate 4 [.sample 0, .advance, .advance]).flatten) ++
      timed 105000000 (turning 0 105000000 false) ++ timed 106000000 (turning 0 106000000 true)) (by decide +kernel)
  obtain ⟨w, hw, hchanges⟩ := hrun
  obtain ⟨hsteady, -, hdwells⟩ := steady_of_prompt (hw.weaken fun _ _ hok => hok.1)
  exact ⟨w, hchanges, hsteady, hdwells hw⟩

/-- The script for the day takes six seconds. The delay of five was counted from before it: night follows 0.6 s after
day. -/
theorem dwell_used_up :
    ∃ w, Reach Watched.step (fun _ t => keepsConfig Config.zero.setDefaults t.event)
      (Watched.start Config.zero.setDefaults .unknown 0) w ∧ ¬Dwells Config.zero.setDefaults w := by
  have hrun : ∃ w, Reach Watched.step (fun _ t => keepsConfig Config.zero.setDefaults t.event)
      (Watched.start Config.zero.setDefaults .unknown 0) w ∧
        w.changes = [⟨.day, .night, true, 106500000, 106600000, 50⟩,
          ⟨.unknown, .day, true, 100000000, 106000000, 50⟩] :=
    exists_reach (timed 100000000 (.sigusr1 :: (switching 100000000).take 6) ++ timed 106000000 [.script true] ++
      timed 106500000 (.sigusr2 :: (switching 106500000).take 6) ++ timed 106600000 [.script true]) (by decide +kernel)
  obtain ⟨w, hw, hchanges⟩ := hrun
  refine ⟨w, hw, fun h => ?_⟩
  rw [Dwells, hchanges, List.isChain_cons_cons, Apart] at h
  exact absurd h.1 (by decide)

end Thingino.Daynightd
