import Mathlib.Algebra.Order.Ring.Unbundled.Rat
import Mathlib.Data.Rat.Floor
import Mathlib.Tactic.Linarith
import Thingino.Esphome.Player

/-! Volume, mute and gain of the media player, as they are stored and as they are reported.

The setters clamp what they store; each place that reports has a value of its own to report. Volumes are
rational numbers. A playback changes the state and reports what is stored. -/
namespace Thingino.Esphome.Levels
open Lib

/-- `MediaPlayerState`, as far as it is used. -/
inductive MediaPlayerState
  | idle
  | playing
  | paused
deriving DecidableEq

/-- `mediaReported` and `gainReported` are what Home Assistant was told last. -/
structure PlayerContext where
  state : MediaPlayerState
  volume : ℚ
  gain : Int
  muted : Bool
  playbackActive : Bool
  mediaReported : Option (MediaPlayerState × ℚ × Bool)
  gainReported : Option Int

/-- A decoded `MediaPlayerCommandRequest`. -/
structure CommandRequest where
  key : Nat
  hasCommand : Bool
  command : Nat
  hasVolume : Bool
  volume : ℚ
  hasMediaUrl : Bool
  mediaUrl : List Byte
  hasAnnouncement : Bool
  announcement : Bool

/-- `number` is a decoded `NumberCommandRequest`. The thread of a playback may start late, and it may not be
created at all. -/
inductive Message
  | number (key : Nat) (state : ℚ)
  | media (request : CommandRequest) (created : Bool)
  | playback (state : MediaPlayerState)

def mediaPlayerKey : Nat := 1

def gainNumberKey : Nat := 3

def audioGainMin : Int := 0

def audioGainMax : Int := 31

/-- The two comparisons of a setter. -/
def clamp {α : Type} [LT α] [DecidableLT α] (lo hi x : α) : α :=
  let x := if x < lo then lo else x
  if hi < x then hi else x

/-- `(int)state`: towards zero. What becomes of a number beyond the range of `int` is not defined. -/
def toInt (overflow : ℚ → Int) (x : ℚ) : Int :=
  let n := if x < 0 then ⌈x⌉ else ⌊x⌋
  if -2147483648 ≤ n ∧ n ≤ 2147483647 then n else overflow x

namespace PlayerContext

def start : PlayerContext := ⟨.idle, 7 / 10, 15, false, false, none, none⟩

def reportMediaPlayerState (s : PlayerContext) (state : MediaPlayerState) (volume : ℚ) (muted : Bool) : PlayerContext :=
  { s with mediaReported := some (state, volume, muted) }

def reportGainState (s : PlayerContext) (gain : Int) : PlayerContext := { s with gainReported := some gain }

def setSystemVolume (s : PlayerContext) (volume : ℚ) : PlayerContext := { s with volume := clamp 0 1 volume }

def setSystemGain (s : PlayerContext) (gain : Int) : PlayerContext :=
  { s with gain := clamp audioGainMin audioGainMax gain }

def stopCurrentPlayback (s : PlayerContext) : PlayerContext :=
  if s.playbackActive then { s with playbackActive := false, state := .idle } else s

def downloadAndStreamAudio (s : PlayerContext) (created : Bool) : PlayerContext :=
  { s.stopCurrentPlayback with playbackActive := created }

/-- A state is set and reported with what is stored. -/
def enter (s : PlayerContext) (state : MediaPlayerState) : PlayerContext :=
  { s with state := state }.reportMediaPlayerState state s.volume s.muted

def handleCommand (s : PlayerContext) (command : Nat) : PlayerContext :=
  match command with
  | 0 => s.enter .playing
  | 1 => s.enter .paused
  | 2 => s.stopCurrentPlayback.reportMediaPlayerState .idle s.volume s.muted
  | 3 => { s with muted := true }.reportMediaPlayerState s.state s.volume true
  | 4 => { s with muted := false }.reportMediaPlayerState s.state s.volume false
  | 6 =>
    let newVol := s.volume + 1 / 10
    let newVol := if 1 < newVol then 1 else newVol
    (s.setSystemVolume newVol).reportMediaPlayerState s.state newVol s.muted
  | 7 =>
    let newVol := s.volume - 1 / 10
    let newVol := if newVol < 0 then 0 else newVol
    (s.setSystemVolume newVol).reportMediaPlayerState s.state newVol s.muted
  | _ => s

def handleMedia (s : PlayerContext) (m : CommandRequest) (created : Bool) : PlayerContext :=
  if m.key ≠ mediaPlayerKey then s
  else
    let s := if m.hasMediaUrl && m.mediaUrl.head?.any (· ≠ 0) then s.downloadAndStreamAudio created else s
    let s := if m.hasCommand then s.handleCommand m.command else s
    if m.hasVolume then (s.setSystemVolume m.volume).reportMediaPlayerState s.state m.volume s.muted else s

def handleNumber (overflow : ℚ → Int) (s : PlayerContext) (key : Nat) (state : ℚ) : PlayerContext :=
  if key = gainNumberKey then (s.setSystemGain (toInt overflow state)).reportGainState (toInt overflow state) else s

def handleMessage (overflow : ℚ → Int) (s : PlayerContext) : Message → PlayerContext
  | .number key state => s.handleNumber overflow key state
  | .media request created => s.handleMedia request created
  | .playback state => s.enter state

/-- The messages of a list, one after the other. -/
def handleAll (overflow : ℚ → Int) (s : PlayerContext) (ms : List Message) : PlayerContext :=
  ms.foldl (handleMessage overflow) s

end PlayerContext

/-- The value that a message brings is in its range. -/
def Message.inRange (overflow : ℚ → Int) : Message → Bool
  | .number key state =>
    key ≠ gainNumberKey || audioGainMin ≤ toInt overflow state && toInt overflow state ≤ audioGainMax
  | .media request _ =>
    request.key ≠ mediaPlayerKey || !request.hasVolume || 0 ≤ request.volume && request.volume ≤ 1
  | .playback _ => true

/-- **The property.** What was reported last is what is stored, and that is in its range. -/
structure InSync (s : PlayerContext) : Prop where
  media : ∀ r, s.mediaReported = some r → r.2 = (s.volume, s.muted)
  gain : ∀ g, s.gainReported = some g → g = s.gain
  volumeRange : 0 ≤ s.volume ∧ s.volume ≤ 1
  gainRange : audioGainMin ≤ s.gain ∧ s.gain ≤ audioGainMax

variable {s : PlayerContext} {overflow : ℚ → Int} {m : Message} {ms : List Message}

/-! ### Clamping -/

section Clamp
variable {α : Type} [LinearOrder α] {lo hi x : α}

theorem clamp_mem (h : lo ≤ hi) : lo ≤ clamp lo hi x ∧ clamp lo hi x ≤ hi := by
  unfold clamp
  dsimp only
  split
  · split
    · exact ⟨h, le_refl hi⟩
    · exact ⟨le_refl lo, h⟩
  · rename_i hlo
    split
    · exact ⟨h, le_refl hi⟩
    · rename_i hhi
      exact ⟨not_lt.mp hlo, not_lt.mp hhi⟩

/-- Exactly what is in the range is kept. -/
theorem clamp_eq_self_iff (h : lo ≤ hi) : clamp lo hi x = x ↔ lo ≤ x ∧ x ≤ hi := by
  constructor
  · intro hsame
    have hmem := clamp_mem (x := x) h
    rw [hsame] at hmem
    exact hmem
  · rintro ⟨hlo, hhi⟩
    rw [clamp, if_neg (not_lt.mpr hlo), if_neg (not_lt.mpr hhi)]

end Clamp

/-! ### What keeps the report and the store together -/

theorem inSync_start : InSync .start :=
  ⟨fun _ h => absurd h (by simp [PlayerContext.start]), fun _ h => absurd h (by simp [PlayerContext.start]),
    by norm_num [PlayerContext.start], by decide⟩

/-- What is reported is what is stored. -/
theorem inSync_report (h : InSync s) (state : MediaPlayerState) : InSync (s.reportMediaPlayerState state s.volume s.muted) :=
  ⟨fun _ hr => Option.some.inj hr ▸ rfl, h.gain, h.volumeRange, h.gainRange⟩

theorem inSync_enter (h : InSync s) (state : MediaPlayerState) : InSync (s.enter state) :=
  ⟨fun _ hr => Option.some.inj hr ▸ rfl, h.gain, h.volumeRange, h.gainRange⟩

theorem inSync_muted (h : InSync s) (muted : Bool) :
    InSync ({ s with muted := muted }.reportMediaPlayerState s.state s.volume muted) :=
  ⟨fun _ hr => Option.some.inj hr ▸ rfl, h.gain, h.volumeRange, h.gainRange⟩

theorem inSync_stop (h : InSync s) : InSync s.stopCurrentPlayback := by
  unfold PlayerContext.stopCurrentPlayback
  split
  · exact ⟨h.media, h.gain, h.volumeRange, h.gainRange⟩
  · exact h

theorem volume_stop (s : PlayerContext) :
    s.stopCurrentPlayback.volume = s.volume ∧ s.stopCurrentPlayback.muted = s.muted := by
  unfold PlayerContext.stopCurrentPlayback
  split <;> exact ⟨rfl, rfl⟩

theorem inSync_download (h : InSync s) (created : Bool) : InSync (s.downloadAndStreamAudio created) :=
  have hstop := inSync_stop h
  ⟨hstop.media, hstop.gain, hstop.volumeRange, hstop.gainRange⟩

/-- A volume is set and reported: it has to be one that the setter keeps. -/
theorem inSync_volume_iff (h : InSync s) (volume : ℚ) :
    InSync ((s.setSystemVolume volume).reportMediaPlayerState s.state volume s.muted) ↔ 0 ≤ volume ∧ volume ≤ 1 := by
  rw [← clamp_eq_self_iff (by norm_num : (0 : ℚ) ≤ 1)]
  constructor
  · intro hsync
    exact (congrArg Prod.fst (hsync.media _ rfl)).symm
  · intro hsame
    refine ⟨fun r hr => ?_, h.gain, clamp_mem (by norm_num), h.gainRange⟩
    rw [← Option.some.inj hr]
    exact congrArg (·, s.muted) hsame.symm

theorem inSync_gain_iff (h : InSync s) (gain : Int) :
    InSync ((s.setSystemGain gain).reportGainState gain) ↔ audioGainMin ≤ gain ∧ gain ≤ audioGainMax := by
  rw [← clamp_eq_self_iff (by decide : audioGainMin ≤ audioGainMax)]
  constructor
  · intro hsync
    exact (hsync.gain _ rfl).symm
  · intro hsame
    refine ⟨h.media, fun g hg => ?_, h.volumeRange, clamp_mem (by decide)⟩
    rw [← Option.some.inj hg]
    exact hsame.symm

theorem inSync_volumeUp (h : InSync s) : InSync (s.handleCommand 6) := by
  refine (inSync_volume_iff h _).mpr ?_
  have hrange := h.volumeRange
  split
  · norm_num
  · constructor <;> linarith

theorem inSync_volumeDown (h : InSync s) : InSync (s.handleCommand 7) := by
  refine (inSync_volume_iff h _).mpr ?_
  have hrange := h.volumeRange
  split
  · norm_num
  · constructor <;> linarith

theorem inSync_command (h : InSync s) (command : Nat) : InSync (s.handleCommand command) := by
  unfold PlayerContext.handleCommand
  split
  · exact inSync_enter h .playing
  · exact inSync_enter h .paused
  · obtain ⟨hvolume, hmuted⟩ := volume_stop s
    rw [← hvolume, ← hmuted]
    exact inSync_report (inSync_stop h) .idle
  · exact inSync_muted h true
  · exact inSync_muted h false
  · exact inSync_volumeUp h
  · exact inSync_volumeDown h
  · exact h

theorem inSync_number_iff (h : InSync s) (key : Nat) (state : ℚ) :
    InSync (s.handleNumber overflow key state) ↔
      (key = gainNumberKey → audioGainMin ≤ toInt overflow state ∧ toInt overflow state ≤ audioGainMax) := by
  unfold PlayerContext.handleNumber
  split
  · rename_i hkey
    rw [inSync_gain_iff h]
    exact ⟨fun hrange _ => hrange, fun hrange => hrange hkey⟩
  · rename_i hkey
    exact iff_of_true h fun heq => absurd heq hkey

theorem inSync_url (h : InSync s) (request : CommandRequest) (created : Bool) :
    InSync (if request.hasMediaUrl && request.mediaUrl.head?.any (· ≠ 0) then s.downloadAndStreamAudio created else s) := by
  split
  · exact inSync_download h created
  · exact h

theorem inSync_media_iff (h : InSync s) (request : CommandRequest) (created : Bool) :
    InSync (s.handleMedia request created) ↔
      (request.key = mediaPlayerKey → request.hasVolume = true → 0 ≤ request.volume ∧ request.volume ≤ 1) := by
  unfold PlayerContext.handleMedia
  split
  · rename_i hkey
    exact iff_of_true h fun heq => absurd heq hkey
  · rename_i hkey
    rw [not_not] at hkey
    have hurl := inSync_url h request created
    generalize (if request.hasMediaUrl && request.mediaUrl.head?.any (· ≠ 0) then s.downloadAndStreamAudio created
      else s) = t at hurl
    have hcommand : InSync (if request.hasCommand then t.handleCommand request.command else t) := by
      split
      · exact inSync_command hurl request.command
      · exact hurl
    dsimp only
    split
    · rename_i hvolume
      rw [inSync_volume_iff hcommand]
      exact ⟨fun hrange _ _ => hrange, fun hrange => hrange hkey hvolume⟩
    · rename_i hvolume
      exact iff_of_true hcommand fun _ heq => absurd heq hvolume

/-- A message keeps them together exactly if its value is in its range. -/
theorem inSync_handle_iff (h : InSync s) : InSync (s.handleMessage overflow m) ↔ m.inRange overflow = true := by
  cases m with
  | number key state =>
    simp only [PlayerContext.handleMessage, inSync_number_iff h, Message.inRange, Bool.or_eq_true, Bool.and_eq_true,
      decide_eq_true_eq, ne_eq, imp_iff_not_or]
  | media request created =>
    simp only [PlayerContext.handleMessage, inSync_media_iff h, Message.inRange, Bool.or_eq_true, Bool.and_eq_true,
      Bool.not_eq_true', decide_eq_true_eq, ne_eq, imp_iff_not_or, or_assoc, Bool.not_eq_true]
  | playback state => exact iff_of_true (inSync_enter h state) rfl

/-! ### Runs -/

theorem inSync_run_iff (h : InSync s) :
    (∀ a b, ms = a ++ b → InSync (s.handleAll overflow a)) ↔ ∀ m ∈ ms, m.inRange overflow = true := by
  induction ms generalizing s with
  | nil =>
    refine iff_of_true (fun a b hab => ?_) fun m hm => absurd hm List.not_mem_nil
    rw [(List.append_eq_nil_iff.mp hab.symm).1]
    exact h
  | cons m ms ih =>
    rw [List.forall_mem_cons]
    constructor
    · intro hall
      have hnext := hall [m] ms rfl
      exact ⟨(inSync_handle_iff h).mp hnext, (ih hnext).mp fun a b hab => hall (m :: a) b (congrArg (m :: ·) hab)⟩
    · rintro ⟨hrange, hrest⟩ a b hab
      cases a with
      | nil => exact h
      | cons x a =>
        obtain ⟨rfl, htail⟩ := List.cons.inj hab
        exact (ih ((inSync_handle_iff h).mpr hrange)).mpr hrest a b htail

/-- **Reported is stored** all along a run exactly if every value that a message brings is in its range. -/
theorem reported_eq_stored_iff (overflow : ℚ → Int) (ms : List Message) :
    (∀ a b, ms = a ++ b → InSync (PlayerContext.start.handleAll overflow a)) ↔
      ∀ m ∈ ms, m.inRange overflow = true :=
  inSync_run_iff inSync_start

/-- A volume of 2: 1 is stored, and 2 is reported. -/
def doubleVolume : Message := .media ⟨mediaPlayerKey, false, 0, true, 2, false, [], false, false⟩ false

theorem volume_two_reported :
    ¬∀ a b, [doubleVolume] = a ++ b → InSync (PlayerContext.start.handleAll (fun _ => 0) a) := by
  intro hall
  have hvolume := congrArg Prod.fst ((hall [doubleVolume] [] rfl).media (.idle, 2, false) rfl)
  have hmem := (hall [doubleVolume] [] rfl).volumeRange.2
  have hle : (2 : ℚ) ≤ 1 := hvolume.trans_le hmem
  norm_num at hle

end Thingino.Esphome.Levels
