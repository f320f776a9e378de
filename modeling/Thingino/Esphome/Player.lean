import Thingino.Lib.Bytes
import Thingino.Lib.Threads
import Thingino.Lib.Transition

/-! The media player and the wake-word detector.

Messages are handled in threads of the server, any number at a time; each playback has a detached thread of
its own. What they share is the state of the detector, one flag that says that the wake word is suspended,
whether audio is streamed to Home Assistant, and whether, what and how something is played.

A locked section is one step, and so is each look at the flag and each write to it, which no lock protects.
`pthread_create`, `popen` and the UDP socket may fail, and the wait for a playback may time out. The word
model is there, and the program is not about to shut down. -/
namespace Thingino.Esphome
open Lib

abbrev Url := List Byte

/-- `wake_word_state_t`. -/
inductive Detector
  | stopped
  | starting
  | detecting
  | stopping
deriving DecidableEq

/-- `media_player_state_t`, as far as it is used. -/
inductive PlayerState
  | idle
  | playing
  | paused
deriving DecidableEq

/-- The commands of the player that touch its state. -/
inductive Command
  | play
  | pause
  | stop
deriving DecidableEq

/-- The pipeline events that are not just logged. -/
inductive PipelineEvent
  | error
  | runEnd
  | sttEnd
  | ttsEnd (url : Option Url)
  | other
deriving DecidableEq

/-- `respond` is a `VoiceAssistantResponse`, with an error or with the way the audio is to go; `media` may
have a url and a command, and an announcement is one with a url. -/
inductive Message
  | switch (on : Bool)
  | subscribe
  | media (url : Option Url) (command : Option Command)
  | respond (udp : Option Bool)
  | event (e : PipelineEvent)
deriving DecidableEq

/-- The steps of a thread. `testSuspend` to `flag` are `suspend_wake_word`, `testResume` to `abort` are
`resume_wake_word` and `wake_word_start`; `popen` to `finish` are the playback thread, `stopCurrent` to
`inactive` are `download_and_stream_audio`, `wait` to `connect` start a stream and `streamOff` stops it.
`returned` and `ended` are for the record: a switch-off has been handled, or the end of a pipeline. -/
inductive Op
  | testSuspend
  | stop
  | stopped
  | flag
  | testResume
  | unflag
  | start
  | create
  | detect
  | abort
  | subscribe
  | switchOn
  | switchOff
  | returned (turn : Nat)
  | popen
  | playing
  | failed
  | finish
  | stopCurrent
  | begin (url : Url)
  | spawn (url : Url)
  | inactive
  | setState (state : PlayerState)
  | wait (udp : Bool)
  | openStream (udp : Bool)
  | connect (udp : Bool)
  | streamOff (resume : Bool)
  | ended
deriving DecidableEq

/-- The shared state. The last five fields are for the record: how many switch-ons and subscriptions there
have been, whether a switch-off has come after them and whether it has been handled, whether the last
pipeline event was a `RUN_END` or an `ERROR`, and the playback thread that was started last, unless it has
been stopped. -/
structure Player where
  detector : Detector
  suspended : Bool
  streaming : Bool
  playbackActive : Bool
  currentUrl : Option Url
  state : PlayerState
  turn : Nat
  off : Bool
  userOff : Bool
  ended : Bool
  newest : Option Nat

/-- A playback thread has its url, a handler has none. -/
abbrev Threads := Pool Player (Option Url) Op

abbrev Result := Outcome Player (Option Url) Op

/-- `audio_streaming_thread`. -/
def audioStreamingThread (url : Url) : Thread (Option Url) Op := ⟨some url, [.testSuspend, .popen, .testResume]⟩

/-- `download_and_stream_audio`. -/
def download (url : Url) : List Op := [.stopCurrent, .begin url, .spawn url]

def commandOps : Command → List Op
  | .play => [.setState .playing]
  | .pause => [.setState .paused]
  | .stop => [.stopCurrent]

def eventOps : PipelineEvent → List Op
  | .error | .runEnd => [.streamOff true, .ended]
  | .sttEnd => [.streamOff false]
  | .ttsEnd (some url) => download url
  | .ttsEnd none | .other => []

/-- `media_player_handle_message`. -/
def handleMessage : Message → List Op
  | .switch true => [.switchOn]
  | .switch false => [.switchOff]
  | .subscribe => [.subscribe]
  | .media url command => (url.map download).getD [] ++ (command.map commandOps).getD []
  | .respond none => [.streamOff true]
  | .respond (some udp) => [.wait udp]
  | .event e => eventOps e

namespace Player

def goOn (s : Player) (more : List Op) : Option Result := some ⟨s, more, []⟩

/-- One step of a thread; `fresh` is the number that the next new thread gets. -/
def exec (fresh : Nat) (op : Op) (s : Player) : Option Result :=
  match op with
  | .testSuspend => goOn s (if s.detector = .detecting then [.stop, .flag] else [])
  | .stop => if s.detector = .detecting then goOn { s with detector := .stopping } [.stopped] else goOn s []
  | .stopped => goOn { s with detector := .stopped } []
  | .flag => goOn { s with suspended := true } []
  | .testResume => goOn s (if s.suspended then [.unflag] else [])
  | .unflag => goOn { s with suspended := false } [.start]
  | .start => if s.detector = .stopped then goOn { s with detector := .starting } [.create] else goOn s []
  | .create => goOn s [.detect]
  | .detect => goOn { s with detector := .detecting } []
  | .abort => goOn { s with detector := .stopped } []
  | .subscribe =>
    goOn { s with turn := s.turn + 1, off := false, userOff := false } (if s.detector = .stopped then [.start] else [])
  | .switchOn =>
    goOn { s with turn := s.turn + 1, off := false, userOff := false } (if s.suspended then [.testResume] else [])
  | .switchOff =>
    goOn { s with off := true } (if s.suspended then [.returned s.turn] else [.testSuspend, .returned s.turn])
  | .returned turn => goOn { s with userOff := s.userOff || turn = s.turn } []
  | .popen => goOn s [.playing, .finish]
  | .playing => goOn { s with state := .playing } []
  | .failed => goOn { s with state := .idle, playbackActive := false } []
  | .finish => goOn { s with state := .idle, playbackActive := false, currentUrl := none } []
  | .stopCurrent =>
    goOn
      (if s.playbackActive then { s with playbackActive := false, state := .idle, newest := none }
        else { s with newest := none }) []
  | .begin url => goOn { s with playbackActive := true, currentUrl := some url } []
  | .spawn url => some ⟨{ s with newest := some fresh }, [], [audioStreamingThread url]⟩
  | .inactive => goOn { s with playbackActive := false } []
  | .setState state => goOn { s with state } []
  | .wait udp => if s.playbackActive then none else goOn s [.openStream udp]
  | .openStream udp =>
    if s.streaming then goOn s [.streamOff true, .connect udp] else goOn { s with streaming := true } [.testSuspend]
  | .connect _ => goOn { s with streaming := true } [.testSuspend]
  | .streamOff resume =>
    if s.streaming then goOn { s with streaming := false } (if resume then [.testResume] else []) else goOn s []
  | .ended => goOn { s with ended := true } []

/-- The step does not succeed: `pthread_create` or `popen` fails, the playback goes on for too long, or there
is no socket. -/
def fail (_ : Nat) (op : Op) (s : Player) : Option Result :=
  match op with
  | .create => goOn s [.abort]
  | .popen => goOn s [.failed]
  | .spawn _ => goOn s [.inactive]
  | .wait _ => if s.playbackActive then goOn s [] else none
  | .openStream true => if s.streaming then none else goOn s []
  | .connect true => goOn s []
  | _ => none

/-- A message comes in. -/
def receive (s : Player) : Message → Player
  | .event _ => { s with ended := false }
  | _ => s

end Player

inductive PlayerEvent
  | message (m : Message)
  | run (t : Nat)
  | fail (t : Nat)

def step (s : Threads) : PlayerEvent → Option Threads
  | .message m => some ({ s with shared := s.shared.receive m }.fork ⟨none, handleMessage m⟩)
  | .run t => s.run Player.exec t
  | .fail t => s.run Player.fail t

/-- The player as it is set up, with the detector running or not yet started. -/
def startPlayer (detector : Detector) : Threads :=
  ⟨⟨detector, false, false, false, none, .idle, 0, false, false, false, none⟩, []⟩

/-- The next operation of a thread. -/
def nextOp (s : Threads) (t : Nat) : Option Op := (s.threads[t]?).bind fun th => th.ops.head?

/-- Some steps of one thread. -/
def runs (t n : Nat) : List PlayerEvent := List.replicate n (.run t)

/-- A handler that has something to do. -/
def busy (th : Thread (Option Url) Op) : Bool := th.kind.isNone && !th.ops.isEmpty

/-- Messages are handled one after the other. -/
def serial (s : Threads) : PlayerEvent → Bool
  | .message _ => s.threads.all fun th => !busy th
  | _ => true

/-! ### One handler at a time -/

variable {s s' : Threads} {t : Nat} {kind : Option Url} {op : Op} {rest : List Op} {o : Result}

theorem nextOp_eq (hthread : s.threads[t]? = some ⟨kind, op :: rest⟩) : nextOp s t = some op := by
  rw [nextOp, hthread]
  rfl

theorem exec_forked {fresh : Nat} {s : Player} (h : Player.exec fresh op s = some o) :
    ∀ th ∈ o.forked, ∃ url, th = audioStreamingThread url := by
  cases op <;> simp only [Player.exec, Player.goOn] at h <;> grind

theorem fail_forked {fresh : Nat} {s : Player} (h : Player.fail fresh op s = some o) : o.shared = s ∧ o.forked = [] := by
  cases op <;> simp only [Player.fail, Player.goOn] at h <;> grind

def Alone (s : Threads) : Prop :=
  ∀ (i j : Nat) th th', s.threads[i]? = some th → s.threads[j]? = some th' → busy th = true → busy th' = true → i = j

theorem alone_run {player : Player} {more : List Op} {forked : List (Thread (Option Url) Op)} (h : Alone s)
    (hthread : s.threads[t]? = some ⟨kind, op :: rest⟩) (hforked : ∀ th ∈ forked, ∃ url, th = audioStreamingThread url) :
    Alone ⟨player, s.threads.set t ⟨kind, more ++ rest⟩ ++ forked⟩ := by
  -- a thread that is busy now was busy before, at the same place
  have hwas : ∀ (i : Nat) th, (s.threads.set t ⟨kind, more ++ rest⟩ ++ forked)[i]? = some th → busy th = true →
      ∃ old, s.threads[i]? = some old ∧ busy old = true := by
    intro i th hth hbusy
    obtain ⟨rfl, rfl⟩ | ⟨-, hth⟩ | hth := Pool.getElem?_run hth
    · refine ⟨_, hthread, ?_⟩
      simp only [busy, Bool.and_eq_true] at hbusy ⊢
      exact ⟨hbusy.1, rfl⟩
    · exact ⟨th, hth, hbusy⟩
    · obtain ⟨url, rfl⟩ := hforked th hth
      cases hbusy
  intro i j th th' hth hth' hbusy hbusy'
  obtain ⟨old, hold, hwas₁⟩ := hwas i th hth hbusy
  obtain ⟨old', hold', hwas₂⟩ := hwas j th' hth' hbusy'
  exact h i j old old' hold hold' hwas₁ hwas₂

theorem alone_step {e : PlayerEvent} (h : Alone s) (hserial : serial s e = true) (hstep : step s e = some s') :
    Alone s' := by
  cases e with
  | message m =>
    cases hstep
    have hnone : ∀ th ∈ s.threads, busy th = false := by simpa [serial] using hserial
    have hlast : ∀ (i : Nat) th, (s.threads ++ [⟨none, handleMessage m⟩])[i]? = some th → busy th = true → i = s.threads.length := by
      intro i th hth hbusy
      rw [List.getElem?_append] at hth
      split at hth
      · rw [hnone th (List.mem_of_getElem? hth)] at hbusy
        cases hbusy
      · obtain ⟨hlt, -⟩ := List.getElem?_eq_some_iff.mp hth
        rw [List.length_singleton] at hlt
        omega
    exact fun i j th th' hth hth' hbusy hbusy' => (hlast i th hth hbusy).trans (hlast j th' hth' hbusy').symm
  | run t =>
    obtain ⟨kind, op, rest, o, hthread, ho, rfl⟩ := Pool.run_eq_some hstep
    exact alone_run h hthread (exec_forked ho)
  | fail t =>
    obtain ⟨kind, op, rest, o, hthread, ho, rfl⟩ := Pool.run_eq_some hstep
    refine alone_run h hthread fun th hth => ?_
    rw [(fail_forked ho).2] at hth
    cases hth

/-- While one handler has something to do, the others have not. -/
theorem ops_of_alone (h : Alone s) (hthread : s.threads[t]? = some ⟨none, op :: rest⟩) {i : Nat}
    {th : Thread (Option Url) Op} (hth : s.threads[i]? = some th) (hne : i ≠ t) (hkind : th.kind = none) : th.ops = [] := by
  cases hops : th.ops with
  | nil => rfl
  | cons op' rest' =>
    exact absurd (h i t th _ hth hthread (by rw [busy, hkind, hops]; rfl) rfl) hne

/-- When another handler has something to do, the thread that runs is a playback. -/
theorem isSome_of_alone (h : Alone s) (hthread : s.threads[t]? = some ⟨kind, op :: rest⟩) {th : Thread (Option Url) Op}
    {i : Nat} (hth : s.threads[i]? = some th) (hne : i ≠ t) (hkind : th.kind = none) (hops : th.ops ≠ []) :
    kind.isSome = true := by
  cases kind with
  | none => exact absurd (ops_of_alone h hthread hth hne hkind) hops
  | some url => rfl

theorem alone_start (detector : Detector) : Alone (startPlayer detector) := by
  intro i j th th' hth
  cases hth

end Thingino.Esphome
