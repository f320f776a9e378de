import Thingino.Lib.EventStream
import Thingino.Lib.Shell
import Mathlib.Data.List.Chain

/-! The event stream of the agent: `thingino_agent_adapter_prudynt_get_events`.

The loop takes a sample every two seconds, compares it with the one before and writes what has changed: some changes
as events of their own, and all of them as paths to be read again. When nothing changes, a third silent turn in a row
writes a `keepalive`.

A client that reads the paths again is up to date after each turn, except that a partial upgrade that is prepared or
withdrawn while a full one is pending is not among them. -/
namespace Thingino.Agent.Events
open Lib Lib.Shell

/-! ### What is sampled -/

/-- `thingino_agent_prudynt_recording_active_value`: the first word `key=value` of the first line. A word without `=`
is its own value. -/
def recordingActiveValue (content key : List Byte) : List Byte :=
  let line := (content.takeWhile (· ≠ 10)).map fun b => if b = 13 then 32 else b
  match (line.splitOn 32).find? (·.takeWhile (· ≠ 61) = key) with
  | some word => if word.contains 61 then (word.dropWhile (· ≠ 61)).tail else word
  | none => []

/-- The file `/run/prudynt/mp4ctl-chSTEM.active`, and what it held at each of the three looks into it. -/
structure ActiveFile where
  stem : List Byte
  atChannel : List Byte
  atDuration : List Byte
  atPath : List Byte

/-- The `sed` of `thingino_agent_prudynt_recording_active_channel`: the digits in front of `.active`, and what stands
behind that. -/
def stemChannel (stem : List Byte) : List Byte :=
  let digits := stem.takeWhile isDigit
  let rest := stem.dropWhile isDigit ++ ascii ".active"
  if digits ≠ [] ∧ ascii ".active" <+: rest then digits ++ rest.drop 7 else []

def ActiveFile.channel (f : ActiveFile) : List Byte :=
  let found := recordingActiveValue f.atChannel (ascii "ch")
  if found ≠ [] then found else stemChannel f.stem

def ActiveFile.duration (f : ActiveFile) : List Byte := recordingActiveValue f.atDuration (ascii "dur")

def ActiveFile.path (f : ActiveFile) : List Byte := recordingActiveValue f.atPath (ascii "path")

structure Sample where
  motionActive : Bool
  streamerRunning : Bool
  healthOk : Bool
  pendingFull : Bool
  pendingPartial : Bool
  stream0Recording : Bool
  stream1Recording : Bool
  stream0Healthy : Bool
  stream1Healthy : Bool
  active : Option ActiveFile

inductive Action
  | none
  | full
  | partly
  deriving DecidableEq

/-- `thingino_agent_prudynt_firmware_pending_action`. -/
def Sample.firmwareAction (s : Sample) : Action :=
  if s.pendingFull then .full else if s.pendingPartial then .partly else .none

def Action.text : Action → List Byte
  | .none => ascii "none"
  | .full => ascii "full"
  | .partly => ascii "partial"

def Sample.channel (s : Sample) : List Byte := s.active.elim [] ActiveFile.channel
def Sample.duration (s : Sample) : List Byte := s.active.elim [] ActiveFile.duration
def Sample.path (s : Sample) : List Byte := s.active.elim [] ActiveFile.path

/-! ### What is written -/

/-- The parts of the state that a client may read. -/
inductive Path
  | motionActive
  | streamerRunning
  | streamingRunning
  | streamingHealthy
  | stream0Recording
  | stream1Recording
  | stream0Healthy
  | stream1Healthy
  | recordingActive
  | currentChannel
  | currentDuration
  | currentPath
  | pendingAction
  | pendingFull
  | pendingPartial
  deriving DecidableEq

def Path.text : Path → List Byte
  | .motionActive => ascii "motion.active"
  | .streamerRunning => ascii "system.streamer_running"
  | .streamingRunning => ascii "services.streaming.running"
  | .streamingHealthy => ascii "services.streaming.healthy"
  | .stream0Recording => ascii "streams.0.recording_active"
  | .stream1Recording => ascii "streams.1.recording_active"
  | .stream0Healthy => ascii "streams.0.healthy"
  | .stream1Healthy => ascii "streams.1.healthy"
  | .recordingActive => ascii "recording.active"
  | .currentChannel => ascii "recording.current_channel"
  | .currentDuration => ascii "recording.current_duration_seconds"
  | .currentPath => ascii "recording.current_path"
  | .pendingAction => ascii "firmware.pending_action"
  | .pendingFull => ascii "firmware.pending_full"
  | .pendingPartial => ascii "firmware.pending_partial"

def bool (b : Bool) : List Byte := if b then ascii "true" else ascii "false"

/-- What the paths stand for. -/
def Sample.value (s : Sample) : Path → List Byte
  | .motionActive => bool s.motionActive
  | .streamerRunning | .streamingRunning | .streamingHealthy => bool s.streamerRunning
  | .stream0Recording => bool s.stream0Recording
  | .stream1Recording => bool s.stream1Recording
  | .stream0Healthy => bool s.stream0Healthy
  | .stream1Healthy => bool s.stream1Healthy
  | .recordingActive => bool s.active.isSome
  | .currentChannel => s.channel
  | .currentDuration => s.duration
  | .currentPath => s.path
  | .pendingAction => s.firmwareAction.text
  | .pendingFull => bool s.pendingFull
  | .pendingPartial => bool s.pendingPartial

inductive Notice
  | hello
  | motion (active : Bool)
  | streamerRestarted
  | recordCompleted (channel path duration : List Byte)
  | firmwareProgress (action : Action)
  | healthWarning (online running : Bool)
  | stateChanged (paths : List Path)
  | keepalive
  deriving DecidableEq

def changedRecording (last current : Sample) : List Path :=
  if current.active.isSome ≠ last.active.isSome then
    [.recordingActive, .currentChannel, .currentDuration, .currentPath]
  else
    (if current.channel ≠ last.channel then [Path.currentChannel] else []) ++
      (if current.duration ≠ last.duration then [Path.currentDuration] else []) ++
        if current.path ≠ last.path then [Path.currentPath] else []

/-- `changed_paths` at the end of a turn. -/
def changedPaths (last current : Sample) : List Path :=
  (if current.motionActive ≠ last.motionActive then [Path.motionActive] else []) ++
    (if current.streamerRunning ≠ last.streamerRunning then [Path.streamerRunning, .streamingRunning, .streamingHealthy]
      else []) ++
    (if current.stream0Recording ≠ last.stream0Recording then [Path.stream0Recording] else []) ++
    (if current.stream1Recording ≠ last.stream1Recording then [Path.stream1Recording] else []) ++
    (if current.stream0Healthy ≠ last.stream0Healthy then [Path.stream0Healthy] else []) ++
    (if current.stream1Healthy ≠ last.stream1Healthy then [Path.stream1Healthy] else []) ++
    changedRecording last current ++
    if current.firmwareAction ≠ last.firmwareAction then [Path.pendingAction, .pendingFull, .pendingPartial] else []

/-- The events of a turn before the paths. `online` is what another look at the network gave. -/
def changes (last current : Sample) (online : Bool) : List Notice :=
  (if current.motionActive ≠ last.motionActive then [Notice.motion current.motionActive] else []) ++
    (if !last.streamerRunning && current.streamerRunning then [Notice.streamerRestarted] else []) ++
    (if last.active.isSome && !current.active.isSome then [Notice.recordCompleted last.channel last.path last.duration]
      else []) ++
    (if current.firmwareAction ≠ last.firmwareAction then [Notice.firmwareProgress current.firmwareAction] else []) ++
    if last.healthOk && !current.healthOk then [Notice.healthWarning online current.streamerRunning] else []

/-- A turn, and the keepalive counter behind it. -/
def turn (last current : Sample) (online : Bool) (counter : Nat) : List Notice × Nat :=
  if changedPaths last current ≠ [] then
    (changes last current online ++ [.stateChanged (changedPaths last current)], 0)
  else if 3 ≤ counter + 1 then (changes last current online ++ [.keepalive], 0)
  else (changes last current online, counter + 1)

/-- The turns for some samples behind the first. -/
def turns (last : Sample) (counter : Nat) : List (Sample × Bool) → List (List Notice)
  | [] => []
  | (current, online) :: rest =>
    let (notices, counter) := turn last current online counter
    notices :: turns current counter rest

/-- `thingino_agent_adapter_prudynt_get_events`, as long as the samples last. -/
def getEvents (first : Sample) (samples : List (Sample × Bool)) : List Notice :=
  .hello :: (turns first 0 samples).flatten

/-! ### A client that reads again -/

section Client
variable {first last current : Sample} {samples : List (Sample × Bool)} {view : Path → List Byte} {counter : Nat}

/-- What a client has when it reads the announced paths again. -/
def refresh (view : Path → List Byte) (current : Sample) : List Notice → Path → List Byte
  | [] => view
  | .stateChanged paths :: rest => refresh (fun p => if p ∈ paths then current.value p else view p) current rest
  | _ :: rest => refresh view current rest

def follow (view : Path → List Byte) (last : Sample) (counter : Nat) : List (Sample × Bool) → Path → List Byte
  | [] => view
  | (current, online) :: rest =>
    let (notices, counter) := turn last current online counter
    follow (refresh view current notices) current counter rest

def latest (first : Sample) (samples : List (Sample × Bool)) : Sample := (samples.getLast?.map Prod.fst).getD first

theorem bool_inj {a b : Bool} : bool a = bool b ↔ a = b := by
  cases a <;> cases b <;> decide

theorem firmwareAction_eq_full : current.firmwareAction = .full ↔ current.pendingFull = true := by
  unfold Sample.firmwareAction
  split
  · rename_i h
    exact iff_of_true rfl h
  · rename_i h
    refine iff_of_false ?_ h
    split <;> nofun

/-- Without a full upgrade the action tells whether a partial one is pending. -/
theorem firmwareAction_eq_partly (h : current.pendingFull = false) :
    current.firmwareAction = .partly ↔ current.pendingPartial = true := by
  rw [Sample.firmwareAction, h, if_neg Bool.false_ne_true]
  split
  · rename_i hpending
    exact iff_of_true rfl hpending
  · rename_i hpending
    exact iff_of_false nofun hpending

theorem mem_of_action {p : Path} (hp : p = .pendingAction ∨ p = .pendingFull ∨ p = .pendingPartial)
    (hne : current.firmwareAction ≠ last.firmwareAction) : p ∈ changedPaths last current := by
  unfold changedPaths
  rw [if_pos hne]
  refine List.mem_append_right _ ?_
  obtain rfl | rfl | rfl := hp <;> decide

/-- What has changed is announced, but for a partial upgrade beside a full one. -/
theorem mem_changedPaths {p : Path} (h : current.value p ≠ last.value p)
    (hshadowed : p = .pendingPartial → current.pendingFull = true → last.pendingFull = false) :
    p ∈ changedPaths last current := by
  have hrecording : p ∈ changedRecording last current → p ∈ changedPaths last current := fun hp =>
    List.mem_append_left _ (List.mem_append_right _ hp)
  cases p with
  | pendingAction => exact mem_of_action (.inl rfl) fun heq => h (congrArg Action.text heq)
  | pendingFull =>
    refine mem_of_action (.inr (.inl rfl)) fun heq => h (bool_inj.mpr ?_)
    rw [Bool.eq_iff_iff, ← firmwareAction_eq_full, ← firmwareAction_eq_full, heq]
  | pendingPartial =>
    refine mem_of_action (.inr (.inr rfl)) fun heq => h (bool_inj.mpr ?_)
    have hfull : current.pendingFull = last.pendingFull := by
      rw [Bool.eq_iff_iff, ← firmwareAction_eq_full, ← firmwareAction_eq_full, heq]
    have hnone : current.pendingFull = false := by
      by_contra hcurrent
      rw [Bool.not_eq_false] at hcurrent
      have hlast := hshadowed rfl hcurrent
      rw [← hfull, hcurrent] at hlast
      cases hlast
    rw [Bool.eq_iff_iff, ← firmwareAction_eq_partly hnone, ← firmwareAction_eq_partly (hfull ▸ hnone), heq]
  | recordingActive =>
    refine hrecording ?_
    have hne : current.active.isSome ≠ last.active.isSome := fun heq => h (bool_inj.mpr heq)
    rw [changedRecording, if_pos hne]
    decide
  | currentChannel =>
    refine hrecording ?_
    have hne : current.channel ≠ last.channel := h
    unfold changedRecording
    split
    · decide
    · simp
  | currentDuration =>
    refine hrecording ?_
    have hne : current.duration ≠ last.duration := h
    unfold changedRecording
    split
    · decide
    · simp
  | currentPath =>
    refine hrecording ?_
    have hne : current.path ≠ last.path := h
    unfold changedRecording
    split
    · decide
    · simp
  | motionActive | streamerRunning | streamingRunning | streamingHealthy | stream0Recording | stream1Recording
  | stream0Healthy | stream1Healthy =>
    rw [Sample.value, Sample.value, ne_eq, bool_inj] at h
    simp [changedPaths, h]

/-- The events of a turn besides the paths are not read again. -/
theorem refresh_changes (view : Path → List Byte) (online : Bool) (rest : List Notice) :
    refresh view current (changes last current online ++ rest) = refresh view current rest := by
  have hskip : ∀ notices : List Notice, (∀ paths, .stateChanged paths ∉ notices) →
      refresh view current (notices ++ rest) = refresh view current rest := by
    intro notices hnone
    induction notices with
    | nil => rfl
    | cons n notices ih =>
      have hrest := ih fun paths h => hnone paths (List.mem_cons_of_mem n h)
      cases n with
      | stateChanged paths => exact absurd List.mem_cons_self (hnone paths)
      | _ => exact hrest
  refine hskip _ fun paths h => ?_
  unfold changes at h
  simp only [List.mem_append] at h
  obtain (((h | h) | h) | h) | h := h <;> split at h <;> simp at h

theorem refresh_turn (view : Path → List Byte) (online : Bool) (p : Path) :
    refresh view current (turn last current online counter).1 p =
      if p ∈ changedPaths last current then current.value p else view p := by
  unfold turn
  split
  · rw [refresh_changes]
    rfl
  · rename_i hnone
    rw [not_not.mp hnone, if_neg List.not_mem_nil]
    split
    · rw [refresh_changes]
      rfl
    · have hskip := @refresh_changes last current view online []
      rw [List.append_nil] at hskip
      rw [hskip]
      rfl

/-- What the client has is so; what it has of a partial upgrade is so unless a full one is pending. -/
def UpToDate (view : Path → List Byte) (s : Sample) : Prop :=
  ∀ p, (p = .pendingPartial → s.pendingFull = false) → view p = s.value p

theorem upToDate_turn (h : UpToDate view last) (online : Bool) :
    UpToDate (refresh view current (turn last current online counter).1) current := by
  intro p hp
  rw [refresh_turn]
  split
  · rfl
  · rename_i hmem
    by_cases hlast : p = .pendingPartial ∧ last.pendingFull = true
    · -- the full upgrade is gone, which is a change of all three
      obtain ⟨rfl, hfull⟩ := hlast
      refine absurd (mem_of_action (.inr (.inr rfl)) fun heq => ?_) hmem
      rw [firmwareAction_eq_full.mpr hfull, firmwareAction_eq_full, hp rfl] at heq
      cases heq
    · have hview := h p fun heq => by simpa [heq] using hlast
      rw [hview]
      by_contra hne
      exact hmem (mem_changedPaths (fun heq => hne heq.symm) fun heq hfull => absurd (hp heq) (by simp [hfull]))

theorem latest_cons (last current : Sample) (online : Bool) (rest : List (Sample × Bool)) :
    latest last ((current, online) :: rest) = latest current rest := by
  rw [latest, latest, List.getLast?_cons]
  cases rest.getLast? <;> rfl

theorem upToDate_follow (h : UpToDate view last) : UpToDate (follow view last counter samples) (latest last samples) := by
  induction samples generalizing view last counter with
  | nil => exact h
  | cons sample rest ih =>
    obtain ⟨current, online⟩ := sample
    rw [latest_cons]
    exact ih (upToDate_turn h online)

/-! ### Motion -/

def Notice.motion? : Notice → Option Bool
  | .motion active => some active
  | _ => none

def motions (notices : List Notice) : List Bool := notices.filterMap Notice.motion?

theorem motions_turn (online : Bool) :
    motions (turn last current online counter).1 =
      if current.motionActive ≠ last.motionActive then [current.motionActive] else [] := by
  have hchanges : motions (changes last current online) =
      if current.motionActive ≠ last.motionActive then [current.motionActive] else [] := by
    unfold motions changes
    simp only [List.filterMap_append]
    split <;> split <;> split <;> split <;> split <;> rfl
  have hlast : ∀ n : Notice, n.motion? = none →
      motions (changes last current online ++ [n]) = motions (changes last current online) := by
    intro n hn
    rw [motions, List.filterMap_append, List.filterMap_cons_none hn, List.filterMap_nil, List.append_nil]
    rfl
  unfold turn
  split
  · exact (hlast _ rfl).trans hchanges
  · split
    · exact (hlast _ rfl).trans hchanges
    · exact hchanges

/-- Started and stopped take turns, and the last one tells what is so. -/
theorem motions_turns (last : Sample) (counter : Nat) (samples : List (Sample × Bool)) :
    (last.motionActive :: motions (turns last counter samples).flatten).IsChain (· ≠ ·) ∧
      (last.motionActive :: motions (turns last counter samples).flatten).getLast? =
        some (latest last samples).motionActive := by
  induction samples generalizing last counter with
  | nil => exact ⟨.singleton _, rfl⟩
  | cons sample rest ih =>
    obtain ⟨current, online⟩ := sample
    obtain ⟨hchain, hend⟩ := ih current (turn last current online counter).2
    have hcons : motions (turns last counter ((current, online) :: rest)).flatten =
        (if current.motionActive ≠ last.motionActive then [current.motionActive] else []) ++
          motions (turns current (turn last current online counter).2 rest).flatten := by
      rw [turns, List.flatten_cons, motions, List.filterMap_append]
      exact congrArg (· ++ _) (motions_turn online)
    rw [hcons, latest_cons]
    split
    · rename_i hne
      refine ⟨.cons_cons (Ne.symm hne) hchain, ?_⟩
      rw [List.singleton_append, List.getLast?_cons_cons]
      exact hend
    · rename_i heq
      rw [not_not.mp heq] at hchain hend
      exact ⟨hchain, hend⟩

/-! ### Silence -/

/-- A turn from which a client that only listens knows that the agent is there. -/
def Notice.speaks : Notice → Bool
  | .stateChanged _ | .keepalive => true
  | _ => false

/-- A turn is silent at most twice in a row: then the counter has come to 3. -/
theorem turn_speaks (online : Bool) :
    (turn last current online counter).1.any Notice.speaks = true ∨
      counter < 2 ∧ (turn last current online counter).2 = counter + 1 := by
  unfold turn
  split
  · exact .inl (by simp [Notice.speaks])
  · split
    · exact .inl (by simp [Notice.speaks])
    · exact .inr ⟨by omega, rfl⟩

theorem turn_counter_le (h : counter ≤ 2) (online : Bool) : (turn last current online counter).2 ≤ 2 := by
  unfold turn
  split
  · exact Nat.zero_le 2
  · split
    · exact Nat.zero_le 2
    · change counter + 1 ≤ 2
      omega

/-- The turns behind some others are those of a loop, with another counter. -/
theorem turns_split {before after : List (List Notice)} (h : turns last counter samples = before ++ after)
    (hcounter : counter ≤ 2) :
    ∃ last' counter' samples', counter' ≤ 2 ∧ after = turns last' counter' samples' := by
  induction before generalizing last counter samples with
  | nil => exact ⟨last, counter, samples, hcounter, h.symm⟩
  | cons a before ih =>
    cases samples with
    | nil => cases h
    | cons sample rest =>
      obtain ⟨current, online⟩ := sample
      exact ih (List.cons.inj h).2 (turn_counter_le hcounter online)

theorem turns_cons (online : Bool) :
    turns last counter ((current, online) :: samples) =
      (turn last current online counter).1 :: turns current (turn last current online counter).2 samples :=
  rfl

theorem speaks_of_three {a b c : List Notice} {before after : List (List Notice)}
    (h : turns first 0 samples = before ++ a :: b :: c :: after) :
    a.any Notice.speaks = true ∨ b.any Notice.speaks = true ∨ c.any Notice.speaks = true := by
  obtain ⟨last, counter, rest, -, heq⟩ := turns_split h (Nat.zero_le 2)
  match rest, heq with
  | (current, online) :: (current', online') :: (current'', online'') :: rest, heq =>
    rw [turns_cons, turns_cons, turns_cons] at heq
    obtain ⟨ha, htail⟩ := List.cons.inj heq
    obtain ⟨hb, htail⟩ := List.cons.inj htail
    obtain ⟨hc, -⟩ := List.cons.inj htail
    rw [ha, hb, hc]
    obtain hfirst | ⟨hlt, hcounter⟩ := @turn_speaks last current counter online
    · exact .inl hfirst
    rw [hcounter]
    obtain hsecond | ⟨hlt', hcounter'⟩ := @turn_speaks current current' (counter + 1) online'
    · exact .inr (.inl hsecond)
    rw [hcounter']
    obtain hthird | ⟨hlt'', -⟩ := @turn_speaks current' current'' (counter + 1 + 1) online''
    · exact .inr (.inr hthird)
    · omega

/-! ### What is announced -/

/-- The path whose change announces a path. -/
def Path.lead : Path → Path
  | .streamingRunning | .streamingHealthy => .streamerRunning
  | .pendingFull | .pendingPartial => .pendingAction
  | p => p

theorem text_inj {a b : Action} : a.text = b.text ↔ a = b := by
  cases a <;> cases b <;> decide

/-- An announced path has changed, or what it is announced with has. -/
theorem changed_of_mem {p : Path} (h : p ∈ changedPaths last current) :
    current.value p.lead ≠ last.value p.lead ∨
      p ∈ [Path.currentChannel, .currentDuration, .currentPath] ∧
        current.value .recordingActive ≠ last.value .recordingActive := by
  unfold changedPaths changedRecording at h
  simp only [List.mem_append] at h
  obtain ((((((h | h) | h) | h) | h) | h) | h) | h := h
  · split at h
    · rename_i hne
      obtain rfl := List.mem_singleton.mp h
      exact .inl fun heq => hne (bool_inj.mp heq)
    · cases h
  · split at h
    · rename_i hne
      have hlead : p.lead = .streamerRunning := by
        simp only [List.mem_cons, List.not_mem_nil, or_false] at h
        obtain rfl | rfl | rfl := h <;> rfl
      rw [hlead]
      exact .inl fun heq => hne (bool_inj.mp heq)
    · cases h
  · split at h
    · rename_i hne
      obtain rfl := List.mem_singleton.mp h
      exact .inl fun heq => hne (bool_inj.mp heq)
    · cases h
  · split at h
    · rename_i hne
      obtain rfl := List.mem_singleton.mp h
      exact .inl fun heq => hne (bool_inj.mp heq)
    · cases h
  · split at h
    · rename_i hne
      obtain rfl := List.mem_singleton.mp h
      exact .inl fun heq => hne (bool_inj.mp heq)
    · cases h
  · split at h
    · rename_i hne
      obtain rfl := List.mem_singleton.mp h
      exact .inl fun heq => hne (bool_inj.mp heq)
    · cases h
  · split at h
    · rename_i hne
      have hactive : current.value .recordingActive ≠ last.value .recordingActive := fun heq => hne (bool_inj.mp heq)
      obtain rfl | h := List.mem_cons.mp h
      · exact .inl hactive
      · exact .inr ⟨h, hactive⟩
    · simp only [List.mem_append] at h
      obtain (h | h) | h := h <;> split at h
      all_goals first
        | rename_i hne
          obtain rfl := List.mem_singleton.mp h
          exact .inl hne
        | cases h
  · split at h
    · rename_i hne
      have hlead : p.lead = .pendingAction := by
        simp only [List.mem_cons, List.not_mem_nil, or_false] at h
        obtain rfl | rfl | rfl := h <;> rfl
      rw [hlead]
      exact .inl fun heq => hne (text_inj.mp heq)
    · cases h

/-- An event of the loop is one of a turn between two samples in a row. -/
theorem exists_turn {n : Notice} (h : n ∈ (turns last counter samples).flatten) :
    ∃ before after online counter, [before, after] <:+: last :: samples.map Prod.fst ∧
      n ∈ (turn before after online counter).1 := by
  induction samples generalizing last counter with
  | nil => cases h
  | cons sample rest ih =>
    obtain ⟨current, online⟩ := sample
    rw [turns_cons, List.flatten_cons] at h
    obtain h | h := List.mem_append.mp h
    · exact ⟨last, current, online, counter, ⟨[], rest.map Prod.fst, rfl⟩, h⟩
    · obtain ⟨before, after, online', counter', hinfix, hn⟩ := ih h
      exact ⟨before, after, online', counter', hinfix.trans (List.suffix_cons _ _).isInfix, hn⟩

theorem mem_turn {n : Notice} {online : Bool} (h : n ∈ (turn last current online counter).1) :
    n ∈ changes last current online ∨ n = .stateChanged (changedPaths last current) ∨ n = .keepalive := by
  unfold turn at h
  split at h
  · exact (List.mem_append.mp h).imp_right fun h => .inl (List.mem_singleton.mp h)
  · split at h
    · exact (List.mem_append.mp h).imp_right fun h => .inr (List.mem_singleton.mp h)
    · exact .inl h

theorem stateChanged_of_mem {paths : List Path} {online : Bool}
    (h : .stateChanged paths ∈ (turn last current online counter).1) : paths = changedPaths last current := by
  obtain h | h | h := mem_turn h
  · unfold changes at h
    simp only [List.mem_append] at h
    obtain (((h | h) | h) | h) | h := h <;> split at h <;> simp at h
  · exact Notice.stateChanged.inj h
  · cases h

theorem recordCompleted_of_mem {channel path duration : List Byte} {online : Bool}
    (h : .recordCompleted channel path duration ∈ (turn last current online counter).1) :
    (∃ f, last.active = some f ∧ f.channel = channel ∧ f.path = path ∧ f.duration = duration) ∧
      current.active = none := by
  obtain h | h | h := mem_turn h
  · unfold changes at h
    simp only [List.mem_append] at h
    obtain (((h | h) | h) | h) | h := h
    on_goal 3 =>
      split at h
      · rename_i hover
        obtain ⟨hlast, hcurrent⟩ := Bool.and_eq_true_iff.mp hover
        obtain ⟨f, hf⟩ := Option.isSome_iff_exists.mp hlast
        have heq := Notice.recordCompleted.inj (List.mem_singleton.mp h)
        refine ⟨⟨f, hf, ?_, ?_, ?_⟩, by simpa using hcurrent⟩
        · rw [heq.1, Sample.channel, hf, Option.elim_some]
        · rw [heq.2.1, Sample.path, hf, Option.elim_some]
        · rw [heq.2.2, Sample.duration, hf, Option.elim_some]
      · cases h
    all_goals split at h <;> simp at h
  · cases h
  · cases h

theorem exists_completed {channel path duration : List Byte}
    (h : .recordCompleted channel path duration ∈ getEvents first samples) :
    ∃ before after f, [before, after] <:+: first :: samples.map Prod.fst ∧ before.active = some f ∧
      f.channel = channel ∧ f.path = path ∧ f.duration = duration ∧ after.active = none := by
  obtain h | h := List.mem_cons.mp h
  · cases h
  obtain ⟨before, after, online, counter, hinfix, hmem⟩ := exists_turn h
  obtain ⟨⟨f, hf, hchannel, hpath, hduration⟩, hnone⟩ := recordCompleted_of_mem hmem
  exact ⟨before, after, f, hinfix, hf, hchannel, hpath, hduration, hnone⟩

/-- **The property** of the events. A client that reads the announced paths again is up to date, and only what has
changed is announced; motion starts and stops in turn; a recording that is completed is the one that the sample before
had; and of three turns one speaks. -/
structure Faithful (first : Sample) (samples : List (Sample × Bool)) : Prop where
  upToDate : UpToDate (follow first.value first 0 samples) (latest first samples)
  announced : ∀ paths, .stateChanged paths ∈ getEvents first samples →
    ∃ before after, [before, after] <:+: first :: samples.map Prod.fst ∧
      ∀ p ∈ paths, after.value p.lead ≠ before.value p.lead ∨
        p ∈ [Path.currentChannel, .currentDuration, .currentPath] ∧
          after.value .recordingActive ≠ before.value .recordingActive
  motion : (first.motionActive :: motions (getEvents first samples)).IsChain (· ≠ ·) ∧
    (first.motionActive :: motions (getEvents first samples)).getLast? = some (latest first samples).motionActive
  completed : ∀ channel path duration, .recordCompleted channel path duration ∈ getEvents first samples →
    ∃ before after f, [before, after] <:+: first :: samples.map Prod.fst ∧ before.active = some f ∧
      f.channel = channel ∧ f.path = path ∧ f.duration = duration ∧ after.active = none
  speaks : ∀ before a b c after, turns first 0 samples = before ++ a :: b :: c :: after →
    a.any Notice.speaks = true ∨ b.any Notice.speaks = true ∨ c.any Notice.speaks = true

theorem getEvents_faithful (first : Sample) (samples : List (Sample × Bool)) : Faithful first samples where
  upToDate := upToDate_follow fun _ _ => rfl
  announced := by
    intro paths h
    obtain h | h := List.mem_cons.mp h
    · cases h
    obtain ⟨before, after, online, counter, hinfix, hmem⟩ := exists_turn h
    refine ⟨before, after, hinfix, fun p hp => ?_⟩
    rw [stateChanged_of_mem hmem] at hp
    exact changed_of_mem hp
  motion := motions_turns first 0 samples
  completed _ _ _ := exists_completed
  speaks _ _ _ _ _ := speaks_of_three

end Client

/-! ### The bytes of the stream -/

/-- The `gsub` calls of `thingino_agent_json_string`. -/
def escapeByte (b : Byte) : List Byte :=
  if b = 92 then [92, 92] else if b = 34 then [92, 34] else if b = 9 then [92, 116] else if b = 13 then [92, 114] else [b]

/-- The records of `awk`: there is none behind the last newline. -/
def records (s : List Byte) : List (List Byte) :=
  if (s.splitOn 10).getLast? = some [] then (s.splitOn 10).dropLast else s.splitOn 10

def jsonString (s : List Byte) : List Byte :=
  [34] ++ [92, 110].intercalate ((records s).map fun record => record.flatMap escapeByte) ++ [34]

def jsonStringOrNull (s : List Byte) : List Byte := if s ≠ [] then jsonString s else ascii "null"

def jsonValueOr (s default : List Byte) : List Byte := if s ≠ [] then s else default

namespace Notice

def type : Notice → List Byte
  | .hello => ascii "hello"
  | .motion active => if active then ascii "motion.started" else ascii "motion.stopped"
  | .streamerRestarted => ascii "streamer.restarted"
  | .recordCompleted .. => ascii "record.completed"
  | .firmwareProgress _ => ascii "firmware.progress"
  | .healthWarning .. => ascii "health.warning"
  | .stateChanged _ => ascii "state.changed"
  | .keepalive => ascii "keepalive"

def fields : Notice → List Byte
  | .hello => ascii "\"backend\":\"prudynt\",\"stream\":\"agent\""
  | .motion active => ascii "\"active\":" ++ bool active
  | .streamerRestarted => ascii "\"service\":\"streaming\""
  | .recordCompleted channel path duration =>
    ascii "\"stream_id\":" ++ jsonValueOr channel (ascii "null") ++ ascii ",\"path\":" ++ jsonStringOrNull path ++
      ascii ",\"duration_seconds\":" ++ jsonValueOr duration (ascii "null")
  | .firmwareProgress action =>
    ascii "\"action\":" ++ jsonString action.text ++ ascii ",\"phase\":" ++
      jsonString (if action = .none then ascii "idle" else ascii "pending")
  | .healthWarning online running =>
    ascii "\"status\":\"degraded\",\"network_online\":" ++ bool online ++ ascii ",\"streamer_running\":" ++ bool running
  | .stateChanged paths =>
    ascii "\"paths\":[" ++ [44].intercalate (paths.map fun p => jsonString p.text) ++ ascii "]"
  | .keepalive => []

/-- `thingino_agent_sse_payload`, at a time as `date` has written it. -/
def payload (n : Notice) (stamp : List Byte) : List Byte :=
  ascii "\x7b\"type\":" ++ jsonString n.type ++ ascii ",\"timestamp\":" ++ jsonString stamp ++
    (if n.fields ≠ [] then 44 :: n.fields else []) ++ ascii "\x7d"

end Notice

/-- The events as they are written, each with its time. -/
def events (stamped : List (Notice × List Byte)) : List (List Byte × List Byte) :=
  stamped.map fun x => (x.1.type, x.1.payload x.2)

def output (stamped : List (Notice × List Byte)) : List Byte :=
  ascii "retry: 3000\n\n" ++ EventStream.blocks (events stamped)

section Stream
variable {first : Sample} {samples : List (Sample × Bool)} {s t : List Byte} {n : Notice}

open EventStream (OneLine Writable)

theorem oneLine_nil : OneLine [] := ⟨List.not_mem_nil, List.not_mem_nil⟩

theorem oneLine_recordingActiveValue (content key : List Byte) : OneLine (recordingActiveValue content key) := by
  have hline : OneLine ((content.takeWhile (· ≠ 10)).map fun b => if b = 13 then (32 : Byte) else b) := by
    constructor
    · intro h
      obtain ⟨b, hb, heq⟩ := List.mem_map.mp h
      have hne : b ≠ 10 := by simpa using List.mem_takeWhile_imp hb
      split at heq
      · cases heq
      · exact hne heq
    · intro h
      obtain ⟨b, -, heq⟩ := List.mem_map.mp h
      split at heq
      · cases heq
      · rename_i hne
        exact hne heq
  unfold recordingActiveValue
  dsimp only
  split
  · rename_i word hword
    have hone : OneLine word := hline.subset fun b hb =>
      Lines.mem_of_mem_splitOn (List.mem_of_find?_eq_some hword) hb
    split
    · exact hone.subset fun b hb => (List.dropWhile_sublist _).subset (List.mem_of_mem_tail hb)
    · exact hone
  · exact oneLine_nil

theorem oneLine_stemChannel (h : OneLine s) : OneLine (stemChannel s) := by
  unfold stemChannel
  dsimp only
  split
  · have hrest : OneLine (s.dropWhile isDigit ++ ascii ".active") :=
      (h.subset (List.dropWhile_sublist _).subset).append (by decide)
    exact (h.subset (List.takeWhile_sublist _).subset).append (hrest.subset fun b hb => List.mem_of_mem_drop hb)
  · exact oneLine_nil

theorem oneLine_channel {f : ActiveFile} (h : OneLine f.stem) : OneLine f.channel := by
  unfold ActiveFile.channel
  dsimp only
  split
  · exact oneLine_recordingActiveValue _ _
  · exact oneLine_stemChannel h

theorem oneLine_escapeByte {b : Byte} (h : b ≠ 10) : OneLine (escapeByte b) := by
  unfold escapeByte
  split
  · decide
  split
  · decide
  split
  · decide
  split
  · decide
  · rename_i hcr
    exact .cons ⟨h, hcr⟩ oneLine_nil

/-- A string is on one line, whatever is in it. -/
theorem oneLine_jsonString (s : List Byte) : OneLine (jsonString s) := by
  have hrecords : ∀ record ∈ records s, 10 ∉ record := by
    intro record hrecord
    refine Lines.notMem_of_mem_splitOn (s := s) ?_
    unfold records at hrecord
    split at hrecord
    · exact List.mem_of_mem_dropLast hrecord
    · exact hrecord
  have hescaped : ∀ t ∈ (records s).map fun record => record.flatMap escapeByte, OneLine t := by
    intro t ht
    obtain ⟨record, hrecord, rfl⟩ := List.mem_map.mp ht
    have hbyte : ∀ b ∈ record, OneLine (escapeByte b) := fun b hb =>
      oneLine_escapeByte fun heq => hrecords record hrecord (heq ▸ hb)
    constructor <;> intro h <;> obtain ⟨b, hb, hmem⟩ := List.mem_flatMap.mp h
    · exact (hbyte b hb).1 hmem
    · exact (hbyte b hb).2 hmem
  have hquote : OneLine [34] := by decide
  exact (hquote.append (EventStream.oneLine_intercalate (by decide) hescaped)).append hquote

theorem oneLine_jsonValueOr (hs : OneLine s) (ht : OneLine t) : OneLine (jsonValueOr s t) := by
  unfold jsonValueOr
  split
  · exact hs
  · exact ht

theorem oneLine_jsonStringOrNull (s : List Byte) : OneLine (jsonStringOrNull s) := by
  unfold jsonStringOrNull
  split
  · exact oneLine_jsonString s
  · decide

theorem oneLine_bool (b : Bool) : OneLine (bool b) := by
  cases b <;> decide

/-- The two texts that are written as they were read. -/
def Notice.Clean : Notice → Prop
  | .recordCompleted channel _ duration => OneLine channel ∧ OneLine duration
  | _ => True

theorem oneLine_fields (h : n.Clean) : OneLine n.fields := by
  cases n with
  | hello | streamerRestarted | keepalive => decide
  | motion active =>
    have htext : OneLine (ascii "\"active\":") := by decide
    exact htext.append (oneLine_bool active)
  | recordCompleted channel path duration =>
    have hstream : OneLine (ascii "\"stream_id\":") := by decide
    have hpath : OneLine (ascii ",\"path\":") := by decide
    have hseconds : OneLine (ascii ",\"duration_seconds\":") := by decide
    have hnull : OneLine (ascii "null") := by decide
    exact ((((hstream.append (oneLine_jsonValueOr h.1 hnull)).append hpath).append
      (oneLine_jsonStringOrNull path)).append hseconds).append (oneLine_jsonValueOr h.2 hnull)
  | firmwareProgress action =>
    have haction : OneLine (ascii "\"action\":") := by decide
    have hphase : OneLine (ascii ",\"phase\":") := by decide
    exact ((haction.append (oneLine_jsonString _)).append hphase).append (oneLine_jsonString _)
  | healthWarning online running =>
    have hstatus : OneLine (ascii "\"status\":\"degraded\",\"network_online\":") := by decide
    have hrunning : OneLine (ascii ",\"streamer_running\":") := by decide
    exact ((hstatus.append (oneLine_bool online)).append hrunning).append (oneLine_bool running)
  | stateChanged paths =>
    have hopen : OneLine (ascii "\"paths\":[") := by decide
    have hclose : OneLine (ascii "]") := by decide
    refine (hopen.append (EventStream.oneLine_intercalate (by decide) ?_)).append hclose
    intro t ht
    obtain ⟨p, -, rfl⟩ := List.mem_map.mp ht
    exact oneLine_jsonString _

theorem writable_notice (h : n.Clean) (stamp : List Byte) : Writable (n.type, n.payload stamp) := by
  have htype : n.type ≠ [] ∧ OneLine n.type := by
    cases n with
    | motion active => cases active <;> decide
    | _ => dsimp only [Notice.type]; decide
  have hfields : OneLine (if n.fields ≠ [] then 44 :: n.fields else []) := by
    split
    · exact .cons (by decide) (oneLine_fields h)
    · exact oneLine_nil
  have hopen : OneLine (ascii "\x7b\"type\":") := by decide
  have hstamp : OneLine (ascii ",\"timestamp\":") := by decide
  have hclose : OneLine (ascii "\x7d") := by decide
  refine ⟨htype.1, htype.2, ?_⟩
  exact ((((hopen.append (oneLine_jsonString _)).append hstamp).append (oneLine_jsonString stamp)).append
    hfields).append hclose

/-- The names of the files are written on one line. -/
def Named (s : Sample) : Prop := ∀ f ∈ s.active, OneLine f.stem

theorem clean_of_mem (hnamed : ∀ s ∈ first :: samples.map Prod.fst, Named s) (h : n ∈ getEvents first samples) :
    n.Clean := by
  cases n with
  | recordCompleted channel path duration =>
    obtain ⟨before, after, f, hinfix, hf, rfl, -, rfl, -⟩ := exists_completed h
    have hbefore : before ∈ first :: samples.map Prod.fst := hinfix.subset List.mem_cons_self
    exact ⟨oneLine_channel (hnamed before hbefore f hf), oneLine_recordingActiveValue _ _⟩
  | _ => trivial

/-- **The property** of the stream. A client of event streams gets the events that were written, whole and in order;
where the stream breaks off it has got all of those that were complete, and nothing else. -/
structure Received (stamped : List (Notice × List Byte)) : Prop where
  whole : (EventStream.start.feed (output stamped)).dispatched = events stamped
  part : ∀ part, part <+: output stamped → (EventStream.start.feed part).dispatched <+: events stamped
  complete : ∀ k part, output (stamped.take k) <+: part → part <+: output stamped →
    (events stamped).take k <+: (EventStream.start.feed part).dispatched

theorem feed_output {stamped : List (Notice × List Byte)} (h : ∀ x ∈ stamped, x.1.Clean) :
    (EventStream.start.feed (output stamped)).dispatched = events stamped := by
  have hretry : EventStream.start.feed (ascii "retry: 3000\n\n") = EventStream.start := by decide
  rw [output, EventStream.feed_append, hretry]
  refine EventStream.dispatched_blocks fun e he => ?_
  obtain ⟨x, hx, rfl⟩ := List.mem_map.mp he
  exact writable_notice (h x hx) x.2

theorem output_received {stamped : List (Notice × List Byte)}
    (hnamed : ∀ s ∈ first :: samples.map Prod.fst, Named s) (hstamped : stamped.map Prod.fst = getEvents first samples) :
    Received stamped := by
  have hclean : ∀ x ∈ stamped, x.1.Clean := fun x hx =>
    clean_of_mem hnamed (hstamped ▸ List.mem_map_of_mem hx)
  refine ⟨feed_output hclean, fun part hpart => ?_, fun k part htake _ => ?_⟩
  · rw [← feed_output hclean]
    exact EventStream.dispatched_isPrefix _ hpart
  · have htook : (EventStream.start.feed (output (stamped.take k))).dispatched = events (stamped.take k) :=
      feed_output fun x hx => hclean x (List.mem_of_mem_take hx)
    have hevents : (events stamped).take k = events (stamped.take k) := List.map_take.symm
    rw [hevents, ← htook]
    exact EventStream.dispatched_isPrefix _ htake

/-- A recording of channel 1 ends. -/
def idle : Sample := ⟨false, true, true, false, false, false, false, true, true, none⟩

def recording : Sample :=
  { idle with active := some ⟨ascii "1", ascii "dur=60 path=/mnt/a", ascii "dur=60 path=/mnt/a", ascii "path=/mnt/a"⟩ }

theorem output_received_once :
    ∃ stamped, Received stamped ∧ (events stamped).map Prod.fst =
      [ascii "hello", ascii "record.completed", ascii "state.changed"] := by
  refine ⟨(getEvents recording [(idle, true)]).map fun n => (n, ascii "2025-01-01T00:00:00Z"),
    @output_received recording [(idle, true)] _ ?_ ?_, by decide⟩
  · intro s hs f hf
    obtain rfl | hs := List.mem_cons.mp hs
    · cases hf
      decide
    · obtain rfl := List.mem_singleton.mp hs
      cases hf
  · rw [List.map_map]
    exact List.map_id _

end Stream

end Thingino.Agent.Events
