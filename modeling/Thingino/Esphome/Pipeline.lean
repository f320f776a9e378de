import Thingino.Esphome.Player

/-! Does the wake word come back when a pipeline of the voice assistant is over?

A stream suspends it. At the end of speech the stream is stopped without a resume, since a playback is to
follow and will resume it at its end. At the end of the pipeline the stream is stopped with a resume, but if
there is none any more `stop_ha_audio_stream_internal` returns at once: without a playback nobody is left to
resume the wake word. -/
namespace Thingino.Esphome
open Lib

/-- The messages of a pipeline, and what is to be played besides. -/
def Message.voice : Message → Bool
  | .respond _ | .event _ | .media .. => true
  | _ => false

/-- The voice assistant and the player are served one message after the other. -/
def voice (s : Threads) : PlayerEvent → Bool
  | .message m => m.voice && serial s (.message m)
  | _ => true

/-- The thread has yet to resume the wake word, if it is suspended. -/
def resumes (th : Thread (Option Url) Op) : Bool := th.ops.contains .testResume || th.ops.contains .unflag

/-- When a pipeline ends and no stream is active, the wake word is not suspended or a playback has yet to
resume it; and the detector can be started again. -/
def restores (s : Threads) : PlayerEvent → Bool
  | .run t =>
    match s.threads[t]? with
    | some ⟨_, [.streamOff true, .ended]⟩ => s.shared.streaming || !s.shared.suspended || s.threads.any resumes
    | _ => true
  | .fail t => nextOp s t ≠ some .create
  | _ => true

/-- Nothing goes on, and the last event ended a pipeline. -/
def idle (s : Threads) : Bool := s.threads.all (fun th => th.ops.isEmpty) && !s.shared.streaming && s.shared.ended

/-! ### The courses of the threads -/

/-- The operations of `download_and_stream_audio` and of the commands. -/
def Op.plays : Op → Bool
  | .stopCurrent | .begin _ | .spawn _ | .inactive | .setState _ => true
  | _ => false

/-- What a playback or a handler has before it, behind an operation. -/
def Course.Behind (k : Option Url) (rest : List Op) : Op → Prop
  | .testSuspend | .flag => (k.isSome ∧ rest = [.popen, .testResume]) ∨ (k = none ∧ rest = [])
  | .stop | .stopped => (k.isSome ∧ rest = [.flag, .popen, .testResume]) ∨ (k = none ∧ rest = [.flag])
  | .testResume | .unflag | .start | .create | .detect =>
    rest = [] ∨ (k = none ∧ (rest = [.ended] ∨ ∃ udp, rest = [.connect udp]))
  | .popen | .finish | .failed => k.isSome ∧ rest = [.testResume]
  | .playing => k.isSome ∧ rest = [.finish, .testResume]
  | .streamOff true => k = none ∧ (rest = [] ∨ rest = [.ended] ∨ ∃ udp, rest = [.connect udp])
  | .streamOff false | .wait _ | .openStream _ | .connect _ | .ended => k = none ∧ rest = []
  | .stopCurrent | .begin _ | .spawn _ | .inactive | .setState _ => k = none ∧ ∀ op ∈ rest, op.plays = true
  | .abort | .subscribe | .switchOn | .switchOff | .returned _ => False

/-- What a playback or a handler may have before it. -/
def Course (k : Option Url) : List Op → Prop
  | [] => True
  | op :: rest => Course.Behind k rest op

variable {s : Player} {fresh : Nat} {k : Option Url} {op : Op} {rest : List Op} {o : Result}

theorem course_of_plays (h : ∀ op ∈ rest, op.plays = true) : Course none rest := by
  cases rest with
  | nil => exact trivial
  | cons op rest =>
    obtain ⟨hop, hrest⟩ := List.forall_mem_cons.mp h
    cases op <;> first | exact ⟨rfl, hrest⟩ | cases hop

theorem course_resume (h : rest = [] ∨ (k = none ∧ (rest = [.ended] ∨ ∃ udp, rest = [.connect udp]))) :
    Course k rest := by
  obtain rfl | ⟨rfl, rfl | ⟨udp, rfl⟩⟩ := h
  · exact trivial
  · exact ⟨rfl, rfl⟩
  · exact ⟨rfl, rfl⟩

theorem course_testSuspend (hcourse : Course k (.testSuspend :: rest)) (h : Player.exec fresh .testSuspend s = some o) :
    Course k (o.more ++ rest) := by
  cases h
  obtain ⟨hk, rfl⟩ | ⟨rfl, rfl⟩ := hcourse
  · split
    · exact .inl ⟨hk, rfl⟩
    · exact ⟨hk, rfl⟩
  · split
    · exact .inr ⟨rfl, rfl⟩
    · exact trivial

theorem course_stop (hcourse : Course k (.stop :: rest)) (h : Player.exec fresh .stop s = some o) :
    Course k (o.more ++ rest) := by
  simp only [Player.exec, Player.goOn] at h
  obtain ⟨hk, rfl⟩ | ⟨rfl, rfl⟩ := hcourse <;> split at h <;> cases h
  · exact .inl ⟨hk, rfl⟩
  · exact .inl ⟨hk, rfl⟩
  · exact .inr ⟨rfl, rfl⟩
  · exact .inr ⟨rfl, rfl⟩

theorem course_start (hcourse : Course k (.start :: rest)) (h : Player.exec fresh .start s = some o) :
    Course k (o.more ++ rest) := by
  simp only [Player.exec, Player.goOn] at h
  split at h <;> cases h
  · exact hcourse
  · exact course_resume hcourse

theorem course_streamOff {resume : Bool} (hcourse : Course k (.streamOff resume :: rest))
    (h : Player.exec fresh (.streamOff resume) s = some o) : Course k (o.more ++ rest) := by
  simp only [Player.exec, Player.goOn] at h
  cases resume with
  | true =>
    obtain ⟨rfl, hrest⟩ := hcourse
    split at h <;> cases h
    · exact hrest.imp id fun hrest => ⟨rfl, hrest⟩
    · exact course_resume (hrest.imp id fun hrest => ⟨rfl, hrest⟩)
  | false =>
    obtain ⟨rfl, rfl⟩ := hcourse
    split at h <;> cases h <;> exact trivial

theorem course_openStream {udp : Bool} (hcourse : Course k (.openStream udp :: rest))
    (h : Player.exec fresh (.openStream udp) s = some o) : Course k (o.more ++ rest) := by
  obtain ⟨rfl, rfl⟩ := hcourse
  simp only [Player.exec, Player.goOn] at h
  split at h <;> cases h
  · exact ⟨rfl, .inr (.inr ⟨udp, rfl⟩)⟩
  · exact .inr ⟨rfl, rfl⟩

theorem course_exec (hcourse : Course k (op :: rest)) (h : Player.exec fresh op s = some o) :
    Course k (o.more ++ rest) := by
  cases op with
  | testSuspend => exact course_testSuspend hcourse h
  | stop => exact course_stop hcourse h
  | stopped =>
    cases h
    obtain ⟨hk, rfl⟩ | ⟨rfl, rfl⟩ := hcourse
    · exact .inl ⟨hk, rfl⟩
    · exact .inr ⟨rfl, rfl⟩
  | flag =>
    cases h
    obtain ⟨hk, rfl⟩ | ⟨rfl, rfl⟩ := hcourse
    · exact ⟨hk, rfl⟩
    · exact trivial
  | testResume =>
    cases h
    split
    · exact hcourse
    · exact course_resume hcourse
  | unflag | create =>
    cases h
    exact hcourse
  | start => exact course_start hcourse h
  | detect =>
    cases h
    exact course_resume hcourse
  | popen | playing =>
    cases h
    obtain ⟨hk, rfl⟩ := hcourse
    exact ⟨hk, rfl⟩
  | finish | failed =>
    cases h
    obtain ⟨hk, rfl⟩ := hcourse
    exact .inl rfl
  | streamOff resume => exact course_streamOff hcourse h
  | wait udp =>
    obtain ⟨rfl, rfl⟩ := hcourse
    simp only [Player.exec, Player.goOn] at h
    split at h <;> cases h
    exact ⟨rfl, rfl⟩
  | openStream udp => exact course_openStream hcourse h
  | connect udp =>
    obtain ⟨rfl, rfl⟩ := hcourse
    cases h
    exact .inr ⟨rfl, rfl⟩
  | ended =>
    obtain ⟨rfl, rfl⟩ := hcourse
    cases h
    exact trivial
  | stopCurrent | begin _ | spawn _ | inactive | setState _ =>
    obtain ⟨rfl, hrest⟩ := hcourse
    cases h
    exact course_of_plays hrest
  | abort | subscribe | switchOn | switchOff | returned _ => cases hcourse

theorem course_fail (hcourse : Course k (op :: rest)) (hop : op ≠ .create) (h : Player.fail fresh op s = some o) :
    Course k (o.more ++ rest) ∧ o.shared = s ∧ o.forked = [] := by
  have hshared : o.shared = s ∧ o.forked = [] := by
    cases op <;> simp only [Player.fail, Player.goOn] at h <;> grind
  refine ⟨?_, hshared⟩
  cases op with
  | create => exact absurd rfl hop
  | popen =>
    cases h
    exact hcourse
  | spawn url =>
    cases h
    exact hcourse
  | wait udp =>
    obtain ⟨rfl, rfl⟩ := hcourse
    simp only [Player.fail, Player.goOn] at h
    split at h <;> cases h
    exact trivial
  | openStream udp =>
    obtain ⟨rfl, rfl⟩ := hcourse
    cases udp <;> simp only [Player.fail, Player.goOn] at h
    · cases h
    · split at h <;> cases h
      exact trivial
  | connect udp =>
    obtain ⟨rfl, rfl⟩ := hcourse
    cases udp <;> simp only [Player.fail, Player.goOn] at h <;> cases h
    exact trivial
  | _ => cases h

theorem course_message {m : Message} (h : m.voice = true) : Course none (handleMessage m) := by
  cases m with
  | switch on | subscribe => cases h
  | media url command =>
    refine course_of_plays fun op hop => ?_
    cases url <;> cases command with
    | none => revert op; simp [handleMessage, download, Op.plays]
    | some c => cases c <;> revert op <;> simp [handleMessage, download, commandOps, Op.plays]
  | respond udp =>
    cases udp with
    | none => exact ⟨rfl, .inl rfl⟩
    | some udp => exact ⟨rfl, rfl⟩
  | event e =>
    cases e with
    | error | runEnd => exact ⟨rfl, .inr (.inl rfl)⟩
    | sttEnd => exact ⟨rfl, rfl⟩
    | ttsEnd url =>
      cases url with
      | none => exact trivial
      | some url => exact course_of_plays (by simp [handleMessage, eventOps, download, Op.plays])
    | other => exact trivial

/-! ### What a step does -/

/-- The first steps of `suspend_wake_word`. -/
def Op.suspends : Op → Bool
  | .testSuspend | .stop | .stopped | .flag => true
  | _ => false

theorem not_suspends_of_plays (h : ∀ op ∈ rest, op.plays = true) : rest.head?.any Op.suspends = false := by
  cases rest with
  | nil => rfl
  | cons op rest =>
    have hop := h op List.mem_cons_self
    cases op <;> first | rfl | cases hop

/-- A step of a playback does not touch the stream; a handler on its way to suspend the wake word has opened
one. -/
theorem exec_streaming (hcourse : Course k (op :: rest)) (h : Player.exec fresh op s = some o) :
    (k.isSome = true → o.shared.streaming = s.streaming) ∧
      (k = none → (op.suspends = true → s.streaming = true) →
        ((o.more ++ rest).head?.any Op.suspends = true → o.shared.streaming = true)) := by
  cases op <;> simp only [Player.exec, Player.goOn] at h <;>
    simp only [Course, Course.Behind] at hcourse <;> grind [Op.suspends, not_suspends_of_plays]

theorem head_of_plays (h : ∀ op ∈ rest, op.plays = true) : rest.head? ≠ some (.streamOff false) := by
  intro hhead
  exact absurd (h _ (List.mem_of_head? hhead)) (by decide)

/-- No handler stops a stream without a resume later on. -/
theorem exec_head (hcourse : Course k (op :: rest)) (h : Player.exec fresh op s = some o) :
    (o.more ++ rest).head? ≠ some (.streamOff false) := by
  cases op <;> simp only [Player.exec, Player.goOn] at h <;>
    simp only [Course, Course.Behind] at hcourse <;> grind [head_of_plays]

/-- The stream is only closed by its own operation. -/
theorem exec_kept (h : Player.exec fresh op s = some o) (hop : ∀ resume, op ≠ .streamOff resume)
    (hstreaming : s.streaming = true) : o.shared.streaming = true := by
  cases op <;> simp only [Player.exec, Player.goOn] at h <;> grind

theorem exec_suspended (h : Player.exec fresh op s = some o) (hsuspended : o.shared.suspended = true) :
    op = .flag ∨ (s.suspended = true ∧ op ≠ .unflag) := by
  cases op <;> simp only [Player.exec, Player.goOn] at h <;> grind

/-- The end of a pipeline is never put in front of other operations. -/
theorem exec_ended (h : Player.exec fresh op s = some o) :
    .ended ∉ o.more ∧ (o.shared.ended = true → s.ended = true ∨ op = .ended) := by
  cases op <;> simp only [Player.exec, Player.goOn] at h <;> grind

/-- Each change of the detector leaves somebody on the way to the next one. -/
theorem exec_detector (hcourse : Course k (op :: rest)) (h : Player.exec fresh op s = some o) :
    (o.shared.detector = .stopping → .stopped ∈ o.more ∨ (s.detector = .stopping ∧ op ≠ .stopped)) ∧
      (o.shared.detector = .starting → .create ∈ o.more ∨ .detect ∈ o.more ∨
        (s.detector = .starting ∧ op ≠ .create ∧ op ≠ .detect)) ∧
      (o.shared.detector = .stopped → .flag ∈ rest ∨ .start ∈ o.more ∨ o.shared.suspended = true ∨
        (s.detector = .stopped ∧ (s.suspended = true → o.shared.suspended = true) ∧ op ≠ .flag ∧ op ≠ .unflag ∧
          op ≠ .start)) := by
  cases op <;> simp only [Player.exec, Player.goOn] at h <;>
    simp only [Course, Course.Behind] at hcourse <;> grind

/-! ### The invariant -/

/-- The handler of the end of a pipeline is past the stop of the stream. -/
def Past (th : Thread (Option Url) Op) : Prop := .ended ∈ th.ops ∧ th.ops.head? ≠ some (.streamOff true)

/-- Somebody still resumes the wake word, or there is a stream whose stop will. -/
def Restored (s : Threads) : Prop :=
  s.shared.suspended = true → s.shared.streaming = true ∨ ∃ th ∈ s.threads, resumes th = true

/-- `stopping`, `starting` and `stopped`: whenever the detector does not run, somebody is about to go on with
it, or it is suspended, or it did not run at first. -/
structure PipelineInv (initial : Detector) (s : Threads) : Prop where
  course : ∀ th ∈ s.threads, Course th.kind th.ops
  alone : Alone s
  marked : ∀ th ∈ s.threads, th.kind = none → th.ops.head?.any Op.suspends = true → s.shared.streaming = true
  deferred : ∀ th ∈ s.threads, th.ops.head? = some (.streamOff false) → s.shared.ended = false
  restored : (s.shared.ended = true ∨ ∃ th ∈ s.threads, Past th) → Restored s
  stopping : s.shared.detector = .stopping → ∃ th ∈ s.threads, .stopped ∈ th.ops
  starting : s.shared.detector = .starting → ∃ th ∈ s.threads, .create ∈ th.ops ∨ .detect ∈ th.ops
  stopped : initial = .detecting → s.shared.detector = .stopped →
    s.shared.suspended = true ∨ ∃ th ∈ s.threads, .flag ∈ th.ops ∨ .unflag ∈ th.ops ∨ .start ∈ th.ops

variable {initial : Detector} {s s' : Threads} {t : Nat}

/-- What is still to be done, apart from the operation that is done now. -/
theorem mem_left {op' : Op} (h : op' ∈ op :: rest) (hne : op' ≠ op) (more : List Op) : op' ∈ more ++ rest :=
  List.mem_append_right _ ((List.mem_cons.mp h).resolve_left hne)

theorem resumes_iff {th : Thread (Option Url) Op} : resumes th = true ↔ .testResume ∈ th.ops ∨ .unflag ∈ th.ops := by
  rw [resumes, Bool.or_eq_true, List.contains_iff_mem, List.contains_iff_mem]

theorem marked_exec (h : PipelineInv initial s) (hthread : s.threads[t]? = some ⟨k, op :: rest⟩)
    (ho : Player.exec s.threads.length op s.shared = some o) :
    ∀ th ∈ s.threads.set t ⟨k, o.more ++ rest⟩ ++ o.forked, th.kind = none → th.ops.head?.any Op.suspends = true →
      o.shared.streaming = true := by
  have hmem : (⟨k, op :: rest⟩ : Thread (Option Url) Op) ∈ s.threads := List.mem_of_getElem? hthread
  obtain ⟨hplayback, hhandler⟩ := exec_streaming (h.course _ hmem) ho
  intro th hth hkind hhead
  obtain ⟨i, hi⟩ := List.mem_iff_getElem?.mp hth
  obtain ⟨-, rfl⟩ | ⟨hne, hold⟩ | hforked := Pool.getElem?_run hi
  · exact hhandler hkind (fun hop => h.marked _ hmem hkind hop) hhead
  · have hops : th.ops ≠ [] := by
      intro hnil
      rw [hnil] at hhead
      cases hhead
    rw [hplayback (isSome_of_alone h.alone hthread hold hne hkind hops)]
    exact h.marked th (List.mem_of_getElem? hold) hkind hhead
  · obtain ⟨url, rfl⟩ := exec_forked ho th hforked
    cases hkind

/-- A handler that stops the stream without a resume is not that of the end of a pipeline. -/
theorem kind_of_off (h : Course k (op :: rest)) (hop : ∃ resume, op = .streamOff resume) : k = none := by
  obtain ⟨resume, rfl⟩ := hop
  cases resume <;> exact h.1

theorem kind_of_ended {ops : List Op} (h : Course k ops) (hended : .ended ∈ ops) : k = none := by
  cases ops with
  | nil => cases hended
  | cons op rest => cases op <;> simp only [Course, Course.Behind] at h <;> grind [Op.plays]

theorem deferred_exec (h : PipelineInv initial s) (hthread : s.threads[t]? = some ⟨k, op :: rest⟩)
    (ho : Player.exec s.threads.length op s.shared = some o) :
    ∀ th ∈ s.threads.set t ⟨k, o.more ++ rest⟩ ++ o.forked, th.ops.head? = some (.streamOff false) →
      o.shared.ended = false := by
  have hmem : (⟨k, op :: rest⟩ : Thread (Option Url) Op) ∈ s.threads := List.mem_of_getElem? hthread
  have hcourse := h.course _ hmem
  intro th hth hhead
  obtain ⟨i, hi⟩ := List.mem_iff_getElem?.mp hth
  obtain ⟨-, rfl⟩ | ⟨hne, hold⟩ | hforked := Pool.getElem?_run hi
  · exact absurd hhead (exec_head hcourse ho)
  · have hmem' := List.mem_of_getElem? hold
    obtain ⟨rest', hops⟩ : ∃ rest', th.ops = .streamOff false :: rest' := List.head?_eq_some_iff.mp hhead
    have hcourse' := h.course th hmem'
    rw [hops] at hcourse'
    have hkind := kind_of_off hcourse' ⟨false, rfl⟩
    have hplayback := isSome_of_alone h.alone hthread hold hne hkind (by rw [hops]; exact List.cons_ne_nil _ _)
    rw [← Bool.not_eq_true]
    intro hended
    obtain hwas | rfl := (exec_ended ho).2 hended
    · rw [h.deferred th hmem' hhead] at hwas
      cases hwas
    · obtain ⟨rfl, -⟩ := hcourse
      cases hplayback
  · obtain ⟨url, rfl⟩ := exec_forked ho th hforked
    cases hhead

/-- What the end of a stream leaves: a resume, or none and a pipeline that is not over. -/
theorem restored_off (h : PipelineInv initial s) {resume : Bool}
    (hthread : s.threads[t]? = some ⟨k, .streamOff resume :: rest⟩)
    (ho : Player.exec s.threads.length (.streamOff resume) s.shared = some o) (hstreaming : s.shared.streaming = true)
    (hover : o.shared.ended = true ∨ ∃ th ∈ s.threads.set t ⟨k, o.more ++ rest⟩ ++ o.forked, Past th) :
    Restored ⟨o.shared, s.threads.set t ⟨k, o.more ++ rest⟩ ++ o.forked⟩ := by
  have hmem : (⟨k, .streamOff resume :: rest⟩ : Thread (Option Url) Op) ∈ s.threads := List.mem_of_getElem? hthread
  have hcourse : Course k (.streamOff resume :: rest) := h.course _ hmem
  have hk := kind_of_off hcourse ⟨resume, rfl⟩
  simp only [Player.exec, Player.goOn, if_pos hstreaming] at ho
  cases ho
  cases resume with
  | true => exact fun _ => .inr (Pool.exists_run_self _ hthread (resumes_iff.mpr (.inl List.mem_cons_self)))
  | false =>
    obtain ⟨-, rfl⟩ := hcourse
    exfalso
    obtain hended | ⟨th, hth, hpast, -⟩ := hover
    · rw [h.deferred _ hmem rfl] at hended
      cases hended
    · obtain ⟨i, hi⟩ := List.mem_iff_getElem?.mp hth
      obtain ⟨-, rfl⟩ | ⟨hne, hold⟩ | hforked := Pool.getElem?_run hi
      · cases hpast
      · have hcourse' := h.course th (List.mem_of_getElem? hold)
        have hkind : th.kind = none := kind_of_ended hcourse' hpast
        have hplayback := isSome_of_alone h.alone hthread hold hne hkind (List.ne_nil_of_mem hpast)
        rw [hk] at hplayback
        cases hplayback
      · cases hforked

theorem restored_exec (h : PipelineInv initial s) (hthread : s.threads[t]? = some ⟨k, op :: rest⟩)
    (ho : Player.exec s.threads.length op s.shared = some o) (hok : restores s (.run t) = true)
    (hover : o.shared.ended = true ∨ ∃ th ∈ s.threads.set t ⟨k, o.more ++ rest⟩ ++ o.forked, Past th) :
    Restored ⟨o.shared, s.threads.set t ⟨k, o.more ++ rest⟩ ++ o.forked⟩ := by
  have hmem : (⟨k, op :: rest⟩ : Thread (Option Url) Op) ∈ s.threads := List.mem_of_getElem? hthread
  have hcourse : Course k (op :: rest) := h.course _ hmem
  by_cases hoff : (∃ resume, op = .streamOff resume) ∧ s.shared.streaming = true
  · obtain ⟨⟨resume, rfl⟩, hstreaming⟩ := hoff
    exact restored_off h hthread ho hstreaming hover
  · have hkept : s.shared.streaming = true → o.shared.streaming = true := fun hstreaming =>
      exec_kept ho (fun resume hop => hoff ⟨⟨resume, hop⟩, hstreaming⟩) hstreaming
    intro hsuspended
    obtain rfl | ⟨hwas, hop⟩ := exec_suspended ho hsuspended
    · obtain ⟨-, rfl⟩ | ⟨rfl, rfl⟩ := hcourse
      · refine .inr (Pool.exists_run_self _ hthread (resumes_iff.mpr (.inl ?_)))
        exact List.mem_append_right _ (by simp)
      · exact .inl (hkept (h.marked _ hmem rfl rfl))
    · -- who was to resume the wake word still is, or is about to clear the flag
      have hstill : (∃ th ∈ s.threads, resumes th = true) →
          ∃ th ∈ s.threads.set t ⟨k, o.more ++ rest⟩ ++ o.forked, resumes th = true := by
        refine fun hsome => Pool.exists_run o.forked hsome hthread fun hold => ?_
        rw [resumes_iff] at hold ⊢
        obtain htest | hunflag := hold
        · by_cases hnow : op = .testResume
          · subst hnow
            simp only [Player.exec, Player.goOn, if_pos hwas] at ho
            cases ho
            exact .inr List.mem_cons_self
          · exact .inl (mem_left htest (Ne.symm hnow) _)
        · exact .inr (mem_left hunflag (Ne.symm hop) _)
      have hbefore : (s.shared.ended = true ∨ ∃ th ∈ s.threads, Past th) ∨ (op = .streamOff true ∧ rest = [.ended]) := by
        obtain hended | ⟨th, hth, hpast, hhead⟩ := hover
        · obtain hended | rfl := (exec_ended ho).2 hended
          · exact .inl (.inl hended)
          · exact .inl (.inr ⟨_, hmem, List.mem_cons_self, by simp⟩)
        · obtain ⟨i, hi⟩ := List.mem_iff_getElem?.mp hth
          obtain ⟨-, rfl⟩ | ⟨-, hold⟩ | hforked := Pool.getElem?_run hi
          · have hrest : .ended ∈ rest := (List.mem_append.mp hpast).resolve_left (exec_ended ho).1
            by_cases hfinale : op = .streamOff true
            · subst hfinale
              obtain ⟨-, rfl | rfl | ⟨udp, rfl⟩⟩ := hcourse
              · cases hrest
              · exact .inr ⟨rfl, rfl⟩
              · simp at hrest
            · exact .inl (.inr ⟨_, hmem, List.mem_cons_of_mem _ hrest, fun hop => hfinale (Option.some.inj hop)⟩)
          · exact .inl (.inr ⟨th, List.mem_of_getElem? hold, hpast, hhead⟩)
          · obtain ⟨url, rfl⟩ := exec_forked ho th hforked
            simp [audioStreamingThread] at hpast
      obtain hbefore | ⟨rfl, rfl⟩ := hbefore
      · exact (h.restored hbefore hwas).imp hkept hstill
      · simp only [restores, hthread, hwas, Bool.not_true, Bool.or_false, Bool.or_eq_true, List.any_eq_true] at hok
        exact hok.imp hkept hstill

theorem detector_exec (h : PipelineInv initial s) (hthread : s.threads[t]? = some ⟨k, op :: rest⟩)
    (ho : Player.exec s.threads.length op s.shared = some o) :
    (o.shared.detector = .stopping → ∃ th ∈ s.threads.set t ⟨k, o.more ++ rest⟩ ++ o.forked, .stopped ∈ th.ops) ∧
      (o.shared.detector = .starting →
        ∃ th ∈ s.threads.set t ⟨k, o.more ++ rest⟩ ++ o.forked, .create ∈ th.ops ∨ .detect ∈ th.ops) ∧
      (initial = .detecting → o.shared.detector = .stopped → o.shared.suspended = true ∨
        ∃ th ∈ s.threads.set t ⟨k, o.more ++ rest⟩ ++ o.forked, .flag ∈ th.ops ∨ .unflag ∈ th.ops ∨ .start ∈ th.ops) := by
  have hmem : (⟨k, op :: rest⟩ : Thread (Option Url) Op) ∈ s.threads := List.mem_of_getElem? hthread
  obtain ⟨hstopping, hstarting, hstopped⟩ := exec_detector (h.course _ hmem) ho
  refine ⟨fun hnow => ?_, fun hnow => ?_, fun hinitial hnow => ?_⟩
  · obtain hself | ⟨hwas, hop⟩ := hstopping hnow
    · exact Pool.exists_run_self _ hthread (List.mem_append_left _ hself)
    · exact Pool.exists_run _ (h.stopping hwas) hthread fun hold => mem_left hold (Ne.symm hop) _
  · obtain hself | hself | ⟨hwas, hcreate, hdetect⟩ := hstarting hnow
    · exact Pool.exists_run_self _ hthread (.inl (List.mem_append_left _ hself))
    · exact Pool.exists_run_self _ hthread (.inr (List.mem_append_left _ hself))
    · exact Pool.exists_run _ (h.starting hwas) hthread fun hold =>
        hold.imp (mem_left · (Ne.symm hcreate) _) (mem_left · (Ne.symm hdetect) _)
  · obtain hself | hself | hsuspended | ⟨hwas, hkept, hflag, hunflag, hstart⟩ := hstopped hnow
    · exact .inr (Pool.exists_run_self _ hthread (.inl (List.mem_append_right _ hself)))
    · exact .inr (Pool.exists_run_self _ hthread (.inr (.inr (List.mem_append_left _ hself))))
    · exact .inl hsuspended
    · refine (h.stopped hinitial hwas).imp hkept fun hsome => Pool.exists_run _ hsome hthread fun hold => ?_
      exact hold.imp (mem_left · (Ne.symm hflag) _)
        (Or.imp (mem_left · (Ne.symm hunflag) _) (mem_left · (Ne.symm hstart) _))

theorem pipelineInv_exec (h : PipelineInv initial s) (hthread : s.threads[t]? = some ⟨k, op :: rest⟩)
    (ho : Player.exec s.threads.length op s.shared = some o) (hok : restores s (.run t) = true) :
    PipelineInv initial ⟨o.shared, s.threads.set t ⟨k, o.more ++ rest⟩ ++ o.forked⟩ := by
  have hmem : (⟨k, op :: rest⟩ : Thread (Option Url) Op) ∈ s.threads := List.mem_of_getElem? hthread
  obtain ⟨hstopping, hstarting, hstopped⟩ := detector_exec h hthread ho
  refine ⟨Pool.forall_run h.course hthread (fun hcourse => course_exec hcourse ho) fun th hth => ?_,
    alone_run h.alone hthread (exec_forked ho), marked_exec h hthread ho, deferred_exec h hthread ho,
    restored_exec h hthread ho hok, hstopping, hstarting, hstopped⟩
  obtain ⟨url, rfl⟩ := exec_forked ho th hth
  exact .inl ⟨rfl, rfl⟩

/-- Where a failure can be: not in `suspend_wake_word`, and in `resume_wake_word` only at its thread. -/
theorem fail_place (hcourse : Course k (op :: rest)) (hop : op ≠ .create) (h : Player.fail fresh op s.shared = some o) :
    (o.more ++ rest).head?.any Op.suspends = false ∧ (o.more ++ rest).head? ≠ some (.streamOff false) ∧
      .ended ∉ o.more ++ rest ∧ op.suspends = false ∧ op ≠ .testResume ∧ op ≠ .unflag ∧ op ≠ .start ∧ op ≠ .detect := by
  cases op <;> simp only [Player.fail, Player.goOn] at h <;>
    simp only [Course, Course.Behind] at hcourse <;> grind [Op.suspends, Op.plays, not_suspends_of_plays, head_of_plays]

theorem pipelineInv_fail (h : PipelineInv initial s) (hthread : s.threads[t]? = some ⟨k, op :: rest⟩)
    (ho : Player.fail s.threads.length op s.shared = some o) (hop : op ≠ .create) :
    PipelineInv initial ⟨o.shared, s.threads.set t ⟨k, o.more ++ rest⟩ ++ o.forked⟩ := by
  have hmem : (⟨k, op :: rest⟩ : Thread (Option Url) Op) ∈ s.threads := List.mem_of_getElem? hthread
  obtain ⟨hcourse, hshared, hforked⟩ := course_fail (h.course _ hmem) hop ho
  obtain ⟨hhead, hoff, hended, hsuspends, htest, hunflag, hstart, hdetect⟩ := fail_place (h.course _ hmem) hop ho
  have hstopped : op ≠ .stopped := by rintro rfl; cases hsuspends
  have hflag : op ≠ .flag := by rintro rfl; cases hsuspends
  have hnone : ∀ {P : Thread (Option Url) Op → Prop}, ∀ th ∈ o.forked, P th := fun th hth => by
    rw [hforked] at hth
    cases hth
  rw [hshared]
  refine ⟨Pool.forall_run h.course hthread (fun _ => hcourse) hnone,
    alone_run h.alone hthread (fun th hth => by rw [hforked] at hth; cases hth),
    Pool.forall_run h.marked hthread (fun _ _ hmarked => ?_) hnone,
    Pool.forall_run h.deferred hthread (fun _ hdeferred => absurd hdeferred hoff) hnone, fun hover hsuspended => ?_,
    fun hnow => ?_, fun hnow => ?_, fun hinitial hnow => ?_⟩
  · rw [hhead] at hmarked
    cases hmarked
  · have hbefore : s.shared.ended = true ∨ ∃ th ∈ s.threads, Past th := by
      refine hover.imp id fun ⟨th, hth, hpast, hfirst⟩ => ?_
      obtain ⟨i, hi⟩ := List.mem_iff_getElem?.mp hth
      obtain ⟨-, rfl⟩ | ⟨-, hold⟩ | hnew := Pool.getElem?_run hi
      · exact absurd hpast hended
      · exact ⟨th, List.mem_of_getElem? hold, hpast, hfirst⟩
      · rw [hforked] at hnew
        cases hnew
    refine (h.restored hbefore hsuspended).imp id fun hsome => Pool.exists_run _ hsome hthread fun hold => ?_
    rw [resumes_iff] at hold ⊢
    exact hold.imp (mem_left · (Ne.symm htest) _) (mem_left · (Ne.symm hunflag) _)
  · exact Pool.exists_run _ (h.stopping hnow) hthread fun hold => mem_left hold (Ne.symm hstopped) _
  · exact Pool.exists_run _ (h.starting hnow) hthread fun hold =>
      hold.imp (mem_left · (Ne.symm hop) _) (mem_left · (Ne.symm hdetect) _)
  · refine (h.stopped hinitial hnow).imp id fun hsome => Pool.exists_run _ hsome hthread fun hold => ?_
    exact hold.imp (mem_left · (Ne.symm hflag) _) (Or.imp (mem_left · (Ne.symm hunflag) _) (mem_left · (Ne.symm hstart) _))

/-- A message begins with nothing of a suspend, and with the end of a pipeline only behind a stop. -/
theorem message_place {m : Message} (h : m.voice = true) :
    (handleMessage m).head?.any Op.suspends = false ∧ ¬Past ⟨none, handleMessage m⟩ ∧
      ((handleMessage m).head? = some (.streamOff false) → ∃ e, m = .event e) := by
  cases m with
  | switch on | subscribe => cases h
  | media url command =>
    cases url <;> cases command with
    | none => simp [handleMessage, download, Past, Op.suspends]
    | some c => cases c <;> simp [handleMessage, download, commandOps, Past, Op.suspends]
  | respond udp => cases udp <;> simp [handleMessage, Past, Op.suspends]
  | event e =>
    cases e with
    | ttsEnd url => cases url <;> simp [handleMessage, eventOps, download, Past, Op.suspends]
    | _ => simp [handleMessage, eventOps, Past, Op.suspends]

theorem receive_eq (m : Message) (s : Player) :
    (s.receive m).suspended = s.suspended ∧ (s.receive m).streaming = s.streaming ∧
      (s.receive m).detector = s.detector ∧ ((s.receive m).ended = true → s.ended = true) := by
  cases m <;> simp [Player.receive]

theorem pipelineInv_message (h : PipelineInv initial s) {m : Message} (hvoice : m.voice = true)
    (hserial : serial s (.message m) = true) :
    PipelineInv initial ({ s with shared := s.shared.receive m }.fork ⟨none, handleMessage m⟩) := by
  obtain ⟨hsuspended, hstreaming, hdetector, hended⟩ := receive_eq m s.shared
  obtain ⟨hhead, hpast, hoff⟩ := message_place hvoice
  have hadded : ∀ {P : Thread (Option Url) Op → Prop}, (∃ th ∈ s.threads, P th) →
      ∃ th ∈ s.threads ++ [⟨none, handleMessage m⟩], P th :=
    fun ⟨th, hth, hP⟩ => ⟨th, List.mem_append_left _ hth, hP⟩
  refine ⟨fun th hth => ?_, alone_step h.alone hserial (e := .message m) rfl, fun th hth hkind hmarked => ?_,
    fun th hth hdeferred => ?_, fun hover => ?_, fun hnow => ?_, fun hnow => ?_, fun hinitial hnow => ?_⟩
  · obtain hth | hth := List.mem_append.mp hth
    · exact h.course th hth
    · rw [List.mem_singleton.mp hth]
      exact course_message hvoice
  · change (s.shared.receive m).streaming = true
    rw [hstreaming]
    obtain hth | hth := List.mem_append.mp hth
    · exact h.marked th hth hkind hmarked
    · rw [List.mem_singleton.mp hth, hhead] at hmarked
      cases hmarked
  · change (s.shared.receive m).ended = false
    obtain hth | hth := List.mem_append.mp hth
    · rw [← Bool.not_eq_true]
      intro hnow
      rw [h.deferred th hth hdeferred] at hended
      cases hended hnow
    · rw [List.mem_singleton.mp hth] at hdeferred
      obtain ⟨e, rfl⟩ := hoff hdeferred
      rfl
  · have hbefore : s.shared.ended = true ∨ ∃ th ∈ s.threads, Past th := by
      refine hover.imp hended fun ⟨th, hth, hp⟩ => ?_
      obtain hth | hth := List.mem_append.mp hth
      · exact ⟨th, hth, hp⟩
      · rw [List.mem_singleton.mp hth] at hp
        exact absurd hp hpast
    intro hnow
    change (s.shared.receive m).suspended = true at hnow
    change (s.shared.receive m).streaming = true ∨ _
    rw [hsuspended] at hnow
    rw [hstreaming]
    exact (h.restored hbefore hnow).imp id hadded
  · change (s.shared.receive m).detector = _ at hnow
    rw [hdetector] at hnow
    exact hadded (h.stopping hnow)
  · change (s.shared.receive m).detector = _ at hnow
    rw [hdetector] at hnow
    exact hadded (h.starting hnow)
  · change (s.shared.receive m).detector = _ at hnow
    change (s.shared.receive m).suspended = true ∨ _
    rw [hdetector] at hnow
    rw [hsuspended]
    exact (h.stopped hinitial hnow).imp id hadded

theorem pipelineInv_step {e : PlayerEvent} (h : PipelineInv initial s) (hok : (voice s e && restores s e) = true)
    (hstep : step s e = some s') : PipelineInv initial s' := by
  obtain ⟨hvoice, hrestores⟩ := (Bool.and_eq_true ..).mp hok
  cases e with
  | message m =>
    cases hstep
    obtain ⟨hm, hserial⟩ := (Bool.and_eq_true ..).mp hvoice
    exact pipelineInv_message h hm hserial
  | run t =>
    obtain ⟨k, op, rest, o, hthread, ho, rfl⟩ := Pool.run_eq_some hstep
    exact pipelineInv_exec h hthread ho hrestores
  | fail t =>
    obtain ⟨k, op, rest, o, hthread, ho, rfl⟩ := Pool.run_eq_some hstep
    refine pipelineInv_fail h hthread ho ?_
    rw [restores, nextOp_eq hthread] at hrestores
    simpa using hrestores

theorem pipelineInv_start (initial : Detector) (hinitial : initial = .detecting ∨ initial = .stopped) :
    PipelineInv initial (startPlayer initial) := by
  refine ⟨fun _ => (nomatch ·), alone_start initial, fun _ => (nomatch ·), fun _ => (nomatch ·), ?_, ?_, ?_, ?_⟩
  · rintro _ hsuspended
    cases hsuspended
  · obtain rfl | rfl := hinitial <;> exact fun h => (nomatch h)
  · obtain rfl | rfl := hinitial <;> exact fun h => (nomatch h)
  · obtain rfl | rfl := hinitial
    · exact fun _ h => (nomatch h)
    · exact fun h => (nomatch h)

/-- **The wake word is not left suspended**, in runs where a pipeline that ends without a stream has a
playback that will resume it, or nothing to resume, and the detector can be started again. -/
theorem restored_of_restores {initial : Detector} (hinitial : initial = .detecting ∨ initial = .stopped) {s : Threads}
    (h : Reach step (fun s e => (voice s e && restores s e) = true) (startPlayer initial) s) (hidle : idle s = true) :
    s.shared.suspended = false ∧ (initial = .detecting → s.shared.detector = .detecting) := by
  have hinv : PipelineInv initial s :=
    Reach.invariant (pipelineInv_start initial hinitial) (fun _ _ _ hs hok hstep => pipelineInv_step hs hok hstep) h
  simp only [idle, Bool.and_eq_true, List.all_eq_true, List.isEmpty_iff, Bool.not_eq_true'] at hidle
  obtain ⟨⟨hops, hstreaming⟩, hended⟩ := hidle
  have hnone : ∀ {P : Thread (Option Url) Op → Prop}, (∀ th, th.ops = [] → ¬P th) → ¬∃ th ∈ s.threads, P th :=
    fun hP ⟨th, hth, h⟩ => hP th (hops th hth) h
  have hflag : s.shared.suspended = false := by
    rw [← Bool.not_eq_true]
    intro hsuspended
    obtain hstream | hsome := hinv.restored (.inl hended) hsuspended
    · rw [hstreaming] at hstream
      cases hstream
    · exact hnone (fun th hth => by simp [resumes, hth]) hsome
  refine ⟨hflag, fun hrunning => ?_⟩
  cases hdetector : s.shared.detector with
  | detecting => rfl
  | stopping => exact absurd (hinv.stopping hdetector) (hnone fun th hth => by simp [hth])
  | starting => exact absurd (hinv.starting hdetector) (hnone fun th hth => by simp [hth])
  | stopped =>
    obtain hsuspended | hsome := hinv.stopped hrunning hdetector
    · rw [hflag] at hsuspended
      cases hsuspended
    · exact absurd hsome (hnone fun th hth => by simp [hth])

/-- A stream over the API, and the end of speech. -/
def speech : List PlayerEvent :=
  .message (.respond (some false)) :: runs 0 6 ++ .message (.event .sttEnd) :: runs 1 1

/-- The answer is played; the pipeline ends before the playback does. -/
theorem restored_after_answer :
    ∃ s, Reach step (fun s e => (voice s e && restores s e) = true) (startPlayer .detecting) s ∧ idle s = true ∧
      s.shared.suspended = false ∧ s.shared.detector = .detecting := by
  have hrun : ∃ s, Reach step (fun s e => (voice s e && restores s e) = true) (startPlayer .detecting) s ∧
      idle s = true :=
    exists_reach (speech ++ .message (.event (.ttsEnd (some [1]))) :: runs 2 3 ++ runs 3 2 ++
      .message (.event .runEnd) :: runs 4 2 ++ runs 3 7) (by decide)
  obtain ⟨s, hs, hidle⟩ := hrun
  obtain ⟨hflag, hrunning⟩ := restored_of_restores (.inl rfl) hs hidle
  exact ⟨s, hs, hidle, hflag, hrunning rfl⟩

/-- The pipeline ends without an answer to play: the wake word stays suspended. -/
theorem suspended_without_answer :
    ∃ s, Reach step (fun s e => voice s e = true) (startPlayer .detecting) s ∧ idle s = true ∧
      s.shared.suspended = true ∧ s.shared.detector = .stopped := by
  have hrun : ∃ s, Reach step (fun s e => voice s e = true) (startPlayer .detecting) s ∧
      (idle s = true ∧ s.shared.suspended = true ∧ s.shared.detector = .stopped) :=
    exists_reach (speech ++ .message (.event .runEnd) :: runs 2 2) (by decide)
  exact hrun

end Thingino.Esphome
