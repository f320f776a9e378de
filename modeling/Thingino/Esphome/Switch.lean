import Thingino.Esphome.Player

/-! Does the detector stay off when the user has switched it off?

The one flag says that the wake word is suspended, not by whom. A switch-off sets it if it is not set, and
does nothing if a playback or a stream has set it before; and whoever calls `resume_wake_word` next finds it
set and starts the detector. -/
namespace Thingino.Esphome
open Lib

/-- What a thread does on the way to `WAKE_WORD_STATE_DETECTING`. -/
def Op.starts : Op → Bool
  | .unflag | .start | .create | .detect => true
  | _ => false

/-- When a switch-off is handled, the detector is not about to start, and it does not run with the flag set;
and from then on to the next switch-on or subscription nobody who resumes the wake word finds the flag set. -/
def heeded (s : Threads) : PlayerEvent → Bool
  | .run t =>
    match nextOp s t with
    | some .switchOff =>
      s.shared.detector ≠ .starting && !(s.shared.suspended && s.shared.detector = .detecting) &&
        s.threads.all fun th => th.ops.all fun op => !op.starts
    | some .testResume => !(s.shared.off && s.shared.suspended)
    | _ => true
  | _ => true

/-! ### What a step does to a switch-off -/

/-- What an operation may do to the detector, to the turns and to the handlers of a switch-off. -/
structure Heeds (s : Player) (op : Op) (o : Result) : Prop where
  turn : (o.shared.turn = s.turn ∧ (s.off = true → o.shared.off = true)) ∨
    (o.shared.turn = s.turn + 1 ∧ o.shared.off = false ∧ o.shared.userOff = false)
  returned : ∀ k, .returned k ∈ o.more → op = .switchOff ∧ k = s.turn ∧ o.shared.turn = s.turn ∧ o.shared.off = true
  off : o.shared.off = true → s.off = true ∨ op = .switchOff
  userOff : o.shared.userOff = true → s.userOff = true ∨ op = .returned s.turn
  detecting : op.starts = false → o.shared.detector = .detecting → s.detector = .detecting
  starting : op.starts = false → o.shared.detector = .starting → s.detector = .starting
  starts : op.starts = false → (op = .testResume → s.suspended = false) → o.shared.off = true →
    ∀ op' ∈ o.more, op'.starts = false
  suspend : op = .testSuspend → s.detector = .detecting → o.more.head? = some .stop
  stop : op = .stop → o.shared.detector ≠ .detecting
  switchOff : op = .switchOff → s.suspended = false → o.more.head? = some .testSuspend
  forked : ∀ th ∈ o.forked, ∃ url, th = audioStreamingThread url

variable {s : Player} {fresh : Nat} {op : Op} {o : Result}

/-- What an operation does to the turns. -/
theorem exec_turns (h : Player.exec fresh op s = some o) :
    ((o.shared.turn = s.turn ∧ (s.off = true → o.shared.off = true)) ∨
        (o.shared.turn = s.turn + 1 ∧ o.shared.off = false ∧ o.shared.userOff = false)) ∧
      (o.shared.off = true → s.off = true ∨ op = .switchOff) ∧
      (o.shared.userOff = true → s.userOff = true ∨ op = .returned s.turn) := by
  cases op <;> simp only [Player.exec, Player.goOn] at h <;> grind

/-- What it does to the detector. -/
theorem exec_runs (h : Player.exec fresh op s = some o) :
    (op.starts = false → o.shared.detector = .detecting → s.detector = .detecting) ∧
      (op.starts = false → o.shared.detector = .starting → s.detector = .starting) ∧
      (op = .stop → o.shared.detector ≠ .detecting) := by
  cases op <;> simp only [Player.exec, Player.goOn] at h <;> grind [Op.starts]

/-- What it leaves to be done. -/
theorem exec_ops (h : Player.exec fresh op s = some o) :
    (∀ k, .returned k ∈ o.more → op = .switchOff ∧ k = s.turn ∧ o.shared.turn = s.turn ∧ o.shared.off = true) ∧
      (op = .testSuspend → s.detector = .detecting → o.more.head? = some .stop) ∧
      (op = .switchOff → s.suspended = false → o.more.head? = some .testSuspend) := by
  cases op <;> simp only [Player.exec, Player.goOn] at h <;> grind

theorem exec_starts (h : Player.exec fresh op s = some o) (hop : op.starts = false)
    (hresume : op = .testResume → s.suspended = false) (hoff : o.shared.off = true) :
    ∀ op' ∈ o.more, op'.starts = false := by
  cases op <;> simp only [Player.exec, Player.goOn] at h <;> grind [Op.starts]

theorem exec_heeds (h : Player.exec fresh op s = some o) : Heeds s op o where
  turn := (exec_turns h).1
  returned := (exec_ops h).1
  off := (exec_turns h).2.1
  userOff := (exec_turns h).2.2
  detecting := (exec_runs h).1
  starting := (exec_runs h).2.1
  starts := exec_starts h
  suspend := (exec_ops h).2.1
  stop := (exec_runs h).2.2
  switchOff := (exec_ops h).2.2
  forked := exec_forked h

/-- A step that does not succeed changes nothing, and what it leaves does not suspend or start anything. -/
theorem fail_ops (h : Player.fail fresh op s = some o) :
    op ≠ .switchOff ∧ op ≠ .testSuspend ∧ op ≠ .stop ∧ ∀ op' ∈ o.more, op'.starts = false ∧ ∀ k, op' ≠ .returned k := by
  cases op <;> simp only [Player.fail, Player.goOn] at h <;> grind [Op.starts]

theorem fail_heeds (h : Player.fail fresh op s = some o) : Heeds s op o := by
  obtain ⟨hshared, hforked⟩ := fail_forked h
  obtain ⟨hoff, hsuspend, hstop, hops⟩ := fail_ops h
  constructor
  case turn => exact .inl (hshared ▸ ⟨rfl, id⟩)
  case returned => exact fun k hk => absurd rfl ((hops _ hk).2 k)
  case off => exact fun hnow => .inl (hshared ▸ hnow)
  case userOff => exact fun hnow => .inl (hshared ▸ hnow)
  case detecting => exact fun _ hnow => hshared ▸ hnow
  case starting => exact fun _ hnow => hshared ▸ hnow
  case starts => exact fun _ _ _ op' hop' => (hops op' hop').1
  case suspend => exact fun heq => absurd heq hsuspend
  case stop => exact fun heq => absurd heq hstop
  case switchOff => exact fun heq => absurd heq hoff
  case forked =>
    intro th hth
    rw [hforked] at hth
    cases hth

/-! ### The invariant -/

/-- While a switch-off stands, nothing is on the way to start the detector, and its handler suspends the
detector before it returns. -/
structure SwitchInv (s : Threads) : Prop where
  turns : ∀ th ∈ s.threads, ∀ k, .returned k ∈ th.ops → k < s.shared.turn ∨ (k = s.shared.turn ∧ s.shared.off = true)
  progress : ∀ th ∈ s.threads, ∀ k, .returned k ∈ th.ops → k = s.shared.turn → s.shared.detector = .detecting →
    th.ops.head? = some .testSuspend ∨ th.ops.head? = some .stop
  user : s.shared.userOff = true → s.shared.off = true ∧ s.shared.detector ≠ .detecting
  calm : s.shared.off = true → s.shared.detector ≠ .starting
  quiet : s.shared.off = true → ∀ th ∈ s.threads, ∀ op ∈ th.ops, op.starts = false

variable {s s' : Threads} {t : Nat} {kind : Option Url} {op : Op} {rest : List Op} {o : Result}

/-- No playback thread has to do with a switch-off. -/
theorem audioStreamingThread_ops (url : Url) : ∀ op ∈ (audioStreamingThread url).ops, op.starts = false ∧
    ∀ k, op ≠ .returned k := by
  simp [audioStreamingThread, Op.starts]

/-- A switch-off that stands after a step is of the same turn as before. -/
theorem Heeds.turn_stays {s : Player} (ho : Heeds s op o) (hnow : o.shared.off = true) : o.shared.turn = s.turn := by
  obtain ⟨hsame, -⟩ | ⟨-, hoff, -⟩ := ho.turn
  · exact hsame
  · rw [hoff] at hnow
    cases hnow

/-- A turn that is over, or whose switch-off stands, stays so. -/
theorem Heeds.turn_done {s : Player} {k : Nat} (ho : Heeds s op o) (hk : k < s.turn ∨ (k = s.turn ∧ s.off = true)) :
    k < o.shared.turn ∨ (k = o.shared.turn ∧ o.shared.off = true) := by
  obtain ⟨hsame, hkept⟩ | ⟨hnext, -⟩ := ho.turn
  · rw [hsame]
    exact hk.imp id fun ⟨heq, hstands⟩ => ⟨heq, hkept hstands⟩
  · omega

theorem Heeds.forked_returned {s : Player} (ho : Heeds s op o) : ∀ th ∈ o.forked, ∀ k, .returned k ∉ th.ops := by
  intro th hth k hk
  obtain ⟨url, rfl⟩ := ho.forked th hth
  exact (audioStreamingThread_ops url _ hk).2 k rfl

/-- A turn whose switch-off has yet to return, among what the step leaves to its thread. -/
theorem SwitchInv.turns_rest (h : SwitchInv s) (hthread : s.threads[t]? = some ⟨kind, op :: rest⟩) {k : Nat}
    (hk : .returned k ∈ rest) : k < s.shared.turn ∨ (k = s.shared.turn ∧ s.shared.off = true) :=
  h.turns _ (List.mem_of_getElem? hthread) k (List.mem_cons_of_mem _ hk)

section Run
variable (h : SwitchInv s) (hthread : s.threads[t]? = some ⟨kind, op :: rest⟩) (ho : Heeds s.shared op o)
include h hthread ho

theorem turns_run : ∀ th ∈ s.threads.set t ⟨kind, o.more ++ rest⟩ ++ o.forked, ∀ k, .returned k ∈ th.ops →
    k < o.shared.turn ∨ (k = o.shared.turn ∧ o.shared.off = true) := by
  refine Pool.forall_run (fun th hth k hk => ho.turn_done (h.turns th hth k hk)) hthread (fun _ k hk => ?_)
    fun th hth k hk => absurd hk (ho.forked_returned th hth k)
  obtain hk | hk := List.mem_append.mp hk
  · obtain ⟨-, rfl, hsame, hnow⟩ := ho.returned k hk
    exact .inr ⟨hsame.symm, hnow⟩
  · exact ho.turn_done (h.turns_rest hthread hk)

theorem progress_run (hbefore : o.shared.off = true → op.starts = false)
    (hoff : op = .switchOff → s.shared.suspended = false ∨ s.shared.detector ≠ .detecting) :
    ∀ th ∈ s.threads.set t ⟨kind, o.more ++ rest⟩ ++ o.forked, ∀ k, .returned k ∈ th.ops → k = o.shared.turn →
      o.shared.detector = .detecting → th.ops.head? = some .testSuspend ∨ th.ops.head? = some .stop := by
  have hmem : (⟨kind, op :: rest⟩ : Thread (Option Url) Op) ∈ s.threads := List.mem_of_getElem? hthread
  refine Pool.forall_run (P := fun th => ∀ k, .returned k ∈ th.ops → k = o.shared.turn →
    o.shared.detector = .detecting → th.ops.head? = some .testSuspend ∨ th.ops.head? = some .stop) ?_ hthread ?_ ?_
  · intro th hth k hk hcurrent hdetecting
    obtain hlt | ⟨-, hnow⟩ := ho.turn_done (h.turns th hth k hk)
    · omega
    · exact h.progress th hth k hk (hcurrent.trans (ho.turn_stays hnow)) (ho.detecting (hbefore hnow) hdetecting)
  · intro _ k hk hcurrent hdetecting
    obtain hk | hk := List.mem_append.mp hk
    · obtain ⟨rfl, -, -, -⟩ := ho.returned k hk
      have hwas := ho.detecting rfl hdetecting
      have hflag : s.shared.suspended = false := (hoff rfl).resolve_right (absurd hwas)
      refine .inl ?_
      rw [List.head?_append, ho.switchOff rfl hflag]
      rfl
    · obtain hlt | ⟨-, hnow⟩ := ho.turn_done (h.turns_rest hthread hk)
      · omega
      · have hwas := ho.detecting (hbefore hnow) hdetecting
        obtain hhead | hhead :=
          h.progress _ hmem k (List.mem_cons_of_mem _ hk) (hcurrent.trans (ho.turn_stays hnow)) hwas
        · refine .inr ?_
          rw [List.head?_append, ho.suspend (Option.some.inj hhead) hwas]
          rfl
        · exact absurd hdetecting (ho.stop (Option.some.inj hhead))
  · exact fun th hth k hk => absurd hk (ho.forked_returned th hth k)

theorem user_run (hstarts : s.shared.off = true → op.starts = false) (huser : o.shared.userOff = true) :
    o.shared.off = true ∧ o.shared.detector ≠ .detecting := by
  have hkept : s.shared.off = true → o.shared.off = true := by
    obtain ⟨-, hkept⟩ | ⟨-, -, hcleared⟩ := ho.turn
    · exact hkept
    · rw [hcleared] at huser
      cases huser
  obtain hwas | rfl := ho.userOff huser
  · obtain ⟨hstands, hnot⟩ := h.user hwas
    exact ⟨hkept hstands, fun hdetecting => hnot (ho.detecting (hstarts hstands) hdetecting)⟩
  · have hmem : (⟨kind, _ :: rest⟩ : Thread (Option Url) Op) ∈ s.threads := List.mem_of_getElem? hthread
    obtain hlt | ⟨-, hstands⟩ := h.turns _ hmem _ List.mem_cons_self
    · omega
    · refine ⟨hkept hstands, fun hdetecting => ?_⟩
      have hhead := h.progress _ hmem _ List.mem_cons_self rfl (ho.detecting rfl hdetecting)
      simp at hhead

end Run

theorem quiet_run (hthread : s.threads[t]? = some ⟨kind, op :: rest⟩) (ho : Heeds s.shared op o)
    (hnow : o.shared.off = true) (hnot : op.starts = false)
    (hall : ∀ th ∈ s.threads, ∀ op ∈ th.ops, op.starts = false)
    (hresume : op = .testResume → s.shared.off = true → s.shared.suspended = false) :
    ∀ th ∈ s.threads.set t ⟨kind, o.more ++ rest⟩ ++ o.forked, ∀ op ∈ th.ops, op.starts = false := by
  refine Pool.forall_run hall hthread (fun _ op' hop' => ?_) fun th hth op' hop' => ?_
  · obtain hop' | hop' := List.mem_append.mp hop'
    · refine ho.starts hnot (fun heq => ?_) hnow op' hop'
      obtain hstands | hoff' := ho.off hnow
      · exact hresume heq hstands
      · rw [heq] at hoff'
        cases hoff'
    · exact hall _ (List.mem_of_getElem? hthread) op' (List.mem_cons_of_mem _ hop')
  · obtain ⟨url, rfl⟩ := ho.forked th hth
    exact (audioStreamingThread_ops url op' hop').1

theorem switchInv_run (h : SwitchInv s) (hthread : s.threads[t]? = some ⟨kind, op :: rest⟩) (ho : Heeds s.shared op o)
    (hstarts : s.shared.off = true → op.starts = false)
    (hoff : op = .switchOff → s.shared.detector ≠ .starting ∧
      (s.shared.suspended = false ∨ s.shared.detector ≠ .detecting) ∧
      ∀ th ∈ s.threads, ∀ op ∈ th.ops, op.starts = false)
    (hresume : op = .testResume → s.shared.off = true → s.shared.suspended = false) :
    SwitchInv ⟨o.shared, s.threads.set t ⟨kind, o.more ++ rest⟩ ++ o.forked⟩ := by
  -- under a switch-off that stands, or begins now, nothing starts the detector
  have hbefore : o.shared.off = true → op.starts = false ∧ ∀ th ∈ s.threads, ∀ op ∈ th.ops, op.starts = false := by
    intro hnow
    obtain hstands | rfl := ho.off hnow
    · exact ⟨hstarts hstands, h.quiet hstands⟩
    · exact ⟨rfl, (hoff rfl).2.2⟩
  constructor
  case turns => exact turns_run h hthread ho
  case progress => exact progress_run h hthread ho (fun hnow => (hbefore hnow).1) fun heq => (hoff heq).2.1
  case user => exact user_run h hthread ho hstarts
  case calm =>
    intro hnow hstarting
    have hwas := ho.starting (hbefore hnow).1 hstarting
    obtain hstands | rfl := ho.off hnow
    · exact h.calm hstands hwas
    · exact (hoff rfl).1 hwas
  case quiet => exact fun hnow => quiet_run hthread ho hnow (hbefore hnow).1 (hbefore hnow).2 hresume

/-- A message is handed to a new thread, which starts nothing by itself. -/
theorem switchInv_message (h : SwitchInv s) (m : Message) :
    SwitchInv ({ s with shared := s.shared.receive m }.fork ⟨none, handleMessage m⟩) := by
  have hops : ∀ op ∈ handleMessage m, op.starts = false ∧ ∀ k, op ≠ .returned k := by
    cases m with
    | switch on => cases on <;> simp [handleMessage, Op.starts]
    | subscribe => simp [handleMessage, Op.starts]
    | media url command =>
      cases url <;> cases command with
      | none => simp [handleMessage, download, Op.starts]
      | some c => cases c <;> simp [handleMessage, download, commandOps, Op.starts]
    | respond udp => cases udp <;> simp [handleMessage, Op.starts]
    | event e =>
      cases e with
      | ttsEnd url => cases url <;> simp [handleMessage, eventOps, download, Op.starts]
      | _ => simp [handleMessage, eventOps, Op.starts]
  have hshared : (s.shared.receive m).turn = s.shared.turn ∧ (s.shared.receive m).off = s.shared.off ∧
      (s.shared.receive m).userOff = s.shared.userOff ∧ (s.shared.receive m).detector = s.shared.detector := by
    cases m <;> exact ⟨rfl, rfl, rfl, rfl⟩
  obtain ⟨hturn, hoff, huser, hdetector⟩ := hshared
  refine ⟨?_, ?_, ?_, ?_, ?_⟩ <;> simp only [Pool.fork, hturn, hoff, huser, hdetector]
  · intro th hth k hk
    obtain hth | hth := List.mem_append.mp hth
    · exact h.turns th hth k hk
    · rw [List.mem_singleton.mp hth] at hk
      exact absurd rfl ((hops _ hk).2 k)
  · intro th hth k hk
    obtain hth | hth := List.mem_append.mp hth
    · exact h.progress th hth k hk
    · rw [List.mem_singleton.mp hth] at hk
      exact absurd rfl ((hops _ hk).2 k)
  · exact h.user
  · exact h.calm
  · intro hnow th hth op hop
    obtain hth | hth := List.mem_append.mp hth
    · exact h.quiet hnow th hth op hop
    · rw [List.mem_singleton.mp hth] at hop
      exact (hops op hop).1

theorem switchInv_step {e : PlayerEvent} (h : SwitchInv s) (hok : heeded s e = true) (hstep : step s e = some s') :
    SwitchInv s' := by
  cases e with
  | message m =>
    cases hstep
    exact switchInv_message h m
  | run t =>
    obtain ⟨kind, op, rest, o, hthread, ho, rfl⟩ := Pool.run_eq_some hstep
    have hmem : (⟨kind, op :: rest⟩ : Thread (Option Url) Op) ∈ s.threads := List.mem_of_getElem? hthread
    rw [heeded, nextOp_eq hthread] at hok
    refine switchInv_run h hthread (exec_heeds ho) (fun hstands => h.quiet hstands _ hmem op List.mem_cons_self) ?_ ?_
    · rintro rfl
      simpa [and_assoc] using hok
    · rintro rfl hstands
      simpa [hstands] using hok
  | fail t =>
    obtain ⟨kind, op, rest, o, hthread, ho, rfl⟩ := Pool.run_eq_some hstep
    have hmem : (⟨kind, op :: rest⟩ : Thread (Option Url) Op) ∈ s.threads := List.mem_of_getElem? hthread
    refine switchInv_run h hthread (fail_heeds ho) (fun hstands => h.quiet hstands _ hmem op List.mem_cons_self) ?_ ?_
    · rintro rfl
      cases ho
    · rintro rfl
      cases ho

theorem switchInv_start (detector : Detector) : SwitchInv (startPlayer detector) :=
  ⟨fun _ => (nomatch ·), fun _ => (nomatch ·), (nomatch ·), (nomatch ·), (nomatch ·)⟩

/-- **A switch-off is respected** in runs where it finds the flag and the detector as it expects them, and
nobody resumes a wake word that is still suspended by it. -/
theorem userOff_of_heeded {detector : Detector} {s : Threads}
    (h : Reach step (fun s e => heeded s e = true) (startPlayer detector) s) :
    s.shared.userOff = true → s.shared.detector ≠ .detecting := by
  have hinv : SwitchInv s :=
    Reach.invariant (switchInv_start detector) (fun _ _ _ hs hok hstep => switchInv_step hs hok hstep) h
  exact fun huser => (hinv.user huser).2

/-- A switch-off that finds the detector running suspends it. -/
theorem userOff_handled :
    ∃ s, Reach step (fun s e => heeded s e = true) (startPlayer .detecting) s ∧ s.shared.userOff = true ∧
      s.shared.detector ≠ .detecting := by
  have hrun : ∃ s, Reach step (fun s e => heeded s e = true) (startPlayer .detecting) s ∧ s.shared.userOff = true :=
    exists_reach (.message (.switch false) :: runs 0 6) (by decide)
  obtain ⟨s, hs, huser⟩ := hrun
  exact ⟨s, hs, huser, userOff_of_heeded hs huser⟩

/-- Something is played when the wake word is switched off: the flag is set already, so nothing happens. At
the end of the playback the detector starts again. -/
theorem playback_end_undoes_switchOff :
    ∃ s, Reach step (fun _ _ => True) (startPlayer .detecting) s ∧ s.shared.userOff = true ∧
      s.shared.detector = .detecting := by
  exact exists_reach (P := fun s : Threads => s.shared.userOff = true ∧ s.shared.detector = .detecting)
    (.message (.media (some [1]) none) :: runs 0 3 ++ runs 1 4 ++ .message (.switch false) :: runs 2 2 ++ runs 1 8)
    (by decide)

end Thingino.Esphome
