import Thingino.Esphome.Player

/-! Does the state of the player follow the newest playback?

A new playback is begun while the thread of the one before it may still run: `stop_current_playback` kills
its `play` process and goes on. When that thread ends it writes the same fields as every other, without a
look at whose they are by now. -/
namespace Thingino.Esphome
open Lib

/-- From `popen` to the last locked section of a playback. -/
def Op.streams : Op → Bool
  | .popen | .playing | .finish | .failed => true
  | _ => false

/-- What `download_and_stream_audio` does; the stop command is its first step. -/
def Op.loads : Op → Bool
  | .stopCurrent | .begin _ | .spawn _ | .inactive => true
  | _ => false

def streamsOf (th : Thread (Option Url) Op) : List Op := th.ops.filter Op.streams

def loadsOf (th : Thread (Option Url) Op) : List Op := th.ops.filter Op.loads

/-- The thread has not yet left the shared fields to others. -/
def running (th : Thread (Option Url) Op) : Bool := !(streamsOf th).isEmpty

/-- **The property**: as long as the thread runs that was started last and not stopped, a playback is active,
the url is that of the thread, and the state is not idle once the thread has reported that it plays. -/
def Follows (s : Threads) : Prop :=
  ∀ t th url, s.shared.newest = some t → s.threads[t]? = some th → th.kind = some url → running th = true →
    s.shared.playbackActive = true ∧ s.shared.currentUrl = some url ∧
      (streamsOf th = [.finish] → s.shared.state ≠ .idle)

/-- No step of another playback changes any of that. -/
def Untouched (s : Threads) (ok : Threads → PlayerEvent → Prop) : Prop :=
  ∀ n th t th' url s', s.shared.newest = some n → s.threads[n]? = some th → running th = true →
    s.threads[t]? = some th' → th'.kind = some url → t ≠ n → ok s (.run t) → step s (.run t) = some s' →
    s'.shared.playbackActive = s.shared.playbackActive ∧ s'.shared.currentUrl = s.shared.currentUrl ∧
      (s.shared.state ≠ .idle → s'.shared.state ≠ .idle)

/-- A request has begun a playback and has not created its thread yet. -/
def launching (th : Thread (Option Url) Op) : Bool :=
  match loadsOf th with
  | .spawn _ :: _ => true
  | _ => false

/-- When a playback thread ends, no later one runs and none is about to be created. -/
def current (s : Threads) : PlayerEvent → Bool
  | .run t =>
    match nextOp s t with
    | some .finish | some .failed =>
      (s.threads.all fun th => !launching th) &&
        s.shared.newest.all fun n => n = t || (s.threads[n]?).all fun th => !running th
    | _ => true
  | _ => true

/-! ### Where the threads are -/

/-- What is left of a playback between `popen` and its end. -/
def Streams (l : List Op) : Prop := l = [] ∨ l = [.popen] ∨ l = [.playing, .finish] ∨ l = [.finish] ∨ l = [.failed]

/-- What is left of a request, and perhaps a stop command behind it. -/
def Loads (l : List Op) : Prop :=
  ∃ command, (command = [] ∨ command = [.stopCurrent]) ∧
    (l = command ∨ ∃ url, l = [.stopCurrent, .begin url, .spawn url] ++ command ∨ l = [.begin url, .spawn url] ++ command ∨
      l = .spawn url :: command ∨ l = .inactive :: command)

variable {s : Player} {fresh : Nat} {op : Op} {rest : List Op} {o : Result}

/-- Only `popen` puts something of a playback before the rest, and nothing does of a request. -/
theorem exec_more (h : Player.exec fresh op s = some o) :
    (op = .popen → o.more.filter Op.streams = [.playing, .finish]) ∧
      (op ≠ .popen → o.more.filter Op.streams = []) ∧ o.more.filter Op.loads = [] ∧ .setState .idle ∉ o.more := by
  cases op <;> simp only [Player.exec, Player.goOn] at h <;> grind [Op.streams, Op.loads]

/-- Failures replace what a `popen` or the new thread would have been. -/
theorem fail_more (h : Player.fail fresh op s = some o) :
    ((op = .popen ∧ o.more = [.failed]) ∨ ((∃ url, op = .spawn url) ∧ o.more = [.inactive]) ∨
      (op.streams = false ∧ op.loads = false ∧ o.more.filter Op.streams = [] ∧ o.more.filter Op.loads = [] ∧
        .setState .idle ∉ o.more)) := by
  cases op <;> simp only [Player.fail, Player.goOn] at h <;> grind [Op.streams, Op.loads]

/-- What else a step may do to the fields. -/
theorem exec_fields (h : Player.exec fresh op s = some o) (hloads : op.loads = false) (hstate : op ≠ .setState .idle) :
    o.shared.newest = s.newest ∧ o.forked = [] ∧
      (op ≠ .finish → op ≠ .failed → o.shared.playbackActive = s.playbackActive ∧
        o.shared.currentUrl = s.currentUrl ∧ (s.state ≠ .idle → o.shared.state ≠ .idle)) ∧
      (op = .playing → o.shared.state ≠ .idle) := by
  cases op <;> simp only [Player.exec, Player.goOn] at h <;> grind [Op.loads]

/-! ### The invariant -/

/-- A request that has stopped the playback before it has left no newest thread, until it creates one. -/
structure PlaybackInv (s : Threads) : Prop where
  alone : Alone s
  streams : ∀ th ∈ s.threads, Streams (streamsOf th)
  loads : ∀ th ∈ s.threads, Loads (loadsOf th)
  requests : ∀ th ∈ s.threads, loadsOf th ≠ [] → th.kind = none
  states : ∀ th ∈ s.threads, .setState .idle ∉ th.ops
  begun : ∀ th ∈ s.threads, ∀ url l, loadsOf th = .begin url :: l → s.shared.newest = none
  launched : ∀ th ∈ s.threads, ∀ url l, loadsOf th = .spawn url :: l →
    s.shared.newest = none ∧ s.shared.playbackActive = true ∧ s.shared.currentUrl = some url
  failed : ∀ th ∈ s.threads, ∀ l, loadsOf th = .inactive :: l → s.shared.newest = none
  known : ∀ n, s.shared.newest = some n → n < s.threads.length
  follows : Follows s

variable {s s' : Threads} {t : Nat} {k : Option Url}

theorem not_idle (h : PlaybackInv s) (hthread : s.threads[t]? = some ⟨k, op :: rest⟩) : op ≠ .setState .idle := by
  rintro rfl
  exact h.states _ (List.mem_of_getElem? hthread) List.mem_cons_self

theorem loadsOf_cons (hop : op.loads = true) : loadsOf ⟨k, op :: rest⟩ = op :: loadsOf ⟨k, rest⟩ :=
  List.filter_cons_of_pos hop

theorem loadsOf_append {more : List Op} (h : more.filter Op.loads = []) :
    loadsOf ⟨k, more ++ rest⟩ = loadsOf ⟨k, rest⟩ := by
  rw [loadsOf, loadsOf, List.filter_append, h, List.nil_append]

theorem loadsOf_skip (hop : op.loads = false) : loadsOf ⟨k, op :: rest⟩ = loadsOf ⟨k, rest⟩ :=
  List.filter_cons_of_neg (by rw [hop]; exact Bool.false_ne_true)

theorem streamsOf_cons (hop : op.streams = true) : streamsOf ⟨k, op :: rest⟩ = op :: streamsOf ⟨k, rest⟩ :=
  List.filter_cons_of_pos hop

theorem streamsOf_append {more : List Op} (h : more.filter Op.streams = []) :
    streamsOf ⟨k, more ++ rest⟩ = streamsOf ⟨k, rest⟩ := by
  rw [streamsOf, streamsOf, List.filter_append, h, List.nil_append]

theorem streamsOf_skip (hop : op.streams = false) : streamsOf ⟨k, op :: rest⟩ = streamsOf ⟨k, rest⟩ :=
  List.filter_cons_of_neg (by rw [hop]; exact Bool.false_ne_true)

/-- What may follow a step of a playback. -/
theorem streams_exec (h : Streams (streamsOf ⟨k, op :: rest⟩)) (ho : Player.exec fresh op s.shared = some o) :
    Streams (streamsOf ⟨k, o.more ++ rest⟩) ∧
      ((op = .finish ∨ op = .failed) → streamsOf ⟨k, o.more ++ rest⟩ = []) ∧
      (streamsOf ⟨k, o.more ++ rest⟩ = [.finish] → op = .playing ∨ streamsOf ⟨k, op :: rest⟩ = [.finish]) ∧
      (streamsOf ⟨k, o.more ++ rest⟩ ≠ [] → streamsOf ⟨k, op :: rest⟩ ≠ []) := by
  obtain ⟨hpopen, hother, -⟩ := exec_more ho
  by_cases hop : op.streams = true
  · rw [streamsOf_cons hop] at h ⊢
    by_cases hp : op = .popen
    · subst hp
      have hrest : streamsOf ⟨k, rest⟩ = [] := by simpa [Streams] using h
      have hnew : streamsOf ⟨k, o.more ++ rest⟩ = [.playing, .finish] := by
        rw [streamsOf, List.filter_append, hpopen rfl]
        exact congrArg _ hrest
      rw [hnew]
      simp [Streams]
    · rw [streamsOf_append (hother hp)]
      cases op <;> simp_all [Streams, Op.streams]
  · have hskip : streamsOf ⟨k, o.more ++ rest⟩ = streamsOf ⟨k, op :: rest⟩ := by
      rw [streamsOf_append (hother fun hp => hop (by rw [hp]; rfl)), streamsOf_skip (by simpa using hop)]
    rw [hskip]
    refine ⟨h, ?_, .inr, id⟩
    rintro (rfl | rfl) <;> exact absurd rfl hop

/-- What may follow a step of a request. -/
theorem loads_exec (h : Loads (loadsOf ⟨k, op :: rest⟩)) (ho : Player.exec fresh op s.shared = some o) :
    Loads (loadsOf ⟨k, o.more ++ rest⟩) ∧
      (op.loads = false → loadsOf ⟨k, o.more ++ rest⟩ = loadsOf ⟨k, op :: rest⟩) ∧
      (op.loads = true → loadsOf ⟨k, op :: rest⟩ = op :: loadsOf ⟨k, o.more ++ rest⟩) := by
  obtain ⟨-, -, hmore, -⟩ := exec_more ho
  rw [loadsOf_append hmore]
  cases hop : op.loads with
  | true =>
    rw [loadsOf_cons hop] at h ⊢
    refine ⟨?_, fun hfalse => absurd hfalse (by decide), fun _ => rfl⟩
    obtain ⟨command, hcommand, hl⟩ := h
    cases op <;> simp_all [Loads] <;> grind
  | false =>
    rw [loadsOf_skip hop] at h ⊢
    exact ⟨h, fun _ => rfl, fun htrue => absurd htrue (by decide)⟩

/-- The order of a request. -/
theorem loads_order {l : List Op} (h : Loads (op :: l)) :
    (∀ url l', l = .begin url :: l' → op = .stopCurrent) ∧ (∀ url l', l = .spawn url :: l' → op = .begin url) ∧
      ∀ l', l ≠ .inactive :: l' := by
  obtain ⟨command, hcommand, hl⟩ := h
  cases op <;> simp_all <;> grind

/-- A playback takes no step of a request. -/
theorem loads_of_isSome (h : PlaybackInv s) (hthread : s.threads[t]? = some ⟨k, op :: rest⟩) (hkind : k.isSome = true) :
    op.loads = false := by
  rw [← Bool.not_eq_true]
  intro hop
  have hne : loadsOf ⟨k, op :: rest⟩ ≠ [] := by
    rw [loadsOf_cons hop]
    exact List.cons_ne_nil _ _
  rw [show k = none from h.requests _ (List.mem_of_getElem? hthread) hne] at hkind
  cases hkind

/-- A thread with a part of a request before it, after a step: it ran itself, or a playback ran. -/
theorem request_of_run (h : PlaybackInv s) (hthread : s.threads[t]? = some ⟨k, op :: rest⟩) {more : List Op}
    {forked : List (Thread (Option Url) Op)} (hforked : ∀ th ∈ forked, ∃ url, th = audioStreamingThread url)
    {th : Thread (Option Url) Op} (hth : th ∈ s.threads.set t ⟨k, more ++ rest⟩ ++ forked) {op' : Op} {l : List Op}
    (hl : loadsOf th = op' :: l) : th = ⟨k, more ++ rest⟩ ∨ (th ∈ s.threads ∧ op.loads = false) := by
  have hloads : loadsOf th ≠ [] := hl ▸ List.cons_ne_nil _ _
  obtain ⟨i, hi⟩ := List.mem_iff_getElem?.mp hth
  obtain ⟨-, rfl⟩ | ⟨hne, hold⟩ | hnew := Pool.getElem?_run hi
  · exact .inl rfl
  · have hmem := List.mem_of_getElem? hold
    have hops : th.ops ≠ [] := by
      intro hnil
      rw [loadsOf, hnil] at hloads
      exact hloads rfl
    have hplayback := isSome_of_alone h.alone hthread hold hne (h.requests th hmem hloads) hops
    exact .inr ⟨hmem, loads_of_isSome h hthread hplayback⟩
  · obtain ⟨url, rfl⟩ := hforked th hnew
    exact absurd rfl hloads

theorem current_end (hok : current s (.run t) = true) (hthread : s.threads[t]? = some ⟨k, op :: rest⟩)
    (hend : op = .finish ∨ op = .failed) :
    (∀ th ∈ s.threads, launching th = false) ∧
      (s.shared.newest.all fun n => n = t || (s.threads[n]?).all fun th => !running th) = true := by
  obtain rfl | rfl := hend <;>
    simpa only [current, nextOp_eq hthread, Bool.and_eq_true, List.all_eq_true, Bool.not_eq_true'] using hok

/-- No thread is between the begin of a playback and its creation when another one ends. -/
theorem not_launching (hok : current s (.run t) = true) (hthread : s.threads[t]? = some ⟨k, op :: rest⟩)
    (hend : op = .finish ∨ op = .failed) {th : Thread (Option Url) Op} (hth : th ∈ s.threads) {url : Url} {l : List Op} :
    loadsOf th ≠ .spawn url :: l := by
  intro hloads
  have hlaunching := (current_end hok hthread hend).1 th hth
  rw [launching, hloads] at hlaunching
  cases hlaunching

/-- When a thread ends, it is the newest one or that does not run. -/
theorem not_running (hok : current s (.run t) = true) (hthread : s.threads[t]? = some ⟨k, op :: rest⟩)
    (hend : op = .finish ∨ op = .failed) {n : Nat} (hnewest : s.shared.newest = some n) {th : Thread (Option Url) Op}
    (hth : s.threads[n]? = some th) : n = t ∨ running th = false := by
  have hlast := (current_end hok hthread hend).2
  rw [hnewest, Option.all_some, hth, Option.all_some] at hlast
  simpa using hlast

theorem running_iff {th : Thread (Option Url) Op} : running th = true ↔ streamsOf th ≠ [] := by
  rw [running, Bool.not_eq_true', List.isEmpty_eq_false_iff]

/-- The newest thread and the fields, after a step that is not part of a request. -/
theorem follows_exec (h : PlaybackInv s) (hthread : s.threads[t]? = some ⟨k, op :: rest⟩)
    (ho : Player.exec s.threads.length op s.shared = some o) (hok : current s (.run t) = true) (hop : op.loads = false) :
    Follows ⟨o.shared, s.threads.set t ⟨k, o.more ++ rest⟩ ++ o.forked⟩ := by
  have hmem : (⟨k, op :: rest⟩ : Thread (Option Url) Op) ∈ s.threads := List.mem_of_getElem? hthread
  have hstate := not_idle h hthread
  obtain ⟨hnewest, hforked, hfields, hplaying⟩ := exec_fields ho hop hstate
  obtain ⟨-, hends, hreports, hruns⟩ := streams_exec (h.streams _ hmem) ho
  intro n th url hn hth hkind hrunning
  rw [hnewest] at hn
  obtain ⟨rfl, rfl⟩ | ⟨hne, hold⟩ | hnew := Pool.getElem?_run hth
  · rw [running_iff] at hrunning
    have hgoes : ¬(op = .finish ∨ op = .failed) := fun hend => hrunning (hends hend)
    rw [not_or] at hgoes
    obtain ⟨hactive, hurl, hkept⟩ := hfields hgoes.1 hgoes.2
    obtain ⟨hwas, hwhat, hreported⟩ := h.follows n _ url hn hthread hkind (running_iff.mpr (hruns hrunning))
    refine ⟨hactive.trans hwas, hurl.trans hwhat, fun hfinish => ?_⟩
    obtain hnow | hbefore := hreports hfinish
    · exact hplaying hnow
    · exact hkept (hreported hbefore)
  · have hgoes : ¬(op = .finish ∨ op = .failed) := by
      intro hend
      obtain heq | hstopped := not_running hok hthread hend hn hold
      · exact hne heq
      · rw [hstopped] at hrunning
        cases hrunning
    rw [not_or] at hgoes
    obtain ⟨hactive, hurl, hkept⟩ := hfields hgoes.1 hgoes.2
    obtain ⟨hwas, hwhat, hreported⟩ := h.follows n th url hn hold hkind hrunning
    exact ⟨hactive.trans hwas, hurl.trans hwhat, fun hfinish => hkept (hreported hfinish)⟩
  · rw [hforked] at hnew
    cases hnew

/-- A new playback thread. -/
theorem audioStreamingThread_place (url : Url) :
    streamsOf (audioStreamingThread url) = [.popen] ∧ loadsOf (audioStreamingThread url) = [] ∧
      .setState .idle ∉ (audioStreamingThread url).ops :=
  ⟨rfl, rfl, by simp [audioStreamingThread]⟩

/-- A thread that is created is the newest one, and what has been begun is its playback. -/
theorem follows_spawn (h : PlaybackInv s) {url : Url} (hthread : s.threads[t]? = some ⟨k, .spawn url :: rest⟩) :
    Follows ⟨{ s.shared with newest := some s.threads.length },
      s.threads.set t ⟨k, rest⟩ ++ [audioStreamingThread url]⟩ := by
  have hmem : (⟨k, .spawn url :: rest⟩ : Thread (Option Url) Op) ∈ s.threads := List.mem_of_getElem? hthread
  obtain ⟨-, hactive, hurl⟩ := h.launched _ hmem url _ (loadsOf_cons rfl)
  intro n th url' hn hth hkind hrunning
  obtain rfl := Option.some.inj hn
  obtain ⟨heq, -⟩ | ⟨-, hold⟩ | hnew := Pool.getElem?_run hth
  · obtain ⟨hlt, -⟩ := List.getElem?_eq_some_iff.mp hthread
    omega
  · obtain ⟨hlt, -⟩ := List.getElem?_eq_some_iff.mp hold
    omega
  · rw [List.mem_singleton] at hnew
    subst hnew
    cases hkind
    exact ⟨hactive, hurl, fun hfinish => absurd ((audioStreamingThread_place url).1.symm.trans hfinish) (by decide)⟩

theorem follows_none (hnewest : s.shared.newest = none) : Follows s := by
  intro n th url hn
  rw [hnewest] at hn
  cases hn

/-- What the steps of a request do to the fields. -/
theorem exec_request (ho : Player.exec fresh op s.shared = some o) :
    (op = .stopCurrent → o.shared.newest = none) ∧
      (∀ url, op = .begin url → o.shared.newest = s.shared.newest ∧ o.shared.playbackActive = true ∧
        o.shared.currentUrl = some url) ∧
      (op = .inactive → o.shared.newest = s.shared.newest) ∧
      (∀ n, o.shared.newest = some n → s.shared.newest = some n ∨ (n = fresh ∧ ∃ url, op = .spawn url)) := by
  cases op <;> simp only [Player.exec, Player.goOn] at ho <;> grind

theorem follows_run (h : PlaybackInv s) (hthread : s.threads[t]? = some ⟨k, op :: rest⟩)
    (ho : Player.exec s.threads.length op s.shared = some o) (hok : current s (.run t) = true) :
    Follows ⟨o.shared, s.threads.set t ⟨k, o.more ++ rest⟩ ++ o.forked⟩ := by
  have hmem : (⟨k, op :: rest⟩ : Thread (Option Url) Op) ∈ s.threads := List.mem_of_getElem? hthread
  obtain ⟨hstop, hbegin, hinactive, -⟩ := exec_request ho
  cases hop : op.loads with
  | false => exact follows_exec h hthread ho hok hop
  | true =>
    cases op with
    | stopCurrent => exact follows_none (hstop rfl)
    | begin url => exact follows_none ((hbegin url rfl).1.trans (h.begun _ hmem url _ (loadsOf_cons rfl)))
    | spawn url =>
      cases ho
      exact follows_spawn h hthread
    | inactive => exact follows_none ((hinactive rfl).trans (h.failed _ hmem _ (loadsOf_cons rfl)))
    | _ => cases hop

theorem playbackInv_exec (h : PlaybackInv s) (hthread : s.threads[t]? = some ⟨k, op :: rest⟩)
    (ho : Player.exec s.threads.length op s.shared = some o) (hok : current s (.run t) = true) :
    PlaybackInv ⟨o.shared, s.threads.set t ⟨k, o.more ++ rest⟩ ++ o.forked⟩ := by
  have hmem : (⟨k, op :: rest⟩ : Thread (Option Url) Op) ∈ s.threads := List.mem_of_getElem? hthread
  have hstate := not_idle h hthread
  have hforked := exec_forked ho
  obtain ⟨hstop, hbegin, -, hspawn⟩ := exec_request ho
  obtain ⟨-, -, hmore, hidle⟩ := exec_more ho
  obtain ⟨hloads, hsame, hcons⟩ := loads_exec (h.loads _ hmem) ho
  have hplayback : ∀ th ∈ o.forked, streamsOf th = [.popen] ∧ loadsOf th = [] ∧ .setState .idle ∉ th.ops := by
    intro th hth
    obtain ⟨url, rfl⟩ := hforked th hth
    exact audioStreamingThread_place url
  -- the newest thread stays what it is, unless a request goes on
  have hkept : op.loads = false → o.shared.newest = s.shared.newest := fun hop => (exec_fields ho hop hstate).1
  refine ⟨alone_run h.alone hthread hforked, ?_, ?_, ?_, ?_, ?_, ?_, ?_, ?_, follows_run h hthread ho hok⟩
  · refine Pool.forall_run h.streams hthread (fun hold => (streams_exec hold ho).1) fun th hth => ?_
    rw [(hplayback th hth).1]
    exact .inr (.inl rfl)
  · refine Pool.forall_run h.loads hthread (fun _ => hloads) fun th hth => ?_
    rw [(hplayback th hth).2.1]
    exact ⟨[], .inl rfl, .inl rfl⟩
  · refine Pool.forall_run h.requests hthread (fun hold hl => ?_) fun th hth hl => absurd (hplayback th hth).2.1 hl
    refine hold fun hnil => hl ?_
    rw [loadsOf_append hmore]
    exact (List.filter_eq_nil_iff.mpr fun op' hop' => List.filter_eq_nil_iff.mp hnil op' (List.mem_cons_of_mem _ hop'))
  · refine Pool.forall_run h.states hthread (fun hold hin => ?_) fun th hth => (hplayback th hth).2.2
    obtain hin | hin := List.mem_append.mp hin
    · exact hidle hin
    · exact hold (List.mem_cons_of_mem _ hin)
  · intro th hth url l hl
    obtain rfl | ⟨hold, hop⟩ := request_of_run h hthread hforked hth hl
    · cases hop : op.loads with
      | true =>
        have horder := h.loads _ hmem
        rw [hcons hop] at horder
        exact hstop ((loads_order horder).1 url l hl)
      | false => exact (hkept hop).trans (h.begun _ hmem url l ((hsame hop).symm.trans hl))
    · exact (hkept hop).trans (h.begun th hold url l hl)
  · intro th hth url l hl
    have hgo : ∀ {old : Thread (Option Url) Op}, old ∈ s.threads → loadsOf old = .spawn url :: l → op.loads = false →
        o.shared.newest = none ∧ o.shared.playbackActive = true ∧ o.shared.currentUrl = some url := by
      intro old hold hl hop
      have hnot : ∀ {op'}, op = op' → (op' = .finish ∨ op' = .failed) → False := fun heq hend =>
        not_launching hok hthread (heq ▸ hend) hold hl
      obtain ⟨hnewest, -, hfields, -⟩ := exec_fields ho hop hstate
      obtain ⟨hactive, hurl, -⟩ := hfields (fun heq => hnot heq (.inl rfl)) (fun heq => hnot heq (.inr rfl))
      obtain ⟨hnone, hwas, hwhat⟩ := h.launched old hold url l hl
      exact ⟨hnewest.trans hnone, hactive.trans hwas, hurl.trans hwhat⟩
    obtain rfl | ⟨hold, hop⟩ := request_of_run h hthread hforked hth hl
    · cases hop : op.loads with
      | true =>
        have horder := h.loads _ hmem
        rw [hcons hop] at horder
        obtain rfl := (loads_order horder).2.1 url l hl
        obtain ⟨hnewest, hactive, hurl⟩ := hbegin url rfl
        exact ⟨hnewest.trans (h.begun _ hmem url _ (hcons rfl)), hactive, hurl⟩
      | false => exact hgo hmem ((hsame hop).symm.trans hl) hop
    · exact hgo hold hl hop
  · intro th hth l hl
    obtain rfl | ⟨hold, hop⟩ := request_of_run h hthread hforked hth hl
    · cases hop : op.loads with
      | true =>
        have horder := h.loads _ hmem
        rw [hcons hop] at horder
        exact absurd hl ((loads_order horder).2.2 l)
      | false => exact (hkept hop).trans (h.failed _ hmem l ((hsame hop).symm.trans hl))
    · exact (hkept hop).trans (h.failed th hold l hl)
  · intro n hn
    rw [List.length_append, List.length_set]
    obtain hwas | ⟨rfl, url, rfl⟩ := hspawn n hn
    · exact Nat.lt_of_lt_of_le (h.known n hwas) (Nat.le_add_right ..)
    · cases ho
      exact Nat.lt_succ_self _

/-- A step that does not succeed ends its playback or its request, or leaves both as they are. -/
theorem places_fail (h : PlaybackInv s) (hthread : s.threads[t]? = some ⟨k, op :: rest⟩)
    (ho : Player.fail fresh op s.shared = some o) :
    (streamsOf ⟨k, o.more ++ rest⟩ = streamsOf ⟨k, op :: rest⟩ ∨
        (streamsOf ⟨k, op :: rest⟩ = [.popen] ∧ streamsOf ⟨k, o.more ++ rest⟩ = [.failed])) ∧
      (loadsOf ⟨k, o.more ++ rest⟩ = loadsOf ⟨k, op :: rest⟩ ∨
        ∃ url command, (command = [] ∨ command = [.stopCurrent]) ∧ loadsOf ⟨k, op :: rest⟩ = .spawn url :: command ∧
          loadsOf ⟨k, o.more ++ rest⟩ = .inactive :: command) ∧
      .setState .idle ∉ o.more := by
  have hmem : (⟨k, op :: rest⟩ : Thread (Option Url) Op) ∈ s.threads := List.mem_of_getElem? hthread
  obtain ⟨rfl, hmore⟩ | ⟨⟨url, rfl⟩, hmore⟩ | ⟨hstreams, hloads, hmore, hmore', hidle⟩ := fail_more ho
  · have hrest : streamsOf ⟨k, rest⟩ = [] := by
      have hwas := h.streams _ hmem
      rw [streamsOf_cons rfl] at hwas
      simpa [Streams] using hwas
    rw [hmore]
    refine ⟨.inr ⟨?_, ?_⟩, .inl ?_, by simp⟩
    · rw [streamsOf_cons rfl, hrest]
    · exact (streamsOf_cons rfl).trans (congrArg _ hrest)
    · exact (loadsOf_append rfl).trans (loadsOf_skip rfl).symm
  · obtain ⟨command, hcommand, hl⟩ := h.loads _ hmem
    rw [loadsOf_cons rfl] at hl
    have hrest : loadsOf ⟨k, rest⟩ = command := by
      obtain rfl | rfl := hcommand <;> simpa using hl
    rw [hmore]
    refine ⟨.inl ?_, .inr ⟨url, command, hcommand, ?_, ?_⟩, by simp⟩
    · exact (streamsOf_append rfl).trans (streamsOf_skip rfl).symm
    · rw [loadsOf_cons rfl, hrest]
    · exact (loadsOf_cons rfl).trans (congrArg _ hrest)
  · refine ⟨.inl ?_, .inl ?_, hidle⟩
    · rw [streamsOf_append hmore, streamsOf_skip hstreams]
    · rw [loadsOf_append hmore', loadsOf_skip hloads]

theorem playbackInv_fail (h : PlaybackInv s) (hthread : s.threads[t]? = some ⟨k, op :: rest⟩)
    (ho : Player.fail s.threads.length op s.shared = some o) :
    PlaybackInv ⟨o.shared, s.threads.set t ⟨k, o.more ++ rest⟩ ++ o.forked⟩ := by
  have hmem : (⟨k, op :: rest⟩ : Thread (Option Url) Op) ∈ s.threads := List.mem_of_getElem? hthread
  obtain ⟨hshared, hforked⟩ := fail_forked ho
  obtain ⟨hstreams, hloads, hidle⟩ := places_fail h hthread ho
  rw [hshared, hforked]
  have hnone : ∀ th ∈ ([] : List (Thread (Option Url) Op)), ∃ url, th = audioStreamingThread url := by
    intro th hth
    cases hth
  -- a thread with the rest of a request had it before, unless no thread could be created for it
  have hrequest : ∀ th ∈ s.threads.set t ⟨k, o.more ++ rest⟩ ++ [], ∀ op' l, loadsOf th = op' :: l →
      (∃ old ∈ s.threads, loadsOf old = op' :: l) ∨
        (op' = .inactive ∧ ∃ old ∈ s.threads, ∃ url, loadsOf old = .spawn url :: l) := by
    intro th hth op' l hl
    obtain rfl | ⟨hold, -⟩ := request_of_run h hthread hnone hth hl
    · obtain hsame | ⟨url, command, -, hspawn, hinactive⟩ := hloads
      · exact .inl ⟨_, hmem, hsame.symm.trans hl⟩
      · obtain ⟨rfl, rfl⟩ := List.cons.inj (hinactive.symm.trans hl)
        exact .inr ⟨rfl, _, hmem, url, hspawn⟩
    · exact .inl ⟨th, hold, hl⟩
  refine ⟨alone_run h.alone hthread hnone, ?_, ?_, ?_, ?_, ?_, ?_, ?_, ?_, ?_⟩
  · refine Pool.forall_run h.streams hthread (fun hold => ?_) fun th hth => absurd hth List.not_mem_nil
    obtain hsame | ⟨-, hfailed⟩ := hstreams
    · rwa [hsame]
    · rw [hfailed]
      exact .inr (.inr (.inr (.inr rfl)))
  · refine Pool.forall_run h.loads hthread (fun hold => ?_) fun th hth => absurd hth List.not_mem_nil
    obtain hsame | ⟨url, command, hcommand, -, hinactive⟩ := hloads
    · rwa [hsame]
    · exact ⟨command, hcommand, .inr ⟨url, .inr (.inr (.inr hinactive))⟩⟩
  · refine Pool.forall_run h.requests hthread (fun hold hl => hold ?_) fun th hth => absurd hth List.not_mem_nil
    obtain hsame | ⟨url, command, -, hspawn, -⟩ := hloads
    · rwa [← hsame]
    · rw [hspawn]
      exact List.cons_ne_nil _ _
  · refine Pool.forall_run h.states hthread (fun hold hin => ?_) fun th hth => absurd hth List.not_mem_nil
    obtain hin | hin := List.mem_append.mp hin
    · exact hidle hin
    · exact hold (List.mem_cons_of_mem _ hin)
  · intro th hth url l hl
    obtain ⟨old, hold, hwas⟩ | ⟨heq, -⟩ := hrequest th hth _ l hl
    · exact h.begun old hold url l hwas
    · cases heq
  · intro th hth url l hl
    obtain ⟨old, hold, hwas⟩ | ⟨heq, -⟩ := hrequest th hth _ l hl
    · exact h.launched old hold url l hwas
    · cases heq
  · intro th hth l hl
    obtain ⟨old, hold, hwas⟩ | ⟨-, old, hold, url, hwas⟩ := hrequest th hth _ l hl
    · exact h.failed old hold l hwas
    · exact (h.launched old hold url l hwas).1
  · intro n hn
    rw [List.append_nil, List.length_set]
    exact h.known n hn
  · intro n th url hn hth hkind hrunning
    obtain ⟨rfl, rfl⟩ | ⟨-, hold⟩ | hnew := Pool.getElem?_run hth
    · rw [running_iff] at hrunning
      have hran : streamsOf ⟨k, op :: rest⟩ ≠ [] := by
        obtain hsame | ⟨hpopen, -⟩ := hstreams
        · rwa [← hsame]
        · rw [hpopen]
          exact List.cons_ne_nil _ _
      obtain ⟨hactive, hurl, hreported⟩ := h.follows n _ url hn hthread hkind (running_iff.mpr hran)
      refine ⟨hactive, hurl, fun hfinish => hreported ?_⟩
      obtain hsame | ⟨-, hfailed⟩ := hstreams
      · exact hsame.symm.trans hfinish
      · exact absurd (hfailed.symm.trans hfinish) (by decide)
    · exact h.follows n th url hn hold hkind hrunning
    · cases hnew

/-- No handler takes a step of a playback. -/
theorem handleMessage_ops (m : Message) : ∀ op ∈ handleMessage m, op.streams = false ∧ op ≠ .setState .idle := by
  rcases m with (_ | _) | _ | ⟨_ | _, _ | (_ | _ | _)⟩ | (_ | _) | (_ | _ | _ | (_ | _) | _) <;>
    simp [handleMessage, eventOps, commandOps, download, Op.streams]

/-- A request has a url, a stop command, or both. -/
theorem handleMessage_loads (m : Message) : ∃ command, (command = [] ∨ command = [.stopCurrent]) ∧
    (loadsOf ⟨none, handleMessage m⟩ = command ∨ ∃ url, loadsOf ⟨none, handleMessage m⟩ = download url ++ command) := by
  rcases m with (_ | _) | _ | ⟨_ | url, _ | (_ | _ | _)⟩ | (_ | _) | (_ | _ | _ | (_ | url) | _) <;>
    simp [loadsOf, List.filter_cons, handleMessage, eventOps, commandOps, download, Op.loads]

theorem receive_fields (s : Player) (m : Message) :
    (s.receive m).newest = s.newest ∧ (s.receive m).playbackActive = s.playbackActive ∧
      (s.receive m).currentUrl = s.currentUrl ∧ (s.receive m).state = s.state := by
  cases m <;> exact ⟨rfl, rfl, rfl, rfl⟩

/-- A new handler has not begun. -/
theorem playbackInv_message (h : PlaybackInv s) (m : Message) (hserial : serial s (.message m) = true) :
    PlaybackInv ({ s with shared := s.shared.receive m }.fork ⟨none, handleMessage m⟩) := by
  obtain ⟨hnewest, hactive, hurl, hstate⟩ := receive_fields s.shared m
  obtain ⟨command, hcommand, hloads⟩ := handleMessage_loads m
  have hstreams : streamsOf ⟨none, handleMessage m⟩ = [] :=
    List.filter_eq_nil_iff.mpr fun op hop hstep => by
      rw [(handleMessage_ops m op hop).1] at hstep
      cases hstep
  have hstart : ∀ op l, loadsOf ⟨none, handleMessage m⟩ = op :: l → op = .stopCurrent := by
    intro op l hl
    obtain rfl | rfl := hcommand <;> obtain hload | ⟨url, hload⟩ := hloads <;> rw [hload] at hl
    · cases hl
    · exact (List.cons.inj hl).1.symm
    · exact (List.cons.inj hl).1.symm
    · exact (List.cons.inj hl).1.symm
  have hall : ∀ {P : Thread (Option Url) Op → Prop}, (∀ th ∈ s.threads, P th) → P ⟨none, handleMessage m⟩ →
      ∀ th ∈ s.threads ++ [⟨none, handleMessage m⟩], P th := by
    intro P hold hnew th hth
    obtain hth | hth := List.mem_append.mp hth
    · exact hold th hth
    · rw [List.mem_singleton.mp hth]
      exact hnew
  constructor
  case alone => exact alone_step (e := .message m) h.alone hserial rfl
  case streams => exact hall h.streams (.inl hstreams)
  case loads =>
    refine hall h.loads ⟨command, hcommand, ?_⟩
    obtain hload | ⟨url, hload⟩ := hloads
    · exact .inl hload
    · exact .inr ⟨url, .inl hload⟩
  case requests => exact hall h.requests fun _ => rfl
  case states => exact hall h.states fun hin => (handleMessage_ops m _ hin).2 rfl
  case begun =>
    refine hall (fun th hth url l hl => hnewest.trans (h.begun th hth url l hl)) fun url l hl => ?_
    cases hstart _ l hl
  case launched =>
    refine hall (fun th hth url l hl => ?_) fun url l hl => ?_
    · obtain ⟨hnone, hwas, hwhat⟩ := h.launched th hth url l hl
      exact ⟨hnewest.trans hnone, hactive.trans hwas, hurl.trans hwhat⟩
    · cases hstart _ l hl
  case failed =>
    refine hall (fun th hth l hl => hnewest.trans (h.failed th hth l hl)) fun l hl => ?_
    cases hstart _ l hl
  case known =>
    intro n hn
    rw [Pool.fork, List.length_append]
    exact Nat.lt_add_right _ (h.known n (hnewest.symm.trans hn))
  case follows =>
    intro n th url hn hth hkind hrunning
    have hwas : s.shared.newest = some n := hnewest.symm.trans hn
    have hold : s.threads[n]? = some th := by
      rwa [Pool.fork, List.getElem?_append_left (h.known n hwas)] at hth
    obtain ⟨hplays, hwhat, hreported⟩ := h.follows n th url hwas hold hkind hrunning
    exact ⟨hactive.trans hplays, hurl.trans hwhat, fun hfinish => hstate ▸ hreported hfinish⟩

theorem playbackInv_step {e : PlayerEvent} (h : PlaybackInv s) (hserial : serial s e = true)
    (hok : current s e = true) (hstep : step s e = some s') : PlaybackInv s' := by
  cases e with
  | message m =>
    cases hstep
    exact playbackInv_message h m hserial
  | run t =>
    obtain ⟨kind, op, rest, o, hthread, ho, rfl⟩ := Pool.run_eq_some hstep
    exact playbackInv_exec h hthread ho hok
  | fail t =>
    obtain ⟨kind, op, rest, o, hthread, ho, rfl⟩ := Pool.run_eq_some hstep
    exact playbackInv_fail h hthread ho

theorem playbackInv_start (detector : Detector) : PlaybackInv (startPlayer detector) := by
  have hnone : ∀ {P : Thread (Option Url) Op → Prop}, ∀ th ∈ (startPlayer detector).threads, P th := by
    intro P th hth
    cases hth
  have hnewest : ∀ n, (startPlayer detector).shared.newest = some n → n < (startPlayer detector).threads.length := by
    intro n hn
    cases hn
  exact ⟨alone_start detector, hnone, hnone, hnone, hnone, hnone, hnone, hnone, hnewest, follows_none rfl⟩

/-- A playback that is not the newest leaves the fields to it. -/
theorem untouched_of_inv (h : PlaybackInv s) : Untouched s fun s e => (serial s e && current s e) = true := by
  intro n th t th' url s' hn hth hrunning hthread hkind hne hok hstep
  obtain ⟨kind, op, rest, o, hthread', ho, rfl⟩ := Pool.run_eq_some hstep
  obtain rfl := Option.some.inj (hthread.symm.trans hthread')
  rw [Bool.and_eq_true] at hok
  have hop : op.loads = false := loads_of_isSome h hthread (Option.isSome_iff_exists.mpr ⟨url, hkind⟩)
  have hgoes : op ≠ .finish ∧ op ≠ .failed := by
    rw [← not_or]
    intro hend
    obtain heq | hstopped := not_running hok.2 hthread hend hn hth
    · exact hne heq.symm
    · rw [hstopped] at hrunning
      cases hrunning
  have hstate := not_idle h hthread
  exact (exec_fields ho hop hstate).2.2.1 hgoes.1 hgoes.2

/-- **The state follows the newest playback**, in runs where a playback that ends is the newest one, or the
newest does not run any more and no other is about to be created. -/
theorem follows_of_current {detector : Detector} {s : Threads}
    (h : Reach step (fun s e => (serial s e && current s e) = true) (startPlayer detector) s) :
    Follows s ∧ Untouched s fun s e => (serial s e && current s e) = true := by
  have hinv : PlaybackInv s := by
    refine Reach.invariant (playbackInv_start detector) (fun s e s' hs hok hstep => ?_) h
    rw [Bool.and_eq_true] at hok
    exact playbackInv_step hs hok.1 hok.2 hstep
  exact ⟨hinv.follows, untouched_of_inv hinv⟩

/-- A playback of the url `u` that is requested when there are `n` threads, as far as its first report. -/
def played (n u : Nat) : List PlayerEvent := .message (.media (some [u]) none) :: runs n 3 ++ runs (n + 1) 3

/-- A playback is stopped and ends, and another one is played. -/
theorem second_followed :
    ∃ s, Reach step (fun s e => (serial s e && current s e) = true) (startPlayer .stopped) s ∧
      s.shared.playbackActive = true ∧ s.shared.currentUrl = some [2] ∧ s.shared.state ≠ .idle := by
  have hrun : ∃ s, Reach step (fun s e => (serial s e && current s e) = true) (startPlayer .stopped) s ∧
      (s.shared.newest = some 4 ∧ (s.threads[4]?).any (fun th => th.kind = some [2] ∧ streamsOf th = [.finish]) = true) :=
    exists_reach (played 0 1 ++ .message (.media none (some .stop)) :: runs 2 1 ++ runs 1 2 ++ played 3 2) (by decide)
  obtain ⟨s, hs, hnewest, hthread⟩ := hrun
  rw [Option.any_eq_true] at hthread
  obtain ⟨th, hth, hkind⟩ := hthread
  obtain ⟨hurl, hfinish⟩ := of_decide_eq_true hkind
  obtain ⟨hactive, hwhat, hstate⟩ :=
    (follows_of_current hs).1 4 th [2] hnewest hth hurl (by rw [running, hfinish]; rfl)
  exact ⟨s, hs, hactive, hwhat, hstate hfinish⟩

/-- A playback that is superseded ends after the next one has reported that it plays. -/
theorem end_of_superseded : ∃ s, Reach step (fun s e => serial s e = true) (startPlayer .stopped) s ∧ ¬Follows s := by
  have hrun : ∃ s, Reach step (fun s e => serial s e = true) (startPlayer .stopped) s ∧
      (s.shared.newest = some 3 ∧ s.shared.playbackActive = false ∧
        (s.threads[3]?).any (fun th => th.kind = some [2] ∧ streamsOf th = [.finish]) = true) :=
    exists_reach (played 0 1 ++ played 2 2 ++ runs 1 1) (by decide)
  obtain ⟨s, hs, hnewest, hidle, hthread⟩ := hrun
  rw [Option.any_eq_true] at hthread
  obtain ⟨th, hth, hkind⟩ := hthread
  obtain ⟨hurl, hfinish⟩ := of_decide_eq_true hkind
  refine ⟨s, hs, fun h => ?_⟩
  have hactive := (h 3 th [2] hnewest hth hurl (by rw [running, hfinish]; rfl)).1
  rw [hidle] at hactive
  cases hactive

end Thingino.Esphome
