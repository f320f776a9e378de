import Thingino.Lib.Shell
import Thingino.Lib.Transition
import Thingino.Privacy.Sidecar

/-! Day and night through the agent: prudynt's runtime, and the sidecar that outlives it.

Each request sends prudynt a `daynight` object and then writes the sidecar. Three of them make the object
themselves; `apply-config` passes on the one that it got, and finds out with `jct` what to write. -/
namespace Thingino.Agent.Daynight
open Lib Privacy

/-- What can be forced. -/
inductive Scene
  | day
  | night
deriving DecidableEq

namespace Scene

def mode : Scene → Mode
  | .day => .day
  | .night => .night

/-- The patterns `day` and `night` of a `case`. -/
def ofWord (w : List Byte) : Option Scene :=
  if w = ascii "day" then some .day else if w = ascii "night" then some .night else none

@[simp] theorem ofWord_word (m : Scene) : ofWord m.mode.word = some m := by
  cases m <;> decide

theorem mode_ne_auto (m : Scene) : m.mode ≠ .auto := by
  cases m <;> decide

end Scene

/-- A JSON value; what is neither a bool nor a string is a text as it stands. -/
inductive Value
  | bool (b : Bool)
  | text (s : List Byte)
  | other (raw : List Byte)
deriving DecidableEq

/-- A `daynight` object. -/
structure Settings where
  enabled : Option Value
  forceMode : Option Value

/-- What `jct get` prints for a value, and what prudynt takes for a bool. -/
structure Readers where
  print : Value → List Byte
  readBool : Value → Option Bool
  readBool_bool : ∀ b, readBool (.bool b) = some b

/-- prudynt takes exactly the two words. -/
def readForce : Option Value → Option Scene
  | some (.text s) => Scene.ofWord s
  | _ => none

inductive Request
  | daynight (mode : List Byte)
  | enabled (value : Option Value)
  | forceMode (value : Option Value)
  | applyConfig (c : Settings)

/-- `reached` says whether prudynt accepts the object; `live` is the mode it reports, if any. -/
structure Event where
  request : Request
  reached : Bool
  live : Option Scene

/-- `pinned` is the mode last forced, or the live mode when auto was switched off after that: day if none was
reported. -/
structure State where
  auto : Bool
  pinned : Scene
  sidecar : Option (List Byte)

/-- A bool as the agent reads it. -/
def agentBool (w : List Byte) : Option Bool :=
  if w = ascii "true" then some true else if w = ascii "false" then some false else none

namespace State
variable (T : Readers)

/-- `thingino_agent_json_config_value`. -/
def configValue (v : Option Value) : List Byte := (v.elim [] T.print).filter fun b => b ≠ 10 && b ≠ 13

/-- `tr -d '" '`. -/
def strip (w : List Byte) : List Byte := w.filter fun b => b ≠ 34 && b ≠ 32

/-- prudynt takes an object over. -/
def receive (s : State) (c : Settings) (live : Option Scene) : State :=
  let auto := (c.enabled.bind T.readBool).getD s.auto
  { s with
    auto := auto
    pinned := (readForce c.forceMode).getD (if s.auto && !auto then live.getD .day else s.pinned) }

/-- `thingino_agent_prudynt_daynight_state_set`. -/
def persist (s : State) (m : Mode) : State := { s with sidecar := Sidecar.setMode m s.sidecar }

def enable (b : Bool) : Settings := ⟨some (.bool b), none⟩

def force (m : Scene) : Settings := ⟨some (.bool false), some (.text m.mode.word)⟩

def agentEnabled (c : Settings) : Option Bool := agentBool (strip (configValue T c.enabled))

def agentForce (c : Settings) : Option Scene := Scene.ofWord (strip (configValue T c.forceMode))

/-- What `apply-config` writes into the sidecar. -/
def written (c : Settings) : Option Mode :=
  match agentEnabled T c, agentForce T c with
  | some false, some m => some m.mode
  | some true, _ => some .auto
  | _, _ => none

/-- A request that prudynt's answer does not stop; `none` if it is refused. -/
def handle (s : State) (live : Option Scene) : Request → Option State
  | .daynight mode =>
    let word := Shell.output (mode.map toLower)
    if word = ascii "auto" then some ((s.receive T (enable true) live).persist .auto)
    else (Scene.ofWord word).map fun m => (s.receive T (force m) live).persist m.mode
  | .enabled value =>
    match agentBool (configValue T value) with
    | some true => some ((s.receive T (enable true) live).persist .auto)
    | some false =>
      some ((s.receive T (enable false) live).persist
        (match Sidecar.get s.sidecar with
        | .auto => (live.getD .day).mode
        | .day => .day
        | .night => .night))
    | none => none
  | .forceMode value =>
    (Scene.ofWord ((configValue T value).filter (· ≠ 34))).map fun m => (s.receive T (force m) live).persist m.mode
  | .applyConfig c =>
    some ((written T c).elim (s.receive T c live) (s.receive T c live).persist)

def step (s : State) (e : Event) : Option State :=
  some (if e.reached then (s.handle T e.live e.request).getD s else s)

/-- After a boot prudynt has what the sidecar says. -/
def boot (file : Option (List Byte)) : State :=
  ⟨Sidecar.get file = .auto, if Sidecar.get file = .night then .night else .day, file⟩

/-- The agent and prudynt read an imported object alike, and it does not switch auto off without a mode to force,
nor force another mode without switching auto off. -/
def careful (s : State) (e : Event) : Bool :=
  match e.request with
  | .applyConfig c =>
    !e.reached ||
      agentEnabled T c = c.enabled.bind T.readBool && agentForce T c = readForce c.forceMode &&
        match c.enabled.bind T.readBool, readForce c.forceMode with
        | some false, none => !s.auto
        | none, some m => s.auto || Sidecar.get s.sidecar = m.mode
        | _, _ => true
  | _ => true

end State

/-- **The property.** The sidecar reads auto exactly when auto is on, and otherwise the mode that is pinned. -/
structure Agrees (s : State) : Prop where
  auto : Sidecar.get s.sidecar = .auto ↔ s.auto = true
  pinned : s.auto = false → Sidecar.get s.sidecar = s.pinned.mode

namespace State
variable {T : Readers} {s s' : State} {m : Scene} {live : Option Scene} {c : Settings}

theorem get_persist (s : State) (m : Mode) : Sidecar.get (s.persist m).sidecar = m :=
  Sidecar.get_of_parse (Sidecar.parse_setMode m s.sidecar)

theorem agrees_persist_auto (h : s.auto = true) : Agrees (s.persist .auto) :=
  ⟨iff_of_true (get_persist s .auto) h, fun hoff => absurd (h.symm.trans hoff) (by decide)⟩

theorem agrees_persist_scene (h : s.auto = false) (hpinned : s.pinned = m) : Agrees (s.persist m.mode) := by
  constructor
  · rw [get_persist]
    exact iff_of_false m.mode_ne_auto (Bool.eq_false_iff.mp h)
  · intro _
    rw [get_persist, ← hpinned]
    rfl

/-- What agrees without a new sidecar still does if prudynt keeps auto and what is pinned. -/
theorem agrees_of_same (h : Agrees s) (hsidecar : s'.sidecar = s.sidecar) (hauto : s'.auto = s.auto)
    (hpinned : s.auto = false → s'.pinned = s.pinned) : Agrees s' := by
  constructor
  · rw [hsidecar, hauto]
    exact h.auto
  · intro hoff
    rw [hauto] at hoff
    rw [hsidecar, hpinned hoff]
    exact h.pinned hoff

/-! ### prudynt -/

theorem auto_receive_enable (b : Bool) : (s.receive T (enable b) live).auto = b := by
  show (T.readBool (.bool b)).getD s.auto = b
  rw [T.readBool_bool, Option.getD_some]

theorem auto_receive_force (m : Scene) : (s.receive T (force m) live).auto = false := by
  show (T.readBool (.bool false)).getD s.auto = false
  rw [T.readBool_bool, Option.getD_some]

theorem pinned_receive_force (m : Scene) : (s.receive T (force m) live).pinned = m := by
  show (Scene.ofWord m.mode.word).getD _ = m
  rw [Scene.ofWord_word, Option.getD_some]

theorem pinned_receive_enable (b : Bool) :
    (s.receive T (enable b) live).pinned = if s.auto && !b then live.getD .day else s.pinned := by
  show (if s.auto && !(s.receive T (enable b) live).auto then live.getD .day else s.pinned) = _
  rw [auto_receive_enable]

/-! ### The requests -/

/-- Auto is switched on. -/
theorem agrees_auto : Agrees ((s.receive T (enable true) live).persist .auto) :=
  agrees_persist_auto (auto_receive_enable true)

/-- A mode is forced. -/
theorem agrees_force (m : Scene) : Agrees ((s.receive T (force m) live).persist m.mode) :=
  agrees_persist_scene (auto_receive_force m) (pinned_receive_force m)

/-- Auto is switched off: the live mode is pinned, or what was before. -/
theorem agrees_disable (h : Agrees s) :
    Agrees ((s.receive T (enable false) live).persist
      (match Sidecar.get s.sidecar with
      | .auto => (live.getD .day).mode
      | .day => .day
      | .night => .night)) := by
  have hoff : (s.receive T (enable false) live).auto = false := auto_receive_enable false
  have hpinned : (s.receive T (enable false) live).pinned = if s.auto && !false then live.getD .day else s.pinned :=
    pinned_receive_enable false
  cases hauto : s.auto with
  | true =>
    rw [h.auto.mpr hauto]
    rw [hauto] at hpinned
    exact agrees_persist_scene hoff hpinned
  | false =>
    rw [hauto] at hpinned
    have hkept := agrees_persist_scene hoff hpinned
    rw [h.pinned hauto]
    cases hscene : s.pinned <;> rw [hscene] at hkept <;> exact hkept

/-- An object that both read alike is passed on. -/
theorem agrees_applyConfig (h : Agrees s) (hcareful : s.careful T ⟨.applyConfig c, true, live⟩ = true) :
    Agrees ((written T c).elim (s.receive T c live) (s.receive T c live).persist) := by
  simp only [careful, Bool.not_true, Bool.false_or, Bool.and_eq_true, decide_eq_true_eq] at hcareful
  obtain ⟨⟨henabled, hforce⟩, hcase⟩ := hcareful
  rw [written, henabled, hforce]
  have hauto : (s.receive T c live).auto = (c.enabled.bind T.readBool).getD s.auto := rfl
  have hpinned : (s.receive T c live).pinned = (readForce c.forceMode).getD
      (if s.auto && !(s.receive T c live).auto then live.getD .day else s.pinned) := rfl
  cases hread : c.enabled.bind T.readBool with
  | none =>
    rw [hread, Option.getD_none] at hauto
    cases hscene : readForce c.forceMode with
    | none =>
      rw [hscene, Option.getD_none, hauto] at hpinned
      exact agrees_of_same h rfl hauto fun hoff => hpinned.trans (by rw [hoff]; rfl)
    | some m =>
      rw [hread, hscene] at hcase
      rw [hscene, Option.getD_some] at hpinned
      refine agrees_of_same h rfl hauto fun hoff => ?_
      -- auto is off, so the mode is the one of the sidecar
      simp only [hoff, Bool.false_or, decide_eq_true_eq] at hcase
      have hsame := (h.pinned hoff).symm.trans hcase
      refine hpinned.trans ?_
      cases m <;> cases hkept : s.pinned <;> rw [hkept] at hsame <;> first | rfl | cases hsame
  | some b =>
    rw [hread, Option.getD_some] at hauto
    cases b with
    | true => exact agrees_persist_auto hauto
    | false =>
      cases hscene : readForce c.forceMode with
      | none =>
        rw [hread, hscene] at hcase
        have hoff : s.auto = false := by simpa using hcase
        rw [hscene, Option.getD_none, hoff] at hpinned
        exact agrees_of_same h rfl (hauto.trans hoff.symm) fun _ => hpinned
      | some m =>
        rw [hscene, Option.getD_some] at hpinned
        exact agrees_persist_scene hauto hpinned

theorem agrees_handle {r : Request} (h : Agrees s) (hcareful : s.careful T ⟨r, true, live⟩ = true)
    (hstep : s.handle T live r = some s') : Agrees s' := by
  cases r with
  | daynight mode =>
    simp only [handle] at hstep
    split at hstep
    · cases hstep
      exact agrees_auto
    · obtain ⟨m, -, rfl⟩ := Option.map_eq_some_iff.mp hstep
      exact agrees_force m
  | enabled value =>
    simp only [handle] at hstep
    split at hstep <;> cases hstep
    · exact agrees_auto
    · exact agrees_disable h
  | forceMode value =>
    obtain ⟨m, -, rfl⟩ := Option.map_eq_some_iff.mp hstep
    exact agrees_force m
  | applyConfig c =>
    cases hstep
    exact agrees_applyConfig h hcareful

theorem agrees_step {e : Event} (h : Agrees s) (hcareful : s.careful T e = true) (hstep : s.step T e = some s') :
    Agrees s' := by
  obtain ⟨r, reached, live⟩ := e
  cases hstep
  cases reached with
  | false => exact h
  | true =>
    show Agrees ((s.handle T live r).getD s)
    cases hhandle : s.handle T live r with
    | none => exact h
    | some s₁ => exact agrees_handle h hcareful hhandle

theorem agrees_boot (file : Option (List Byte)) : Agrees (boot file) := by
  constructor
  · exact decide_eq_true_iff.symm
  · intro hoff
    have hnot : Sidecar.get file ≠ .auto := of_decide_eq_false hoff
    show Sidecar.get file = Scene.mode (if Sidecar.get file = .night then .night else .day)
    cases hget : Sidecar.get file with
    | auto => exact absurd hget hnot
    | day => rfl
    | night => rfl

end State

/-- **The sidecar agrees with prudynt**, after any requests of which the imports are careful. -/
theorem agrees_of_careful {T : Readers} {file : Option (List Byte)} {s : State}
    (h : Reach (State.step T) (fun s e => s.careful T e = true) (State.boot file) s) : Agrees s :=
  Reach.invariant (State.agrees_boot file) (fun _ _ _ hs hok hstep => State.agrees_step hs hok hstep) h

/-- A `jct` that prints strings in quotes, and a prudynt that takes no other bool. -/
def quoting : Readers where
  print
    | .bool b => if b then ascii "true" else ascii "false"
    | .text s => 34 :: s ++ [34]
    | .other raw => raw
  readBool
    | .bool b => some b
    | _ => none
  readBool_bool _ := rfl

/-- Auto is imported, night is forced while it is on, auto is switched off by night, and day is imported. -/
theorem agrees_after_import :
    ∃ s, Reach (State.step quoting) (fun s e => s.careful quoting e = true) (State.boot none) s ∧
      s.auto = false ∧ Sidecar.get s.sidecar = .day ∧ Agrees s := by
  have hrun : ∃ s, Reach (State.step quoting) (fun s e => s.careful quoting e = true) (State.boot none) s ∧
      (s.auto = false ∧ Sidecar.get s.sidecar = .day) :=
    exists_reach [⟨.applyConfig ⟨some (.bool true), none⟩, true, some .day⟩,
      ⟨.applyConfig ⟨none, some (.text (ascii "night"))⟩, true, some .day⟩,
      ⟨.enabled (some (.bool false)), true, some .night⟩, ⟨.daynight (ascii "NIGHT"), true, some .night⟩,
      ⟨.applyConfig ⟨some (.bool false), some (.text (ascii "day"))⟩, true, some .night⟩] (by decide)
  obtain ⟨s, hs, hauto, hget⟩ := hrun
  exact ⟨s, hs, hauto, hget, agrees_of_careful hs⟩

/-- An import switches auto off and names no mode: the sidecar still reads auto. -/
theorem import_not_pinned :
    ∃ s, Reach (State.step quoting) (fun _ _ => True) (State.boot (some (Sidecar.text .auto))) s ∧
      s.auto = false ∧ Sidecar.get s.sidecar = .auto ∧ ¬Agrees s := by
  have hrun : ∃ s, Reach (State.step quoting) (fun _ _ => True) (State.boot (some (Sidecar.text .auto))) s ∧
      (s.auto = false ∧ Sidecar.get s.sidecar = .auto) :=
    exists_reach [⟨.applyConfig ⟨some (.bool false), none⟩, true, some .night⟩] (by decide)
  obtain ⟨s, hs, hauto, hget⟩ := hrun
  exact ⟨s, hs, hauto, hget, fun h => absurd ((h.auto.mp hget).symm.trans hauto) (by decide)⟩

end Thingino.Agent.Daynight
