import Thingino.Lib.Awk
import Thingino.Motors.Presets
import Thingino.Privacy.Intent

/-! Privacy on and off again.

Here the two commands run one behind the other, each with its waiter, from the lock to the release:
`on` saves tilt and modes in the state file, freezes the mode and parks the lens; `off` takes them out
of the file again and puts everything back. The motors are behind `/usr/bin/motors-bin`; what the model
knows of them is what `-p` prints and what a jog and a second do. -/
namespace Thingino.Privacy.RoundTrip
open Lib Motors

/-! ### Tilts -/

def defaultHomeTilt : List Byte := ascii "1152"

def posTol : Nat := 50

def settleMax : Nat := 12

def seekTries : Nat := 3

/-- The patterns `''` and `*[!0-9-]*` do not match. -/
def readable (tilt : List Byte) : Bool := tilt ≠ [] && tilt.all isTilt

/-- The value of a printed number. -/
def tiltValue (tilt : List Byte) : Int :=
  if tilt.head? = some 45 then -(Shell.decimal tilt.tail : Int) else Shell.decimal tilt

/-- `$((a - b))`, in 64 bits. -/
def minus (a b : List Byte) : Int := (tiltValue a - tiltValue b).bmod 18446744073709551616

/-! ### The motors -/

/-- What `-p` prints, what `-d g -x 0 -y` does, and a second in which the lens moves on. -/
structure Driver (ω : Type) where
  position : ω → List Byte
  jog : Int → ω → ω
  second : ω → ω

section Seek
variable {ω : Type} (d : Driver ω)

/-- `_motors -p | tr -dc '0-9,-'`. -/
def readPosition (x : ω) : List Byte := (d.position x).filter fun b => isTilt b || b = 44

/-- `get_tilt`: the text behind the last comma. -/
def getTilt (x : ω) : List Byte := (Shell.behindLast [44] (readPosition d x)).getD (readPosition d x)

/-- `home_tilt`, from what `jct` prints. -/
def homeTilt (jct : List Byte) : List Byte :=
  let hp := (Shell.output jct).filter (· ≠ 34)
  (Shell.behindLast [44] hp).getD hp

/-- `home_tilt` or the default. -/
def homeOrDefault (jct : List Byte) : List Byte := if homeTilt jct = [] then defaultHomeTilt else homeTilt jct

def tiltJog (current target : List Byte) (x : ω) : ω :=
  if minus target current = 0 then x else d.jog (minus target current) x

/-- `wait_motors_idle`, with the rounds that are left. -/
def waitMotorsIdle : Nat → List Byte → ω → ω
  | 0, _, x => x
  | n + 1, last, x =>
    let p := readPosition d x
    if p ≠ [] ∧ p = last then x else waitMotorsIdle n p (d.second x)

/-- A jog and the wait behind it. -/
def jogAndWait (target : List Byte) (x : ω) : ω := waitMotorsIdle d settleMax [] (tiltJog d (getTilt d x) target x)

/-- `seek_tilt`, with the tries that are left. Nobody looks at what it returns. -/
def seekTilt (jct target : List Byte) : Nat → ω → ω
  | 0, x => x
  | n + 1, x =>
    if !readable (getTilt d x) then tiltJog d (homeOrDefault jct) target x
    else if (minus (getTilt d x) target).natAbs ≤ posTol then x
    else seekTilt jct target n (jogAndWait d target x)

end Seek

/-! ### Commands -/

/-- What is told to others. A verified `light` counts once. -/
inductive Call
  | prudyntctl (json : List Byte)
  | light (type want : List Byte)
  | executor (mode : Mode)
  | mic (muted : Bool)

/-- The files, the marker, the lock with the pid in it, the lens, and whether the overlay is full. -/
structure World (ω : Type) where
  state : Option (List Byte)
  sidecar : Option (List Byte)
  armed : Bool
  lock : Option (List Byte)
  lens : ω
  full : Bool
  calls : List Call

/-- What the script finds: the motors, `jct get motors.pos_0`, `/run/prudynt/daynight_mode`, `/sbin/daynight`, which
processes there are, its own pid and the one of its waiter. -/
structure Tools (ω : Type) where
  driver : Driver ω
  jct : List Byte
  daynightMode : Option (List Byte)
  executor : Bool
  alive : List Byte → Bool
  pid : List Byte
  waiter : List Byte

/-- What others make of the sidecar: while `on` runs, while the lens is parked, and while `off` runs. -/
structure Others where
  entering : Option (List Byte) → Option (List Byte)
  parked : Option (List Byte) → Option (List Byte)
  recovering : Option (List Byte) → Option (List Byte)

section Commands
variable {ω : Type} (t : Tools ω)

def acquireLock (w : World ω) : Option (World ω) :=
  match w.lock with
  | none => some { w with lock := some t.pid }
  | some hp => if hp = [] || !t.alive hp then some { w with lock := some t.pid } else none

def releaseLock (w : World ω) : World ω := { w with lock := none }

/-- `echo "$pid" >"$LOCK/pid"`, without effect where there is no lock. -/
def notePid (pid : List Byte) (w : World ω) : World ω := { w with lock := w.lock.map fun _ => pid }

/-- The waiter from its claim to its trap. The backup of the parent comes last here; before the release it would
write the same pid. -/
def inWaiter (work : World ω → World ω) (w : World ω) : World ω :=
  notePid t.waiter (releaseLock (work (notePid t.waiter w)))

/-- `_w`. -/
def writeState (text : List Byte) (w : World ω) : Option (World ω) :=
  if w.full then none else some { w with state := some text }

def call (c : Call) (w : World ω) : World ω := { w with calls := w.calls ++ [c] }

def seek (target : List Byte) (w : World ω) : World ω :=
  { w with lens := seekTilt t.driver t.jct target (seekTries + 1) w.lens }

def daynightState (mode : Mode) (w : World ω) : World ω := { w with sidecar := Sidecar.setMode mode w.sidecar }

def forced (mode : Mode) : Call :=
  .prudyntctl (ascii "\x7b\"daynight\":\x7b\"enabled\":false,\"force_mode\":\"" ++ mode.word ++ ascii "\"\x7d\x7d\n")

def setDaynight (mode : Mode) (w : World ω) : World ω :=
  match mode with
  | .auto => daynightState .auto (call (.prudyntctl (ascii "\x7b\"daynight\":\x7b\"enabled\":true\x7d\x7d\n")) w)
  | mode =>
    let w := daynightState mode (call (forced mode) w)
    if t.executor then call (.executor mode) w else w

def freezeDaynight (mode : Mode) (w : World ω) : World ω := daynightState mode (call (forced mode) w)

/-- `dn_live`. -/
def dnLive (file : Option (List Byte)) : Mode :=
  if (Awk.fields (Awk.record (file.getD []))).head?.getD [] = ascii "night" then .night else .day

/-- The live mode that `do_on` saves. -/
def liveOf (mode : Mode) : Mode :=
  match mode with
  | .day | .night => mode
  | .auto => dnLive t.daynightMode

/-- The tilt that `do_on` saves. -/
def tiltOnEnter (w : World ω) : List Byte :=
  if readable (getTilt t.driver w.lens) then getTilt t.driver w.lens else homeOrDefault t.jct

def lightsOff (first second : List Byte) (w : World ω) : World ω :=
  call (.light second (ascii "off")) (call (.light first (ascii "off")) w)

def doOn (o : Others) (w : World ω) : World ω :=
  match acquireLock t w with
  | none => w
  | some w =>
    if w.armed || StateFile.active w.state then releaseLock w
    else
      let poseTilt := StateFile.stPoseTilt w.state
      let mode := Sidecar.get w.sidecar
      match writeState (StateFile.writeOn poseTilt (tiltOnEnter t w) mode (liveOf t mode)) w with
      | none => releaseLock w
      | some w =>
        let w := freezeDaynight (liveOf t mode) w
        let w := call (.mic true) (lightsOff (ascii "ir") (ascii "white") w)
        let w := { w with sidecar := o.entering w.sidecar }
        inWaiter t (fun w => { lightsOff (ascii "white") (ascii "ir") (seek t poseTilt w) with armed := true }) w

/-- What the waiter of `do_off` does once the lens is back. -/
def lift (mode live : List Byte) (w : World ω) : World ω :=
  match writeState (StateFile.writeOff (StateFile.stPoseTilt w.state)) w with
  | none => w
  | some w =>
    let w := { w with armed := false }
    let w := if live = ascii "night" then call (.light (ascii "ir") (ascii "on")) w else w
    let w := match Mode.ofWord mode with
      | some .auto => setDaynight t .auto w
      | some mode => freezeDaynight mode w
      | none => w
    call (.mic false) w

/-- The lens goes back to the saved tilt; whether privacy is then lifted. -/
def recover (force : Bool) (savedTilt : List Byte) (w : World ω) : World ω × Bool :=
  if !readable savedTilt then
    (seek t (if readable (homeTilt t.jct) then homeTilt t.jct else defaultHomeTilt) w, true)
  else
    let w := seek t savedTilt w
    let cur := getTilt t.driver w.lens
    (w, if !readable cur then force else (minus cur savedTilt).natAbs ≤ posTol)

/-- The work of the waiter of `do_off`. -/
def recoverAndLift (o : Others) (force : Bool) (savedTilt mode live : List Byte) (w : World ω) : World ω :=
  let (w, clear) := recover t force savedTilt w
  let w := { w with sidecar := o.recovering w.sidecar }
  if clear then lift t mode live w else w

def doOff (o : Others) (force : Bool) (w : World ω) : World ω :=
  match acquireLock t w with
  | none => w
  | some w =>
    if !w.armed && !StateFile.active w.state then releaseLock w
    else
      inWaiter t (recoverAndLift t o force (StateFile.stSavedTilt w.state) (StateFile.stSavedMode w.state)
        (StateFile.stLiveMode w.state)) w

/-- Both commands, with what others do in between. -/
def onThenOff (o : Others) (force : Bool) (w : World ω) : World ω :=
  let w := doOn t o w
  doOff t o force { w with sidecar := o.parked w.sidecar }

end Commands

/-! ### Printed tilts -/

theorem printInt_ne_nil (n : Int) : printInt n ≠ [] := by
  unfold printInt
  split
  · exact List.cons_ne_nil _ _
  · exact Shell.digits_ne_nil _

theorem isTilt_printInt (n : Int) : ∀ b ∈ printInt n, isTilt b = true := by
  have hdigit : ∀ m : Nat, ∀ b ∈ Shell.digits m, isTilt b = true := by
    intro m b hb
    rw [isTilt, Shell.isDigit_of_mem_digits hb]
    rfl
  unfold printInt
  split
  · exact List.forall_mem_cons.mpr ⟨by decide, hdigit _⟩
  · exact hdigit _

theorem readable_printInt (n : Int) : readable (printInt n) = true := by
  simp [readable, printInt_ne_nil n, List.all_eq_true.mpr (isTilt_printInt n)]

theorem tiltValue_printInt (n : Int) : tiltValue (printInt n) = n := by
  unfold printInt
  split
  · rename_i hneg
    rw [tiltValue, if_pos List.head?_cons, List.tail_cons, Shell.decimal_digits]
    omega
  · rename_i hpos
    have hhead : (Shell.digits n.natAbs).head? ≠ some 45 := fun h =>
      Shell.notMem_digits rfl n.natAbs (List.mem_of_head? h)
    rw [tiltValue, if_neg hhead, Shell.decimal_digits]
    omega

/-- **What the writers encode the readers recover**, for all tilts and modes. -/
structure Recovers (p s : Int) (mode live : Mode) (on off : Option (List Byte)) : Prop where
  onActive : StateFile.stActive on = ascii "true"
  onPose : StateFile.stPoseTilt on = printInt p
  onTilt : StateFile.stSavedTilt on = printInt s
  onMode : StateFile.stSavedMode on = mode.word
  onLive : StateFile.stLiveMode on = live.word
  offActive : StateFile.stActive off = ascii "false"
  offPose : StateFile.stPoseTilt off = printInt p
  offTilt : StateFile.stSavedTilt off = []
  offMode : StateFile.stSavedMode off = []
  offLive : StateFile.stLiveMode off = []

theorem recovers (p s : Int) (mode live : Mode) :
    Recovers p s mode live (some (StateFile.writeOn (printInt p) (printInt s) mode live))
      (some (StateFile.writeOff (printInt p))) := by
  have hp := isTilt_printInt p
  have hs := isTilt_printInt s
  have hpquote := StateFile.quote_notMem_of_isTilt hp
  have hsquote := StateFile.quote_notMem_of_isTilt hs
  constructor
  · exact of_decide_eq_true (StateFile.active_writeOn _ _ _ _)
  · exact StateFile.stPoseTilt_writeOn (printInt_ne_nil p) hp hs mode live
  · exact StateFile.stSavedTilt_writeOn (printInt_ne_nil s) hp hs mode live
  · exact StateFile.stSavedMode_writeOn hpquote hsquote mode live
  · exact StateFile.stLiveMode_writeOn hpquote hsquote mode live
  · exact StateFile.stActive_writeOff _
  · exact StateFile.stPoseTilt_writeOff (printInt_ne_nil p) hp
  · exact StateFile.stSavedTilt_writeOff hp
  · exact StateFile.stSavedMode_writeOff hpquote
  · exact StateFile.stLiveMode_writeOff hpquote

/-! ### Seeking -/

/-- The driver prints pan and tilt, and a tilt is a C `int`. -/
structure Driver.Prints {ω : Type} (d : Driver ω) (pan tilt : ω → Int) : Prop where
  position : ∀ x, d.position x = printInt (pan x) ++ 44 :: (printInt (tilt x) ++ [10])
  bounded : ∀ x, (tilt x).natAbs ≤ 2147483648

/-- The lens is where it should be, within the tolerance. -/
def Near (tilt target : Int) : Prop := (tilt - target).natAbs ≤ posTol

/-- The motors reach the target: after the jog that leads there, when the lens is idle. -/
def Driver.Reaches {ω : Type} (d : Driver ω) (tilt : ω → Int) (target : Int) : Prop :=
  ∀ x, Near (tilt (waitMotorsIdle d settleMax [] (d.jog (target - tilt x) x))) target

section Motors
variable {ω : Type} {d : Driver ω} {pan tilt : ω → Int} {target : Int}

theorem Driver.Prints.getTilt_eq (h : d.Prints pan tilt) (x : ω) : getTilt d x = printInt (tilt x) := by
  have hkept : ∀ n : Int, (printInt n).filter (fun b => isTilt b || b = 44) = printInt n := fun n =>
    List.filter_eq_self.mpr fun b hb => by rw [isTilt_printInt n b hb, Bool.true_or]
  have hcomma : ∀ n : Int, (44 : Byte) ∉ printInt n := fun n hmem => absurd (isTilt_printInt n 44 hmem) (by decide)
  have hread : readPosition d x = printInt (pan x) ++ ([44] ++ printInt (tilt x)) := by
    rw [readPosition, h.position, List.filter_append, List.filter_cons_of_pos (by decide), List.filter_append, hkept, hkept]
    simp [isTilt, isDigit]
  have hlast : Shell.behindLast [44] ([44] ++ printInt (tilt x)) = some (printInt (tilt x)) :=
    Shell.behindLast_self List.not_mem_nil (hcomma _)
  rw [getTilt, hread, Shell.behindLast_append_of_notMem (hcomma _), hlast, Option.getD_some]

/-- Nothing overflows in a difference of tilts. -/
theorem minus_printInt {a b : Int} (ha : a.natAbs ≤ 4294967296) (hb : b.natAbs ≤ 4294967296) :
    minus (printInt a) (printInt b) = a - b := by
  rw [minus, tiltValue_printInt, tiltValue_printInt]
  exact Int.bmod_eq_of_le (by omega) (by omega)

/-- A target that can be reached is not far out of range. -/
theorem Driver.Reaches.bounded (h : d.Reaches tilt target) (hprints : d.Prints pan tilt) (x : ω) :
    target.natAbs ≤ 4294967296 := by
  have hnear := h x
  have hbound := hprints.bounded (waitMotorsIdle d settleMax [] (d.jog (target - tilt x) x))
  unfold Near posTol at hnear
  omega

/-- The loop ends near the target when one of its rounds does. -/
theorem seekTilt_near (hprints : d.Prints pan tilt) (htarget : target.natAbs ≤ 4294967296) (jct : List Byte) (n : Nat) (x : ω)
    (h : ∃ k ≤ n, Near (tilt ((jogAndWait d (printInt target))^[k] x)) target) :
    Near (tilt (seekTilt d jct (printInt target) n x)) target := by
  induction n generalizing x with
  | zero =>
    obtain ⟨k, hk, hnear⟩ := h
    obtain rfl := Nat.le_zero.mp hk
    exact hnear
  | succ n ih =>
    have hbound := hprints.bounded x
    rw [seekTilt, hprints.getTilt_eq, readable_printInt, Bool.not_true, if_neg Bool.false_ne_true,
      minus_printInt (by omega) htarget]
    by_cases hnear : (tilt x - target).natAbs ≤ posTol
    · rw [if_pos hnear]
      exact hnear
    · rw [if_neg hnear]
      apply ih
      obtain ⟨k, hk, hround⟩ := h
      cases k with
      | zero => exact absurd hround hnear
      | succ k => exact ⟨k, Nat.le_of_succ_le_succ hk, hround⟩

/-- A lens that is away from the target is near it after one round. -/
theorem jogAndWait_near (hprints : d.Prints pan tilt) (hreach : d.Reaches tilt target) {x : ω}
    (hfar : ¬Near (tilt x) target) : Near (tilt (jogAndWait d (printInt target) x)) target := by
  have htarget := hreach.bounded hprints x
  have hbound := hprints.bounded x
  have hne : target - tilt x ≠ 0 := by
    unfold Near posTol at hfar
    omega
  rw [jogAndWait, tiltJog, hprints.getTilt_eq, minus_printInt htarget (by omega), if_neg hne]
  exact hreach x

theorem seekTilt_reaches (hprints : d.Prints pan tilt) (hreach : d.Reaches tilt target) (jct : List Byte) (x : ω) :
    Near (tilt (seekTilt d jct (printInt target) (seekTries + 1) x)) target := by
  apply seekTilt_near hprints (hreach.bounded hprints x)
  by_cases hnear : Near (tilt x) target
  · exact ⟨0, Nat.zero_le _, hnear⟩
  · exact ⟨1, by decide, jogAndWait_near hprints hreach hnear⟩

end Motors

/-! ### On, then off -/

/-- There is no lock, or its owner is gone. -/
def Free (alive : List Byte → Bool) (lock : Option (List Byte)) : Prop :=
  ∀ hp, lock = some hp → hp = [] ∨ alive hp = false

section Runs
variable {ω : Type} {t : Tools ω} {pan tilt : ω → Int} {p : Int} {m : Mode} {w : World ω}

theorem acquireLock_of_free (h : Free t.alive w.lock) : acquireLock t w = some { w with lock := some t.pid } := by
  unfold acquireLock
  cases hlock : w.lock with
  | none => rfl
  | some hp =>
    obtain hnil | halive := h hp hlock
    · simp [hnil]
    · simp [halive]

theorem tiltOnEnter_eq (hprints : t.driver.Prints pan tilt) (w : World ω) :
    tiltOnEnter t w = printInt (tilt w.lens) := by
  rw [tiltOnEnter, hprints.getTilt_eq, if_pos (readable_printInt _)]

/-- What `on` leaves: the snapshot, the marker and no lock. -/
structure Private (t : Tools ω) (p s : Int) (m : Mode) (w : World ω) : Prop where
  state : w.state = some (StateFile.writeOn (printInt p) (printInt s) m (liveOf t m))
  armed : w.armed = true
  lock : w.lock = none
  full : w.full = false

theorem doOn_private (o : Others) (hprints : t.driver.Prints pan tilt) (hfree : Free t.alive w.lock)
    (harmed : w.armed = false) (hactive : StateFile.active w.state = false) (hfull : w.full = false)
    (hpose : StateFile.stPoseTilt w.state = printInt p) (hmode : Sidecar.parse w.sidecar = some m) :
    Private t p (tilt w.lens) m (doOn t o w) := by
  obtain ⟨state, sidecar, armed, lock, lens, full, calls⟩ := w
  cases harmed
  cases hfull
  rw [doOn, acquireLock_of_free hfree]
  dsimp only at hactive hpose hmode ⊢
  rw [hactive, Bool.false_or, if_neg Bool.false_ne_true, hpose, Sidecar.get_of_parse hmode, tiltOnEnter_eq hprints]
  exact ⟨rfl, rfl, rfl, rfl⟩

/-- The lens is back where it was, and privacy is lifted. -/
theorem recover_saved {s : Int} (force : Bool) (hprints : t.driver.Prints pan tilt) (hreach : t.driver.Reaches tilt s)
    (w : World ω) : recover t force (printInt s) w = (seek t (printInt s) w, true) ∧
      Near (tilt (seek t (printInt s) w).lens) s := by
  have hnear : Near (tilt (seek t (printInt s) w).lens) s := seekTilt_reaches hprints hreach t.jct w.lens
  have hs := hreach.bounded hprints w.lens
  have hbound := hprints.bounded (seek t (printInt s) w).lens
  refine ⟨?_, hnear⟩
  rw [recover, readable_printInt, Bool.not_true, if_neg Bool.false_ne_true]
  dsimp only
  rw [hprints.getTilt_eq, readable_printInt, Bool.not_true, if_neg Bool.false_ne_true, minus_printInt (by omega) hs]
  exact congrArg (Prod.mk _) (decide_eq_true hnear)

/-- The saved mode comes back whatever the sidecar holds. -/
theorem lift_public {live : List Byte} (hpose : StateFile.stPoseTilt w.state = printInt p) (hfull : w.full = false) :
    (lift t m.word live w).state = some (StateFile.writeOff (printInt p)) ∧ (lift t m.word live w).armed = false ∧
      (lift t m.word live w).lens = w.lens ∧ Sidecar.parse (lift t m.word live w).sidecar = some m := by
  rw [lift, writeState, hfull, hpose, if_neg Bool.false_ne_true]
  dsimp only
  rw [Mode.ofWord_word]
  by_cases hlive : live = ascii "night"
  · rw [if_pos hlive]
    cases m <;> exact ⟨rfl, rfl, rfl, Sidecar.parse_setMode _ _⟩
  · rw [if_neg hlive]
    cases m <;> exact ⟨rfl, rfl, rfl, Sidecar.parse_setMode _ _⟩

theorem recoverAndLift_public {s : Int} {live : List Byte} (o : Others) (force : Bool)
    (hprints : t.driver.Prints pan tilt) (hreach : t.driver.Reaches tilt s)
    (hpose : StateFile.stPoseTilt w.state = printInt p) (hfull : w.full = false) :
    (recoverAndLift t o force (printInt s) m.word live w).state = some (StateFile.writeOff (printInt p)) ∧
      (recoverAndLift t o force (printInt s) m.word live w).armed = false ∧
      Sidecar.parse (recoverAndLift t o force (printInt s) m.word live w).sidecar = some m ∧
      Near (tilt (recoverAndLift t o force (printInt s) m.word live w).lens) s := by
  obtain ⟨hrecover, hnear⟩ := recover_saved force hprints hreach w
  rw [recoverAndLift, hrecover]
  dsimp only
  rw [if_pos rfl]
  obtain ⟨hstate, harmed, hlens, hsidecar⟩ := @lift_public ω t p m
    { seek t (printInt s) w with sidecar := o.recovering (seek t (printInt s) w).sidecar } live hpose hfull
  refine ⟨hstate, harmed, hsidecar, ?_⟩
  rw [hlens]
  exact hnear

/-- What `off` makes of a private camera. -/
theorem doOff_public {s : Int} (o : Others) (force : Bool) (hprints : t.driver.Prints pan tilt)
    (hreach : t.driver.Reaches tilt s) (h : Private t p s m w) :
    (doOff t o force w).state = some (StateFile.writeOff (printInt p)) ∧ (doOff t o force w).armed = false ∧
      (doOff t o force w).lock = none ∧ Sidecar.parse (doOff t o force w).sidecar = some m ∧
      Near (tilt (doOff t o force w).lens) s := by
  have hreaders := recovers p s m (liveOf t m)
  obtain ⟨state, sidecar, armed, lock, lens, full, calls⟩ := w
  obtain ⟨rfl, rfl, rfl, rfl⟩ := h
  obtain ⟨hstate, harmed, hsidecar, hnear⟩ := @recoverAndLift_public ω t pan tilt p m
    ⟨some (StateFile.writeOn (printInt p) (printInt s) m (liveOf t m)), sidecar, true, some t.waiter, lens, false, calls⟩
    s (liveOf t m).word o force hprints hreach hreaders.onPose rfl
  rw [doOff, acquireLock_of_free fun hp hlock => absurd hlock.symm (Option.some_ne_none hp)]
  dsimp only
  rw [Bool.not_true, Bool.false_and, if_neg Bool.false_ne_true, hreaders.onTilt, hreaders.onMode, hreaders.onLive]
  exact ⟨hstate, harmed, rfl, hsidecar, hnear⟩

end Runs

/-- **Privacy on, then off, changes nothing**: the sidecar has its mode, the state is inactive with its pose, marker
and lock are gone, and the lens is back, whatever others make of the sidecar meanwhile; and the readers of the state
recover what the writers encode. -/
theorem on_off_identity {ω : Type} (t : Tools ω) (o : Others) (force : Bool) (pan tilt : ω → Int) (p : Int) (m : Mode)
    (w : World ω) (hprints : t.driver.Prints pan tilt) (hreach : t.driver.Reaches tilt (tilt w.lens))
    (hfree : Free t.alive w.lock) (harmed : w.armed = false) (hactive : StateFile.active w.state = false)
    (hfull : w.full = false) (hpose : StateFile.stPoseTilt w.state = printInt p)
    (hmode : Sidecar.parse w.sidecar = some m) :
    (Sidecar.parse (onThenOff t o force w).sidecar = some m ∧
      (onThenOff t o force w).state = some (StateFile.writeOff (printInt p)) ∧
      StateFile.stActive (onThenOff t o force w).state = ascii "false" ∧
      StateFile.stPoseTilt (onThenOff t o force w).state = printInt p ∧
      (onThenOff t o force w).armed = false ∧ (onThenOff t o force w).lock = none ∧
      Near (tilt (onThenOff t o force w).lens) (tilt w.lens)) ∧
    ∀ (pose saved : Int) (mode live : Mode), Recovers pose saved mode live
      (some (StateFile.writeOn (printInt pose) (printInt saved) mode live))
      (some (StateFile.writeOff (printInt pose))) := by
  have hprivate := doOn_private o hprints hfree harmed hactive hfull hpose hmode
  have hparked : Private t p (tilt w.lens) m { doOn t o w with sidecar := o.parked (doOn t o w).sidecar } :=
    ⟨hprivate.state, hprivate.armed, hprivate.lock, hprivate.full⟩
  obtain ⟨hstate, hdisarmed, hlock, hsidecar, hnear⟩ := doOff_public o force hprints hreach hparked
  have hreaders := recovers p (tilt w.lens) m (liveOf t m)
  refine ⟨⟨hsidecar, hstate, ?_, ?_, hdisarmed, hlock, hnear⟩, recovers⟩
  · exact (congrArg StateFile.stActive hstate).trans hreaders.offActive
  · exact (congrArg StateFile.stPoseTilt hstate).trans hreaders.offPose

/-! ### A camera -/

/-- Motors that go where they are told at once, between the stops. -/
def ideal : Driver Int where
  position x := printInt 1024 ++ 44 :: (printInt (max 0 (min x 2304)) ++ [10])
  jog dy x := max 0 (min x 2304) + dy
  second x := x

theorem ideal_idle (n : Nat) (last : List Byte) (x : Int) : waitMotorsIdle ideal n last x = x := by
  induction n generalizing last with
  | zero => rfl
  | succ n ih =>
    rw [waitMotorsIdle]
    split
    · rfl
    · exact ih _

def idealTools : Tools Int where
  driver := ideal
  jct := ascii "\"1024,1152\"\n"
  daynightMode := some (ascii "night\n")
  executor := true
  alive _ := false
  pid := ascii "812"
  waiter := ascii "815"

/-- A camera that looks slightly up, with a mode that is left to the engine and a lock that was left behind. -/
def watching : World Int :=
  ⟨some (StateFile.writeOff (printInt (-12))), some (Sidecar.text .auto), false, some (ascii "77"), 1300, false, []⟩

theorem on_off_identity_watching : (Sidecar.parse (onThenOff idealTools ⟨id, fun _ => none, id⟩ false watching).sidecar = some .auto ∧
      Near (max 0 (min (onThenOff idealTools ⟨id, fun _ => none, id⟩ false watching).lens 2304)) 1300) := by
  have hprints : idealTools.driver.Prints (fun _ => 1024) fun x => max 0 (min x 2304) :=
    ⟨fun _ => rfl, fun x => by omega⟩
  have hreach : idealTools.driver.Reaches (fun x => max 0 (min x 2304)) 1300 := by
    intro x
    show Near (max 0 (min (waitMotorsIdle ideal settleMax [] (ideal.jog (1300 - max 0 (min x 2304)) x)) 2304)) 1300
    rw [ideal_idle]
    show (max 0 (min (max 0 (min x 2304) + (1300 - max 0 (min x 2304))) 2304) - 1300).natAbs ≤ 50
    omega
  have h := on_off_identity idealTools ⟨id, fun _ => none, id⟩ false (fun _ => 1024) (fun x => max 0 (min x 2304)) (-12) .auto
    watching hprints hreach (fun _ _ => .inr rfl) rfl (by decide +kernel) rfl (by decide +kernel) (by decide +kernel)
  exact ⟨h.1.1, h.1.2.2.2.2.2.2⟩

end Thingino.Privacy.RoundTrip
