import Thingino.Lib.Shell
import Thingino.Lib.Transition

/-! `wedge-detector`: an emergency reboot once too many tasks have been stuck for too long.

Every fifteen seconds the loop looks at the uptime, the upgrade flag, the state of every process and
the load. Eight looks in a row that all find a wedge end in SysRq-b; any other look starts the count
again. The state of a process is cut out of a text that holds its name as the process has set it, and
the name may have any byte but 0 in it. -/
namespace Thingino.Wedge
open Lib Shell

def dThreshold : Nat := 5
def loadThreshold : Nat := 6
def confirmChecks : Nat := 8
def graceSeconds : Nat := 600

def isLetter (b : Byte) : Bool := 65 ≤ b.toNat && b.toNat ≤ 90 || 97 ≤ b.toNat && b.toNat ≤ 122

/-- A process as its `stat` file shows it: `fields` are the numbers behind the state. -/
structure Process where
  pid : List Byte
  comm : List Byte
  state : Byte
  fields : List Byte
  pid_ne_nil : pid ≠ []
  pid_digits : ∀ b ∈ pid, isDigit b = true
  state_letter : isLetter state = true
  fields_numbers : ∀ b ∈ fields, (isDigit b || b = 45 || b = 32) = true
  fields_end : ∃ lead last, fields = lead ++ [last] ∧ isDigit last = true

/-- `/proc/<pid>/stat`; the kernel puts the name in as it is. -/
def Process.stat (p : Process) : List Byte :=
  p.pid ++ ascii " (" ++ p.comm ++ ascii ") " ++ p.state :: 32 :: p.fields ++ [10]

/-- A directory of the glob: a process, or one that is gone or cannot be read. -/
inductive Entry
  | process (p : Process)
  | unreadable

/-- What `count_d` makes of a `stat` file. -/
def countsAsD (stat : List Byte) : Bool :=
  match readLine stat with
  | none => false
  | some line =>
    match behindLast (ascii ") ") line with
    | none => false
    | some rest => ascii "D " <+: rest

namespace Entry

def counted : Entry → Bool
  | .process p => countsAsD p.stat
  | .unreadable => false

/-- The process is in uninterruptible sleep. -/
def inD : Entry → Bool
  | .process p => p.state = 68
  | .unreadable => false

end Entry

/-- `count_d`. -/
def countD (entries : List Entry) : Nat := entries.countP Entry.counted

/-- What there is to read in one iteration. -/
structure Look where
  uptime : Option (List Byte)
  upgrading : Bool
  entries : List Entry
  loadavg : Option (List Byte)

/-- The integer part of the first field, where it is a number. -/
def integerPart (file : Option (List Byte)) : Option (List Byte) :=
  (file.bind readField).bind fun field =>
    let n := field.takeWhile (· ≠ 46)
    if n ≠ [] ∧ n.all isDigit then some n else none

/-- `seen` and `sysrq` are for the record: the looks so far, the last one first, and what they were
at each SysRq-b. -/
structure Detector where
  streak : Nat
  seen : List Look
  sysrq : List (List Look)

namespace Detector

/-- The decision, with the count and the load at hand. -/
def decision (d : Detector) (dn : Nat) (load : List Byte) (seen : List Look) : Detector :=
  if dThreshold ≤ dn && testGe load loadThreshold then
    { d with
      streak := d.streak + 1
      seen
      sysrq := if confirmChecks ≤ d.streak + 1 then seen :: d.sysrq else d.sysrq }
  else { d with streak := 0, seen }

/-- One iteration of the loop. -/
def iterate (d : Detector) (look : Look) : Detector :=
  let seen := look :: d.seen
  match integerPart look.uptime with
  | none => { d with streak := 0, seen }
  | some up =>
    if testLt up graceSeconds then { d with streak := 0, seen }
    else if look.upgrading then { d with streak := 0, seen }
    else
      match integerPart look.loadavg with
      | none => { d with streak := 0, seen }
      | some load => d.decision (countD look.entries) load seen

def step (d : Detector) (look : Look) : Option Detector := some (d.iterate look)

def start : Detector := ⟨0, [], []⟩

end Detector

/-- The wedge, as it really was at a look. -/
structure Wedged (look : Look) : Prop where
  uptime : ∃ up, integerPart look.uptime = some up ∧ graceSeconds ≤ decimal up
  upgrading : look.upgrading = false
  load : ∃ load, integerPart look.loadavg = some load ∧ loadThreshold ≤ decimal load
  stuck : dThreshold ≤ look.entries.countP Entry.inD

/-- **The property.** Each SysRq-b comes behind eight looks in a row that all found a wedge. -/
def Justified (d : Detector) : Prop :=
  ∀ seen ∈ d.sysrq, confirmChecks ≤ seen.length ∧ ∀ look ∈ seen.take confirmChecks, Wedged look

/-! ### What counts as D -/

/-- A name that ends the line early, behind a text that reads like a state D. -/
def misleads (comm : List Byte) : Bool :=
  comm.contains 10 &&
    match behindLast (ascii ") ") (trimEnd (comm.takeWhile (· ≠ 10))) with
    | none => false
    | some rest => ascii "D " <+: rest

theorem not_blank_of_digit {b : Byte} (h : isDigit b = true) : isBlank b = false := by
  revert b
  decide

/-- The bytes of a number, and a letter, are no line end and no bracket. -/
theorem plain_of_digit {b : Byte} (h : isDigit b = true) : b ≠ 10 ∧ b ≠ 41 := by
  revert b
  decide

theorem plain_of_letter {b : Byte} (h : isLetter b = true) : b ≠ 10 ∧ b ≠ 41 := by
  revert b
  decide

theorem plain_of_field {b : Byte} (h : (isDigit b || b = 45 || b = 32) = true) : b ≠ 10 ∧ b ≠ 41 := by
  revert b
  decide

namespace Process
variable (p : Process)

theorem pid_plain {b : Byte} (hb : b = 10 ∨ b = 41) : b ∉ p.pid ++ ascii " (" := by
  intro hmem
  rw [List.mem_append] at hmem
  obtain hpid | hopen := hmem
  · have hplain := plain_of_digit (p.pid_digits b hpid)
    exact hb.elim hplain.1 hplain.2
  · revert hopen
    obtain rfl | rfl := hb <;> decide

theorem tail_plain {b : Byte} (hb : b = 10 ∨ b = 41) : b ∉ p.state :: 32 :: p.fields := by
  intro hmem
  have hplain : b ≠ 10 ∧ b ≠ 41 := by
    cases hmem with
    | head => exact plain_of_letter p.state_letter
    | tail _ hmem =>
      cases hmem with
      | head => decide
      | tail _ hmem => exact plain_of_field (p.fields_numbers b hmem)
  exact hb.elim hplain.1 hplain.2

/-- The first line of `stat`, from the process id on. -/
theorem readLine_pid {line rest : List Byte} (hline : 10 ∉ line) :
    readLine (p.pid ++ ascii " (" ++ line ++ 10 :: rest) = some (trimEnd (p.pid ++ ascii " (" ++ line)) := by
  have hplain := p.pid_plain (.inl rfl : (10 : Byte) = 10 ∨ (10 : Byte) = 41)
  have hdigits := p.pid_digits
  cases hpid : p.pid with
  | nil => exact absurd hpid p.pid_ne_nil
  | cons b pid =>
    rw [hpid] at hplain hdigits
    have hnl : 10 ∉ b :: (pid ++ ascii " (" ++ line) := by
      intro hmem
      rw [← List.cons_append, ← List.cons_append, List.mem_append] at hmem
      exact hmem.elim hplain hline
    exact readLine_cons (not_blank_of_digit (hdigits b List.mem_cons_self)) hnl rest

/-- A name without a line end does not disturb. -/
theorem countsAsD_of_no_newline (h : 10 ∉ p.comm) : countsAsD p.stat = decide (p.state = 68) := by
  obtain ⟨lead, last, hfields, hlast⟩ := p.fields_end
  have hnl : 10 ∉ p.comm ++ ascii ") " ++ p.state :: 32 :: p.fields := by
    rw [List.mem_append, List.mem_append]
    rintro ((hmem | hmem) | hmem)
    · exact h hmem
    · exact absurd hmem (by decide)
    · exact p.tail_plain (.inl rfl) hmem
  have hstat : p.stat = p.pid ++ ascii " (" ++ (p.comm ++ ascii ") " ++ p.state :: 32 :: p.fields) ++ 10 :: [] := by
    simp only [stat, List.append_assoc, List.cons_append]
  have htrim : trimEnd (p.pid ++ ascii " (" ++ (p.comm ++ ascii ") " ++ p.state :: 32 :: p.fields)) =
      p.pid ++ ascii " (" ++ p.comm ++ (ascii ") " ++ p.state :: 32 :: p.fields) := by
    have hends : p.pid ++ ascii " (" ++ (p.comm ++ ascii ") " ++ p.state :: 32 :: p.fields) =
        p.pid ++ ascii " (" ++ p.comm ++ ascii ") " ++ p.state :: 32 :: lead ++ [last] := by
      simp only [hfields, List.append_assoc, List.cons_append]
    rw [hends, trimEnd_append (not_blank_of_digit hlast)]
    simp only [hfields, List.append_assoc, List.cons_append]
    rfl
  have hrest : behindLast (ascii ") ") (p.pid ++ ascii " (" ++ p.comm ++ (ascii ") " ++ p.state :: 32 :: p.fields)) =
      some (p.state :: 32 :: p.fields) :=
    behindLast_append (behindLast_self (by decide) (p.tail_plain (.inr rfl))) _
  rw [countsAsD, hstat, p.readLine_pid hnl, htrim]
  simp only [hrest]
  refine decide_eq_decide.mpr ⟨fun hpre => (List.cons_prefix_cons.mp hpre).1.symm, fun hstate => ?_⟩
  exact ⟨p.fields, by rw [hstate]; rfl⟩

/-- With a line end in the name, what stands before it decides. -/
theorem countsAsD_of_newline (h : 10 ∈ p.comm) : countsAsD p.stat = misleads p.comm := by
  obtain ⟨rest, hcomm⟩ := exists_eq_cut h
  have hnl : 10 ∉ p.comm.takeWhile (· ≠ 10) := by
    intro hmem
    have := List.mem_takeWhile_imp hmem
    simp at this
  have hstat : p.stat = p.pid ++ ascii " (" ++ p.comm.takeWhile (· ≠ 10) ++
      10 :: (rest ++ ascii ") " ++ p.state :: 32 :: p.fields ++ [10]) := by
    conv_lhs => rw [stat, hcomm]
    simp only [List.append_assoc, List.cons_append]
  have htrim : trimEnd (p.pid ++ ascii " (" ++ p.comm.takeWhile (· ≠ 10)) =
      p.pid ++ ascii " (" ++ trimEnd (p.comm.takeWhile (· ≠ 10)) := by
    have hopen : ∀ s, p.pid ++ ascii " (" ++ s = p.pid ++ [32] ++ 40 :: s := fun s => by
      rw [List.append_assoc, List.append_assoc]
      rfl
    rw [hopen, hopen, trimEnd_append (by decide)]
  rw [countsAsD, hstat, p.readLine_pid hnl, htrim]
  have hskip : ∀ s, behindLast (ascii ") ") (p.pid ++ ascii " (" ++ s) = behindLast (ascii ") ") s :=
    @behindLast_append_of_notMem 41 [32] _ (p.pid_plain (.inr rfl))
  rw [misleads, List.contains_iff_mem.mpr h, Bool.true_and]
  simp only [hskip]

end Process

/-- No process outside of D has a misleading name. -/
def Entry.honest : Entry → Bool
  | .process p => p.state = 68 || !misleads p.comm
  | .unreadable => true

/-- A process that is counted is in D, or its name misleads. -/
theorem Entry.sound_iff (entry : Entry) : (entry.counted = true → entry.inD = true) ↔ entry.honest = true := by
  cases entry with
  | unreadable => exact ⟨fun _ => rfl, fun _ => (nomatch ·)⟩
  | process p =>
    simp only [counted, inD, honest, Bool.or_eq_true, decide_eq_true_eq, Bool.not_eq_true']
    by_cases hnl : 10 ∈ p.comm
    · rw [p.countsAsD_of_newline hnl]
      cases misleads p.comm <;> simp
    · have hplain : misleads p.comm = false := by
        rw [misleads, Bool.eq_false_iff.mpr fun h => hnl (List.contains_iff_mem.mp h), Bool.false_and]
      rw [p.countsAsD_of_no_newline hnl, hplain]
      simp

theorem countD_le {entries : List Entry} (h : entries.all Entry.honest = true) :
    countD entries ≤ entries.countP Entry.inD := by
  rw [List.all_eq_true] at h
  exact List.countP_mono_left fun entry hmem => entry.sound_iff.mpr (h entry hmem)

/-! ### The streak -/

/-- The looks that the streak stands for. -/
structure Inv (d : Detector) : Prop where
  long : d.streak ≤ d.seen.length
  wedged : ∀ look ∈ d.seen.take d.streak, Wedged look
  justified : Justified d

/-- What a look does: it starts the streak again, or it is a wedge and adds to it. -/
theorem iterate_cases {d : Detector} {look : Look} (h : look.entries.all Entry.honest = true) :
    d.iterate look = { d with streak := 0, seen := look :: d.seen } ∨
      (Wedged look ∧ d.iterate look =
        { d with
          streak := d.streak + 1
          seen := look :: d.seen
          sysrq := if confirmChecks ≤ d.streak + 1 then (look :: d.seen) :: d.sysrq else d.sysrq }) := by
  unfold Detector.iterate
  dsimp only
  split
  · exact .inl rfl
  · rename_i up hup
    split
    · exact .inl rfl
    · rename_i hlt
      split
      · exact .inl rfl
      · rename_i hflag
        split
        · exact .inl rfl
        · rename_i load hload
          unfold Detector.decision
          split
          · rename_i hgates
            refine .inr ⟨?_, rfl⟩
            rw [Bool.and_eq_true, decide_eq_true_eq, testGe, Bool.and_eq_true, decide_eq_true_eq,
              decide_eq_true_eq] at hgates
            have hgrace : graceSeconds ≤ decimal up := by
              rw [testLt, Bool.and_eq_true, decide_eq_true_eq, decide_eq_true_eq] at hlt
              unfold graceSeconds testMax at *
              omega
            exact ⟨⟨up, hup, hgrace⟩, by simpa using hflag, ⟨load, hload, hgates.2.2⟩, hgates.1.trans (countD_le h)⟩
          · exact .inl rfl

theorem inv_iterate {d : Detector} {look : Look} (h : Inv d) (hok : look.entries.all Entry.honest = true) :
    Inv (d.iterate look) := by
  obtain heq | ⟨hwedged, heq⟩ := iterate_cases (d := d) hok
  · rw [heq]
    exact ⟨Nat.zero_le _, fun _ => (nomatch ·), h.justified⟩
  · rw [heq]
    have hlong : d.streak + 1 ≤ (look :: d.seen).length := Nat.succ_le_succ h.long
    have hall : ∀ seen ∈ (look :: d.seen).take (d.streak + 1), Wedged seen := by
      rw [List.take_succ_cons]
      exact List.forall_mem_cons.mpr ⟨hwedged, h.wedged⟩
    refine ⟨hlong, hall, ?_⟩
    unfold Justified
    dsimp only
    split
    · rename_i hconfirmed
      refine List.forall_mem_cons.mpr ⟨⟨hconfirmed.trans hlong, fun seen hseen => ?_⟩, h.justified⟩
      exact hall seen ((List.take_prefix_take_left hconfirmed).subset hseen)
    · exact h.justified

theorem inv_start : Inv Detector.start :=
  ⟨Nat.le_refl 0, by simp [Detector.start], by simp [Justified, Detector.start]⟩

theorem inv_step {d d' : Detector} {look : Look} (h : Inv d) (hok : look.entries.all Entry.honest = true)
    (hstep : d.step look = some d') : Inv d' := by
  cases hstep
  exact inv_iterate h hok

/-- **The reboot is justified** in runs where no process outside of D has a misleading name; and that is
exactly when each process that counts is in D, so that the count is at most the true one. -/
theorem justified_of_honest (entries : List Entry) (d : Detector) :
    ((∀ entry ∈ entries, entry.counted = true → entry.inD = true) ↔ entries.all Entry.honest = true) ∧
    (entries.all Entry.honest = true → countD entries ≤ entries.countP Entry.inD) ∧
    (Reach Detector.step (fun _ look => look.entries.all Entry.honest = true) Detector.start d → Justified d) := by
  refine ⟨?_, countD_le, fun h => ?_⟩
  · rw [List.all_eq_true]
    exact forall₂_congr fun entry _ => entry.sound_iff
  · have hinv : Inv d := Reach.invariant inv_start (fun _ _ _ hd hok hstep => inv_step hd hok hstep) h
    exact hinv.justified

/-! ### Runs -/

/-- A process with the given name and state. -/
def sampleProcess (comm : List Byte) (state : Byte) (h : isLetter state = true) : Process where
  pid := ascii "412"
  comm
  state
  fields := ascii "1 0"
  pid_ne_nil := by decide
  pid_digits := by decide
  state_letter := h
  fields_numbers := by decide
  fields_end := ⟨ascii "1 ", 48, by decide, by decide⟩

/-- A look at five processes, late and under load. -/
def lateLook (p : Process) : Look where
  uptime := some (ascii "601.27 120.50\n")
  upgrading := false
  entries := List.replicate 5 (.process p)
  loadavg := some (ascii "6.80 3.10 1.00 1/80 4711\n")

def stuck : Process := sampleProcess (ascii "a b) S") 68 (by decide)

/-- A sleeping process with a line end in its name. -/
def sleeper : Process := sampleProcess (ascii "x) D 1\ny") 83 (by decide)

/-- Eight looks at five stuck processes. -/
theorem justified_stuck :
    ∃ d, Reach Detector.step (fun _ look => look.entries.all Entry.honest = true) Detector.start d ∧
      d.sysrq.length = 1 ∧ Justified d := by
  have hrun : ∃ d, Reach Detector.step (fun _ look => look.entries.all Entry.honest = true) Detector.start d ∧
      d.sysrq.length = 1 :=
    exists_reach (List.replicate 8 (lateLook stuck)) (by decide +kernel)
  obtain ⟨d, hd, hsysrq⟩ := hrun
  exact ⟨d, hd, hsysrq, (justified_of_honest [] d).2.2 hd⟩

/-- Eight looks at five sleeping processes. -/
theorem reboot_without_wedge :
    ∃ d, Reach Detector.step (fun _ _ => True) Detector.start d ∧ ¬Justified d ∧
      countD (lateLook sleeper).entries = 5 ∧ (lateLook sleeper).entries.countP Entry.inD = 0 := by
  have hrun : ∃ d, Reach Detector.step (fun _ _ => True) Detector.start d ∧
      (d.sysrq.any fun seen => seen.head?.any fun look => look.entries.countP Entry.inD = 0) = true :=
    exists_reach (List.replicate 8 (lateLook sleeper)) (by decide +kernel)
  obtain ⟨d, hd, hsysrq⟩ := hrun
  refine ⟨d, hd, fun h => ?_, by decide +kernel, by decide +kernel⟩
  obtain ⟨seen, hseen, hhead⟩ := List.any_eq_true.mp hsysrq
  obtain ⟨look, hlook, hnone⟩ := Option.any_eq_true _ _ |>.mp hhead
  obtain ⟨rest, rfl⟩ := List.head?_eq_some_iff.mp hlook
  have hstuck := ((h _ hseen).2 look List.mem_cons_self).stuck
  rw [of_decide_eq_true hnone] at hstuck
  exact absurd hstuck (by decide)

end Thingino.Wedge
