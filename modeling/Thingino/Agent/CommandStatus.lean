import Thingino.Lib.Shell

/-! What the agent says about a command it has run.

`main` sets `SIGCHLD` to be ignored, and every process that serves a client inherits
that. `capture_command` forks once more, reads what the child prints, waits for it and
takes the exit code out of `status`. With `SIGCHLD` ignored there is nothing to wait for:
`waitpid` returns with `ECHILD` and `status` keeps the zero it started with, which is also
the word of a child that has ended well. -/
namespace Thingino.Agent.Server
open Lib

/-! ### Children and signals -/

/-- The number of a signal that can end a process. -/
def Signal := { n : Nat // 0 < n ∧ n < 127 }

inductive ChildEnd where
  | exited (code : Byte)
  | signaled (signal : Signal) (core : Bool)

/-- What becomes of the child behind `fork`. -/
inductive Program where
  | runs (childEnd : ChildEnd)
  | execFails

/-- Behind a failed `execv` stands `_exit(127)`. -/
def Program.childEnd : Program → ChildEnd
  | .runs childEnd => childEnd
  | .execFails => .exited 127#8

inductive Disposition where
  | default
  | ignored
  | handled
deriving DecidableEq

structure Signals where
  sigterm : Disposition
  sigint : Disposition
  sigchld : Disposition

/-- The three calls of `signal` in `main`. -/
def installSignals (s : Signals) : Signals := { s with sigterm := .handled, sigint := .handled, sigchld := .ignored }

/-- The dispositions of a process go over to its child. -/
def forkSignals (s : Signals) : Signals := s

/-- The status word of a child. -/
def statusWord : ChildEnd → Nat
  | .exited code => code.toNat * 256
  | .signaled signal core => signal.1 + if core then 128 else 0

def wifexited (status : Nat) : Bool := status % 128 = 0

def wexitstatus (status : Nat) : Nat := status / 256 % 256

/-- `waitpid` on one child: its return value, and the status word behind the pointer. -/
def waitpid (s : Signals) (pid : Nat) (childEnd : ChildEnd) (status : Nat) : Int × Nat :=
  match s.sigchld with
  | .ignored => (-1, status)
  | _ => (pid, statusWord childEnd)

/-! ### `capture_command` -/

inductive Read where
  | bytes (chunk : List Byte)
  | interrupted
  | failed

/-- What the agent meets outside. A list of reads that is over is followed by the end of the pipe. -/
structure World where
  pipe : Bool
  fork : Option Nat
  exec : List (List Byte) → Option (List Byte) → Program × List Read
  realloc : Nat → Bool
  calloc : Bool

/-- The loop that doubles `new_capacity`. -/
def enlarge (capacity need : Nat) : Nat :=
  if 0 < capacity ∧ capacity < need then enlarge (capacity * 2) need else capacity
termination_by need - capacity

def newCapacity (capacity need : Nat) : Nat := enlarge (if capacity = 0 then 8192 else capacity * 2) need

/-- The reading loop, with the buffer and its capacity. -/
def readOutput (realloc : Nat → Bool) : List Read → List Byte → Nat → Option (List Byte × Nat)
  | [], buffer, capacity => some (buffer, capacity)
  | .interrupted :: reads, buffer, capacity => readOutput realloc reads buffer capacity
  | .failed :: _, _, _ => none
  | .bytes chunk :: reads, buffer, capacity =>
    let need := buffer.length + chunk.length + 1
    if chunk = [] then some (buffer, capacity)
    else if capacity < need then
      if realloc (newCapacity capacity need) then readOutput realloc reads (buffer ++ chunk) (newCapacity capacity need)
      else none
    else readOutput realloc reads (buffer ++ chunk) capacity

/-- The return value and the output. -/
def captureCommand (s : Signals) (w : World) (argv : List (List Byte)) (stdin : Option (List Byte)) :
    Int × List Byte :=
  match w.pipe, w.fork with
  | false, _ | true, none => (-1, [])
  | true, some pid =>
    let (program, reads) := w.exec argv stdin
    match readOutput w.realloc reads [] 0 with
    | none => (-1, [])
    | some (buffer, capacity) =>
      let (_, status) := waitpid s pid program.childEnd 0
      -- no buffer yet: one byte for the NUL
      if capacity = 0 ∧ w.calloc = false then (-1, [])
      else (if wifexited status then wexitstatus status else -1, buffer)

/-! ### The answer -/

structure Response where
  status : Nat
  statusText : List Byte
  contentType : List Byte
  body : List Byte

def sendJsonError (status : Nat) (statusText message : List Byte) : Response :=
  ⟨status, statusText, ascii "application/json",
    (ascii "\x7b\"status\":\"error\",\"error\":\x7b\"code\":\"http_" ++ Shell.digits status ++ ascii "\",\"message\":\"" ++
      message ++ ascii "\"\x7d\x7d\n").take 511⟩

/-- What both callers make of a captured command. -/
def answer (contentType : List Byte) (captured : Int × List Byte) : Response :=
  if captured.1 ≠ 0 then sendJsonError 500 (ascii "Internal Server Error") (ascii "thingino-agentctl failed")
  else ⟨200, ascii "OK", contentType, captured.2⟩

def executeAgentctlJson (s : Signals) (w : World) (argv : List (List Byte)) (stdin : Option (List Byte)) : Response :=
  answer (ascii "application/json") (captureCommand s w argv stdin)

def executeAgentctlBinary (s : Signals) (w : World) (argv : List (List Byte)) (contentType : List Byte) : Response :=
  answer contentType (captureCommand s w argv none)

/-- The dispositions where a client is served: `main` has installed its own and forked. -/
def serving (s : Signals) : Signals := forkSignals (installSignals s)

/-! ### What decides -/

/-- How the command ended, when there was one. -/
def ending (w : World) (argv : List (List Byte)) (stdin : Option (List Byte)) : Option ChildEnd :=
  if w.pipe = true ∧ w.fork ≠ none then some (w.exec argv stdin).1.childEnd else none

/-- The status that the end of a command calls for. -/
def due : Option ChildEnd → Nat
  | some (.exited 0#8) => 200
  | _ => 500

/-- No read fails before the end of the pipe. -/
def unbroken : List Read → Bool
  | [] => true
  | .interrupted :: reads => unbroken reads
  | .failed :: _ => false
  | .bytes chunk :: reads => chunk = [] || unbroken reads

/-- The sizes asked of `realloc`, for a buffer with so many bytes in it. -/
def requests : List Read → Nat → Nat → List Nat
  | [], _, _ => []
  | .interrupted :: reads, used, capacity => requests reads used capacity
  | .failed :: _, _, _ => []
  | .bytes chunk :: reads, used, capacity =>
    let need := used + chunk.length + 1
    if chunk = [] then []
    else if capacity < need then
      newCapacity capacity need :: requests reads (used + chunk.length) (newCapacity capacity need)
    else requests reads (used + chunk.length) capacity

/-- The output of the command can be had: the pipe, the child, every read and the memory. -/
structure Captured (w : World) (argv : List (List Byte)) (stdin : Option (List Byte)) : Prop where
  pipe : w.pipe = true
  fork : w.fork ≠ none
  reads : unbroken (w.exec argv stdin).2 = true
  room : ∀ size ∈ requests (w.exec argv stdin).2 0 0, w.realloc size = true
  terminator : requests (w.exec argv stdin).2 0 0 = [] → w.calloc = true

theorem lt_newCapacity (capacity need : Nat) : 0 < newCapacity capacity need := by
  have henlarge : ∀ c need, 0 < c → 0 < enlarge c need := by
    intro c need hc
    fun_induction enlarge c need with
    | case1 c h ih => exact ih (by omega)
    | case2 c h => exact hc
  unfold newCapacity
  split <;> exact henlarge _ _ (by omega)

/-- The loop ends well when nothing on its way fails; it has a buffer when it has asked for one. -/
theorem readOutput_eq_some_iff (realloc : Nat → Bool) (reads : List Read) (buffer : List Byte) (capacity : Nat) :
    (readOutput realloc reads buffer capacity).isSome ↔
      unbroken reads = true ∧ ∀ size ∈ requests reads buffer.length capacity, realloc size = true := by
  induction reads generalizing buffer capacity with
  | nil => simp [readOutput, unbroken, requests]
  | cons r reads ih =>
    cases r with
    | interrupted => exact ih buffer capacity
    | failed => simp [readOutput, unbroken]
    | bytes chunk =>
      have hgrown := ih (buffer ++ chunk)
      rw [List.length_append] at hgrown
      rw [readOutput, unbroken, requests]
      by_cases hnil : chunk = []
      · simp [hnil]
      · rw [if_neg hnil, if_neg hnil, decide_eq_false hnil, Bool.false_or]
        by_cases hfull : capacity < buffer.length + chunk.length + 1
        · rw [if_pos hfull, if_pos hfull]
          by_cases halloc : realloc (newCapacity capacity (buffer.length + chunk.length + 1)) = true
          · rw [if_pos halloc, hgrown]
            simp [halloc]
          · rw [if_neg halloc]
            simp [halloc]
        · rw [if_neg hfull, if_neg hfull, hgrown]

/-- Without a request the capacity is what it was; with one it is positive. -/
theorem readOutput_capacity {realloc : Nat → Bool} {reads : List Read} {buffer out : List Byte} {capacity capacity' : Nat}
    (h : readOutput realloc reads buffer capacity = some (out, capacity')) :
    capacity' = 0 ↔ capacity = 0 ∧ requests reads buffer.length capacity = [] := by
  induction reads generalizing buffer capacity with
  | nil =>
    cases h
    simp [requests]
  | cons r reads ih =>
    cases r with
    | interrupted => exact ih h
    | failed => cases h
    | bytes chunk =>
      rw [readOutput] at h
      rw [requests]
      by_cases hnil : chunk = []
      · simp only [if_pos hnil] at h ⊢
        cases h
        simp
      · simp only [if_neg hnil] at h ⊢
        by_cases hfull : capacity < buffer.length + chunk.length + 1
        · rw [if_pos hfull] at h ⊢
          split at h
          · have hpos := lt_newCapacity capacity (buffer.length + chunk.length + 1)
            rw [ih h]
            simp only [List.cons_ne_nil, and_false, iff_false, not_and]
            omega
          · cases h
        · rw [if_neg hfull] at h ⊢
          rw [ih h, List.length_append]

/-- With `SIGCHLD` ignored the word that is looked at is the zero it started with. -/
theorem waitpid_serving (s : Signals) (pid : Nat) (childEnd : ChildEnd) (status : Nat) :
    (waitpid (serving s) pid childEnd status).2 = status := rfl

private theorem minus_one_ne_zero : ((-1 : Int), ([] : List Byte)).1 ≠ 0 := by decide

/-- `capture_command` reports zero whenever there is an output to report. -/
theorem captureCommand_zero_iff (s : Signals) (w : World) (argv : List (List Byte)) (stdin : Option (List Byte)) :
    (captureCommand (serving s) w argv stdin).1 = 0 ↔ Captured w argv stdin := by
  unfold captureCommand
  cases hpipe : w.pipe with
  | false =>
    refine ⟨fun h => ?_, fun h => absurd (hpipe.symm.trans h.pipe) Bool.false_ne_true⟩
    exact absurd h minus_one_ne_zero
  | true =>
    cases hfork : w.fork with
    | none => exact ⟨fun h => absurd h minus_one_ne_zero, fun h => absurd hfork h.fork⟩
    | some pid =>
      have hsome := readOutput_eq_some_iff w.realloc (w.exec argv stdin).2 [] 0
      dsimp only
      cases hread : readOutput w.realloc (w.exec argv stdin).2 [] 0 with
      | none =>
        rw [hread] at hsome
        exact ⟨fun h => absurd h minus_one_ne_zero,
          fun h => absurd (hsome.mpr ⟨h.reads, h.room⟩) Bool.false_ne_true⟩
      | some result =>
        obtain ⟨buffer, capacity⟩ := result
        rw [hread] at hsome
        obtain ⟨hreads, hroom⟩ := hsome.mp rfl
        have hcapacity := readOutput_capacity hread
        dsimp only
        rw [waitpid_serving]
        by_cases hnone : capacity = 0 ∧ w.calloc = false
        · rw [if_pos hnone]
          refine ⟨fun h => absurd h minus_one_ne_zero, fun h => ?_⟩
          have hcalloc := h.terminator (hcapacity.mp hnone.1).2
          exact absurd (hnone.2.symm.trans hcalloc) Bool.false_ne_true
        · rw [if_neg hnone]
          refine ⟨fun _ => ⟨hpipe, by rw [hfork]; exact Option.some_ne_none pid, hreads, hroom, fun hempty => ?_⟩,
            fun _ => rfl⟩
          have hzero := hcapacity.mpr ⟨rfl, hempty⟩
          cases hcalloc : w.calloc with
          | true => rfl
          | false => exact absurd ⟨hzero, hcalloc⟩ hnone

theorem answer_status (contentType : List Byte) (captured : Int × List Byte) :
    (answer contentType captured).status = if captured.1 = 0 then 200 else 500 := by
  unfold answer
  by_cases h : captured.1 = 0
  · rw [if_neg (not_not.mpr h), if_pos h]
  · rw [if_pos h, if_neg h]
    rfl

theorem due_eq_ok_iff (childEnd : Option ChildEnd) : due childEnd = 200 ↔ childEnd = some (.exited 0#8) := by
  unfold due
  split
  · exact ⟨fun _ => rfl, fun _ => rfl⟩
  · rename_i hne
    exact ⟨fun h => absurd h (by decide), fun h => absurd h hne⟩

theorem due_eq (childEnd : Option ChildEnd) : due childEnd = 200 ∨ due childEnd = 500 := by
  unfold due
  split
  · exact .inl rfl
  · exact .inr rfl

/-- An answer is the one that is due when the output is had just in the cases where the command
has ended well. -/
theorem answer_due_iff (s : Signals) (w : World) (argv : List (List Byte)) (stdin : Option (List Byte))
    (contentType : List Byte) :
    (answer contentType (captureCommand (serving s) w argv stdin)).status = due (ending w argv stdin) ↔
      (Captured w argv stdin ↔ ending w argv stdin = some (.exited 0#8)) := by
  rw [answer_status, ← due_eq_ok_iff, ← captureCommand_zero_iff s]
  by_cases hzero : (captureCommand (serving s) w argv stdin).1 = 0
  · rw [if_pos hzero]
    exact ⟨fun h => ⟨fun _ => h.symm, fun _ => hzero⟩, fun h => (h.mp hzero).symm⟩
  · rw [if_neg hzero]
    refine ⟨fun h => ⟨fun hz => absurd hz hzero, fun hok => absurd (h.trans hok) (by decide)⟩, fun h => ?_⟩
    exact ((due_eq _).resolve_left fun hok => hzero (h.mpr hok)).symm

/-- **The status is faithful exactly** for the commands that end with code zero and whose output
is had, and for the others only when it is not: whether a command has failed is never seen. -/
theorem command_status_iff (s : Signals) (w : World) (argv : List (List Byte)) :
    (∀ stdin, (executeAgentctlJson (serving s) w argv stdin).status = due (ending w argv stdin) ↔
      (Captured w argv stdin ↔ ending w argv stdin = some (.exited 0#8))) ∧
    ∀ contentType, (executeAgentctlBinary (serving s) w argv contentType).status = due (ending w argv none) ↔
      (Captured w argv none ↔ ending w argv none = some (.exited 0#8)) :=
  ⟨fun stdin => answer_due_iff s w argv stdin _, fun contentType => answer_due_iff s w argv none contentType⟩

/-- A world where every command prints nothing and fails. -/
def failing : World := ⟨true, some 2, fun _ _ => (.runs (.exited 1#8), []), fun _ => true, true⟩

/-- `agentctl device` has failed, and the answer is 200. -/
theorem failed_command_answered_ok :
    (executeAgentctlJson (serving ⟨.default, .default, .default⟩) failing [ascii "/usr/sbin/thingino-agentctl", ascii "device"]
        none).status = 200 ∧
      due (ending failing [ascii "/usr/sbin/thingino-agentctl", ascii "device"] none) = 500 := by
  decide

end Thingino.Agent.Server
