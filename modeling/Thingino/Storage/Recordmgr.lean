import Thingino.Lib.FixedWidth
import Thingino.Lib.Lines
import Thingino.Lib.Transition

/-! The storage manager: it removes the oldest recordings when there are too many of them or too little space.

A check lists the recordings, sorts the list and goes through it until both limits are met, while the recorder writes
new files and others remove some. What `du` said of a file is added to the free space and taken off the used one; the
file system is not asked again. The frames of a timelapse are treated the same way, behind the removal of those that
are too old. A step below is what the daemon does between two looks at the disk.

`sound_of_reach` says, for any order of these steps, that a check removes recordings only, in the order of their names,
each when by its own count the limits were not met without it, and that it ends when by this count they are met, or at
the end of the list. The count takes a file for gone that `rm` could not remove. The names are times, and they sort as
the times do, so no recording goes before an older one of the list. Every file that was created is there, was removed by
somebody else, was a frame that was too old, went in a check, or had the name with which the manager tries whether it
can write. -/
namespace Thingino.Storage
open Lib Lib.Shell

namespace Recordmgr

/-- What `find` looks for. -/
inductive Kind
  | recording
  | frame
  deriving DecidableEq

def extensions : List (List Byte) :=
  [ascii ".mp4", ascii ".ts", ascii ".mkv", ascii ".avi", ascii ".mov", ascii ".h264", ascii ".h265", ascii ".hevc"]

def Kind.finds (kind : Kind) (p : List Byte) : Bool :=
  match kind with
  | .recording => extensions.any fun e => e <:+ p
  | .frame => ascii ".jpg" <:+ p

/-- `case "$text" in ''|*[!0-9]*) … esac`. -/
def numberOr (default : Nat) (text : List Byte) : Nat :=
  if text ≠ [] && text.all isDigit then decimal text else default

def defaultMinFreeMb : Nat := 500
def defaultLimitGb : List Byte := ascii "15"

/-- A limit in megabytes. The shell calculates with 64 bits, takes a number with a zero in front for an octal one, and
comes to an end where it is none. -/
def limitMb (wide : List Byte → Option Int) (default text : List Byte) : Option Int :=
  (arith wide (if text ≠ [] && text.all isDigit then text else default)).map fun n => (n * 1024).bmod (2 ^ 64)

/-- No empty component but the first. -/
def isPlain (dir : List Byte) : Bool := (dir.splitOn 47).tail.all (· ≠ [])

def under (mount path : List Byte) : List Byte := if path = [] then mount else mount ++ 47 :: path

/-- The recorder section of the configuration, and what the file system says of it. -/
structure Config where
  cleanupEnabled : List Byte
  mount : List Byte
  devicePath : List Byte
  limit : List Byte
  minFreeMb : List Byte
  isMountpoint : Bool
  isDir : Bool
  plain : isPlain (under mount devicePath) = true

def Config.recDir (c : Config) : List Byte := under c.mount c.devicePath

/-- None of the reasons to skip the check, up to `ensure_writable`. -/
def Config.ready (c : Config) : Bool :=
  c.cleanupEnabled ≠ ascii "false" && c.cleanupEnabled ≠ ascii "0" && c.cleanupEnabled ≠ [] && c.mount ≠ [] &&
    c.isMountpoint

/-- The file that `ensure_writable` makes and removes. -/
def rwCheck (mount : List Byte) : List Byte := mount ++ ascii "/.rw_check"

/-- `${path%/}`. -/
def withoutSlash (path : List Byte) : List Byte := if path.getLast? = some 47 then path.dropLast else path

structure TimelapseConfig where
  enabled : List Byte
  mount : List Byte
  filepath : List Byte
  keepDays : List Byte
  limit : List Byte
  minFreeMb : List Byte
  isMountpoint : Bool
  isDir : Bool
  plain : isPlain (under (withoutSlash mount) (withoutSlash filepath)) = true
  deriving DecidableEq

def TimelapseConfig.tlDir (c : TimelapseConfig) : List Byte := under (withoutSlash c.mount) (withoutSlash c.filepath)

def isTrue (text : List Byte) : Bool :=
  text = ascii "true" || text = ascii "1" || text = ascii "yes" || text = ascii "on"

def TimelapseConfig.ready (c : TimelapseConfig) : Bool :=
  isTrue c.enabled && withoutSlash c.mount ≠ [] && c.isMountpoint && c.isDir

/-- A frame that was too old, how many days old it was, and the configuration. -/
structure Pruned where
  path : List Byte
  config : TimelapseConfig
  days : Nat
  deriving DecidableEq

/-- The variables of `cleanup`; `rest` is what is left of the list. -/
structure Cleanup where
  kind : Kind
  dir : List Byte
  minFreeMb : Nat
  limitMb : Int
  freeMb : Nat
  usedMb : Nat
  rest : List (List Byte)
  deriving DecidableEq

def Cleanup.met (c : Cleanup) : Bool := c.minFreeMb ≤ c.freeMb && c.usedMb ≤ c.limitMb

/-- What the loop found of a line. -/
inductive Found
  | absent
  | taken (mb : Nat) (removed : Bool)
  deriving DecidableEq

/-- A check as it began, and what it has found since. -/
structure Trace where
  start : Cleanup
  seen : List (List Byte × Found)
  deriving DecidableEq

inductive Place
  | resting
  | cleaning (c : Cleanup) (trace : Trace)
  | between
  | over
  deriving DecidableEq

/-- `created`, `vanished`, `probed`, `pruned` and `checks` are the history. -/
structure Manager where
  disk : List (List Byte)
  vrMinFreeMb : Nat
  place : Place
  created : List (List Byte)
  vanished : List (List Byte)
  probed : List (List Byte)
  pruned : List Pruned
  checks : List Trace
  deriving DecidableEq

def initial : Manager := ⟨[], defaultMinFreeMb, .resting, [], [], [], [], []⟩

variable (wide : List Byte → Option Int) (s : Manager)

def below (dir p : List Byte) : Bool := dir ++ [47] <+: p

def candidates (kind : Kind) (dir : List Byte) : List (List Byte) :=
  s.disk.filter fun p => below dir p && kind.finds p

/-- `find … | sort`, read line by line. -/
def listing (kind : Kind) (dir : List Byte) : List (List Byte) :=
  (Lines.lines ((candidates s kind dir).flatMap (· ++ [10]))).insertionSort lineLe

/-- `cleanup`, up to its loop. `free` and `used` are the numbers that `df` and `du` print, if they do; `behind` is where
the daemon goes on. -/
def cleanup (kind : Kind) (dir : List Byte) (minFreeMb : Nat) (limitMb : Int) (free used : Option Nat) (behind : Place) :
    Manager :=
  match free with
  | none => { s with place := behind }
  | some freeMb =>
    let c : Cleanup := ⟨kind, dir, minFreeMb, limitMb, freeMb, used.getD 0, listing s kind dir⟩
    if c.met then { s with place := behind } else { s with place := .cleaning c ⟨c, []⟩ }

def Cleanup.behind (c : Cleanup) : Place :=
  match c.kind with
  | .recording => .between
  | .frame => .resting

/-- One turn of the loop; `size` is what `du` says, and `removed` whether `rm` could remove the file. -/
def turn (c : Cleanup) (trace : Trace) (size : Option Nat) (removed : Bool) : Manager :=
  match c.rest with
  | [] => { s with place := c.behind, checks := trace :: s.checks }
  | oldest :: rest =>
    if c.met then { s with place := c.behind, checks := trace :: s.checks }
    else if s.disk.contains oldest then
      let mb := size.getD 0
      { s with
        disk := if removed then s.disk.filter (· ≠ oldest) else s.disk
        place := .cleaning { c with rest := rest, freeMb := c.freeMb + mb, usedMb := c.usedMb - mb }
          ⟨trace.start, trace.seen ++ [(oldest, .taken mb removed)]⟩ }
    else { s with place := .cleaning { c with rest := rest } ⟨trace.start, trace.seen ++ [(oldest, .absent)]⟩ }

/-- `ensure_writable`, where the file can be made; a mount that is read-only is mounted again. -/
def ensureWritable (mount : List Byte) (touched : Bool) : Manager :=
  if touched then { s with disk := s.disk.filter (· ≠ rwCheck mount), probed := rwCheck mount :: s.probed } else s

/-- `run_check`. -/
def runCheck (c : Config) (touched : Bool) (free used : Option Nat) : Manager :=
  let s := { s with vrMinFreeMb := numberOr defaultMinFreeMb c.minFreeMb }
  if c.ready then
    let s := ensureWritable s c.mount touched
    if c.isDir then
      match limitMb wide defaultLimitGb c.limit with
      | none => { s with place := .over }
      | some limitMb => cleanup s .recording c.recDir s.vrMinFreeMb limitMb free used .between
    else { s with place := .between }
  else { s with place := .between }

/-- `find "$tl_dir" -type f -name '*.jpg' -mtime +"$tl_keep_days" -delete`, where that can be done. -/
def prune (c : TimelapseConfig) (days : List Byte → Nat) (writable : Bool) : Manager :=
  let old := (candidates s .frame c.tlDir).filter fun p => writable && numberOr 7 c.keepDays < days p
  { s with disk := s.disk.filter (!old.contains ·), pruned := old.map (fun p => ⟨p, c, days p⟩) ++ s.pruned }

/-- `run_timelapse_check`; without a limit of its own it looks at the free space first. -/
def runTimelapseCheck (c : TimelapseConfig) (days : List Byte → Nat) (writable : Bool)
    (freeBefore free used : Option Nat) : Manager :=
  if c.ready then
    let s := prune s c days writable
    let minFreeMb := numberOr s.vrMinFreeMb c.minFreeMb
    match limitMb wide (ascii "0") c.limit with
    | none => { s with place := .over }
    | some limitMb =>
      if limitMb = 0 then
        if freeBefore.all (minFreeMb ≤ ·) then { s with place := .resting }
        else cleanup s .frame c.tlDir minFreeMb 2147483647 free used .resting
      else cleanup s .frame c.tlDir minFreeMb limitMb free used .resting
  else { s with place := .resting }

inductive Event
  | create (p : List Byte)
  | vanish (p : List Byte)
  | runCheck (c : Config) (touched : Bool) (free used : Option Nat)
  | turn (size : Option Nat) (removed : Bool)
  | runTimelapseCheck (c : TimelapseConfig) (days : List Byte → Nat) (writable : Bool)
    (freeBefore free used : Option Nat)

def step : Event → Option Manager
  | .create p =>
    some { s with disk := if s.disk.contains p then s.disk else p :: s.disk, created := p :: s.created }
  | .vanish p => some { s with disk := s.disk.filter (· ≠ p), vanished := p :: s.vanished }
  | .runCheck c touched free used =>
    match s.place with
    | .resting => some (runCheck wide s c touched free used)
    | _ => none
  | .turn size removed =>
    match s.place with
    | .cleaning c trace => some (turn s c trace size removed)
    | _ => none
  | .runTimelapseCheck c days writable freeBefore free used =>
    match s.place with
    | .between => some (runTimelapseCheck wide s c days writable freeBefore free used)
    | _ => none

/-- The name of a file is on one line. -/
def Event.oneLine : Event → Bool
  | .create p => !p.contains 10
  | _ => true

/-! ### Names that are times -/

/-- Year, month, day, hour, minute and second. -/
structure Moment where
  values : List Nat
  fits : FixedWidth.Fits [(4, 47), (2, 47), (2, 47), (2, 45), (2, 45), (2, 46)] values
  recent : 1970 ≤ values.headD 0

/-- A recording of some time, with `%Y/%m/%d/%H-%M-%S` and an extension. -/
def name (dir : List Byte) (t : Moment) (extension : List Byte) : List Byte :=
  dir ++ 47 :: (FixedWidth.fields [(4, 47), (2, 47), (2, 47), (2, 45), (2, 45), (2, 46)] t.values ++ extension)

theorem lineLt_name (dir : List Byte) {t t' : Moment} (h : t.values < t'.values) (e e' : List Byte) :
    lineLt (name dir t e) (name dir t' e') :=
  lineLt_append_left dir (lineLt_append_left [47] (FixedWidth.lineLt_fields t.fits t'.fits h e e'))

/-! ### What a check does -/

def total : List Nat → Nat
  | [] => 0
  | n :: l => n + total l

def Trace.sizes (seen : List (List Byte × Found)) : List Nat :=
  seen.filterMap fun x =>
    match x.2 with
    | .absent => none
    | .taken mb _ => some mb

/-- The limits are met when files of these sizes are gone. -/
def Cleanup.MetWithout (c : Cleanup) (sizes : List Nat) : Prop :=
  c.minFreeMb ≤ c.freeMb + total sizes ∧ (c.usedMb - total sizes : Nat) ≤ c.limitMb

/-- **The property** of a check. -/
structure Trace.Oldest (trace : Trace) : Prop where
  found : ∀ p ∈ trace.start.rest, trace.start.dir ++ [47] <+: p ∧ trace.start.kind.finds p = true
  sorted : trace.start.rest.Pairwise lineLe
  inOrder : trace.seen.map Prod.fst <+: trace.start.rest
  needed : ∀ before x after, trace.seen = before ++ x :: after → ¬trace.start.MetWithout (Trace.sizes before)
  oldest : ∀ before x after t t' e e', trace.seen = before ++ x :: after → x.1 = name trace.start.dir t' e' →
    t.values < t'.values → name trace.start.dir t e ∈ trace.start.rest → name trace.start.dir t e ∈ before.map Prod.fst

/-- When it is over, it was enough, or there was nothing more. -/
def Trace.Ended (trace : Trace) : Prop :=
  trace.start.MetWithout (Trace.sizes trace.seen) ∨ trace.seen.map Prod.fst = trace.start.rest

/-- The checks, with the one that is going on. -/
def traces (s : Manager) : List Trace :=
  match s.place with
  | .cleaning _ trace => trace :: s.checks
  | _ => s.checks

/-- How a file can have gone. -/
def Gone (s : Manager) (p : List Byte) : Prop :=
  p ∈ s.vanished ∨ p ∈ s.probed ∨ (∃ x ∈ s.pruned, x.path = p) ∨
    ∃ trace ∈ traces s, ∃ mb, (p, .taken mb true) ∈ trace.seen

/-- A frame of the timelapse that is past its days. -/
def Pruned.TooOld (x : Pruned) : Prop :=
  below x.config.tlDir x.path = true ∧ Kind.frame.finds x.path = true ∧ numberOr 7 x.config.keepDays < x.days

/-- **The property** of a run. -/
structure Sound (s : Manager) : Prop where
  checks : ∀ trace ∈ traces s, trace.Oldest
  ended : ∀ trace ∈ s.checks, trace.Ended
  accounted : ∀ p ∈ s.created, p ∈ s.disk ∨ Gone s p
  pruned : ∀ x ∈ s.pruned, x.TooOld
  probed : ∀ p ∈ s.probed, ∃ mount, p = rwCheck mount

section Lists
variable {α : Type} {l before after : List α} {x y : α}

theorem append_cons_eq_concat (h : before ++ x :: after = l ++ [y]) :
    before = l ∧ x = y ∨ ∃ rest, l = before ++ x :: rest := by
  obtain rfl | ⟨rest, z, rfl⟩ := List.eq_nil_or_concat' after
  · obtain ⟨hl, hx⟩ := List.append_inj' h rfl
    exact .inl ⟨hl, List.singleton_inj.mp hx⟩
  · rw [← List.cons_append, ← List.append_assoc] at h
    exact .inr ⟨rest, (List.append_inj' h rfl).1.symm⟩

end Lists

section Sizes
variable {seen : List (List Byte × Found)} {p : List Byte}

theorem total_append (a b : List Nat) : total (a ++ b) = total a + total b := by
  induction a with
  | nil => exact (Nat.zero_add _).symm
  | cons n a ih => rw [List.cons_append, total, total, ih, Nat.add_assoc]

theorem total_sizes_absent : total (Trace.sizes (seen ++ [(p, .absent)])) = total (Trace.sizes seen) := by
  rw [Trace.sizes, List.filterMap_append]
  exact congrArg total (List.append_nil _)

theorem total_sizes_taken (mb : Nat) (removed : Bool) :
    total (Trace.sizes (seen ++ [(p, .taken mb removed)])) = total (Trace.sizes seen) + mb := by
  rw [Trace.sizes, List.filterMap_append, total_append]
  rfl

end Sizes

section Check
variable {s : Manager} {c : Cleanup} {trace : Trace}

/-- What is true of a check from its first line on. -/
structure Trace.Begun (trace : Trace) : Prop where
  found : ∀ p ∈ trace.start.rest, trace.start.dir ++ [47] <+: p ∧ trace.start.kind.finds p = true
  sorted : trace.start.rest.Pairwise lineLe
  inOrder : trace.seen.map Prod.fst <+: trace.start.rest
  needed : ∀ before x after, trace.seen = before ++ x :: after → ¬trace.start.MetWithout (Trace.sizes before)

/-- The list is sorted, so what is older than a line stands before it. -/
theorem Trace.Begun.oldest (h : trace.Begun) : trace.Oldest where
  found := h.found
  sorted := h.sorted
  inOrder := h.inOrder
  needed := h.needed
  oldest before x after t t' e e' hseen hx hlt hmem := by
    have hname := lineLt_name trace.start.dir hlt e e'
    obtain ⟨rest, hrest⟩ := h.inOrder
    rw [hseen, List.map_append, List.map_cons, List.append_assoc, List.cons_append] at hrest
    have hsorted := h.sorted
    rw [← hrest] at hsorted hmem
    obtain hmem | hmem := List.mem_append.mp hmem
    · exact hmem
    obtain hmem | hmem := List.mem_cons.mp hmem
    · rw [hmem, hx] at hname
      exact absurd hname (lineLt_irrefl _)
    · have hle := (List.pairwise_cons.mp (List.pairwise_append.mp hsorted).2.1).1 _ hmem
      rw [hx] at hle
      exact absurd hle (not_lineLe_of_lineLt hname)

/-- The variables of the loop follow from what it has seen. -/
structure Linked (c : Cleanup) (trace : Trace) : Prop where
  kind : c.kind = trace.start.kind
  rest : trace.seen.map Prod.fst ++ c.rest = trace.start.rest
  minFreeMb : c.minFreeMb = trace.start.minFreeMb
  limitMb : c.limitMb = trace.start.limitMb
  freeMb : c.freeMb = trace.start.freeMb + total (Trace.sizes trace.seen)
  usedMb : c.usedMb = trace.start.usedMb - total (Trace.sizes trace.seen)

theorem Linked.met_iff (h : Linked c trace) : c.met = true ↔ trace.start.MetWithout (Trace.sizes trace.seen) := by
  rw [Cleanup.met, Bool.and_eq_true, decide_eq_true_eq, decide_eq_true_eq, h.minFreeMb, h.limitMb, h.freeMb, h.usedMb]
  rfl

/-- One line more. -/
theorem Trace.Begun.next {oldest : List Byte} {rest : List (List Byte)} (h : trace.Begun) (hlinked : Linked c trace)
    (hrest : c.rest = oldest :: rest) (hmet : c.met ≠ true) (found : Found) :
    Trace.Begun ⟨trace.start, trace.seen ++ [(oldest, found)]⟩ where
  found := h.found
  sorted := h.sorted
  inOrder := by
    rw [← hlinked.rest, hrest, List.map_append]
    exact ⟨rest, by simp⟩
  needed before x after hseen := by
    obtain ⟨rfl, -⟩ | ⟨after', hseen⟩ := append_cons_eq_concat hseen.symm
    · exact fun h => hmet (hlinked.met_iff.mpr h)
    · exact h.needed before x after' hseen

theorem Linked.absent {oldest : List Byte} {rest : List (List Byte)} (h : Linked c trace)
    (hrest : c.rest = oldest :: rest) :
    Linked { c with rest := rest } ⟨trace.start, trace.seen ++ [(oldest, .absent)]⟩ where
  kind := h.kind
  rest := by
    rw [← h.rest, hrest, List.map_append, List.append_assoc]
    rfl
  minFreeMb := h.minFreeMb
  limitMb := h.limitMb
  freeMb := by
    change c.freeMb = trace.start.freeMb + total (Trace.sizes (trace.seen ++ [(oldest, .absent)]))
    rw [total_sizes_absent, h.freeMb]
  usedMb := by
    change c.usedMb = trace.start.usedMb - total (Trace.sizes (trace.seen ++ [(oldest, .absent)]))
    rw [total_sizes_absent, h.usedMb]

theorem Linked.taken {oldest : List Byte} {rest : List (List Byte)} (h : Linked c trace)
    (hrest : c.rest = oldest :: rest) (mb : Nat) (removed : Bool) :
    Linked { c with rest := rest, freeMb := c.freeMb + mb, usedMb := c.usedMb - mb }
      ⟨trace.start, trace.seen ++ [(oldest, .taken mb removed)]⟩ where
  kind := h.kind
  rest := by
    rw [← h.rest, hrest, List.map_append, List.append_assoc]
    rfl
  minFreeMb := h.minFreeMb
  limitMb := h.limitMb
  freeMb := by
    change c.freeMb + mb = trace.start.freeMb + total (Trace.sizes (trace.seen ++ [(oldest, .taken mb removed)]))
    rw [total_sizes_taken, h.freeMb, Nat.add_assoc]
  usedMb := by
    change c.usedMb - mb = trace.start.usedMb - total (Trace.sizes (trace.seen ++ [(oldest, .taken mb removed)]))
    rw [total_sizes_taken, h.usedMb, Nat.sub_sub]

end Check

/-! ### The list -/

section Listing
variable {s : Manager} {p : List Byte}

theorem lines_join {l : List (List Byte)} (h : ∀ p ∈ l, 10 ∉ p) : Lines.lines (l.flatMap (· ++ [10])) = l := by
  induction l with
  | nil => rfl
  | cons a l ih =>
    rw [List.flatMap_cons, List.append_assoc, List.singleton_append, Lines.lines_append,
      Lines.splitOn_line (h a List.mem_cons_self), ih fun p hp => h p (List.mem_cons_of_mem a hp)]
    rfl

theorem mem_listing (h : ∀ p ∈ s.disk, 10 ∉ p) {kind : Kind} {dir : List Byte} :
    p ∈ listing s kind dir ↔ p ∈ candidates s kind dir := by
  have honeLine : ∀ q ∈ candidates s kind dir, 10 ∉ q := fun q hq => h q (List.mem_filter.mp hq).1
  rw [listing, lines_join honeLine, List.mem_insertionSort]

theorem begun_start (h : ∀ p ∈ s.disk, 10 ∉ p) (kind : Kind) (dir : List Byte) (minFreeMb freeMb usedMb : Nat)
    (limitMb : Int) : Trace.Begun ⟨⟨kind, dir, minFreeMb, limitMb, freeMb, usedMb, listing s kind dir⟩, []⟩ where
  found p hp := by
    have hp := (List.mem_filter.mp ((mem_listing h).mp hp)).2
    rw [Bool.and_eq_true, below, decide_eq_true_eq] at hp
    exact hp
  sorted := List.pairwise_insertionSort lineLe _
  inOrder := List.nil_prefix
  needed _ _ _ hseen := absurd hseen.symm (List.append_ne_nil_of_right_ne_nil _ (List.cons_ne_nil _ _))

end Listing

/-! ### What a step keeps -/

section Run
variable {s : Manager}

structure Inv (s : Manager) : Prop where
  oneLine : ∀ p ∈ s.disk, 10 ∉ p
  begun : ∀ trace ∈ traces s, trace.Begun
  linked : ∀ c trace, s.place = .cleaning c trace → Linked c trace
  ended : ∀ trace ∈ s.checks, trace.Ended
  accounted : ∀ p ∈ s.created, p ∈ s.disk ∨ Gone s p
  pruned : ∀ x ∈ s.pruned, x.TooOld
  probed : ∀ p ∈ s.probed, ∃ mount, p = rwCheck mount

theorem Inv.sound (h : Inv s) : Sound s where
  checks trace htrace := (h.begun trace htrace).oldest
  ended := h.ended
  accounted := h.accounted
  pruned := h.pruned
  probed := h.probed

/-- No check is going on. -/
def Idle : Place → Prop
  | .cleaning _ _ => False
  | _ => True

theorem idle_resting : Idle .resting := trivial

theorem idle_between : Idle .between := trivial

theorem idle_over : Idle .over := trivial

theorem not_cleaning {place : Place} (h : Idle place) (c : Cleanup) (trace : Trace) : place ≠ .cleaning c trace := by
  rintro rfl
  exact h

theorem traces_of_idle (h : Idle s.place) : traces s = s.checks := by
  unfold traces
  split
  · rename_i c trace hplace
    exact absurd hplace (not_cleaning h c trace)
  · rfl

theorem Inv.go (h : Inv s) (hidle : Idle s.place) {behind : Place} (hbehind : Idle behind) (n : Nat) :
    Inv { s with place := behind, vrMinFreeMb := n } := by
  have htraces : traces { s with place := behind, vrMinFreeMb := n } = traces s :=
    (traces_of_idle hbehind).trans (traces_of_idle hidle).symm
  exact
    { oneLine := h.oneLine
      begun := fun trace htrace => h.begun trace (htraces ▸ htrace)
      linked := fun c trace hplace => absurd hplace (not_cleaning hbehind c trace)
      ended := h.ended
      accounted := fun p hp => by
        rw [Gone, htraces]
        exact h.accounted p hp
      pruned := h.pruned
      probed := h.probed }

theorem inv_cleanup (h : Inv s) (hidle : Idle s.place) (kind : Kind) (dir : List Byte) (minFreeMb : Nat) (limitMb : Int)
    (free used : Option Nat) {behind : Place} (hbehind : Idle behind) :
    Inv (cleanup s kind dir minFreeMb limitMb free used behind) := by
  unfold cleanup
  split
  · exact h.go hidle hbehind s.vrMinFreeMb
  · rename_i freeMb
    dsimp only
    split
    · exact h.go hidle hbehind s.vrMinFreeMb
    · have hbegun := begun_start h.oneLine kind dir minFreeMb freeMb (used.getD 0) limitMb
      have htraces := traces_of_idle hidle
      exact
        { oneLine := h.oneLine
          begun := fun trace htrace => by
            obtain rfl | htrace := List.mem_cons.mp htrace
            · exact hbegun
            · exact h.begun trace (htraces ▸ htrace)
          linked := fun c trace hplace => by
            cases hplace
            exact ⟨rfl, rfl, rfl, rfl, rfl, rfl⟩
          ended := h.ended
          accounted := fun p hp => by
            refine (h.accounted p hp).imp_right (Or.imp_right (Or.imp_right (Or.imp_right ?_)))
            rintro ⟨trace, htrace, htaken⟩
            exact ⟨trace, List.mem_cons_of_mem _ (htraces ▸ htrace), htaken⟩
          pruned := h.pruned
          probed := h.probed }

theorem idle_behind (c : Cleanup) : Idle c.behind := by
  unfold Cleanup.behind
  split <;> trivial

section Turn
variable {c : Cleanup} {trace : Trace} (h : Inv s) (hplace : s.place = .cleaning c trace)
include h hplace

/-- A check is over. -/
theorem Inv.finish (hover : trace.Ended) : Inv { s with place := c.behind, checks := trace :: s.checks } := by
  have hsame : traces { s with place := c.behind, checks := trace :: s.checks } = traces s := by
    rw [traces_of_idle (idle_behind c), traces, hplace]
  exact
    { oneLine := h.oneLine
      begun := fun trace' htrace => h.begun trace' (hsame ▸ htrace)
      linked := fun c' trace' hcleaning => absurd hcleaning (not_cleaning (idle_behind c) c' trace')
      ended := fun trace' htrace => by
        obtain rfl | htrace := List.mem_cons.mp htrace
        · exact hover
        · exact h.ended trace' htrace
      accounted := fun p hp => by
        rw [Gone, hsame]
        exact h.accounted p hp
      pruned := h.pruned
      probed := h.probed }

omit h in
/-- What went in a check so far went in it, whatever is seen next. -/
theorem gone_look (x : List Byte × Found) (c' : Cleanup) (disk : List (List Byte)) {p : List Byte} (hp : Gone s p) :
    Gone { s with disk := disk, place := .cleaning c' ⟨trace.start, trace.seen ++ [x]⟩ } p := by
  have htraces : traces s = trace :: s.checks := by rw [traces, hplace]
  refine hp.imp_right (Or.imp_right (Or.imp_right ?_))
  rintro ⟨trace', htrace, mb, htaken⟩
  rw [htraces] at htrace
  obtain rfl | htrace := List.mem_cons.mp htrace
  · exact ⟨_, List.mem_cons_self, mb, List.mem_append_left _ htaken⟩
  · exact ⟨trace', List.mem_cons_of_mem _ htrace, mb, htaken⟩

/-- A check has looked at one line more, and removed its file at most. -/
theorem Inv.look {oldest : List Byte} {rest : List (List Byte)} {found : Found} {c' : Cleanup} {disk : List (List Byte)}
    (hrest : c.rest = oldest :: rest) (hmet : c.met ≠ true)
    (hnew : Linked c' ⟨trace.start, trace.seen ++ [(oldest, found)]⟩) (hdisk : ∀ p ∈ disk, p ∈ s.disk)
    (hkept : ∀ p ∈ s.disk, p ∈ disk ∨ p = oldest ∧ ∃ mb, found = .taken mb true) :
    Inv { s with disk := disk, place := .cleaning c' ⟨trace.start, trace.seen ++ [(oldest, found)]⟩ } := by
  have htraces : traces s = trace :: s.checks := by rw [traces, hplace]
  exact
    { oneLine := fun p hp => h.oneLine p (hdisk p hp)
      begun := fun trace' htrace => by
        obtain rfl | htrace := List.mem_cons.mp htrace
        · exact (h.begun trace (htraces ▸ List.mem_cons_self)).next (h.linked c trace hplace) hrest hmet found
        · exact h.begun trace' (htraces ▸ List.mem_cons_of_mem _ htrace)
      linked := fun c₁ trace₁ hcleaning => by
        cases hcleaning
        exact hnew
      ended := h.ended
      accounted := fun p hp => by
        obtain hp | hp := h.accounted p hp
        · obtain hp | ⟨rfl, mb, rfl⟩ := hkept p hp
          · exact .inl hp
          · exact .inr (.inr (.inr (.inr ⟨_, List.mem_cons_self, mb, List.mem_append_right _ List.mem_cons_self⟩)))
        · exact .inr (gone_look hplace _ c' disk hp)
      pruned := h.pruned
      probed := h.probed }

theorem inv_turn (size : Option Nat) (removed : Bool) : Inv (turn s c trace size removed) := by
  have hlinked := h.linked c trace hplace
  unfold turn
  split
  · rename_i hrest
    have hall := hlinked.rest
    rw [hrest, List.append_nil] at hall
    exact h.finish hplace (.inr hall)
  · rename_i oldest rest hrest
    split
    · rename_i hmet
      exact h.finish hplace (.inl (hlinked.met_iff.mp hmet))
    · rename_i hmet
      split
      · refine h.look hplace hrest hmet (hlinked.taken hrest _ removed) (fun p hp => ?_) fun p hp => ?_
        · split at hp
          · exact (List.mem_filter.mp hp).1
          · exact hp
        · cases removed with
          | false => exact .inl hp
          | true =>
            by_cases heq : p = oldest
            · exact .inr ⟨heq, _, rfl⟩
            · exact .inl (List.mem_filter.mpr ⟨hp, decide_eq_true heq⟩)
      · exact h.look hplace hrest hmet (hlinked.absent hrest) (fun _ hp => hp) fun _ hp => .inl hp

end Turn

/-- What one step does besides is that some files go, each in a way that the history has. -/
theorem Inv.remove (h : Inv s) (p : List Byte → Bool) (probed : List (List Byte)) (pruned : List Pruned)
    (hgone : ∀ q ∈ s.disk, p q = false → q ∈ probed ∨ ∃ x ∈ pruned, x.path = q) (hpruned : ∀ x ∈ pruned, x.TooOld)
    (hprobed : ∀ q ∈ probed, ∃ mount, q = rwCheck mount) :
    Inv { s with disk := s.disk.filter p, probed := probed ++ s.probed, pruned := pruned ++ s.pruned } where
  oneLine q hq := h.oneLine q (List.mem_filter.mp hq).1
  begun := h.begun
  linked := h.linked
  ended := h.ended
  accounted q hq := by
    obtain hq | hq | hq | ⟨x, hx, hpath⟩ | hq := h.accounted q hq
    · cases hkept : p q with
      | true => exact .inl (List.mem_filter.mpr ⟨hq, hkept⟩)
      | false =>
        obtain hprobe | ⟨x, hx, hpath⟩ := hgone q hq hkept
        · exact .inr (.inr (.inl (List.mem_append_left _ hprobe)))
        · exact .inr (.inr (.inr (.inl ⟨x, List.mem_append_left _ hx, hpath⟩)))
    · exact .inr (.inl hq)
    · exact .inr (.inr (.inl (List.mem_append_right _ hq)))
    · exact .inr (.inr (.inr (.inl ⟨x, List.mem_append_right _ hx, hpath⟩)))
    · exact .inr (.inr (.inr (.inr hq)))
  pruned x hx := (List.mem_append.mp hx).elim (hpruned x) (h.pruned x)
  probed q hq := (List.mem_append.mp hq).elim (hprobed q) (h.probed q)

theorem inv_ensureWritable (h : Inv s) (mount : List Byte) (touched : Bool) : Inv (ensureWritable s mount touched) := by
  unfold ensureWritable
  split
  · refine h.remove (· ≠ rwCheck mount) [rwCheck mount] [] (fun q _ hq => .inl ?_)
      (fun _ hx => absurd hx List.not_mem_nil) fun q hq => ⟨mount, List.mem_singleton.mp hq⟩
    exact List.mem_singleton.mpr (of_not_not (of_decide_eq_false hq))
  · exact h

theorem inv_prune (h : Inv s) (c : TimelapseConfig) (days : List Byte → Nat) (writable : Bool) :
    Inv (prune s c days writable) := by
  refine h.remove _ [] _ (fun q _ hq => .inr ?_) (fun x hx => ?_) fun _ hq => absurd hq List.not_mem_nil
  · rw [Bool.not_eq_false', List.contains_iff_mem] at hq
    exact ⟨_, List.mem_map_of_mem hq, rfl⟩
  · obtain ⟨p, hp, rfl⟩ := List.mem_map.mp hx
    obtain ⟨hcandidate, hold⟩ := List.mem_filter.mp hp
    have hfound := Bool.and_eq_true_iff.mp (List.mem_filter.mp hcandidate).2
    exact ⟨hfound.1, hfound.2, of_decide_eq_true (Bool.and_eq_true_iff.mp hold).2⟩

theorem inv_runCheck (h : Inv s) (hidle : Idle s.place) (c : Config) (touched : Bool) (free used : Option Nat) :
    Inv (runCheck wide s c touched free used) := by
  have hread : Inv { s with vrMinFreeMb := numberOr defaultMinFreeMb c.minFreeMb } := h.go hidle hidle _
  have hplace : ∀ s : Manager, (ensureWritable s c.mount touched).place = s.place := fun s => by
    unfold ensureWritable
    split <;> rfl
  have hready := inv_ensureWritable hread c.mount touched
  have hidle' := (hplace { s with vrMinFreeMb := numberOr defaultMinFreeMb c.minFreeMb }).symm ▸ hidle
  unfold runCheck
  dsimp only
  split
  · split
    · split
      · exact hready.go hidle' idle_over _
      · exact inv_cleanup hready hidle' _ _ _ _ free used idle_between
    · exact hready.go hidle' idle_between _
  · exact h.go hidle idle_between _

theorem inv_runTimelapseCheck (h : Inv s) (hidle : Idle s.place) (c : TimelapseConfig) (days : List Byte → Nat)
    (writable : Bool) (freeBefore free used : Option Nat) :
    Inv (runTimelapseCheck wide s c days writable freeBefore free used) := by
  have hpruned := inv_prune h c days writable
  unfold runTimelapseCheck
  split
  · dsimp only
    split
    · exact hpruned.go hidle idle_over s.vrMinFreeMb
    · split
      · split
        · exact hpruned.go hidle idle_resting s.vrMinFreeMb
        · exact inv_cleanup hpruned hidle _ _ _ _ free used idle_resting
      · exact inv_cleanup hpruned hidle _ _ _ _ free used idle_resting
  · exact h.go hidle idle_resting s.vrMinFreeMb

/-- A file comes. -/
theorem inv_create (h : Inv s) {p : List Byte} (hp : 10 ∉ p) :
    Inv { s with disk := if s.disk.contains p then s.disk else p :: s.disk, created := p :: s.created } where
  oneLine q hq := by
    split at hq
    · exact h.oneLine q hq
    · obtain rfl | hq := List.mem_cons.mp hq
      · exact hp
      · exact h.oneLine q hq
  begun := h.begun
  linked := h.linked
  ended := h.ended
  accounted q hq := by
    have hkept : ∀ r ∈ s.disk, r ∈ if s.disk.contains p then s.disk else p :: s.disk := fun r hr => by
      split
      · exact hr
      · exact List.mem_cons_of_mem p hr
    obtain rfl | hq := List.mem_cons.mp hq
    · left
      dsimp only
      split
      · rename_i hin
        exact List.contains_iff_mem.mp hin
      · exact List.mem_cons_self
    · exact (h.accounted q hq).imp_left (hkept q)
  pruned := h.pruned
  probed := h.probed

/-- A file is taken away by somebody else. -/
theorem inv_vanish (h : Inv s) (p : List Byte) :
    Inv { s with disk := s.disk.filter (· ≠ p), vanished := p :: s.vanished } where
  oneLine q hq := h.oneLine q (List.mem_filter.mp hq).1
  begun := h.begun
  linked := h.linked
  ended := h.ended
  accounted q hq := by
    obtain hq | hq | hq := h.accounted q hq
    · by_cases heq : q = p
      · exact .inr (.inl (heq ▸ List.mem_cons_self))
      · exact .inl (List.mem_filter.mpr ⟨hq, decide_eq_true heq⟩)
    · exact .inr (.inl (List.mem_cons_of_mem p hq))
    · exact .inr (.inr hq)
  pruned := h.pruned
  probed := h.probed

theorem inv_step {s' : Manager} {e : Event} (h : Inv s) (hok : e.oneLine = true) (hstep : step wide s e = some s') :
    Inv s' := by
  cases e with
  | create p =>
    cases hstep
    refine inv_create h fun hmem => ?_
    rw [Event.oneLine, List.contains_iff_mem.mpr hmem] at hok
    cases hok
  | vanish p =>
    cases hstep
    exact inv_vanish h p
  | runCheck c touched free used =>
    rw [step] at hstep
    split at hstep
    · rename_i hplace
      cases hstep
      exact inv_runCheck wide h (hplace ▸ trivial) c touched free used
    · cases hstep
  | turn size removed =>
    rw [step] at hstep
    split at hstep
    · rename_i c trace hplace
      cases hstep
      exact inv_turn h hplace size removed
    · cases hstep
  | runTimelapseCheck c days writable freeBefore free used =>
    rw [step] at hstep
    split at hstep
    · rename_i hplace
      cases hstep
      exact inv_runTimelapseCheck wide h (hplace ▸ trivial) c days writable freeBefore free used
    · cases hstep

theorem inv_initial : Inv initial where
  oneLine _ hp := absurd hp List.not_mem_nil
  begun _ htrace := absurd htrace List.not_mem_nil
  linked _ _ hplace := absurd hplace (not_cleaning idle_resting _ _)
  ended _ htrace := absurd htrace List.not_mem_nil
  accounted _ hp := absurd hp List.not_mem_nil
  pruned _ hx := absurd hx List.not_mem_nil
  probed _ hp := absurd hp List.not_mem_nil

theorem sound_of_reach (h : Reach (step wide) (fun _ e => e.oneLine = true) initial s) : Sound s := by
  have hinv : Inv s := h.invariant inv_initial fun _ _ _ hinv hok hstep => inv_step wide hinv hok hstep
  exact hinv.sound

/-- A card for recordings of at most 1 GB, with 500 MB to stay free. -/
def sdCard : Config :=
  ⟨ascii "true", ascii "/mnt", ascii "rec", ascii "1", [], true, true, by decide⟩

/-- The older of two recordings goes. -/
theorem sound_oldest_gone : ∃ s : Manager, Sound s ∧ s.disk = [ascii "/mnt/rec/2024/02/01/00-00-00.mp4"] ∧
    s.created.length = 2 := by
  obtain ⟨s, hreach, hdone⟩ : ∃ s : Manager, Reach (step fun _ => none) (fun _ e => e.oneLine = true) initial s ∧
      (s.disk = [ascii "/mnt/rec/2024/02/01/00-00-00.mp4"] ∧ s.created.length = 2) :=
    exists_reach [.create (ascii "/mnt/rec/2024/02/01/00-00-00.mp4"), .create (ascii "/mnt/rec/2024/01/31/23-59-00.mp4"),
      .runCheck sdCard true (some 100) (some 30), .turn (some 600) true, .turn (some 600) true] (by decide +kernel)
  exact ⟨s, sound_of_reach _ hreach, hdone⟩

end Run

end Recordmgr

end Thingino.Storage
