import Thingino.Lib.Lines

/-! The client of an event stream, byte by byte.

A line ends with a line feed, a carriage return, or both. A field is what stands before the first colon of a line, its
value what stands behind the colon, without one blank. An empty line ends an event, which is dispatched if there are
data for it. The fields for an identifier and for the time before a new connection change nothing here.

`dispatched_blocks` is what a client gets from events that are written one after the other: those events. When the
stream breaks off, it has got the first ones of them (`dispatched_isPrefix`), and all that were complete. -/
namespace Thingino.Lib

/-- `line` is the line so far, newest byte first. -/
structure EventStream where
  line : List Byte
  cr : Bool
  name : List Byte
  data : List Byte
  dispatched : List (List Byte × List Byte)
  deriving DecidableEq

namespace EventStream

def start : EventStream := ⟨[], false, [], [], []⟩

variable (c : EventStream)

/-- The data have a line feed behind each value, and the last one is left out. -/
def dispatch : EventStream :=
  if c.data = [] then { c with name := [] }
  else
    { c with
      name := []
      data := []
      dispatched := c.dispatched ++ [(if c.name = [] then ascii "message" else c.name, c.data.dropLast)] }

def field (name value : List Byte) : EventStream :=
  if name = ascii "event" then { c with name := value }
  else if name = ascii "data" then { c with data := c.data ++ value ++ [10] }
  else c

/-- What stands behind the colon. -/
def valueOf (behind : List Byte) : List Byte := if behind.head? = some 32 then behind.tail else behind

def readLine (line : List Byte) : EventStream :=
  if line = [] then c.dispatch
  else if line.head? = some 58 then c
  else c.field (line.takeWhile (· ≠ 58)) (valueOf (line.dropWhile (· ≠ 58)).tail)

/-- The line is over. -/
def close : EventStream := { c.readLine c.line.reverse with line := [] }

def next (b : Byte) : EventStream :=
  if b = 13 then { c.close with cr := true }
  else if b = 10 then if c.cr then { c with cr := false } else c.close
  else { c with line := b :: c.line, cr := false }

def feed (s : List Byte) : EventStream := s.foldl next c

/-- An event as it is written. -/
def block (name payload : List Byte) : List Byte := ascii "event: " ++ name ++ 10 :: (ascii "data: " ++ payload ++ [10, 10])

variable {c} {name payload value s t : List Byte}

/-- Bytes that do not end a line. -/
def OneLine (s : List Byte) : Prop := 10 ∉ s ∧ 13 ∉ s

instance (s : List Byte) : Decidable (OneLine s) := inferInstanceAs (Decidable (10 ∉ s ∧ 13 ∉ s))

theorem OneLine.append (hs : OneLine s) (ht : OneLine t) : OneLine (s ++ t) :=
  ⟨fun h => (List.mem_append.mp h).elim hs.1 ht.1, fun h => (List.mem_append.mp h).elim hs.2 ht.2⟩

theorem OneLine.cons {b : Byte} (hb : b ≠ 10 ∧ b ≠ 13) (hs : OneLine s) : OneLine (b :: s) :=
  ⟨List.not_mem_cons_of_ne_of_not_mem (Ne.symm hb.1) hs.1, List.not_mem_cons_of_ne_of_not_mem (Ne.symm hb.2) hs.2⟩

theorem OneLine.subset (hs : OneLine s) (h : ∀ b ∈ t, b ∈ s) : OneLine t :=
  ⟨fun hmem => hs.1 (h _ hmem), fun hmem => hs.2 (h _ hmem)⟩

/-- Texts of one line with such texts between them. -/
theorem oneLine_intercalate {sep : List Byte} {texts : List (List Byte)} (hsep : OneLine sep)
    (htexts : ∀ t ∈ texts, OneLine t) : OneLine (sep.intercalate texts) := by
  induction texts with
  | nil => exact ⟨List.not_mem_nil, List.not_mem_nil⟩
  | cons t texts ih =>
    have ht := htexts t List.mem_cons_self
    have hrest := ih fun t ht => htexts t (List.mem_cons_of_mem _ ht)
    by_cases hnil : texts = []
    · subst hnil
      rw [List.intercalate_singleton]
      exact ht
    · rw [List.intercalate_cons_of_ne_nil hnil]
      exact (ht.append hsep).append hrest

theorem feed_append (c : EventStream) (s t : List Byte) : c.feed (s ++ t) = (c.feed s).feed t := List.foldl_append

theorem feed_oneLine (h : OneLine s) (hcr : c.cr = false) : c.feed s = { c with line := s.reverse ++ c.line } := by
  induction s generalizing c with
  | nil => rfl
  | cons b s ih =>
    obtain ⟨hlf, hret⟩ := h
    have hb : b ≠ 13 ∧ b ≠ 10 := ⟨fun h => hret (h ▸ List.mem_cons_self), fun h => hlf (h ▸ List.mem_cons_self)⟩
    have hnext : c.next b = { c with line := b :: c.line } := by
      rw [next, if_neg hb.1, if_neg hb.2, hcr]
    have hrest : OneLine s := ⟨fun h => hlf (List.mem_cons_of_mem b h), fun h => hret (List.mem_cons_of_mem b h)⟩
    change (c.next b).feed s = _
    rw [hnext, @ih { c with line := b :: c.line } hrest hcr, List.reverse_cons, List.append_assoc]
    rfl

/-- A line and what ends it. -/
theorem feed_line (h : OneLine s) (hcr : c.cr = false) (hline : c.line = []) (t : List Byte) :
    c.feed (s ++ 10 :: t) = ({ { c with line := s.reverse }.readLine s with line := [] } : EventStream).feed t := by
  have hnext : ({ c with line := s.reverse } : EventStream).next 10 =
      { { c with line := s.reverse }.readLine s with line := [] } := by
    rw [next, if_neg (by decide), if_pos rfl, hcr, if_neg Bool.false_ne_true, close, List.reverse_reverse]
  rw [feed_append, feed_oneLine h hcr, hline, List.append_nil, ← hnext]
  rfl

theorem readLine_field (hname : name ≠ []) (hcolon : 58 ∉ name) (value : List Byte) :
    c.readLine (name ++ 58 :: 32 :: value) = c.field name value := by
  have hhead : (name ++ 58 :: 32 :: value).head? ≠ some 58 := by
    cases name with
    | nil => exact absurd rfl hname
    | cons b name =>
      intro h
      exact hcolon (Option.some.inj h ▸ List.mem_cons_self)
  have hall : ∀ b ∈ name, decide (b ≠ 58) = true := fun b hb => decide_eq_true fun h => hcolon (h ▸ hb)
  have htake : (name ++ 58 :: 32 :: value).takeWhile (· ≠ 58) = name := by
    rw [List.takeWhile_append_of_pos hall]
    simp
  have hdrop : (name ++ 58 :: 32 :: value).dropWhile (· ≠ 58) = 58 :: 32 :: value := by
    rw [List.dropWhile_append_of_pos hall]
    rfl
  rw [readLine, if_neg (by simp), if_neg hhead, htake, hdrop]
  rfl

/-- Between two events. -/
def between (dispatched : List (List Byte × List Byte)) : EventStream := ⟨[], false, [], [], dispatched⟩

theorem feed_block (hne : name ≠ []) (hname : OneLine name) (hpayload : OneLine payload)
    (dispatched : List (List Byte × List Byte)) (t : List Byte) :
    (between dispatched).feed (block name payload ++ t) = (between (dispatched ++ [(name, payload)])).feed t := by
  have hevent : OneLine (ascii "event: ") := by decide
  have hdata : OneLine (ascii "data: ") := by decide
  have hfirst : ∀ c : EventStream, c.readLine (ascii "event: " ++ name) = c.field (ascii "event") name := fun c =>
    @readLine_field c (ascii "event") (by decide) (by decide) name
  have hsecond : ∀ c : EventStream, c.readLine (ascii "data: " ++ payload) = c.field (ascii "data") payload := fun c =>
    @readLine_field c (ascii "data") (by decide) (by decide) payload
  have hblock : block name payload ++ t =
      (ascii "event: " ++ name) ++ 10 :: ((ascii "data: " ++ payload) ++ 10 :: ([] ++ 10 :: t)) := by
    simp [block]
  rw [hblock, feed_line (hevent.append hname) rfl rfl, hfirst, feed_line (hdata.append hpayload) rfl rfl, hsecond,
    feed_line ⟨List.not_mem_nil, List.not_mem_nil⟩ rfl rfl]
  have hdispatch : ∀ c : EventStream, c.name = name → c.data = payload ++ [10] →
      c.readLine [] = { c with name := [], data := [], dispatched := c.dispatched ++ [(name, payload)] } := by
    intro c hcname hcdata
    have hsome : c.data ≠ [] := by
      rw [hcdata]
      simp
    rw [readLine, if_pos rfl, dispatch, if_neg hsome, if_neg (hcname ▸ hne), hcname, hcdata, List.dropLast_concat]
  rw [hdispatch _ rfl rfl]
  rfl

/-- Events one after the other. -/
def blocks (events : List (List Byte × List Byte)) : List Byte := events.flatMap fun e => block e.1 e.2

/-- What can be written as an event. -/
def Writable (e : List Byte × List Byte) : Prop := e.1 ≠ [] ∧ OneLine e.1 ∧ OneLine e.2

theorem feed_blocks {events : List (List Byte × List Byte)} (h : ∀ e ∈ events, Writable e)
    (dispatched : List (List Byte × List Byte)) (t : List Byte) :
    (between dispatched).feed (blocks events ++ t) = (between (dispatched ++ events)).feed t := by
  induction events generalizing dispatched with
  | nil => rw [List.append_nil]; rfl
  | cons e events ih =>
    obtain ⟨hne, hname, hpayload⟩ := h e List.mem_cons_self
    have hrest := fun e he => h e (List.mem_cons_of_mem _ he)
    have hblocks : blocks (e :: events) ++ t = block e.1 e.2 ++ (blocks events ++ t) := by
      rw [blocks, List.flatMap_cons, List.append_assoc]
      rfl
    rw [hblocks, feed_block hne hname hpayload, ih hrest, List.append_assoc]
    rfl

theorem dispatched_blocks {events : List (List Byte × List Byte)} (h : ∀ e ∈ events, Writable e) :
    (start.feed (blocks events)).dispatched = events := by
  have hfeed := feed_blocks h [] []
  rw [List.append_nil] at hfeed
  exact congrArg dispatched hfeed

/-! ### A stream that breaks off -/

theorem dispatched_next (c : EventStream) (b : Byte) : c.dispatched <+: (c.next b).dispatched := by
  have hdispatch : ∀ c : EventStream, c.dispatched <+: c.dispatch.dispatched := by
    intro c
    unfold dispatch
    split
    · exact List.prefix_rfl
    · exact List.prefix_append _ _
  have hfield : ∀ name value, (c.field name value).dispatched = c.dispatched := by
    intro name value
    unfold field
    split
    · rfl
    · split <;> rfl
  have hclose : c.dispatched <+: c.close.dispatched := by
    change c.dispatched <+: (c.readLine c.line.reverse).dispatched
    unfold readLine
    split
    · exact hdispatch c
    · split
      · exact List.prefix_rfl
      · rw [hfield]
  unfold next
  split
  · exact hclose
  · split
    · split
      · exact List.prefix_rfl
      · exact hclose
    · exact List.prefix_rfl

theorem dispatched_feed (c : EventStream) (s : List Byte) : c.dispatched <+: (c.feed s).dispatched := by
  induction s generalizing c with
  | nil => exact List.prefix_rfl
  | cons b s ih => exact (dispatched_next c b).trans (ih (c.next b))

/-- What was dispatched from a part is not taken back. -/
theorem dispatched_isPrefix (c : EventStream) (h : s <+: t) : (c.feed s).dispatched <+: (c.feed t).dispatched := by
  obtain ⟨rest, rfl⟩ := h
  rw [feed_append]
  exact dispatched_feed _ rest

end EventStream

end Thingino.Lib
