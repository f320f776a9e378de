import Mathlib.Data.List.DropRight

/-! `render_template.py`: a template with conditional blocks and placeholders.

One pass over the lines keeps a stack with a pair for each open `@if`: whether the lines around it are wanted,
and whether those of its current part are. The type `Template` has the templates whose lines are well nested,
and `select` says which lines such a template stands for. -/
namespace Thingino.Scripts

abbrev Text := List Char

/-! ### Strings -/

/-- The white space of `str.strip`. -/
def isSpace (c : Char) : Bool :=
  let n := c.toNat
  9 ≤ n && n ≤ 13 || 0x1C ≤ n && n ≤ 0x20 || n = 0x85 || n = 0xA0 || n = 0x1680 || 0x2000 ≤ n && n ≤ 0x200A ||
    n = 0x2028 || n = 0x2029 || n = 0x202F || n = 0x205F || n = 0x3000

def strip (s : Text) : Text := (s.dropWhile isSpace).rdropWhile isSpace

/-- Where `str.splitlines` ends a line. -/
def isLineBreak (c : Char) : Bool :=
  let n := c.toNat
  10 ≤ n && n ≤ 13 || 0x1C ≤ n && n ≤ 0x1E || n = 0x85 || n = 0x2028 || n = 0x2029

/-- `splitlines(keepends=True)`; a carriage return and a line feed are one line break. -/
def splitlines : Text → List Text
  | [] => []
  | c :: s =>
    if isLineBreak c && !(c = '\r' && s.head? = some '\n') then [c] :: splitlines s
    else
      match splitlines s with
      | [] => [[c]]
      | line :: lines => (c :: line) :: lines

/-- A text file is read with each line break of it as a line feed. -/
def readText : Text → Text
  | [] => []
  | c :: s => if c = '\r' then (if s.head? = some '\n' then readText s else '\n' :: readText s) else c :: readText s

/-- `str.replace`, for a pattern that is not empty; the counter is for the rest of a match. -/
def replaceFrom (pattern value : Text) : Nat → Text → Text
  | _, [] => []
  | skip + 1, _ :: s => replaceFrom pattern value skip s
  | 0, c :: s =>
    if pattern <+: c :: s then value ++ replaceFrom pattern value (pattern.length - 1) s
    else c :: replaceFrom pattern value 0 s

def replace (pattern value s : Text) : Text := replaceFrom pattern value 0 s

/-! ### Variables -/

/-- The dictionary of the `--var` options, in the order of its keys. -/
structure Vars where
  entries : List (Text × Text)
  nodup : (entries.map Prod.fst).Nodup
  nonempty : ∀ entry ∈ entries, entry.1 ≠ []

/-- `variables.get(key, "")`. -/
def Vars.get (vars : Vars) (key : Text) : Text := (vars.entries.lookup key).getD []

def isTruthy (value : Text) : Bool :=
  !(["", "0", "false", "False", "no", "No"].any fun word => value = word.toList)

/-! ### Lines -/

/-- What stands behind `@if`, with the `!` told apart. -/
structure Condition where
  invert : Bool
  key : Text

/-- An `@` at the end goes, and the white space in front of it. -/
def closed (condition : Text) : Text := if condition.getLast? = some '@' then strip condition.dropLast else condition

def parseCondition (behindIf : Text) : Condition :=
  let condition := closed (strip behindIf)
  if condition.head? = some '!' then ⟨true, closed (strip condition.tail)⟩ else ⟨false, condition⟩

inductive Directive
  | ifLine (condition : Condition)
  | elseLine
  | endifLine
  | text

def directive (line : Text) : Directive :=
  let stripped := strip line
  if "@if ".toList <+: stripped then .ifLine (parseCondition (stripped.drop 4))
  else if stripped = "@else@".toList then .elseLine
  else if stripped = "@endif@".toList then .endifLine
  else .text

def Condition.holds (vars : Vars) (condition : Condition) : Bool :=
  if condition.invert then !isTruthy (vars.get condition.key) else isTruthy (vars.get condition.key)

/-! ### What the lines say -/

section Lines
variable {vars : Vars} {condition : Condition} {line key value s : Text}

theorem strip_eq_self (h : ∀ c ∈ s, isSpace c = false) : strip s = s := by
  have hfront : s.dropWhile isSpace = s := by
    cases s with
    | nil => rfl
    | cons c s => exact List.dropWhile_cons_of_neg (by rw [h c List.mem_cons_self]; exact Bool.false_ne_true)
  rw [strip, hfront, List.rdropWhile_eq_self_iff]
  intro hne
  rw [h _ (List.getLast_mem hne)]
  exact Bool.false_ne_true

theorem closed_at (h : ∀ c ∈ key, isSpace c = false) : closed (key ++ ['@']) = key := by
  rw [closed, List.getLast?_concat, if_pos rfl, List.dropLast_concat, strip_eq_self h]

theorem isSpace_append_at (h : ∀ c ∈ key, isSpace c = false) : ∀ c ∈ key ++ ['@'], isSpace c = false := by
  intro c hc
  obtain hc | hc := List.mem_append.mp hc
  · exact h c hc
  · rw [List.mem_singleton.mp hc]
    decide

theorem directive_of_if {behindIf : Text} (h : strip line = "@if ".toList ++ behindIf) :
    directive line = .ifLine (parseCondition behindIf) := by
  have hbehind : ("@if ".toList ++ behindIf).drop 4 = behindIf := rfl
  unfold directive
  rw [h, if_pos (List.prefix_append _ behindIf), hbehind]

/-- `@if KEY@` begins a block that is wanted where the variable is truthy. -/
theorem directive_if (h : ∀ c ∈ key, isSpace c = false) (hplain : key.head? ≠ some '!')
    (hline : strip line = "@if ".toList ++ (key ++ ['@'])) : directive line = .ifLine ⟨false, key⟩ := by
  rw [directive_of_if hline, parseCondition, strip_eq_self (isSpace_append_at h), closed_at h, if_neg hplain]

/-- `@if !KEY@` begins one that is wanted where it is not. -/
theorem directive_if_not (h : ∀ c ∈ key, isSpace c = false) (hopen : key.getLast? ≠ some '@')
    (hline : strip line = "@if ".toList ++ ('!' :: key ++ ['@'])) : directive line = .ifLine ⟨true, key⟩ := by
  have hbang : ∀ c ∈ '!' :: key, isSpace c = false := by
    intro c hc
    obtain rfl | hc := List.mem_cons.mp hc
    · decide
    · exact h c hc
  rw [directive_of_if hline, parseCondition, strip_eq_self (isSpace_append_at hbang), closed_at hbang,
    List.head?_cons, if_pos rfl, List.tail_cons, strip_eq_self h, closed, if_neg hopen]

theorem directive_else_iff : directive line = .elseLine ↔ strip line = "@else@".toList := by
  unfold directive
  dsimp only
  split
  · rename_i hif
    exact iff_of_false (fun h => by cases h) fun h => absurd (h ▸ hif) (by decide)
  split
  · rename_i helse
    exact iff_of_true rfl helse
  · rename_i helse
    refine iff_of_false (fun h => ?_) helse
    split at h <;> cases h

theorem directive_endif_iff : directive line = .endifLine ↔ strip line = "@endif@".toList := by
  unfold directive
  dsimp only
  split
  · rename_i hif
    exact iff_of_false (fun h => by cases h) fun h => absurd (h ▸ hif) (by decide)
  split
  · rename_i helse
    exact iff_of_false (fun h => by cases h) fun h => absurd (helse.symm.trans h) (by decide)
  split
  · rename_i hendif
    exact iff_of_true rfl hendif
  · rename_i hendif
    exact iff_of_false (fun h => by cases h) hendif

/-- All other lines are text. -/
theorem directive_text_iff : directive line = .text ↔
    ¬"@if ".toList <+: strip line ∧ strip line ≠ "@else@".toList ∧ strip line ≠ "@endif@".toList := by
  unfold directive
  dsimp only
  split
  · rename_i hif
    exact iff_of_false (fun h => by cases h) fun h => h.1 hif
  split
  · rename_i helse
    exact iff_of_false (fun h => by cases h) fun h => h.2.1 helse
  split
  · rename_i hendif
    exact iff_of_false (fun h => by cases h) fun h => h.2.2 hendif
  · rename_i hif helse hendif
    exact iff_of_true rfl ⟨hif, helse, hendif⟩

theorem Condition.holds_eq (condition : Condition) :
    condition.holds vars = (condition.invert ^^ isTruthy (vars.get condition.key)) := by
  unfold Condition.holds
  cases condition.invert <;> simp

/-- A variable that is not given is not truthy. -/
theorem isTruthy_get (h : key ∉ vars.entries.map Prod.fst) : isTruthy (vars.get key) = false := by
  have hnone : vars.entries.lookup key = none := by
    refine List.lookup_eq_none_iff.mpr fun entry hentry => ?_
    exact bne_iff_ne.mpr fun heq => h (List.mem_map.mpr ⟨entry, hentry, heq.symm⟩)
  rw [Vars.get, hnone]
  decide

end Lines

/-! ### The pass -/

inductive RenderError
  | unmatchedElse
  | unmatchedEndif
  | unclosedIf

def RenderError.message : RenderError → String
  | .unmatchedElse => "@else@ without matching @if"
  | .unmatchedEndif => "@endif@ without matching @if"
  | .unclosedIf => "Unclosed @if block in template"

def substitute (vars : List (Text × Text)) (line : Text) : Text :=
  vars.foldl (fun rendered entry => replace ('@' :: entry.1 ++ ['@']) entry.2 rendered) line

/-- The lines that are rendered from here on, with the stack and what is wanted at the moment. -/
def renderLines (vars : Vars) : List (Bool × Bool) → Bool → List Text → Except RenderError (List Text)
  | stack, _, [] => if stack = [] then .ok [] else .error .unclosedIf
  | stack, active, line :: lines =>
    match directive line with
    | .ifLine condition =>
      let current := active && condition.holds vars
      renderLines vars ((active, current) :: stack) current lines
    | .elseLine =>
      match stack with
      | [] => .error .unmatchedElse
      | (parent, current) :: stack => renderLines vars ((parent, parent && !current) :: stack) (parent && !current) lines
    | .endifLine =>
      match stack with
      | [] => .error .unmatchedEndif
      | (parent, _) :: stack => renderLines vars stack parent lines
    | .text =>
      if active then (renderLines vars stack active lines).map (substitute vars.entries line :: ·)
      else renderLines vars stack active lines

/-- How a run ends, and what is in the output file then. -/
structure Outcome where
  error : Option RenderError
  output : Option Text

def render (template : Text) (output : Option Text) (vars : Vars) : Outcome :=
  match renderLines vars [] true (splitlines (readText template)) with
  | .ok lines => ⟨none, some lines.flatten⟩
  | .error error => ⟨some error, output⟩

/-! ### Well-nested templates -/

/-- Lines that are well nested, block by block; each block is followed by what comes behind it. -/
inductive Template
  | done
  | text (line : Text) (isText : directive line = .text) (rest : Template)
  | ifThen (head : Text) (condition : Condition) (isIf : directive head = .ifLine condition) (thenPart : Template)
    (foot : Text) (isEndif : directive foot = .endifLine) (rest : Template)
  | ifElse (head : Text) (condition : Condition) (isIf : directive head = .ifLine condition) (thenPart : Template)
    (middle : Text) (isElse : directive middle = .elseLine) (elsePart : Template)
    (foot : Text) (isEndif : directive foot = .endifLine) (rest : Template)

namespace Template

def lines : Template → List Text
  | done => []
  | text line _ rest => line :: rest.lines
  | ifThen head _ _ thenPart foot _ rest => head :: (thenPart.lines ++ foot :: rest.lines)
  | ifElse head _ _ thenPart middle _ elsePart foot _ rest =>
    head :: (thenPart.lines ++ middle :: (elsePart.lines ++ foot :: rest.lines))

/-- The lines that a template stands for. -/
def select (vars : Vars) : Template → List Text
  | done => []
  | text line _ rest => line :: rest.select vars
  | ifThen _ condition _ thenPart _ _ rest =>
    (if condition.holds vars then thenPart.select vars else []) ++ rest.select vars
  | ifElse _ condition _ thenPart _ _ elsePart _ _ rest =>
    (if condition.holds vars then thenPart.select vars else elsePart.select vars) ++ rest.select vars

end Template

/-- Some `@else@` or `@endif@` has no open `@if` in front of it, or an `@if` is left open; `opened` is the number
of those that are open at the beginning. -/
def unmatched : Nat → List Text → Bool
  | opened, [] => opened ≠ 0
  | opened, line :: lines =>
    match directive line with
    | .ifLine _ => unmatched (opened + 1) lines
    | .elseLine => opened = 0 || unmatched opened lines
    | .endifLine => opened = 0 || unmatched (opened - 1) lines
    | .text => unmatched opened lines

/-! ### The pass over a template -/

variable {vars : Vars} {stack : List (Bool × Bool)} {active parent current : Bool} {line : Text} {lines more : List Text}
  {condition : Condition}

theorem renderLines_text (h : directive line = .text) :
    renderLines vars stack active (line :: lines) =
      (renderLines vars stack active lines).map ((if active then [substitute vars.entries line] else []) ++ ·) := by
  rw [renderLines.eq_def]
  dsimp only
  rw [h]
  cases active with
  | true => rfl
  | false => cases renderLines vars stack false lines <;> rfl

theorem renderLines_if (h : directive line = .ifLine condition) :
    renderLines vars stack active (line :: lines) =
      renderLines vars ((active, active && condition.holds vars) :: stack) (active && condition.holds vars) lines := by
  rw [renderLines.eq_def]
  dsimp only
  rw [h]

theorem renderLines_else (h : directive line = .elseLine) :
    renderLines vars ((parent, current) :: stack) active (line :: lines) =
      renderLines vars ((parent, parent && !current) :: stack) (parent && !current) lines := by
  rw [renderLines, h]

theorem renderLines_endif (h : directive line = .endifLine) :
    renderLines vars ((parent, current) :: stack) active (line :: lines) = renderLines vars stack parent lines := by
  rw [renderLines, h]

/-- What a template adds to the lines behind it. -/
def contribution (vars : Vars) (active : Bool) (t : Template) : List Text :=
  if active then (t.select vars).map (substitute vars.entries) else []

theorem map_append_map (result : Except RenderError (List Text)) (a b : List Text) :
    (result.map (b ++ ·)).map (a ++ ·) = result.map ((a ++ b) ++ ·) := by
  cases result with
  | error e => rfl
  | ok ls => exact congrArg Except.ok (List.append_assoc a b ls).symm

theorem map_nil_append (result : Except RenderError (List Text)) : result.map ([] ++ ·) = result := by
  cases result <;> rfl

theorem contribution_text (h : directive line = .text) (rest : Template) :
    contribution vars active (.text line h rest) =
      (if active then [substitute vars.entries line] else []) ++ contribution vars active rest := by
  cases active <;> rfl

/-- A block contributes its then-part or its else-part, and nothing where it is not wanted. -/
theorem contribution_block (active holds : Bool) (a b rest : List Text) :
    (if active then ((if holds then a else b) ++ rest).map (substitute vars.entries) else []) =
      (if active && holds then a.map (substitute vars.entries) else []) ++
        ((if active && !(active && holds) then b.map (substitute vars.entries) else []) ++
          if active then rest.map (substitute vars.entries) else []) := by
  cases active <;> cases holds <;> simp

/-- A template is rendered part by part, and the stack is behind it what it was in front of it. -/
theorem renderLines_template (t : Template) :
    renderLines vars stack active (t.lines ++ more) =
      (renderLines vars stack active more).map (contribution vars active t ++ ·) := by
  induction t generalizing stack active more with
  | done =>
    have hnone : contribution vars active .done = [] := by cases active <;> rfl
    rw [hnone, map_nil_append]
    rfl
  | text line isText rest ih =>
    rw [Template.lines, List.cons_append, renderLines_text isText, ih, map_append_map, contribution_text]
  | ifThen head condition isIf thenPart foot isEndif rest ihThen ihRest =>
    rw [Template.lines, List.cons_append, List.append_assoc, List.cons_append, renderLines_if isIf, ihThen,
      renderLines_endif isEndif, ihRest, map_append_map]
    have hblock := @contribution_block vars active (condition.holds vars) (thenPart.select vars) []
      (rest.select vars)
    rw [List.map_nil, ite_self, List.nil_append] at hblock
    rw [contribution, contribution, contribution, Template.select, hblock]
  | ifElse head condition isIf thenPart middle isElse elsePart foot isEndif rest ihThen ihElse ihRest =>
    rw [Template.lines, List.cons_append, List.append_assoc, List.cons_append, List.append_assoc, List.cons_append,
      renderLines_if isIf, ihThen, renderLines_else isElse, ihElse, renderLines_endif isEndif, ihRest, map_append_map,
      map_append_map]
    rw [contribution, contribution, contribution, contribution, Template.select, contribution_block, List.append_assoc]

/-- Exactly the templates with an unmatched line end in an error. -/
theorem renderLines_error_iff (vars : Vars) (stack : List (Bool × Bool)) (active : Bool) (lines : List Text) :
    (∃ e, renderLines vars stack active lines = .error e) ↔ unmatched stack.length lines = true := by
  induction lines generalizing stack active with
  | nil =>
    cases stack with
    | nil => exact iff_of_false (fun h => by obtain ⟨e, he⟩ := h; cases he) Bool.false_ne_true
    | cons p stack => exact iff_of_true ⟨.unclosedIf, rfl⟩ (decide_eq_true (Nat.succ_ne_zero _))
  | cons line lines ih =>
    rw [unmatched]
    cases hdirective : directive line with
    | ifLine condition =>
      rw [renderLines_if hdirective]
      exact ih _ _
    | elseLine =>
      cases stack with
      | nil =>
        rw [renderLines, hdirective]
        exact iff_of_true ⟨.unmatchedElse, rfl⟩ rfl
      | cons p stack =>
        rw [renderLines_else hdirective]
        exact ih _ _
    | endifLine =>
      cases stack with
      | nil =>
        rw [renderLines, hdirective]
        exact iff_of_true ⟨.unmatchedEndif, rfl⟩ rfl
      | cons p stack =>
        rw [renderLines_endif hdirective]
        exact ih _ _
    | text =>
      rw [renderLines_text hdirective]
      dsimp only
      rw [← ih stack active]
      cases renderLines vars stack active lines with
      | error e => exact iff_of_true ⟨e, rfl⟩ ⟨e, rfl⟩
      | ok ls => exact iff_of_false (fun h => by obtain ⟨e, he⟩ := h; cases he) fun h => by obtain ⟨e, he⟩ := h; cases he

/-- **Conditionals have their nested meaning**, and a template with an unmatched line leaves the output alone. -/
theorem render_meaning (template : Text) (output : Option Text) (vars : Vars) :
    (∀ t : Template, splitlines (readText template) = t.lines →
      render template output vars = ⟨none, some ((t.select vars).map (substitute vars.entries)).flatten⟩) ∧
      (unmatched 0 (splitlines (readText template)) = true →
        ∃ e, render template output vars = ⟨some e, output⟩) := by
  constructor
  · intro t ht
    have hlines := @renderLines_template vars [] true [] t
    rw [List.append_nil, ← ht] at hlines
    rw [render, hlines]
    exact congrArg (fun ls => Outcome.mk none (some (List.flatten ls))) (List.append_nil _)
  · intro hunmatched
    obtain ⟨e, he⟩ := (renderLines_error_iff vars [] true _).mpr hunmatched
    exact ⟨e, by rw [render, he]⟩

/-- A block that is wanted stands in a part that is not. -/
def nested : Template :=
  .ifElse "@if !A@\n".toList ⟨true, "A".toList⟩ (directive_if_not (List.forall_mem_singleton.mpr rfl) (by decide) rfl)
    (.ifThen "  @if B@\n".toList ⟨false, "B".toList⟩ (directive_if (List.forall_mem_singleton.mpr rfl) (by decide) rfl)
      (.text "x\n".toList (directive_text_iff.mpr (by decide)) .done)
      "  @endif@\n".toList (directive_endif_iff.mpr rfl) .done)
    "@else@\n".toList (directive_else_iff.mpr rfl)
    (.text "a @A@\n".toList (directive_text_iff.mpr (by decide)) .done)
    "@endif@\n".toList (directive_endif_iff.mpr rfl)
    (.text "z\n".toList (directive_text_iff.mpr (by decide)) .done)

theorem render_meaning_nested :
    render "@if !A@\n  @if B@\nx\n  @endif@\n@else@\na @A@\n@endif@\nz\n".toList none
        ⟨[("A".toList, "1".toList), ("B".toList, "1".toList)], by decide, by decide⟩ =
      ⟨none, some "a 1\nz\n".toList⟩ ∧
    ∃ e, render "@if A@\nx\n@endif@\n@else@\n".toList (some "old".toList) ⟨[], by decide, by decide⟩ =
      ⟨some e, some "old".toList⟩ :=
  ⟨((render_meaning _ none _).1 nested rfl).trans rfl, (render_meaning _ _ _).2 rfl⟩

end Thingino.Scripts
