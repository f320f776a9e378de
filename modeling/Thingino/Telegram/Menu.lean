import Thingino.Telegram.Access
import Thingino.Telegram.Escape

/-! The menu that the bot publishes.

`build_commands_json` prints one entry behind the other into a buffer and counts with `off` what it meant to print.
What is left in the buffer is the beginning of the whole text, as far as there is room (`buildCommandsJson_eq`). A text
that is cut leaves a bracket open that the one brace of `api_set_my_commands` does not close. -/
namespace Thingino.Telegram

open Lib Lib.JsonText

/-! ### The source -/

/-- The string in a buffer, and the number of bytes that were to be printed. -/
structure Printed where
  text : List Byte
  off : Nat

/-- `off += snprintf(out + off, outsz > off ? outsz - off : 0, …)`. -/
def Printed.print (outsz : Nat) (s : List Byte) (out : Printed) : Printed where
  text := if out.off < outsz then out.text.take out.off ++ s.take (outsz - out.off - 1) else out.text
  off := out.off + s.length

def printEntry (c : Command) : List Byte :=
  ascii "\x7b\"command\":\"" ++ cstr (jsonEscape (some c.handle) 64) ++ ascii "\",\"description\":\"" ++
    cstr (jsonEscape (some c.description) 256) ++ ascii "\"\x7d,"

def printCommands (outsz : Nat) : List Command → Printed → Printed
  | [], out => out
  | c :: rest, out =>
    if out.off < outsz - 1 then printCommands outsz rest (out.print outsz (printEntry c)) else out

def builtInHelp : List Byte := ascii "\x7b\"command\":\"help\",\"description\":\"Help\"\x7d]"

/-- The string in `out`. -/
def buildCommandsJson (cfg : Config) (outsz : Nat) : List Byte :=
  if outsz = 0 then []
  else
    let opened := Printed.print outsz (ascii "[") ⟨[], 0⟩
    let out := (printCommands outsz cfg.commands opened).print outsz builtInHelp
    if outsz ≤ out.off then out.text.take (outsz - 1) else out.text

/-- The body that is posted. -/
def apiSetMyCommands (cfg : Config) : List Byte :=
  snprintf 4600 (ascii "\x7b\"commands\":") (buildCommandsJson cfg 4096) (ascii "\x7d")

/-! ### What is meant -/

/-- A command with a description, as a JSON value. -/
def menuEntry (handle description : List Byte) : Value :=
  .object [(ascii "command", .string handle), (ascii "description", .string description)]

/-- Control characters without an escape sequence are left out. -/
def commandEntry (c : Command) : Value :=
  menuEntry ((cstr c.handle).filter isKept) ((cstr c.description).filter isKept)

def helpEntry : Value := menuEntry (ascii "help") (ascii "Help")

def menu (cfg : Config) : Value :=
  .object [(ascii "commands", .array (cfg.commands.map commandEntry ++ [helpEntry]))]

/-- **The property** of a configuration: what is written has room in its buffer, and the body is a JSON text with every
command and the help. -/
def PublishesMenu (cfg : Config) : Prop :=
  (∀ c ∈ cfg.commands,
    (jsonEscape (some c.handle) 64).length ≤ 64 ∧ (jsonEscape (some c.description) 256).length ≤ 256) ∧
    (buildCommandsJson cfg 4096).length < 4096 ∧ IsJson (apiSetMyCommands cfg) (menu cfg)

/-- The bytes of the entries of some commands, and of the whole menu. -/
def entriesSize : List Command → Nat
  | [] => 0
  | c :: cs => 32 + (jsonEscaper.escape (cstr c.handle)).length + (jsonEscaper.escape (cstr c.description)).length + entriesSize cs

def menuSize (cfg : Config) : Nat := 41 + entriesSize cfg.commands

/-- What the entries of the configuration leave is UTF-8. -/
def CommandsUtf8 (cfg : Config) : Prop :=
  ∀ c ∈ cfg.commands, IsUtf8 ((cstr c.handle).filter isKept) ∧ IsUtf8 ((cstr c.description).filter isKept)

/-! ### The buffer -/

section Buffer
variable {outsz : Nat} {s w : List Byte}

/-- What a buffer holds when some bytes were to be printed. -/
def printed (outsz : Nat) (w : List Byte) : Printed := ⟨w.take (outsz - 1), w.length⟩

theorem print_printed (hsize : 0 < outsz) (s w : List Byte) :
    (printed outsz w).print outsz s = printed outsz (w ++ s) := by
  have htext : ((printed outsz w).print outsz s).text = (w ++ s).take (outsz - 1) := by
    show (if w.length < outsz then _ else _) = _
    rw [List.take_append]
    split
    · rename_i hroom
      have hwhole : w.take (outsz - 1) = w := List.take_of_length_le (by omega)
      show (w.take (outsz - 1)).take w.length ++ s.take (outsz - w.length - 1) = _
      rw [hwhole, List.take_length, show outsz - w.length - 1 = outsz - 1 - w.length by omega]
    · show w.take (outsz - 1) = _
      rw [show outsz - 1 - w.length = 0 by omega, List.take_zero, List.append_nil]
  have hoff : ((printed outsz w).print outsz s).off = (w ++ s).length := List.length_append.symm
  calc (printed outsz w).print outsz s
      = ⟨((printed outsz w).print outsz s).text, ((printed outsz w).print outsz s).off⟩ := rfl
    _ = printed outsz (w ++ s) := by rw [htext, hoff]; rfl

/-- Where the loop ends before the last command, the buffer is full. -/
theorem printCommands_printed (hsize : 0 < outsz) (cs : List Command) (w : List Byte) :
    ∃ w', printCommands outsz cs (printed outsz w) = printed outsz w' ∧ w' <+: w ++ cs.flatMap printEntry ∧
      (w' = w ++ cs.flatMap printEntry ∨ outsz - 1 ≤ w'.length) := by
  induction cs generalizing w with
  | nil => exact ⟨w, rfl, by rw [List.flatMap_nil, List.append_nil], Or.inl (List.append_nil w).symm⟩
  | cons c cs ih =>
    rw [printCommands, List.flatMap_cons, ← List.append_assoc]
    split
    · rw [print_printed hsize]
      exact ih (w ++ printEntry c)
    · rename_i hfull
      refine ⟨w, rfl, ?_, Or.inr (Nat.le_of_not_lt hfull)⟩
      exact (List.prefix_append w (printEntry c)).trans (List.prefix_append _ _)

/-- All that is meant to be printed. -/
def wholeMenu (cs : List Command) : List Byte := ascii "[" ++ cs.flatMap printEntry ++ builtInHelp

/-- **The buffer** holds as much of the menu as it has room for. -/
theorem buildCommandsJson_eq (cfg : Config) (hsize : 0 < outsz) :
    buildCommandsJson cfg outsz = (wholeMenu cfg.commands).take (outsz - 1) := by
  have hstart : (⟨[], 0⟩ : Printed) = printed outsz [] := by rw [printed, List.take_nil]; rfl
  obtain ⟨w, hw, hprefix, hend⟩ := printCommands_printed hsize cfg.commands (ascii "[")
  have htake : (w ++ builtInHelp).take (outsz - 1) = (wholeMenu cfg.commands).take (outsz - 1) := by
    rcases hend with rfl | hfull
    · rfl
    · obtain ⟨more, hmore⟩ := hprefix
      rw [wholeMenu, ← hmore, List.append_assoc, List.take_append_of_le_length hfull,
        List.take_append_of_le_length hfull]
  rw [buildCommandsJson, if_neg (Nat.ne_of_gt hsize)]
  simp only [hstart, print_printed hsize, List.nil_append, hw]
  split
  · show ((w ++ builtInHelp).take (outsz - 1)).take (outsz - 1) = _
    rw [List.take_take, Nat.min_self, htake]
  · exact htake

end Buffer

/-! ### The entries -/

/-- The arrays of a configuration have room for 31 and 127 bytes. -/
theorem length_fields {root : Option Json} {cfg : Config} (h : loadConfigFile root = some cfg) :
    ∀ c ∈ cfg.commands, c.handle.length ≤ 31 ∧ c.description.length ≤ 127 := by
  obtain ⟨root, -, h⟩ := Option.bind_eq_some_iff.mp h
  obtain ⟨-, h⟩ := Option.ite_none_left_eq_some.mp h
  intro c hc
  rw [← Option.some.inj h] at hc
  have hread : ∃ el ∈ root.elements "commands", readCommand el = some c := by
    have hloaded : c ∈ copyElements readCommand 16 (root.elements "commands") [] := hc
    rw [copyElements_nil] at hloaded
    exact List.mem_filterMap.mp (List.mem_of_mem_take hloaded)
  obtain ⟨el, -, hel⟩ := hread
  simp only [readCommand, Option.bind_eq_bind, Option.bind_eq_some_iff, Option.some.injEq, Option.pure_def] at hel
  obtain ⟨handle, -, exec, -, rfl⟩ := hel
  exact ⟨(List.length_take_le _ _), (List.length_take_le _ _)⟩

/-- A field of the arrays is escaped as a whole: there are two bytes for each of its own. -/
theorem cstr_jsonEscape_field {s : List Byte} {n : Nat} (h : s.length ≤ n) :
    cstr (jsonEscape (some s) (2 * n + 2)) = jsonEscaper.escape (cstr s) := by
  have hlen : (cstr s).length ≤ s.length := (cstr_isPrefix s).length_le
  have hroom : 0 + jsonEscaper.most * (cstr s).length < 2 * n + 2 := by
    show 0 + 2 * (cstr s).length < 2 * n + 2
    omega
  rw [cstr_jsonEscape (by omega), Escaper.taken_eq_self _ hroom]

/-- An entry without the comma behind it. -/
def entryText (handle description : List Byte) : List Byte :=
  ascii "\x7b\"command\":\"" ++ (jsonEscaper.escape handle ++ (ascii "\",\"description\":\"" ++ (jsonEscaper.escape description ++ ascii "\"\x7d")))

theorem printEntry_eq {c : Command} (h : c.handle.length ≤ 31 ∧ c.description.length ≤ 127) :
    printEntry c = entryText (cstr c.handle) (cstr c.description) ++ [44] := by
  have hcomma : ascii "\"\x7d," = ascii "\"\x7d" ++ [44] := rfl
  have hdescription := cstr_jsonEscape_field h.2
  rw [printEntry, cstr_jsonEscape_field h.1, hdescription, hcomma, entryText]
  simp only [List.append_assoc]

theorem denotes_entryText (handle description : List Byte) :
    Denotes (.value (menuEntry (handle.filter isKept) (description.filter isKept))) (entryText handle description) := by
  have hsecond :=
    denotes_member (chars_plain (s := ascii "description") (by decide)) (Denotes.string (chars_escape description))
  have hfirst :=
    denotes_members (chars_plain (s := ascii "command") (by decide)) (Denotes.string (chars_escape handle)) hsecond
  have hsame : entryText handle description =
      123 :: (34 :: (ascii "command" ++ [34]) ++ 58 :: (34 :: (jsonEscaper.escape handle ++ [34]) ++
        44 :: (34 :: (ascii "description" ++ [34]) ++ 58 :: 34 :: (jsonEscaper.escape description ++ [34]))) ++ [125]) := by
    simp [entryText, ascii]
  rw [hsame]
  exact Denotes.object hfirst

/-- What stands between the brackets of the menu. -/
def entriesText (cs : List Command) : List Byte := cs.flatMap printEntry ++ entryText (ascii "help") (ascii "Help")

theorem wholeMenu_eq (cs : List Command) : wholeMenu cs = 91 :: (entriesText cs ++ [93]) := by
  have hhelp : builtInHelp = entryText (ascii "help") (ascii "Help") ++ [93] := by decide
  rw [wholeMenu, hhelp, entriesText, List.append_assoc, List.append_assoc]
  rfl

section Entries
variable {cs : List Command} (hfields : ∀ c ∈ cs, c.handle.length ≤ 31 ∧ c.description.length ≤ 127)
include hfields

theorem denotes_entriesText : Denotes (.elements (cs.map commandEntry ++ [helpEntry])) (entriesText cs) := by
  induction cs with
  | nil => exact denotes_element (denotes_entryText (ascii "help") (ascii "Help"))
  | cons c cs ih =>
    obtain ⟨hc, hcs⟩ := List.forall_mem_cons.mp hfields
    have hsame : entriesText (c :: cs) = entryText (cstr c.handle) (cstr c.description) ++ 44 :: entriesText cs := by
      rw [entriesText, List.flatMap_cons, printEntry_eq hc, List.append_assoc, List.append_assoc]
      rfl
    rw [hsame, List.map_cons]
    exact denotes_elements (denotes_entryText _ _) (ih hcs)

theorem length_entriesText : (entriesText cs).length + 2 = 41 + entriesSize cs := by
  have hentry : ∀ handle description,
      (entryText handle description).length = 31 + (jsonEscaper.escape handle).length + (jsonEscaper.escape description).length := by
    intro handle description
    have hfirst : (ascii "\x7b\"command\":\"").length = 12 := rfl
    have hbetween : (ascii "\",\"description\":\"").length = 17 := rfl
    have hlast : (ascii "\"\x7d").length = 2 := rfl
    simp only [entryText, List.length_append, hfirst, hbetween, hlast]
    omega
  have hhelp : (entryText (ascii "help") (ascii "Help")).length = 39 := by decide
  induction cs with
  | nil => exact congrArg (· + 2) hhelp
  | cons c cs ih =>
    obtain ⟨hc, hcs⟩ := List.forall_mem_cons.mp hfields
    have hrest := ih hcs
    rw [entriesText, List.length_append] at hrest
    rw [entriesText, List.flatMap_cons, printEntry_eq hc, entriesSize, List.length_append, List.length_append,
      List.length_append, hentry, List.length_singleton]
    omega

theorem isUtf8_entriesText_iff :
    IsUtf8 (entriesText cs) ↔
      ∀ c ∈ cs, IsUtf8 ((cstr c.handle).filter isKept) ∧ IsUtf8 ((cstr c.description).filter isKept) := by
  have hhelp : IsUtf8 (entryText (ascii "help") (ascii "Help")) := isUtf8_ascii (by decide)
  induction cs with
  | nil => exact iff_of_true hhelp fun c hc => absurd hc List.not_mem_nil
  | cons c cs ih =>
    obtain ⟨hc, hcs⟩ := List.forall_mem_cons.mp hfields
    have hnil : IsUtf8 [] := ⟨[], rfl⟩
    have hkept : ∀ s, IsUtf8 (jsonEscaper.escape s) ↔ IsUtf8 (s.filter isKept) := isUtf8_escape_iff []
    have hsame : entriesText (c :: cs) =
        [] ++ (ascii "\x7b\"command\":\"" ++ (jsonEscaper.escape (cstr c.handle) ++ (ascii "\",\"description\":\"" ++
          (jsonEscaper.escape (cstr c.description) ++ (ascii "\"\x7d," ++ entriesText cs))))) := by
      have hcomma : ascii "\"\x7d," = ascii "\"\x7d" ++ [44] := rfl
      rw [entriesText, List.flatMap_cons, printEntry_eq hc, entryText, hcomma, entriesText]
      simp only [List.append_assoc, List.nil_append]
    rw [hsame, isUtf8_around_iff (by decide) (by decide), isUtf8_around_iff (by decide) (by decide),
      isUtf8_around_iff (by decide) (by decide), hkept, hkept, and_iff_right hnil, List.forall_mem_cons, and_assoc]
    exact and_congr_right fun _ => and_congr_right fun _ => ih hcs

theorem zero_notMem_entriesText : 0#8 ∉ entriesText cs := by
  have hentry : ∀ handle description, 0#8 ∉ entryText handle description := by
    intro handle description
    simp only [entryText, List.mem_append, not_or]
    exact ⟨by decide, zero_notMem_escape _, by decide, zero_notMem_escape _, by decide⟩
  intro h
  rcases List.mem_append.mp h with h | h
  · obtain ⟨c, hc, hmem⟩ := List.mem_flatMap.mp h
    rw [printEntry_eq (hfields c hc)] at hmem
    rcases List.mem_append.mp hmem with hmem | hmem
    · exact hentry _ _ hmem
    · exact absurd hmem (by decide)
  · exact hentry _ _ h

end Entries

/-! ### The body -/

section Menu
variable {cfg : Config} (hfields : ∀ c ∈ cfg.commands, c.handle.length ≤ 31 ∧ c.description.length ≤ 127)
include hfields

theorem length_wholeMenu : (wholeMenu cfg.commands).length = menuSize cfg := by
  rw [wholeMenu_eq, List.length_cons, List.length_append, List.length_singleton, menuSize,
    ← length_entriesText hfields]

/-- The body has room for what is in the buffer. -/
theorem apiSetMyCommands_eq :
    apiSetMyCommands cfg = ascii "\x7b\"commands\":" ++ (wholeMenu cfg.commands).take 4095 ++ ascii "\x7d" := by
  have hwhole : 0#8 ∉ wholeMenu cfg.commands := by
    rw [wholeMenu_eq]
    have hentries := zero_notMem_entriesText hfields
    simpa using hentries
  have hnone : 0#8 ∉ (wholeMenu cfg.commands).take 4095 := fun h => hwhole (List.mem_of_mem_take h)
  have hfront : (ascii "\x7b\"commands\":").length = 12 := rfl
  have hbehind : (ascii "\x7d").length = 1 := rfl
  rw [apiSetMyCommands, buildCommandsJson_eq cfg (by decide), snprintf, cstr_eq_self hnone, List.take_of_length_le]
  rw [List.length_append, List.length_append, List.length_take, hfront, hbehind]
  omega

/-- A menu that has room is published as it is. -/
theorem apiSetMyCommands_room (hroom : menuSize cfg ≤ 4095) :
    apiSetMyCommands cfg = ascii "\x7b\"commands\":" ++ wholeMenu cfg.commands ++ ascii "\x7d" := by
  rw [apiSetMyCommands_eq hfields, List.take_of_length_le (by rw [length_wholeMenu hfields]; exact hroom)]

theorem isJson_menu (hroom : menuSize cfg ≤ 4095) : IsJson (apiSetMyCommands cfg) (menu cfg) := by
  have harray := Denotes.array (denotes_entriesText hfields)
  have hbody := Denotes.object (denotes_member (chars_plain (s := ascii "commands") (by decide)) harray)
  have hsame : apiSetMyCommands cfg =
      123 :: (34 :: (ascii "commands" ++ [34]) ++ 58 :: 91 :: (entriesText cfg.commands ++ [93]) ++ [125]) := by
    rw [apiSetMyCommands_room hfields hroom, wholeMenu_eq]
    rfl
  rw [hsame]
  exact isJson_of_denotes hbody

/-- **A menu that is cut** is published with the bracket of the array open. -/
theorem not_isJson_cut (hcut : 4095 < menuSize cfg) (v : Value) : ¬IsJson (apiSetMyCommands cfg) v := by
  have hlen := length_wholeMenu hfields
  rw [wholeMenu_eq, List.length_cons, List.length_append, List.length_singleton] at hlen
  have htake : (wholeMenu cfg.commands).take 4095 = 91 :: (entriesText cfg.commands).take 4094 := by
    rw [wholeMenu_eq, List.take_succ_cons, List.take_append_of_le_length (by omega)]
  have hopen := (returns_of_denotes (denotes_entriesText hfields) 2).2 _ (List.take_prefix 4094 _)
  have hbody : scan ⟨0, .outside⟩ (apiSetMyCommands cfg) =
      (scan ⟨2, .outside⟩ ((entriesText cfg.commands).take 4094)).next 125 := by
    rw [apiSetMyCommands_eq hfields, htake, scan_append, scan_append]
    rfl
  intro h
  have hback := (returns_of_isJson h 0).1
  have hlast := depth_next (scan ⟨2, .outside⟩ ((entriesText cfg.commands).take 4094)) 125
  rw [← hbody, hback] at hlast
  exact absurd (Nat.le_trans hopen hlast) (by decide)

theorem isUtf8_menu_iff (hroom : menuSize cfg ≤ 4095) : IsUtf8 (apiSetMyCommands cfg) ↔ CommandsUtf8 cfg := by
  have hnil : IsUtf8 [] := ⟨[], rfl⟩
  have hsame : apiSetMyCommands cfg =
      [] ++ (ascii "\x7b\"commands\":[" ++ (entriesText cfg.commands ++ (ascii "]\x7d" ++ []))) := by
    rw [apiSetMyCommands_room hfields hroom, wholeMenu_eq]
    simp [ascii]
  rw [hsame, isUtf8_around_iff (by decide) (by decide), isUtf8_around_iff (by decide) (by decide),
    isUtf8_entriesText_iff hfields, and_iff_right hnil, and_iff_left hnil]
  rfl

theorem publishesMenu_of_room (hroom : menuSize cfg ≤ 4095) : PublishesMenu cfg := by
  refine ⟨fun c _ => ⟨length_jsonEscape _ _, length_jsonEscape _ _⟩, ?_, isJson_menu hfields hroom⟩
  rw [buildCommandsJson_eq cfg (by decide), List.length_take]
  omega

end Menu

/-- **The menu** is published well exactly where it has room as a whole; it is UTF-8, too, where each of its fields is. -/
theorem publishesMenu_iff {root : Option Json} {cfg : Config} (h : loadConfigFile root = some cfg) :
    (PublishesMenu cfg ↔ menuSize cfg ≤ 4095) ∧
      (PublishesMenu cfg ∧ IsUtf8 (apiSetMyCommands cfg) ↔ menuSize cfg ≤ 4095 ∧ CommandsUtf8 cfg) := by
  have hfields := length_fields h
  have hmenu : PublishesMenu cfg ↔ menuSize cfg ≤ 4095 := by
    constructor
    · intro hpublishes
      by_contra hcut
      exact not_isJson_cut hfields (Nat.lt_of_not_le hcut) _ hpublishes.2.2
    · exact publishesMenu_of_room hfields
  refine ⟨hmenu, ?_⟩
  rw [hmenu]
  exact and_congr_right (isUtf8_menu_iff hfields)

/-! ### Two configurations -/

/-- A configuration with some commands, in the file. -/
def configText (n : Nat) (description : List Byte) : Json :=
  .object [("token", .string (ascii "12:ab")),
    ("commands", .array (List.replicate n (.object [("handle", .string (ascii "light")),
      ("description", .string description), ("exec", .string (ascii "light on"))])))]

theorem publishesMenu_light : PublishesMenu (readConfig (configText 2 (ascii "Turn \"it\" on"))) :=
  (@publishesMenu_iff (some (configText 2 (ascii "Turn \"it\" on"))) _ rfl).1.mpr (by decide)

theorem entriesSize_replicate (n : Nat) (c : Command) :
    entriesSize (List.replicate n c) =
      n * (32 + (jsonEscaper.escape (cstr c.handle)).length + (jsonEscaper.escape (cstr c.description)).length) := by
  induction n with
  | zero => exact (Nat.zero_mul _).symm
  | succ n ih => rw [List.replicate_succ, entriesSize, ih, Nat.succ_mul, Nat.add_comm]

/-- Sixteen descriptions of quotes have no room. -/
theorem quotes_cut :
    loadConfigFile (some (configText 16 (List.replicate 127 34))) =
        some (readConfig (configText 16 (List.replicate 127 34))) ∧
      ¬PublishesMenu (readConfig (configText 16 (List.replicate 127 34))) := by
  have hload : loadConfigFile (some (configText 16 (List.replicate 127 34))) =
      some (readConfig (configText 16 (List.replicate 127 34))) := rfl
  have hcommands : (readConfig (configText 16 (List.replicate 127 34))).commands =
      List.replicate 16 ⟨ascii "light", List.replicate 127 34, ascii "light on"⟩ := rfl
  have hcut : 4095 < menuSize (readConfig (configText 16 (List.replicate 127 34))) := by
    rw [menuSize, hcommands, entriesSize_replicate]
    decide +kernel
  exact ⟨hload, fun h => not_isJson_cut (length_fields hload) hcut _ h.2.2⟩

end Thingino.Telegram
