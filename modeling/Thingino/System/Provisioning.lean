import Thingino.Lib.Transition
import Thingino.System.Conf

/-! Provisioning at the end of a boot.

A server has a configuration for the camera: sections with variables of the boot loader, a script for `conf` and
commands, beside one that proves by a hash that they are meant for it and one that says how to go on. The camera may be
switched off at any moment; it marks itself as provisioned at the end, and does not ask again.

`provisioned_by_right`: nothing is carried out but lines of the right sections of a configuration that has the hash, in
order, and the mark comes last. `provisioned_once`: behind the mark nothing is carried out any more, as long as the
configuration of the camera has one line for the mark. `device_overrides`: what a section for `conf` sets is there in
the end, and the camera's own configuration has the last word. -/
namespace Thingino.System.Provisioning
open Lib Lib.Shell Lib.Lines Conf

/-! ### Sections -/

/-- `^\[section\]$`. -/
def header (name : List Byte) : Line := 91 :: (name ++ [93])

/-- `^\[.*\]$`. -/
def isHeader (line : Line) : Bool := line.head? = some 91 && line.getLast? = some 93

/-- `"" | \#*`. -/
def isComment (line : List Byte) : Bool := line = [] || line.head? = some 35

/-- The lines that `echo "$line"` prints. -/
def printed (line : Line) : List Line :=
  if isEchoOption line then if line.contains 110 then [] else [[]] else [line]

/-- The loop of `parse_section`, with `in_section`. -/
def parseFrom (section_ : List Byte) : Bool → List Line → List Line
  | _, [] => []
  | inside, line :: file =>
    if isComment line then parseFrom section_ inside file
    else if line = header section_ then parseFrom section_ true file
    else if isHeader line then parseFrom section_ false file
    else (if inside then printed line else []) ++ parseFrom section_ inside file

def parseSection (section_ file : List Byte) : List Line := parseFrom section_ false (lines file)

/-- What `read` makes of the text for its last variable when there is one more separator in it. -/
structure Remainder where
  value : List Byte → List Byte
  plain : ∀ s, 61 ∉ s → value s = s

variable (r : Remainder)

/-- `$(echo "$s" | tr -d ' \t')`. -/
def squeeze (s : List Byte) : List Byte := output ((echo s).filter fun b => !isBlank b)

/-- `IFS='=' read -r key value`. -/
def pair (line : Line) : List Byte × List Byte := (field1 line, r.value (line.dropWhile (· ≠ 61)).tail)

/-- What a loop over the settings of a section goes through. -/
def settings (section_ file : List Byte) : List (List Byte × List Byte) :=
  (((parseSection section_ file).map (pair r)).filter fun e => !isComment e.1).map fun e => (squeeze e.1, squeeze e.2)

/-! ### A boot -/

/-- What a boot finds: the hash of the camera, the server, the interfaces with their addresses, as far as these can be
read, what the server has at each of the three attempts, and the tools. -/
structure Boot where
  hash : List Byte
  server : List Byte
  usb0 : Option (Option (List Byte))
  eth0 : Option (Option (List Byte))
  wlan0 : Option (Option (List Byte))
  fetch : Nat → List Byte → Option (List Byte)
  hasConf : Bool
  hasSetenv : Bool

variable (b : Boot)

def getMacAddress : Option (List Byte) :=
  ((b.usb0.or (b.eth0.or b.wlan0)).bind id).map fun address => echoed (output (address.filter (· ≠ 58)))

def toUpper (c : Byte) : Byte := if 97 ≤ c.toNat ∧ c.toNat ≤ 122 then c - 32 else c

def configUrl (mac : List Byte) : List Byte := b.server ++ ascii "/thingino-" ++ mac ++ ascii ".conf"

/-- `provision.conf`. -/
def configFile : Option (List Byte) :=
  (getMacAddress b).bind fun mac =>
    (b.fetch 0 (configUrl b (output ((echo mac).map toLower)))).or
      (b.fetch 1 (configUrl b (output ((echo mac).map toUpper))))

def hasMarker (file : List Byte) : Bool := (file.splitOn 10).contains (ascii "!THINGINO-CONFIG")

/-- The first `password_hash` decides. -/
def processAuth (file : List Byte) : Bool :=
  b.hash ≠ [] &&
    ((settings r (ascii "AUTH") file).find? fun e => e.1 = ascii "password_hash").any fun e => e.2 = b.hash

/-- `PROVISION_REBOOT` and `PROVISION_COMMON_CONFIG`. -/
structure Options where
  reboot : List Byte
  commonConfig : List Byte

def Options.set (o : Options) (e : List Byte × List Byte) : Options :=
  if e.1 = ascii "reboot" then { o with reboot := e.2 }
  else if e.1 = ascii "common_config" then { o with commonConfig := e.2 }
  else o

def processProvision (file : List Byte) : Options :=
  (settings r (ascii "PROVISION") file).foldl Options.set ⟨ascii "true", ascii "false"⟩

/-- `common.conf`, when it is wanted and is one. -/
def commonFile (config : List Byte) : Option (List Byte) :=
  if (processProvision r config).commonConfig = ascii "true" then
    (b.fetch 2 (b.server ++ ascii "/thingino-common.conf")).filter hasMarker
  else none

inductive Source
  | common
  | device
  deriving DecidableEq

/-- What is carried out, a section at a time. In front of a user's script stand two lines of its own. -/
inductive Act
  | uenv (source : Source) (script : List Line)
  | system (source : Source) (script : List Line)
  | user (source : Source) (script : List Line)
  | complete
  | reboot
  deriving DecidableEq

def processUenv (source : Source) (file : List Byte) : List Act :=
  let script := parseSection (ascii "UENV") file
  if script ≠ [] ∧ b.hasSetenv = true then [.uenv source script] else []

def processSystem (source : Source) (file : List Byte) : List Act :=
  let script := parseSection (ascii "SYSTEM") file
  if script ≠ [] ∧ b.hasConf = true then [.system source script] else []

/-- `wc -l` counts the two lines as well. -/
def processUser (source : Source) (file : List Byte) : List Act :=
  let script := parseSection (ascii "USER") file
  if 2 < script.length + 2 then [.user source script] else []

def processSections (source : Source) (file : List Byte) : List Act :=
  processUenv b source file ++ processSystem b source file ++ processUser source file

def mark : Ident := ⟨ascii "provisioning_complete", by decide⟩

/-- `[ "$(conf g provisioning_complete)" = "true" ]`. -/
def isComplete (file : List Line) : Bool := output ((get mark.name file).flatMap (· ++ [10])) = ascii "true"

/-- What a configuration that is accepted leads to. -/
def accepted (config : List Byte) : List Act :=
  ((commonFile r b config).map (processSections b .common)).getD [] ++ processSections b .device config ++
    (if b.hasConf then [.complete] else []) ++
    if (processProvision r config).reboot = ascii "true" then [.reboot] else []

/-- `do_provisioning`, as far as the downloads; `file` is the configuration of the camera. -/
def doProvisioning (file : List Line) : List Act :=
  if b.hasConf && isComplete file then []
  else if b.server = [] then []
  else
    match configFile b with
    | none => []
    | some config => if hasMarker config && processAuth r b config then accepted r b config else []

/-! ### Runs -/

/-- Whether the tool could write, and what a user's commands leave of the configuration. -/
structure Outcome where
  ok : Bool
  left : List Line

/-- The configuration of the camera behind an act. -/
def effect (o : Outcome) (file : List Line) : Act → List Line
  | .system _ script => if o.ok then importScript script file else file
  | .user _ _ => o.left
  | .complete => if o.ok then set mark.name (ascii "true") file else file
  | .uenv _ _ | .reboot => file

/-- `log` and `done` are the history, of all boots and of the current one; `after` has what was carried out behind the
mark, as long as nobody else wrote the configuration. -/
structure State where
  file : List Line
  boot : Option Boot
  pending : List Act
  log : List (Boot × Act)
  done : List Act
  after : Option (List Act)

def initial (file : List Line) : State := ⟨file, none, [], [], [], none⟩

/-- The camera is switched on, at any moment; or it goes on with what is next; or somebody else writes the
configuration. -/
inductive Event
  | boot (b : Boot)
  | go (o : Outcome)
  | edit (file : List Line)

def carriedOut (s : State) (o : Outcome) (b : Boot) (a : Act) (pending : List Act) : State :=
  { s with
    file := effect o s.file a
    pending := pending
    log := (b, a) :: s.log
    done := a :: s.done
    after := if a = .complete ∧ o.ok = true then some [] else s.after.map (a :: ·) }

def step (s : State) : Event → Option State
  | .boot b => some { s with boot := some b, pending := doProvisioning r b s.file, done := [] }
  | .go o =>
    match s.boot, s.pending with
    | some b, a :: pending => some (carriedOut s o b a pending)
    | _, _ => none
  | .edit file => some { s with file := file, after := none }

/-! ### A script for `conf`, key by key -/

section Script
variable {k : Ident} {p : Import} {line : Line} {file script : List Line}

/-- A configuration with one line for a key at most, and none with the bare key. -/
structure Tidy (k : Ident) (file : List Line) : Prop where
  bare : k.name ∉ file
  one : (linesOf k.name file).length ≤ 1

instance : Decidable (Tidy k file) :=
  decidable_of_iff (file.contains k.name = false ∧ (linesOf k.name file).length ≤ 1)
    ⟨fun h => ⟨fun hmem => Bool.eq_false_iff.mp h.1 (List.contains_iff_mem.mpr hmem), h.2⟩,
      fun h => ⟨Bool.eq_false_iff.mpr fun hmem => h.bare (List.contains_iff_mem.mp hmem), h.one⟩⟩

/-- What `conf --script` leaves of a key. -/
theorem linesOf_import (hscript : script ≠ []) (hbare : k.name ∉ script) (h : Tidy k file) :
    linesOf k.name (importScript script file) =
      match scriptValue k script with
      | some value => [entry k.name value]
      | none => linesOf k.name file := by
  rw [linesOf_importScript hscript h.bare, held_of_notMem hbare]
  dsimp only
  rw [List.map_nil, List.nil_append]
  cases scriptValue k script with
  | some value =>
    have htail : (linesOf k.name file).tail = [] := by
      have hone := h.one
      rw [← List.length_eq_zero_iff, List.length_tail]
      omega
    dsimp only
    rw [htail]
    rfl
  | none => exact sortUnique_of_length h.one

theorem bare_print (hline : line ≠ k.name) (h : k.name ∉ p.out) : k.name ∉ (p.print line).out := by
  unfold Import.print
  cases p.params.lookup (field1 line) with
  | some value => simpa [name_ne_entry] using h
  | none => simpa [Ne.symm hline] using h

theorem bare_lines {f : Import → Line → Import}
    (hf : ∀ (p : Import) (line : Line), line ≠ k.name → k.name ∉ p.out → k.name ∉ (f p line).out)
    (hbare : k.name ∉ file) (h : k.name ∉ p.out) : k.name ∉ (file.foldl f p).out := by
  induction file generalizing p with
  | nil => exact h
  | cons line file ih =>
    rw [List.mem_cons, not_or] at hbare
    exact ih hbare.2 (hf p line (Ne.symm hbare.1) h)

theorem tidy_importScript (hscript : script ≠ []) (hbare : k.name ∉ script) (h : Tidy k file) :
    Tidy k (importScript script file) := by
  constructor
  · have hread : k.name ∉ (script.foldl Import.read ⟨[], []⟩).out := by
      refine bare_lines (fun p line hline hout => ?_) hbare List.not_mem_nil
      rw [Import.read]
      split
      · exact hout
      · exact bare_print hline hout
    have hprint := bare_lines (fun p line => bare_print) h.bare hread
    rw [importScript, if_neg hscript, mem_sortUnique, List.mem_append, not_or]
    refine ⟨hprint, fun hmem => ?_⟩
    obtain ⟨e, -, heq⟩ := List.mem_map.mp hmem
    exact name_ne_entry k e.1 e.2 heq.symm
  · rw [linesOf_import hscript hbare h]
    split
    · exact le_rfl
    · exact h.one

/-- The mark is set, -/
theorem isComplete_complete (h : Tidy mark file) : isComplete (set mark.name (ascii "true") file) = true := by
  have hmark := equals_notMem_ident mark
  have hechoed : echoed (ascii "true") = ascii "true" := by decide
  have hlines : linesOf mark.name (set mark.name (ascii "true") file) = [entry mark.name (ascii "true")] := by
    cases hany : file.any (isOf mark.name) with
    | true =>
      have hpos := List.length_pos_iff.mpr (any_iff.mp hany)
      obtain ⟨line, hline⟩ := List.length_eq_one_iff.mp (le_antisymm h.one hpos)
      rw [linesOf_set_old hmark hmark (by decide) (by decide) (by decide) hany, hechoed, if_pos rfl, hline]
      rfl
    | false => rw [linesOf_set_new hmark hmark (by decide) hany, hechoed, if_pos rfl]
  rw [isComplete, get_eq, hlines]
  decide

/-- and the other keys are as they were. -/
theorem linesOf_complete_other (hk : k.name ≠ mark.name) (h : (linesOf k.name file).length ≤ 1) :
    linesOf k.name (set mark.name (ascii "true") file) = linesOf k.name file := by
  cases hany : file.any (isOf mark.name) with
  | true =>
    rw [linesOf_set_old (equals_notMem_ident mark) (equals_notMem_ident k) (by decide) (by decide) (by decide) hany,
      if_neg hk]
  | false =>
    rw [linesOf_set_new (equals_notMem_ident mark) (equals_notMem_ident k) (by decide) hany, if_neg hk]
    exact sortUnique_of_length h

theorem tidy_complete (hk : k.name ≠ mark.name) (h : Tidy k file) : Tidy k (set mark.name (ascii "true") file) := by
  refine ⟨fun hmem => ?_, (linesOf_complete_other hk h.one).symm ▸ h.one⟩
  have hentry := name_ne_entry k mark.name (ascii "true")
  cases hany : file.any (isOf mark.name) with
  | true =>
    rw [set_of_any (by decide) hany] at hmem
    obtain ⟨line, hline, hmem⟩ := List.mem_flatMap.mp hmem
    have hone : (unescape (entry mark.name (echoed (ascii "true")))).splitOn 10 = [entry mark.name (ascii "true")] := by
      decide
    rw [hone] at hmem
    split at hmem
    · exact hentry (List.mem_singleton.mp hmem)
    · exact h.bare (List.mem_singleton.mp hmem ▸ hline)
  | false =>
    rw [set_of_not_any (by decide) hany, mem_sortUnique] at hmem
    obtain hmem | hmem := List.mem_append.mp (List.mem_filter.mp hmem).1
    · exact h.bare hmem
    · exact hentry (List.mem_singleton.mp hmem)

end Script

/-! ### Where the lines come from -/

section Origin
variable {section_ : List Byte} {file : List Line} {line : Line} {inside : Bool}

/-- A line stands in a section when there is no header between it and that of the section. -/
def Stands (section_ : List Byte) (file : List Line) (line : Line) : Prop :=
  ∃ before between after, file = before ++ header section_ :: (between ++ line :: after) ∧
    ∀ l ∈ between, isHeader l = false

theorem Stands.cons (h : Stands section_ file line) (l : Line) : Stands section_ (l :: file) line := by
  obtain ⟨before, between, after, rfl, hbetween⟩ := h
  exact ⟨l :: before, between, after, rfl, hbetween⟩

/-- A line with no header in front of it. -/
def Leads (file : List Line) (line : Line) : Prop :=
  ∃ between after, file = between ++ line :: after ∧ ∀ l ∈ between, isHeader l = false

theorem Leads.cons (h : Leads file line) {l : Line} (hl : isHeader l = false) : Leads (l :: file) line := by
  obtain ⟨between, after, rfl, hbetween⟩ := h
  exact ⟨l :: between, after, rfl, List.forall_mem_cons.mpr ⟨hl, hbetween⟩⟩

theorem Leads.stands (h : Leads file line) : Stands section_ (header section_ :: file) line := by
  obtain ⟨between, after, rfl, hbetween⟩ := h
  exact ⟨[], between, after, rfl, hbetween⟩

theorem eq_of_mem_printed {l : Line} (h : line ∈ printed l) : line = l ∨ line = [] := by
  unfold printed at h
  split at h
  · split at h
    · cases h
    · exact .inr (List.mem_singleton.mp h)
  · exact .inl (List.mem_singleton.mp h)

theorem isHeader_of_isComment (h : isComment line = true) : isHeader line = false := by
  cases line with
  | nil => rfl
  | cons b line =>
    obtain rfl : b = 35 := by simpa [isComment] using h
    simp [isHeader]

/-- What the loop prints stands in a section below, or in the one that is being read. -/
theorem stands_of_mem_parseFrom (h : line ∈ parseFrom section_ inside file) (hne : line ≠ []) :
    Stands section_ file line ∨ inside = true ∧ Leads file line := by
  induction file generalizing inside with
  | nil => cases h
  | cons l file ih =>
    -- the line that is being read stays in front of what the rest prints
    have hskip (hl : isHeader l = false) (hrest : Stands section_ file line ∨ inside = true ∧ Leads file line) :
        Stands section_ (l :: file) line ∨ inside = true ∧ Leads (l :: file) line :=
      hrest.imp (fun hstands => hstands.cons l) fun hleads => ⟨hleads.1, hleads.2.cons hl⟩
    rw [parseFrom] at h
    split at h
    · rename_i hcomment
      exact hskip (isHeader_of_isComment hcomment) (ih h)
    · split at h
      · rename_i hheader
        subst hheader
        obtain hstands | ⟨-, hleads⟩ := ih h
        · exact .inl (hstands.cons _)
        · exact .inl hleads.stands
      · split at h
        · obtain hstands | ⟨hinside, -⟩ := ih h
          · exact .inl (hstands.cons l)
          · cases hinside
        · rename_i hother
          obtain hprinted | hrest := List.mem_append.mp h
          · cases inside with
            | false => cases hprinted
            | true =>
              obtain rfl | hnil := eq_of_mem_printed hprinted
              · exact .inr ⟨rfl, [], file, rfl, nofun⟩
              · exact absurd hnil hne
          · exact hskip (Bool.not_eq_true _ ▸ hother) (ih hrest)

/-- **A section has the lines that stand in it.** -/
theorem stands_of_mem_parseSection {file : List Byte} (h : line ∈ parseSection section_ file) (hne : line ≠ []) :
    Stands section_ (lines file) line :=
  (stands_of_mem_parseFrom h hne).resolve_right fun hinside => absurd hinside.1 Bool.false_ne_true

variable (r : Remainder)

/-- A line of a section sets a key to a value. -/
def Sets (section_ file key value : List Byte) : Prop :=
  ∃ line, Stands section_ (lines file) line ∧ squeeze (pair r line).1 = key ∧ squeeze (pair r line).2 = value

variable {r}

theorem sets_of_mem {file : List Byte} {e : List Byte × List Byte} (h : e ∈ settings r section_ file) :
    Sets r section_ file e.1 e.2 := by
  obtain ⟨e', he', rfl⟩ := List.mem_map.mp h
  obtain ⟨hmem, hcomment⟩ := List.mem_filter.mp he'
  obtain ⟨line, hline, rfl⟩ := List.mem_map.mp hmem
  refine ⟨line, stands_of_mem_parseSection hline fun hnil => ?_, rfl, rfl⟩
  rw [hnil] at hcomment
  cases hcomment

theorem commonConfig_of_foldl {es : List (List Byte × List Byte)} {o : Options} {value : List Byte}
    (h : (es.foldl Options.set o).commonConfig = value) :
    o.commonConfig = value ∨ (ascii "common_config", value) ∈ es := by
  induction es generalizing o with
  | nil => exact .inl h
  | cons e es ih =>
    obtain hset | hmem := ih h
    · unfold Options.set at hset
      split at hset
      · exact .inl hset
      · split at hset
        · rename_i hkey
          exact .inr (List.mem_cons.mpr (.inl (Prod.ext hkey.symm hset.symm)))
        · exact .inl hset
    · exact .inr (List.mem_cons_of_mem e hmem)

/-- The configuration of the camera says that the common one is wanted. -/
theorem sets_of_commonFile {b : Boot} {config file : List Byte} (h : commonFile r b config = some file) :
    Sets r (ascii "PROVISION") config (ascii "common_config") (ascii "true") := by
  rw [commonFile, Option.ite_none_right_eq_some] at h
  have hmem := (commonConfig_of_foldl h.1).resolve_left (by decide)
  exact sets_of_mem hmem

end Origin

/-! ### What a boot is allowed -/

section Allowed
variable (r : Remainder) (b : Boot)

/-- There is a configuration with the marker, and its section `AUTH` has the hash of the camera. -/
def Authentic : Prop :=
  b.hash ≠ [] ∧ ∃ config, configFile b = some config ∧ hasMarker config = true ∧
    Sets r (ascii "AUTH") config (ascii "password_hash") b.hash

/-- The file of a source; the common one has to be wanted. -/
def Provides : Source → List Byte → Prop
  | .device, file => configFile b = some file
  | .common, file => ∃ config, configFile b = some config ∧ commonFile r b config = some file ∧
      Sets r (ascii "PROVISION") config (ascii "common_config") (ascii "true")

def Act.origin : Act → Option (Source × List Byte × List Line)
  | .uenv source script => some (source, ascii "UENV", script)
  | .system source script => some (source, ascii "SYSTEM", script)
  | .user source script => some (source, ascii "USER", script)
  | .complete | .reboot => none

/-- The lines of an act stand in its section of a file that was provided. -/
def Drawn (a : Act) : Prop :=
  ∀ source section_ script, a.origin = some (source, section_, script) → ∃ file, Provides r b source file ∧
    ∀ line ∈ script, line ≠ [] → Stands section_ (lines file) line

/-- First the common configuration, then the camera's own, the mark, and the reboot. -/
def Act.rank : Act → Nat
  | .uenv .common _ => 0
  | .system .common _ => 1
  | .user .common _ => 2
  | .uenv .device _ => 3
  | .system .device _ => 4
  | .user .device _ => 5
  | .complete => 6
  | .reboot => 7

variable {r b} {source : Source} {file config : List Byte} {a : Act}

theorem processAuth_sets (h : processAuth r b config = true) : b.hash ≠ [] ∧
    Sets r (ascii "AUTH") config (ascii "password_hash") b.hash := by
  rw [processAuth, Bool.and_eq_true, Option.any_eq_true] at h
  obtain ⟨hhash, e, hfind, hvalue⟩ := h
  refine ⟨of_decide_eq_true hhash, ?_⟩
  have hkey : e.1 = ascii "password_hash" := by simpa using List.find?_some hfind
  have hsets := sets_of_mem (List.mem_of_find?_eq_some hfind)
  rwa [hkey, of_decide_eq_true hvalue] at hsets

theorem eq_of_mem_processUenv (h : a ∈ processUenv b source file) :
    a = .uenv source (parseSection (ascii "UENV") file) := by
  unfold processUenv at h
  dsimp only at h
  split at h
  · exact List.mem_singleton.mp h
  · cases h

theorem eq_of_mem_processSystem (h : a ∈ processSystem b source file) :
    a = .system source (parseSection (ascii "SYSTEM") file) ∧ parseSection (ascii "SYSTEM") file ≠ [] := by
  unfold processSystem at h
  dsimp only at h
  split at h
  · rename_i hscript
    exact ⟨List.mem_singleton.mp h, hscript.1⟩
  · cases h

theorem eq_of_mem_processUser (h : a ∈ processUser source file) :
    a = .user source (parseSection (ascii "USER") file) := by
  unfold processUser at h
  dsimp only at h
  split at h
  · exact List.mem_singleton.mp h
  · cases h

theorem mem_processSections (h : a ∈ processSections b source file) :
    a = .uenv source (parseSection (ascii "UENV") file) ∨ a = .system source (parseSection (ascii "SYSTEM") file) ∨
      a = .user source (parseSection (ascii "USER") file) := by
  rw [processSections, List.mem_append, List.mem_append] at h
  obtain (h | h) | h := h
  · exact .inl (eq_of_mem_processUenv h)
  · exact .inr (.inl (eq_of_mem_processSystem h).1)
  · exact .inr (.inr (eq_of_mem_processUser h))

theorem drawn_of_mem (hprovides : Provides r b source file) (h : a ∈ processSections b source file) : Drawn r b a := by
  intro source' section_ script horigin
  obtain rfl | rfl | rfl := mem_processSections h <;> cases horigin <;>
    exact ⟨file, hprovides, fun line hline hne => stands_of_mem_parseSection hline hne⟩

theorem drawn_of_origin (h : a.origin = none) : Drawn r b a := fun source section_ script horigin => by
  rw [h] at horigin
  cases horigin

/-- The parts of what is carried out. -/
theorem mem_accepted (h : a ∈ accepted r b config) :
    (∃ file, commonFile r b config = some file ∧ a ∈ processSections b .common file) ∨
      a ∈ processSections b .device config ∨ a = .complete ∨ a = .reboot := by
  simp only [accepted, List.mem_append] at h
  obtain ((h | h) | h) | h := h
  · cases hfile : commonFile r b config with
    | none =>
      rw [hfile] at h
      cases h
    | some file =>
      rw [hfile] at h
      exact .inl ⟨file, rfl, h⟩
  · exact .inr (.inl h)
  · split at h
    · exact .inr (.inr (.inl (List.mem_singleton.mp h)))
    · cases h
  · split at h
    · exact .inr (.inr (.inr (List.mem_singleton.mp h)))
    · cases h

theorem drawn_accepted (hconfig : configFile b = some config) (h : a ∈ accepted r b config) : Drawn r b a := by
  obtain ⟨file, hfile, hmem⟩ | hmem | rfl | rfl := mem_accepted h
  · have hcommon : Provides r b .common file := ⟨config, hconfig, hfile, sets_of_commonFile hfile⟩
    exact drawn_of_mem hcommon hmem
  · have hdevice : Provides r b .device config := hconfig
    exact drawn_of_mem hdevice hmem
  · exact drawn_of_origin rfl
  · exact drawn_of_origin rfl

theorem sorted_processSections (source : Source) (file : List Byte) :
    (processSections b source file).Pairwise fun a a' => a.rank < a'.rank := by
  unfold processSections processUenv processSystem processUser
  cases source <;> dsimp only <;> split <;> split <;> split <;> simp [Act.rank]

theorem rank_common (h : a ∈ processSections b .common file) : a.rank ≤ 2 := by
  obtain rfl | rfl | rfl := mem_processSections h <;> simp [Act.rank]

theorem rank_device (h : a ∈ processSections b .device file) : 3 ≤ a.rank ∧ a.rank ≤ 5 := by
  obtain rfl | rfl | rfl := mem_processSections h <;> simp [Act.rank]

/-- **What is accepted is in order**, each once. -/
theorem sorted_accepted : (accepted r b config).Pairwise fun a a' => a.rank < a'.rank := by
  have hcommon : ((commonFile r b config).map (processSections b .common)).getD [] = [] ∨
      ∃ file, ((commonFile r b config).map (processSections b .common)).getD [] = processSections b .common file := by
    cases commonFile r b config with
    | none => exact .inl rfl
    | some file => exact .inr ⟨file, rfl⟩
  have hsorted : (((commonFile r b config).map (processSections b .common)).getD [] ++
      processSections b .device config).Pairwise fun a a' => a.rank < a'.rank := by
    obtain heq | ⟨file, heq⟩ := hcommon
    · rw [heq]
      exact sorted_processSections .device config
    · rw [heq, List.pairwise_append]
      exact ⟨sorted_processSections .common file, sorted_processSections .device config, fun a ha a' ha' =>
        Nat.lt_of_le_of_lt (rank_common ha) (rank_device ha').1⟩
  have hsections : ∀ a ∈ ((commonFile r b config).map (processSections b .common)).getD [] ++
      processSections b .device config, a.rank < Act.complete.rank := by
    intro a ha
    have hrank : Act.complete.rank = 6 := rfl
    obtain ha | ha := List.mem_append.mp ha
    · obtain heq | ⟨file, heq⟩ := hcommon
      · rw [heq] at ha
        cases ha
      · have hle := rank_common (heq ▸ ha)
        omega
    · have hle := (rank_device ha).2
      omega
  have hmark : Act.complete.rank < Act.reboot.rank := by decide
  unfold accepted
  split <;> split <;> simp only [List.pairwise_append, List.mem_append, List.append_nil, List.mem_singleton,
    forall_eq, List.pairwise_singleton, true_and]
  · exact ⟨⟨List.pairwise_append.mp hsorted, fun a ha => hsections a (List.mem_append.mpr ha)⟩, fun a ha =>
      ha.elim (fun ha => (hsections a (List.mem_append.mpr ha)).trans hmark) fun ha => ha ▸ hmark⟩
  · exact ⟨List.pairwise_append.mp hsorted, fun a ha => hsections a (List.mem_append.mpr ha)⟩
  · exact ⟨List.pairwise_append.mp hsorted, fun a ha => (hsections a (List.mem_append.mpr ha)).trans hmark⟩
  · exact List.pairwise_append.mp hsorted

/-- What a boot is to carry out was accepted. -/
theorem accepted_of_doProvisioning {camera : List Line} (h : a ∈ doProvisioning r b camera) :
    ∃ config, configFile b = some config ∧ hasMarker config = true ∧ processAuth r b config = true ∧
      doProvisioning r b camera = accepted r b config := by
  unfold doProvisioning at h ⊢
  split
  · rename_i hcomplete
    rw [if_pos hcomplete] at h
    cases h
  · rename_i hcomplete
    rw [if_neg hcomplete] at h
    split
    · rename_i hserver
      rw [if_pos hserver] at h
      cases h
    · rename_i hserver
      rw [if_neg hserver] at h
      cases hconfig : configFile b with
      | none =>
        rw [hconfig] at h
        cases h
      | some config =>
        rw [hconfig] at h
        dsimp only at h ⊢
        split at h
        · rename_i hok
          obtain ⟨hmarker, hauth⟩ := Bool.and_eq_true_iff.mp hok
          exact ⟨config, rfl, hmarker, hauth, if_pos hok⟩
        · cases h

end Allowed

/-! ### Runs -/

section Runs
variable {r : Remainder} {b : Boot} {s s' : State} {a : Act} {camera : List Line}

theorem sorted_doProvisioning : (doProvisioning r b camera).Pairwise fun a a' => a.rank < a'.rank := by
  cases hacts : doProvisioning r b camera with
  | nil => exact List.Pairwise.nil
  | cons a acts =>
    obtain ⟨config, -, -, -, heq⟩ := accepted_of_doProvisioning (hacts ▸ List.mem_cons_self)
    rw [← hacts, heq]
    exact sorted_accepted

/-- **The property** of a run: each act is that of a boot with the right to it, its lines come from its own section, a
boot goes through its acts in order, and behind the mark there is nothing but the reboot. -/
structure Rightful (r : Remainder) (s : State) : Prop where
  authentic : ∀ x ∈ s.log, Authentic r x.1
  drawn : ∀ x ∈ s.log, Drawn r x.1 x.2
  inOrder : (s.done.reverse ++ s.pending).Pairwise fun a a' => a.rank < a'.rank
  markLast : .complete ∈ s.done → ∀ a ∈ s.pending, a = .reboot

/-- A boot that is under way. -/
def UnderWay (r : Remainder) (s : State) (b : Boot) : Prop :=
  ∃ camera, s.done.reverse ++ s.pending = doProvisioning r b camera

structure Inv (r : Remainder) (s : State) : Prop where
  authentic : ∀ x ∈ s.log, Authentic r x.1
  drawn : ∀ x ∈ s.log, Drawn r x.1 x.2
  current : ∀ b, s.boot = some b → UnderWay r s b
  off : s.boot = none → s.pending = [] ∧ s.done = []

theorem step_go {o : Outcome} (h : step r s (.go o) = some s') :
    ∃ b a pending, s.boot = some b ∧ s.pending = a :: pending ∧ s' = carriedOut s o b a pending := by
  unfold step at h
  dsimp only at h
  split at h
  · rename_i b a pending hboot hpending
    exact ⟨b, a, pending, hboot, hpending, (Option.some.inj h).symm⟩
  · cases h

theorem inv_step (h : Inv r s) {e : Event} (hstep : step r s e = some s') : Inv r s' := by
  cases e with
  | boot b =>
    obtain rfl := Option.some.inj hstep
    exact ⟨h.authentic, h.drawn, fun b' hb' => Option.some.inj hb' ▸ ⟨s.file, rfl⟩, nofun⟩
  | go o =>
    obtain ⟨b, a, pending, hboot, hpending, rfl⟩ := step_go hstep
    obtain ⟨camera, hacts⟩ := h.current b hboot
    have hmem : a ∈ doProvisioning r b camera := by
      rw [← hacts, hpending]
      exact List.mem_append_right _ List.mem_cons_self
    obtain ⟨config, hconfig, hmarker, hauth, heq⟩ := accepted_of_doProvisioning hmem
    obtain ⟨hhash, hsets⟩ := processAuth_sets hauth
    refine ⟨List.forall_mem_cons.mpr ⟨⟨hhash, config, hconfig, hmarker, hsets⟩, h.authentic⟩,
      List.forall_mem_cons.mpr ⟨drawn_accepted hconfig (heq ▸ hmem), h.drawn⟩, fun b' hb' => ?_, fun hnone => ?_⟩
    · obtain rfl := Option.some.inj (hboot.symm.trans hb')
      refine ⟨camera, ?_⟩
      rw [← hacts, hpending]
      exact (congrArg (· ++ pending) List.reverse_cons).trans (List.append_assoc _ _ _)
    · exact absurd (hboot.symm.trans hnone) nofun
  | edit file =>
    obtain rfl := Option.some.inj hstep
    exact ⟨h.authentic, h.drawn, h.current, h.off⟩

theorem eq_reboot_of_rank (h : Act.complete.rank < a.rank) : a = .reboot := by
  cases a with
  | reboot => rfl
  | complete => exact absurd h (lt_irrefl _)
  | uenv source script => cases source <;> simp [Act.rank] at h
  | system source script => cases source <;> simp [Act.rank] at h
  | user source script => cases source <;> simp [Act.rank] at h

theorem Inv.sorted (h : Inv r s) : (s.done.reverse ++ s.pending).Pairwise fun a a' => a.rank < a'.rank := by
  cases hboot : s.boot with
  | none =>
    obtain ⟨hpending, hdone⟩ := h.off hboot
    rw [hpending, hdone]
    exact List.Pairwise.nil
  | some b =>
    obtain ⟨camera, hacts⟩ := h.current b hboot
    exact hacts ▸ sorted_doProvisioning

theorem inv_of_reach {ok : State → Event → Prop} {file : List Line} (h : Reach (step r) ok (initial file) s) :
    Inv r s :=
  h.invariant ⟨nofun, nofun, nofun, fun _ => ⟨rfl, rfl⟩⟩ fun _ _ _ hinv _ hstep => inv_step hinv hstep

theorem provisioned_by_right {file : List Line} (h : Reach (step r) (fun _ _ => True) (initial file) s) :
    Rightful r s := by
  have hinv := inv_of_reach h
  refine ⟨hinv.authentic, hinv.drawn, hinv.sorted, fun hmark a ha => ?_⟩
  exact eq_reboot_of_rank ((List.pairwise_append.mp hinv.sorted).2.2 _ (List.mem_reverse.mpr hmark) a ha)

def doorConfig : List Byte :=
  ascii "!THINGINO-CONFIG\n[AUTH]\npassword_hash=ab\n[SYSTEM]\nhostname=door\n"

/-- A camera at the door, and a server with a configuration for it. -/
def door : Boot where
  hash := ascii "ab"
  server := ascii "http://srv"
  usb0 := none
  eth0 := some (some (ascii "A0:B1\n"))
  wlan0 := none
  fetch _ url := if url = ascii "http://srv/thingino-a0b1.conf" then some doorConfig else none
  hasConf := true
  hasSetenv := true

/-- Switched off in front of the mark, the camera begins again. -/
theorem provisioned_by_right_door : ∃ s : State, s.log.map Prod.snd =
      [.reboot, .complete, .system .device [ascii "hostname=door"], .system .device [ascii "hostname=door"]] ∧
    Rightful ⟨id, fun _ _ => rfl⟩ s := by
  obtain ⟨s, hreach, hlog⟩ : ∃ s, Reach (step ⟨id, fun _ _ => rfl⟩) (fun _ _ => True) (initial []) s ∧
      s.log.map Prod.snd =
        [.reboot, .complete, .system .device [ascii "hostname=door"], .system .device [ascii "hostname=door"]] :=
    exists_reach [.boot door, .go ⟨true, []⟩, .boot door, .go ⟨true, []⟩, .go ⟨true, []⟩, .go ⟨true, []⟩]
      (by decide +kernel)
  exact ⟨s, hlog, provisioned_by_right hreach⟩

/-! ### The mark -/

/-- A camera with the tool; no script has the bare key of the mark, and whoever else writes the configuration leaves one
line for it at most. -/
def Careful (r : Remainder) (s : State) : Event → Prop
  | .boot b => b.hasConf = true ∧
      (doProvisioning r b s.file).all fun a => match a with
        | .system _ script => !script.contains mark.name
        | _ => true
  | .go o =>
    match s.pending with
    | .user _ _ :: _ => Tidy mark o.left
    | _ => True
  | .edit file => Tidy mark file

instance (s : State) (e : Event) : Decidable (Careful r s e) := by
  unfold Careful
  split
  · infer_instance
  · split <;> infer_instance
  · infer_instance

/-- What is to be carried out before the mark and behind it. -/
structure Marked (s : State) : Prop where
  scripts : ∀ source script, .system source script ∈ s.pending → script ≠ [] ∧ mark.name ∉ script
  before : s.after = none → Tidy mark s.file
  behind : ∀ acts, s.after = some acts → isComplete s.file = true ∧
    (acts = [] ∧ (∀ a ∈ s.pending, a = .reboot) ∨ acts = [.reboot] ∧ s.pending = [])

theorem script_ne_nil {source : Source} {script : List Line} (h : .system source script ∈ doProvisioning r b camera) :
    script ≠ [] := by
  obtain ⟨config, -, -, -, heq⟩ := accepted_of_doProvisioning h
  rw [heq] at h
  have hsection {file : List Byte} {source' : Source} (h : .system source script ∈ processSections b source' file) :
      script ≠ [] := by
    rw [processSections, List.mem_append, List.mem_append] at h
    obtain (h | h) | h := h
    · cases eq_of_mem_processUenv h
    · obtain ⟨heq, hne⟩ := eq_of_mem_processSystem h
      cases heq
      exact hne
    · cases eq_of_mem_processUser h
  obtain ⟨file, -, hmem⟩ | hmem | heq | heq := mem_accepted h
  · exact hsection hmem
  · exact hsection hmem
  · cases heq
  · cases heq

theorem doProvisioning_of_isComplete (hconf : b.hasConf = true) (h : isComplete camera = true) :
    doProvisioning r b camera = [] := if_pos (by rw [hconf, h]; rfl)

/-- An act in front of the mark. -/
theorem marked_before (h : Marked s) (hafter : s.after = none) {o : Outcome} {pending : List Act}
    (hpending : s.pending = a :: pending) (hsorted : (a :: pending).Pairwise fun a a' => a.rank < a'.rank)
    (hcareful : Careful r s (.go o)) : Marked (carriedOut s o b a pending) := by
  have htidy := h.before hafter
  have hscripts := h.scripts
  rw [hpending] at hscripts
  have hrest : ∀ source script, .system source script ∈ pending → script ≠ [] ∧ mark.name ∉ script :=
    fun source script hmem => hscripts source script (List.mem_cons_of_mem a hmem)
  have hunmarked (hne : ¬(a = .complete ∧ o.ok = true)) (hfile : Tidy mark (effect o s.file a)) :
      Marked (carriedOut s o b a pending) := by
    have hnone : (carriedOut s o b a pending).after = none := by
      rw [carriedOut, hafter]
      exact if_neg hne
    exact ⟨hrest, fun _ => hfile, fun acts hacts => absurd (hnone.symm.trans hacts) nofun⟩
  cases a with
  | uenv source script => exact hunmarked nofun htidy
  | reboot => exact hunmarked nofun htidy
  | user source script =>
    rw [Careful, hpending] at hcareful
    exact hunmarked nofun hcareful
  | system source script =>
    refine hunmarked nofun ?_
    obtain ⟨hne, hbare⟩ := hscripts source script List.mem_cons_self
    rw [effect]
    split
    · exact tidy_importScript hne hbare htidy
    · exact htidy
  | complete =>
    by_cases hok : o.ok = true
    · have hsome : (carriedOut s o b .complete pending).after = some [] := if_pos ⟨rfl, hok⟩
      have hfile : (carriedOut s o b .complete pending).file = set mark.name (ascii "true") s.file := if_pos hok
      refine ⟨hrest, fun hnone => absurd (hsome.symm.trans hnone) nofun, fun acts hacts => ?_⟩
      obtain rfl := Option.some.inj (hsome.symm.trans hacts)
      rw [hfile]
      exact ⟨isComplete_complete htidy, .inl ⟨rfl, fun a ha =>
        eq_reboot_of_rank ((List.pairwise_cons.mp hsorted).1 a ha)⟩⟩
    · refine hunmarked (fun h => hok h.2) ?_
      rw [effect, if_neg hok]
      exact htidy

/-- An act behind it. -/
theorem marked_behind (h : Marked s) {acts : List Act} (hafter : s.after = some acts) {o : Outcome}
    {pending : List Act} (hpending : s.pending = a :: pending)
    (hsorted : (a :: pending).Pairwise fun a a' => a.rank < a'.rank) : Marked (carriedOut s o b a pending) := by
  obtain ⟨hcomplete, ⟨rfl, hall⟩ | ⟨-, hnil⟩⟩ := h.behind acts hafter
  · rw [hpending] at hall
    obtain ⟨rfl, hrest⟩ := List.forall_mem_cons.mp hall
    have hnil : pending = [] := List.eq_nil_iff_forall_not_mem.mpr fun a' ha' => by
      have hlt := (List.pairwise_cons.mp hsorted).1 a' ha'
      rw [hrest a' ha'] at hlt
      exact lt_irrefl _ hlt
    have hsome : (carriedOut s o b .reboot pending).after = some [.reboot] := by
      rw [carriedOut, hafter]
      rfl
    subst hnil
    refine ⟨nofun, fun hnone => absurd (hsome.symm.trans hnone) nofun, fun acts hacts => ?_⟩
    obtain rfl := Option.some.inj (hsome.symm.trans hacts)
    exact ⟨hcomplete, .inr ⟨rfl, rfl⟩⟩
  · rw [hpending] at hnil
    cases hnil

theorem marked_step (h : Marked s) (hinv : Inv r s) {e : Event} (hcareful : Careful r s e)
    (hstep : step r s e = some s') : Marked s' := by
  cases e with
  | boot b =>
    obtain rfl := Option.some.inj hstep
    obtain ⟨hconf, hscripts⟩ := hcareful
    refine ⟨fun source script hmem => ⟨script_ne_nil hmem, fun hbare => ?_⟩, h.before, fun acts hacts => ?_⟩
    · have hnot := List.all_eq_true.mp hscripts _ hmem
      rw [Bool.not_eq_true', ← Bool.not_eq_true, List.contains_iff_mem] at hnot
      exact hnot hbare
    · obtain ⟨hcomplete, hrest⟩ := h.behind acts hacts
      have hnil : doProvisioning r b s.file = [] := doProvisioning_of_isComplete hconf hcomplete
      refine ⟨hcomplete, hrest.imp (fun hacts => ⟨hacts.1, ?_⟩) fun hacts => ⟨hacts.1, hnil⟩⟩
      rw [hnil]
      exact nofun
  | go o =>
    obtain ⟨b, a, pending, hboot, hpending, rfl⟩ := step_go hstep
    have hsorted := (List.pairwise_append.mp hinv.sorted).2.1
    rw [hpending] at hsorted
    cases hafter : s.after with
    | none => exact marked_before h hafter hpending hsorted hcareful
    | some acts => exact marked_behind h hafter hpending hsorted
  | edit file =>
    obtain rfl := Option.some.inj hstep
    exact ⟨h.scripts, fun _ => hcareful, nofun⟩

theorem marked_of_reach {file : List Line} (htidy : Tidy mark file)
    (h : Reach (step r) (Careful r) (initial file) s) : Marked s := by
  induction h with
  | start => exact ⟨nofun, fun _ => htidy, nofun⟩
  | next hreach hcareful hstep ih => exact marked_step ih (inv_of_reach hreach) hcareful hstep

theorem provisioned_once {file : List Line} (htidy : Tidy mark file)
    (h : Reach (step r) (Careful r) (initial file) s) :
    ∀ acts, s.after = some acts → isComplete s.file = true ∧ (acts = [] ∨ acts = [.reboot]) := by
  intro acts hacts
  obtain ⟨hcomplete, hrest⟩ := (marked_of_reach htidy h).behind acts hacts
  exact ⟨hcomplete, hrest.imp And.left And.left⟩

theorem provisioned_once_door : ∃ s : State, s.after = some [.reboot] ∧ isComplete s.file = true := by
  obtain ⟨s, hreach, hafter⟩ : ∃ s, Reach (step ⟨id, fun _ _ => rfl⟩) (Careful ⟨id, fun _ _ => rfl⟩) (initial []) s ∧
      s.after = some [.reboot] :=
    exists_reach [.boot door, .go ⟨true, []⟩, .go ⟨true, []⟩, .go ⟨true, []⟩, .boot door] (by decide +kernel)
  exact ⟨s, hafter, (provisioned_once (by decide +kernel) hreach _ hafter).1⟩

/-! ### The last word -/

variable {k : Ident}

/-- The tool can write, and a user's commands leave the lines of the key as they are. -/
def Keeps (k : Ident) (s : State) : Event → Prop
  | .go o => o.ok = true ∧
      match s.pending with
      | .user _ _ :: _ => Tidy k o.left ∧ linesOf k.name o.left = linesOf k.name s.file
      | _ => True
  | _ => False

instance (s : State) (e : Event) : Decidable (Keeps k s e) := by
  unfold Keeps
  split
  · split <;> infer_instance
  · infer_instance

/-- What an act makes of the lines of a key. -/
def rewritten (k : Ident) (file : List Line) : Act → List Line
  | .system _ script => ((scriptValue k script).map fun value => [entry k.name value]).getD file
  | _ => file

/-- One act. -/
theorem keeps_step (hk : k.name ≠ mark.name) (htidy : Tidy k s.file) {o : Outcome} {pending : List Act}
    (hpending : s.pending = a :: pending) (hkeeps : Keeps k s (.go o))
    (hscript : ∀ source script, a = .system source script → script ≠ [] ∧ k.name ∉ script) :
    Tidy k (effect o s.file a) ∧ linesOf k.name (effect o s.file a) = rewritten k (linesOf k.name s.file) a := by
  obtain ⟨hok, huser⟩ := hkeeps
  rw [hpending] at huser
  cases a with
  | uenv source script => exact ⟨htidy, rfl⟩
  | reboot => exact ⟨htidy, rfl⟩
  | user source script => exact huser
  | system source script =>
    obtain ⟨hne, hbare⟩ := hscript source script rfl
    rw [effect, if_pos hok, rewritten]
    refine ⟨tidy_importScript hne hbare htidy, ?_⟩
    rw [linesOf_import hne hbare htidy]
    cases scriptValue k script <;> rfl
  | complete =>
    rw [effect, if_pos hok]
    exact ⟨tidy_complete hk htidy, linesOf_complete_other hk htidy.one⟩

/-- How far a boot has come with the lines of a key. -/
structure Kept (k : Ident) (s₀ s : State) : Prop where
  tidy : Tidy k s.file
  lines : ∃ acts, acts ++ s.pending = s₀.pending ∧
    linesOf k.name s.file = acts.foldl (rewritten k) (linesOf k.name s₀.file)

theorem kept_step {s₀ : State} (hk : k.name ≠ mark.name)
    (hscripts : ∀ source script, .system source script ∈ s₀.pending → script ≠ [] ∧ k.name ∉ script)
    (h : Kept k s₀ s) {e : Event} (hkeeps : Keeps k s e) (hstep : step r s e = some s') : Kept k s₀ s' := by
  cases e with
  | boot b => exact hkeeps.elim
  | edit file => exact hkeeps.elim
  | go o =>
    obtain ⟨b, a, pending, -, hpending, rfl⟩ := step_go hstep
    obtain ⟨acts, hacts, hlines⟩ := h.lines
    rw [hpending] at hacts
    obtain ⟨htidy, hline⟩ := keeps_step hk h.tidy hpending hkeeps fun source script heq =>
      hscripts source script (by rw [← hacts, heq]; exact List.mem_append_right _ List.mem_cons_self)
    refine ⟨htidy, acts ++ [a], ?_, ?_⟩
    · rw [← hacts, List.append_assoc]
      rfl
    · rw [List.foldl_append, ← hlines]
      exact hline

/-- A source as a whole. -/
theorem rewritten_sections (hconf : b.hasConf = true) (source : Source) (file : List Byte) (ls : List Line) :
    (processSections b source file).foldl (rewritten k) ls =
      ((scriptValue k (parseSection (ascii "SYSTEM") file)).map fun value => [entry k.name value]).getD ls := by
  have huenv : (processUenv b source file).foldl (rewritten k) ls = ls := by
    unfold processUenv
    dsimp only
    split <;> rfl
  have huser (ls : List Line) : (processUser source file).foldl (rewritten k) ls = ls := by
    unfold processUser
    dsimp only
    split <;> rfl
  rw [processSections, List.foldl_append, List.foldl_append, huenv, huser, processSystem]
  split
  · rfl
  · rename_i hscript
    have hnil : parseSection (ascii "SYSTEM") file = [] := by
      by_contra hne
      exact hscript ⟨hne, hconf⟩
    rw [hnil]
    rfl

theorem device_overrides {config : List Byte} {s₀ : State} (hk : k.name ≠ mark.name) (hconf : b.hasConf = true)
    (hconfig : configFile b = some config) (hpending : s₀.pending = doProvisioning r b camera)
    (hsome : doProvisioning r b camera ≠ [])
    (hbare : ∀ source script, .system source script ∈ s₀.pending → k.name ∉ script)
    (htidy : Tidy k s₀.file) (h : Reach (step r) (Keeps k) s₀ s) (hdone : s.pending = []) :
    get k.name s.file =
      (((scriptValue k (parseSection (ascii "SYSTEM") config)).or
        ((commonFile r b config).bind fun file => scriptValue k (parseSection (ascii "SYSTEM") file))).map
          fun value => [shown (entry k.name value)]).getD (get k.name s₀.file) := by
  have hscripts : ∀ source script, .system source script ∈ s₀.pending → script ≠ [] ∧ k.name ∉ script :=
    fun source script hmem => ⟨script_ne_nil (hpending ▸ hmem), hbare source script hmem⟩
  obtain ⟨a, hmem⟩ := List.exists_mem_of_ne_nil _ hsome
  obtain ⟨config', hconfig', -, -, haccepted⟩ := accepted_of_doProvisioning hmem
  obtain rfl : config = config' := Option.some.inj (hconfig.symm.trans hconfig')
  have hkept : Kept k s₀ s := h.invariant ⟨htidy, [], rfl, rfl⟩ fun _ _ _ hkept hkeeps hstep =>
    kept_step hk hscripts hkept hkeeps hstep
  obtain ⟨acts, hacts, hlines⟩ := hkept.lines
  rw [hdone, List.append_nil, hpending, haccepted] at hacts
  have hmark (ls : List Line) : (if b.hasConf then [Act.complete] else []).foldl (rewritten k) ls = ls := by
    split <;> rfl
  have hreboot (ls : List Line) : (if (processProvision r config).reboot = ascii "true" then [Act.reboot] else []).foldl
      (rewritten k) ls = ls := by
    split <;> rfl
  rw [hacts, accepted, List.foldl_append, List.foldl_append, List.foldl_append, hmark, hreboot,
    rewritten_sections hconf] at hlines
  rw [get_eq, hlines, get_eq]
  cases scriptValue k (parseSection (ascii "SYSTEM") config) with
  | some value => rfl
  | none =>
    cases commonFile r b config with
    | none => rfl
    | some file =>
      rw [Option.map_some, Option.getD_some, rewritten_sections hconf, Option.bind_some]
      cases scriptValue k (parseSection (ascii "SYSTEM") file) <;> rfl

theorem device_overrides_door : ∃ s : State, get (ascii "hostname") s.file = [ascii "door"] := by
  let r₀ : Remainder := ⟨id, fun _ _ => rfl⟩
  let k₀ : Ident := ⟨ascii "hostname", by decide⟩
  let camera : List Line := [ascii "hostname='camera'"]
  let s₀ : State := ⟨camera, some door, doProvisioning r₀ door camera, [], [], none⟩
  obtain ⟨s, hreach, hdone⟩ : ∃ s, Reach (step r₀) (Keeps k₀) s₀ s ∧ s.pending = [] :=
    exists_reach (P := fun s : State => s.pending = []) (List.replicate 3 (Event.go ⟨true, []⟩)) (by decide +kernel)
  have hpending : s₀.pending = [.system .device [ascii "hostname=door"], .complete, .reboot] := by decide +kernel
  have hbare : ∀ source script, .system source script ∈ s₀.pending → ascii "hostname" ∉ script := by
    intro source script hmem
    rw [hpending] at hmem
    cases hmem with
    | head => decide +kernel
    | tail _ hmem => cases hmem with
      | tail _ hmem => cases hmem with
        | tail _ hmem => cases hmem
  have hconfig : configFile door = some doorConfig := by decide +kernel
  have hsome : doProvisioning r₀ door camera ≠ [] := by decide +kernel
  have hget := device_overrides (k := k₀) (by decide) rfl hconfig rfl hsome hbare (by decide +kernel) hreach hdone
  exact ⟨s, hget.trans (by decide +kernel)⟩

end Runs

end Thingino.System.Provisioning
