import Mathlib.Algebra.Order.Ring.Unbundled.Rat
import Thingino.Lib.CString

/-! The configuration of `daynightd`: a global structure that `read_config` fills.

`read_config` first sets every field to its default, the name of the configuration file among
them, then takes what the JSON file has, and checks the thresholds last of all. At startup a bad
file ends the program. On SIGHUP the handler calls it again, with a pointer to the very field that
holds the file's name, and looks at no result. The thresholds are rationals, rounded by
`toFloat`; the JSON reader `jct` is a function from paths to contents. -/
namespace Thingino.Daynightd
open Lib

def defaultDevice : List Byte := ascii "/dev/isp-m0"
def defaultConfigFile : List Byte := ascii "/etc/daynightd.json"
def defaultPidFile : List Byte := ascii "/run/daynightd.pid"
def defaultSampleIntervalMs : Int := 500

/-- A value as `jct` reads it; a number comes both as a real and as an integer. -/
inductive Json
  | string (text : List Byte)
  | number (real : ℚ) (integer : Int)
  | bool (boolean : Bool)
  | other

/-- `get_nested_item` on a loaded file. -/
abbrev Root := String → Option Json

/-- `load_config`: what it finds under a path. -/
abbrev Disk := List Byte → Option Root

structure Config where
  devicePath : List Byte
  configFile : List Byte
  pidFile : List Byte
  thresholdLow : ℚ
  thresholdHigh : ℚ
  sampleIntervalMs : Int
  transitionDelayS : Int
  hysteresisFactor : ℚ
  enableSyslog : Bool
  daemonMode : Bool
  logLevel : Int

/-- `strncpy` into a field of 256 bytes. -/
def copyPath (text : List Byte) : List Byte := text.take 255

/-- A conversion to `int`. -/
def toInt (n : Int) : Int := n.bmod 4294967296

namespace Config

/-- `memset` to 0. -/
def zero : Config := ⟨[], [], [], 0, 0, 0, 0, 0, false, false, 0⟩

/-- The defaults that `read_config` begins with. -/
def setDefaults (_ : Config) : Config where
  devicePath := defaultDevice
  configFile := defaultConfigFile
  pidFile := defaultPidFile
  thresholdLow := 30
  thresholdHigh := 70
  sampleIntervalMs := defaultSampleIntervalMs
  transitionDelayS := 5
  hysteresisFactor := 1 / 10
  enableSyslog := true
  daemonMode := true
  logLevel := 3

end Config

/-! ### `read_config` -/

def toUpper (b : Byte) : Byte := if 97 ≤ b.toNat ∧ b.toNat ≤ 122 then b - 32 else b

/-- `parse_debug_level_string`, with `none` for -1. -/
def parseDebugLevelString (s : List Byte) : Option Int :=
  let trimmed := ((s.dropWhile isSpace).reverse.dropWhile isSpace).reverse
  if trimmed.length = 0 ∨ 16 < trimmed.length then none
  else
    let buf := trimmed.map toUpper
    if buf = ascii "FATAL" then some 0
    else if buf = ascii "ERROR" then some 1
    else if buf = ascii "WARN" ∨ buf = ascii "WARNING" then some 2
    else if buf = ascii "INFO" then some 3
    else if buf = ascii "DEBUG" then some 4
    else if buf = ascii "TRACE" then some 5
    else none

namespace Root
variable (toFloat : ℚ → ℚ) (root : Root)

/-- A string field, for a path. -/
def path (key : String) (default : List Byte) : List Byte :=
  match root key with
  | some (.string text) => copyPath text
  | _ => default

def real (key : String) (default : ℚ) : ℚ :=
  match root key with
  | some (.number real _) => toFloat real
  | _ => default

def int (key : String) (default : Int) : Int :=
  match root key with
  | some (.number _ integer) => toInt integer
  | _ => default

def bool (key : String) (default : Bool) : Bool :=
  match root key with
  | some (.bool boolean) => boolean
  | _ => default

def logLevel : Int :=
  match root "system.debug_level" with
  | some (.string text) => (parseDebugLevelString text).getD 3
  | _ => 3

/-- What the file has, on top of what is there. -/
def fill (g : Config) : Config :=
  { g with
    devicePath := root.path "device_path" g.devicePath
    thresholdLow := root.real toFloat "brightness.threshold_low" g.thresholdLow
    thresholdHigh := root.real toFloat "brightness.threshold_high" g.thresholdHigh
    hysteresisFactor := root.real toFloat "brightness.hysteresis_factor" g.hysteresisFactor
    sampleIntervalMs := root.int "timing.sample_interval_ms" g.sampleIntervalMs
    transitionDelayS := root.int "timing.transition_delay_s" g.transitionDelayS
    enableSyslog := root.bool "system.enable_syslog" g.enableSyslog
    daemonMode := root.bool "system.daemon_mode" g.daemonMode
    logLevel := root.logLevel
    pidFile := root.path "system.pid_file" g.pidFile }

end Root

/-- The argument of `read_config`: a text of its own, or the field `config_file` itself. -/
inductive Argument
  | text (path : List Byte)
  | field

def Argument.deref (g : Config) : Argument → List Byte
  | .text path => path
  | .field => g.configFile

/-- The configuration that `read_config` leaves, what it returns, and the file it opened. -/
structure Reading where
  config : Config
  result : Int
  file : List Byte

/-- `read_config`. -/
def readConfig (toFloat : ℚ → ℚ) (disk : Disk) (configFile : Argument) (g : Config) : Reading :=
  let g := g.setDefaults
  let file := configFile.deref g
  match disk file with
  | none => ⟨g, 0, file⟩
  | some root =>
    let g := root.fill toFloat g
    if g.thresholdLow ≥ g.thresholdHigh then ⟨g, -1, file⟩
    else if g.sampleIntervalMs < 100 ∨ g.sampleIntervalMs > 60000 then
      ⟨{ g with sampleIntervalMs := defaultSampleIntervalMs }, 0, file⟩
    else ⟨g, 0, file⟩

/-! ### Startup and SIGHUP -/

/-- The command line; `exit` stands for `-h`, `-V` and what `getopt_long` does not know. -/
inductive Opt
  | config (path : List Byte)
  | device (path : List Byte)
  | foreground
  | pidFile (path : List Byte)
  | verbose
  | exit

structure CommandLine where
  config : Config
  configFile : List Byte
  foreground : Bool

/-- One option. -/
def CommandLine.take (a : CommandLine) : Opt → Option CommandLine
  | .config path => some { a with configFile := path }
  | .device path => some { a with config := { a.config with devicePath := copyPath path } }
  | .foreground => some { a with foreground := true }
  | .pidFile path => some { a with config := { a.config with pidFile := copyPath path } }
  | .verbose =>
    some { a with config := { a.config with
      logLevel := if a.config.logLevel < 5 then a.config.logLevel + 1 else a.config.logLevel } }
  | .exit => none

def CommandLine.parse (opts : List Opt) : Option CommandLine :=
  opts.foldlM CommandLine.take ⟨Config.zero, defaultConfigFile, false⟩

/-- `main` up to the main loop: the command line and the configuration in force, or none where
the program ends. -/
def start (toFloat : ℚ → ℚ) (disk : Disk) (opts : List Opt) : Option (CommandLine × Config) :=
  (CommandLine.parse opts).bind fun a =>
    let reading := readConfig toFloat disk (.text a.configFile) a.config
    if reading.result ≠ 0 then none
    else some (a, if a.foreground then { reading.config with daemonMode := false, enableSyslog := false }
      else reading.config)

/-- The handler of SIGHUP. -/
def reload (toFloat : ℚ → ℚ) (disk : Disk) (g : Config) : Reading := readConfig toFloat disk .field g

/-! ### What a reload may do -/

/-- What the main loop relies on. -/
structure Config.Valid (g : Config) : Prop where
  thresholds : g.thresholdLow < g.thresholdHigh
  least : 100 ≤ g.sampleIntervalMs
  most : g.sampleIntervalMs ≤ 60000

section Sound
variable (toFloat : ℚ → ℚ)

/-- The thresholds of a file are in order: those it has, and the defaults for those it lacks. -/
def Ordered : Option Root → Prop
  | none => True
  | some root => root.real toFloat "brightness.threshold_low" 30 < root.real toFloat "brightness.threshold_high" 70

/-- **The property**, for a sequence of SIGHUPs, each with the files it finds: the configuration in
force is valid throughout, a reload with bad thresholds leaves it as it was, and each reload opens the
file `given`. -/
def Sound (given : List Byte) (g : Config) : List Disk → Prop
  | [] => g.Valid
  | disk :: disks =>
    let reading := reload toFloat disk g
    g.Valid ∧ (¬Ordered toFloat (disk reading.file) → reading.config = g) ∧ reading.file = given ∧
      Sound given reading.config disks

variable {toFloat} {disk : Disk} {arg : Argument} {g : Config}

theorem defaultSampleIntervalMs_range : 100 ≤ defaultSampleIntervalMs ∧ defaultSampleIntervalMs ≤ 60000 := by decide

theorem valid_setDefaults (g : Config) : g.setDefaults.Valid :=
  ⟨(by decide : (30 : ℚ) < 70), defaultSampleIntervalMs_range.1, defaultSampleIntervalMs_range.2⟩

/-- What `read_config` leaves, by the order of the thresholds. -/
theorem readConfig_spec (toFloat : ℚ → ℚ) (disk : Disk) (arg : Argument) (g : Config) :
    (Ordered toFloat (disk (arg.deref g.setDefaults)) → (readConfig toFloat disk arg g).result = 0 ∧
      (readConfig toFloat disk arg g).config.Valid) ∧
    (¬Ordered toFloat (disk (arg.deref g.setDefaults)) → (readConfig toFloat disk arg g).result = -1 ∧
      ¬(readConfig toFloat disk arg g).config.Valid) := by
  unfold readConfig
  dsimp only
  cases disk (arg.deref g.setDefaults) with
  | none => exact ⟨fun _ => ⟨rfl, valid_setDefaults g⟩, fun h => absurd trivial h⟩
  | some root =>
    by_cases hlow : (root.fill toFloat g.setDefaults).thresholdLow ≥ (root.fill toFloat g.setDefaults).thresholdHigh
    · simp only [if_pos hlow]
      exact ⟨fun h => absurd h (not_lt_of_ge hlow), fun _ => ⟨trivial, fun h => absurd h.thresholds (not_lt_of_ge hlow)⟩⟩
    · have hordered : (root.fill toFloat g.setDefaults).thresholdLow < (root.fill toFloat g.setDefaults).thresholdHigh :=
        lt_of_not_ge hlow
      refine ⟨fun _ => ?_, fun h => absurd hordered h⟩
      simp only [if_neg hlow]
      split
      · exact ⟨rfl, hordered, defaultSampleIntervalMs_range.1, defaultSampleIntervalMs_range.2⟩
      · rename_i hrange
        rw [not_or] at hrange
        exact ⟨rfl, hordered, not_lt.mp hrange.1, not_lt.mp hrange.2⟩

theorem file_readConfig : (readConfig toFloat disk arg g).file = arg.deref g.setDefaults := by
  unfold readConfig
  dsimp only
  split
  · rfl
  · split
    · rfl
    · split <;> rfl

/-- The field that the handler points to has its default by the time it is read. -/
theorem file_reload : (reload toFloat disk g).file = defaultConfigFile := file_readConfig

theorem valid_reload_iff : (reload toFloat disk g).config.Valid ↔ Ordered toFloat (disk defaultConfigFile) := by
  obtain ⟨hgood, hbad⟩ := readConfig_spec toFloat disk .field g
  exact ⟨fun h => by_contra fun hnot => (hbad hnot).2 h, fun h => (hgood h).2⟩

theorem Sound.valid {given : List Byte} {disks : List Disk} (h : Sound toFloat given g disks) : g.Valid := by
  cases disks with
  | nil => exact h
  | cons => exact h.1

theorem sound_iff_of_valid {given : List Byte} (disks : List Disk) (hvalid : g.Valid) :
    Sound toFloat given g disks ↔
      (disks = [] ∨ given = defaultConfigFile) ∧ ∀ disk ∈ disks, Ordered toFloat (disk defaultConfigFile) := by
  induction disks generalizing g with
  | nil => exact ⟨fun _ => ⟨.inl rfl, fun _ => (nomatch ·)⟩, fun _ => hvalid⟩
  | cons disk disks ih =>
    constructor
    · rintro ⟨-, -, hfile, hrest⟩
      have hgiven : given = defaultConfigFile := hfile.symm.trans file_reload
      have hnext := hrest.valid
      refine ⟨.inr hgiven, fun d hd => ?_⟩
      cases hd with
      | head => exact valid_reload_iff.mp hnext
      | tail _ hd => exact ((ih hnext).mp hrest).2 d hd
    · rintro ⟨hgiven, hall⟩
      have hgiven : given = defaultConfigFile := hgiven.resolve_left (List.cons_ne_nil _ _)
      have hordered := hall disk List.mem_cons_self
      have hnext : (reload toFloat disk g).config.Valid := valid_reload_iff.mpr hordered
      refine ⟨hvalid, fun hbad => ?_, file_reload.trans hgiven.symm, ?_⟩
      · rw [file_reload] at hbad
        exact absurd hordered hbad
      · exact (ih hnext).mpr ⟨.inr hgiven, fun d hd => hall d (List.mem_cons_of_mem _ hd)⟩

/-- The program does not get into its main loop with a bad configuration. -/
theorem valid_start {opts : List Opt} {a : CommandLine} (h : start toFloat disk opts = some (a, g)) : g.Valid := by
  unfold start at h
  obtain ⟨a', -, h⟩ := Option.bind_eq_some_iff.mp h
  dsimp only at h
  split at h
  · cases h
  · rename_i hresult
    rw [not_not] at hresult
    obtain ⟨hgood, hbad⟩ := readConfig_spec toFloat disk (.text a'.configFile) a'.config
    have hvalid : (readConfig toFloat disk (.text a'.configFile) a'.config).config.Valid := by
      by_contra hnot
      have hone := (hbad fun h => hnot (hgood h).2).1
      rw [hresult] at hone
      cases hone
    cases h
    split
    · exact ⟨hvalid.thresholds, hvalid.least, hvalid.most⟩
    · exact hvalid

end Sound

/-- **Reloads are sound exactly when** there are none or the file given at startup is the default one,
and each finds the thresholds of that file in order. -/
theorem reload_sound_iff {toFloat : ℚ → ℚ} {disk : Disk} {opts : List Opt} {a : CommandLine} {g : Config}
    (h : start toFloat disk opts = some (a, g)) (disks : List Disk) :
    Sound toFloat a.configFile g disks ↔
      (disks = [] ∨ a.configFile = defaultConfigFile) ∧ ∀ disk ∈ disks, Ordered toFloat (disk defaultConfigFile) :=
  sound_iff_of_valid disks (valid_start h)

/-- A camera whose default file has these thresholds and nothing else. -/
def diskWith (low high : ℚ) : Disk := fun path =>
  if path = defaultConfigFile then
    some fun key =>
      if key = "brightness.threshold_low" then some (.number low 0)
      else if key = "brightness.threshold_high" then some (.number high 0)
      else none
  else none

theorem ordered_diskWith (toFloat : ℚ → ℚ) (low high : ℚ) :
    Ordered toFloat (diskWith low high defaultConfigFile) ↔ toFloat low < toFloat high := by
  rw [diskWith, if_pos rfl]
  simp [Ordered, Root.real]

/-- A start without `-c`, and a reload that finds other thresholds. -/
theorem sound_reload :
    ∃ a g, start id (diskWith 30 70) [.verbose] = some (a, g) ∧ Sound id a.configFile g [diskWith 20 80] := by
  have hany : (start id (diskWith 30 70) [.verbose]).any (fun s => s.1.configFile = defaultConfigFile) = true := by
    decide
  obtain ⟨⟨a, g⟩, hstart, hfile⟩ := Option.any_eq_true _ _ |>.mp hany
  refine ⟨a, g, hstart, (reload_sound_iff hstart [diskWith 20 80]).mpr ⟨.inr (of_decide_eq_true hfile), fun disk hdisk => ?_⟩⟩
  rw [List.mem_singleton.mp hdisk, ordered_diskWith]
  decide

/-- A start with `-c`, and a reload that finds the thresholds of the default file swapped: it takes
them, and from a file that was not given. -/
theorem reload_takes_other_file :
    ∃ a g, start id (diskWith 80 20) [.config (ascii "/mnt/daynightd.json")] = some (a, g) ∧
      ¬Sound id a.configFile g [diskWith 80 20] ∧ (reload id (diskWith 80 20) g).file ≠ a.configFile ∧
      (reload id (diskWith 80 20) g).config ≠ g ∧ ¬(reload id (diskWith 80 20) g).config.Valid := by
  have hany : (start id (diskWith 80 20) [.config (ascii "/mnt/daynightd.json")]).any
      (fun s => s.1.configFile ≠ defaultConfigFile) = true := by
    decide
  obtain ⟨⟨a, g⟩, hstart, hfile⟩ := Option.any_eq_true _ _ |>.mp hany
  have hother : a.configFile ≠ defaultConfigFile := of_decide_eq_true hfile
  have hinvalid : ¬(reload id (diskWith 80 20) g).config.Valid := by
    rw [valid_reload_iff, ordered_diskWith]
    decide
  refine ⟨a, g, hstart, fun h => ?_, fun h => ?_, fun h => ?_, hinvalid⟩
  · exact hinvalid h.2.2.2
  · exact hother (h.symm.trans file_reload)
  · rw [h] at hinvalid
    exact hinvalid (valid_start hstart)

end Thingino.Daynightd
