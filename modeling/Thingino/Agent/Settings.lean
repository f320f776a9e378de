import Thingino.Agent.Events
import Thingino.Lib.JsonText
import Thingino.Lib.Transition

/-! The settings of the agent: `get_setting` and `set_setting`.

A request names a setting by its path and gives a value in its body. The streamer gets an object with this one leaf;
when it has taken it, the configuration follows, unless what is there differs by its quotes at most. What is read
later comes from the configuration. The settings below `daynight/` and `privacy/` have no place in it and are not
among these.

A text goes to the configuration with its quotes, and `jct` stores them; so what is read of one later is not what was
set.

`settings_sound`: whatever is requested, and whatever fails, the streamer gets leaves of the right kind at the right
place only, and what it runs with is what is read and what is there behind a restart, but for the texts and for settings
that could not be written. -/
namespace Thingino.Agent.Settings
open Lib Lib.Shell Lib.JsonText
open Events (bool jsonString jsonStringOrNull jsonValueOr records oneLine_jsonString)

/-! ### The tables -/

inductive Kind
  | bool
  | int
  | text
  | format
  | mode
  deriving DecidableEq

/-- The end of the path, the key in the configuration, the field of the body, and the kind. -/
structure Row where
  path : List Byte
  key : List Byte
  response : List Byte
  kind : Kind

def row (path key response : String) (kind : Kind) : Row := ⟨ascii path, ascii key, ascii response, kind⟩

/-- A row of a group; the field of the body is the last key. -/
def elementRow (group path key : String) (kind : Kind) : Row :=
  ⟨ascii group ++ 47 :: ascii path, ascii group ++ 46 :: ascii key, ascii key, kind⟩

def imageSpec : List Row :=
  [row "brightness" "brightness" "brightness" .int, row "contrast" "contrast" "contrast" .int,
    row "saturation" "saturation" "saturation" .int, row "sharpness" "sharpness" "sharpness" .int,
    row "anti-flicker" "anti_flicker" "anti_flicker" .int, row "hflip" "hflip" "hflip" .bool,
    row "vflip" "vflip" "vflip" .bool]

def motionSpec : List Row :=
  [row "enabled" "enabled" "enabled" .bool, row "sensitivity" "sensitivity" "sensitivity" .int,
    row "cooldown-time" "cooldown_time" "cooldown_time" .int]

def streamSpec : List Row :=
  [row "enabled" "enabled" "enabled" .bool, row "audio-enabled" "audio_enabled" "audio_enabled" .bool,
    row "width" "width" "width" .int, row "height" "height" "height" .int, row "fps" "fps" "fps" .int,
    row "bitrate" "bitrate" "bitrate" .int, row "format" "format" "format" .format, row "mode" "mode" "mode" .mode]

def storageSpec : List Row :=
  [row "autostart" "autostart" "autostart" .bool, row "channel" "channel" "channel" .int,
    row "device-path" "device_path" "device_path" .text, row "duration" "duration" "duration" .int,
    row "filename" "filename" "filename" .text, row "mount" "mount" "mount" .text]

/-- The rows that `brightness`, `time`, `uptime` and `usertext` have. -/
def labelSpec (group : String) : List Row :=
  [elementRow group "enabled" "enabled" .bool, elementRow group "fill-color" "fill_color" .text,
    elementRow group "format" "format" .text, elementRow group "position" "position" .text,
    elementRow group "rotation" "rotation" .int, elementRow group "stroke-color" "stroke_color" .text]

def osdSpec : List Row :=
  [row "enabled" "enabled" "enabled" .bool, row "font-path" "font_path" "font_path" .text,
    row "font-size" "font_size" "font_size" .int, row "start-delay" "start_delay" "start_delay" .int,
    row "stroke-size" "stroke_size" "stroke_size" .int] ++
  labelSpec "brightness" ++ labelSpec "time" ++ labelSpec "uptime" ++ labelSpec "usertext" ++
  [elementRow "logo" "enabled" "enabled" .bool, elementRow "logo" "height" "height" .int,
    elementRow "logo" "path" "path" .text, elementRow "logo" "position" "position" .text,
    elementRow "logo" "rotation" "rotation" .int, elementRow "logo" "transparency" "transparency" .int,
    elementRow "logo" "width" "width" .int] ++
  [elementRow "privacy" "enabled" "enabled" .bool, elementRow "privacy" "fill-color" "fill_color" .text,
    elementRow "privacy" "font-size" "font_size" .int, elementRow "privacy" "image-height" "image_height" .int,
    elementRow "privacy" "image-path" "image_path" .text, elementRow "privacy" "image-width" "image_width" .int,
    elementRow "privacy" "layer" "layer" .int, elementRow "privacy" "opacity" "opacity" .int,
    elementRow "privacy" "position" "position" .text, elementRow "privacy" "rotation" "rotation" .int,
    elementRow "privacy" "stroke-color" "stroke_color" .text, elementRow "privacy" "stroke-size" "stroke_size" .int,
    elementRow "privacy" "text" "text" .text]

def services : List (List Byte) :=
  [ascii "email", ascii "ftp", ascii "gphotos", ascii "mqtt", ascii "ntfy", ascii "storage", ascii "telegram",
    ascii "webhook"]

/-- `send2_service_supported`, and `send2_service_has_send_video`, which knows the same ones. -/
def supported (service : List Byte) : Bool := services.contains service

/-- The streamer's own configuration, the recorder's section of it, or that of `send2`. -/
inductive Place
  | prudynt
  | recorder
  | send2
  deriving DecidableEq

/-- A setting: where it is, its keys from the outside in, the field that has it in a body and an answer, its kind, and
what is read when it is missing. -/
structure Setting where
  place : Place
  keys : List (List Byte)
  response : List Byte
  kind : Kind
  default : List Byte

def lookup (spec : List Row) (relative : List Byte) : Option Row := spec.find? fun r => r.path = relative

/-- `${path#lead}`, where it has this lead. -/
def after (lead path : List Byte) : Option (List Byte) :=
  if lead <+: path then some (path.drop lead.length) else none

/-- What `*` stands for in `lead*trail`. -/
def between (lead trail path : List Byte) : Option (List Byte) :=
  (after lead path).bind fun rest => if trail <:+ rest then some (rest.take (rest.length - trail.length)) else none

/-- `osd_payload` takes a key with a dot for a group and a leaf. -/
def osdKeys (key : List Byte) : List (List Byte) :=
  if key.contains 46 then [key.takeWhile (· ≠ 46), (key.dropWhile (· ≠ 46)).tail] else [key]

def streamKey (stream : Byte) : List Byte := ascii "stream" ++ [stream]

def flat (place : Place) (section_ : List Byte) (r : Row) : Setting :=
  ⟨place, [section_, r.key], r.response, r.kind, []⟩

def osdSetting (stream : Byte) (r : Row) : Setting :=
  ⟨.prudynt, streamKey stream :: ascii "osd" :: osdKeys r.key, r.response, r.kind, []⟩

/-- `send2_motion_key`. -/
def motionSetting (service : List Byte) : Setting :=
  ⟨.prudynt, [ascii "motion", ascii "send2" ++ service], ascii "enabled", .bool, ascii "false"⟩

def send2Setting (service field default : List Byte) : Setting := ⟨.send2, [service, field], field, .bool, default⟩

def streamSetting (stream : Byte) (relative : List Byte) : Option Setting :=
  match after (ascii "osd/") relative with
  | some relative => (lookup osdSpec relative).map (osdSetting stream)
  | none => (lookup streamSpec relative).map (flat .prudynt (streamKey stream))

/-- What the tables say of a path that is none of `send2`. -/
def tableSetting (path : List Byte) : Option Setting :=
  ((after (ascii "image/") path).bind fun relative =>
    (lookup imageSpec relative).map (flat .prudynt (ascii "image"))).or <|
  ((after (ascii "motion/") path).bind fun relative =>
    (lookup motionSpec relative).map (flat .prudynt (ascii "motion"))).or <|
  ((after (ascii "storage/") path).bind fun relative =>
    (lookup storageSpec relative).map (flat .recorder (ascii "recorder"))).or <|
  ((after (ascii "streams/0/") path).bind (streamSetting 48)).or <|
  (after (ascii "streams/1/") path).bind (streamSetting 49)

def checked (service : List Byte) (setting : Setting) : Except (List Byte) Setting :=
  if supported service then .ok setting else .error (ascii "unsupported send2 service: " ++ service)

/-- The `case` over the path. -/
def find (path : List Byte) : Except (List Byte) Setting :=
  match after (ascii "motion/outputs/send2/") path, between (ascii "send2/services/") (ascii "/send-photo") path,
    between (ascii "send2/services/") (ascii "/send-video") path with
  | some service, _, _ => checked service (motionSetting service)
  | none, some service, _ => checked service (send2Setting service (ascii "send_photo") (ascii "true"))
  | none, none, some service => checked service (send2Setting service (ascii "send_video") (ascii "false"))
  | none, none, none =>
    match tableSetting path with
    | some setting => .ok setting
    | none => .error (ascii "unsupported setting path: " ++ path)

/-! ### Values -/

/-- `tr -d '"'`. -/
def unquoteString (s : List Byte) : List Byte := s.filter (· ≠ 34)

def upper (s : List Byte) : List Byte := s.map fun b => if 97 ≤ b.toNat ∧ b.toNat ≤ 122 then b - 32 else b

def formats : List (List Byte) := [ascii "H264", ascii "H265"]

def modes : List (List Byte) :=
  [ascii "CBR", ascii "VBR", ascii "SMART", ascii "FIXQP", ascii "CAPPED_VBR", ascii "CAPPED_QUALITY"]

def isIntText (s : List Byte) : Bool := s ≠ [] && s.all fun b => isDigit b || b = 45

/-- What a value is for the streamer, for the configuration, and in the answer. -/
structure Accepted where
  leaf : List Byte
  stored : List Byte
  shown : List Byte
  deriving DecidableEq

/-- `case "$value" in …`, for a word in upper case. -/
def word (words : List (List Byte)) (message : List Byte) (raw : List Byte) : Except (List Byte) Accepted :=
  let value := upper (unquoteString raw)
  if words.contains value then .ok ⟨34 :: (value ++ [34]), value, jsonString value⟩ else .error message

/-- `validate_bool`, `validate_int`, `validate_stream_format`, `validate_stream_mode` and the `text` of the tables. -/
def jsonValue (kind : Kind) (raw : List Byte) : Except (List Byte) Accepted :=
  match kind with
  | .bool =>
    if raw = ascii "true" ∨ raw = ascii "false" then .ok ⟨raw, raw, raw⟩ else .error (ascii "boolean value required")
  | .int =>
    if isIntText raw then .ok ⟨raw, raw, raw⟩ else .error (ascii "integer value required")
  | .text =>
    let value := jsonString (unquoteString raw)
    .ok ⟨value, value, value⟩
  | .format => word formats (ascii "stream format must be H264 or H265") raw
  | .mode =>
    word modes (ascii "stream mode must be CBR, VBR, SMART, FIXQP, CAPPED_VBR, or CAPPED_QUALITY") raw

/-- An object with one leaf. -/
def payload : List (List Byte) → List Byte → List Byte
  | [], leaf => leaf
  | key :: keys, leaf => 123 :: ((34 :: (key ++ [34]) ++ 58 :: payload keys leaf) ++ [125])

/-- The path of a leaf, as `jct` takes it. -/
def dotted (keys : List (List Byte)) : List Byte := [46].intercalate keys

/-! ### The store -/

/-- `tr -d '\n\r'`. -/
def onOneLine (s : List Byte) : List Byte := s.filter fun b => b ≠ 10 && b ≠ 13

/-- A value that is read as it was written: a bool, an integer that `jct` itself printed, and one of the words, which are
bare. -/
inductive Writable (prints : List Byte → Prop) : List Byte → Prop
  | bool (b : Bool) : Writable prints (bool b)
  | int {s : List Byte} (hprints : prints s) (hint : isIntText (onOneLine s) = true) : Writable prints (onOneLine s)
  | word {s : List Byte} (hword : s ∈ formats ∨ s ∈ modes) : Writable prints s

/-- `jct` on a JSON file. It prints JSON, or nothing where there is nothing; a leaf that was set is printed again, but
for its quotes, and what is neither below nor above it stays. -/
structure Jct (σ : Type) where
  get : σ → List Byte → List Byte
  set : σ → List Byte → List Byte → σ
  printed : ∀ s path, get s path = [] ∨ ∃ v, IsJson (get s path) v
  same : ∀ s path v, Writable (fun t => ∃ s path, get s path = t) v →
    output (unquoteString (get (set s path v) path)) = unquoteString v
  other : ∀ s path path' v, ¬path.splitOn 46 <+: path'.splitOn 46 → ¬path'.splitOn 46 <+: path.splitOn 46 →
    get (set s path v) path' = get s path'

/-! ### Requests -/

variable {σ : Type}

/-- `live` is what the streamer was given since it started, by keys, and `lost` tells whether the configuration could
not follow. `sent` is the history. -/
structure State (σ : Type) where
  config : σ
  send2 : σ
  live : List (List Byte) → Option (List Byte)
  lost : List (List Byte) → Bool
  sent : List (List Byte)

/-- What `prudyntctl` makes of an object. -/
inductive Reached
  | unavailable
  | refused
  | applied
  deriving DecidableEq

/-- The body, what `grep` says of its text, and what happens on the way. -/
structure Request (σ : Type) where
  path : List Byte
  body : σ
  saysEmpty : Bool
  reached : Reached
  hasConfig : Bool
  hasSend2 : Bool
  written : Bool

variable (jct : Jct σ)

def configValue (s : σ) (path : List Byte) : List Byte := onOneLine (jct.get s path)

/-- `setting_value`, and what the recorder's texts have instead. -/
def settingValue (setting : Setting) (r : Request σ) : Except (List Byte) (List Byte) :=
  let value := configValue jct r.body setting.response
  if value ≠ [] then .ok value
  else if setting.place = .recorder && setting.kind = .text && r.saysEmpty then .ok (ascii "\"\"")
  else .error (ascii "missing field '" ++ setting.response ++ ascii "'")

/-- `persist_value`, which writes on a change only. -/
def persistValue (s : State σ) (r : Request σ) (keys : List (List Byte)) (value : List Byte) : State σ :=
  let lose (b : Bool) (k : List (List Byte)) : Bool := if k = keys then b else s.lost k
  if r.hasConfig && value ≠ [] then
    if output (unquoteString (jct.get s.config (dotted keys))) = output (unquoteString value) then
      { s with lost := lose false }
    else if r.written then { s with config := jct.set s.config (dotted keys) value, lost := lose false }
    else { s with lost := lose true }
  else { s with lost := lose true }

def settingPathLabel (path : List Byte) : List Byte := path.map fun b => if b = 47 then 46 else b

def printSettingLeaf (key value : List Byte) : List Byte :=
  ascii "\x7b\"" ++ key ++ ascii "\":" ++ jsonValueOr value (ascii "null") ++ ascii "\x7d\n"

def printSettingText (key text : List Byte) : List Byte :=
  ascii "\x7b\"" ++ key ++ ascii "\":" ++ jsonStringOrNull text ++ ascii "\x7d\n"

def printSettingUpdate (path key value : List Byte) : List Byte :=
  ascii "\x7b\"status\":\"accepted\",\"applied\":[\"settings." ++ settingPathLabel path ++
    ascii "\"],\"staged\":[],\"restart_required\":[],\"resource\":\x7b\"" ++ key ++ ascii "\":" ++
    jsonValueOr value (ascii "null") ++ ascii "\x7d\x7d\n"

/-- `set_setting`; `path` is a global variable there, and `persist_value` puts the keys into it. -/
def setSetting (s : State σ) (r : Request σ) : State σ × Except (List Byte) (List Byte) :=
  match find r.path with
  | .error message => (s, .error message)
  | .ok setting =>
    match (settingValue jct setting r).bind (jsonValue setting.kind) with
    | .error message => (s, .error message)
    | .ok value =>
      match setting.place with
      | .send2 =>
        if r.hasSend2 && !r.written then (s, .error (ascii "failed to persist send2 configuration"))
        else
          ({ s with send2 := if r.hasSend2 then jct.set s.send2 (dotted setting.keys) value.stored else s.send2 },
            .ok (printSettingUpdate r.path setting.response value.shown))
      | _ =>
        let object := payload setting.keys value.leaf
        match r.reached with
        | .unavailable => (s, .error (ascii "prudyntctl is not available"))
        | .refused =>
          ({ s with sent := object :: s.sent }, .error (ascii "failed to apply prudynt runtime configuration"))
        | .applied =>
          let given : State σ :=
            { s with
              live := fun keys => if keys = setting.keys then some value.leaf else s.live keys
              sent := object :: s.sent }
          (persistValue jct given r setting.keys value.stored,
            .ok (printSettingUpdate (if setting.place = .recorder then r.path else dotted setting.keys) setting.response
              value.shown))

/-- `get_setting`. -/
def getSetting (s : State σ) (path : List Byte) : Except (List Byte) (List Byte) :=
  match find path with
  | .error message => .error message
  | .ok setting =>
    let raw := configValue jct (if setting.place = .send2 then s.send2 else s.config) (dotted setting.keys)
    match setting.kind with
    | .bool | .int => .ok (printSettingLeaf setting.response (jsonValueOr raw setting.default))
    | .text | .format | .mode => .ok (printSettingText setting.response (unquoteString raw))

inductive Event (σ : Type)
  | set (r : Request σ)
  | restart

/-- `daynight/*` and `privacy/*`, which have no place in a configuration. -/
def elsewhere (path : List Byte) : Bool := ascii "daynight/" <+: path || ascii "privacy/" <+: path

/-- A restart of the streamer takes it back to its configuration. -/
def step (s : State σ) : Event σ → Option (State σ)
  | .set r => if elsewhere r.path then none else some (setSetting jct s r).1
  | .restart => some { s with live := fun _ => none, lost := fun _ => false }

def initial (config send2 : σ) : State σ := ⟨config, send2, fun _ => none, fun _ => false, []⟩

/-! ### What is written -/

def Kind.Holds : Kind → Value → Prop
  | .bool, v => ∃ b, v = .bool b
  | .int, v => ∃ sign int, v = .number (sign ++ int) ∧ (sign = [] ∨ sign = [45]) ∧ isInt int = true
  | .text, v => ∃ t, v = .string t
  | .format, v => ∃ w ∈ formats, v = .string w
  | .mode, v => ∃ w ∈ modes, v = .string w

/-- The object that has this leaf only. -/
def nest : List (List Byte) → Value → Value
  | [], v => v
  | key :: keys, v => .object [(key, nest keys v)]

section Text
variable {t : List Byte}

theorem low_of_isPrinted {b : Byte} (h : isPrinted b = true) (htab : b ≠ 9) (hten : b ≠ 10) (hreturn : b ≠ 13) :
    0x20 ≤ b.toNat := by
  unfold isPrinted isWs at h
  simp only [Bool.or_eq_true, decide_eq_true_eq] at h
  obtain hlow | ((rfl | htab') | hten') | hreturn' := h
  · exact hlow
  · decide
  · exact absurd htab' htab
  · exact absurd hten' hten
  · exact absurd hreturn' hreturn

theorem jsonString_line (h : 10 ∉ t) : jsonString t = 34 :: (t.flatMap Events.escapeByte ++ [34]) := by
  have hsplit : t.splitOn 10 = [t] := Lines.splitOn_line h
  unfold jsonString records
  rw [hsplit]
  split
  · rename_i hnil
    have hnil : t = [] := Option.some.inj hnil
    subst hnil
    rfl
  · rw [List.map_singleton, List.intercalate_singleton]
    rfl

theorem chars_escapeByte (h : t.all isPrinted = true) (hline : 10 ∉ t) : Chars (t.flatMap Events.escapeByte) t := by
  induction t with
  | nil => exact Chars.nil
  | cons b t ih =>
    rw [List.all_cons, Bool.and_eq_true] at h
    have ih := ih h.2 fun hmem => hline (List.mem_cons_of_mem b hmem)
    rw [List.flatMap_cons, Events.escapeByte]
    split
    · rename_i hb
      subst hb
      exact Chars.escape (by decide) ih
    split
    · rename_i hb
      subst hb
      exact Chars.escape (by decide) ih
    split
    · rename_i hb
      subst hb
      exact Chars.escape (by decide) ih
    split
    · rename_i hb
      subst hb
      exact Chars.escape (by decide) ih
    · rename_i hback hquote htab hreturn
      have hten : b ≠ 10 := fun hb => hline (hb ▸ List.mem_cons_self)
      exact Chars.byte (low_of_isPrinted h.1 htab hten hreturn) hquote hback ih

theorem denotes_jsonString (h : t.all isPrinted = true) (hline : 10 ∉ t) :
    Denotes (.value (.string t)) (jsonString t) := by
  rw [jsonString_line hline]
  exact Denotes.string (chars_escapeByte h hline)

theorem unquoteString_quoted (h : 34 ∉ t) : unquoteString (34 :: (t ++ [34])) = t := by
  have hself : t.filter (· ≠ 34) = t :=
    List.filter_eq_self.mpr fun b hb => decide_eq_true fun hb' => h (hb' ▸ hb)
  rw [unquoteString, List.filter_cons_of_neg (by decide), List.filter_append, hself]
  exact List.append_nil t

end Text

/-! ### Values that are accepted -/

section Values
variable {σ : Type} {jct : Jct σ} {setting : Setting} {r : Request σ} {raw : List Byte} {kind : Kind}
  {value : Accepted}

/-- What a body says of a field. -/
def Raw (jct : Jct σ) (raw : List Byte) : Prop :=
  raw = ascii "\"\"" ∨ ∃ s path v, IsJson (jct.get s path) v ∧ raw = onOneLine (jct.get s path)

/-- **What an accepted value is**: a leaf of its kind, which the answer shows, and which is stored but for its
quotes. -/
structure Good (jct : Jct σ) (kind : Kind) (value : Accepted) : Prop where
  typed : ∃ v, Denotes (.value v) value.leaf ∧ kind.Holds v
  shown : value.shown = value.leaf
  stored : unquoteString value.stored = unquoteString value.leaf
  line : 10 ∉ value.leaf ∧ 13 ∉ value.leaf
  nonempty : value.stored ≠ [] ∧ value.leaf ≠ [] ∧ (kind = .bool ∨ kind = .int → unquoteString value.leaf ≠ [])
  writable : kind ≠ .text → Writable (fun t => ∃ s path, jct.get s path = t) value.stored

theorem raw_of_settingValue (h : settingValue jct setting r = .ok raw) : Raw jct raw ∧ raw ≠ [] := by
  unfold settingValue at h
  dsimp only at h
  split at h
  · rename_i hsome
    obtain rfl := Except.ok.inj h
    refine ⟨.inr ?_, hsome⟩
    obtain hnil | ⟨v, hv⟩ := jct.printed r.body setting.response
    · exact absurd (by rw [configValue, hnil]; rfl) hsome
    · exact ⟨r.body, setting.response, v, hv, rfl⟩
  split at h
  · obtain rfl := Except.ok.inj h
    exact ⟨.inl rfl, by decide⟩
  · cases h

theorem printed_of_raw (h : Raw jct raw) : raw.all isPrinted = true ∧ 10 ∉ raw ∧ 13 ∉ raw := by
  obtain rfl | ⟨s, path, v, hv, rfl⟩ := h
  · decide
  · refine ⟨List.all_eq_true.mpr fun b hb => ?_, fun h => ?_, fun h => ?_⟩
    · exact List.all_eq_true.mp (isPrinted_of_isJson hv) b (List.mem_filter.mp hb).1
    · exact absurd (List.mem_filter.mp h).2 (by decide)
    · exact absurd (List.mem_filter.mp h).2 (by decide)

/-- Digits and signs that `jct` prints are a number. -/
theorem int_of_raw (h : Raw jct raw) (hint : isIntText raw = true) :
    (∃ sign int, raw = sign ++ int ∧ (sign = [] ∨ sign = [45]) ∧ isInt int = true) ∧
      ∃ s path, raw = onOneLine (jct.get s path) := by
  obtain rfl | ⟨s, path, v, hv, rfl⟩ := h
  · exact absurd hint (by decide)
  · refine ⟨?_, s, path, rfl⟩
    have hbytes : ∀ b ∈ onOneLine (jct.get s path), isDigit b = true ∨ b = 45 := by
      intro b hb
      rw [isIntText, Bool.and_eq_true, List.all_eq_true] at hint
      have hb := hint.2 b hb
      simpa using hb
    have hmem : ∀ b ∈ jct.get s path, b ≠ 10 → b ≠ 13 → isDigit b = true ∨ b = 45 := by
      intro b hb hten hthirteen
      refine hbytes b (List.mem_filter.mpr ⟨hb, ?_⟩)
      rw [decide_eq_true hten, decide_eq_true hthirteen]
      rfl
    obtain ⟨a, t, b, sign, int, heq, ha, hb, rfl, hsign, hnumber⟩ := number_of_isJson hv fun b hb hws =>
      hmem b hb (fun h => absurd (h ▸ hws) (by decide)) fun h => absurd (h ▸ hws) (by decide)
    have hblank : ∀ u : List Byte, u.all isWs = true → (∀ x ∈ u, x ∈ jct.get s path) → onOneLine u = [] := by
      intro u hu hsub
      have hnever : ∀ x, isWs x = true → isDigit x = true ∨ x = 45 → False := by decide
      refine List.filter_eq_nil_iff.mpr fun x hx hkeep => ?_
      rw [Bool.and_eq_true, decide_eq_true_eq, decide_eq_true_eq] at hkeep
      exact hnever x (List.all_eq_true.mp hu x hx) (hmem x (hsub x hx) hkeep.1 hkeep.2)
    have hself : onOneLine (sign ++ int) = sign ++ int := by
      have hkept : ∀ x, isDigit x = true ∨ x = 45 → (x ≠ 10 && x ≠ 13) = true := by decide
      refine List.filter_eq_self.mpr fun x hx => hkept x ?_
      obtain hx | hx := List.mem_append.mp hx
      · obtain rfl | rfl := hsign
        · cases hx
        · exact .inr (List.mem_singleton.mp hx)
      · rw [isInt, Bool.and_eq_true, Bool.and_eq_true] at hnumber
        exact .inl (List.all_eq_true.mp hnumber.1.2 x hx)
    have hprinted : onOneLine (jct.get s path) = sign ++ int := by
      have hleft := hblank a ha fun x hx => heq ▸ List.mem_append_left _ hx
      have hright := hblank b hb fun x hx => heq ▸ List.mem_append_right _ (List.mem_append_right _ hx)
      rw [heq]
      unfold onOneLine at hleft hright hself ⊢
      rw [List.filter_append, List.filter_append, hleft, hright, hself, List.nil_append, List.append_nil]
    exact ⟨sign, int, hprinted, hsign, hnumber⟩

/-- The words of the two lists are written as they are. -/
theorem words_plain : ∀ w ∈ formats ++ modes, w.all isPlain = true ∧ jsonString w = 34 :: (w ++ [34]) ∧
    unquoteString w = w ∧ 34 ∉ w ∧ 10 ∉ w ∧ 13 ∉ w ∧ w ≠ [] := by
  decide

theorem good_of_word {words : List (List Byte)} {message : List Byte} (hwords : words ⊆ formats ++ modes)
    (hkind : ∀ w ∈ words, kind.Holds (.string w)) (hnot : kind ≠ .bool ∧ kind ≠ .int)
    (h : word words message raw = .ok value) : Good jct kind value := by
  unfold word at h
  dsimp only at h
  split at h
  · rename_i hmem
    have hmem := List.contains_iff_mem.mp hmem
    obtain rfl := Except.ok.inj h
    generalize upper (unquoteString raw) = w at hmem ⊢
    obtain ⟨hplain, hshown, hself, hquote, hline, hreturn, hsome⟩ := words_plain w (hwords hmem)
    refine ⟨⟨.string w, Denotes.string (chars_plain hplain), hkind w hmem⟩, hshown, ?_, ⟨?_, ?_⟩,
      ⟨hsome, by simp, ?_⟩, ?_⟩
    · rw [unquoteString_quoted hquote, hself]
    · simpa using hline
    · simpa using hreturn
    · rintro (rfl | rfl)
      · exact absurd rfl hnot.1
      · exact absurd rfl hnot.2
    · exact fun _ => .word (List.mem_append.mp (hwords hmem))
  · cases h

theorem good_text (h : Raw jct raw) :
    Good jct .text ⟨jsonString (unquoteString raw), jsonString (unquoteString raw), jsonString (unquoteString raw)⟩ := by
  obtain ⟨hprinted, hline, hreturn⟩ := printed_of_raw h
  have hkept : (unquoteString raw).all isPrinted = true :=
    List.all_eq_true.mpr fun b hb => List.all_eq_true.mp hprinted b (List.mem_filter.mp hb).1
  have hten : 10 ∉ unquoteString raw := fun hmem => hline (List.mem_filter.mp hmem).1
  have hsome : jsonString (unquoteString raw) ≠ [] := by
    rw [jsonString_line hten]
    exact List.cons_ne_nil _ _
  exact ⟨⟨.string _, denotes_jsonString hkept hten, _, rfl⟩, rfl, rfl, oneLine_jsonString _, ⟨hsome, hsome, nofun⟩,
    fun hkind => absurd rfl hkind⟩

theorem good_bool (h : raw = ascii "true" ∨ raw = ascii "false") : Good jct .bool ⟨raw, raw, raw⟩ := by
  obtain rfl | rfl := h
  · exact ⟨⟨_, Denotes.true, true, rfl⟩, rfl, rfl, by decide, by decide, fun _ => .bool true⟩
  · exact ⟨⟨_, Denotes.false, false, rfl⟩, rfl, rfl, by decide, by decide, fun _ => .bool false⟩

theorem good_int (h : Raw jct raw) (hint : isIntText raw = true) : Good jct .int ⟨raw, raw, raw⟩ := by
  obtain ⟨⟨sign, int, rfl, hsign, hnumber⟩, s, path, hprints⟩ := int_of_raw h hint
  have hbytes := hint
  rw [isIntText, Bool.and_eq_true, List.all_eq_true, decide_eq_true_eq] at hbytes
  have hself : unquoteString (sign ++ int) = sign ++ int := by
    have hkept : ∀ x, (isDigit x || x = 45) = true → decide (x ≠ 34) = true := by decide
    exact List.filter_eq_self.mpr fun x hx => hkept x (hbytes.2 x hx)
  have hdenotes := @Denotes.number sign int [] [] hsign hnumber rfl rfl
  rw [List.append_nil, List.append_nil] at hdenotes
  refine ⟨⟨_, hdenotes, sign, int, rfl, hsign, hnumber⟩, rfl, rfl, ⟨?_, ?_⟩, ⟨hbytes.1, hbytes.1, ?_⟩, fun _ => ?_⟩
  · exact fun hmem => absurd (hbytes.2 10 hmem) (by decide)
  · exact fun hmem => absurd (hbytes.2 13 hmem) (by decide)
  · intro _
    rw [hself]
    exact hbytes.1
  · rw [hprints]
    exact .int ⟨s, path, rfl⟩ (hprints ▸ hint)

theorem good_of_jsonValue (hraw : Raw jct raw) (h : jsonValue kind raw = .ok value) : Good jct kind value := by
  cases kind with
  | bool =>
    rw [jsonValue] at h
    split at h
    · rename_i hbool
      obtain rfl := Except.ok.inj h
      exact good_bool hbool
    · cases h
  | int =>
    rw [jsonValue] at h
    split at h
    · rename_i hint
      obtain rfl := Except.ok.inj h
      exact good_int hraw hint
    · cases h
  | text =>
    obtain rfl := Except.ok.inj h
    exact good_text hraw
  | format => exact good_of_word (List.subset_append_left _ _) (fun w hw => ⟨w, hw, rfl⟩) ⟨nofun, nofun⟩ h
  | mode => exact good_of_word (List.subset_append_right _ _) (fun w hw => ⟨w, hw, rfl⟩) ⟨nofun, nofun⟩ h

end Values

/-! ### Places -/

section Places
variable {keys keys' : List (List Byte)} {leaf path : List Byte} {v : Value} {setting setting' : Setting}

theorem denotes_payload (hkeys : ∀ key ∈ keys, key.all isPlain = true) (hleaf : Denotes (.value v) leaf) :
    Denotes (.value (nest keys v)) (payload keys leaf) := by
  induction keys with
  | nil => exact hleaf
  | cons key keys ih =>
    have ih := ih fun k hk => hkeys k (List.mem_cons_of_mem key hk)
    exact Denotes.object (denotes_member (chars_plain (hkeys key List.mem_cons_self)) ih)

def isWord (b : Byte) : Bool :=
  isDigit b || 65 ≤ b.toNat && b.toNat ≤ 90 || 97 ≤ b.toNat && b.toNat ≤ 122 || b = 95

def isKey (key : List Byte) : Bool := key ≠ [] && key.all isWord

def groups : List (List Byte) :=
  [ascii "brightness", ascii "time", ascii "uptime", ascii "usertext", ascii "logo", ascii "privacy"]

/-- Keys of different lengths differ in what lies on the way. -/
def wellPlaced : List (List Byte) → Bool
  | [_, key] => key ≠ ascii "osd"
  | [_, osd, key] => osd = ascii "osd" && !groups.contains key
  | [_, osd, group, _] => osd = ascii "osd" && groups.contains group
  | _ => false

/-- Where the texts are. -/
def textKeys : List (List (List Byte)) :=
  (storageSpec.filter fun r => r.kind = .text).map (fun r => (flat .recorder (ascii "recorder") r).keys) ++
    [48, 49].flatMap fun stream => (osdSpec.filter fun r => r.kind = .text).map fun r => (osdSetting stream r).keys

def Setting.good (setting : Setting) : Bool :=
  setting.keys.all isKey && isKey setting.response && wellPlaced setting.keys &&
    decide (setting.kind = .text) = textKeys.contains setting.keys

theorem good_rows : (∀ r ∈ imageSpec, (flat .prudynt (ascii "image") r).good = true) ∧
    (∀ r ∈ motionSpec, (flat .prudynt (ascii "motion") r).good = true) ∧
    (∀ r ∈ storageSpec, (flat .recorder (ascii "recorder") r).good = true) ∧
    ∀ r ∈ streamSpec, ∀ stream ∈ [48, 49], (flat .prudynt (streamKey stream) r).good = true := by
  decide +kernel

theorem good_osd : ∀ r ∈ osdSpec, ∀ stream ∈ [48, 49], (osdSetting stream r).good = true := by
  decide +kernel

theorem good_services : ∀ service ∈ services, (motionSetting service).good = true ∧
    (send2Setting service (ascii "send_photo") (ascii "true")).good = true ∧
    (send2Setting service (ascii "send_video") (ascii "false")).good = true := by
  decide +kernel

theorem mem_of_lookup {spec : List Row} {relative : List Byte} {r : Row} (h : lookup spec relative = some r) :
    r ∈ spec :=
  List.mem_of_find?_eq_some h

theorem good_stream {stream : Byte} (hstream : stream ∈ [48, 49]) {relative : List Byte}
    (h : streamSetting stream relative = some setting) : setting.good = true := by
  unfold streamSetting at h
  split at h
  · obtain ⟨r, hr, rfl⟩ := Option.map_eq_some_iff.mp h
    exact good_osd r (mem_of_lookup hr) stream hstream
  · obtain ⟨r, hr, rfl⟩ := Option.map_eq_some_iff.mp h
    exact good_rows.2.2.2 r (mem_of_lookup hr) stream hstream

theorem good_table (h : tableSetting path = some setting) : setting.good = true := by
  have hspec : ∀ {lead section_ : List Byte} {spec : List Row} {place : Place},
      (∀ r ∈ spec, (flat place section_ r).good = true) →
      ((after lead path).bind fun relative => (lookup spec relative).map (flat place section_)) = some setting →
      setting.good = true := by
    intro lead section_ spec place hgood h
    obtain ⟨relative, -, h⟩ := Option.bind_eq_some_iff.mp h
    obtain ⟨r, hr, rfl⟩ := Option.map_eq_some_iff.mp h
    exact hgood r (mem_of_lookup hr)
  unfold tableSetting at h
  obtain h | ⟨-, h⟩ := Option.or_eq_some_iff.mp h
  · exact hspec good_rows.1 h
  obtain h | ⟨-, h⟩ := Option.or_eq_some_iff.mp h
  · exact hspec good_rows.2.1 h
  obtain h | ⟨-, h⟩ := Option.or_eq_some_iff.mp h
  · exact hspec good_rows.2.2.1 h
  obtain h | ⟨-, h⟩ := Option.or_eq_some_iff.mp h
  · obtain ⟨relative, -, h⟩ := Option.bind_eq_some_iff.mp h
    exact good_stream List.mem_cons_self h
  · obtain ⟨relative, -, h⟩ := Option.bind_eq_some_iff.mp h
    exact good_stream (List.mem_cons_of_mem 48 List.mem_cons_self) h

theorem good_of_find (h : find path = .ok setting) : setting.good = true := by
  have hchecked : ∀ {service : List Byte} {s : Setting}, (service ∈ services → s.good = true) →
      checked service s = .ok setting → setting.good = true := by
    intro service s hgood h
    unfold checked at h
    split at h
    · rename_i hsupported
      obtain rfl := Except.ok.inj h
      exact hgood (List.contains_iff_mem.mp hsupported)
    · cases h
  unfold find at h
  split at h
  · exact hchecked (fun hmem => (good_services _ hmem).1) h
  · exact hchecked (fun hmem => (good_services _ hmem).2.1) h
  · exact hchecked (fun hmem => (good_services _ hmem).2.2) h
  · split at h
    · rename_i htable
      obtain rfl := Except.ok.inj h
      exact good_table htable
    · cases h

theorem wellPlaced_eq (h : wellPlaced keys = true) (h' : wellPlaced keys' = true) (hsub : keys <+: keys') :
    keys = keys' := by
  refine hsub.eq_of_length ?_
  unfold wellPlaced at h h'
  split at h <;> split at h' <;> simp_all [List.cons_prefix_cons]

theorem plain_of_isKey {key : List Byte} (h : isKey key = true) : key.all isPlain = true ∧ key ≠ [] ∧ 46 ∉ key := by
  have hbyte : ∀ b, isWord b = true → isPlain b = true ∧ b ≠ 46 := by decide
  rw [isKey, Bool.and_eq_true, decide_eq_true_eq, List.all_eq_true] at h
  exact ⟨List.all_eq_true.mpr fun b hb => (hbyte b (h.2 b hb)).1, h.1, fun hmem => (hbyte 46 (h.2 46 hmem)).2 rfl⟩

theorem keys_of_good (h : setting.good = true) :
    (∀ key ∈ setting.keys, key.all isPlain = true) ∧ setting.response.all isPlain = true ∧
      (dotted setting.keys).splitOn 46 = setting.keys ∧ wellPlaced setting.keys = true := by
  rw [Setting.good, Bool.and_eq_true, Bool.and_eq_true, Bool.and_eq_true, List.all_eq_true] at h
  replace h := h.1
  have hsome : setting.keys ≠ [] := by
    intro hnil
    rw [hnil] at h
    exact absurd h.2 (by decide)
  refine ⟨fun key hkey => (plain_of_isKey (h.1.1 key hkey)).1, (plain_of_isKey h.1.2).1, ?_, h.2⟩
  exact List.splitOn_intercalate 46 (fun key hkey => (plain_of_isKey (h.1.1 key hkey)).2.2) hsome

/-- A place has texts or none. -/
theorem text_iff_of_keys (h : setting.good = true) (h' : setting'.good = true) (hkeys : setting'.keys = setting.keys) :
    setting'.kind = .text ↔ setting.kind = .text := by
  have htext : ∀ {setting : Setting}, setting.good = true →
      decide (setting.kind = .text) = textKeys.contains setting.keys := fun h =>
    of_decide_eq_true (Bool.and_eq_true_iff.mp h).2
  exact decide_eq_decide.mp ((htext h').trans (hkeys ▸ (htext h).symm))

/-- A set of one setting leaves what is read of the others. -/
theorem get_other {σ : Type} {jct : Jct σ} (s : σ) (value : List Byte) (h : setting.good = true)
    (h' : setting'.good = true) (hne : setting'.keys ≠ setting.keys) :
    jct.get (jct.set s (dotted setting.keys) value) (dotted setting'.keys) = jct.get s (dotted setting'.keys) := by
  obtain ⟨-, -, hsplit, hplaced⟩ := keys_of_good h
  obtain ⟨-, -, hsplit', hplaced'⟩ := keys_of_good h'
  refine jct.other s _ _ value ?_ ?_
  · rw [hsplit, hsplit']
    exact fun hsub => hne (wellPlaced_eq hplaced hplaced' hsub).symm
  · rw [hsplit, hsplit']
    exact fun hsub => hne (wellPlaced_eq hplaced' hplaced hsub)

theorem eq_of_after {lead relative : List Byte} (h : after lead path = some relative) : path = lead ++ relative := by
  unfold after at h
  split at h
  · rename_i hlead
    obtain ⟨rest, rfl⟩ := hlead
    obtain rfl := Option.some.inj h
    rw [List.drop_left]
  · cases h

theorem eq_of_between {lead trail middle : List Byte} (h : between lead trail path = some middle) :
    path = lead ++ (middle ++ trail) := by
  obtain ⟨rest, hrest, h⟩ := Option.bind_eq_some_iff.mp h
  split at h
  · rename_i htrail
    obtain ⟨front, rfl⟩ := htrail
    obtain rfl := Option.some.inj h
    rw [eq_of_after hrest, List.length_append, Nat.add_sub_cancel, List.take_left]
  · cases h

theorem plain_rows : ∀ r ∈ imageSpec ++ (motionSpec ++ (storageSpec ++ (streamSpec ++ osdSpec))),
    r.path.all isPlain = true := by
  decide +kernel

theorem plain_services : ∀ service ∈ services, service.all isPlain = true := by
  decide

/-- A path that is known has nothing to escape. -/
theorem plain_append {a b : List Byte} (ha : a.all isPlain = true) (hb : b.all isPlain = true) :
    (a ++ b).all isPlain = true := by
  rw [List.all_append, ha, hb, Bool.and_self]

theorem plain_of_checked {service : List Byte} {s : Setting} (h : checked service s = .ok setting) :
    service.all isPlain = true := by
  unfold checked at h
  split at h
  · rename_i hsupported
    exact plain_services service (List.contains_iff_mem.mp hsupported)
  · cases h

theorem plain_of_lookup {spec : List Row} {relative : List Byte} {r : Row}
    (hsub : ∀ r ∈ spec, r ∈ imageSpec ++ (motionSpec ++ (storageSpec ++ (streamSpec ++ osdSpec))))
    (h : lookup spec relative = some r) : relative.all isPlain = true := by
  have hpath : r.path = relative := by simpa using List.find?_some h
  exact hpath ▸ plain_rows r (hsub r (mem_of_lookup h))

theorem plain_of_streamSetting {stream : Byte} {relative : List Byte}
    (h : streamSetting stream relative = some setting) : relative.all isPlain = true := by
  unfold streamSetting at h
  split at h
  · rename_i hosd
    obtain ⟨r, hr, -⟩ := Option.map_eq_some_iff.mp h
    rw [eq_of_after hosd]
    exact plain_append (by decide) (plain_of_lookup (fun r hr => by simp [hr]) hr)
  · obtain ⟨r, hr, -⟩ := Option.map_eq_some_iff.mp h
    exact plain_of_lookup (fun r hr => by simp [hr]) hr

theorem plain_of_find (h : find path = .ok setting) : path.all isPlain = true := by
  have hspec : ∀ {lead section_ : List Byte} {spec : List Row} {place : Place}, lead.all isPlain = true →
      (∀ r ∈ spec, r ∈ imageSpec ++ (motionSpec ++ (storageSpec ++ (streamSpec ++ osdSpec)))) →
      ((after lead path).bind fun relative => (lookup spec relative).map (flat place section_)) = some setting →
      path.all isPlain = true := by
    intro lead section_ spec place hlead hsub h
    obtain ⟨relative, hafter, h⟩ := Option.bind_eq_some_iff.mp h
    obtain ⟨r, hr, -⟩ := Option.map_eq_some_iff.mp h
    exact eq_of_after hafter ▸ plain_append hlead (plain_of_lookup hsub hr)
  have hstream : ∀ {lead : List Byte} {stream : Byte}, lead.all isPlain = true →
      (after lead path).bind (streamSetting stream) = some setting → path.all isPlain = true := by
    intro lead stream hlead h
    obtain ⟨relative, hafter, h⟩ := Option.bind_eq_some_iff.mp h
    exact eq_of_after hafter ▸ plain_append hlead (plain_of_streamSetting h)
  unfold find at h
  split at h
  · rename_i hafter
    exact eq_of_after hafter ▸ plain_append (by decide) (plain_of_checked h)
  · rename_i hbetween
    exact eq_of_between hbetween ▸ plain_append (by decide) (plain_append (plain_of_checked h) (by decide))
  · rename_i hbetween
    exact eq_of_between hbetween ▸ plain_append (by decide) (plain_append (plain_of_checked h) (by decide))
  · split at h
    · rename_i htable
      obtain rfl := Except.ok.inj h
      unfold tableSetting at htable
      obtain h | ⟨-, h⟩ := Option.or_eq_some_iff.mp htable
      · exact hspec (by decide) (fun r hr => by simp [hr]) h
      obtain h | ⟨-, h⟩ := Option.or_eq_some_iff.mp h
      · exact hspec (by decide) (fun r hr => by simp [hr]) h
      obtain h | ⟨-, h⟩ := Option.or_eq_some_iff.mp h
      · exact hspec (by decide) (fun r hr => by simp [hr]) h
      obtain h | ⟨-, h⟩ := Option.or_eq_some_iff.mp h
      · exact hstream (by decide) h
      · exact hstream (by decide) h
    · cases h

end Places

/-! ### Runs -/

section Run
variable {σ : Type} {jct : Jct σ} {s : State σ} {r : Request σ} {setting : Setting} {value : Accepted}
  {keys : List (List Byte)} {leaf path label : List Byte} {v : Value}

/-- What the client is told of a setting. -/
def told (label response : List Byte) (v : Value) : Value :=
  .object [(ascii "status", .string (ascii "accepted")), (ascii "applied", .array [.string (ascii "settings." ++ label)]),
    (ascii "staged", .array []), (ascii "restart_required", .array []), (ascii "resource", .object [(response, v)])]

theorem isJson_printSettingUpdate (hpath : path.all isPlain = true)
    (hresponse : setting.response.all isPlain = true) (hsome : leaf ≠ []) (hleaf : Denotes (.value v) leaf) :
    IsJson (printSettingUpdate path setting.response leaf) (told (settingPathLabel path) setting.response v) := by
  have hlabel : (ascii "settings." ++ settingPathLabel path).all isPlain = true := by
    have hbyte : ∀ b, isPlain b = true → isPlain (if b = 47 then 46 else b) = true := by decide
    rw [List.all_append, settingPathLabel, List.all_map]
    exact Bool.and_eq_true_iff.mpr ⟨by decide, List.all_eq_true.mpr fun b hb => hbyte b (List.all_eq_true.mp hpath b hb)⟩
  have hstring : ∀ {t : List Byte}, t.all isPlain = true → Denotes (.value (.string t)) (34 :: (t ++ [34])) :=
    fun h => Denotes.string (chars_plain h)
  have hnone : Denotes (.value (.array [])) (91 :: ([] ++ [93])) := Denotes.emptyArray rfl
  have hresource := Denotes.object (denotes_member (chars_plain hresponse) hleaf)
  have hlast := denotes_member (chars_plain (s := ascii "resource") (by decide)) hresource
  have hrestart := denotes_members (chars_plain (s := ascii "restart_required") (by decide)) hnone hlast
  have hstaged := denotes_members (chars_plain (s := ascii "staged") (by decide)) hnone hrestart
  have happlied := denotes_members (chars_plain (s := ascii "applied") (by decide))
    (Denotes.array (denotes_element (hstring hlabel))) hstaged
  have hstatus := denotes_members (chars_plain (s := ascii "status") (by decide))
    (hstring (t := ascii "accepted") (by decide)) happlied
  have hall := Denotes.object hstatus
  refine ⟨[], _, [10], ?_, rfl, rfl, hall⟩
  simp [printSettingUpdate, jsonValueOr, hsome, ascii]

/-- What the streamer was given is in the configuration, but for its quotes. -/
def Agrees (jct : Jct σ) (s : State σ) (keys : List (List Byte)) (leaf : List Byte) : Prop :=
  output (unquoteString (jct.get s.config (dotted keys))) = unquoteString leaf

theorem persistValue_frame : (persistValue jct s r keys leaf).live = s.live ∧
    (persistValue jct s r keys leaf).sent = s.sent ∧ (persistValue jct s r keys leaf).send2 = s.send2 := by
  unfold persistValue
  dsimp only
  repeat' split
  all_goals exact ⟨rfl, rfl, rfl⟩

theorem output_of_line {t : List Byte} (h : 10 ∉ t) : output (unquoteString t) = unquoteString t := by
  refine output_eq_self fun hlast => h ?_
  exact (List.mem_filter.mp (List.mem_of_getLast? hlast)).1

theorem persistValue_agrees (hgood : Good jct setting.kind value) (hkind : setting.kind ≠ .text)
    (hlost : (persistValue jct s r keys value.stored).lost keys = false) :
    Agrees jct (persistValue jct s r keys value.stored) keys value.leaf := by
  have hline : output (unquoteString value.stored) = unquoteString value.leaf := by
    rw [hgood.stored]
    exact output_of_line hgood.line.1
  unfold persistValue at hlost ⊢
  dsimp only at hlost ⊢
  by_cases hthere : (r.hasConfig && decide (value.stored ≠ [])) = true
  · rw [if_pos hthere] at hlost ⊢
    by_cases heq : output (unquoteString (jct.get s.config (dotted keys))) = output (unquoteString value.stored)
    · rw [if_pos heq]
      exact heq.trans hline
    · rw [if_neg heq] at hlost ⊢
      by_cases hwritten : r.written = true
      · rw [if_pos hwritten]
        exact (jct.same _ _ _ (hgood.writable hkind)).trans hgood.stored
      · rw [if_neg hwritten] at hlost
        cases hlost.symm.trans (if_pos rfl)
  · rw [if_neg hthere] at hlost
    cases hlost.symm.trans (if_pos rfl)

/-- Other settings are as they were. -/
theorem persistValue_other {setting' : Setting} (h : setting.good = true) (h' : setting'.good = true)
    (hne : setting'.keys ≠ setting.keys) :
    (persistValue jct s r setting.keys leaf).lost setting'.keys = s.lost setting'.keys ∧
      jct.get (persistValue jct s r setting.keys leaf).config (dotted setting'.keys) =
        jct.get s.config (dotted setting'.keys) := by
  unfold persistValue
  dsimp only
  split
  · split
    · exact ⟨if_neg hne, rfl⟩
    split
    · exact ⟨if_neg hne, get_other s.config leaf h h' hne⟩
    · exact ⟨if_neg hne, rfl⟩
  · exact ⟨if_neg hne, rfl⟩

/-- An object that was sent. -/
def Sent (object : List Byte) : Prop :=
  ∃ path setting v, find path = .ok setting ∧ setting.kind.Holds v ∧ IsJson object (nest setting.keys v)

structure Inv (jct : Jct σ) (s : State σ) : Prop where
  sent : ∀ object ∈ s.sent, Sent object
  live : ∀ path setting leaf, find path = .ok setting → s.live setting.keys = some leaf →
    10 ∉ leaf ∧ 13 ∉ leaf ∧ (s.lost setting.keys = false → setting.kind ≠ .text → Agrees jct s setting.keys leaf)

/-- What a request comes to. -/
inductive Outcome (jct : Jct σ) (s : State σ) (r : Request σ) : State σ × Except (List Byte) (List Byte) → Prop
  | refused {message sent : List Byte} (hsent : Sent sent) :
    Outcome jct s r ({ s with sent := sent :: s.sent }, .error message)
  | untouched {message : List Byte} : Outcome jct s r (s, .error message)
  | send2 {setting : Setting} {value : Accepted} {config : σ} (hfind : find r.path = .ok setting)
    (hplace : setting.place = .send2) (hgood : Good jct setting.kind value) :
    Outcome jct s r ({ s with send2 := config }, .ok (printSettingUpdate r.path setting.response value.shown))
  | applied {setting : Setting} {value : Accepted} {label : List Byte} (hfind : find r.path = .ok setting)
    (hplace : setting.place ≠ .send2) (hgood : Good jct setting.kind value) (hlabel : label.all isPlain = true)
    (hsent : Sent (payload setting.keys value.leaf)) :
    Outcome jct s r
      (persistValue jct { s with
        live := fun keys => if keys = setting.keys then some value.leaf else s.live keys
        sent := payload setting.keys value.leaf :: s.sent } r setting.keys value.stored,
        .ok (printSettingUpdate label setting.response value.shown))

theorem sent_of_good (hfind : find path = .ok setting) (hgood : Good jct setting.kind value) :
    Sent (payload setting.keys value.leaf) := by
  obtain ⟨v, hdenotes, hholds⟩ := hgood.typed
  have hkeys := (keys_of_good (good_of_find hfind)).1
  exact ⟨path, setting, v, hfind, hholds, isJson_of_denotes (denotes_payload hkeys hdenotes)⟩

theorem plain_dotted (h : ∀ key ∈ keys, key.all isPlain = true) : (dotted keys).all isPlain = true := by
  induction keys with
  | nil => rfl
  | cons key keys ih =>
    have hkey := h key List.mem_cons_self
    have ih := ih fun k hk => h k (List.mem_cons_of_mem key hk)
    unfold dotted at ih ⊢
    cases keys with
    | nil => rwa [List.intercalate_singleton]
    | cons k keys =>
      rw [List.intercalate_cons_cons, List.all_append, List.all_append, hkey, ih]
      rfl

theorem good_of_bind (h : (settingValue jct setting r).bind (jsonValue setting.kind) = .ok value) :
    Good jct setting.kind value := by
  cases hraw : settingValue jct setting r with
  | error message =>
    rw [hraw] at h
    cases h
  | ok raw =>
    rw [hraw] at h
    exact good_of_jsonValue (raw_of_settingValue hraw).1 h

/-- The ways a request can go. -/
theorem setSetting_outcome (s : State σ) (r : Request σ) : Outcome jct s r (setSetting jct s r) := by
  unfold setSetting
  split
  · exact .untouched
  rename_i setting hfind
  split
  · exact .untouched
  rename_i value hvalue
  have hgood := good_of_bind hvalue
  have hsent := sent_of_good hfind hgood
  split
  · rename_i hplace
    split
    · exact .untouched
    · exact .send2 hfind hplace hgood
  · rename_i hplace
    dsimp only
    split
    · exact .untouched
    · exact .refused hsent
    · refine .applied hfind hplace hgood ?_ hsent
      split
      · exact plain_of_find hfind
      · exact plain_dotted (keys_of_good (good_of_find hfind)).1

theorem inv_setSetting (h : Inv jct s) (r : Request σ) : Inv jct (setSetting jct s r).1 := by
  have houtcome : Outcome jct s r (setSetting jct s r) := setSetting_outcome s r
  generalize setSetting jct s r = o at houtcome ⊢
  cases houtcome with
  | refused hsent =>
    refine ⟨fun object hobject => ?_, h.live⟩
    obtain rfl | hobject := List.mem_cons.mp hobject
    · exact hsent
    · exact h.sent object hobject
  | untouched => exact h
  | send2 => exact ⟨h.sent, h.live⟩
  | @applied setting value label hfind hplace hgood hlabel hsent =>
    dsimp only
    generalize hgiven : ({ s with
        live := fun keys => if keys = setting.keys then some value.leaf else s.live keys
        sent := payload setting.keys value.leaf :: s.sent } : State σ) = given
    have hconfig : given.config = s.config ∧ given.lost = s.lost := hgiven ▸ ⟨rfl, rfl⟩
    obtain ⟨hlive, hsents, -⟩ := @persistValue_frame _ jct given r setting.keys value.stored
    refine ⟨fun object hobject => ?_, fun path' setting' leaf hfind' hleaf => ?_⟩
    · rw [hsents, ← hgiven] at hobject
      obtain rfl | hobject := List.mem_cons.mp hobject
      · exact hsent
      · exact h.sent object hobject
    · rw [hlive] at hleaf
      by_cases hkeys : setting'.keys = setting.keys
      · rw [hkeys, ← hgiven] at hleaf
        obtain rfl := Option.some.inj ((if_pos rfl).symm.trans hleaf)
        refine ⟨hgood.line.1, hgood.line.2, fun hlost hkind => ?_⟩
        rw [hkeys] at hlost ⊢
        refine persistValue_agrees hgood (fun htext => hkind ?_) hlost
        exact (text_iff_of_keys (good_of_find hfind) (good_of_find hfind') hkeys).mpr htext
      · rw [← hgiven] at hleaf
        obtain ⟨hline, hreturn, hagrees⟩ := h.live path' setting' leaf hfind' ((if_neg hkeys).symm.trans hleaf)
        refine ⟨hline, hreturn, fun hlost hkind => ?_⟩
        obtain ⟨hlost', hget⟩ := @persistValue_other _ jct given r setting value.stored setting' (good_of_find hfind)
          (good_of_find hfind') hkeys
        rw [hlost', hconfig.2] at hlost
        unfold Agrees
        rw [hget, hconfig.1]
        exact hagrees hlost hkind

theorem onOneLine_output (t : List Byte) : onOneLine (output t) = onOneLine t := by
  induction t using List.reverseRecOn with
  | nil => rfl
  | append_singleton t b ih =>
    by_cases hb : b = 10
    · subst hb
      have hdrop : output (t ++ [10]) = output t := List.rdropWhile_concat_pos _ _ _ (decide_eq_true rfl)
      rw [hdrop, ih, onOneLine, onOneLine, List.filter_append]
      exact (List.append_nil _).symm
    · have hkeep : output (t ++ [b]) = t ++ [b] := List.rdropWhile_concat_neg _ _ _ (by simpa using hb)
      rw [hkeep]

/-- What is read, where the streamer was given `leaf`. -/
def Reads (jct : Jct σ) (s : State σ) (path : List Byte) (setting : Setting) (leaf : List Byte) : Prop :=
  match setting.kind with
  | .bool | .int => ∃ raw, unquoteString raw = unquoteString leaf ∧
    getSetting jct s path = .ok (printSettingLeaf setting.response (jsonValueOr raw setting.default))
  | .text | .format | .mode =>
    getSetting jct s path = .ok (printSettingText setting.response (unquoteString leaf))

theorem reads_of_agrees (hfind : find path = .ok setting) (hplace : setting.place ≠ .send2)
    (hline : 10 ∉ leaf ∧ 13 ∉ leaf) (h : Agrees jct s setting.keys leaf) : Reads jct s path setting leaf := by
  have hraw : unquoteString (configValue jct s.config (dotted setting.keys)) = unquoteString leaf := by
    have hcomm : ∀ t, unquoteString (onOneLine t) = onOneLine (unquoteString t) := fun t =>
      List.filter_comm _ _ t
    have hself : onOneLine (unquoteString leaf) = unquoteString leaf := by
      refine List.filter_eq_self.mpr fun b hb => ?_
      have hb := (List.mem_filter.mp hb).1
      have hten : b ≠ 10 := fun h => hline.1 (h ▸ hb)
      have hreturn : b ≠ 13 := fun h => hline.2 (h ▸ hb)
      rw [decide_eq_true hten, decide_eq_true hreturn]
      rfl
    rw [configValue, hcomm, ← onOneLine_output, h, hself]
  unfold Reads getSetting
  simp only [hfind, if_neg hplace, hraw]
  cases setting.kind with
  | bool | int => exact ⟨_, hraw, rfl⟩
  | text | format | mode => rfl

/-- **The property** of a run. Objects that are sent have one leaf, of a setting's kind and at its place. What the
streamer was given, but for a text, is what is read, and is not written again, unless the configuration could not
follow. An error leaves all as it was, and an answer shows what the streamer has. -/
structure Sound (jct : Jct σ) (s : State σ) : Prop where
  sent : ∀ object ∈ s.sent, Sent object
  reads : ∀ path setting leaf, find path = .ok setting → setting.place ≠ .send2 → s.live setting.keys = some leaf →
    s.lost setting.keys = false → setting.kind ≠ .text → Reads jct s path setting leaf
  steady : ∀ r setting value, find r.path = .ok setting → setting.place ≠ .send2 →
    (settingValue jct setting r).bind (jsonValue setting.kind) = .ok value → s.live setting.keys = some value.leaf →
    s.lost setting.keys = false → setting.kind ≠ .text → (setSetting jct s r).1.config = s.config
  refused : ∀ r message, (setSetting jct s r).2 = .error message → (setSetting jct s r).1.live = s.live ∧
    (setSetting jct s r).1.config = s.config ∧ (setSetting jct s r).1.send2 = s.send2
  answered : ∀ r answer, (setSetting jct s r).2 = .ok answer → ∃ setting v label, find r.path = .ok setting ∧
    setting.kind.Holds v ∧ IsJson answer (told label setting.response v) ∧
      (setting.place ≠ .send2 →
        ∃ leaf, (setSetting jct s r).1.live setting.keys = some leaf ∧ Denotes (.value v) leaf)

theorem persistValue_config (h : output (unquoteString (jct.get s.config (dotted keys))) = output (unquoteString leaf)) :
    (persistValue jct s r keys leaf).config = s.config := by
  unfold persistValue
  dsimp only
  rw [if_pos h]
  split <;> rfl

theorem setSetting_steady (hfind : find r.path = .ok setting) (hplace : setting.place ≠ .send2)
    (hvalue : (settingValue jct setting r).bind (jsonValue setting.kind) = .ok value)
    (h : Agrees jct s setting.keys value.leaf) : (setSetting jct s r).1.config = s.config := by
  have hgood := good_of_bind hvalue
  have hequal : output (unquoteString (jct.get s.config (dotted setting.keys))) = output (unquoteString value.stored) := by
    rw [h, hgood.stored, output_of_line hgood.line.1]
  unfold setSetting
  simp only [hfind, hvalue]
  -- the way out for `send2` is excluded by `hplace`
  split
  · rfl
  · rfl
  · exact persistValue_config hequal

theorem answered_of_good (hfind : find path = .ok setting) (hgood : Good jct setting.kind value)
    (hlabel : label.all isPlain = true) : ∃ v, Denotes (.value v) value.leaf ∧ setting.kind.Holds v ∧
      IsJson (printSettingUpdate label setting.response value.shown) (told (settingPathLabel label) setting.response v) := by
  obtain ⟨v, hdenotes, hholds⟩ := hgood.typed
  refine ⟨v, hdenotes, hholds, ?_⟩
  rw [hgood.shown]
  exact isJson_printSettingUpdate hlabel (keys_of_good (good_of_find hfind)).2.1 hgood.nonempty.2.1 hdenotes

theorem Inv.sound (h : Inv jct s) : Sound jct s where
  sent := h.sent
  reads path setting leaf hfind hplace hlive hlost hkind := by
    obtain ⟨hline, hreturn, hagrees⟩ := h.live path setting leaf hfind hlive
    exact reads_of_agrees hfind hplace ⟨hline, hreturn⟩ (hagrees hlost hkind)
  steady r setting value hfind hplace hvalue hlive hlost hkind :=
    setSetting_steady hfind hplace hvalue ((h.live r.path setting value.leaf hfind hlive).2.2 hlost hkind)
  refused r message hrefused := by
    have houtcome : Outcome jct s r (setSetting jct s r) := setSetting_outcome s r
    generalize setSetting jct s r = o at houtcome hrefused ⊢
    cases houtcome with
    | refused | untouched => exact ⟨rfl, rfl, rfl⟩
    | send2 | applied => cases hrefused
  answered r answer hanswer := by
    have houtcome : Outcome jct s r (setSetting jct s r) := setSetting_outcome s r
    generalize setSetting jct s r = o at houtcome hanswer ⊢
    cases houtcome with
    | refused | untouched => cases hanswer
    | @send2 setting value config hfind hplace hgood =>
      obtain rfl := Except.ok.inj hanswer
      obtain ⟨v, -, hholds, hjson⟩ := answered_of_good hfind hgood (plain_of_find hfind)
      exact ⟨setting, v, _, hfind, hholds, hjson, fun h => absurd hplace h⟩
    | @applied setting value label hfind hplace hgood hlabel =>
      obtain rfl := Except.ok.inj hanswer
      obtain ⟨v, hdenotes, hholds, hjson⟩ := answered_of_good hfind hgood hlabel
      refine ⟨setting, v, _, hfind, hholds, hjson, fun _ => ⟨value.leaf, ?_, hdenotes⟩⟩
      rw [persistValue_frame.1]
      exact if_pos rfl

theorem inv_step {e : Event σ} {s' : State σ} (h : Inv jct s) (hstep : step jct s e = some s') : Inv jct s' := by
  cases e with
  | set r =>
    rw [step] at hstep
    split at hstep
    · cases hstep
    · obtain rfl := Option.some.inj hstep
      exact inv_setSetting h r
  | restart =>
    obtain rfl := Option.some.inj hstep
    exact ⟨h.sent, nofun⟩

theorem inv_initial (config send2 : σ) : Inv jct (initial config send2) :=
  ⟨fun _ h => absurd h List.not_mem_nil, nofun⟩

/-- A bool or an integer. -/
def isLiteral (t : List Byte) : Bool :=
  t = ascii "true" || t = ascii "false" || isInt t || t.head? = some 45 && isInt t.tail

theorem denotes_of_isLiteral {t : List Byte} (h : isLiteral t = true) : ∃ v, Denotes (.value v) t := by
  simp only [isLiteral, Bool.or_eq_true, Bool.and_eq_true, decide_eq_true_eq] at h
  obtain ((rfl | rfl) | hint) | ⟨hsign, hint⟩ := h
  · exact ⟨_, Denotes.true⟩
  · exact ⟨_, Denotes.false⟩
  · have hnumber := @Denotes.number [] t [] [] (.inl rfl) hint rfl rfl
    rw [List.append_nil, List.append_nil] at hnumber
    exact ⟨_, hnumber⟩
  · obtain ⟨rest, rfl⟩ := List.head?_eq_some_iff.mp hsign
    have hnumber := @Denotes.number [45] rest [] [] (.inr rfl) hint rfl rfl
    rw [List.append_nil, List.append_nil] at hnumber
    exact ⟨_, hnumber⟩

theorem line_of_isLiteral {t : List Byte} (h : isLiteral t = true) : ∀ b ∈ t, (b ≠ 10 && b ≠ 13) = true := by
  have hdigits : ∀ {u : List Byte}, isInt u = true → ∀ b ∈ u, (b ≠ 10 && b ≠ 13) = true := by
    intro u hu b hb
    have hbyte : ∀ b, isDigit b = true → (b ≠ 10 && b ≠ 13) = true := by decide
    rw [isInt, Bool.and_eq_true, Bool.and_eq_true] at hu
    exact hbyte b (List.all_eq_true.mp hu.1.2 b hb)
  simp only [isLiteral, Bool.or_eq_true, Bool.and_eq_true, decide_eq_true_eq] at h
  obtain ((rfl | rfl) | hint) | ⟨hsign, hint⟩ := h
  · decide
  · decide
  · exact hdigits hint
  · obtain ⟨rest, rfl⟩ := List.head?_eq_some_iff.mp hsign
    intro b hb
    obtain rfl | hb := List.mem_cons.mp hb
    · decide
    · exact hdigits hint b hb

/-- A store of values by their paths. -/
abbrev Leaves := List (List Byte × List Byte)

/-- A literal is printed as it is, and anything else as a string of its bytes. -/
def printed (value : List Byte) : List Byte :=
  if isLiteral value then value else 34 :: (value.flatMap escapeByte ++ [34])

def Leaves.get (s : Leaves) (path : List Byte) : List Byte := (s.lookup path).elim [] fun value => printed value ++ [10]

def Leaves.set (s : Leaves) (path value : List Byte) : Leaves := (path, value) :: s

theorem Leaves.get_set (s : Leaves) (path value : List Byte) : (s.set path value).get path = printed value ++ [10] := by
  rw [Leaves.get, Leaves.set, List.lookup_cons_self]
  rfl

theorem output_unquoteString {t : List Byte} (hline : 10 ∉ t) :
    output (unquoteString (t ++ [10])) = unquoteString t := by
  have hlast : unquoteString (t ++ [10]) = unquoteString t ++ [10] := by
    rw [unquoteString, unquoteString, List.filter_append]
    rfl
  have hdrop : output (unquoteString t ++ [10]) = output (unquoteString t) :=
    List.rdropWhile_concat_pos _ _ _ (decide_eq_true rfl)
  rw [hlast, hdrop, output_of_line hline]

/-- An integer that was printed is a literal. -/
theorem isLiteral_of_isIntText (s : Leaves) (path : List Byte) (h : isIntText (onOneLine (s.get path)) = true) :
    isLiteral (onOneLine (s.get path)) = true := by
  unfold Leaves.get at h ⊢
  cases hlookup : s.lookup path with
  | none =>
    rw [hlookup] at h
    exact absurd h (by decide)
  | some value =>
    rw [hlookup, Option.elim_some] at h
    rw [Option.elim_some]
    unfold printed at h ⊢
    split
    · rename_i hliteral
      have hself : onOneLine (value ++ [10]) = value := by
        rw [onOneLine, List.filter_append, List.filter_eq_self.mpr (line_of_isLiteral hliteral)]
        exact List.append_nil _
      rwa [hself]
    · rename_i hliteral
      rw [if_neg hliteral] at h
      -- a quote is no digit
      exact absurd h (by simp [onOneLine, isIntText, isDigit])

def leavesJct : Jct Leaves where
  get := Leaves.get
  set := Leaves.set
  printed s path := by
    unfold Leaves.get
    cases s.lookup path with
    | none => exact .inl rfl
    | some value =>
      obtain ⟨v, hv⟩ : ∃ v, Denotes (.value v) (printed value) := by
        unfold printed
        split
        · rename_i hliteral
          exact denotes_of_isLiteral hliteral
        · exact ⟨_, Denotes.string (chars_escaped value)⟩
      exact .inr ⟨v, [], printed value, [10], rfl, rfl, rfl, hv⟩
  same s path v h := by
    have hliteral : isLiteral v = true → output (unquoteString ((Leaves.set s path v).get path)) = unquoteString v := by
      intro hv
      rw [Leaves.get_set, printed, if_pos hv]
      exact output_unquoteString fun hmem => absurd (line_of_isLiteral hv 10 hmem) (by decide)
    cases h with
    | bool b => exact hliteral (by cases b <;> decide)
    | int hprints hint =>
      obtain ⟨s', path', rfl⟩ := hprints
      exact hliteral (isLiteral_of_isIntText s' path' hint)
    | word hword =>
      have hwords : ∀ w ∈ formats ++ modes, output (unquoteString (printed w ++ [10])) = unquoteString w := by decide
      rw [Leaves.get_set]
      exact hwords v (List.mem_append.mpr hword)
  other s path path' v h h' := by
    have hne : path' ≠ path := fun heq => h (heq ▸ List.prefix_refl _)
    rw [Leaves.get, Leaves.get, Leaves.set, List.lookup_cons, beq_false_of_ne hne]

/-- A body with one field. -/
def body (field value : String) : Leaves := [(ascii field, ascii value)]

/-- The format is set, the size of the clock's font is none, and the streamer restarts. -/
def requests : List (Event Leaves) :=
  [.set ⟨ascii "streams/1/format", body "format" "h265", false, .applied, true, true, true⟩,
    .set ⟨ascii "streams/1/osd/font-size", body "font_size" "big", false, .applied, true, true, true⟩, .restart]

end Run

end Thingino.Agent.Settings
