import Thingino.Lib.CommandLine
import Thingino.Lib.Shell

/-! The command that publishes a message.

`_ha_pub_confirm` puts a line together and hands it to another shell. Each configured text is put between single
quotes by `_sq`, which has `sed` replace the quotes in it, line by line; the newlines at the end of a text are lost
in `$(…)`. -/
namespace Thingino.Ha
open Lib Lib.Shell Lib.CommandLine

/-- A text without a newline at its end, as `$(…)` leaves them. -/
structure Text where
  bytes : List Byte
  plain : bytes.getLast? ≠ some 10

/-- What the configuration has on the broker, and the camera; the port and the prefix may be empty. -/
structure Broker where
  host : Text
  port : Text
  user : Text
  pass : Text
  ssl : Text
  clientPrefix : Text
  cameraId : Text

/-- `${…:-default}`. -/
def orDefault (s : List Byte) (default : List Byte) : List Byte := if s = [] then default else s

/-- `HA_MQTT_PORT`. -/
def Broker.mqttPort (b : Broker) : List Byte := orDefault b.port.bytes (ascii "1883")

/-- `HA_MQTT_CLIENT_PREFIX`. -/
def Broker.mqttClientPrefix (b : Broker) : List Byte := orDefault b.clientPrefix.bytes (ascii "thingino-ha")

/-- `sed "s/'/'\\''/g"`. -/
def sedQuotes (s : List Byte) : List Byte :=
  [10].intercalate ((s.splitOn 10).map fun line => line.flatMap fun c => if c = 39 then [39, 92, 39, 39] else [c])

/-- `_sq`. -/
def sq (s : List Byte) : List Byte := 39 :: (output (sedQuotes s) ++ [39])

def clientId (b : Broker) (suffix : List Byte) : List Byte :=
  b.mqttClientPrefix ++ ascii "-" ++ suffix ++ ascii "-" ++ b.cameraId.bytes

/-- What `ha_mpub_cmd` and `ha_msub_cmd` have in common. -/
def clientCmd (program : List Byte) (b : Broker) (suffix : List Byte) : List Byte :=
  let cmd := program ++ ascii " -h " ++ sq b.host.bytes ++ ascii " -p " ++ sq b.mqttPort
  let cmd := cmd ++ ascii " -i " ++ sq (clientId b suffix)
  let cmd := if b.user.bytes ≠ [] then cmd ++ ascii " -u " ++ sq b.user.bytes else cmd
  let cmd := if b.pass.bytes ≠ [] then cmd ++ ascii " -P " ++ sq b.pass.bytes else cmd
  if b.ssl.bytes = ascii "true" then cmd ++ ascii " --capath /etc/ssl/certs" else cmd

def haMpubCmd (b : Broker) (suffix : List Byte) : List Byte :=
  clientCmd (ascii "mosquitto_pub") b (orDefault suffix (ascii "pub"))

def haMsubCmd (b : Broker) (suffix : List Byte) : List Byte :=
  clientCmd (ascii "mosquitto_sub") b (orDefault suffix (ascii "sub"))

/-- The line that `_ha_pub_confirm` passes to `sh -c`. -/
def confirmLine (b : Broker) (retain suffix topic tmpfile : List Byte) : List Byte :=
  let mpub := output (haMpubCmd b suffix)
  let mpub := mpub ++ ascii " -q 1"
  let mpub := if retain = ascii "1" then mpub ++ ascii " -r" else mpub
  mpub ++ ascii " -t " ++ sq topic ++ ascii " -f " ++ sq tmpfile

/-- The arguments that `mosquitto_pub` and `mosquitto_sub` are to have. -/
def clientArguments (b : Broker) (suffix : List Byte) : List (List Byte) :=
  [ascii "-h", b.host.bytes, ascii "-p", b.mqttPort, ascii "-i", clientId b suffix] ++
    (if b.user.bytes ≠ [] then [ascii "-u", b.user.bytes] else []) ++
    (if b.pass.bytes ≠ [] then [ascii "-P", b.pass.bytes] else []) ++
    if b.ssl.bytes = ascii "true" then [ascii "--capath", ascii "/etc/ssl/certs"] else []

/-- The command that is meant. -/
def intended (b : Broker) (retain suffix topic tmpfile : List Byte) : Command :=
  ⟨[ascii "mosquitto_pub"] ++ clientArguments b (orDefault suffix (ascii "pub")) ++ [ascii "-q", ascii "1"] ++
    (if retain = ascii "1" then [ascii "-r"] else []) ++ [ascii "-t", topic, ascii "-f", tmpfile], []⟩

/-! ### `_sq` -/

section Quotes
variable {s : List Byte}

/-- Line by line or all at once: a newline is not replaced. -/
theorem intercalate_flatMap {f : Byte → List Byte} {c : Byte} (hf : f c = [c]) (s : List Byte) :
    [c].intercalate ((s.splitOn c).map fun line => line.flatMap f) = s.flatMap f := by
  induction s with
  | nil => rfl
  | cons b s ih =>
    have hne := List.splitOn_ne_nil c s
    rw [List.splitOn_cons_eq_if_modifyHead, List.flatMap_cons, ← ih]
    cases hs : s.splitOn c with
    | nil => exact absurd hs hne
    | cons line lines =>
      split
      · rename_i hb
        rw [beq_iff_eq.mp hb, hf]
        rfl
      · rw [List.modifyHead_cons, List.map_cons, List.map_cons, List.flatMap_cons]
        cases lines with
        | nil => rw [List.map_nil, List.intercalate_singleton, List.intercalate_singleton]
        | cons line' lines =>
          rw [List.map_cons, List.intercalate_cons_cons, List.intercalate_cons_cons]
          simp only [List.append_assoc]

theorem getLast?_append_ne {t : List Byte} {c : Byte} (ht : t.getLast? = some c) (hc : c ≠ 10) (s : List Byte) :
    (s ++ t).getLast? ≠ some 10 := by
  rw [List.getLast?_append, ht]
  exact fun h => hc (Option.some.inj h)

theorem getLast?_flatMap (h : s.getLast? ≠ some 10) :
    (s.flatMap fun c => if c = 39 then [39, 92, 39, 39] else [c]).getLast? ≠ some 10 := by
  induction s using List.reverseRecOn with
  | nil => exact h
  | append_singleton s c =>
    rw [List.getLast?_concat] at h
    rw [List.flatMap_append, List.flatMap_singleton]
    split
    · exact getLast?_append_ne (c := 39) rfl (by decide) _
    · rw [List.getLast?_concat]
      exact h

/-- The text comes out between single quotes, as the shell reads it back. -/
theorem sq_eq (h : s.getLast? ≠ some 10) : sq s = singleQuoted s := by
  have hsed : sedQuotes s = s.flatMap fun c => if c = 39 then [39, 92, 39, 39] else [c] := intercalate_flatMap rfl s
  rw [sq, hsed, output_eq_self (getLast?_flatMap h)]
  rfl

end Quotes

/-! ### The line -/

section Line
variable (b : Broker) (retain suffix topic tmpfile : List Byte)

theorem getLast?_orDefault {s default : List Byte} (hs : s.getLast? ≠ some 10) (hdefault : default.getLast? ≠ some 10) :
    (orDefault s default).getLast? ≠ some 10 := by
  unfold orDefault
  split
  · exact hdefault
  · exact hs

theorem getLast?_clientId : (clientId b suffix).getLast? ≠ some 10 := by
  have hid := b.cameraId.plain
  unfold clientId
  cases hlast : b.cameraId.bytes.getLast? with
  | some c => exact getLast?_append_ne hlast (fun hc => hid (hc ▸ hlast)) _
  | none =>
    rw [List.getLast?_eq_none_iff.mp hlast, List.append_nil]
    exact getLast?_append_ne (c := 45) rfl (by decide) _

/-- The words of the line behind its first one. -/
def clientParts : List Part :=
  [.bare (ascii "-h"), .quoted b.host.bytes, .bare (ascii "-p"), .quoted b.mqttPort, .bare (ascii "-i"),
      .quoted (clientId b suffix)] ++
    (if b.user.bytes ≠ [] then [.bare (ascii "-u"), .quoted b.user.bytes] else []) ++
    (if b.pass.bytes ≠ [] then [.bare (ascii "-P"), .quoted b.pass.bytes] else []) ++
    if b.ssl.bytes = ascii "true" then [.bare (ascii "--capath"), .bare (ascii "/etc/ssl/certs")] else []

def confirmParts : List Part :=
  clientParts b suffix ++ [.bare (ascii "-q"), .bare (ascii "1")] ++
    (if retain = ascii "1" then [.bare (ascii "-r")] else []) ++
    [.bare (ascii "-t"), .quoted topic, .bare (ascii "-f"), .quoted tmpfile]

theorem clientCmd_eq (program : List Byte) :
    clientCmd program b suffix = program ++ (clientParts b suffix).flatMap fun p => 32 :: p.source := by
  have hport : b.mqttPort.getLast? ≠ some 10 := getLast?_orDefault b.port.plain (by decide)
  have hh : ascii " -h " = 32 :: (ascii "-h" ++ [32]) := rfl
  have hp : ascii " -p " = 32 :: (ascii "-p" ++ [32]) := rfl
  have hi : ascii " -i " = 32 :: (ascii "-i" ++ [32]) := rfl
  have hu : ascii " -u " = 32 :: (ascii "-u" ++ [32]) := rfl
  have hP : ascii " -P " = 32 :: (ascii "-P" ++ [32]) := rfl
  have hcapath : ascii " --capath /etc/ssl/certs" = 32 :: (ascii "--capath" ++ 32 :: ascii "/etc/ssl/certs") := rfl
  simp only [clientCmd, clientParts, sq_eq b.host.plain, sq_eq hport, sq_eq (getLast?_clientId b suffix),
    sq_eq b.user.plain, sq_eq b.pass.plain, hh, hp, hi, hu, hP, hcapath]
  split <;> split <;> split <;>
    simp only [List.append_assoc, List.cons_append, List.nil_append, List.flatMap_cons, List.flatMap_nil,
      List.append_nil, Part.source]

/-- Nothing is lost in `$(…)`: the line ends with a quote or with the name of a directory. -/
theorem output_haMpubCmd : output (haMpubCmd b suffix) = haMpubCmd b suffix := by
  have hquote : ∀ front x : List Byte, (front ++ sq x).getLast? ≠ some 10 := fun front x =>
    getLast?_append_ne (c := 39) (by rw [sq, ← List.cons_append, List.getLast?_concat]) (by decide) front
  refine output_eq_self ?_
  simp only [haMpubCmd, clientCmd]
  split
  · exact getLast?_append_ne (c := 115) rfl (by decide) _
  · split
    · exact hquote _ _
    · split <;> exact hquote _ _

theorem confirmLine_eq (htopic : topic.getLast? ≠ some 10) (htmpfile : tmpfile.getLast? ≠ some 10) :
    confirmLine b retain suffix topic tmpfile =
      ascii "mosquitto_pub" ++
        (confirmParts b retain (orDefault suffix (ascii "pub")) topic tmpfile).flatMap fun p => 32 :: p.source := by
  have hq : ascii " -q 1" = 32 :: (ascii "-q" ++ 32 :: ascii "1") := rfl
  have hr : ascii " -r" = 32 :: ascii "-r" := rfl
  have ht : ascii " -t " = 32 :: (ascii "-t" ++ [32]) := rfl
  have hf : ascii " -f " = 32 :: (ascii "-f" ++ [32]) := rfl
  have hcmd : output (haMpubCmd b suffix) = _ :=
    (output_haMpubCmd b suffix).trans (clientCmd_eq b (orDefault suffix (ascii "pub")) (ascii "mosquitto_pub"))
  simp only [confirmLine, hcmd, confirmParts, sq_eq htopic, sq_eq htmpfile, hq, hr, ht, hf]
  split <;>
    simp only [List.append_assoc, List.cons_append, List.nil_append, List.flatMap_append, List.flatMap_cons,
      List.flatMap_nil, List.append_nil, Part.source]

theorem ok_clientParts : (clientParts b suffix).all Part.ok = true := by
  simp only [clientParts, List.all_append]
  split <;> split <;> split <;> rfl

theorem ok_confirmParts : ∀ p ∈ confirmParts b retain suffix topic tmpfile, p.ok = true := by
  rw [← List.all_eq_true]
  simp only [confirmParts, List.all_append, ok_clientParts]
  split <;> rfl

theorem text_clientParts : (clientParts b suffix).map Part.text = clientArguments b suffix := by
  simp only [clientParts, clientArguments, List.map_append]
  split <;> split <;> split <;> rfl

theorem text_confirmParts (suffix : List Byte) :
    ascii "mosquitto_pub" :: (confirmParts b retain (orDefault suffix (ascii "pub")) topic tmpfile).map Part.text =
      (intended b retain suffix topic tmpfile).argv := by
  simp only [confirmParts, intended, List.map_append, text_clientParts]
  split <;> rfl

end Line

/-- **Every argument is quoted**: the line is the one command with just the arguments that are meant, for all
settings, topics and files. -/
theorem confirmLine_command (b : Broker) (retain suffix : List Byte) (topic tmpfile : Text) :
    command (confirmLine b retain suffix topic.bytes tmpfile.bytes) =
      some (intended b retain suffix topic.bytes tmpfile.bytes) := by
  rw [confirmLine_eq b retain suffix topic.bytes tmpfile.bytes topic.plain tmpfile.plain,
    command_parts (by decide) (by decide) (ok_confirmParts b retain _ topic.bytes tmpfile.bytes),
    text_confirmParts b retain topic.bytes tmpfile.bytes suffix]
  rfl

/-- The command of a subscriber, before its topics. -/
theorem haMsubCmd_command (b : Broker) (suffix : List Byte) :
    command (haMsubCmd b suffix) =
      some ⟨ascii "mosquitto_sub" :: clientArguments b (orDefault suffix (ascii "sub")), []⟩ := by
  rw [haMsubCmd, clientCmd_eq, command_parts (by decide) (by decide) (List.all_eq_true.mp (ok_clientParts b _)),
    text_clientParts]

end Thingino.Ha
