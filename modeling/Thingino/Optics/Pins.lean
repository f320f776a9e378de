import Thingino.Lib.JsonText
import Thingino.Lib.Lines
import Thingino.Lib.Shell

/-! The pins of the IR-cut filter.

`load_ircut_config` walks over the value of `gpio.ircut`: a number or a text of tokens, an object with a pin, or an
array of these. Of the tokens it registers the first two pins, and a token `-1` disables the filter. -/
namespace Thingino.Optics.Pins
open Lib Lib.Shell

/-- How `jct` writes a number, and what it writes behind the bracket of an array or an object. -/
structure Jct where
  number : List Byte → List Byte
  behind : JsonText.Value → List Byte

/-- `[-A-Za-z0-9]`. -/
def isPlain (b : Byte) : Bool :=
  isDigit b || 65 ≤ b.toNat && b.toNat ≤ 90 || 97 ≤ b.toNat && b.toNat ≤ 122 || b = 45

/-- What the shell makes of words, and of `${token#${token%?}}`, in which a part of the token is a pattern. -/
structure Sh extends Glob where
  suffix : List Byte → List Byte
  suffix_suffix : ∀ token, suffix token <:+ token
  suffix_plain : ∀ (pin : List Byte) (b : Byte), (pin ++ [b]).all isPlain = true → suffix (pin ++ [b]) = [b]

/-! ### Tokens -/

structure State where
  pin1 : List Byte
  pin2 : List Byte
  pin1ActiveLow : Bool
  pin2ActiveLow : Bool
  pinCount : Nat
  disabled : Bool

/-- `"" | *[!0-9]`. -/
def isInvalid (pin : List Byte) : Bool := !pin.getLast?.any isDigit

/-- `register_pin`. -/
def registerPin (s : State) (pin : List Byte) (activeLow : Bool) : State :=
  if s.disabled then s
  else if pin = ascii "-1" then { s with disabled := true, pin1 := [], pin2 := [], pinCount := 0 }
  else if isInvalid pin then s
  else if s.pin1 = [] then { s with pin1 := pin, pin1ActiveLow := activeLow, pinCount := 1 }
  else if s.pin2 = [] then { s with pin2 := pin, pin2ActiveLow := activeLow, pinCount := 2 }
  else s

/-- `parse_pin_token`. -/
def parsePinToken (sh : Sh) (s : State) (token : List Byte) (defaultActive : Bool) : State :=
  if token = [] then s
  else if token = ascii "999" then registerPin s (ascii "999") defaultActive
  else if token = ascii "-1" then registerPin s (ascii "-1") defaultActive
  else if sh.suffix token = [111] then registerPin s token.dropLast true
  else if sh.suffix token = [79] then registerPin s token.dropLast false
  else registerPin s token defaultActive

/-- The words of a text, in which carriage returns are blanks too. -/
def blankWords (raw : List Byte) : List (List Byte) := words (raw.map fun b => if b = 13 ∨ b = 10 then 32 else b)

/-- `set -- $tokens`. -/
def expanded (sh : Sh) (raw : List Byte) : List (List Byte) := (blankWords raw).flatMap sh.expand

/-- The loop over the tokens. -/
def parseTokens (sh : Sh) (defaultActive : Bool) (s : State) : List (List Byte) → State
  | [] => s
  | token :: tokens =>
    let s := parsePinToken sh s token defaultActive
    if s.disabled then s else parseTokens sh defaultActive s tokens

/-- `parse_scalar_tokens`. -/
def parseScalarTokens (sh : Sh) (s : State) (raw : List Byte) (defaultActive : Bool) : State :=
  parseTokens sh defaultActive s (expanded sh raw)

/-! ### The walk -/

/-- What `jct get` prints of a value. -/
def Jct.print (j : Jct) : JsonText.Value → List Byte
  | .null => ascii "null\n"
  | .bool b => ascii (if b then "true\n" else "false\n")
  | .number literal => j.number literal ++ [10]
  | .string text => text ++ [10]
  | .array vs => 91 :: j.behind (.array vs)
  | .object ms => 123 :: j.behind (.object ms)

/-- A path below `gpio.ircut`. -/
abbrev Key := List (List Byte)

def valueAt : JsonText.Value → Key → Option JsonText.Value
  | v, [] => some v
  | .object ms, name :: key => (ms.lookup name).bind fun v => valueAt v key
  | .array vs, name :: key =>
    if name ≠ [] && name.all isDigit then vs[decimal name]?.bind fun v => valueAt v key else none
  | _, _ :: _ => none

/-- `first_char`, the first byte of it. -/
def firstChar (raw : List Byte) : Option Byte :=
  ((raw.splitOn 10).find? (· ≠ [])).bind fun line => (line.dropWhile isSpace).head?.or line.getLast?

/-- `bool_flag`. -/
def boolFlag (s : List Byte) (default : Bool) : Bool :=
  if ["1", "true", "TRUE", "on", "ON", "yes", "YES"].any (ascii · = s) then true
  else if ["0", "false", "FALSE", "off", "OFF", "no", "NO"].any (ascii · = s) then false
  else default

section Walk
variable (sh : Sh) (j : Jct) (root : JsonText.Value)

def jctHas (key : Key) : Bool := (valueAt root key).isSome

/-- `$(jct_get "$key")`. -/
def jctGet (key : Key) : Option (List Byte) := (valueAt root key).map fun v => output (j.print v)

def getBoolOrDefault (key : Key) (default : Bool) : Bool :=
  match jctGet j root key with
  | none => default
  | some raw => boolFlag (raw.filter fun b => b ≠ 13 && b ≠ 10 && b ≠ 34) default

mutual

/-- `extract_node`. -/
def extractNode : Nat → Key → Bool → State → Option State
  | 0, _, _, _ => none
  | fuel + 1, key, defaultActive, s =>
    if s.disabled then some s
    else
      let nodeActive := getBoolOrDefault j root (key ++ [ascii "active_low"]) defaultActive
      if jctHas root (key ++ [ascii "pin"]) then extractNode fuel (key ++ [ascii "pin"]) nodeActive s
      else
        match jctGet j root key with
        | none => some s
        | some raw =>
          if firstChar raw = some 91 then extractElements fuel key 0 nodeActive s
          else if firstChar raw = some 123 then some s
          else some (parseScalarTokens sh s raw nodeActive)

/-- The loop over an array. -/
def extractElements : Nat → Key → Nat → Bool → State → Option State
  | 0, _, _, _, _ => none
  | fuel + 1, key, idx, nodeActive, s =>
    if jctHas root (key ++ [digits idx]) then
      (extractNode fuel (key ++ [digits idx]) nodeActive s).bind fun s =>
        if s.disabled then some s else extractElements fuel key (idx + 1) nodeActive s
    else some s

end

/-- `load_ircut_config`, with the variable `gpio_ircut`; the value is there. -/
def loadIrcutConfig (fuel : Nat) (gpioIrcut : List Byte) : Option State :=
  let defaultActive := getBoolOrDefault j root [ascii "active_low"] false
  (extractNode sh j root fuel [] defaultActive ⟨[], [], false, false, 0, false⟩).map fun s =>
    if s.pinCount = 0 ∧ s.disabled = false ∧ gpioIrcut ≠ [] then parseScalarTokens sh s gpioIrcut defaultActive else s

end Walk

/-! ### The grammar -/

/-- The flag that is nearest. -/
def nearest (j : Jct) (active : Bool) (ms : List (List Byte × JsonText.Value)) : Bool :=
  match ms.lookup (ascii "active_low") with
  | none => active
  | some v => boolFlag ((output (j.print v)).filter fun b => b ≠ 13 && b ≠ 10 && b ≠ 34) active

section Tokens
variable (j : Jct) (read : List Byte → List (List Byte))

mutual

/-- What is read of a value, in its order, each token with the flag nearest to it. -/
def walk (active : Bool) : JsonText.Value → List (List Byte × Bool)
  | .array vs => walkElements active vs
  | .object ms => walkPin (nearest j active ms) ms
  | v => (read (output (j.print v))).map fun token => (token, active)

def walkElements (active : Bool) : List JsonText.Value → List (List Byte × Bool)
  | [] => []
  | v :: vs => walk active v ++ walkElements active vs

def walkPin (active : Bool) : List (List Byte × JsonText.Value) → List (List Byte × Bool)
  | [] => []
  | (name, v) :: ms => if name = ascii "pin" then walk active v else walkPin active ms

end

end Tokens

/-- The tokens of a value. -/
def tokens (j : Jct) (v : JsonText.Value) : List (List Byte × Bool) := walk j blankWords false v

/-- A token is a number, with the letter of its polarity behind it if it has one. -/
def wellFormed (t : List Byte × Bool) : Option (List Byte × Bool) :=
  let pin := t.1.takeWhile isDigit
  let letter := t.1.dropWhile isDigit
  if pin = [] then none
  else if letter = [] then some (pin, t.2)
  else if letter = [111] then some (pin, true)
  else if letter = [79] then some (pin, false)
  else none

def State.registered (s : State) : List (List Byte × Bool) :=
  (if s.pin1 = [] then [] else [(s.pin1, s.pin1ActiveLow)]) ++ if s.pin2 = [] then [] else [(s.pin2, s.pin2ActiveLow)]

/-- **The pins are those of the tokens.** -/
structure Parsed (s : State) (ts : List (List Byte × Bool)) : Prop where
  disabled : s.disabled = true ↔ ∃ t ∈ ts, t.1 = ascii "-1"
  registered : s.registered = if s.disabled then [] else (ts.filterMap wellFormed).take 2
  count : s.pinCount = s.registered.length
  digit : ∀ p ∈ s.registered, p.1.all isDigit = true

/-! ### What the walk sees -/

/-- The pin that a token stands for, before it is looked at. -/
def pinOf (sh : Sh) (t : List Byte × Bool) : List Byte × Bool :=
  if t.1 = ascii "999" ∨ t.1 = ascii "-1" then t
  else if sh.suffix t.1 = [111] then (t.1.dropLast, true)
  else if sh.suffix t.1 = [79] then (t.1.dropLast, false)
  else t

def turnsOff (sh : Sh) (t : List Byte × Bool) : Bool := (pinOf sh t).1 = ascii "-1"

/-- A token that passes the test of `register_pin`. -/
def accepted (sh : Sh) (t : List Byte × Bool) : Option (List Byte × Bool) :=
  if turnsOff sh t || isInvalid (pinOf sh t).1 then none else some (pinOf sh t)

/-- A text that begins with a bracket is taken for an array or an object. -/
def visible (sh : Sh) (raw : List Byte) : List (List Byte) :=
  if firstChar raw = some 91 ∨ firstChar raw = some 123 then [] else expanded sh raw

/-- What the walk comes to see of the value, and of the variable if there is no pin in the value. -/
def seen (sh : Sh) (j : Jct) (root : JsonText.Value) (gpioIrcut : List Byte) : List (List Byte × Bool) :=
  let ts := walk j (visible sh) false root
  if ts.any fun t => turnsOff sh t || (accepted sh t).isSome then ts
  else ts ++ (expanded sh gpioIrcut).map fun token => (token, getBoolOrDefault j root [ascii "active_low"] false)

/-- What is seen turns the filter off exactly if a token is `-1`; else the first two tokens that pass the test are
numbers, and what is not seen, or seen in addition, leaves the first two of the well-formed tokens as they are. -/
structure Clean (sh : Sh) (seen ts : List (List Byte × Bool)) : Prop where
  off : (∃ t ∈ seen, turnsOff sh t = true) ↔ ∃ t ∈ ts, t.1 = ascii "-1"
  digit : (∀ t ∈ ts, t.1 ≠ ascii "-1") → ∀ p ∈ (seen.filterMap (accepted sh)).take 2, p.1.all isDigit = true
  same : (∀ t ∈ ts, t.1 ≠ ascii "-1") →
    (seen.filterMap wellFormed).take 2 = (ts.filterMap wellFormed).take 2

/-! ### Registering -/

section Register
variable {sh : Sh} {s : State} {t : List Byte × Bool} {ts : List (List Byte × Bool)}

def register (sh : Sh) (s : State) (t : List Byte × Bool) : State := registerPin s (pinOf sh t).1 (pinOf sh t).2

def registerAll (sh : Sh) (s : State) (ts : List (List Byte × Bool)) : State := ts.foldl (register sh) s

theorem parsePinToken_eq (sh : Sh) (s : State) (token : List Byte) (active : Bool) :
    parsePinToken sh s token active = register sh s (token, active) := by
  unfold parsePinToken register pinOf
  by_cases hnil : token = []
  · subst hnil
    have hsuffix : sh.suffix [] = [] := List.suffix_nil.mp (sh.suffix_suffix [])
    have hnot : ¬(([] : List Byte) = ascii "999" ∨ ([] : List Byte) = ascii "-1") := by decide
    have hone : ([] : List Byte) ≠ ascii "-1" := by decide
    have hinvalid : isInvalid [] = true := rfl
    rw [if_pos rfl, if_neg hnot, hsuffix, if_neg (by decide), if_neg (by decide), registerPin, if_neg hone,
      if_pos hinvalid, ite_self]
  · rw [if_neg hnil]
    by_cases hplain : token = ascii "999" ∨ token = ascii "-1"
    · rw [if_pos hplain]
      obtain rfl | rfl := hplain
      · exact if_pos rfl
      · exact (if_neg (by decide)).trans (if_pos rfl)
    · obtain ⟨hnine, hoff⟩ := not_or.mp hplain
      rw [if_neg hnine, if_neg hoff, if_neg hplain]
      split
      · rfl
      · split <;> rfl

theorem registerAll_disabled (h : s.disabled = true) (ts : List (List Byte × Bool)) : registerAll sh s ts = s := by
  induction ts with
  | nil => rfl
  | cons t ts ih =>
    have hregister : register sh s t = s := if_pos h
    rw [registerAll, List.foldl_cons, hregister]
    exact ih

theorem registerAll_append (ts ts' : List (List Byte × Bool)) :
    registerAll sh s (ts ++ ts') = registerAll sh (registerAll sh s ts) ts' := List.foldl_append

/-- The loop may stop when the filter is disabled. -/
theorem parseScalarTokens_eq (raw : List Byte) (active : Bool) : parseScalarTokens sh s raw active =
    registerAll sh s ((expanded sh raw).map fun token => (token, active)) := by
  unfold parseScalarTokens
  induction expanded sh raw generalizing s with
  | nil => rfl
  | cons token tokens ih =>
    rw [parseTokens, parsePinToken_eq, List.map_cons]
    split
    · rename_i hdisabled
      exact (registerAll_disabled hdisabled _).symm
    · exact ih

/-- What is registered when some pins have passed the test. -/
def held (ps : List (List Byte × Bool)) : State where
  pin1 := (ps[0]?.map Prod.fst).getD []
  pin2 := (ps[1]?.map Prod.fst).getD []
  pin1ActiveLow := (ps[0]?.map Prod.snd).getD false
  pin2ActiveLow := (ps[1]?.map Prod.snd).getD false
  pinCount := min ps.length 2
  disabled := false

theorem accepted_ne_nil {p : List Byte × Bool} (h : accepted sh t = some p) : p.1 ≠ [] := by
  unfold accepted at h
  split at h
  · exact absurd h.symm (Option.some_ne_none _)
  · rename_i hnot
    obtain rfl := Option.some.inj h
    intro hnil
    rw [hnil] at hnot
    exact hnot (Bool.or_eq_true_iff.mpr (.inr rfl))

/-- A token changes nothing, or adds its pin. -/
theorem register_held {ps : List (List Byte × Bool)} (hps : ∀ p ∈ ps, p.1 ≠ []) (hoff : turnsOff sh t = false) :
    register sh (held ps) t = held (ps ++ (accepted sh t).toList) := by
  have hone : (pinOf sh t).1 ≠ ascii "-1" := of_decide_eq_false hoff
  have henabled : ¬(held ps).disabled = true := Bool.false_ne_true
  rw [register, registerPin, if_neg henabled, if_neg hone, accepted, hoff, Bool.false_or]
  split
  · rw [Option.toList_none, List.append_nil]
  · rw [Option.toList_some]
    match ps with
    | [] => rfl
    | [a] => exact if_neg (hps a List.mem_cons_self)
    | a :: b :: ps =>
      have ha : (held (a :: b :: ps)).pin1 ≠ [] := hps a List.mem_cons_self
      have hb : (held (a :: b :: ps)).pin2 ≠ [] := hps b (List.mem_cons_of_mem _ List.mem_cons_self)
      rw [if_neg ha, if_neg hb]
      simp [held]

theorem registerAll_held {ps : List (List Byte × Bool)} (hps : ∀ p ∈ ps, p.1 ≠ [])
    (hoff : ∀ t ∈ ts, turnsOff sh t = false) :
    registerAll sh (held ps) ts = held (ps ++ ts.filterMap (accepted sh)) := by
  induction ts generalizing ps with
  | nil => rw [List.filterMap_nil, List.append_nil]; rfl
  | cons t ts ih =>
    obtain ⟨ht, hts⟩ := List.forall_mem_cons.mp hoff
    have hps' : ∀ p ∈ ps ++ (accepted sh t).toList, p.1 ≠ [] := by
      intro p hp
      obtain hp | hp := List.mem_append.mp hp
      · exact hps p hp
      · exact accepted_ne_nil (Option.mem_toList.mp hp)
    have hrest := ih hps' hts
    rw [registerAll] at hrest ⊢
    rw [List.foldl_cons, register_held hps ht, hrest, List.append_assoc, List.filterMap_cons]
    cases accepted sh t <;> rfl

/-- A token `-1` is the last that counts. -/
theorem registerAll_off (hs : s.disabled = false) (hoff : ∃ t ∈ ts, turnsOff sh t = true) :
    (registerAll sh s ts).disabled = true ∧ (registerAll sh s ts).registered = [] ∧
      (registerAll sh s ts).pinCount = 0 := by
  induction ts generalizing s with
  | nil => exact absurd hoff (by rintro ⟨t, ht, -⟩; exact List.not_mem_nil ht)
  | cons t ts ih =>
    rw [registerAll, List.foldl_cons]
    have henabled : ¬s.disabled = true := Bool.eq_false_iff.mp hs
    cases ht : turnsOff sh t with
    | true =>
      have hone : (pinOf sh t).1 = ascii "-1" := of_decide_eq_true ht
      have hregister : register sh s t = { s with disabled := true, pin1 := [], pin2 := [], pinCount := 0 } := by
        rw [register, registerPin, if_neg henabled, if_pos hone]
      have hrest : registerAll sh (register sh s t) ts = register sh s t :=
        registerAll_disabled (by rw [hregister]) ts
      rw [registerAll] at hrest
      rw [hrest, hregister]
      exact ⟨rfl, rfl, rfl⟩
    | false =>
      have hone : (pinOf sh t).1 ≠ ascii "-1" := of_decide_eq_false ht
      have hkeep : (register sh s t).disabled = false := by
        rw [register, registerPin, if_neg henabled, if_neg hone]
        split
        · exact hs
        · split
          · exact hs
          · split <;> exact hs
      have hrest : ∃ t ∈ ts, turnsOff sh t = true := by
        obtain ⟨t', ht', htrue⟩ := hoff
        obtain rfl | ht' := List.mem_cons.mp ht'
        · exact absurd (ht.symm.trans htrue) Bool.false_ne_true
        · exact ⟨t', ht', htrue⟩
      exact ih hkeep hrest

theorem registered_held {ps : List (List Byte × Bool)} (hps : ∀ p ∈ ps, p.1 ≠ []) :
    (held ps).registered = ps.take 2 := by
  match ps with
  | [] => rfl
  | [a] =>
    have ha : (held [a]).pin1 ≠ [] := hps a List.mem_cons_self
    rw [State.registered, if_neg ha]
    rfl
  | a :: b :: ps =>
    have ha : (held (a :: b :: ps)).pin1 ≠ [] := hps a List.mem_cons_self
    have hb : (held (a :: b :: ps)).pin2 ≠ [] := hps b (List.mem_cons_of_mem _ List.mem_cons_self)
    rw [State.registered, if_neg ha, if_neg hb]
    rfl

end Register

/-! ### Well-formed tokens -/

section WellFormed
variable {sh : Sh} {t p : List Byte × Bool}

/-- The number with its polarity. -/
def Spells (t p : List Byte × Bool) : Prop :=
  t.1 = p.1 ∧ p.2 = t.2 ∨ t.1 = p.1 ++ [111] ∧ p.2 = true ∨ t.1 = p.1 ++ [79] ∧ p.2 = false

theorem wellFormed_eq_some_iff :
    wellFormed t = some p ↔ p.1 ≠ [] ∧ p.1.all isDigit = true ∧ Spells t p := by
  have hsplit : t.1.takeWhile isDigit ++ t.1.dropWhile isDigit = t.1 := List.takeWhile_append_dropWhile
  have hall : (t.1.takeWhile isDigit).all isDigit = true := List.all_takeWhile
  constructor
  · intro h
    unfold wellFormed at h
    dsimp only at h
    split at h
    · exact absurd h.symm (Option.some_ne_none _)
    · rename_i hne
      split at h
      · rename_i hletter
        obtain rfl := Option.some.inj h
        rw [hletter, List.append_nil] at hsplit
        exact ⟨hne, hall, .inl ⟨hsplit.symm, rfl⟩⟩
      · split at h
        · rename_i hletter
          obtain rfl := Option.some.inj h
          rw [hletter] at hsplit
          exact ⟨hne, hall, .inr (.inl ⟨hsplit.symm, rfl⟩)⟩
        · split at h
          · rename_i hletter
            obtain rfl := Option.some.inj h
            rw [hletter] at hsplit
            exact ⟨hne, hall, .inr (.inr ⟨hsplit.symm, rfl⟩)⟩
          · exact absurd h.symm (Option.some_ne_none _)
  · rintro ⟨hne, hdigits, hspells⟩
    obtain ⟨token, active⟩ := t
    obtain ⟨pin, low⟩ := p
    have hdigit : ∀ b ∈ pin, isDigit b = true := List.all_eq_true.mp hdigits
    have hread (letter : List Byte) (htake : letter.takeWhile isDigit = [])
        (hdrop : letter.dropWhile isDigit = letter) :
        (pin ++ letter).takeWhile isDigit = pin ∧ (pin ++ letter).dropWhile isDigit = letter := by
      rw [List.takeWhile_append_of_pos hdigit, List.dropWhile_append_of_pos hdigit, htake, hdrop, List.append_nil]
      exact ⟨rfl, rfl⟩
    unfold wellFormed
    dsimp only [Spells] at hne hspells ⊢
    obtain ⟨rfl, rfl⟩ | ⟨rfl, rfl⟩ | ⟨rfl, rfl⟩ := hspells
    · have hself := hread [] rfl rfl
      rw [List.append_nil] at hself
      rw [hself.1, hself.2, if_neg hne, if_pos rfl]
    · have hself := hread [111] rfl rfl
      rw [hself.1, hself.2, if_neg hne]
      rfl
    · have hself := hread [79] rfl rfl
      rw [hself.1, hself.2, if_neg hne]
      rfl

theorem isPlain_of_isDigit {b : Byte} (h : isDigit b = true) : isPlain b = true := by
  rw [isPlain, h]
  rfl

/-- The letter of a number. -/
theorem suffix_number (sh : Sh) {pin : List Byte} (hdigits : pin.all isDigit = true) {b : Byte}
    (hb : isPlain b = true) : sh.suffix (pin ++ [b]) = [b] := by
  refine sh.suffix_plain pin b (List.all_eq_true.mpr fun c hc => ?_)
  obtain hc | hc := List.mem_append.mp hc
  · exact isPlain_of_isDigit (List.all_eq_true.mp hdigits c hc)
  · rw [List.mem_singleton.mp hc]
    exact hb

theorem pinOf_of_spells (hdigits : p.1.all isDigit = true) (hne : p.1 ≠ []) (h : Spells t p) : pinOf sh t = p := by
  obtain ⟨token, active⟩ := t
  obtain ⟨pin, low⟩ := p
  unfold pinOf
  dsimp only [Spells] at hdigits hne h ⊢
  obtain ⟨rfl, rfl⟩ | h := h
  · split
    · rfl
    · have hlast := List.dropLast_append_getLast hne
      have hdigit : isDigit (token.getLast hne) = true := List.all_eq_true.mp hdigits _ (List.getLast_mem hne)
      have hinit : token.dropLast.all isDigit = true :=
        List.all_eq_true.mpr fun b hb => List.all_eq_true.mp hdigits b (List.mem_of_mem_dropLast hb)
      have hsuffix := suffix_number sh hinit (isPlain_of_isDigit hdigit)
      rw [hlast] at hsuffix
      have hletter (b : Byte) (hb : isDigit b = false) : sh.suffix token ≠ [b] := fun heq => by
        rw [hsuffix] at heq
        rw [(List.cons.inj heq).1, hb] at hdigit
        exact Bool.false_ne_true hdigit
      rw [if_neg (hletter 111 rfl), if_neg (hletter 79 rfl)]
  · have hspecial (b : Byte) (hb : isDigit b = false) : ¬(pin ++ [b] = ascii "999" ∨ pin ++ [b] = ascii "-1") := by
      have hlast (s : List Byte) (h : pin ++ [b] = s) : s.getLast? = some b := by
        rw [← h, List.getLast?_concat]
      rintro (h | h)
      · obtain rfl : 57 = b := Option.some.inj (hlast _ h)
        exact absurd hb (by decide)
      · obtain rfl : 49 = b := Option.some.inj (hlast _ h)
        exact absurd hb (by decide)
    obtain ⟨rfl, rfl⟩ | ⟨rfl, rfl⟩ := h
    · rw [if_neg (hspecial 111 rfl), if_pos (suffix_number sh hdigits rfl), List.dropLast_concat]
    · rw [if_neg (hspecial 79 rfl), suffix_number sh hdigits rfl, if_neg (by decide), if_pos rfl, List.dropLast_concat]

theorem spells_pinOf (sh : Sh) (t : List Byte × Bool) : Spells t (pinOf sh t) := by
  have hlast {b : Byte} (h : sh.suffix t.1 = [b]) : t.1 = t.1.dropLast ++ [b] := by
    obtain ⟨s, hs⟩ := sh.suffix_suffix t.1
    rw [h] at hs
    rw [← hs, List.dropLast_concat]
  unfold pinOf
  split
  · exact .inl ⟨rfl, rfl⟩
  · split
    · rename_i h
      exact .inr (.inl ⟨hlast h, rfl⟩)
    · split
      · rename_i h
        exact .inr (.inr ⟨hlast h, rfl⟩)
      · exact .inl ⟨rfl, rfl⟩

/-- **The well-formed tokens are those that pass the test with a number.** -/
theorem wellFormed_eq (sh : Sh) (t : List Byte × Bool) :
    wellFormed t = (accepted sh t).filter fun p => p.1.all isDigit := by
  refine Option.ext fun p => ?_
  rw [wellFormed_eq_some_iff, Option.filter_eq_some_iff]
  constructor
  · rintro ⟨hne, hdigits, hspells⟩
    have hpin : pinOf sh t = p := pinOf_of_spells hdigits hne hspells
    have hoff : turnsOff sh t = false := by
      rw [turnsOff, hpin]
      refine decide_eq_false fun h => ?_
      rw [h] at hdigits
      exact absurd hdigits (by decide)
    have hvalid : isInvalid p.1 = false := by
      rw [isInvalid, List.getLast?_eq_getLast_of_ne_nil hne, Option.any_some,
        List.all_eq_true.mp hdigits _ (List.getLast_mem hne)]
      rfl
    refine ⟨?_, hdigits⟩
    rw [accepted, hoff, hpin, hvalid]
    rfl
  · rintro ⟨haccepted, hdigits⟩
    have hne := accepted_ne_nil haccepted
    unfold accepted at haccepted
    split at haccepted
    · exact absurd haccepted.symm (Option.some_ne_none _)
    · obtain rfl := Option.some.inj haccepted
      exact ⟨hne, hdigits, spells_pinOf sh t⟩

end WellFormed

/-! ### The walk ends -/

theorem firstChar_cons {b : Byte} (hb : isSpace b = false) (s : List Byte) : firstChar (b :: s) = some b := by
  have hne : b ≠ 10 := by
    rintro rfl
    exact absurd hb (by decide)
  have hline (line : List Byte) (rest : List (List Byte)) (hsplit : (b :: s).splitOn 10 = (b :: line) :: rest) :
      firstChar (b :: s) = some b := by
    rw [firstChar, hsplit, List.find?_cons_of_pos (by simp), Option.bind_some,
      List.dropWhile_cons_of_neg (Bool.eq_false_iff.mp hb)]
    rfl
  by_cases hmem : 10 ∈ s
  · obtain ⟨rest, hrest⟩ := exists_eq_cut hmem
    have hnot : 10 ∉ b :: s.takeWhile (· ≠ 10) := by
      rw [List.mem_cons, not_or]
      exact ⟨hne.symm, fun h => by simpa using List.mem_takeWhile_imp h⟩
    have hcut := Lines.splitOn_cut hnot rest
    rw [List.cons_append, ← hrest] at hcut
    exact hline _ _ hcut
  · refine hline s [] (List.splitOn_eq_singleton fun h => ?_)
    exact (List.mem_cons.mp h).elim (fun h => hne h.symm) hmem

section Walk
variable {sh : Sh} {j : Jct} {root : JsonText.Value} {s : State} {key : Key} {active : Bool}

theorem valueAt_nil (v : JsonText.Value) : valueAt v [] = some v := by cases v <;> rfl

theorem valueAt_append (v : JsonText.Value) (key key' : Key) :
    valueAt v (key ++ key') = (valueAt v key).bind fun w => valueAt w key' := by
  induction key generalizing v with
  | nil => rw [List.nil_append, valueAt_nil, Option.bind_some]
  | cons name key ih =>
    cases v with
    | object ms =>
      rw [List.cons_append, valueAt, valueAt, Option.bind_assoc]
      exact congrArg _ (funext fun v => ih v)
    | array vs =>
      rw [List.cons_append, valueAt, valueAt]
      split
      · rw [Option.bind_assoc]
        exact congrArg _ (funext fun v => ih v)
      · rfl
    | _ => rfl

theorem valueAt_child {w : JsonText.Value} (h : valueAt root key = some w) (name : List Byte) :
    valueAt root (key ++ [name]) = valueAt w [name] := by
  rw [valueAt_append, h, Option.bind_some]

theorem valueAt_member (ms : List (List Byte × JsonText.Value)) (name : List Byte) :
    valueAt (.object ms) [name] = ms.lookup name := by
  rw [valueAt]
  cases ms.lookup name <;> rfl

theorem valueAt_element (vs : List JsonText.Value) (i : Nat) : valueAt (.array vs) [digits i] = vs[i]? := by
  rw [valueAt, all_isDigit_digits, decide_eq_true (digits_ne_nil i), decimal_digits]
  cases vs[i]? <;> rfl

theorem getBoolOrDefault_eq (key : Key) (ms : List (List Byte × JsonText.Value))
    (h : valueAt root (key ++ [ascii "active_low"]) = ms.lookup (ascii "active_low")) :
    getBoolOrDefault j root (key ++ [ascii "active_low"]) active = nearest j active ms := by
  rw [getBoolOrDefault, jctGet, h, nearest]
  cases ms.lookup (ascii "active_low") <;> rfl

theorem jctHas_some {w : JsonText.Value} (h : valueAt root key = some w) : jctHas root key = true := by
  rw [jctHas, h]
  rfl

theorem jctHas_none (h : valueAt root key = none) : ¬jctHas root key = true := by
  rw [jctHas, h]
  exact Bool.false_ne_true

theorem jctGet_some {w : JsonText.Value} (h : valueAt root key = some w) :
    jctGet j root key = some (output (j.print w)) := by
  rw [jctGet, h]
  rfl

theorem getBoolOrDefault_none (h : valueAt root key = none) : getBoolOrDefault j root key active = active := by
  rw [getBoolOrDefault, jctGet, h]
  rfl

/-- What has no members is read as a text, unless it is an array. -/
theorem extractNode_scalar {w : JsonText.Value} (fuel : Nat) (h : valueAt root key = some w)
    (hleaf : ∀ name, valueAt w [name] = none) (henabled : ¬s.disabled = true)
    (hwalk : walk j (visible sh) active w = (visible sh (output (j.print w))).map fun token => (token, active)) :
    extractNode sh j root (fuel + 2) key active s = some (registerAll sh s (walk j (visible sh) active w)) := by
  have hnone (name : List Byte) : valueAt root (key ++ [name]) = none := (valueAt_child h name).trans (hleaf name)
  rw [hwalk, extractNode, if_neg henabled, getBoolOrDefault_none (hnone _), jctGet_some h]
  dsimp only
  rw [if_neg (jctHas_none (hnone _)), visible]
  split
  · rename_i hopen
    rw [extractElements, if_neg (jctHas_none (hnone _)), if_pos (.inl hopen)]
    rfl
  · rename_i hopen
    split
    · rename_i hbrace
      rw [if_pos (.inr hbrace)]
      rfl
    · rename_i hbrace
      rw [if_neg (not_or.mpr ⟨hopen, hbrace⟩), parseScalarTokens_eq]

theorem walkPin_eq (ms : List (List Byte × JsonText.Value)) (read : List Byte → List (List Byte)) :
    walkPin j read active ms = match ms.lookup (ascii "pin") with
      | some v => walk j read active v
      | none => [] := by
  induction ms with
  | nil => rfl
  | cons m ms ih =>
    obtain ⟨name, v⟩ := m
    rw [walkPin, List.lookup_cons]
    by_cases hname : name = ascii "pin"
    · rw [if_pos hname, beq_iff_eq.mpr hname.symm]
    · rw [if_neg hname, beq_eq_false_iff_ne.mpr (Ne.symm hname)]
      exact ih

/-- With so much fuel, the walk over a value registers what it sees of it. -/
def Walks (sh : Sh) (j : Jct) (root w : JsonText.Value) (n : Nat) : Prop :=
  ∀ fuel, n ≤ fuel → ∀ key active s, valueAt root key = some w → s.disabled = false →
    extractNode sh j root fuel key active s = some (registerAll sh s (walk j (visible sh) active w))

theorem walks_scalar {w : JsonText.Value} (hleaf : ∀ name, valueAt w [name] = none)
    (hwalk : ∀ active, walk j (visible sh) active w =
      (visible sh (output (j.print w))).map fun token => (token, active)) : Walks sh j root w 2 := by
  intro fuel hfuel key active s h hs
  obtain ⟨fuel, rfl⟩ := Nat.exists_eq_add_of_le' hfuel
  exact extractNode_scalar fuel h hleaf (Bool.eq_false_iff.mp hs) (hwalk active)

/-- The first byte that is printed of an array or an object. -/
theorem firstChar_output {b : Byte} (hb : isSpace b = false) (s : List Byte) :
    firstChar (output (b :: s)) = some b := by
  have hline : decide (b = 10) = false := decide_eq_false fun h => by
    rw [h] at hb
    exact absurd hb (by decide)
  have hkeep : output (b :: s) = b :: output s := @rdropWhile_append (· = 10) [] b hline s
  rw [hkeep]
  exact firstChar_cons hb _

mutual

theorem walks (w : JsonText.Value) : ∃ n, Walks sh j root w n := by
  cases w with
  | null => exact ⟨2, walks_scalar (fun _ => rfl) fun _ => rfl⟩
  | bool b => exact ⟨2, walks_scalar (fun _ => rfl) fun _ => rfl⟩
  | number literal => exact ⟨2, walks_scalar (fun _ => rfl) fun _ => rfl⟩
  | string text => exact ⟨2, walks_scalar (fun _ => rfl) fun _ => rfl⟩
  | array vs =>
    obtain ⟨n, hn⟩ := walks_elements vs
    refine ⟨n + 1, fun fuel hfuel key active s h hs => ?_⟩
    obtain ⟨fuel, rfl⟩ := Nat.exists_eq_add_of_le' (Nat.one_le_of_lt hfuel)
    have hnone (name : List Byte) (hname : name.all isDigit = false) : valueAt root (key ++ [name]) = none := by
      rw [valueAt_child h, valueAt, hname, Bool.and_false]
      rfl
    have hopen : firstChar (output (j.print (.array vs))) = some 91 := firstChar_output (by decide) _
    rw [extractNode, if_neg (Bool.eq_false_iff.mp hs), getBoolOrDefault_none (hnone _ (by decide)), jctGet_some h]
    dsimp only
    rw [if_neg (jctHas_none (hnone _ (by decide))), if_pos hopen]
    refine hn fuel (Nat.le_of_succ_le_succ hfuel) key 0 active s hs fun i => ?_
    rw [Nat.zero_add, valueAt_child h, valueAt_element]
  | object ms =>
    have hactive {key : Key} {active : Bool} (h : valueAt root key = some (.object ms)) :
        getBoolOrDefault j root (key ++ [ascii "active_low"]) active = nearest j active ms :=
      getBoolOrDefault_eq key ms ((valueAt_child h _).trans (valueAt_member ms _))
    have hwalk (active : Bool) : walk j (visible sh) active (.object ms) =
        walkPin j (visible sh) (nearest j active ms) ms := rfl
    cases hpin : ms.lookup (ascii "pin") with
    | none =>
      refine ⟨1, fun fuel hfuel key active s h hs => ?_⟩
      obtain ⟨fuel, rfl⟩ := Nat.exists_eq_add_of_le' hfuel
      have hchild : valueAt root (key ++ [ascii "pin"]) = none :=
        (valueAt_child h _).trans ((valueAt_member ms _).trans hpin)
      have hopen : firstChar (output (j.print (.object ms))) = some 123 := firstChar_output (by decide) _
      rw [extractNode, if_neg (Bool.eq_false_iff.mp hs), jctGet_some h]
      dsimp only
      rw [if_neg (jctHas_none hchild), hopen, if_neg (by decide), if_pos rfl, hwalk, walkPin_eq, hpin]
      rfl
    | some w =>
      obtain ⟨n, hn⟩ := walks_pin ms w hpin
      refine ⟨n + 1, fun fuel hfuel key active s h hs => ?_⟩
      obtain ⟨fuel, rfl⟩ := Nat.exists_eq_add_of_le' (Nat.one_le_of_lt hfuel)
      have hchild : valueAt root (key ++ [ascii "pin"]) = some w :=
        (valueAt_child h _).trans ((valueAt_member ms _).trans hpin)
      rw [extractNode, if_neg (Bool.eq_false_iff.mp hs)]
      dsimp only
      rw [if_pos (jctHas_some hchild), hactive h, hwalk, walkPin_eq, hpin]
      exact hn fuel (Nat.le_of_succ_le_succ hfuel) _ _ s hchild hs

theorem walks_elements (vs : List JsonText.Value) : ∃ n, ∀ fuel, n ≤ fuel → ∀ key idx active s, s.disabled = false →
    (∀ i, valueAt root (key ++ [digits (idx + i)]) = vs[i]?) →
      extractElements sh j root fuel key idx active s =
        some (registerAll sh s (walkElements j (visible sh) active vs)) := by
  cases vs with
  | nil =>
    refine ⟨1, fun fuel hfuel key idx active s hs h => ?_⟩
    obtain ⟨fuel, rfl⟩ := Nat.exists_eq_add_of_le' hfuel
    have hend : valueAt root (key ++ [digits idx]) = none := h 0
    rw [extractElements, if_neg (jctHas_none hend)]
    rfl
  | cons v vs =>
    obtain ⟨n, hn⟩ := walks v
    obtain ⟨m, hm⟩ := walks_elements vs
    refine ⟨max n m + 1, fun fuel hfuel key idx active s hs h => ?_⟩
    obtain ⟨fuel, rfl⟩ := Nat.exists_eq_add_of_le' (Nat.one_le_of_lt hfuel)
    have hle : max n m ≤ fuel := Nat.le_of_succ_le_succ hfuel
    have hchild : valueAt root (key ++ [digits idx]) = some v := h 0
    rw [extractElements, if_pos (jctHas_some hchild), hn fuel ((Nat.le_max_left n m).trans hle) _ _ _ hchild hs, Option.bind_some,
      walkElements, registerAll_append]
    split
    · rename_i hdisabled
      rw [registerAll_disabled hdisabled]
    · rename_i henabled
      refine hm fuel ((Nat.le_max_right n m).trans hle) _ _ _ _ (Bool.eq_false_iff.mpr henabled) fun i => ?_
      have hnext := h (i + 1)
      rw [Nat.add_comm i 1, ← Nat.add_assoc] at hnext
      rw [hnext, Nat.add_comm 1 i]
      rfl

theorem walks_pin (ms : List (List Byte × JsonText.Value)) (w : JsonText.Value)
    (h : ms.lookup (ascii "pin") = some w) : ∃ n, Walks sh j root w n := by
  cases ms with
  | nil => exact absurd h.symm (Option.some_ne_none _)
  | cons m ms =>
    obtain ⟨name, v⟩ := m
    rw [List.lookup_cons] at h
    split at h
    · obtain rfl := Option.some.inj h
      exact walks v
    · exact walks_pin ms w h

end

end Walk

/-! ### The configuration -/

section Load
variable {sh : Sh} {j : Jct} {root : JsonText.Value} {ts ts' : List (List Byte × Bool)}

/-- Reading the flag of the root once more changes nothing. -/
theorem walk_default (read : List Byte → List (List Byte)) (root : JsonText.Value) :
    walk j read (getBoolOrDefault j root [ascii "active_low"] false) root = walk j read false root := by
  cases root with
  | object ms =>
    have hflag : getBoolOrDefault j (.object ms) [ascii "active_low"] false = nearest j false ms :=
      getBoolOrDefault_eq [] ms (valueAt_member ms _)
    have htwice : nearest j (nearest j false ms) ms = nearest j false ms := by
      unfold nearest
      cases ms.lookup (ascii "active_low") with
      | none => rfl
      | some v =>
        dsimp only
        unfold boolFlag
        split
        · rfl
        · split <;> rfl
    rw [hflag, walk, walk, htwice]
  | array vs => rw [getBoolOrDefault_none (by rw [valueAt]; rfl)]
  | _ => rfl

/-- Nothing is registered of what neither passes the test nor turns the filter off. -/
theorem registerAll_none (h : (ts.any fun t => turnsOff sh t || (accepted sh t).isSome) = false) :
    registerAll sh (held []) ts = held [] := by
  have hnot : ∀ t ∈ ts, turnsOff sh t = false ∧ accepted sh t = none := fun t ht => by
    have hfalse := Bool.eq_false_iff.mpr (List.any_eq_false.mp h t ht)
    rw [Bool.or_eq_false_iff, Option.isSome_eq_false_iff, Option.isNone_iff_eq_none] at hfalse
    exact hfalse
  have hnone : ts.filterMap (accepted sh) = [] := List.filterMap_eq_nil_iff.mpr fun t ht => (hnot t ht).2
  rw [registerAll_held (fun p hp => absurd hp List.not_mem_nil) fun t ht => (hnot t ht).1, hnone, List.append_nil]

/-- Something is left of a token that passes the test, or turns the filter off. -/
theorem registerAll_some (h : (ts.any fun t => turnsOff sh t || (accepted sh t).isSome) = true) :
    ¬((registerAll sh (held []) ts).pinCount = 0 ∧ (registerAll sh (held []) ts).disabled = false) := by
  by_cases hoff : ∃ t ∈ ts, turnsOff sh t = true
  · have hdisabled := (registerAll_off (s := held []) rfl hoff).1
    rw [hdisabled]
    exact fun hboth => absurd hboth.2 Bool.noConfusion
  · have hon : ∀ t ∈ ts, turnsOff sh t = false := fun t ht => Bool.eq_false_iff.mpr fun htrue => hoff ⟨t, ht, htrue⟩
    obtain ⟨t, ht, haccepted⟩ := List.any_eq_true.mp h
    rw [hon t ht, Bool.false_or] at haccepted
    obtain ⟨p, hp⟩ := Option.isSome_iff_exists.mp haccepted
    have hmem : p ∈ ts.filterMap (accepted sh) := List.mem_filterMap.mpr ⟨t, ht, hp⟩
    rw [registerAll_held (fun p hp => absurd hp List.not_mem_nil) hon, List.nil_append]
    rintro ⟨hcount, -⟩
    have hpos : 0 < (ts.filterMap (accepted sh)).length := List.length_pos_of_mem hmem
    unfold held at hcount
    dsimp only at hcount
    omega

/-- **The walk ends**, and what it registers is what it comes to see. -/
theorem loadIrcutConfig_eq (sh : Sh) (j : Jct) (root : JsonText.Value) (gpioIrcut : List Byte) :
    ∃ n, ∀ fuel, n ≤ fuel → loadIrcutConfig sh j root fuel gpioIrcut =
      some (registerAll sh (held []) (seen sh j root gpioIrcut)) := by
  have hwalks : ∃ n, Walks sh j root root n := walks root
  obtain ⟨n, hn⟩ := hwalks
  refine ⟨n, fun fuel hfuel => ?_⟩
  have hwalk := hn fuel hfuel [] (getBoolOrDefault j root [ascii "active_low"] false) (held []) (valueAt_nil root) rfl
  rw [walk_default] at hwalk
  have hload : loadIrcutConfig sh j root fuel gpioIrcut =
      (extractNode sh j root fuel [] (getBoolOrDefault j root [ascii "active_low"] false) (held [])).map fun s =>
        if s.pinCount = 0 ∧ s.disabled = false ∧ gpioIrcut ≠ [] then
          parseScalarTokens sh s gpioIrcut (getBoolOrDefault j root [ascii "active_low"] false)
        else s := rfl
  rw [hload, hwalk, Option.map_some, seen]
  cases hany : (walk j (visible sh) false root).any fun t => turnsOff sh t || (accepted sh t).isSome with
  | true =>
    rw [if_pos rfl, if_neg fun h => registerAll_some hany ⟨h.1, h.2.1⟩]
  | false =>
    rw [if_neg Bool.false_ne_true, registerAll_append, registerAll_none hany]
    by_cases hnil : gpioIrcut = []
    · rw [if_neg fun h => h.2.2 hnil, hnil]
      rfl
    · rw [if_pos ⟨rfl, rfl, hnil⟩, parseScalarTokens_eq]

theorem take_filter {α : Type} {p : α → Bool} {l : List α} {n : Nat} (h : ∀ a ∈ l.take n, p a = true) :
    (l.filter p).take n = l.take n := by
  induction l generalizing n with
  | nil => rfl
  | cons a l ih =>
    cases n with
    | zero => rfl
    | succ n =>
      rw [List.take_succ_cons] at h ⊢
      obtain ⟨ha, hl⟩ := List.forall_mem_cons.mp h
      rw [List.filter_cons_of_pos ha, List.take_succ_cons, ih hl]

theorem filterMap_wellFormed (sh : Sh) (ts : List (List Byte × Bool)) :
    ts.filterMap wellFormed = (ts.filterMap (accepted sh)).filter fun p => p.1.all isDigit := by
  rw [List.filter_filterMap]
  exact congrArg (List.filterMap · ts) (funext (wellFormed_eq sh))

theorem digit_of_wellFormed {p : List Byte × Bool} (h : p ∈ ts.filterMap wellFormed) : p.1.all isDigit = true := by
  obtain ⟨t, -, ht⟩ := List.mem_filterMap.mp h
  exact (wellFormed_eq_some_iff.mp ht).2.1

theorem parsed_registerAll_iff (sh : Sh) (ts ts' : List (List Byte × Bool)) :
    Parsed (registerAll sh (held []) ts) ts' ↔ Clean sh ts ts' := by
  by_cases hoff : ∃ t ∈ ts, turnsOff sh t = true
  · obtain ⟨hdisabled, hregistered, hcount⟩ := registerAll_off (s := held []) rfl hoff
    constructor
    · intro h
      have hone := h.disabled.mp hdisabled
      obtain ⟨t, ht, heq⟩ := hone
      exact ⟨iff_of_true hoff ⟨t, ht, heq⟩, fun hnone => absurd heq (hnone t ht), fun hnone => absurd heq (hnone t ht)⟩
    · intro h
      refine ⟨iff_of_true hdisabled (h.off.mp hoff), ?_, ?_, ?_⟩
      · rw [hregistered, hdisabled, if_pos rfl]
      · rw [hcount, hregistered]
        rfl
      · rw [hregistered]
        exact fun p hp => absurd hp List.not_mem_nil
  · have hon : ∀ t ∈ ts, turnsOff sh t = false := fun t ht => Bool.eq_false_iff.mpr fun htrue => hoff ⟨t, ht, htrue⟩
    have hne : ∀ p ∈ ts.filterMap (accepted sh), p.1 ≠ [] := fun p hp => by
      obtain ⟨t, -, ht⟩ := List.mem_filterMap.mp hp
      exact accepted_ne_nil ht
    have henabled : (held (ts.filterMap (accepted sh))).disabled = false := rfl
    rw [registerAll_held (fun p hp => absurd hp List.not_mem_nil) hon, List.nil_append]
    have hregistered := registered_held hne
    constructor
    · intro h
      have htake := h.registered
      rw [hregistered, henabled, if_neg Bool.false_ne_true] at htake
      have hdigit : ∀ p ∈ (ts.filterMap (accepted sh)).take 2, p.1.all isDigit = true := fun p hp =>
        digit_of_wellFormed (List.mem_of_mem_take (htake ▸ hp))
      have hnone : ¬∃ t ∈ ts', t.1 = ascii "-1" := fun hone =>
        Bool.false_ne_true (henabled.symm.trans (h.disabled.mpr hone))
      exact ⟨iff_of_false hoff hnone, fun _ => hdigit, fun _ => by
        rw [filterMap_wellFormed sh ts, take_filter hdigit, htake]⟩
    · intro h
      have hnone : ¬∃ t ∈ ts', t.1 = ascii "-1" := fun hone => hoff (h.off.mpr hone)
      have hall : ∀ t ∈ ts', t.1 ≠ ascii "-1" := fun t ht heq => hnone ⟨t, ht, heq⟩
      have htake := h.same hall
      rw [filterMap_wellFormed sh ts, take_filter (h.digit hall)] at htake
      refine ⟨iff_of_false (by rw [henabled]; exact Bool.false_ne_true) hnone, ?_, ?_, ?_⟩
      · rw [hregistered, henabled, if_neg Bool.false_ne_true, htake]
      · rw [hregistered, List.length_take, Nat.min_comm]
        rfl
      · rw [hregistered]
        exact h.digit hall

end Load

/-! ### Plain values -/

section Plain
variable {sh : Sh} {j : Jct} {read read' : List Byte → List (List Byte)} {active : Bool}

/-- What is printed of the numbers and texts in a value. -/
def texts (j : Jct) (active : Bool) (v : JsonText.Value) : List (List Byte × Bool) := walk j (fun raw => [raw]) active v

theorem walk_scalar_congr {v : JsonText.Value}
    (hwalk : ∀ read, walk j read active v = (read (output (j.print v))).map fun token => (token, active))
    (h : ∀ t ∈ texts j active v, read t.1 = read' t.1) : walk j read active v = walk j read' active v := by
  have hself := h (output (j.print v), active) (by rw [texts, hwalk]; exact List.mem_singleton_self _)
  rw [hwalk, hwalk, hself]

mutual

theorem walk_congr (v : JsonText.Value) (active : Bool) (h : ∀ t ∈ texts j active v, read t.1 = read' t.1) :
    walk j read active v = walk j read' active v := by
  cases v with
  | array vs => exact walkElements_congr vs active h
  | object ms => exact walkPin_congr ms (nearest j active ms) h
  | null => exact walk_scalar_congr (fun _ => rfl) h
  | bool b => exact walk_scalar_congr (fun _ => rfl) h
  | number literal => exact walk_scalar_congr (fun _ => rfl) h
  | string text => exact walk_scalar_congr (fun _ => rfl) h

theorem walkElements_congr (vs : List JsonText.Value) (active : Bool)
    (h : ∀ t ∈ walkElements j (fun raw => [raw]) active vs, read t.1 = read' t.1) :
    walkElements j read active vs = walkElements j read' active vs := by
  cases vs with
  | nil => rfl
  | cons v vs =>
    rw [walkElements, List.forall_mem_append] at h
    rw [walkElements, walkElements, walk_congr v active h.1, walkElements_congr vs active h.2]

theorem walkPin_congr (ms : List (List Byte × JsonText.Value)) (active : Bool)
    (h : ∀ t ∈ walkPin j (fun raw => [raw]) active ms, read t.1 = read' t.1) :
    walkPin j read active ms = walkPin j read' active ms := by
  cases ms with
  | nil => rfl
  | cons m ms =>
    obtain ⟨name, v⟩ := m
    rw [walkPin] at h ⊢
    rw [walkPin]
    split
    · rename_i hname
      rw [if_pos hname] at h
      exact walk_congr v active h
    · rename_i hname
      rw [if_neg hname] at h
      exact walkPin_congr ms active h

end

/-- No text begins with a bracket, and no token has a `*`, a `?` or a `[`. -/
def PlainValue (j : Jct) (v : JsonText.Value) : Prop :=
  ∀ t ∈ texts j false v, firstChar t.1 ≠ some 91 ∧ firstChar t.1 ≠ some 123 ∧
    ∀ word ∈ blankWords t.1, word.all (!isGlob ·) = true

/-- All of a plain value is seen. -/
theorem seen_eq_tokens {root : JsonText.Value} (h : PlainValue j root) : seen sh j root [] = tokens j root := by
  have hwalk : walk j (visible sh) false root = tokens j root := walk_congr root false fun t ht => by
    obtain ⟨hopen, hbrace, hwords⟩ := h t ht
    have hself : expanded sh t.1 = (blankWords t.1).flatMap fun word => [word] :=
      List.flatMap_congr fun word hword => sh.plain word (hwords word hword)
    rw [visible, if_neg (not_or.mpr ⟨hopen, hbrace⟩), hself, List.flatMap_singleton']
  have hempty : expanded sh [] = [] := rfl
  rw [seen, hwalk, hempty, List.map_nil, List.append_nil, ite_self]

/-- **For a plain value** only tokens count that end in a digit, or are a `-1` with a letter. -/
theorem clean_plain_iff {root : JsonText.Value} (h : PlainValue j root) :
    Clean sh (seen sh j root []) (tokens j root) ↔
      ((∃ t ∈ tokens j root, turnsOff sh t = true) ↔ ∃ t ∈ tokens j root, t.1 = ascii "-1") ∧
        ((∀ t ∈ tokens j root, t.1 ≠ ascii "-1") →
          ∀ p ∈ ((tokens j root).filterMap (accepted sh)).take 2, p.1.all isDigit = true) := by
  rw [seen_eq_tokens h]
  exact ⟨fun hclean => ⟨hclean.off, hclean.digit⟩, fun hboth => ⟨hboth.1, hboth.2, fun _ => rfl⟩⟩

end Plain

/-- **The pins are those of the tokens exactly if what the walk comes to see is clean**, and the walk always ends. -/
theorem parsed_iff (sh : Sh) (j : Jct) (root : JsonText.Value) (gpioIrcut : List Byte) :
    ∃ n s, (∀ fuel, n ≤ fuel → loadIrcutConfig sh j root fuel gpioIrcut = some s) ∧
      (Parsed s (tokens j root) ↔ Clean sh (seen sh j root gpioIrcut) (tokens j root)) := by
  obtain ⟨n, hn⟩ := loadIrcutConfig_eq sh j root gpioIrcut
  exact ⟨n, _, hn, parsed_registerAll_iff sh _ _⟩

/-- A shell in a directory without files, and texts that have nothing special. -/
def plainSh : Sh where
  expand := List.singleton
  plain _ _ := rfl
  suffix token := token.drop (token.length - 1)
  suffix_suffix token := List.drop_suffix _ _
  suffix_plain pin b _ := by
    rw [List.length_append, List.length_singleton, Nat.add_sub_cancel, List.drop_left]

/-- A letter in front of a digit does not make a token invalid. -/
theorem letter_registered : ∃ s, loadIrcutConfig plainSh ⟨id, fun _ => []⟩ (.string (ascii "x5")) 2 [] = some s ∧
    ¬Parsed s (tokens ⟨id, fun _ => []⟩ (.string (ascii "x5"))) := by
  refine ⟨_, rfl, fun h => ?_⟩
  have hdigit := h.digit (ascii "x5", false) (by decide)
  exact absurd hdigit (by decide)

end Thingino.Optics.Pins
