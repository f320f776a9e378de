import Mathlib.Algebra.Order.Ring.Unbundled.Rat
import Thingino.Lib.CString

/-! Who may run commands over Telegram.

`load_config_file` copies the three allow lists and the commands of the configuration into arrays of fixed
size. An element of another type is passed over, a text is cut to its field, and what comes after the last
place is dropped. `process_update` takes a list that came out empty for no list at all.

Strings are the bytes in front of the NUL. `jct`, which reads the JSON text, gives a number as it is written
and as an integer. -/
namespace Thingino.Telegram
open Lib

inductive Json
  | string (text : List Byte)
  | number (value : ℚ) (integer : Int)
  | bool (boolean : Bool)
  | null
  | array (elements : List Json)
  | object (members : List (String × Json))

namespace Json

/-- `get_object_item`, and `get_nested_item` for a plain key. -/
def item (key : String) : Json → Option Json
  | object members => members.lookup key
  | _ => none

def text? : Json → Option (List Byte)
  | string text => some text
  | _ => none

def number? : Json → Option (ℚ × Int)
  | number value integer => some (value, integer)
  | _ => none

/-- `value.number.integer` of a number. -/
def integer? (j : Json) : Option Int := j.number?.map Prod.snd

/-- The elements of an array under a key. -/
def elements (key : String) (root : Json) : List Json :=
  match root.item key with
  | some (array elements) => elements
  | _ => []

end Json

/-! ### The configuration -/

structure Command where
  handle : List Byte
  description : List Byte
  exec : List Byte
deriving DecidableEq

structure Config where
  token : List Byte
  allowedIds : List Int
  allowedUserIds : List Int
  allowedUsers : List (List Byte)
  commands : List Command

/-- `snprintf` of a text into a field of some size. -/
def field (size : Nat) (text : List Byte) : List Byte := text.take (size - 1)

/-- The loops of `load_config_file`, each over the elements of one array. -/
def copyElements {α : Type} (read : Json → Option α) (capacity : Nat) : List Json → List α → List α
  | [], copied => copied
  | el :: rest, copied =>
    if copied.length < capacity then copyElements read capacity rest (copied ++ (read el).toList) else copied

def loadAllowedIds (root : Json) : List Int := copyElements Json.integer? 8 (root.elements "allowed_chat_ids") []

def loadAllowedUsers (root : Json) : List (List Byte) :=
  copyElements (fun el => el.text?.map (field 32)) 16 (root.elements "allowed_usernames") []

def loadAllowedUserIds (root : Json) : List Int :=
  copyElements Json.integer? 16 (root.elements "allowed_user_ids") []

def readCommand (c : Json) : Option Command := do
  let handle ← (c.item "handle").bind Json.text?
  let exec ← (c.item "exec").bind Json.text?
  let description := ((c.item "description").bind Json.text?).getD []
  return ⟨field 32 handle, field 128 description, field 160 exec⟩

def loadCommands (root : Json) : List Command := copyElements readCommand 16 (root.elements "commands") []

def readToken (root : Json) : List Byte := field 128 (((root.item "token").bind Json.text?).getD [])

def readConfig (root : Json) : Config where
  token := readToken root
  allowedIds := loadAllowedIds root
  allowedUserIds := loadAllowedUserIds root
  allowedUsers := loadAllowedUsers root
  commands := loadCommands root

/-- The bot does not start without a file or without a token. -/
def loadConfigFile (root : Option Json) : Option Config :=
  root.bind fun root => if (readConfig root).token = [] then none else some (readConfig root)

/-! ### Updates -/

def userAllowed (cfg : Config) (username : Option (List Byte)) : Bool :=
  if cfg.allowedUsers = [] then true
  else
    match username with
    | none | some [] => false
    | some name => cfg.allowedUsers.any (· = name)

def userIdAllowed (cfg : Config) (userId : Int) : Bool :=
  if cfg.allowedUserIds = [] then true
  else if userId = 0 then false
  else cfg.allowedUserIds.any (· = userId)

def idAllowed (cfg : Config) (chatId : Int) : Bool :=
  if cfg.allowedIds = [] then true else cfg.allowedIds.any (· = chatId)

/-- The buffer of 256 bytes, cut at the name of the bot. -/
def cleanText (text : List Byte) : List Byte := (field 256 text).takeWhile (· ≠ 64)

/-- A text may name a command with a `/` in front. -/
def Command.named (text : List Byte) (c : Command) : Bool :=
  c.handle ≠ [] && (cleanText text = c.handle || cleanText text = 47 :: c.handle)

def findCommand (cfg : Config) (text : List Byte) : Option Command := cfg.commands.find? (Command.named text)

inductive BuiltIn
  | ping
  | time
  | help
  | unknown
deriving DecidableEq

inductive Reaction
  | executed (exec : List Byte) (chatId : Int)
  | replied (reply : BuiltIn) (chatId : Int)
deriving DecidableEq

/-- `run_command`, as far as `popen`. -/
def runCommand (c : Command) (chatId : Int) : Option Reaction :=
  if c.exec = [] then none else some (.executed c.exec chatId)

def builtIn (text : List Byte) : BuiltIn :=
  if cleanText text = ascii "/ping" then .ping
  else if cleanText text = ascii "/time" then .time
  else if cleanText text = ascii "/help" then .help
  else .unknown

def chatOf (upd : Json) : Option Json := ((upd.item "message").bind (Json.item "chat")).bind (Json.item "id")

def textOf (upd : Json) : Option (List Byte) := ((upd.item "message").bind (Json.item "text")).bind Json.text?

def senderOf (key : String) (upd : Json) : Option Json :=
  ((upd.item "message").bind (Json.item "from")).bind (Json.item key)

def usernameOf (upd : Json) : Option (List Byte) := (senderOf "username" upd).bind Json.text?

/-- 0 stands for no user. -/
def userIdOf (upd : Json) : Int := ((senderOf "id" upd).bind Json.integer?).getD 0

def processUpdate (cfg : Config) (upd : Json) : Option Reaction :=
  match (chatOf upd).bind Json.integer?, textOf upd with
  | some chatId, some text =>
    if !userAllowed cfg (usernameOf upd) then none
    else if !userIdAllowed cfg (userIdOf upd) then none
    else if !idAllowed cfg chatId then none
    else
      match findCommand cfg text with
      | some c => runCommand c chatId
      | none => some (.replied (builtIn text) chatId)
  | _, _ => none

/-- What a bot with a configuration does with an update. -/
def react (root : Json) (upd : Json) : Option Reaction :=
  (loadConfigFile (some root)).bind fun cfg => processUpdate cfg upd

/-! ### What is asked

Telegram's ids are whole numbers, which `jct` reads as they are written. -/

def WholeIds (upd : Json) : Prop :=
  (∀ j v n, senderOf "id" upd = some j → j.number? = some (v, n) → v = n) ∧
    ∀ j v n, chatOf upd = some j → j.number? = some (v, n) → v = n

/-- A text, or a number, that was written in an array. -/
def WroteText (root : Json) (key : String) (text : List Byte) : Prop :=
  ∃ el ∈ root.elements key, el.text? = some text

def WroteNumber (root : Json) (key : String) (value : ℚ) : Prop :=
  ∃ el ∈ root.elements key, ∃ n, el.number? = some (value, n)

/-- **The property**: a command is executed only for a sender and a chat that are in each list that has
entries. -/
def FailsClosed (root : Json) : Prop :=
  ∀ upd, WholeIds upd → ∀ exec chatId, react root upd = some (.executed exec chatId) →
    (root.elements "allowed_usernames" ≠ [] →
      ∃ name, usernameOf upd = some name ∧ WroteText root "allowed_usernames" name) ∧
    (root.elements "allowed_user_ids" ≠ [] →
      ∃ j v n, senderOf "id" upd = some j ∧ j.number? = some (v, n) ∧ WroteNumber root "allowed_user_ids" v) ∧
    (root.elements "allowed_chat_ids" ≠ [] →
      ∃ j v n, chatOf upd = some j ∧ j.number? = some (v, n) ∧ WroteNumber root "allowed_chat_ids" v)

/-! ### When it holds -/

/-- The first elements of an array that are of the right type. -/
def firstTexts (root : Json) : List (List Byte) := ((root.elements "allowed_usernames").filterMap Json.text?).take 16

def firstNumbers (root : Json) (key : String) (capacity : Nat) : List (ℚ × Int) :=
  ((root.elements key).filterMap Json.number?).take capacity

/-- One of the names counts, and what is left of a name that is too long is a name in the list, too. -/
def NamesClosed (root : Json) : Prop :=
  root.elements "allowed_usernames" = [] ∨
    firstTexts root ≠ [] ∧ ∀ text ∈ firstTexts root, text.length ≤ 31 ∨ WroteText root "allowed_usernames" (text.take 31)

/-- One of the numbers counts, and each is read as a number in the list. -/
def NumbersClosed (root : Json) (key : String) (capacity : Nat) (free : Int → Prop) : Prop :=
  root.elements key = [] ∨
    firstNumbers root key capacity ≠ [] ∧
      ∀ vn ∈ firstNumbers root key capacity, free vn.2 ∨ WroteNumber root key vn.2

/-- The bot does not start, no text is the name of a command that does something, or no user gets through:
the names that count are empty, or the numbers are 0. -/
def Inert (root : Json) : Prop :=
  readToken root = [] ∨
    (∀ text c, (loadCommands root).find? (Command.named text) = some c → c.exec = []) ∨
    (firstTexts root ≠ [] ∧ ∀ text ∈ firstTexts root, text = []) ∨
    (firstNumbers root "allowed_user_ids" 16 ≠ [] ∧ ∀ vn ∈ firstNumbers root "allowed_user_ids" 16, vn.2 = 0)

/-! ### The loops -/

theorem copyElements_append {α : Type} (read : Json → Option α) (capacity : Nat) (els : List Json) (copied : List α)
    (h : copied.length ≤ capacity) :
    copyElements read capacity els copied = copied ++ (els.filterMap read).take (capacity - copied.length) := by
  induction els generalizing copied with
  | nil => rw [copyElements, List.filterMap_nil, List.take_nil, List.append_nil]
  | cons el rest ih =>
    rw [copyElements]
    split
    · rename_i hlt
      cases hread : read el with
      | none =>
        rw [Option.toList_none, List.append_nil, ih copied h, List.filterMap_cons_none hread]
      | some x =>
        have hroom : capacity - copied.length = capacity - (copied ++ [x]).length + 1 := by
          rw [List.length_append, List.length_singleton]
          omega
        rw [Option.toList_some, ih _ (by rw [List.length_append, List.length_singleton]; omega),
          List.filterMap_cons_some hread, hroom, List.take_succ_cons, List.append_assoc, List.singleton_append]
    · rw [show capacity - copied.length = 0 by omega, List.take_zero, List.append_nil]

/-- An array is copied as far as its elements are of the right type and there is room. -/
theorem copyElements_nil {α : Type} (read : Json → Option α) (capacity : Nat) (els : List Json) :
    copyElements read capacity els [] = (els.filterMap read).take capacity := by
  rw [copyElements_append read capacity els [] (Nat.zero_le _), List.nil_append, List.length_nil, Nat.sub_zero]

theorem loadAllowedUsers_eq (root : Json) : loadAllowedUsers root = (firstTexts root).map (field 32) := by
  rw [loadAllowedUsers, copyElements_nil, firstTexts, List.map_take, List.map_filterMap]

theorem filterMap_integer (els : List Json) : els.filterMap Json.integer? = (els.filterMap Json.number?).map Prod.snd := by
  rw [List.map_filterMap]
  rfl

theorem loadAllowedUserIds_eq (root : Json) :
    loadAllowedUserIds root = (firstNumbers root "allowed_user_ids" 16).map Prod.snd := by
  rw [loadAllowedUserIds, copyElements_nil, filterMap_integer, firstNumbers, List.map_take]

theorem loadAllowedIds_eq (root : Json) :
    loadAllowedIds root = (firstNumbers root "allowed_chat_ids" 8).map Prod.snd := by
  rw [loadAllowedIds, copyElements_nil, filterMap_integer, firstNumbers, List.map_take]

/-! ### The filters -/

variable {cfg : Config} {root upd : Json} {exec : List Byte} {chatId : Int}

theorem userAllowed_iff {username : Option (List Byte)} :
    userAllowed cfg username = true ↔
      cfg.allowedUsers = [] ∨ ∃ name, username = some name ∧ name ≠ [] ∧ name ∈ cfg.allowedUsers := by
  unfold userAllowed
  split
  · rename_i hnone
    simp [hnone]
  · rename_i hsome
    split <;> simp_all

theorem userIdAllowed_iff {userId : Int} :
    userIdAllowed cfg userId = true ↔ cfg.allowedUserIds = [] ∨ userId ≠ 0 ∧ userId ∈ cfg.allowedUserIds := by
  unfold userIdAllowed
  split
  · rename_i hnone
    simp [hnone]
  · rename_i hsome
    split <;> simp_all

theorem idAllowed_iff : idAllowed cfg chatId = true ↔ cfg.allowedIds = [] ∨ chatId ∈ cfg.allowedIds := by
  unfold idAllowed
  split
  · rename_i hnone
    simp [hnone]
  · rename_i hsome
    simp [hsome]

/-- A command is executed when the text names it and all three filters let the message pass. -/
theorem processUpdate_executed :
    processUpdate cfg upd = some (.executed exec chatId) ↔
      ∃ text c, (chatOf upd).bind Json.integer? = some chatId ∧ textOf upd = some text ∧
        userAllowed cfg (usernameOf upd) = true ∧ userIdAllowed cfg (userIdOf upd) = true ∧
        idAllowed cfg chatId = true ∧ findCommand cfg text = some c ∧ c.exec = exec ∧ exec ≠ [] := by
  unfold processUpdate
  split
  · rename_i chat text hchat htext
    rw [hchat, htext]
    cases hfind : findCommand cfg text with
    | none => grind
    | some c => grind [runCommand]
  · rename_i hno
    constructor
    · intro h
      cases h
    · rintro ⟨text, c, hchat, htext, -⟩
      exact absurd htext (hno chatId text hchat)

/-- Whom the three lists let through. -/
def NameGets (root : Json) (username : Option (List Byte)) : Prop :=
  firstTexts root = [] ∨ ∃ text ∈ firstTexts root, text ≠ [] ∧ username = some (text.take 31)

def UserGets (root : Json) (userId : Int) : Prop :=
  firstNumbers root "allowed_user_ids" 16 = [] ∨
    ∃ vn ∈ firstNumbers root "allowed_user_ids" 16, vn.2 ≠ 0 ∧ userId = vn.2

def ChatGets (root : Json) (chatId : Int) : Prop :=
  firstNumbers root "allowed_chat_ids" 8 = [] ∨ ∃ vn ∈ firstNumbers root "allowed_chat_ids" 8, chatId = vn.2

theorem userAllowed_load {username : Option (List Byte)} :
    userAllowed (readConfig root) username = true ↔ NameGets root username := by
  rw [userAllowed_iff, readConfig, loadAllowedUsers_eq, List.map_eq_nil_iff, NameGets]
  refine or_congr_right ⟨?_, ?_⟩
  · rintro ⟨name, rfl, hne, hname⟩
    obtain ⟨text, htext, rfl⟩ := List.mem_map.mp hname
    refine ⟨text, htext, fun hnil => hne ?_, rfl⟩
    rw [hnil]
    rfl
  · rintro ⟨text, htext, hne, rfl⟩
    exact ⟨text.take 31, rfl, by simpa using hne, List.mem_map_of_mem htext⟩

theorem userIdAllowed_load {userId : Int} :
    userIdAllowed (readConfig root) userId = true ↔ UserGets root userId := by
  rw [userIdAllowed_iff, readConfig, loadAllowedUserIds_eq, List.map_eq_nil_iff, UserGets]
  refine or_congr_right ⟨?_, ?_⟩
  · rintro ⟨hne, hmem⟩
    obtain ⟨vn, hvn, rfl⟩ := List.mem_map.mp hmem
    exact ⟨vn, hvn, hne, rfl⟩
  · rintro ⟨vn, hvn, hne, rfl⟩
    exact ⟨hne, List.mem_map_of_mem hvn⟩

theorem idAllowed_load : idAllowed (readConfig root) chatId = true ↔ ChatGets root chatId := by
  rw [idAllowed_iff, readConfig, loadAllowedIds_eq, List.map_eq_nil_iff, ChatGets]
  refine or_congr_right ⟨?_, ?_⟩
  · intro hmem
    obtain ⟨vn, hvn, rfl⟩ := List.mem_map.mp hmem
    exact ⟨vn, hvn, rfl⟩
  · rintro ⟨vn, hvn, rfl⟩
    exact List.mem_map_of_mem hvn

/-- What it takes that a command is executed. -/
theorem react_executed :
    react root upd = some (.executed exec chatId) ↔
      readToken root ≠ [] ∧ ∃ text c, (chatOf upd).bind Json.integer? = some chatId ∧ textOf upd = some text ∧
        NameGets root (usernameOf upd) ∧ UserGets root (userIdOf upd) ∧ ChatGets root chatId ∧
        (loadCommands root).find? (Command.named text) = some c ∧ c.exec = exec ∧ exec ≠ [] := by
  have hload : loadConfigFile (some root) = if readToken root = [] then none else some (readConfig root) := rfl
  rw [react, hload]
  by_cases htoken : readToken root = []
  · simp [htoken]
  · rw [if_neg htoken, Option.bind_some, processUpdate_executed]
    simp only [userAllowed_load, userIdAllowed_load, idAllowed_load]
    exact (and_iff_right htoken).symm

/-! ### Messages -/

/-- A message from a user with or without a name and an id. -/
def messageFrom (name : Option (List Byte)) (userId : Option Int) (chatId : Int) (text : List Byte) : Json :=
  .object [("message", .object [
    ("chat", .object [("id", .number chatId chatId)]),
    ("text", .string text),
    ("from", .object ((userId.map fun n : Int => ("id", Json.number n n)).toList ++
      (name.map fun s => ("username", Json.string s)).toList))])]

section Message
variable (name : Option (List Byte)) (userId : Option Int) (text : List Byte)

theorem chatOf_messageFrom : chatOf (messageFrom name userId chatId text) = some (.number chatId chatId) := rfl

theorem usernameOf_messageFrom : usernameOf (messageFrom name userId chatId text) = name := by
  cases name <;> cases userId <;> rfl

theorem senderOf_messageFrom :
    senderOf "id" (messageFrom name userId chatId text) = userId.map fun n : Int => .number n n := by
  cases name <;> cases userId <;> rfl

theorem userIdOf_messageFrom : userIdOf (messageFrom name userId chatId text) = userId.getD 0 := by
  rw [userIdOf, senderOf_messageFrom]
  cases userId <;> rfl

theorem wholeIds_messageFrom : WholeIds (messageFrom name userId chatId text) := by
  constructor
  · intro j v n hj hn
    rw [senderOf_messageFrom] at hj
    obtain ⟨m, -, rfl⟩ := Option.map_eq_some_iff.mp hj
    cases hn
    rfl
  · intro j v n hj hn
    rw [chatOf_messageFrom] at hj
    cases hj
    cases hn
    rfl

end Message

/-! ### The lists -/

theorem mem_firstTexts {text : List Byte} (h : text ∈ firstTexts root) : WroteText root "allowed_usernames" text := by
  obtain ⟨el, hel, htext⟩ := List.mem_filterMap.mp (List.mem_of_mem_take h)
  exact ⟨el, hel, htext⟩

/-- A closed list lets those through that it names. -/
theorem wroteText_of_closed {username : Option (List Byte)} (h : NamesClosed root) (hgets : NameGets root username)
    (hne : root.elements "allowed_usernames" ≠ []) :
    ∃ name, username = some name ∧ WroteText root "allowed_usernames" name := by
  obtain hnil | ⟨hfirst, hall⟩ := h
  · exact absurd hnil hne
  obtain hnil | ⟨text, htext, -, rfl⟩ := hgets
  · exact absurd hnil hfirst
  refine ⟨_, rfl, ?_⟩
  obtain hshort | hwrote := hall text htext
  · rw [List.take_of_length_le hshort]
    exact mem_firstTexts htext
  · exact hwrote

theorem wroteNumber_of_closed {key : String} {capacity : Nat} {free : Int → Prop} {n : Int}
    (h : NumbersClosed root key capacity free)
    (hgets : firstNumbers root key capacity = [] ∨ ∃ vn ∈ firstNumbers root key capacity, ¬free vn.2 ∧ n = vn.2)
    (hne : root.elements key ≠ []) : ¬free n ∧ WroteNumber root key n := by
  obtain hnil | ⟨hfirst, hall⟩ := h
  · exact absurd hnil hne
  obtain hnil | ⟨vn, hvn, hfree, rfl⟩ := hgets
  · exact absurd hnil hfirst
  exact ⟨hfree, (hall vn hvn).resolve_left hfree⟩

/-- Whom a list lets through that is not closed. -/
theorem exists_name (h : ¬Inert root) : ∃ username, NameGets root username := by
  simp only [Inert, not_or, not_and, not_forall] at h
  by_cases hfirst : firstTexts root = []
  · exact ⟨none, .inl hfirst⟩
  · obtain ⟨text, htext, hne⟩ := h.2.2.1 hfirst
    exact ⟨_, .inr ⟨text, htext, hne, rfl⟩⟩

theorem exists_user (h : ¬Inert root) : ∃ userId : Option Int, UserGets root (userId.getD 0) := by
  simp only [Inert, not_or, not_and, not_forall] at h
  by_cases hfirst : firstNumbers root "allowed_user_ids" 16 = []
  · exact ⟨none, .inl hfirst⟩
  · obtain ⟨vn, hvn, hne⟩ := h.2.2.2 hfirst
    exact ⟨some vn.2, .inr ⟨vn, hvn, hne, rfl⟩⟩

theorem exists_chat (root : Json) : ∃ chatId, ChatGets root chatId := by
  cases hfirst : firstNumbers root "allowed_chat_ids" 8 with
  | nil => exact ⟨0, .inl hfirst⟩
  | cons vn rest => exact ⟨vn.2, .inr ⟨vn, hfirst ▸ List.mem_cons_self, rfl⟩⟩

/-- Anyone who gets through can have a command executed. -/
theorem executed_messageFrom (h : ¬Inert root) {name : Option (List Byte)} {userId : Option Int} {chatId : Int}
    (hname : NameGets root name) (huser : UserGets root (userId.getD 0)) (hchat : ChatGets root chatId) :
    ∃ text exec, react root (messageFrom name userId chatId text) = some (.executed exec chatId) := by
  simp only [Inert, not_or, not_forall] at h
  obtain ⟨htoken, ⟨text, c, hfind, hexec⟩, -⟩ := h
  refine ⟨text, c.exec, react_executed.mpr ⟨htoken, text, c, rfl, rfl, ?_, ?_, hchat, hfind, rfl, hexec⟩⟩
  · rwa [usernameOf_messageFrom]
  · rwa [userIdOf_messageFrom]

/-- So everyone who gets through was written in the lists, if they fail closed. -/
theorem wrote_of_failsClosed (hclosed : FailsClosed root) (h : ¬Inert root) {name : Option (List Byte)}
    {userId : Option Int} {chatId : Int} (hname : NameGets root name) (huser : UserGets root (userId.getD 0))
    (hchat : ChatGets root chatId) :
    (root.elements "allowed_usernames" ≠ [] → ∃ s, name = some s ∧ WroteText root "allowed_usernames" s) ∧
      (root.elements "allowed_user_ids" ≠ [] → ∃ n : Int, userId = some n ∧ WroteNumber root "allowed_user_ids" n) ∧
      (root.elements "allowed_chat_ids" ≠ [] → WroteNumber root "allowed_chat_ids" chatId) := by
  obtain ⟨text, exec, hreact⟩ := executed_messageFrom h hname huser hchat
  obtain ⟨hnames, husers, hchats⟩ := hclosed _ (wholeIds_messageFrom name userId text) exec chatId hreact
  rw [usernameOf_messageFrom] at hnames
  rw [senderOf_messageFrom] at husers
  refine ⟨hnames, fun hne => ?_, fun hne => ?_⟩
  · obtain ⟨j, v, n, hj, hn, hwrote⟩ := husers hne
    obtain ⟨m, hm, rfl⟩ := Option.map_eq_some_iff.mp hj
    obtain ⟨rfl, rfl⟩ := Prod.mk.inj (Option.some.inj hn)
    exact ⟨_, hm, hwrote⟩
  · obtain ⟨j, v, n, hj, hn, hwrote⟩ := hchats hne
    cases hj
    cases hn
    exact hwrote

/-- An array with a number has one that counts. -/
theorem firstNumbers_ne_nil {key : String} {capacity : Nat} {v : ℚ} (h : WroteNumber root key v) (hpos : 0 < capacity) :
    firstNumbers root key capacity ≠ [] := by
  obtain ⟨el, hel, n, hnumber⟩ := h
  have hmem : (v, n) ∈ (root.elements key).filterMap Json.number? := List.mem_filterMap.mpr ⟨el, hel, hnumber⟩
  rw [firstNumbers, Ne, List.take_eq_nil_iff, not_or]
  exact ⟨hpos.ne', List.ne_nil_of_mem hmem⟩

/-- A list whose entries count, each as it was written, is closed. -/
theorem numbersClosed_of {key : String} {capacity : Nat} {free : Int → Prop}
    (hnone : root.elements key ≠ [] → firstNumbers root key capacity ≠ [])
    (h : root.elements key ≠ [] → ∀ vn ∈ firstNumbers root key capacity, ¬free vn.2 → WroteNumber root key vn.2) :
    NumbersClosed root key capacity free := by
  by_cases hne : root.elements key = []
  · exact .inl hne
  · refine .inr ⟨hnone hne, fun vn hvn => ?_⟩
    by_cases hfree : free vn.2
    · exact .inl hfree
    · exact .inr (h hne vn hvn hfree)

theorem closed_of_failsClosed (hclosed : FailsClosed root) (h : ¬Inert root) :
    NamesClosed root ∧ NumbersClosed root "allowed_user_ids" 16 (· = 0) ∧
      NumbersClosed root "allowed_chat_ids" 8 fun _ => False := by
  obtain ⟨name, hname⟩ := exists_name h
  obtain ⟨userId, huser⟩ := exists_user h
  obtain ⟨chatId, hchat⟩ := exists_chat root
  refine ⟨?_, numbersClosed_of ?_ ?_, numbersClosed_of ?_ ?_⟩
  · by_cases hne : root.elements "allowed_usernames" = []
    · exact .inl hne
    refine .inr ⟨fun hnone => ?_, fun text htext => ?_⟩
    · have hgets : NameGets root none := .inl hnone
      obtain ⟨s, hs, -⟩ := (wrote_of_failsClosed hclosed h hgets huser hchat).1 hne
      cases hs
    · by_cases hshort : text.length ≤ 31
      · exact .inl hshort
      have hgets : NameGets root (some (text.take 31)) := by
        refine .inr ⟨text, htext, fun hnil => hshort ?_, rfl⟩
        rw [hnil]
        exact Nat.zero_le _
      obtain ⟨s, hs, hwrote⟩ := (wrote_of_failsClosed hclosed h hgets huser hchat).1 hne
      obtain rfl := Option.some.inj hs
      exact .inr hwrote
  · intro hne hnone
    have hgets : UserGets root ((none : Option Int).getD 0) := .inl hnone
    obtain ⟨n, hn, -⟩ := (wrote_of_failsClosed hclosed h hname hgets hchat).2.1 hne
    cases hn
  · intro hne vn hvn hzero
    have hgets : UserGets root ((some vn.2).getD 0) := .inr ⟨vn, hvn, hzero, rfl⟩
    obtain ⟨n, hn, hwrote⟩ := (wrote_of_failsClosed hclosed h hname hgets hchat).2.1 hne
    obtain rfl := Option.some.inj hn
    exact hwrote
  · intro hne hnone
    exact firstNumbers_ne_nil ((wrote_of_failsClosed hclosed h hname huser hchat).2.2 hne) (by decide) hnone
  · intro hne vn hvn _
    exact (wrote_of_failsClosed hclosed h hname huser (.inr ⟨vn, hvn, rfl⟩)).2.2 hne

theorem not_executed_of_inert (h : Inert root) : react root upd ≠ some (.executed exec chatId) := by
  intro hreact
  obtain ⟨htoken, text, c, -, -, hname, huser, -, hfind, rfl, hexec⟩ := react_executed.mp hreact
  obtain hnone | hidle | ⟨hfirst, hempty⟩ | ⟨hfirst, hzero⟩ := h
  · exact htoken hnone
  · exact hexec (hidle text c hfind)
  · obtain hnone | ⟨s, hs, hne, -⟩ := hname
    · exact hfirst hnone
    · exact hne (hempty s hs)
  · obtain hnone | ⟨vn, hvn, hne, -⟩ := huser
    · exact hfirst hnone
    · exact hne (hzero vn hvn)

/-- A user other than 0 has sent a number. -/
theorem exists_of_userIdOf (h : userIdOf upd ≠ 0) :
    ∃ j v, senderOf "id" upd = some j ∧ j.number? = some (v, userIdOf upd) := by
  cases hid : (senderOf "id" upd).bind Json.integer? with
  | none =>
    rw [userIdOf, hid] at h
    exact absurd rfl h
  | some n =>
    obtain ⟨j, hj, hn⟩ := Option.bind_eq_some_iff.mp hid
    obtain ⟨⟨v, m⟩, hv, rfl⟩ := Option.map_eq_some_iff.mp hn
    refine ⟨j, v, hj, ?_⟩
    rw [userIdOf, hid]
    exact hv

/-- **When the lists fail closed**: each array with entries has one that counts, and each of its entries that
does counts as what was written; or nobody can have anything executed. -/
theorem failsClosed_iff (root : Json) :
    FailsClosed root ↔
      Inert root ∨ (NamesClosed root ∧ NumbersClosed root "allowed_user_ids" 16 (· = 0) ∧
        NumbersClosed root "allowed_chat_ids" 8 fun _ => False) := by
  constructor
  · intro h
    by_cases hinert : Inert root
    · exact .inl hinert
    · exact .inr (closed_of_failsClosed h hinert)
  · rintro hcond upd ⟨hsender, hchat⟩ exec chatId hreact
    obtain ⟨htoken, text, c, hid, -, hname, huser, hgets, hfind, hexec, hne⟩ := react_executed.mp hreact
    obtain hinert | ⟨hnames, husers, hchats⟩ := hcond
    · exact absurd hreact (not_executed_of_inert hinert)
    refine ⟨wroteText_of_closed hnames hname, fun hwritten => ?_, fun hwritten => ?_⟩
    · obtain ⟨hzero, hwrote⟩ := wroteNumber_of_closed husers huser hwritten
      obtain ⟨j, v, hj, hv⟩ := exists_of_userIdOf hzero
      rw [← hsender j v _ hj hv] at hwrote
      exact ⟨j, v, _, hj, hv, hwrote⟩
    · obtain ⟨-, hwrote⟩ := wroteNumber_of_closed hchats (hgets.imp_right fun ⟨vn, hvn, heq⟩ => ⟨vn, hvn, id, heq⟩) hwritten
      obtain ⟨j, hj, hn⟩ := Option.bind_eq_some_iff.mp hid
      obtain ⟨⟨v, n⟩, hv, rfl⟩ := Option.map_eq_some_iff.mp hn
      rw [← hchat j v n hj hv] at hwrote
      exact ⟨j, v, n, hj, hv, hwrote⟩

/-- The chat ids are written as texts. -/
def quotedIds : Json :=
  .object [("token", .string (ascii "1:a")), ("allowed_chat_ids", .array [.string (ascii "42")]),
    ("commands", .array [.object [("handle", .string (ascii "reboot")), ("exec", .string (ascii "reboot"))]])]

/-- Then there is no filter, and a message from any chat reboots the camera. -/
theorem quotedIds_open : ¬FailsClosed quotedIds := by
  intro h
  have hreact : react quotedIds (messageFrom none none 7 (ascii "/reboot")) = some (.executed (ascii "reboot") 7) := by
    decide
  have hentries : quotedIds.elements "allowed_chat_ids" = [.string (ascii "42")] := rfl
  obtain ⟨j, v, n, -, -, el, hel, m, hm⟩ :=
    (h _ (wholeIds_messageFrom none none _) _ _ hreact).2.2 (by rw [hentries]; exact List.cons_ne_nil _ _)
  rw [hentries, List.mem_singleton] at hel
  rw [hel] at hm
  cases hm

end Thingino.Telegram
