import Thingino.Lib.Shell
import Thingino.Lib.Transition
import Thingino.Telegram.Access

/-! The offset of the Telegram bot.

Telegram keeps every update and answers a poll with those from the requested number on; it may forget those
below a number that was requested. The bot counts its offset up before it processes an update and saves it
when it is through with the batch. The file is emptied first and written then; opening it and writing it may
fail, a write in the middle of the number. The bot may be killed between any two steps, and so may the whole
camera be restarted, which keeps its state in memory. The command of an update may do either. -/
namespace Thingino.Telegram
open Lib

inductive Phase
  | polling
  | batch (rest : List Json)
  | processing (upd : Json) (rest : List Json)
  | truncated

/-- The process, with its `offset`. -/
structure Bot where
  offset : Int
  phase : Phase

/-- Telegram, the state file and the process. `asked` is the number below which Telegram may forget; the
fields behind it are for the record. -/
structure System where
  stored : List Json
  file : Option (List Byte)
  bot : Option Bot
  asked : Int
  last : Int
  arrived : List Json
  handled : List (Int × Option Reaction)

inductive BotEvent
  | send (upd : Json)
  | forget
  | start
  | poll (answered : Bool)
  | track
  | process
  | openFile (ok : Bool)
  | write (n : Nat)
  | kill
  | restart

/-- `update_id`, as Telegram counts. -/
def idOf (upd : Json) : Int := ((upd.item "update_id").bind Json.integer?).getD 0

/-- A conversion to `long`. -/
def toLong (n : Int) : Int := n.bmod 4294967296

/-- The file holds nothing but what `saveOffset` has written. -/
def loadOffset (file : Option (List Byte)) : Int :=
  match file with
  | none => 0
  | some text => Shell.decimal (text.takeWhile isDigit)

/-- What `save_offset` prints, of a number above 0. -/
def saveOffset (offset : Int) : List Byte := Shell.digits offset.toNat ++ [10]

/-- The `offset` of a request. -/
def requested (offset : Int) : Option Int := if 0 < offset then some (toLong (offset + 1)) else none

namespace System

def handledIds (s : System) : List Int := s.handled.map Prod.fst

/-- `getUpdates`. -/
def answer (s : System) (offset : Int) : List Json :=
  s.stored.filter fun upd => (requested offset).all fun n => n ≤ idOf upd

/-- The head of the main loop up to the answer. -/
def poll (s : System) (offset : Int) (answered : Bool) : System :=
  { s with
    asked := max s.asked ((requested offset).getD 0)
    bot := some ⟨offset, if answered then .batch (s.answer offset) else .polling⟩ }

def track (s : System) (offset : Int) (upd : Json) (rest : List Json) : System :=
  { s with bot := some ⟨max offset (toLong (idOf upd)), .processing upd rest⟩ }

def process (cfg : Config) (s : System) (offset : Int) (upd : Json) (rest : List Json) : System :=
  { s with bot := some ⟨offset, .batch rest⟩, handled := s.handled ++ [(idOf upd, processUpdate cfg upd)] }

/-- There is nothing to save as long as there has been no update. -/
def openFile (s : System) (offset : Int) (ok : Bool) : System :=
  if 0 < offset ∧ ok = true then { s with file := some [], bot := some ⟨offset, .truncated⟩ }
  else { s with bot := some ⟨offset, .polling⟩ }

def write (s : System) (offset : Int) (n : Nat) : System :=
  { s with file := some ((saveOffset offset).take n), bot := some ⟨offset, .polling⟩ }

end System

/-- A new update has a greater number than all before it. -/
def step (cfg : Config) (s : System) : BotEvent → Option System
  | .send upd =>
    if s.last < idOf upd then
      some { s with stored := s.stored ++ [upd], arrived := s.arrived ++ [upd], last := idOf upd }
    else none
  | .forget => some { s with stored := s.stored.filter (s.asked ≤ idOf ·) }
  | .start =>
    match s.bot with
    | none => some { s with bot := some ⟨loadOffset s.file, .polling⟩ }
    | some _ => none
  | .poll answered =>
    match s.bot with
    | some ⟨offset, .polling⟩ => some (s.poll offset answered)
    | _ => none
  | .track =>
    match s.bot with
    | some ⟨offset, .batch (upd :: rest)⟩ => some (s.track offset upd rest)
    | _ => none
  | .process =>
    match s.bot with
    | some ⟨offset, .processing upd rest⟩ => some (s.process cfg offset upd rest)
    | _ => none
  | .openFile ok =>
    match s.bot with
    | some ⟨offset, .batch []⟩ => some (s.openFile offset ok)
    | _ => none
  | .write n =>
    match s.bot with
    | some ⟨offset, .truncated⟩ => some (s.write offset n)
    | _ => none
  | .kill => some { s with bot := none }
  | .restart => some { s with bot := none, file := none }

def startSystem : System := ⟨[], none, none, 0, 0, [], []⟩

/-- The updates of the batch that have not been processed. -/
def Phase.todo : Phase → List Json
  | .polling | .truncated => []
  | .batch rest => rest
  | .processing upd rest => upd :: rest

/-- Each update is processed, and so its command executed, at most once. -/
def AtMostOnce (s : System) : Prop := s.handledIds.Nodup

/-- The update is in the batch, or the next poll asks for it. -/
def Ahead (s : System) (upd : Json) : Prop :=
  match s.bot with
  | some bot => upd ∈ bot.phase.todo ∨ (upd ∈ s.stored ∧ bot.offset < idOf upd)
  | none => upd ∈ s.stored ∧ loadOffset s.file < idOf upd

/-- No update is passed over: each has been processed or is still to come. -/
def NoSkip (s : System) : Prop := ∀ upd ∈ s.arrived, idOf upd ∈ s.handledIds ∨ Ahead s upd

/-- `long` has room for the number and the next one. -/
def inRange : BotEvent → Bool
  | .send upd => idOf upd < 2147483647
  | _ => true

/-- What has been processed is below the number. -/
def covers (s : System) (n : Int) : Bool :=
  s.stored.all fun upd => !s.handledIds.contains (idOf upd) || idOf upd ≤ n

/-- When the process dies, the file has the number of all it has processed. -/
def covered (s : System) : BotEvent → Bool
  | .kill => covers s (loadOffset s.file)
  | .restart => covers s 0
  | _ => true

/-! ### The file -/

theorem loadOffset_take (offset : Int) (n : Nat) (h : 0 ≤ offset) :
    0 ≤ loadOffset (some ((saveOffset offset).take n)) ∧ loadOffset (some ((saveOffset offset).take n)) ≤ offset := by
  have hdigits : ((saveOffset offset).take n).takeWhile isDigit = (Shell.digits offset.toNat).take n := by
    have hall : ∀ b ∈ (Shell.digits offset.toNat).take n, isDigit b = true := fun b hb =>
      Shell.isDigit_of_mem_digits (List.mem_of_mem_take hb)
    rw [saveOffset, List.take_append, List.takeWhile_append_of_pos hall]
    have hend : (([10] : List Byte).take (n - (Shell.digits offset.toNat).length)).takeWhile isDigit = [] := by
      cases n - (Shell.digits offset.toNat).length with
      | zero => rfl
      | succ k =>
        rw [List.take_succ_cons]
        exact List.takeWhile_cons_of_neg (by decide)
    rw [hend, List.append_nil]
  have hle := Shell.decimal_take_le (Shell.digits offset.toNat) n
  rw [Shell.decimal_digits] at hle
  rw [loadOffset, hdigits]
  omega

theorem toLong_eq {n : Int} (h : 0 ≤ n) (hlt : n < 2147483648) : toLong n = n :=
  Int.bmod_eq_of_le (by omega) (by omega)

theorem requested_eq {offset : Int} (hlt : offset < 2147483647) :
    requested offset = if 0 < offset then some (offset + 1) else none := by
  unfold requested
  split
  · rw [toLong_eq (by omega) (by omega)]
  · rfl

/-! ### Nothing is skipped -/

/-- What an offset and the batch leave out has been processed; what is not in the batch comes after it. -/
structure BotInv (last : Int) (arrived : List Json) (handled : List Int) (bot : Bot) : Prop where
  offset : 0 ≤ bot.offset ∧ bot.offset ≤ last
  todo : ∀ upd ∈ bot.phase.todo, upd ∈ arrived
  ahead : ∀ upd ∈ arrived, idOf upd ∈ handled ∨ upd ∈ bot.phase.todo ∨
    (bot.offset < idOf upd ∧ ∀ other ∈ bot.phase.todo, idOf other < idOf upd)

structure SkipInv (s : System) : Prop where
  range : 0 ≤ s.last ∧ s.last < 2147483647
  ids : ∀ upd ∈ s.arrived, 0 < idOf upd ∧ idOf upd ≤ s.last
  stored : ∀ upd ∈ s.stored, upd ∈ s.arrived
  kept : ∀ upd ∈ s.arrived, upd ∈ s.stored ∨ idOf upd ∈ s.handledIds
  asked : s.asked ≤ s.last + 1 ∧ ∀ upd ∈ s.arrived, idOf upd < s.asked → idOf upd ∈ s.handledIds
  file : 0 ≤ loadOffset s.file ∧ loadOffset s.file ≤ s.last ∧
    ∀ upd ∈ s.arrived, idOf upd ≤ loadOffset s.file → idOf upd ∈ s.handledIds
  bot : ∀ bot, s.bot = some bot → BotInv s.last s.arrived s.handledIds bot

variable {cfg : Config} {s s' : System} {e : BotEvent} {bot : Bot} {offset : Int} {upd : Json} {rest : List Json}

/-- A step of the process alone. -/
theorem SkipInv.move (h : SkipInv s) (hbot : BotInv s.last s.arrived s.handledIds bot) : SkipInv { s with bot := some bot } :=
  { h with bot := fun _ heq => Option.some.inj heq ▸ hbot }

section Between
variable {last : Int} {arrived : List Json} {handled : List Int}

/-- With nothing left to process, the offset covers what has been processed and nothing else. -/
theorem BotInv.covered (h : BotInv last arrived handled bot) (htodo : bot.phase.todo = []) (hupd : upd ∈ arrived)
    (hle : idOf upd ≤ bot.offset) : idOf upd ∈ handled := by
  obtain hhandled | hin | ⟨hlt, -⟩ := h.ahead upd hupd
  · exact hhandled
  · rw [htodo] at hin
    cases hin
  · omega

/-- Between two batches it does not matter where the process is. -/
theorem BotInv.between (h : BotInv last arrived handled bot) (htodo : bot.phase.todo = []) {phase : Phase}
    (hphase : phase.todo = []) : BotInv last arrived handled ⟨bot.offset, phase⟩ := by
  obtain ⟨hoffset, hmem, hahead⟩ := h
  rw [htodo, ← hphase] at hmem hahead
  exact ⟨hoffset, hmem, hahead⟩

end Between

theorem skipInv_send (h : SkipInv s) (hlt : s.last < idOf upd) (hrange : idOf upd < 2147483647) :
    SkipInv { s with stored := s.stored ++ [upd], arrived := s.arrived ++ [upd], last := idOf upd } := by
  obtain ⟨hpos, -⟩ := h.range
  have hmem : ∀ {P : Json → Prop}, (∀ other ∈ s.arrived, P other) → P upd → ∀ other ∈ s.arrived ++ [upd], P other := by
    intro P hold hnew other hother
    obtain hother | hother := List.mem_append.mp hother
    · exact hold other hother
    · exact List.mem_singleton.mp hother ▸ hnew
  constructor
  case range => exact ⟨(hpos.trans_lt hlt).le, hrange⟩
  case ids => exact hmem (fun other hother => ⟨(h.ids other hother).1, (h.ids other hother).2.trans hlt.le⟩) ⟨by omega, le_rfl⟩
  case stored =>
    intro other hother
    obtain hother | hother := List.mem_append.mp hother
    · exact List.mem_append_left _ (h.stored other hother)
    · exact List.mem_append_right _ hother
  case kept =>
    refine hmem (fun other hother => ?_) (.inl (List.mem_append_right _ List.mem_cons_self))
    exact (h.kept other hother).imp_left (List.mem_append_left _)
  case asked =>
    obtain ⟨hle, hall⟩ := h.asked
    exact ⟨by show s.asked ≤ idOf upd + 1; omega, hmem hall fun hnew => by change idOf upd < s.asked at hnew; omega⟩
  case file =>
    obtain ⟨hnonneg, hle, hall⟩ := h.file
    exact ⟨hnonneg, hle.trans hlt.le, hmem hall fun hnew => by change idOf upd ≤ loadOffset s.file at hnew; omega⟩
  case bot =>
    intro bot hbot
    obtain ⟨⟨hnonneg, hle⟩, htodo, hahead⟩ := h.bot bot hbot
    refine ⟨⟨hnonneg, hle.trans hlt.le⟩, fun other hother => List.mem_append_left _ (htodo other hother), hmem hahead ?_⟩
    refine .inr (.inr ⟨by omega, fun other hother => ?_⟩)
    exact (h.ids other (htodo other hother)).2.trans_lt hlt

theorem skipInv_forget (h : SkipInv s) : SkipInv { s with stored := s.stored.filter (s.asked ≤ idOf ·) } := by
  refine { h with stored := fun upd hupd => h.stored upd (List.mem_of_mem_filter hupd), kept := fun upd hupd => ?_ }
  obtain hin | hhandled := h.kept upd hupd
  · by_cases hlt : idOf upd < s.asked
    · exact .inr (h.asked.2 upd hupd hlt)
    · exact .inl (List.mem_filter.mpr ⟨hin, decide_eq_true (not_lt.mp hlt)⟩)
  · exact .inr hhandled

theorem skipInv_start (h : SkipInv s) : SkipInv { s with bot := some ⟨loadOffset s.file, .polling⟩ } := by
  obtain ⟨hnonneg, hle, hall⟩ := h.file
  refine h.move ⟨⟨hnonneg, hle⟩, fun upd hupd => (by cases hupd), fun upd hupd => ?_⟩
  by_cases hlt : idOf upd ≤ loadOffset s.file
  · exact .inl (hall upd hupd hlt)
  · exact .inr (.inr ⟨not_le.mp hlt, fun other hother => by cases hother⟩)

/-- An update above the offset is asked for. -/
theorem mem_answer (hlt : offset < 2147483647) (hpos : 0 < idOf upd) :
    upd ∈ s.answer offset ↔ upd ∈ s.stored ∧ offset < idOf upd := by
  rw [System.answer, List.mem_filter, requested_eq hlt]
  refine and_congr_right fun _ => ?_
  split
  · rw [Option.all_some, decide_eq_true_iff]
    omega
  · simp only [Option.all_none, true_iff]
    omega

theorem skipInv_poll (h : SkipInv s) (hbot : s.bot = some ⟨offset, .polling⟩) (answered : Bool) :
    SkipInv (s.poll offset answered) := by
  have hinv := h.bot _ hbot
  obtain ⟨hnonneg, hle⟩ : 0 ≤ offset ∧ offset ≤ s.last := hinv.offset
  have hrange : offset < 2147483647 := hle.trans_lt h.range.2
  have hasked : (requested offset).getD 0 ≤ offset + 1 := by
    rw [requested_eq hrange]
    split
    · exact le_rfl
    · rw [Option.getD_none]
      omega
  have hpolled : SkipInv { s with asked := max s.asked ((requested offset).getD 0) } := by
    refine { h with asked := ⟨max_le h.asked.1 (by show (requested offset).getD 0 ≤ s.last + 1; omega),
      fun upd hupd hlt => ?_⟩, bot := fun bot hbot => ?_ }
    · obtain hlt | hlt := lt_max_iff.mp hlt
      · exact h.asked.2 upd hupd hlt
      · exact hinv.covered rfl hupd (by show idOf upd ≤ offset; omega)
    · obtain ⟨hoffset, htodo, hahead⟩ := h.bot bot hbot
      exact ⟨hoffset, htodo, hahead⟩
  refine hpolled.move ?_
  cases answered with
  | false => exact ⟨hinv.offset, hinv.todo, hinv.ahead⟩
  | true =>
    refine ⟨hinv.offset, fun upd hupd => h.stored upd (List.mem_of_mem_filter hupd), fun upd hupd => ?_⟩
    by_cases hlt : idOf upd ≤ offset
    · exact .inl (hinv.covered rfl hupd hlt)
    · obtain hin | hhandled := h.kept upd hupd
      · exact .inr (.inl ((mem_answer hrange (h.ids upd hupd).1).mpr ⟨hin, not_le.mp hlt⟩))
      · exact .inl hhandled

theorem skipInv_track (h : SkipInv s) (hbot : s.bot = some ⟨offset, .batch (upd :: rest)⟩) :
    SkipInv (s.track offset upd rest) := by
  obtain ⟨⟨hnonneg, hle⟩, htodo, hahead⟩ := h.bot _ hbot
  obtain ⟨hpos, hlast⟩ := h.ids upd (htodo upd List.mem_cons_self)
  have hrange := h.range.2
  have hlong : toLong (idOf upd) = idOf upd := toLong_eq hpos.le (by omega)
  refine h.move ⟨⟨le_max_of_le_left hnonneg, max_le hle (hlong.le.trans hlast)⟩, htodo, fun other hother => ?_⟩
  obtain hhandled | hin | ⟨hlt, hall⟩ := hahead other hother
  · exact .inl hhandled
  · exact .inr (.inl hin)
  · refine .inr (.inr ⟨max_lt hlt ?_, hall⟩)
    rw [hlong]
    exact hall upd List.mem_cons_self

theorem mem_handledIds_process {i : Int} :
    i ∈ (s.process cfg offset upd rest).handledIds ↔ i ∈ s.handledIds ∨ i = idOf upd := by
  rw [System.process, System.handledIds, System.handledIds, List.map_append, List.mem_append]
  exact or_congr_right List.mem_singleton

theorem skipInv_process (h : SkipInv s) (hbot : s.bot = some ⟨offset, .processing upd rest⟩) :
    SkipInv (s.process cfg offset upd rest) := by
  obtain ⟨hoffset, htodo, hahead⟩ := h.bot _ hbot
  have hmono : ∀ {i}, i ∈ s.handledIds → i ∈ (s.process cfg offset upd rest).handledIds := fun hi =>
    mem_handledIds_process.mpr (.inl hi)
  constructor
  case range => exact h.range
  case ids => exact h.ids
  case stored => exact h.stored
  case kept => exact fun other hother => (h.kept other hother).imp_right hmono
  case asked => exact ⟨h.asked.1, fun other hother hlt => hmono (h.asked.2 other hother hlt)⟩
  case file => exact ⟨h.file.1, h.file.2.1, fun other hother hle => hmono (h.file.2.2 other hother hle)⟩
  case bot =>
    intro bot' hbot'
    obtain rfl := Option.some.inj hbot'
    refine ⟨hoffset, fun other hother => htodo other (List.mem_cons_of_mem _ hother), fun other hother => ?_⟩
    obtain hhandled | hin | ⟨hlt, hall⟩ := hahead other hother
    · exact .inl (hmono hhandled)
    · obtain rfl | hin := List.mem_cons.mp hin
      · exact .inl (mem_handledIds_process.mpr (.inr rfl))
      · exact .inr (.inl hin)
    · exact .inr (.inr ⟨hlt, fun v hv => hall v (List.mem_cons_of_mem _ hv)⟩)

/-- A number in the file below which all has been processed. -/
theorem SkipInv.rewrite (h : SkipInv s) {file : Option (List Byte)} (hnonneg : 0 ≤ loadOffset file)
    (hle : loadOffset file ≤ s.last)
    (hall : ∀ upd ∈ s.arrived, idOf upd ≤ loadOffset file → idOf upd ∈ s.handledIds) :
    SkipInv { s with file } :=
  { h with file := ⟨hnonneg, hle, hall⟩ }

/-- An empty file and none are 0. -/
theorem SkipInv.empty (h : SkipInv s) (file : Option (List Byte)) (hzero : loadOffset file = 0) : SkipInv { s with file } := by
  refine h.rewrite hzero.ge (hzero.le.trans h.range.1) fun upd hupd hle => ?_
  rw [hzero] at hle
  exact absurd (h.ids upd hupd).1 (not_lt.mpr hle)

theorem skipInv_openFile (h : SkipInv s) (hbot : s.bot = some ⟨offset, .batch []⟩) (ok : Bool) :
    SkipInv (s.openFile offset ok) := by
  have hinv := h.bot _ hbot
  unfold System.openFile
  split
  · exact (h.empty (some []) rfl).move (hinv.between rfl rfl)
  · exact h.move (hinv.between rfl rfl)

theorem skipInv_write (h : SkipInv s) (hbot : s.bot = some ⟨offset, .truncated⟩) (n : Nat) :
    SkipInv (s.write offset n) := by
  have hinv := h.bot _ hbot
  obtain ⟨hnonneg, hle⟩ := loadOffset_take offset n hinv.offset.1
  have hfile := h.rewrite hnonneg (hle.trans hinv.offset.2) fun upd hupd hid => hinv.covered rfl hupd (hid.trans hle)
  exact hfile.move (hinv.between rfl rfl)

theorem SkipInv.stop (h : SkipInv s) : SkipInv { s with bot := none } :=
  { h with bot := fun _ heq => by cases heq }

theorem skipInv_step (h : SkipInv s) (hrange : inRange e = true) (hstep : step cfg s e = some s') : SkipInv s' := by
  cases e with
  | send upd =>
    obtain ⟨hlt, ⟨⟩⟩ := Option.ite_none_right_eq_some.mp hstep
    exact skipInv_send h hlt (of_decide_eq_true hrange)
  | forget =>
    cases hstep
    exact skipInv_forget h
  | start =>
    simp only [step] at hstep
    split at hstep <;> cases hstep
    exact skipInv_start h
  | poll answered =>
    simp only [step] at hstep
    split at hstep <;> cases hstep
    exact skipInv_poll h ‹_› answered
  | track =>
    simp only [step] at hstep
    split at hstep <;> cases hstep
    exact skipInv_track h ‹_›
  | process =>
    simp only [step] at hstep
    split at hstep <;> cases hstep
    exact skipInv_process h ‹_›
  | openFile ok =>
    simp only [step] at hstep
    split at hstep <;> cases hstep
    exact skipInv_openFile h ‹_› ok
  | write n =>
    simp only [step] at hstep
    split at hstep <;> cases hstep
    exact skipInv_write h ‹_› n
  | kill =>
    cases hstep
    exact h.stop
  | restart =>
    cases hstep
    exact (h.empty none rfl).stop

theorem skipInv_start_system : SkipInv startSystem := by
  have hnone : ∀ {P : Json → Prop}, ∀ upd ∈ ([] : List Json), P upd := fun upd hupd => absurd hupd List.not_mem_nil
  exact ⟨by decide, hnone, hnone, hnone, ⟨by decide, hnone⟩, ⟨by decide, by decide, hnone⟩, fun _ hbot => by cases hbot⟩

/-- **Nothing is skipped**, whenever the bot is killed and whatever becomes of the file. -/
theorem noSkip_of_inRange (h : Reach (step cfg) (fun _ e => inRange e = true) startSystem s) : NoSkip s := by
  have hinv : SkipInv s :=
    Reach.invariant skipInv_start_system (fun _ _ _ hs hrange hstep => skipInv_step hs hrange hstep) h
  intro upd hupd
  by_cases hhandled : idOf upd ∈ s.handledIds
  · exact .inl hhandled
  have hstored := (hinv.kept upd hupd).resolve_right hhandled
  refine .inr ?_
  rw [Ahead]
  split
  · rename_i bot hbot
    obtain hin | hin | ⟨hlt, -⟩ := (hinv.bot bot hbot).ahead upd hupd
    · exact absurd hin hhandled
    · exact .inl hin
    · exact .inr ⟨hstored, hlt⟩
  · exact ⟨hstored, not_le.mp fun hle => hhandled (hinv.file.2.2 upd hupd hle)⟩

/-! ### Nothing is processed twice -/

def Covers (s : System) (n : Int) : Prop := ∀ upd ∈ s.stored, idOf upd ∈ s.handledIds → idOf upd ≤ n

theorem covers_iff {n : Int} : covers s n = true ↔ Covers s n := by
  simp only [covers, Covers, List.all_eq_true, Bool.or_eq_true, Bool.not_eq_true', List.contains_eq_mem,
    decide_eq_false_iff_not, decide_eq_true_eq, imp_iff_not_or]

/-- The offset covers what has been processed; the batch is new. -/
structure BotOnce (handled : List Int) (stored : List Json) (bot : Bot) : Prop where
  seen : ∀ upd ∈ stored, idOf upd ∈ handled → idOf upd ≤ bot.offset
  distinct : (bot.phase.todo.map idOf).Nodup
  fresh : ∀ upd ∈ bot.phase.todo, idOf upd ∉ handled
  tracked : ∀ upd rest, bot.phase = .processing upd rest → idOf upd ≤ bot.offset

structure OnceInv (s : System) : Prop where
  once : AtMostOnce s
  late : ∀ i ∈ s.handledIds, i ≤ s.last
  distinct : (s.stored.map idOf).Nodup
  bot : ∀ bot, s.bot = some bot → BotOnce s.handledIds s.stored bot
  stopped : s.bot = none → Covers s (loadOffset s.file)

/-- Between two batches there is nothing to be new. -/
theorem BotOnce.between {handled : List Int} {stored : List Json}
    (hseen : ∀ upd ∈ stored, idOf upd ∈ handled → idOf upd ≤ offset) {phase : Phase} (hphase : phase.todo = []) :
    BotOnce handled stored ⟨offset, phase⟩ := by
  refine ⟨hseen, ?_, fun upd hupd => ?_, fun upd rest heq => ?_⟩
  · rw [hphase]
    exact List.nodup_nil
  · rw [hphase] at hupd
    cases hupd
  · obtain rfl : phase = .processing upd rest := heq
    cases hphase

/-- Fewer updates may be stored, and the file may change, while the bot runs. -/
theorem OnceInv.move (h : OnceInv s) {file : Option (List Byte)} {asked : Int}
    (hbot : BotOnce s.handledIds s.stored bot) : OnceInv { s with file, asked, bot := some bot } :=
  { h with bot := fun _ heq => Option.some.inj heq ▸ hbot, stopped := fun heq => by cases heq }

theorem onceInv_send (h : OnceInv s) (hskip : SkipInv s) (hlt : s.last < idOf upd) :
    OnceInv { s with stored := s.stored ++ [upd], arrived := s.arrived ++ [upd], last := idOf upd } := by
  have hnew : idOf upd ∉ s.handledIds := fun hin => absurd (h.late _ hin) (not_le.mpr hlt)
  have hcovers : ∀ {n}, (∀ other ∈ s.stored, idOf other ∈ s.handledIds → idOf other ≤ n) →
      ∀ other ∈ s.stored ++ [upd], idOf other ∈ s.handledIds → idOf other ≤ n := by
    intro n hall other hother hin
    obtain hother | hother := List.mem_append.mp hother
    · exact hall other hother hin
    · rw [List.mem_singleton.mp hother] at hin
      exact absurd hin hnew
  refine ⟨h.once, fun i hi => (h.late i hi).trans hlt.le, ?_, fun bot hbot => ?_, fun hbot => hcovers (h.stopped hbot)⟩
  · rw [List.map_append, List.map_singleton, List.nodup_append]
    refine ⟨h.distinct, List.pairwise_singleton _ _, fun i hi j hj heq => ?_⟩
    obtain ⟨other, hother, rfl⟩ := List.mem_map.mp hi
    rw [List.mem_singleton.mp hj] at heq
    have hle := (hskip.ids other (hskip.stored other hother)).2
    omega
  · have hold := h.bot bot hbot
    exact { hold with seen := hcovers hold.seen }

theorem onceInv_forget (h : OnceInv s) : OnceInv { s with stored := s.stored.filter (s.asked ≤ idOf ·) } := by
  constructor
  case once => exact h.once
  case late => exact h.late
  case distinct => exact h.distinct.sublist (List.filter_sublist.map idOf)
  case bot =>
    intro bot hbot
    have hold := h.bot bot hbot
    exact { hold with seen := fun upd hupd => hold.seen upd (List.mem_of_mem_filter hupd) }
  case stopped => exact fun hbot upd hupd => h.stopped hbot upd (List.mem_of_mem_filter hupd)

theorem onceInv_poll (h : OnceInv s) (hskip : SkipInv s) (hbot : s.bot = some ⟨offset, .polling⟩) (answered : Bool) :
    OnceInv (s.poll offset answered) := by
  have hold := h.bot _ hbot
  have hrange : offset < 2147483647 := (hskip.bot _ hbot).offset.2.trans_lt hskip.range.2
  refine h.move ?_
  cases answered with
  | false => exact BotOnce.between hold.seen rfl
  | true =>
    refine ⟨hold.seen, h.distinct.sublist (List.filter_sublist.map idOf), fun upd hupd hin => ?_, fun _ _ heq => by cases heq⟩
    have hstored := List.mem_of_mem_filter hupd
    have hpos := (hskip.ids upd (hskip.stored upd hstored)).1
    exact absurd ((mem_answer hrange hpos).mp hupd).2 (not_lt.mpr (hold.seen upd hstored hin))

theorem onceInv_track (h : OnceInv s) (hskip : SkipInv s) (hbot : s.bot = some ⟨offset, .batch (upd :: rest)⟩) :
    OnceInv (s.track offset upd rest) := by
  obtain ⟨hseen, hdistinct, hfresh, -⟩ := h.bot _ hbot
  refine h.move ⟨fun other hother hin => le_max_of_le_left (hseen other hother hin), hdistinct, hfresh, ?_⟩
  rintro _ _ ⟨⟩
  obtain ⟨hpos, hlast⟩ := hskip.ids upd ((hskip.bot _ hbot).todo upd List.mem_cons_self)
  have hrange := hskip.range.2
  exact le_max_of_le_right (toLong_eq hpos.le (by omega)).ge

theorem onceInv_process (h : OnceInv s) (hskip : SkipInv s) (hbot : s.bot = some ⟨offset, .processing upd rest⟩) :
    OnceInv (s.process cfg offset upd rest) := by
  obtain ⟨hseen, hdistinct, hfresh, htracked⟩ := h.bot _ hbot
  have hnew : idOf upd ∉ s.handledIds := hfresh upd List.mem_cons_self
  have hle : idOf upd ≤ offset := htracked upd rest rfl
  obtain ⟨hother, hrest⟩ := List.nodup_cons.mp hdistinct
  constructor
  case once =>
    have hids : (s.process cfg offset upd rest).handledIds = s.handledIds ++ [idOf upd] := List.map_append
    rw [AtMostOnce, hids, List.nodup_append]
    refine ⟨h.once, List.pairwise_singleton _ _, fun i hi j hj heq => hnew ?_⟩
    rw [List.mem_singleton.mp hj] at heq
    exact heq ▸ hi
  case late =>
    intro i hi
    obtain hi | rfl := mem_handledIds_process.mp hi
    · exact h.late i hi
    · exact (hskip.ids upd ((hskip.bot _ hbot).todo upd List.mem_cons_self)).2
  case distinct => exact h.distinct
  case bot =>
    intro bot' hbot'
    obtain rfl := Option.some.inj hbot'
    refine ⟨fun v hv hin => ?_, hrest, fun v hv hin => ?_, fun _ _ heq => by cases heq⟩
    · obtain hin | heq := mem_handledIds_process.mp hin
      · exact hseen v hv hin
      · exact heq.le.trans hle
    · obtain hin | heq := mem_handledIds_process.mp hin
      · exact hfresh v (List.mem_cons_of_mem _ hv) hin
      · exact hother (heq ▸ List.mem_map_of_mem hv)
  case stopped => exact fun heq => by cases heq

theorem onceInv_openFile (h : OnceInv s) (hbot : s.bot = some ⟨offset, .batch []⟩) (ok : Bool) :
    OnceInv (s.openFile offset ok) := by
  have hseen := (h.bot _ hbot).seen
  unfold System.openFile
  split
  · exact h.move (BotOnce.between hseen rfl)
  · exact h.move (BotOnce.between hseen rfl)

theorem onceInv_step (h : OnceInv s) (hskip : SkipInv s) (hcovered : covered s e = true)
    (hstep : step cfg s e = some s') : OnceInv s' := by
  cases e with
  | send upd =>
    obtain ⟨hlt, ⟨⟩⟩ := Option.ite_none_right_eq_some.mp hstep
    exact onceInv_send h hskip hlt
  | forget =>
    cases hstep
    exact onceInv_forget h
  | start =>
    simp only [step] at hstep
    split at hstep <;> cases hstep
    exact h.move (BotOnce.between (h.stopped ‹_›) rfl)
  | poll answered =>
    simp only [step] at hstep
    split at hstep <;> cases hstep
    exact onceInv_poll h hskip ‹_› answered
  | track =>
    simp only [step] at hstep
    split at hstep <;> cases hstep
    exact onceInv_track h hskip ‹_›
  | process =>
    simp only [step] at hstep
    split at hstep <;> cases hstep
    exact onceInv_process h hskip ‹_›
  | openFile ok =>
    simp only [step] at hstep
    split at hstep <;> cases hstep
    exact onceInv_openFile h ‹_› ok
  | write n =>
    simp only [step] at hstep
    split at hstep <;> cases hstep
    exact h.move (BotOnce.between (h.bot _ ‹_›).seen rfl)
  | kill =>
    cases hstep
    exact { h with bot := fun _ heq => (by cases heq), stopped := fun _ => covers_iff.mp hcovered }
  | restart =>
    cases hstep
    exact { h with bot := fun _ heq => (by cases heq), stopped := fun _ => covers_iff.mp hcovered }

theorem onceInv_start_system : OnceInv startSystem := by
  refine ⟨List.nodup_nil, fun i hi => (by cases hi), List.nodup_nil, fun _ hbot => (by cases hbot), fun _ upd hupd => ?_⟩
  cases hupd

/-- **Each command at most once and no update skipped**, in runs where the file covers what has been
processed whenever the bot dies, and the numbers have room in a `long`. -/
theorem once_of_covered
    (h : Reach (step cfg) (fun s e => (inRange e && covered s e) = true) startSystem s) : AtMostOnce s ∧ NoSkip s := by
  have hkept : ∀ s e s', SkipInv s ∧ OnceInv s → (inRange e && covered s e) = true → step cfg s e = some s' →
      SkipInv s' ∧ OnceInv s' := by
    intro s e s' hs hok hstep
    rw [Bool.and_eq_true] at hok
    exact ⟨skipInv_step hs.1 hok.1 hstep, onceInv_step hs.2 hs.1 hok.2 hstep⟩
  have hinv : SkipInv s ∧ OnceInv s := by
    refine Reach.invariant (s := s) ?_ hkept h
    exact ⟨skipInv_start_system, onceInv_start_system⟩
  exact ⟨hinv.2.once, noSkip_of_inRange (h.weaken fun _ _ hok => (Bool.and_eq_true _ _ ▸ hok).1)⟩

/-- A camera that may be restarted by anyone, and an update that asks for it. -/
def openConfig : Config := ⟨ascii "1:a", [], [], [], [⟨ascii "reboot", [], ascii "reboot"⟩]⟩

def rebootUpdate (id : Int) : Json :=
  .object [("update_id", .number id id), ("message", .object [
    ("chat", .object [("id", .number 7 7)]), ("text", .string (ascii "/reboot"))])]

def rebooted (id : Int) : Int × Option Reaction := (id, some (.executed (ascii "reboot") 7))

/-- The process dies after the number has been saved, and is started again. -/
theorem once_after_save :
    ∃ s, Reach (step openConfig) (fun s e => (inRange e && covered s e) = true) startSystem s ∧
      s.handled = [rebooted 1] ∧ AtMostOnce s ∧ NoSkip s := by
  have hrun : ∃ s, Reach (step openConfig) (fun s e => (inRange e && covered s e) = true) startSystem s ∧
      s.handled = [rebooted 1] :=
    exists_reach [.send (rebootUpdate 1), .start, .poll true, .track, .process, .openFile true, .write 2, .kill, .start,
      .poll true] (by decide)
  obtain ⟨s, hs, hhandled⟩ := hrun
  exact ⟨s, hs, hhandled, once_of_covered hs⟩

/-- The camera restarts in the middle of a batch because it was asked to, and does so again. -/
theorem rebooted_twice :
    ∃ s, Reach (step openConfig) (fun _ e => inRange e = true) startSystem s ∧
      s.handled = [rebooted 1, rebooted 1] ∧ ¬AtMostOnce s := by
  have hrun : ∃ s, Reach (step openConfig) (fun _ e => inRange e = true) startSystem s ∧
      s.handled = [rebooted 1, rebooted 1] :=
    exists_reach [.send (rebootUpdate 1), .start, .poll true, .track, .process, .restart, .start, .poll true, .track,
      .process] (by decide)
  obtain ⟨s, hs, hhandled⟩ := hrun
  refine ⟨s, hs, hhandled, fun h => ?_⟩
  rw [AtMostOnce, System.handledIds, hhandled] at h
  exact absurd h (by decide)

end Thingino.Telegram
