import Thingino.Lib.Shell

/-! Sessions of the web interface: a file for each in `/tmp/sessions`, named by its id.

A client is let in if the id in its cookie names a regular file. The id comes from the header as a
text of any kind, cut out by `tr`, `grep` and `cut`, and is put behind `/tmp/sessions/` as it is; a text
with a slash in it names a file elsewhere. What such texts resolve to is for the rest of the file system
to say (`World`), and it may say something else each time. -/
namespace Thingino.Web
open Lib

/-! ### The cookie -/

def cookieName : List Byte := ascii "thingino_session"

/-- `get_session_from_cookie`: the second field of each line that begins with the name, without its
spaces, as `$(…)` takes it. -/
def sessionFromCookie (cookie : List Byte) : List Byte :=
  let lines := (cookie.map fun b => if b = 59 then 10 else b).splitOn 10
  let values := (lines.filter fun line => cookieName ++ ascii "=" <+: line).map fun line =>
    ((line.drop (cookieName.length + 1)).takeWhile (· ≠ 61)).filter (· ≠ 32)
  ([10].intercalate values).rdropWhile (· = 10)

/-! ### The session directory -/

/-- What a text with a slash in it resolves to, from the session directory on: an entry of that
directory again, or else a regular file somewhere or not. `returns` says of a file that the script
goes on behind it when it is sourced. -/
structure World where
  entry : List Byte → Option (List Byte)
  regular : List Byte → Bool
  returns : List Byte → Bool

/-- The sixteen bytes of an id as hexadecimal digits. -/
def hexDigit (n : Nat) : Byte := BitVec.ofNat 8 (if n < 10 then 48 + n else 87 + n)

def generateSessionId (random : List Byte) : List Byte :=
  (random.take 16).flatMap fun b => [hexDigit (b.toNat / 16), hexDigit (b.toNat % 16)]

/-- The files in the session directory. `live` is for the record: the ids returned and not deleted
since. -/
structure Store where
  files : List (List Byte)
  live : List (List Byte)

/-- `create_session` may find no room for its file, and returns the id all the same. -/
inductive Event
  | createSession (random : List Byte) (written : Bool)
  | deleteSession (id : List Byte) (world : World)

namespace Store

/-- The entry of the session directory that a text names. -/
def name (world : World) (text : List Byte) : Option (List Byte) :=
  if text.contains 47 then world.entry text else some text

/-- `[ -f "/tmp/sessions/$text" ]`. -/
def isFile (s : Store) (world : World) (text : List Byte) : Bool :=
  match name world text with
  | some entry => s.files.contains entry
  | none => world.regular text

def step (s : Store) : Event → Store
  | .createSession random written =>
    let id := generateSessionId random
    { files := if written ∧ id ≠ [] then id :: s.files else s.files, live := id :: s.live }
  | .deleteSession id world =>
    { files := match name world id with
        | some entry => s.files.filter (· ≠ entry)
        | none => s.files
      live := s.live.filter (· ≠ id) }

/-- The directory after a history, from an empty one on. -/
def after (history : List Event) : Store := history.foldl step ⟨[], []⟩

/-- `validate_session`. -/
def validateSession (s : Store) (world : World) (id : List Byte) : Bool := s.isFile world id && world.returns id

end Store

/-! ### `require_auth` -/

structure Request where
  cookie : List Byte
  apiKey : List Byte
  query : List Byte
  trusted : Bool

/-- The key of `verify_api_key`: the header, or else the token of the query. -/
def Request.providedKey (r : Request) : List Byte :=
  if r.apiKey ≠ [] then r.apiKey
  else
    let token :=
      if ascii "token=" <+: r.query then r.query.drop 6
      else (Shell.behindLast (ascii "token=") r.query).getD []
    token.takeWhile (· ≠ 38)

def Request.verifyApiKey (r : Request) (stored : Option (List Byte)) : Bool :=
  match stored with
  | none => false
  | some key =>
    let key := key.filter fun b => b ≠ 10 && b ≠ 13 && b ≠ 32
    r.providedKey ≠ [] && key ≠ [] && r.providedKey = key

/-- `require_auth` returns to the script that asks. -/
def requireAuth (s : Store) (world : World) (stored : Option (List Byte)) (r : Request) : Bool :=
  let id := sessionFromCookie r.cookie
  r.trusted || (id ≠ [] && s.validateSession world id) || r.verifyApiKey stored

/-- **The property.** A client that has only its cookie gets in with the id of a live session. -/
def Sound (s : Store) (world : World) (stored : Option (List Byte)) (r : Request) : Prop :=
  r.trusted = false → r.providedKey = [] → requireAuth s world stored r = true → sessionFromCookie r.cookie ∈ s.live

/-! ### What is in the directory -/

theorem slash_notMem_generateSessionId (random : List Byte) : 47 ∉ generateSessionId random := by
  have hdigit : ∀ n, n < 16 → hexDigit n ≠ 47 := by decide
  intro hmem
  obtain ⟨b, -, hb⟩ := List.mem_flatMap.mp hmem
  have hlt := b.isLt
  simp only [List.mem_cons, List.not_mem_nil, or_false] at hb
  obtain hb | hb := hb
  · exact hdigit _ (by omega) hb.symm
  · exact hdigit _ (by omega) hb.symm

/-- Every file is that of a live session, and no id has a slash in it. -/
structure Store.Inv (s : Store) : Prop where
  live : ∀ file ∈ s.files, file ∈ s.live
  plain : ∀ id ∈ s.live, 47 ∉ id

namespace Store

theorem inv_step {s : Store} (h : s.Inv) (e : Event) : (s.step e).Inv := by
  cases e with
  | createSession random written =>
    refine ⟨fun file hfile => ?_, List.forall_mem_cons.mpr ⟨slash_notMem_generateSessionId random, h.plain⟩⟩
    simp only [step] at hfile
    split at hfile
    · exact (List.mem_cons.mp hfile).elim (fun heq => heq ▸ List.mem_cons_self)
        fun hold => List.mem_cons_of_mem _ (h.live file hold)
    · exact List.mem_cons_of_mem _ (h.live file hfile)
  | deleteSession id world =>
    refine ⟨fun file hfile => ?_, fun i hi => h.plain i (List.mem_filter.mp hi).1⟩
    simp only [step, name] at hfile
    cases hslash : id.contains 47 with
    | true =>
      rw [hslash, if_pos rfl] at hfile
      have hold : file ∈ s.files := by
        split at hfile
        · exact (List.mem_filter.mp hfile).1
        · exact hfile
      have hlive := h.live file hold
      refine List.mem_filter.mpr ⟨hlive, decide_eq_true fun heq => ?_⟩
      exact h.plain file hlive (heq ▸ List.contains_iff_mem.mp hslash)
    | false =>
      rw [hslash, if_neg Bool.false_ne_true] at hfile
      obtain ⟨hold, hne⟩ := List.mem_filter.mp hfile
      exact List.mem_filter.mpr ⟨h.live file hold, hne⟩

theorem inv_after (history : List Event) : (after history).Inv := by
  have hfold : ∀ s : Store, s.Inv → (history.foldl step s).Inv := by
    induction history with
    | nil => exact fun _ h => h
    | cons e history ih => exact fun s h => ih (s.step e) (inv_step h e)
  exact hfold _ ⟨fun _ => (nomatch ·), fun _ => (nomatch ·)⟩

end Store

/-- The id leads out of what the session directory holds under its own names, to a file that a
script can source. -/
def leadsElsewhere (s : Store) (world : World) (cookie : List Byte) : Bool :=
  let id := sessionFromCookie cookie
  id.contains 47 && s.isFile world id && world.returns id

/-- With no other means, a client gets in by its cookie alone. -/
theorem requireAuth_of_cookie {s : Store} {world : World} {stored : Option (List Byte)} {r : Request}
    (htrusted : r.trusted = false) (hkey : r.providedKey = []) :
    requireAuth s world stored r = true ↔
      sessionFromCookie r.cookie ≠ [] ∧ s.isFile world (sessionFromCookie r.cookie) = true ∧
        world.returns (sessionFromCookie r.cookie) = true := by
  have hverify : r.verifyApiKey stored = false := by
    unfold Request.verifyApiKey
    cases stored with
    | none => rfl
    | some key => simp [hkey]
  simp [requireAuth, htrusted, hverify, Store.validateSession]

/-- **Sessions are sound exactly when** the id in the cookie does not lead elsewhere, whatever was
created and deleted before. -/
theorem sound_iff_not_leadsElsewhere (history : List Event) (world : World) (stored : Option (List Byte)) (r : Request) :
    Sound (Store.after history) world stored r ↔
      (r.trusted = false → r.providedKey = [] → leadsElsewhere (Store.after history) world r.cookie = false) := by
  have hinv := Store.inv_after history
  unfold Sound leadsElsewhere
  refine forall₂_congr fun htrusted hkey => ?_
  rw [requireAuth_of_cookie htrusted hkey]
  generalize sessionFromCookie r.cookie = id
  dsimp only
  constructor
  · intro h
    refine Bool.eq_false_iff.mpr fun hleads => ?_
    rw [Bool.and_eq_true, Bool.and_eq_true, List.contains_iff_mem] at hleads
    obtain ⟨⟨hslash, hfile⟩, hreturns⟩ := hleads
    exact hinv.plain id (h ⟨List.ne_nil_of_mem hslash, hfile, hreturns⟩) hslash
  · rintro h ⟨-, hfile, hreturns⟩
    rw [hfile, hreturns, Bool.and_true, Bool.and_true] at h
    rw [Store.isFile, Store.name, h, if_neg Bool.false_ne_true] at hfile
    exact hinv.live id (List.contains_iff_mem.mp hfile)

/-- Two sessions, one of them deleted. -/
def sampleHistory : List Event :=
  [.createSession (List.replicate 16 171) true, .createSession (List.replicate 16 18) true,
    .deleteSession (generateSessionId (List.replicate 16 18)) ⟨fun _ => none, fun _ => true, fun _ => true⟩]

/-- A world with regular files wherever a text with a slash may lead. -/
def plentiful : World := ⟨fun _ => none, fun _ => true, fun _ => true⟩

/-- A client with a cookie and nothing else. -/
def withCookie (cookie : List Byte) : Request := ⟨cookie, [], [], false⟩

/-- The live session gets in, the deleted one does not. -/
theorem sound_live_session :
    requireAuth (Store.after sampleHistory) plentiful none
        (withCookie (ascii "thingino_session=abababababababababababababababab; lang=en")) = true ∧
      Sound (Store.after sampleHistory) plentiful none
        (withCookie (ascii "thingino_session=abababababababababababababababab; lang=en")) ∧
      requireAuth (Store.after sampleHistory) plentiful none
        (withCookie (ascii "thingino_session=12121212121212121212121212121212")) = false := by
  refine ⟨by decide +kernel, (sound_iff_not_leadsElsewhere sampleHistory plentiful none _).mpr fun _ _ => ?_, by decide +kernel⟩
  decide +kernel

/-- No session was ever created, and a path leads to a file. -/
theorem traversal_gets_in :
    requireAuth (Store.after []) plentiful none (withCookie (ascii "thingino_session=../../etc/hostname")) = true ∧
      ¬Sound (Store.after []) plentiful none (withCookie (ascii "thingino_session=../../etc/hostname")) := by
  have hin : requireAuth (Store.after []) plentiful none (withCookie (ascii "thingino_session=../../etc/hostname")) = true := by
    decide +kernel
  exact ⟨hin, fun h => nomatch h rfl rfl hin⟩

end Thingino.Web
