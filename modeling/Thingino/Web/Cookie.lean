import Mathlib.Data.List.Nodup
import Thingino.Lib.Lines
import Thingino.Web.Session

/-! The session id in the header that a browser sends.

A browser joins its cookies by a semicolon and a blank. `get_session_from_cookie` makes each semicolon the end of
a line and looks for the name where a line begins: only the first cookie of the header stands there, the others
have the blank in front. -/
namespace Thingino.Web
open Lib

/-- What names and values are made of. -/
def isCookieByte (b : Byte) : Bool := b ≠ 59 && b ≠ 61 && !isSpace b

structure Cookie where
  name : List Byte
  value : List Byte
  name_plain : name.all isCookieByte = true
  value_plain : value.all isCookieByte = true
deriving DecidableEq

namespace Cookie

def text (c : Cookie) : List Byte := c.name ++ 61 :: c.value

end Cookie

/-- `HTTP_COOKIE`, as a browser sends it. -/
def header : List Cookie → List Byte
  | [] => []
  | c :: cookies => c.text ++ cookies.flatMap fun d => 59 :: 32 :: d.text

/-- The value of the session cookie, and nothing where there is none. -/
def sessionValue (cookies : List Cookie) : List Byte :=
  ((cookies.find? fun c => c.name = cookieName).map Cookie.value).getD []

/-- **The property.** The id is the value of the session cookie. -/
def Extracted (cookies : List Cookie) : Prop := sessionFromCookie (header cookies) = sessionValue cookies

instance (cookies : List Cookie) : Decidable (Extracted cookies) :=
  inferInstanceAs (Decidable (sessionFromCookie (header cookies) = sessionValue cookies))

/-! ### The lines -/

section Lines
variable {c : Cookie} {cookies : List Cookie} {s : List Byte}

/-- The semicolons become newlines. -/
def newlines (s : List Byte) : List Byte := s.map fun b => if b = 59 then 10 else b

theorem ne_of_isCookieByte {b : Byte} (h : isCookieByte b = true) : b ≠ 59 ∧ b ≠ 61 ∧ b ≠ 10 ∧ b ≠ 32 := by
  simp only [isCookieByte, Bool.and_eq_true, decide_eq_true_eq, Bool.not_eq_true'] at h
  refine ⟨h.1.1, h.1.2, ?_, ?_⟩
  · rintro rfl
    exact absurd h.2 (by decide)
  · rintro rfl
    exact absurd h.2 (by decide)

theorem mem_text {b : Byte} (h : b ∈ c.text) : b ≠ 59 ∧ b ≠ 10 := by
  obtain h | h := List.mem_append.mp h
  · have hb := ne_of_isCookieByte (List.all_eq_true.mp c.name_plain b h)
    exact ⟨hb.1, hb.2.2.1⟩
  · obtain rfl | h := List.mem_cons.mp h
    · decide
    · have hb := ne_of_isCookieByte (List.all_eq_true.mp c.value_plain b h)
      exact ⟨hb.1, hb.2.2.1⟩

theorem newlines_text (c : Cookie) : newlines c.text = c.text := by
  refine (List.map_congr_left fun b hb => ?_).trans (List.map_id _)
  exact if_neg (mem_text hb).1

theorem newlines_header (c : Cookie) (cookies : List Cookie) :
    newlines (header (c :: cookies)) = c.text ++ cookies.flatMap fun d => 10 :: 32 :: d.text := by
  have hrest : newlines (cookies.flatMap fun d => 59 :: 32 :: d.text) =
      cookies.flatMap fun d => 10 :: 32 :: d.text := by
    induction cookies with
    | nil => rfl
    | cons d cookies ih =>
      rw [List.flatMap_cons, List.flatMap_cons, ← ih]
      have hd := newlines_text d
      unfold newlines at hd ⊢
      rw [List.map_append, List.map_cons, List.map_cons, hd]
      rfl
  have hc := newlines_text c
  unfold newlines at hc hrest ⊢
  rw [header, List.map_append, hc, hrest]

/-- One line for each cookie, and a blank at the beginning of each but the first. -/
theorem lines_header (c : Cookie) (cookies : List Cookie) :
    (newlines (header (c :: cookies))).splitOn 10 = c.text :: cookies.map fun d => 32 :: d.text := by
  have hsplit : ∀ (cookies : List Cookie) (s : List Byte), 10 ∉ s →
      (s ++ cookies.flatMap fun d => 10 :: 32 :: d.text).splitOn 10 = s :: cookies.map fun d => 32 :: d.text := by
    intro cookies
    induction cookies with
    | nil =>
      intro s hs
      rw [List.flatMap_nil, List.append_nil, List.map_nil]
      exact Lines.splitOn_line hs
    | cons d cookies ih =>
      intro s hs
      have hblank : (10 : Byte) ∉ 32 :: d.text := by
        rw [List.mem_cons, not_or]
        exact ⟨by decide, fun h => (mem_text h).2 rfl⟩
      rw [List.flatMap_cons, List.cons_append, List.splitOn_append_cons_self, ih _ hblank, Lines.splitOn_line hs]
      rfl
  rw [newlines_header]
  exact hsplit cookies c.text fun h => (mem_text h).2 rfl

/-- Only the session cookie begins a line with its name. -/
theorem name_prefix_text (c : Cookie) : cookieName ++ ascii "=" <+: c.text ↔ c.name = cookieName := by
  have hplain : (61 : Byte) ∉ cookieName := by decide
  have hname : (61 : Byte) ∉ c.name := fun h => (ne_of_isCookieByte (List.all_eq_true.mp c.name_plain _ h)).2.1 rfl
  constructor
  · rintro ⟨rest, hrest⟩
    have hshape : cookieName ++ 61 :: rest = c.name ++ 61 :: c.value := by
      rw [← Cookie.text, ← hrest, List.append_assoc]
      rfl
    have hcut := congrArg (List.takeWhile (· ≠ 61)) hshape
    rw [takeWhile_cut hplain, takeWhile_cut hname] at hcut
    exact hcut.symm
  · intro h
    rw [Cookie.text, h]
    exact ⟨c.value, by rw [List.append_assoc]; rfl⟩

theorem not_prefix_behind (d : Cookie) : ¬cookieName ++ ascii "=" <+: 32 :: d.text := fun h =>
  absurd (List.cons_prefix_cons.mp h).1 (by decide)

/-- The second field of a line with the session cookie. -/
theorem field_text (h : c.name = cookieName) :
    ((c.text.drop (cookieName.length + 1)).takeWhile (· ≠ 61)).filter (· ≠ 32) = c.value := by
  have hbyte : ∀ b ∈ c.value, b ≠ 61 ∧ b ≠ 32 := fun b hb =>
    have hne := ne_of_isCookieByte (List.all_eq_true.mp c.value_plain b hb)
    ⟨hne.2.1, hne.2.2.2⟩
  have hdrop : c.text.drop (cookieName.length + 1) = c.value := by
    rw [Cookie.text, h, List.append_cons]
    exact List.drop_left' (by simp)
  rw [hdrop, List.takeWhile_eq_self_iff.mpr fun b hb => decide_eq_true (hbyte b hb).1,
    List.filter_eq_self.mpr fun b hb => decide_eq_true (hbyte b hb).2]

/-- **What the script prints**: the value of the first cookie, if that is the session cookie. -/
theorem sessionFromCookie_header (c : Cookie) (cookies : List Cookie) :
    sessionFromCookie (header (c :: cookies)) = if c.name = cookieName then c.value else [] := by
  have hbehind : ((cookies.map fun d => 32 :: d.text).filter fun line => cookieName ++ ascii "=" <+: line) = [] := by
    rw [List.filter_eq_nil_iff]
    intro line hline
    obtain ⟨d, -, rfl⟩ := List.mem_map.mp hline
    rw [decide_eq_false (not_prefix_behind d)]
    exact Bool.false_ne_true
  have hlines := lines_header c cookies
  unfold newlines at hlines
  unfold sessionFromCookie
  rw [hlines]
  dsimp only
  rw [List.filter_cons, hbehind]
  split
  · rename_i hname
    have hname := (name_prefix_text c).mp (of_decide_eq_true hname)
    have hend : ∀ b ∈ c.value, ¬decide (b = 10) = true := fun b hb =>
      have hne := ne_of_isCookieByte (List.all_eq_true.mp c.value_plain b hb)
      fun h => hne.2.2.1 (of_decide_eq_true h)
    rw [if_pos hname, List.map_singleton, field_text hname, List.intercalate_singleton]
    exact List.rdropWhile_eq_self_iff.mpr fun hne => hend _ (List.getLast_mem hne)
  · rename_i hname
    rw [if_neg fun h => hname (decide_eq_true ((name_prefix_text c).mpr h))]
    rfl

end Lines

/-! ### When it holds -/

section Order
variable {cookies : List Cookie}

/-- No cookie behind the first one is the session cookie, unless it is empty. -/
theorem extracted_cons (c : Cookie) (hnodup : ((c :: cookies).map Cookie.name).Nodup) :
    Extracted (c :: cookies) ↔ ∀ d ∈ cookies, d.name = cookieName → d.value = [] := by
  rw [List.map_cons, List.nodup_cons] at hnodup
  rw [Extracted, sessionFromCookie_header, sessionValue, List.find?_cons]
  by_cases hc : c.name = cookieName
  · rw [if_pos hc, decide_eq_true hc]
    refine iff_of_true rfl fun d hd hname => absurd ?_ hnodup.1
    rw [hc, ← hname]
    exact List.mem_map_of_mem hd
  · rw [if_neg hc, decide_eq_false hc]
    cases hfind : cookies.find? fun d => d.name = cookieName with
    | none =>
      refine iff_of_true rfl fun d hd hname => ?_
      exact absurd (decide_eq_true hname) (List.find?_eq_none.mp hfind d hd)
    | some d =>
      have hd := List.mem_of_find?_eq_some hfind
      have hname : d.name = cookieName := by simpa using List.find?_some hfind
      constructor
      · intro hempty e he hsame
        have heq : e = d := List.inj_on_of_nodup_map hnodup.2 he hd (hsame.trans hname.symm)
        rw [heq]
        exact hempty.symm
      · intro h
        exact (h d hd hname).symm

/-- Another cookie can be put in front of a session cookie. -/
theorem exists_order {d : Cookie} (hd : d ∈ cookies) (hlen : 1 < cookies.length) :
    ∃ e rest, (e :: d :: rest).Perm cookies := by
  have hperm := List.perm_cons_erase hd
  have herase := List.length_erase_of_mem hd
  cases hrest : cookies.erase d with
  | nil =>
    rw [hrest, List.length_nil] at herase
    omega
  | cons e rest =>
    rw [hrest] at hperm
    exact ⟨e, rest, (List.Perm.swap d e rest).trans hperm.symm⟩

end Order

/-- **The id is the value of the session cookie exactly when** that cookie is the first one, or has no value; and
it is so for all orders exactly when there is one cookie at most, or no session to be found. -/
theorem extracted_iff (cookies : List Cookie) (hnodup : (cookies.map Cookie.name).Nodup) :
    (Extracted cookies ↔ ∀ d ∈ cookies.tail, d.name = cookieName → d.value = []) ∧
      ((∀ order : List Cookie, order.Perm cookies → Extracted order) ↔
        cookies.length ≤ 1 ∨ ∀ d ∈ cookies, d.name = cookieName → d.value = []) := by
  have hone : ∀ order : List Cookie, order.Perm cookies →
      (Extracted order ↔ ∀ d ∈ order.tail, d.name = cookieName → d.value = []) := by
    intro order hperm
    have hsame : (order.map Cookie.name).Nodup := (hperm.map Cookie.name).nodup_iff.mpr hnodup
    cases order with
    | nil => exact iff_of_true (by decide) fun d hd => absurd hd List.not_mem_nil
    | cons c order => exact extracted_cons c hsame
  refine ⟨hone cookies (List.Perm.refl cookies), ?_⟩
  constructor
  · intro h
    refine (Nat.lt_or_ge 1 cookies.length).symm.imp id fun hlen d hd hname => ?_
    obtain ⟨e, rest, hperm⟩ := exists_order hd hlen
    exact (hone _ hperm).mp (h _ hperm) d List.mem_cons_self hname
  · intro h order hperm
    refine (hone order hperm).mpr fun d hd hname => ?_
    obtain hlen | hempty := h
    · have htail := List.length_pos_of_mem hd
      rw [List.length_tail, hperm.length_eq] at htail
      omega
    · exact hempty d (hperm.mem_iff.mp (List.mem_of_mem_tail hd)) hname

def sessionCookie : Cookie := ⟨cookieName, ascii "abababababababababababababababab", by decide, by decide⟩

def langCookie : Cookie := ⟨ascii "lang", ascii "en", by decide, by decide⟩

theorem extracted_session_first : Extracted [sessionCookie, langCookie] :=
  (extracted_iff [sessionCookie, langCookie] (by decide)).1.mpr (by decide)

/-- The same two cookies the other way around: nothing is printed. -/
theorem session_behind_lost :
    sessionFromCookie (header [langCookie, sessionCookie]) = [] ∧ ¬Extracted [langCookie, sessionCookie] := by
  decide +kernel

/-- A live session does not get in with another cookie in front of its own. -/
theorem not_requireAuth_behind {s : Store} {world : World} {stored : Option (List Byte)} {r : Request} {c : Cookie}
    {cookies : List Cookie} (htrusted : r.trusted = false) (hkey : r.providedKey = [])
    (hcookie : r.cookie = header (c :: cookies)) (hname : c.name ≠ cookieName) :
    requireAuth s world stored r = false := by
  refine Bool.eq_false_iff.mpr fun h => ?_
  have hid := ((requireAuth_of_cookie htrusted hkey).mp h).1
  rw [hcookie, sessionFromCookie_header, if_neg hname] at hid
  exact hid rfl

end Thingino.Web
