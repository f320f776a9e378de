import Thingino.Agent.Parsing

/-! The cuts of a stream that `parse_request` gets right.

The answer that does not depend on the cut is `expected`. A cut leads to it if the header
block comes whole in the first `recv` and the part of the body that comes along is harmless:
its last `Authorization` and `Content-Length` lines, if it has any, repeat what the header
block says, and in the part that counts as the body no line break follows a text. -/
namespace Thingino.Agent
open Lib

/-- The lines of the carried part do not change what the header block says. -/
def LeavesHeaders (block part : List Byte) : Prop :=
  (∀ value ∈ (tokens isCrLf part).reverse.findSome? authorizationOf, value = (headerRequest block).authorization) ∧
    ∀ n ∈ (tokens isCrLf part).reverse.findSome? contentLengthOf, n = (headerRequest block).contentLength

/-- Up to the first NUL, the line breaks among the first `n` bytes are at their start. -/
def Undamaged (n : Nat) (part : List Byte) : Prop :=
  (cstr (part.take n)).IsChain fun x y => isCrLf y → isCrLf x

/-- A cut that does not show in the answer. A block with a NUL or without a single word is
refused in any case, one with a single word when it has arrived. -/
def Harmless (memory : Bool) (block : List Byte) (c : List (List Byte)) : Prop :=
  0#8 ∈ block ∨ requestWords block = 0 ∨
    block.length ≤ (firstRecv c).length ∧
      (requestWords block = 1 ∨
        LeavesHeaders block (carried block c) ∧
          (memory = true → (headerRequest block).contentLength ≤ bodyLimit →
            Undamaged (headerRequest block).contentLength (carried block c)))

section Segments
variable {memory : Bool} {block rest : List Byte} {c : List (List Byte)}

theorem leavesHeaders_iff (part : List Byte) :
    LeavesHeaders block part ↔
      ((tokens isCrLf part).foldl readHeader (headerRequest block)).authorization = (headerRequest block).authorization ∧
        ((tokens isCrLf part).foldl readHeader (headerRequest block)).contentLength =
          (headerRequest block).contentLength := by
  rw [foldl_readHeader]
  unfold LeavesHeaders
  cases (tokens isCrLf part).reverse.findSome? authorizationOf <;>
    cases (tokens isCrLf part).reverse.findSome? contentLengthOf <;> simp

theorem LeavesHeaders.foldl_eq {part : List Byte} (h : LeavesHeaders block part) :
    (tokens isCrLf part).foldl readHeader (headerRequest block) = headerRequest block := by
  obtain ⟨hauth, hlength⟩ := (leavesHeaders_iff part).mp h
  rw [foldl_readHeader] at hauth hlength ⊢
  dsimp only at hauth hlength
  rw [hauth, hlength]

/-- The walk leaves the body alone just if the carried part is undamaged. -/
theorem take_smash_iff (n : Nat) (part late : List Byte) :
    (smash isCrLf part ++ late).take n = (part ++ late).take n ↔ Undamaged n part := by
  have hlen : ((smash isCrLf part).take n).length = (part.take n).length := by
    rw [List.length_take, List.length_take, smash, length_smashFrom]
  have hlate : n - (smash isCrLf part).length = n - part.length := by rw [smash, length_smashFrom]
  rw [Undamaged, ← smash_eq_self_iff, List.take_append, List.take_append, hlate,
    List.append_left_inj, smash, take_smashFrom]
  rfl

/-- Enough of the body has arrived. -/
theorem readBody_of_length {r : HttpRequest} {inBuffer : List Byte} (h : r.contentLength ≤ inBuffer.length) :
    readBody memory r inBuffer [] =
      if bodyLimit < r.contentLength then (-2, r)
      else if r.contentLength = 0 then (0, r)
      else if ¬memory then (-1, r)
      else (0, { r with body := some (inBuffer.take r.contentLength) }) := by
  unfold readBody
  rw [Nat.sub_eq_zero_of_le h]
  simp only [recvBody, List.append_nil]

/-- Two bodies for one request give the same answer if they agree as far as they are read. -/
theorem readBody_eq_iff {r : HttpRequest} {a b : List Byte} (ha : r.contentLength ≤ a.length)
    (hb : r.contentLength ≤ b.length) :
    readBody memory r a [] = readBody memory r b [] ↔
      (memory = true → r.contentLength ≤ bodyLimit → a.take r.contentLength = b.take r.contentLength) := by
  rw [readBody_of_length ha, readBody_of_length hb]
  by_cases hlimit : bodyLimit < r.contentLength
  · simp [hlimit, Nat.not_le.mpr hlimit]
  · by_cases hzero : r.contentLength = 0
    · simp [hzero]
    · cases memory with
      | false => simp
      | true => simp [hlimit, hzero, Nat.not_lt.mp hlimit]

/-- The header block is whole and has both words. -/
theorem readBody_carried_iff (memory : Bool) {part late : List Byte} (hrest : (headerRequest block).contentLength ≤ rest.length)
    (hsplit : rest = part ++ late) :
    readBody memory ((tokens isCrLf part).foldl readHeader (headerRequest block)) (smash isCrLf part ++ late) [] =
        readBody memory (headerRequest block) rest [] ↔
      LeavesHeaders block part ∧
        (memory = true → (headerRequest block).contentLength ≤ bodyLimit →
          Undamaged (headerRequest block).contentLength part) := by
  have hlength : (headerRequest block).contentLength ≤ (smash isCrLf part ++ late).length := by
    rwa [List.length_append, smash, length_smashFrom, ← List.length_append, ← hsplit]
  constructor
  · intro heq
    have hleaves : LeavesHeaders block part := by
      obtain ⟨body, hbody⟩ := readBody_fields memory
        ((tokens isCrLf part).foldl readHeader (headerRequest block)) (smash isCrLf part ++ late) []
      obtain ⟨body', hbody'⟩ := readBody_fields memory (headerRequest block) rest []
      rw [← heq, hbody] at hbody'
      obtain ⟨-, -, -, hauth, -, -, hlen⟩ := HttpRequest.mk.inj hbody'
      exact (leavesHeaders_iff part).mpr ⟨hauth, hlen⟩
    rw [hleaves.foldl_eq, readBody_eq_iff hlength hrest] at heq
    refine ⟨hleaves, fun hmemory hlimit => ?_⟩
    rw [← take_smash_iff _ part late, ← hsplit]
    exact heq hmemory hlimit
  · rintro ⟨hleaves, hundamaged⟩
    rw [hleaves.foldl_eq, readBody_eq_iff hlength hrest]
    intro hmemory hlimit
    rw [hsplit, take_smash_iff]
    exact hundamaged hmemory hlimit

theorem tokens_block (hblock : IsHeaderBlock block) (hnul : 0#8 ∉ block) :
    ∃ line lines, tokens isCrLf block = line :: lines ∧ requestWords block = (readRequestLine line).1 ∧
      headerRequest block = lines.foldl readHeader (splitQuery (readRequestLine line).2) := by
  have hne := hblock.tokens_ne hnul
  unfold requestWords headerRequest
  cases htokens : tokens isCrLf block with
  | nil => exact absurd htokens hne
  | cons line lines => exact ⟨line, lines, rfl, rfl, rfl⟩

/-- The method is what the first line says, whatever comes of the rest. -/
theorem parseLines_method {line : List Byte} {lines : List (List Byte)} {inBuffer : List Byte} :
    (parseLines memory (line :: lines) inBuffer []).2.method = (readRequestLine line).2.method := by
  rw [parseLines]
  split
  · rfl
  · obtain ⟨body, hbody⟩ := readBody_fields memory
      (lines.foldl readHeader (splitQuery (readRequestLine line).2)) inBuffer []
    rw [hbody, foldl_readHeader]
    exact splitQuery_method _

/-- **Segmentation.** A complete request gets the answer that its bytes call for just if the
cut is harmless. -/
theorem parse_eq_expected_iff (hblock : IsHeaderBlock block) (hrest : (headerRequest block).contentLength ≤ rest.length)
    (hcut : IsCut c (block ++ rest)) :
    parseRequest memory c = expected memory block rest ↔ Harmless memory block c := by
  unfold Harmless expected
  by_cases hnul : 0#8 ∈ block
  · simp only [hcut.parse_nul hblock hnul, hnul, if_true, true_or]
  · obtain ⟨line, lines, htokens, hwords, hheader⟩ := tokens_block hblock hnul
    have hle := readRequestLine_le line
    rw [if_neg hnul, hwords, htokens]
    by_cases hwhole : block.length ≤ (firstRecv c).length
    · obtain ⟨late, hsplit, hparse⟩ := hcut.parse_whole memory hblock hnul hwhole
      rw [hparse, htokens, List.cons_append, parseLines, parseLines]
      by_cases htwo : (readRequestLine line).1 = 2
      · rw [if_neg (not_not.mpr htwo), if_neg (not_not.mpr htwo), List.foldl_append, ← hheader]
        have hcond := readBody_carried_iff memory hrest hsplit
        simp only [hcond, htwo, hnul, hwhole, false_or, true_and, show ¬(2 = 0) by decide, show ¬(2 = 1) by decide]
      · rw [if_pos htwo, if_pos htwo]
        have hfew : (readRequestLine line).1 = 0 ∨ (readRequestLine line).1 = 1 := by omega
        exact iff_of_true rfl (.inr (hfew.imp id fun hone => ⟨hwhole, .inl hone⟩))
    · have hshort := Nat.lt_of_le_of_lt (cstr_isPrefix (firstRecv c)).length_le (Nat.not_le.mp hwhole)
      rw [hcut.parse_short hblock hshort]
      by_cases hzero : (readRequestLine line).1 = 0
      · rw [parseLines, if_pos (by omega), readRequestLine_blank hzero]
        exact iff_of_true rfl (.inr (.inl hzero))
      · refine iff_of_false (fun heq => ?_) ?_
        · have hmethod := congrArg (·.2.method) heq
          rw [parseLines_method] at hmethod
          exact readRequestLine_method hzero hmethod.symm
        · simp only [hnul, hzero, hwhole, false_or, false_and, not_false_eq_true]

/-- The cut behind the header block is harmless. -/
theorem harmless_headerFirst (memory : Bool) (hblock : IsHeaderBlock block) (pieces : List (List Byte)) :
    Harmless memory block (block :: pieces) := by
  have hfirst : firstRecv (block :: pieces) = block := List.take_of_length_le hblock.fits
  have hcarried : carried block (block :: pieces) = [] := by rw [carried, hfirst, List.drop_length]
  refine .inr (.inr ⟨hfirst.symm ▸ Nat.le_refl _, .inr ?_⟩)
  rw [hcarried]
  refine ⟨(leavesHeaders_iff []).mpr ⟨rfl, rfl⟩, fun _ _ => ?_⟩
  rw [Undamaged, List.take_nil]
  exact .nil

theorem exists_headerFirst (hblock : IsHeaderBlock block) : ∃ pieces, IsCut (block :: pieces) (block ++ rest) := by
  have hne : [] ≠ block := fun hnil => by
    have := hblock.length
    rw [← hnil] at this
    exact absurd this (by decide)
  by_cases hrest : rest = []
  · exact ⟨[], by rw [hrest]; rfl, List.mem_singleton.not.mpr hne⟩
  · refine ⟨[rest], by simp, ?_⟩
    simp only [List.mem_cons, List.not_mem_nil, or_false, not_or]
    exact ⟨hne, Ne.symm hrest⟩

/-- **Segmentation.** For a complete request, a cut of the stream gets the answer that the
bytes call for just if it is harmless; all cuts agree just if all are. -/
theorem parse_segments_iff (hblock : IsHeaderBlock block)
    (hrest : (headerRequest block).contentLength ≤ rest.length) :
    (∀ c, IsCut c (block ++ rest) →
        (parseRequest memory c = expected memory block rest ↔ Harmless memory block c)) ∧
      ((∀ c c', IsCut c (block ++ rest) → IsCut c' (block ++ rest) → parseRequest memory c = parseRequest memory c') ↔
        ∀ c, IsCut c (block ++ rest) → Harmless memory block c) := by
  refine ⟨fun c hcut => parse_eq_expected_iff hblock hrest hcut, fun hsame c hcut => ?_, fun hall c c' hcut hcut' => ?_⟩
  · obtain ⟨pieces, hfirst⟩ := exists_headerFirst hblock
    rw [← parse_eq_expected_iff hblock hrest hcut, hsame c _ hcut hfirst]
    exact (parse_eq_expected_iff hblock hrest hfirst).mpr (harmless_headerFirst memory hblock pieces)
  · rw [(parse_eq_expected_iff hblock hrest hcut).mpr (hall c hcut),
      (parse_eq_expected_iff hblock hrest hcut').mpr (hall c' hcut')]

/-- A request with a body of two lines. -/
def patchBlock : List Byte := ascii "PATCH /api/v1/config HTTP/1.1\r\nContent-Length: 6\r\n\r\n"

def patchBody : List Byte := ascii "ab\r\ncd"

theorem isHeaderBlock_patch : IsHeaderBlock patchBlock := ⟨by decide, by decide, by decide⟩

/-- The body in a piece of its own. -/
theorem parse_segments_patch :
    IsHeaderBlock patchBlock ∧ (headerRequest patchBlock).contentLength ≤ patchBody.length ∧
      (parseRequest true [patchBlock, patchBody] = expected true patchBlock patchBody ↔
        Harmless true patchBlock [patchBlock, patchBody]) :=
  ⟨isHeaderBlock_patch, by decide, (parse_segments_iff isHeaderBlock_patch (by decide)).1 _ ⟨by decide, by decide⟩⟩

/-- The same request, cut behind the request line and cut behind the header block. -/
theorem parse_segments_differ :
    IsHeaderBlock patchBlock ∧ (headerRequest patchBlock).contentLength ≤ patchBody.length ∧
      IsCut [patchBlock.take 31, patchBlock.drop 31 ++ patchBody] (patchBlock ++ patchBody) ∧
      IsCut [patchBlock, patchBody] (patchBlock ++ patchBody) ∧
      parseRequest true [patchBlock.take 31, patchBlock.drop 31 ++ patchBody] = (-1, .blank) ∧
      (parseRequest true [patchBlock, patchBody]).1 = 0 :=
  ⟨isHeaderBlock_patch, by decide, ⟨by decide, by decide⟩, ⟨by decide, by decide⟩, by decide, by decide⟩

/-! ### The body -/

/-- What has happened when `parse_request` returns 0. -/
theorem parse_ok {r : HttpRequest} (hblock : IsHeaderBlock block) (hcut : IsCut c (block ++ rest))
    (hok : parseRequest memory c = (0, r)) :
    0#8 ∉ block ∧ block.length ≤ (firstRecv c).length ∧ requestWords block = 2 ∧
      ∃ late, rest = carried block c ++ late ∧
        readBody memory ((tokens isCrLf (carried block c)).foldl readHeader (headerRequest block))
          (smash isCrLf (carried block c) ++ late) [] = (0, r) := by
  have hnul : 0#8 ∉ block := fun hnul => by
    rw [hcut.parse_nul hblock hnul] at hok
    exact absurd (congrArg Prod.fst hok) (show ¬(-1 : Int) = 0 by decide)
  have hwhole : block.length ≤ (firstRecv c).length := by
    by_contra hlong
    have hshort := Nat.lt_of_le_of_lt (cstr_isPrefix (firstRecv c)).length_le (Nat.not_le.mp hlong)
    rw [hcut.parse_short hblock hshort] at hok
    exact absurd (congrArg Prod.fst hok) (show ¬(-1 : Int) = 0 by decide)
  obtain ⟨line, lines, htokens, hwords, hheader⟩ := tokens_block hblock hnul
  obtain ⟨late, hsplit, hparse⟩ := hcut.parse_whole memory hblock hnul hwhole
  rw [hparse, htokens, List.cons_append, parseLines] at hok
  split at hok
  · exact absurd (congrArg Prod.fst hok) (show ¬(-1 : Int) = 0 by decide)
  · rename_i htwo
    rw [List.foldl_append, ← hheader] at hok
    exact ⟨hnul, hwhole, hwords.trans (not_not.mp htwo), late, hsplit, hok⟩

theorem readBody_ok {r₀ r : HttpRequest} {inBuffer : List Byte} (h : readBody memory r₀ inBuffer [] = (0, r)) :
    r.contentLength = r₀.contentLength ∧
      (r₀.contentLength = 0 ∧ r = r₀ ∨
        0 < r₀.contentLength ∧ r₀.contentLength ≤ inBuffer.length ∧
          r.body = some (inBuffer.take r₀.contentLength)) := by
  unfold readBody at h
  split at h
  · exact absurd (congrArg Prod.fst h) (show ¬(-2 : Int) = 0 by decide)
  · split at h
    · rename_i hzero
      cases h
      exact ⟨rfl, .inl ⟨hzero, rfl⟩⟩
    · rename_i hpos
      split at h
      · exact absurd (congrArg Prod.fst h) (show ¬(-1 : Int) = 0 by decide)
      · dsimp only at h
        rw [recvBody_eq (Nat.le_refl _) List.not_mem_nil] at h
        by_cases henough : r₀.contentLength - inBuffer.length ≤ ([] : List (List Byte)).flatten.length
        · rw [if_pos henough] at h
          cases h
          refine ⟨rfl, .inr ⟨Nat.pos_of_ne_zero hpos, ?_, by simp⟩⟩
          simpa [Nat.sub_eq_zero_iff_le] using henough
        · rw [if_neg henough] at h
          exact absurd (congrArg Prod.fst h) (show ¬(-1 : Int) = 0 by decide)

theorem headerRequest_body (block : List Byte) : (headerRequest block).body = none := by
  have hline (line : List Byte) : (readRequestLine line).2.body = none := by
    unfold readRequestLine
    split
    · rfl
    · split <;> rfl
  have hsplit (r : HttpRequest) : (splitQuery r).body = r.body := by
    unfold splitQuery
    dsimp only
    split <;> rfl
  rw [headerRequest, foldl_readHeader]
  exact (hsplit _).trans (hline _)

/-- **Body integrity.** With no second `Content-Length` line in the carried part, an accepted
request has the body that was sent just if the carried part of it is undamaged; the file for
`agentctl` then holds it too. -/
theorem body_intact_iff {r : HttpRequest} (hblock : IsHeaderBlock block) (hcut : IsCut c (block ++ rest))
    (hlines : ∀ line ∈ tokens isCrLf (carried block c), contentLengthOf line = none)
    (hok : parseRequest memory c = (0, r)) :
    (r.body.getD [] = rest.take (headerRequest block).contentLength ∧
        writeRequestBodyFile r = rest.take (headerRequest block).contentLength) ↔
      Undamaged (headerRequest block).contentLength (carried block c) := by
  obtain ⟨-, -, -, late, hsplit, hread⟩ := parse_ok hblock hcut hok
  have hlast : (tokens isCrLf (carried block c)).reverse.findSome? contentLengthOf = none :=
    List.findSome?_eq_none_iff.mpr fun line hline => hlines line (List.mem_reverse.mp hline)
  rw [foldl_readHeader, hlast] at hread
  obtain ⟨hlength, hbody⟩ := readBody_ok hread
  rw [Option.getD_none] at hlength
  dsimp only [Option.getD_none] at hbody
  have hfile : r.body.getD [] = rest.take (headerRequest block).contentLength →
      writeRequestBodyFile r = rest.take (headerRequest block).contentLength := by
    intro h
    rw [writeRequestBodyFile, hlength, h, List.take_take, Nat.min_self]
    split
    · rfl
    · rename_i hzero
      rw [Nat.eq_zero_of_not_pos hzero, List.take_zero]
  rw [and_iff_left_of_imp hfile]
  obtain ⟨hzero, rfl⟩ | ⟨-, -, hbody⟩ := hbody
  · refine iff_of_true ?_ ?_
    · rw [hzero, List.take_zero]
      exact headerRequest_body block ▸ rfl
    · rw [hzero, Undamaged, List.take_zero]
      exact .nil
  · rw [hbody, Option.getD_some, hsplit, take_smash_iff]

/-- The body in a piece of its own arrives as it was sent. -/
theorem body_intact_patch :
    Undamaged 6 (carried patchBlock [patchBlock, patchBody]) ∧
      (((parseRequest true [patchBlock, patchBody]).2.body.getD [] = patchBody.take 6 ∧
          writeRequestBodyFile (parseRequest true [patchBlock, patchBody]).2 = patchBody.take 6) ↔
        Undamaged 6 (carried patchBlock [patchBlock, patchBody])) := by
  refine ⟨?_, ?_⟩
  · rw [show carried patchBlock [patchBlock, patchBody] = [] by decide]
    exact .nil
  · have hok : parseRequest true [patchBlock, patchBody] = (0, (parseRequest true [patchBlock, patchBody]).2) := by
      decide
    exact body_intact_iff isHeaderBlock_patch ⟨by decide, by decide⟩ (by decide) hok

/-- The same body in one piece with its header block loses a line break. -/
theorem body_damaged :
    (∀ line ∈ tokens isCrLf (carried patchBlock [patchBlock ++ patchBody]), contentLengthOf line = none) ∧
      (headerRequest patchBlock).contentLength = 6 ∧
      (parseRequest true [patchBlock ++ patchBody]).1 = 0 ∧
      (parseRequest true [patchBlock ++ patchBody]).2.body = some (ascii "ab" ++ 0#8 :: ascii "\ncd") ∧
      (parseRequest true [patchBlock ++ patchBody]).2.body ≠ some patchBody := by
  decide

end Segments

end Thingino.Agent
