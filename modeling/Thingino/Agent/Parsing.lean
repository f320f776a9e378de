import Thingino.Agent.Request

/-! What `parse_request` makes of a stream.

A request is a header block and what follows it. If the first `recv` does not bring the
whole block, parsing fails. If it brings a part of the body too, the lines of that part are
read as headers, and `strtok` writes into it. `expected` is the answer that depends on the
request alone, and `Harmless` says when a way of cutting the stream leads to it. -/
namespace Thingino.Agent
open Lib

/-! ### Receiving -/

theorem recvBody_eq {calls missing : Nat} {pieces : List (List Byte)} (hcalls : missing ≤ calls) (hne : [] ∉ pieces) :
    recvBody calls missing pieces =
      if missing ≤ pieces.flatten.length then some (pieces.flatten.take missing) else none := by
  induction calls generalizing missing pieces with
  | zero =>
    rw [Nat.le_zero.mp hcalls]
    rfl
  | succ calls ih =>
    cases missing with
    | zero => rfl
    | succ missing =>
      cases pieces with
      | nil => rfl
      | cons piece pieces =>
        obtain ⟨hpiece, hpieces⟩ := not_or.mp (List.mem_cons.not.mp hne)
        have hpos := List.length_pos_iff.mpr (Ne.symm hpiece)
        rw [recvBody, recv, if_neg (Ne.symm hpiece)]
        by_cases hfits : piece.length ≤ missing + 1
        · simp only [if_pos hfits, List.take_of_length_le hfits, List.flatten_cons, List.length_append,
            List.take_append]
          rw [ih (by omega) hpieces]
          by_cases henough : missing + 1 - piece.length ≤ pieces.flatten.length
          · rw [if_pos henough, if_pos (by omega), Option.map_some]
          · rw [if_neg henough, if_neg (by omega), Option.map_none]
        · have hfull : (piece.take (missing + 1)).length = missing + 1 :=
            List.length_take_of_le (by omega)
          simp only [if_neg hfits, hfull, Nat.sub_self, List.flatten_cons]
          rw [if_pos (by rw [List.length_append]; omega), List.take_append_of_le_length (by omega)]
          cases calls <;> simp [recvBody]

/-- It does not matter in which pieces the rest of the body comes. -/
theorem readBody_flatten (memory : Bool) (r : HttpRequest) (inBuffer : List Byte) {pieces : List (List Byte)}
    (hne : [] ∉ pieces) : readBody memory r inBuffer pieces = readBody memory r (inBuffer ++ pieces.flatten) [] := by
  unfold readBody
  split
  · rfl
  · split
    · rfl
    · split
      · rfl
      · simp only [recvBody_eq (Nat.le_refl _) hne, recvBody_eq (Nat.le_refl _) (List.not_mem_nil),
          List.length_append, List.flatten_nil, List.length_nil, List.take_nil, List.take_append]
        by_cases henough : r.contentLength - inBuffer.length ≤ pieces.flatten.length
        · simp only [if_pos henough, if_pos (show r.contentLength - (inBuffer.length + pieces.flatten.length) ≤ 0 by omega),
            List.append_nil]
        · rw [if_neg henough, if_neg (by omega)]

/-! ### The walk over the lines -/

theorem isCrLf_zero : isCrLf 0#8 = false := rfl

theorem readHeaders_eq {calls : Nat} {t : Tokenizer} (h : t.rest.length ≤ calls) (r : HttpRequest) :
    (readHeaders calls t r).1 = (tokens isCrLf t.rest).foldl readHeader r ∧
      (readHeaders calls t r).2.buffer = t.done ++ smash isCrLf t.rest := by
  induction calls generalizing t r with
  | zero =>
    have hnil : t.rest = [] := List.length_eq_zero_iff.mp (Nat.le_zero.mp h)
    rw [readHeaders, Tokenizer.buffer, hnil]
    exact ⟨rfl, rfl⟩
  | succ calls ih =>
    rw [readHeaders]
    cases hcall : strtok isCrLf t with
    | none =>
      obtain ⟨htokens, hsmash⟩ := strtok_none isCrLf_zero hcall
      exact ⟨by rw [htokens]; rfl, by rw [hsmash]; rfl⟩
    | some found =>
      obtain ⟨line, t'⟩ := found
      obtain ⟨htokens, hsmash, hlt⟩ := strtok_some isCrLf_zero hcall
      rw [htokens, hsmash]
      exact ih (by omega) _

/-- `parse_request` behind the search for the end of the header block: the lines of the
buffer and its part behind the block, as the walk leaves it. -/
def parseLines (memory : Bool) (lines : List (List Byte)) (inBuffer : List Byte) (pieces : List (List Byte)) :
    Int × HttpRequest :=
  match lines with
  | [] => (-1, .blank)
  | line :: lines =>
    if (readRequestLine line).1 ≠ 2 then (-1, (readRequestLine line).2)
    else readBody memory (lines.foldl readHeader (splitQuery (readRequestLine line).2)) inBuffer pieces

theorem parseLines_flatten (memory : Bool) (lines : List (List Byte)) (inBuffer : List Byte)
    {pieces : List (List Byte)} (hne : [] ∉ pieces) :
    parseLines memory lines inBuffer pieces = parseLines memory lines (inBuffer ++ pieces.flatten) [] := by
  unfold parseLines
  split
  · rfl
  · rw [readBody_flatten _ _ _ hne]

theorem parseRequest_eq {memory : Bool} {c pieces : List (List Byte)} {buffer : List Byte}
    (hrecv : recv requestBufferSize c = some (buffer, pieces)) :
    parseRequest memory c =
      match strstr (ascii "\r\n\r\n") (cstr buffer) with
      | none => (-1, .blank)
      | some headerEnd =>
        parseLines memory (tokens isCrLf buffer) ((smash isCrLf buffer).drop (headerEnd + 4)) pieces := by
  rw [parseRequest, hrecv]
  dsimp only
  cases strstr (ascii "\r\n\r\n") (cstr buffer) with
  | none => rfl
  | some headerEnd =>
    dsimp only
    cases hcall : strtok isCrLf ⟨[], buffer⟩ with
    | none => rw [(strtok_none isCrLf_zero hcall).1]; rfl
    | some found =>
      obtain ⟨line, t⟩ := found
      obtain ⟨htokens, hsmash, -⟩ := strtok_some isCrLf_zero hcall
      obtain ⟨hloop, hbuffer⟩ := readHeaders_eq (Nat.le_refl _) (splitQuery (readRequestLine line).2)
      rw [htokens, parseLines, ← hloop, show smash isCrLf buffer = _ from hsmash, ← hbuffer]

/-! ### What the lines do to the fields -/

theorem contentLengthOf_eq_none {line value : List Byte} (h : authorizationOf line = some value) :
    contentLengthOf line = none := by
  obtain ⟨hauth, -⟩ := Option.ite_none_right_eq_some.mp h
  refine if_neg fun hlength => ?_
  cases line with
  | nil => exact absurd hauth (by decide)
  | cons b line =>
    have ha : some (toLower b) = some 97#8 := congrArg List.head? (of_decide_eq_true hauth)
    have hc : some (toLower b) = some 99#8 := congrArg List.head? (of_decide_eq_true hlength)
    exact absurd (ha.symm.trans hc) (by decide)

theorem readHeader_eq (r : HttpRequest) (line : List Byte) :
    readHeader r line =
      { r with
        authorization := (authorizationOf line).getD r.authorization
        contentLength := (contentLengthOf line).getD r.contentLength } := by
  unfold readHeader
  cases hauth : authorizationOf line with
  | some value => rw [contentLengthOf_eq_none hauth]; rfl
  | none => cases contentLengthOf line <;> rfl

/-- The last line of a kind counts. -/
theorem foldl_readHeader (r : HttpRequest) (lines : List (List Byte)) :
    lines.foldl readHeader r =
      { r with
        authorization := (lines.reverse.findSome? authorizationOf).getD r.authorization
        contentLength := (lines.reverse.findSome? contentLengthOf).getD r.contentLength } := by
  induction lines using List.reverseRecOn with
  | nil => rfl
  | append_singleton lines line ih =>
    rw [List.foldl_append, ih, List.foldl_cons, List.foldl_nil, readHeader_eq, List.reverse_append]
    simp only [List.reverse_singleton, List.singleton_append, List.findSome?_cons]
    congr 1
    · cases authorizationOf line <;> rfl
    · cases contentLengthOf line <;> rfl

theorem readRequestLine_method {line : List Byte} (h : (readRequestLine line).1 ≠ 0) :
    (readRequestLine line).2.method ≠ [] := by
  unfold readRequestLine at h ⊢
  cases hword : scanWord 15 line with
  | none => rw [hword] at h; exact absurd rfl h
  | some found =>
    obtain ⟨method, rest⟩ := found
    have hne : method ≠ [] := by
      unfold scanWord at hword
      dsimp only at hword
      split at hword
      · cases hword
      · rename_i hne
        cases hword
        exact hne
    dsimp only
    split
    · exact hne
    · exact hne

theorem readRequestLine_blank {line : List Byte} (h : (readRequestLine line).1 = 0) :
    (readRequestLine line).2 = .blank := by
  unfold readRequestLine at h ⊢
  cases hword : scanWord 15 line with
  | none => rfl
  | some found =>
    obtain ⟨method, rest⟩ := found
    rw [hword] at h
    dsimp only at h
    split at h <;> cases h

theorem readRequestLine_le (line : List Byte) : (readRequestLine line).1 ≤ 2 := by
  unfold readRequestLine
  split
  · exact Nat.zero_le 2
  · split
    · exact Nat.le_succ 1
    · exact Nat.le_refl 2

@[simp] theorem splitQuery_method (r : HttpRequest) : (splitQuery r).method = r.method := by
  unfold splitQuery
  dsimp only
  split <;> rfl

/-- Reading the body leaves the other fields alone. -/
theorem readBody_fields (memory : Bool) (r : HttpRequest) (inBuffer : List Byte) (pieces : List (List Byte)) :
    ∃ body, (readBody memory r inBuffer pieces).2 = { r with body := body } := by
  unfold readBody
  split
  · exact ⟨_, rfl⟩
  · split
    · exact ⟨_, rfl⟩
    · split
      · exact ⟨_, rfl⟩
      · dsimp only
        split <;> exact ⟨_, rfl⟩

/-! ### A request and its answer -/

/-- A header block: it has a request line, fits the buffer and ends with its first empty line. -/
structure IsHeaderBlock (block : List Byte) : Prop where
  fits : block.length ≤ requestBufferSize
  line : ∃ b ∈ block, isCrLf b = false
  ends : strstr (ascii "\r\n\r\n") block = some (block.length - 4)

/-- The stream is cut into pieces that are not empty. -/
structure IsCut (c : List (List Byte)) (stream : List Byte) : Prop where
  joined : c.flatten = stream
  nonempty : [] ∉ c

/-- The words that `sscanf` finds in the request line. -/
def requestWords (block : List Byte) : Nat := (readRequestLine ((tokens isCrLf block).headD [])).1

/-- The request as the lines of the header block give it. -/
def headerRequest (block : List Byte) : HttpRequest :=
  (tokens isCrLf block).tail.foldl readHeader (splitQuery (readRequestLine ((tokens isCrLf block).headD [])).2)

/-- The request as far as the header block determines it. -/
def blockRequest (block : List Byte) : HttpRequest :=
  if 0#8 ∈ block then .blank
  else if requestWords block ≠ 2 then (readRequestLine ((tokens isCrLf block).headD [])).2
  else headerRequest block

/-- The answer for a header block and the bytes behind it, however they arrive. -/
def expected (memory : Bool) (block rest : List Byte) : Int × HttpRequest :=
  if 0#8 ∈ block then (-1, .blank) else parseLines memory (tokens isCrLf block) rest []

/-- What the first `recv` returns. -/
def firstRecv (c : List (List Byte)) : List Byte := (c.headD []).take requestBufferSize

/-- The part of the body that comes with the header block. -/
def carried (block : List Byte) (c : List (List Byte)) : List Byte := (firstRecv c).drop block.length

section Cut
variable {block rest : List Byte} {c : List (List Byte)}

theorem IsHeaderBlock.length (h : IsHeaderBlock block) : 4 ≤ block.length := by
  have := strstr_length h.ends
  have hfour : (ascii "\r\n\r\n").length = 4 := by decide
  omega

/-- A header block ends with a line feed. -/
theorem IsHeaderBlock.split (h : IsHeaderBlock block) : ∃ front, block = front ++ [10#8] := by
  have hpre := strstr_isPrefix h.ends
  have hlen := h.length
  have hfour : (ascii "\r\n\r\n").length = 4 := by decide
  have htail : ascii "\r\n\r\n" = block.drop (block.length - 4) :=
    hpre.eq_of_length (by rw [List.length_drop]; omega)
  refine ⟨block.take (block.length - 4) ++ [13#8, 10#8, 13#8], ?_⟩
  calc block
      = block.take (block.length - 4) ++ ascii "\r\n\r\n" := by rw [htail, List.take_append_drop]
    _ = _ := by rw [List.append_assoc]; rfl

theorem IsCut.recv (h : IsCut c (block ++ rest)) (hblock : IsHeaderBlock block) :
    ∃ pieces, recv requestBufferSize c = some (firstRecv c, pieces) ∧ [] ∉ pieces ∧
      firstRecv c ++ pieces.flatten = block ++ rest := by
  obtain ⟨hjoined, hnonempty⟩ := h
  have hlen := hblock.length
  cases c with
  | nil =>
    have := congrArg List.length hjoined
    simp only [List.flatten_nil, List.length_nil, List.length_append] at this
    omega
  | cons piece pieces =>
    obtain ⟨hpiece, hpieces⟩ := not_or.mp (List.mem_cons.not.mp hnonempty)
    rw [Agent.recv, if_neg (Ne.symm hpiece)]
    refine ⟨_, rfl, ?_, ?_⟩
    · split
      · exact hpieces
      · rename_i hlong
        refine not_or.mpr ⟨fun hnil => ?_, hpieces⟩ ∘ List.mem_cons.mp
        have := congrArg List.length hnil
        rw [List.length_nil, List.length_drop] at this
        omega
    · rw [← hjoined, firstRecv, List.headD_cons, List.flatten_cons]
      split
      · rename_i hfits
        rw [List.take_of_length_le hfits]
      · rw [List.flatten_cons, ← List.append_assoc, List.take_append_drop]

theorem IsHeaderBlock.tokens_ne (h : IsHeaderBlock block) (hnul : 0#8 ∉ block) : tokens isCrLf block ≠ [] := by
  obtain ⟨b, hb, htext⟩ := h.line
  exact tokensFrom_ne_nil hnul (.inr ⟨b, hb, htext⟩)

theorem IsHeaderBlock.tokens_append (h : IsHeaderBlock block) (hnul : 0#8 ∉ block) (body : List Byte) :
    tokens isCrLf (block ++ body) = tokens isCrLf block ++ tokens isCrLf body := by
  obtain ⟨front, rfl⟩ := h.split
  rw [List.append_assoc]
  exact tokensFrom_append isCrLf_zero (fun hmem => hnul (List.mem_append_left _ hmem)) rfl [] body

theorem IsHeaderBlock.drop_smash (h : IsHeaderBlock block) (hnul : 0#8 ∉ block) (body : List Byte) :
    (smash isCrLf (block ++ body)).drop block.length = smash isCrLf body := by
  obtain ⟨front, rfl⟩ := h.split
  have happend := smashFrom_append isCrLf_zero (fun hmem => hnul (List.mem_append_left [10#8] hmem))
    (show isCrLf 10#8 = true from rfl) false body
  rw [List.append_assoc, List.singleton_append, smash, happend]
  exact List.drop_left' (length_smashFrom _ _)

/-- Without the whole header block in the string that was read, parsing fails. -/
theorem IsCut.parse_short {memory : Bool} (h : IsCut c (block ++ rest)) (hblock : IsHeaderBlock block)
    (hshort : (cstr (firstRecv c)).length < block.length) : parseRequest memory c = (-1, .blank) := by
  obtain ⟨pieces, hrecv, -, hjoined⟩ := h.recv hblock
  have hpre : cstr (firstRecv c) <+: block ++ rest :=
    (cstr_isPrefix _).trans (hjoined ▸ List.prefix_append _ _)
  have hfour : (ascii "\r\n\r\n").length = 4 := by decide
  have hfour' := hblock.length
  rw [parseRequest_eq hrecv, strstr_eq_none hblock.ends (by omega) ?_ hshort]
  exact List.prefix_of_prefix_length_le hpre (List.prefix_append _ _) hshort.le

/-- A NUL in the header block hides its end. -/
theorem IsCut.parse_nul {memory : Bool} (h : IsCut c (block ++ rest)) (hblock : IsHeaderBlock block)
    (hnul : 0#8 ∈ block) : parseRequest memory c = (-1, .blank) := by
  refine h.parse_short hblock (Nat.lt_of_not_le fun hlong => ?_)
  obtain ⟨pieces, -, -, hjoined⟩ := h.recv hblock
  have hpre : cstr (firstRecv c) <+: block ++ rest :=
    (cstr_isPrefix _).trans (hjoined ▸ List.prefix_append _ _)
  have hinside := List.prefix_of_prefix_length_le (List.prefix_append block rest) hpre hlong
  exact zero_notMem_cstr _ (hinside.subset hnul)

/-- The header block comes whole: the lines of the carried part count as its lines, and the
walk goes over the carried part. -/
theorem IsCut.parse_whole (memory : Bool) (h : IsCut c (block ++ rest)) (hblock : IsHeaderBlock block)
    (hnul : 0#8 ∉ block) (hwhole : block.length ≤ (firstRecv c).length) :
    ∃ late, rest = carried block c ++ late ∧
      parseRequest memory c =
        parseLines memory (tokens isCrLf block ++ tokens isCrLf (carried block c))
          (smash isCrLf (carried block c) ++ late) [] := by
  obtain ⟨pieces, hrecv, hpieces, hjoined⟩ := h.recv hblock
  have hpre : block <+: firstRecv c :=
    List.prefix_of_prefix_length_le (List.prefix_append block rest) (hjoined ▸ List.prefix_append _ _) hwhole
  have hfirst : firstRecv c = block ++ carried block c := (List.prefix_iff_eq_append.mp hpre).symm
  refine ⟨pieces.flatten, ?_, ?_⟩
  · rw [hfirst, List.append_assoc] at hjoined
    exact (List.append_cancel_left hjoined).symm
  · have hlen := hblock.length
    have hfound : strstr (ascii "\r\n\r\n") (cstr (firstRecv c)) = some (block.length - 4) := by
      rw [hfirst, cstr_append hnul]
      exact strstr_append hblock.ends _
    rw [parseRequest_eq hrecv, hfound, hfirst]
    dsimp only
    rw [Nat.sub_add_cancel hlen, hblock.tokens_append hnul, hblock.drop_smash hnul,
      parseLines_flatten _ _ _ hpieces]

end Cut

end Thingino.Agent
