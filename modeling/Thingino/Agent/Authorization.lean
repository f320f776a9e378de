import Thingino.Agent.Routes
import Thingino.Agent.Segments

/-! Header fields and the body.

`blockRequest` is what the header block says. The loop over the lines goes on into the part
of the body that came with the block, so a line there can replace the token or the length.
`FieldsKept` says when it does not, and then a token that is asked for has to be in the
header block. -/
namespace Thingino.Agent
open Lib

/-- The fields that are read from the header block. -/
def HttpRequest.fields (r : HttpRequest) : List Byte × List Byte × List Byte × List Byte × Nat :=
  (r.method, r.path, r.query, r.authorization, r.contentLength)

/-- The cut leaves the fields to the header block. -/
def FieldsKept (block : List Byte) (c : List (List Byte)) : Prop :=
  0#8 ∈ block ∨ requestWords block = 0 ∨
    block.length ≤ (firstRecv c).length ∧ (requestWords block = 1 ∨ LeavesHeaders block (carried block c))

section Fields
variable {memory : Bool} {block rest : List Byte} {c : List (List Byte)}

/-- The carried part can only change two of the fields. -/
theorem fields_foldl_iff (part : List Byte) :
    ((tokens isCrLf part).foldl readHeader (headerRequest block)).fields = (headerRequest block).fields ↔
      LeavesHeaders block part := by
  rw [leavesHeaders_iff, foldl_readHeader]
  simp only [HttpRequest.fields, Prod.mk.injEq, true_and]

theorem readBody_fields_eq (memory : Bool) (r : HttpRequest) (inBuffer : List Byte) (pieces : List (List Byte)) :
    (readBody memory r inBuffer pieces).2.fields = r.fields := by
  obtain ⟨body, hbody⟩ := readBody_fields memory r inBuffer pieces
  rw [hbody]
  rfl

theorem parse_fields_iff (memory : Bool) (hblock : IsHeaderBlock block) (hcut : IsCut c (block ++ rest)) :
    (parseRequest memory c).2.fields = (blockRequest block).fields ↔ FieldsKept block c := by
  unfold FieldsKept blockRequest
  by_cases hnul : 0#8 ∈ block
  · simp only [hcut.parse_nul hblock hnul, hnul, if_true, true_or]
  · obtain ⟨line, lines, htokens, hwords, hheader⟩ := tokens_block hblock hnul
    have hle := readRequestLine_le line
    rw [if_neg hnul, hwords, htokens, List.headD_cons]
    by_cases hwhole : block.length ≤ (firstRecv c).length
    · obtain ⟨late, -, hparse⟩ := hcut.parse_whole memory hblock hnul hwhole
      rw [hparse, htokens, List.cons_append, parseLines]
      by_cases htwo : (readRequestLine line).1 = 2
      · rw [if_neg (not_not.mpr htwo), if_neg (not_not.mpr htwo), List.foldl_append, ← hheader, readBody_fields_eq,
          fields_foldl_iff]
        simp only [htwo, hnul, hwhole, false_or, true_and, show ¬(2 = 0) by decide, show ¬(2 = 1) by decide]
      · rw [if_pos htwo, if_pos htwo]
        have hfew : (readRequestLine line).1 = 0 ∨ (readRequestLine line).1 = 1 := by omega
        exact iff_of_true rfl (.inr (hfew.imp id fun hone => ⟨hwhole, .inl hone⟩))
    · have hshort := Nat.lt_of_le_of_lt (cstr_isPrefix (firstRecv c)).length_le (Nat.not_le.mp hwhole)
      rw [hcut.parse_short hblock hshort]
      by_cases hzero : (readRequestLine line).1 = 0
      · rw [if_pos (by omega), readRequestLine_blank hzero]
        exact iff_of_true rfl (.inr (.inl hzero))
      · refine iff_of_false (fun heq => readRequestLine_method hzero ?_) ?_
        · have hmethod := congrArg Prod.fst heq
          refine Eq.trans ?_ hmethod.symm
          show _ = (ite _ _ _ : HttpRequest).method
          split
          · rfl
          · rw [hheader, foldl_readHeader]
            exact (splitQuery_method _).symm
        · simp only [hnul, hzero, hwhole, false_or, false_and, not_false_eq_true]

/-! ### The token -/

theorem readRequestLine_authorization (line : List Byte) : (splitQuery (readRequestLine line).2).authorization = [] := by
  have hline : (readRequestLine line).2.authorization = [] := by
    unfold readRequestLine
    split
    · rfl
    · split <;> rfl
  unfold splitQuery
  dsimp only
  split <;> exact hline

/-- A value of `authorization` comes from a line. -/
theorem authorization_from_line {value : List Byte} (hne : value ≠ []) (h : (headerRequest block).authorization = value) :
    ∃ line ∈ (tokens isCrLf block).tail, authorizationOf line = some value := by
  rw [headerRequest, foldl_readHeader] at h
  dsimp only at h
  cases hlast : (tokens isCrLf block).tail.reverse.findSome? authorizationOf with
  | none =>
    rw [hlast, Option.getD_none, readRequestLine_authorization] at h
    exact absurd h.symm hne
  | some found =>
    rw [hlast, Option.getD_some] at h
    obtain ⟨line, hmem, hvalue⟩ := List.exists_of_findSome?_eq_some (h ▸ hlast)
    exact ⟨line, List.mem_reverse.mp hmem, hvalue⟩

/-- What `require_token` compares, when there is a token. -/
theorem requireToken_eq {env : Env} {r : HttpRequest} {token : List Byte} (hne : token ≠ [])
    (htoken : readValue 256 true env.token = some token) (h : requireToken env r = true) :
    r.authorization = ascii "Bearer " ++ token := by
  rw [requireToken, htoken] at h
  cases token with
  | nil => exact absurd rfl hne
  | cons b token =>
    simp only [Bool.and_eq_true, decide_eq_true_eq] at h
    obtain ⟨⟨value, hvalue⟩, hdrop⟩ := h
    rw [← hvalue] at hdrop ⊢
    rw [← hdrop]
    rfl

theorem serveClient_run {env : Env} {cmd : Command} (h : serveClient env memory c = .run cmd) :
    ∃ r, parseRequest memory c = (0, r) ∧ handleRequest env r = .run cmd := by
  unfold serveClient at h
  dsimp only at h
  split at h
  · cases h
  · split at h
    · cases h
    · rename_i hstatus
      exact ⟨_, Prod.ext (not_not.mp hstatus) rfl, h⟩

theorem token_in_block {env : Env} {cmd : Command} {token : List Byte} (hblock : IsHeaderBlock block)
    (hcut : IsCut c (block ++ rest)) (hkept : FieldsKept block c) (hne : token ≠ [])
    (htoken : readValue 256 true env.token = some token) (hrun : serveClient env memory c = .run cmd) :
    ∃ line ∈ (tokens isCrLf block).tail, authorizationOf line = some (ascii "Bearer " ++ token) := by
  obtain ⟨r, hok, hhandle⟩ := serveClient_run hrun
  obtain ⟨hnul, -, hwords, -⟩ := parse_ok hblock hcut hok
  have hfields := (parse_fields_iff memory hblock hcut).mpr hkept
  rw [hok, blockRequest, if_neg hnul, if_neg (not_not.mpr hwords)] at hfields
  have hauth : r.authorization = (headerRequest block).authorization := (Prod.mk.inj (Prod.mk.inj (Prod.mk.inj
    (Prod.mk.inj hfields).2).2).2).1
  have hrequired := (handleRequest_run_iff.mp ⟨cmd, hhandle⟩).1
  refine authorization_from_line (fun hnil => ?_) (hauth.symm.trans (requireToken_eq hne htoken hrequired))
  exact absurd (List.append_eq_nil_iff.mp hnil).2 hne

/-- **Header fields.** The fields are those of the header block just if the cut keeps them,
all bodies and cuts give the same fields just if all of them do, and with a token configured
no command runs unless a line of the header block carries it. -/
theorem header_fields_iff (hblock : IsHeaderBlock block) :
    (∀ rest c, IsCut c (block ++ rest) →
        ((parseRequest memory c).2.fields = (blockRequest block).fields ↔ FieldsKept block c)) ∧
      ((∀ rest rest' c c', IsCut c (block ++ rest) → IsCut c' (block ++ rest') →
          (parseRequest memory c).2.fields = (parseRequest memory c').2.fields) ↔
        ∀ rest c, IsCut c (block ++ rest) → FieldsKept block c) ∧
      ∀ rest c, IsCut c (block ++ rest) → FieldsKept block c →
        ∀ (env : Env) (token : List Byte) (cmd : Command), token ≠ [] → readValue 256 true env.token = some token →
          serveClient env memory c = .run cmd →
          ∃ line ∈ (tokens isCrLf block).tail, authorizationOf line = some (ascii "Bearer " ++ token) := by
  refine ⟨fun _ _ hcut => parse_fields_iff memory hblock hcut, ⟨fun hsame rest c hcut => ?_, ?_⟩, ?_⟩
  · obtain ⟨pieces, hfirst⟩ := @exists_headerFirst block [] hblock
    rw [← parse_fields_iff memory hblock hcut, hsame _ _ _ _ hcut hfirst, parse_fields_iff memory hblock hfirst]
    exact (harmless_headerFirst memory hblock pieces).imp id
      (Or.imp id (And.imp id (Or.imp id And.left)))
  · intro hall rest rest' c c' hcut hcut'
    rw [(parse_fields_iff memory hblock hcut).mpr (hall _ _ hcut),
      (parse_fields_iff memory hblock hcut').mpr (hall _ _ hcut')]
  · exact fun _ _ hcut hkept _ _ _ hne htoken hrun => token_in_block hblock hcut hkept hne htoken hrun

/-- The token `abc` is configured. -/
def tokenEnv : Env := ⟨ascii "\"abc\"\n", fun _ _ => [], true, true⟩

/-- A request without a token, and a line with the token. -/
def bareBlock : List Byte := ascii "GET /api/v1/device HTTP/1.1\r\n\r\n"

def tokenLine : List Byte := ascii "Authorization: Bearer abc\r\n"

theorem isHeaderBlock_bare : IsHeaderBlock bareBlock := ⟨by decide, by decide, by decide⟩

/-- The header block alone: what it says is what is read. -/
theorem header_fields_bare :
    IsHeaderBlock bareBlock ∧
      ((parseRequest true [bareBlock]).2.fields = (blockRequest bareBlock).fields ↔ FieldsKept bareBlock [bareBlock]) :=
  ⟨isHeaderBlock_bare, (header_fields_iff isHeaderBlock_bare).1 [] _ ⟨by decide, by decide⟩⟩

/-- The token in the body: the header block has no such line, and the command runs. -/
theorem token_in_body_runs :
    IsHeaderBlock bareBlock ∧ readValue 256 true tokenEnv.token = some (ascii "abc") ∧
      (∀ line ∈ tokens isCrLf bareBlock, authorizationOf line = none) ∧
      serveClient tokenEnv true [bareBlock] = .error 401 "Unauthorized" "Unauthorized" ∧
      serveClient tokenEnv true [bareBlock ++ tokenLine] = executeAgentctlJson [word "device"] ∧
      (parseRequest true [bareBlock]).2.fields ≠ (parseRequest true [bareBlock ++ tokenLine]).2.fields :=
  ⟨isHeaderBlock_bare, by decide, by decide, by decide, by decide, by decide⟩

end Fields

end Thingino.Agent
