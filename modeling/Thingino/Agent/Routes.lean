import Thingino.Agent.Request

/-! The routes of the agent: `handle_direct_route`, and what it runs.

The route table looks at the string behind the first seven bytes of `path`, the length of
`/api/v1`, and no branch of it tests that these bytes are the prefix. A path shorter than
seven bytes makes it read behind the NUL, where `parse_request` left the query. -/
namespace Thingino.Agent
open Lib

/-! ### The outside -/

/-- What the routes depend on: the output of `jct` for the configured token and for a key of
a request body, and whether the body file and the header of the event stream can be written. -/
structure Env where
  token : List Byte
  json : List Byte → List Byte → List Byte
  bodyWritten : Bool
  headerSent : Bool

/-- `fgets` from a pipe. -/
def fgets (size : Nat) (out : List Byte) : Option (List Byte) :=
  if out = [] then none
  else some ((out.takeWhile (· ≠ 10#8) ++ if out.contains 10#8 then [10#8] else []).take (size - 1))

def trimTrailing (text : List Byte) : List Byte := (text.reverse.dropWhile isCrLf).reverse

def stripWrappingQuotes (text : List Byte) : List Byte :=
  if 2 ≤ text.length ∧ text.head? = some 34#8 ∧ text.getLast? = some 34#8 then text.tail.dropLast else text

/-- `read_config_value` and `read_json_file_value`: the first line that `jct` prints. -/
def readValue (size : Nat) (strip : Bool) (out : List Byte) : Option (List Byte) :=
  (fgets size out).map fun line =>
    let text := trimTrailing (cstr line)
    if strip then stripWrappingQuotes text else text

/-- `require_token`. -/
def requireToken (env : Env) (r : HttpRequest) : Bool :=
  match readValue 256 true env.token with
  | none | some [] => true
  | some token => ascii "Bearer " <+: r.authorization && r.authorization.drop 7 = token

/-! ### What is run -/

/-- An argument of `agentctl`: a text, or the name of a file with the body. -/
inductive Arg
  | text (s : List Byte)
  | bodyFile (content : List Byte)
  deriving DecidableEq

/-- `execute_agentctl_json`, `execute_agentctl_binary` or `stream_command`. -/
inductive Runner
  | json
  | binary
  | stream
  deriving DecidableEq

/-- A call of `agentctl`; `stdin` is the content of the file it reads from. -/
structure Command where
  runner : Runner
  args : List Arg
  stdin : Option (List Byte)
  deriving DecidableEq

/-- `failed` is a response that could not be sent, `unhandled` the return value 1. -/
inductive Outcome
  | run (cmd : Command)
  | error (status : Nat) (statusText message : String)
  | failed
  | unhandled
  deriving DecidableEq

def word (s : String) : Arg := .text (ascii s)

def executeAgentctlJson (args : List Arg) : Outcome := .run ⟨.json, args, none⟩

/-- `write_request_body_file` and what is done with the file. -/
def withBodyFile (env : Env) (r : HttpRequest) (use : List Byte → Outcome) : Outcome :=
  if env.bodyWritten then use (writeRequestBodyFile r)
  else .error 500 "Internal Server Error" "write body failed"

/-- `query_param_value`. -/
def queryParamValue (query key : List Byte) : Option (List Byte) :=
  (query.splitOn 38#8).findSome? fun field =>
    if key.length + 1 < field.length ∧ key ++ [61#8] <+: field then some ((field.drop (key.length + 1)).take 255)
    else none

/-! ### Actions with a body -/

/-- A value of the body, or its default. -/
def valueOr (default : List Byte) (value : Option (List Byte)) : List Byte :=
  match value with
  | none | some [] => default
  | some v => v

def privacyOn : List (List Byte) := [ascii "true", ascii "1", ascii "on", ascii "yes"]

def privacyOff : List (List Byte) := [ascii "false", ascii "0", ascii "off", ascii "no"]

def privacyAction (env : Env) (file : List Byte) : Outcome :=
  match readValue 64 false (env.json file (ascii "enabled")) with
  | none => .error 400 "Bad Request" "privacy.enabled must be true or false"
  | some enabled =>
    let channel := valueOr (ascii "all") (readValue 64 true (env.json file (ascii "channel")))
    if enabled ∈ privacyOn then executeAgentctlJson [word "privacy", word "on", .text channel]
    else if enabled ∈ privacyOff then executeAgentctlJson [word "privacy", word "off", .text channel]
    else .error 400 "Bad Request" "privacy.enabled must be true or false"

def daynightModes : List (List Byte) := [ascii "auto", ascii "day", ascii "night"]

def daynightAction (env : Env) (file : List Byte) : Outcome :=
  match readValue 64 true (env.json file (ascii "mode")) with
  | none => .error 400 "Bad Request" "daynight.mode must be auto, day, or night"
  | some mode =>
    if mode ∈ daynightModes then executeAgentctlJson [word "daynight", .text mode]
    else .error 400 "Bad Request" "daynight.mode must be auto, day, or night"

def recordDuration (env : Env) (file : List Byte) : List Byte :=
  valueOr (ascii "10") (readValue 64 false (env.json file (ascii "duration_seconds")))

def recordStream (env : Env) (file : List Byte) : List Byte :=
  valueOr (ascii "0") (readValue 64 false (env.json file (ascii "stream_id")))

def recordAction (env : Env) (file : List Byte) : Outcome :=
  let duration := recordDuration env file
  let streamId := recordStream env file
  let path := (readValue 256 true (env.json file (ascii "path"))).getD []
  if ¬duration.all isDigit then .error 400 "Bad Request" "record.duration_seconds must be an integer"
  else if ¬streamId.all isDigit then .error 400 "Bad Request" "record.stream_id must be an integer"
  else
    executeAgentctlJson
      ([word "record", .text duration, .text streamId] ++ if path = [] then [] else [.text path])

/-! ### The route table -/

def apiPrefix : List Byte := ascii "/api/v1"

/-- `strcmp(relative, text) == 0 && strcmp(request->method, method) == 0`. -/
def exactly (r : HttpRequest) (relative : List Byte) (method text : String) : Bool :=
  relative = ascii text && r.method = ascii method

/-- The same with `strncmp`. -/
def under (r : HttpRequest) (relative : List Byte) (method text : String) : Bool :=
  ascii text <+: relative && r.method = ascii method

/-- Where the first slash of a `send2` path is, if a name of at most 63 bytes stands before it. -/
def send2Slash (rest : List Byte) : Option Nat :=
  let slash := rest.idxOf 47#8
  if slash < rest.length ∧ 0 < slash ∧ slash < 64 then some slash else none

/-- A name behind `/capabilities/` is passed on. -/
def capabilityName : List Byte → List Arg
  | 47#8 :: b :: name => [.text (b :: name)]
  | _ => []

/-- The branches of `handle_direct_route` behind the token, in their order. -/
def route (env : Env) (r : HttpRequest) (relative : List Byte) : Outcome :=
  if exactly r relative "GET" "/device" then executeAgentctlJson [word "device"]
  else if exactly r relative "GET" "/health" then executeAgentctlJson [word "health"]
  else if exactly r relative "GET" "/state" then executeAgentctlJson [word "state"]
  else if under r relative "GET" "/capabilities" then
    executeAgentctlJson (word "capabilities" :: capabilityName (relative.drop 13))
  else if exactly r relative "GET" "/config" ∨ exactly r relative "GET" "/config/" then
    executeAgentctlJson [word "config"]
  else if exactly r relative "GET" "/config/schema" then executeAgentctlJson [word "schema"]
  else if exactly r relative "PATCH" "/config" ∨ exactly r relative "PATCH" "/config/" then
    withBodyFile env r fun file => .run ⟨.json, [word "apply-config", .bodyFile file], some file⟩
  else if under r relative "GET" "/runtime/" then
    executeAgentctlJson [word "runtime", .text (relative.drop 9)]
  else if under r relative "GET" "/settings/" then
    executeAgentctlJson [word "get-setting", .text (relative.drop 10)]
  else if under r relative "PATCH" "/settings/" then
    withBodyFile env r fun file =>
      .run ⟨.json, [word "set-setting", .text (relative.drop 10), .bodyFile file], some file⟩
  else if exactly r relative "POST" "/actions/reboot" then executeAgentctlJson [word "reboot"]
  else if exactly r relative "POST" "/actions/privacy" then withBodyFile env r (privacyAction env)
  else if exactly r relative "POST" "/actions/daynight" then withBodyFile env r (daynightAction env)
  else if exactly r relative "POST" "/actions/record" then withBodyFile env r (recordAction env)
  else if exactly r relative "POST" "/actions/services/streaming/start" then
    executeAgentctlJson [word "service", word "streaming", word "start"]
  else if exactly r relative "POST" "/actions/services/streaming/stop" then
    executeAgentctlJson [word "service", word "streaming", word "stop"]
  else if exactly r relative "POST" "/actions/services/streaming/restart" then
    executeAgentctlJson [word "service", word "streaming", word "restart"]
  else if exactly r relative "POST" "/actions/streamer/restart" then executeAgentctlJson [word "restart-streamer"]
  else if under r relative "POST" "/actions/send2/" ∧ (send2Slash (relative.drop 15)).isSome then
    let rest := relative.drop 15
    let slash := (send2Slash rest).getD 0
    executeAgentctlJson [word "send2-test", .text (rest.take slash), .text (rest.drop (slash + 1))]
  else if exactly r relative "POST" "/actions/snapshot" then
    .run ⟨.binary, [word "snapshot", .text (valueOr (ascii "0") (queryParamValue r.query (ascii "stream_id")))], none⟩
  else if exactly r relative "GET" "/events" then
    if env.headerSent then .run ⟨.stream, [word "events"], none⟩ else .failed
  else .unhandled

/-- `handle_direct_route`: the table is asked about what follows the length of the prefix. -/
def handleDirectRoute (env : Env) (r : HttpRequest) : Outcome :=
  let relative := cstr (r.path.drop apiPrefix.length)
  if ¬requireToken env r then .error 401 "Unauthorized" "Unauthorized" else route env r relative

/-- `handle_request`; the test for the prefix comes when the routes are through. -/
def handleRequest (env : Env) (r : HttpRequest) : Outcome :=
  match handleDirectRoute env r with
  | .unhandled =>
    if ¬apiPrefix <+: cstr r.path then .error 404 "Not Found" "Not Found" else .error 404 "Not Found" "Not Found"
  | outcome => outcome

/-- `serve_client`. -/
def serveClient (env : Env) (memory : Bool) (pieces : List (List Byte)) : Outcome :=
  let (status, r) := parseRequest memory pieces
  if status = -2 then .error 413 "Payload Too Large" "Payload Too Large"
  else if status ≠ 0 then .error 400 "Bad Request" "Bad Request"
  else handleRequest env r

/-! ### Which requests run a command -/

def Outcome.isRun : Outcome → Bool
  | .run _ => true
  | .error .. | .failed | .unhandled => false

/-- Resources of the API: the texts behind which a command stands for this method and body. -/
def namesGet (env : Env) (relative : List Byte) : Prop :=
  relative ∈ ["/device", "/health", "/state", "/config", "/config/", "/config/schema"].map ascii ∨
    (∃ front ∈ ["/capabilities", "/runtime/", "/settings/"].map ascii, front <+: relative) ∨
    relative = ascii "/events" ∧ env.headerSent

def namesPatch (env : Env) (relative : List Byte) : Prop :=
  env.bodyWritten ∧ (relative ∈ ["/config", "/config/"].map ascii ∨ ascii "/settings/" <+: relative)

/-- The body asks for something that the action can do. -/
def namesAction (env : Env) (file relative : List Byte) : Prop :=
  relative = ascii "/actions/privacy" ∧
      (∃ enabled ∈ readValue 64 false (env.json file (ascii "enabled")), enabled ∈ privacyOn ++ privacyOff) ∨
    relative = ascii "/actions/daynight" ∧
      (∃ mode ∈ readValue 64 true (env.json file (ascii "mode")), mode ∈ daynightModes) ∨
    relative = ascii "/actions/record" ∧
      (recordDuration env file).all isDigit ∧ (recordStream env file).all isDigit

def namesPost (env : Env) (r : HttpRequest) (relative : List Byte) : Prop :=
  relative ∈ ["/actions/reboot", "/actions/services/streaming/start", "/actions/services/streaming/stop",
      "/actions/services/streaming/restart", "/actions/streamer/restart", "/actions/snapshot"].map ascii ∨
    ascii "/actions/send2/" <+: relative ∧ (send2Slash (relative.drop 15)).isSome ∨
    env.bodyWritten ∧ namesAction env (writeRequestBodyFile r) relative

def NamesCommand (env : Env) (r : HttpRequest) (relative : List Byte) : Prop :=
  r.method = ascii "GET" ∧ namesGet env relative ∨
    r.method = ascii "PATCH" ∧ namesPatch env relative ∨
    r.method = ascii "POST" ∧ namesPost env r relative

section Table
variable {env : Env} {r : HttpRequest} {relative : List Byte}

theorem isRun_ite {p : Prop} [Decidable p] (a b : Outcome) :
    (if p then a else b).isRun = if p then a.isRun else b.isRun := apply_ite _ _ _ _

@[simp] theorem isRun_json (args : List Arg) : (executeAgentctlJson args).isRun = true := rfl

@[simp] theorem isRun_run (cmd : Command) : (Outcome.run cmd).isRun = true := rfl

@[simp] theorem isRun_error (status : Nat) (statusText message : String) :
    (Outcome.error status statusText message).isRun = false := rfl

@[simp] theorem isRun_failed : Outcome.failed.isRun = false := rfl

@[simp] theorem isRun_unhandled : Outcome.unhandled.isRun = false := rfl

theorem isRun_withBodyFile (use : List Byte → Outcome) :
    (withBodyFile env r use).isRun = (env.bodyWritten && (use (writeRequestBodyFile r)).isRun) := by
  unfold withBodyFile
  cases env.bodyWritten <;> rfl

theorem isRun_iff (o : Outcome) : o.isRun ↔ ∃ cmd, o = .run cmd := by
  cases o <;> simp

theorem route_get (h : r.method = ascii "GET") : (route env r relative).isRun ↔ namesGet env relative := by
  have hpatch : ascii "GET" ≠ ascii "PATCH" := by decide
  have hpost : ascii "GET" ≠ ascii "POST" := by decide
  simp only [route, exactly, under, h, hpatch, hpost, isRun_ite, Bool.and_true, Bool.and_false,
    decide_true, decide_false, decide_eq_true_eq, Bool.false_eq_true, if_false, false_and, or_self,
    isRun_json, isRun_run, isRun_failed, isRun_unhandled, Bool.if_true_left, Bool.if_false_right, Bool.or_eq_true,
    Bool.and_eq_true, namesGet, List.map_cons, List.map_nil, List.mem_cons, List.not_mem_nil, or_false,
    exists_eq_or_imp, exists_eq_left]
  simp only [or_assoc, or_comm, or_left_comm]

theorem route_patch (h : r.method = ascii "PATCH") : (route env r relative).isRun ↔ namesPatch env relative := by
  have hget : ascii "PATCH" ≠ ascii "GET" := by decide
  have hpost : ascii "PATCH" ≠ ascii "POST" := by decide
  simp only [route, exactly, under, h, hget, hpost, isRun_ite, Bool.and_true, Bool.and_false,
    decide_true, decide_false, decide_eq_true_eq, Bool.false_eq_true, if_false, false_and, or_self,
    isRun_run, isRun_withBodyFile, isRun_unhandled, Bool.if_false_right, namesPatch, List.map_cons, List.map_nil,
    List.mem_cons, List.not_mem_nil, or_false]
  cases env.bodyWritten with
  | false => simp
  | true => simp

theorem isRun_privacyAction (file : List Byte) :
    (privacyAction env file).isRun ↔
      ∃ enabled ∈ readValue 64 false (env.json file (ascii "enabled")), enabled ∈ privacyOn ++ privacyOff := by
  unfold privacyAction
  cases readValue 64 false (env.json file (ascii "enabled")) with
  | none => simp
  | some enabled => simp [isRun_ite]

theorem isRun_daynightAction (file : List Byte) :
    (daynightAction env file).isRun ↔
      ∃ mode ∈ readValue 64 true (env.json file (ascii "mode")), mode ∈ daynightModes := by
  unfold daynightAction
  cases readValue 64 true (env.json file (ascii "mode")) with
  | none => simp
  | some mode => simp [isRun_ite]

theorem isRun_recordAction (file : List Byte) :
    (recordAction env file).isRun ↔ (recordDuration env file).all isDigit ∧ (recordStream env file).all isDigit := by
  unfold recordAction
  dsimp only
  rw [isRun_ite, isRun_ite]
  cases (recordDuration env file).all isDigit with
  | false => simp
  | true => cases (recordStream env file).all isDigit <;> simp

/-- The three actions that look at the body, whose texts no other branch has. -/
theorem route_action (h : r.method = ascii "POST")
    (ha : relative ∈ ["/actions/privacy", "/actions/daynight", "/actions/record"].map ascii) :
    (route env r relative).isRun ↔ namesPost env r relative := by
  simp only [List.map_cons, List.map_nil, List.mem_cons, List.not_mem_nil, or_false] at ha
  unfold namesPost namesAction
  obtain rfl | rfl | rfl := ha
  · rw [← isRun_privacyAction]
    simp +decide [route, exactly, under, h, isRun_withBodyFile]
  · rw [← isRun_daynightAction]
    simp +decide [route, exactly, under, h, isRun_withBodyFile]
  · rw [← isRun_recordAction]
    simp +decide [route, exactly, under, h, isRun_withBodyFile]

theorem route_post (h : r.method = ascii "POST") : (route env r relative).isRun ↔ namesPost env r relative := by
  by_cases ha : relative ∈ ["/actions/privacy", "/actions/daynight", "/actions/record"].map ascii
  · exact route_action h ha
  · simp only [List.map_cons, List.map_nil, List.mem_cons, List.not_mem_nil, or_false, not_or] at ha
    have hget : ascii "POST" ≠ ascii "GET" := by decide
    have hpatch : ascii "POST" ≠ ascii "PATCH" := by decide
    simp only [route, exactly, under, h, hget, hpatch, isRun_ite, Bool.and_true, Bool.and_false,
      decide_true, decide_false, decide_eq_true_eq, Bool.false_eq_true, if_false, false_and, or_self, ha.1, ha.2.1,
      ha.2.2, isRun_json, isRun_run, isRun_unhandled, Bool.if_true_left,
      Bool.if_false_right, Bool.or_eq_true, namesPost, namesAction, and_false, or_false, List.map_cons, List.map_nil,
      List.mem_cons, List.not_mem_nil]
    simp only [or_assoc, or_comm, or_left_comm]

theorem route_run_iff : (route env r relative).isRun ↔ NamesCommand env r relative := by
  have hgp : ascii "GET" ≠ ascii "PATCH" := by decide
  have hgo : ascii "GET" ≠ ascii "POST" := by decide
  have hpo : ascii "PATCH" ≠ ascii "POST" := by decide
  unfold NamesCommand
  by_cases hget : r.method = ascii "GET"
  · simp only [route_get hget, hget, hgp, hgo, true_and, false_and, or_false]
  · by_cases hpatch : r.method = ascii "PATCH"
    · simp only [route_patch hpatch, hpatch, Ne.symm hgp, hpo, true_and, false_and, or_false, false_or]
    · by_cases hpost : r.method = ascii "POST"
      · simp only [route_post hpost, hpost, Ne.symm hgo, Ne.symm hpo, true_and, false_and, false_or]
      · simp [route, exactly, under, hget, hpatch, hpost]

theorem handleRequest_run_iff :
    (∃ cmd, handleRequest env r = .run cmd) ↔
      requireToken env r = true ∧ NamesCommand env r (cstr (r.path.drop apiPrefix.length)) := by
  rw [← route_run_iff, ← isRun_iff]
  unfold handleRequest handleDirectRoute
  cases requireToken env r with
  | false => simp
  | true =>
    cases hroute : route env r (cstr (r.path.drop apiPrefix.length)) with
    | unhandled => simp [hroute]
    | run | error | failed => simp [hroute]

/-! ### Routing -/

/-- The two requests differ at most in their token and in what `path` holds behind its NUL. -/
structure SameText (r r' : HttpRequest) : Prop where
  path : cstr r'.path = cstr r.path
  method : r'.method = r.method
  query : r'.query = r.query
  contentLength : r'.contentLength = r.contentLength
  body : r'.body = r.body

/-- What is asked of routing: a command is run only under the prefix, and the text of the
request determines which. -/
def Routed (env : Env) (r : HttpRequest) : Prop :=
  ∀ cmd, handleRequest env r = .run cmd →
    apiPrefix <+: cstr r.path ∧
      ∀ r', SameText r r' → handleRequest env r' = .run cmd ∨ requireToken env r' = false

theorem route_congr {r' : HttpRequest} (h : SameText r r') : route env r' relative = route env r relative := by
  have hfile : writeRequestBodyFile r' = writeRequestBodyFile r := by
    rw [writeRequestBodyFile, writeRequestBodyFile, h.contentLength, h.body]
  unfold route exactly under withBodyFile
  rw [h.method, h.query, hfile]

/-- With the prefix in place, the table is asked about the text behind it. -/
theorem relative_eq (h : apiPrefix <+: cstr r.path) :
    cstr (r.path.drop apiPrefix.length) = (cstr r.path).drop apiPrefix.length := cstr_drop h.length_le

/-- **Routing.** It is as it should be just if the path has the prefix, or the token is
refused, or the bytes behind the first seven name no command. -/
theorem routed_iff (env : Env) (r : HttpRequest) :
    Routed env r ↔
      apiPrefix <+: cstr r.path ∨ requireToken env r = false ∨
        ¬NamesCommand env r (cstr (r.path.drop apiPrefix.length)) := by
  constructor
  · intro h
    by_cases htoken : requireToken env r = true
    · by_cases hnames : NamesCommand env r (cstr (r.path.drop apiPrefix.length))
      · obtain ⟨cmd, hcmd⟩ := handleRequest_run_iff.mpr ⟨htoken, hnames⟩
        exact .inl (h cmd hcmd).1
      · exact .inr (.inr hnames)
    · exact .inr (.inl (Bool.eq_false_iff.mpr htoken))
  · intro h cmd hcmd
    obtain ⟨htoken, hnames⟩ := handleRequest_run_iff.mp ⟨cmd, hcmd⟩
    have hapi : apiPrefix <+: cstr r.path := by
      obtain hapi | hrefused | hnone := h
      · exact hapi
      · rw [htoken] at hrefused
        cases hrefused
      · exact absurd hnames hnone
    refine ⟨hapi, fun r' hsame => ?_⟩
    have hapi' : apiPrefix <+: cstr r'.path := hsame.path ▸ hapi
    cases htoken' : requireToken env r' with
    | false => exact .inr rfl
    | true =>
      refine .inl ?_
      unfold handleRequest handleDirectRoute at hcmd ⊢
      rw [relative_eq hapi'] at ⊢
      rw [relative_eq hapi] at hcmd
      simp only [htoken, htoken', not_true_eq_false, if_false] at hcmd ⊢
      rw [hsame.path, route_congr hsame]
      exact hcmd

/-- No token is configured. -/
def openEnv : Env := ⟨[], fun _ _ => [], true, true⟩

def getRequest (path : String) : Int × HttpRequest := parseRequest true [ascii "GET " ++ ascii path ++ ascii "\r\n\r\n"]

/-- A path without the prefix, and a path of two bytes whose query is read as its rest. -/
theorem unprefixed_path_runs :
    (getRequest "/xxxxxx/device").1 = 0 ∧
      handleRequest openEnv (getRequest "/xxxxxx/device").2 = executeAgentctlJson [word "device"] ∧
      (getRequest "/a?bcde/device").1 = 0 ∧ cstr (getRequest "/a?bcde/device").2.path = ascii "/a" ∧
      handleRequest openEnv (getRequest "/a?bcde/device").2 = executeAgentctlJson [word "device"] ∧
      ¬Routed openEnv (getRequest "/xxxxxx/device").2 ∧ ¬Routed openEnv (getRequest "/a?bcde/device").2 := by
  have hfirst : handleRequest openEnv (getRequest "/xxxxxx/device").2 = executeAgentctlJson [word "device"] := by decide
  have hsecond : handleRequest openEnv (getRequest "/a?bcde/device").2 = executeAgentctlJson [word "device"] := by decide
  refine ⟨by decide, hfirst, by decide, by decide, hsecond, fun h => ?_, fun h => ?_⟩
  · exact absurd (h _ hfirst).1 (by decide)
  · exact absurd (h _ hsecond).1 (by decide)

end Table

end Thingino.Agent
