import Thingino.Lib.CString

/-! Requests to the agent: `parse_request` of `thingino-agentd-native.c`.

The request is read into one buffer by one `recv`. `strtok` cuts the buffer into lines,
and a loop over the lines fills in the fields; it does not stop at the empty line that ends
the header block. The body is then taken from the same buffer and from further calls of
`recv`. A stream arrives as a list of pieces; `recv` returns one piece, or the front of it
when there is no room for all. -/
namespace Thingino.Agent
open Lib

def requestBufferSize : Nat := 32768

def bodyLimit : Nat := 65536

/-- `struct http_request`, as far as it is used. Strings are shown without their NUL; `path`
is the array itself, in which bytes may follow a NUL, up to its last byte that is not zero. -/
structure HttpRequest where
  method : List Byte
  path : List Byte
  query : List Byte
  authorization : List Byte
  scriptName : List Byte
  body : Option (List Byte)
  contentLength : Nat
  deriving DecidableEq

namespace HttpRequest

/-- After `memset`. -/
def blank : HttpRequest := ⟨[], [], [], [], [], none, 0⟩

end HttpRequest

/-- What `write_request_body_file` writes. -/
def writeRequestBodyFile (r : HttpRequest) : List Byte :=
  if 0 < r.contentLength then (r.body.getD []).take r.contentLength else []

/-! ### Receiving -/

/-- One call of `recv`; `none` is an error or the end of the stream. -/
def recv (room : Nat) : List (List Byte) → Option (List Byte × List (List Byte))
  | [] => none
  | piece :: pieces =>
    if piece = [] then none
    else some (piece.take room, if piece.length ≤ room then pieces else piece.drop room :: pieces)

/-- The loop that reads the missing part of the body. Each call brings a byte, so `missing`
calls are enough. -/
def recvBody : Nat → Nat → List (List Byte) → Option (List Byte)
  | _, 0, _ => some []
  | 0, _ + 1, _ => none
  | calls + 1, missing + 1, pieces =>
    match recv (missing + 1) pieces with
    | none => none
    | some (got, pieces) => (recvBody calls (missing + 1 - got.length) pieces).map (got ++ ·)

/-! ### The lines -/

def isCrLf (b : Byte) : Bool := b = 13#8 || b = 10#8

/-- `sscanf(line, "%15s %511s", ...)`: the number of conversions and what they store. -/
def readRequestLine (line : List Byte) : Nat × HttpRequest :=
  match scanWord 15 line with
  | none => (0, .blank)
  | some (method, rest) =>
    match scanWord 511 rest with
    | none => (1, { HttpRequest.blank with method := method })
    | some (path, _) => (2, { HttpRequest.blank with method := method, path := path })

/-- The query goes into its own field; in `path` a NUL takes the place of the `?`. -/
def splitQuery (r : HttpRequest) : HttpRequest :=
  let mark := r.path.idxOf 63#8
  let r :=
    if mark < r.path.length then
      { r with query := (r.path.drop (mark + 1)).take 511, path := r.path.set mark 0#8 }
    else r
  { r with scriptName := (cstr r.path).take 511 }

/-- The value that a line gives to `authorization`. -/
def authorizationOf (line : List Byte) : Option (List Byte) :=
  if startsWithCase (ascii "Authorization:") line then
    some (((line.drop 14).dropWhile fun b => b = 32#8 || b = 9#8).take 511)
  else none

/-- The value that a line gives to `content_length`. -/
def contentLengthOf (line : List Byte) : Option Nat :=
  if startsWithCase (ascii "Content-Length:") line then some (strtoul (line.drop 15)) else none

/-- The body of the loop over the lines. -/
def readHeader (r : HttpRequest) (line : List Byte) : HttpRequest :=
  match authorizationOf line with
  | some value => { r with authorization := value }
  | none =>
    match contentLengthOf line with
    | some n => { r with contentLength := n }
    | none => r

/-- The loop; every call of `strtok` but the last takes a byte off the rest of the buffer. -/
def readHeaders : Nat → Tokenizer → HttpRequest → HttpRequest × Tokenizer
  | 0, t, r => (r, t)
  | calls + 1, t, r =>
    match strtok isCrLf t with
    | none => (r, t)
    | some (line, t) => readHeaders calls t (readHeader r line)

/-! ### The request -/

/-- The end of `parse_request`: the body, of which `inBuffer` came with the header block.
`memory` is whether `calloc` succeeds. -/
def readBody (memory : Bool) (r : HttpRequest) (inBuffer : List Byte) (pieces : List (List Byte)) :
    Int × HttpRequest :=
  if bodyLimit < r.contentLength then (-2, r)
  else if r.contentLength = 0 then (0, r)
  else if ¬memory then (-1, r)
  else
    let missing := r.contentLength - inBuffer.length
    match recvBody missing missing pieces with
    | none => (-1, r)
    | some late => (0, { r with body := some (inBuffer.take r.contentLength ++ late) })

/-- `parse_request`: the status and the request it leaves. -/
def parseRequest (memory : Bool) (pieces : List (List Byte)) : Int × HttpRequest :=
  match recv requestBufferSize pieces with
  | none => (-1, .blank)
  | some (buffer, pieces) =>
    match strstr (ascii "\r\n\r\n") (cstr buffer) with
    | none => (-1, .blank)
    | some headerEnd =>
      match strtok isCrLf ⟨[], buffer⟩ with
      | none => (-1, .blank)
      | some (line, t) =>
        let (count, r) := readRequestLine line
        if count ≠ 2 then (-1, r)
        else
          let (r, t) := readHeaders t.rest.length t (splitQuery r)
          readBody memory r (t.buffer.drop (headerEnd + 4)) pieces

end Thingino.Agent
