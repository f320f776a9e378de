import Thingino.Proxy.Ring

/-! One connection of the TLS proxy, and what one pass of the event loop does to it.

`run_event_server` exists twice: in `thingino-httpd-ssl`, where the environment can turn
on `PASSTHRU`, and in `thingino-agent`, which waits for the handshake with two flags. A
pass over a connection is a chain of non-blocking calls. The model stops at each call
(`Phase`) and takes the answer as an event, so every order of readiness, partial result
and error is a run. Between two calls the code only tests and branches: the `enter`
functions follow it to the next call.

mbedTLS is a parameter. Its write side is a `TlsLayer`; of its read side the model keeps
the bytes of the current record that were not read yet. `History` records what a proxy is
judged by: what came in, what went out, what was lost. -/
namespace Thingino.Proxy
open Lib

/-- The two copies of the source. -/
inductive Copy
  | httpdSsl
  | agent
  deriving DecidableEq

/-- The variable is set to `1...`, `true` or `on`. -/
def envOn : Option (List Char) → Bool
  | none => false
  | some v => v.head? = some '1' || v.map Char.toLower = ['t', 'r', 'u', 'e'] || v.map Char.toLower = ['o', 'n']

/-- The build, the listening socket, and the environment: `HTTPD_SSL_MAX_CONNS` as `atoi`
reads it and `HTTPD_SSL_PASSTHRU`. -/
structure Config where
  copy : Copy
  listenFd : Int
  maxConnsEnv : Option Int
  passthruEnv : Option (List Char)

namespace Config

def passthru (cfg : Config) : Bool := cfg.copy = .httpdSsl && envOn cfg.passthruEnv

def maxConns (cfg : Config) : Nat :=
  match cfg.copy, cfg.maxConnsEnv with
  | .httpdSsl, some v => if 1 ≤ v ∧ v ≤ 64 then v.toNat else 8
  | _, _ => 8

end Config

/-! ### The calls and their answers -/

/-- `wrote w` is a positive return, `want` is `WANT_READ` or `WANT_WRITE`, `failed` the rest. -/
inductive WriteResult
  | wrote (w : Nat)
  | want
  | failed
  deriving DecidableEq

/-- The write side of `mbedtls_ssl_write`: the state after a call with these bytes and this
answer, if the call can answer so. It never accepts more than it is given. -/
structure TlsLayer (ω : Type) where
  init : ω
  write : ω → List Byte → WriteResult → Option ω
  bounded : ∀ {t p w t'}, write t p (.wrote w) = some t' → 0 < w ∧ w ≤ p.length

/-- `mbedtls_ssl_write` as an ideal operation: it accepts a non-empty prefix or nothing. -/
def TlsLayer.ideal : TlsLayer Unit where
  init := ()
  write _ p
    | .wrote w => if 0 < w ∧ w ≤ p.length then some () else none
    | .want => some ()
    | .failed => none
  bounded h := (Option.ite_none_right_eq_some.mp h).1

inductive HandshakeResult
  | done
  | wantRead
  | wantWrite
  | failed
  deriving DecidableEq

inductive SendResult
  | sent (s : Nat)
  | again
  | failed
  deriving DecidableEq

/-- `record` is a record that arrives and is decrypted by this call, `unread` the rest of
the one before. -/
inductive ReadResult
  | record (bytes : List Byte)
  | unread
  | want
  | eof
  | failed
  deriving DecidableEq

inductive RecvResult
  | bytes (b : List Byte)
  | again
  | eof
  | failed
  deriving DecidableEq

inductive Event
  | soError (ok : Bool)
  | handshake (r : HandshakeResult)
  | send (r : SendResult)
  | write (r : WriteResult)
  | read (r : ReadResult)
  | recv (r : RecvResult)
  deriving DecidableEq

/-! ### Connections -/

inductive CState
  | init
  | handshake
  | httpConnecting
  | forward
  | shutdown
  | closed
  deriving DecidableEq

/-- What happened on a connection. `dropped` are bytes that `rb_write` did not take. -/
structure History where
  received : List Byte
  accepted : List Byte
  dropped : List Byte
  eof : Bool
  sslFailed : Bool

/-- The descriptors opened and closed for a connection. -/
structure FdLog where
  opened : List Int
  closed : List Int

/-- `conn_t`. The agent's copy alone uses the two `want` flags. -/
structure Conn (ω : Type) where
  state : CState
  tlsDone : Bool
  tlsWantRead : Bool
  tlsWantWrite : Bool
  clientFd : Int
  httpFd : Int
  httpConnected : Bool
  toHttp : Queue
  toTls : Queue
  tls : ω
  pending : List Byte
  hist : History
  fdLog : FdLog

/-- The file descriptors of a connection that `select` reported. -/
structure Ready where
  tlsRead : Bool
  tlsWrite : Bool
  httpRead : Bool
  httpWrite : Bool

/-- The call a pass is waiting for. Inside `passthru` are the bytes of the last `recv` that
are still to be written and whether that `recv` filled its buffer. -/
inductive Phase
  | connect
  | handshake
  | sendHttp
  | writeTls
  | readTls
  | readHttp
  | passthru (rest : List Byte) (full : Bool)
  | finish
  deriving DecidableEq

/-- A connection in the middle of a pass. -/
structure Pass (ω : Type) where
  conn : Conn ω
  ready : Ready
  phase : Phase

section Conn
variable {ω : Type}

namespace Conn

/-- `close_conn`. -/
def close (c : Conn ω) : Conn ω :=
  { c with
    state := .closed
    httpFd := if 0 ≤ c.httpFd then -1 else c.httpFd
    clientFd := if 0 ≤ c.clientFd then -1 else c.clientFd
    fdLog := { c.fdLog with
      closed := c.fdLog.closed ++ (if 0 ≤ c.httpFd then [c.httpFd] else []) ++
        if 0 ≤ c.clientFd then [c.clientFd] else [] } }

def shutdown (c : Conn ω) : Conn ω := { c with state := .shutdown }

/-- `mbedtls_ssl_read` or `mbedtls_ssl_write` failed. -/
def sslFail (c : Conn ω) : Conn ω := { c with state := .shutdown, hist := { c.hist with sslFailed := true } }

def accept (c : Conn ω) (bytes : List Byte) : Conn ω :=
  { c with hist := { c.hist with accepted := c.hist.accepted ++ bytes } }

/-- `rb_write` into `to_tls`; nothing looks at its result. -/
def pushTls (c : Conn ω) (bytes : List Byte) : Conn ω :=
  { c with
    toTls := c.toTls.write bytes
    hist := { c.hist with dropped := c.hist.dropped ++ bytes.drop (c.toTls.taken bytes) } }

end Conn

/-! ### From one call to the next -/

def enterReadHttp (r : Ready) (c : Conn ω) : Phase :=
  if r.httpRead ∧ 0 < c.toTls.space then .readHttp else .finish

def enterReadTls (r : Ready) (c : Conn ω) : Phase :=
  if r.tlsRead ∧ 0 < c.toHttp.space then .readTls else enterReadHttp r c

def enterWriteTls (r : Ready) (c : Conn ω) : Phase :=
  if r.tlsWrite ∧ 0 < c.toTls.size then .writeTls else enterReadTls r c

def enterSendHttp (r : Ready) (c : Conn ω) : Phase :=
  if r.httpWrite ∧ 0 < c.toHttp.size then .sendHttp else enterWriteTls r c

/-- Forwarding only when both sides are ready. -/
def enterForward (r : Ready) (c : Conn ω) : Phase :=
  if c.tlsDone ∧ c.httpConnected ∧ c.state ≠ .shutdown then enterSendHttp r c else .finish

def enterHandshake (r : Ready) (c : Conn ω) : Phase :=
  if ¬c.tlsDone ∧ (r.tlsRead ∨ r.tlsWrite) then .handshake else enterForward r c

def enterConnect (r : Ready) (c : Conn ω) : Phase :=
  if ¬c.httpConnected ∧ r.httpWrite then .connect else enterHandshake r c

/-- After a `recv` with data: another one only if the last filled its buffer. -/
def enterRecvAgain (full : Bool) (c : Conn ω) : Phase :=
  if full ∧ 0 < c.toTls.space then .readHttp else .finish

/-- The sets `select` left, seen from a connection. -/
def readiness (rfds wfds : List Int) (c : Conn ω) : Ready where
  tlsRead := 0 ≤ c.clientFd && c.clientFd ∈ rfds
  tlsWrite := 0 ≤ c.clientFd && c.clientFd ∈ wfds
  httpRead := 0 ≤ c.httpFd && c.httpFd ∈ rfds
  httpWrite := 0 ≤ c.httpFd && c.httpFd ∈ wfds

namespace Pass

def start (rfds wfds : List Int) (c : Conn ω) : Pass ω :=
  let r := readiness rfds wfds c
  ⟨c, r, enterConnect r c⟩

/-! ### The calls -/

/-- `getsockopt(SO_ERROR)`. -/
def onConnect (p : Pass ω) (ok : Bool) : Pass ω :=
  let c := if ok then { p.conn with httpConnected := true } else p.conn.shutdown
  { p with conn := c, phase := enterHandshake p.ready c }

/-- `mbedtls_ssl_handshake`; the agent remembers what a blocked handshake waits for. -/
def onHandshake (cfg : Config) (p : Pass ω) (r : HandshakeResult) : Pass ω :=
  let wants (read write : Bool) : Conn ω :=
    match cfg.copy with
    | .httpdSsl => p.conn
    | .agent => { p.conn with tlsWantRead := read, tlsWantWrite := write }
  let c := match r with
    | .done => { wants false false with tlsDone := true }
    | .wantRead => wants true false
    | .wantWrite => wants false true
    | .failed => p.conn.shutdown
  { p with conn := c, phase := enterForward p.ready c }

/-- `send` of what `rb_peek` shows of `to_http`, until the ring is empty or the socket full. -/
def onSend (p : Pass ω) : SendResult → Option (Pass ω)
  | .sent s =>
    if 0 < s ∧ s ≤ p.conn.toHttp.peek.length then
      let c := { p.conn with toHttp := p.conn.toHttp.consume s }
      some { p with conn := c, phase := if c.toHttp.peek = [] then enterWriteTls p.ready c else .sendHttp }
    else none
  | .again => some { p with phase := enterWriteTls p.ready p.conn }
  | .failed => some { p with conn := p.conn.shutdown, phase := enterWriteTls p.ready p.conn }

/-- `mbedtls_ssl_write` of what `rb_peek` shows of `to_tls`. -/
def onWrite (tls : TlsLayer ω) (p : Pass ω) (r : WriteResult) : Option (Pass ω) :=
  let shown := p.conn.toTls.peek
  (tls.write p.conn.tls shown r).map fun t =>
    let c := { p.conn with tls := t }
    match r with
    | .wrote w =>
      let c := { c.accept (shown.take w) with toTls := c.toTls.consume w }
      { p with conn := c, phase := if c.toTls.peek = [] then enterReadTls p.ready c else .writeTls }
    | .want => { p with conn := c, phase := enterReadTls p.ready c }
    | .failed => { p with conn := c.sslFail, phase := enterReadTls p.ready c }

/-- `mbedtls_ssl_read` copied the front of `avail`; the loop goes on while
`mbedtls_ssl_check_pending` says that there is more, and room for it. -/
def gotRecord (p : Pass ω) (avail : List Byte) : Pass ω :=
  let toread := min p.conn.toHttp.space tmpRead
  let c := { p.conn with toHttp := p.conn.toHttp.write (avail.take toread), pending := avail.drop toread }
  { p with
    conn := c
    phase := if c.pending ≠ [] ∧ 0 < c.toHttp.space then .readTls else enterReadHttp p.ready c }

/-- `mbedtls_ssl_read` looks at the socket only when nothing is left of the last record. -/
def onRead (p : Pass ω) : ReadResult → Option (Pass ω)
  | .record bytes => if p.conn.pending = [] ∧ bytes ≠ [] then some (p.gotRecord bytes) else none
  | .unread => if p.conn.pending ≠ [] then some (p.gotRecord p.conn.pending) else none
  | .want => if p.conn.pending = [] then some { p with phase := enterReadHttp p.ready p.conn } else none
  | .eof =>
    if p.conn.pending = [] then
      some { p with conn := p.conn.shutdown, phase := enterReadHttp p.ready p.conn }
    else none
  | .failed => some { p with conn := p.conn.sslFail, phase := enterReadHttp p.ready p.conn }

/-- `recv` from the backend. -/
def onRecv (cfg : Config) (p : Pass ω) : RecvResult → Option (Pass ω)
  | .bytes b =>
    let toread := min p.conn.toTls.space tmpRead
    if 0 < b.length ∧ b.length ≤ toread then
      let full : Bool := toread ≤ b.length
      let c := { p.conn with hist := { p.conn.hist with received := p.conn.hist.received ++ b } }
      if cfg.passthru then some { p with conn := c, phase := .passthru b full }
      else
        let c := c.pushTls b
        some { p with conn := c, phase := enterRecvAgain full c }
    else none
  | .again => some { p with phase := .finish }
  | .eof =>
    let c := p.conn.shutdown
    some { p with conn := { c with hist := { c.hist with eof := true } }, phase := .finish }
  | .failed => some { p with conn := p.conn.shutdown, phase := .finish }

/-- `mbedtls_ssl_write` straight from the receive buffer. What a blocked write leaves goes
into the ring; what a failed one leaves goes nowhere. -/
def onPassthru (tls : TlsLayer ω) (p : Pass ω) (rest : List Byte) (full : Bool) (r : WriteResult) :
    Option (Pass ω) :=
  (tls.write p.conn.tls rest r).map fun t =>
    let c := { p.conn with tls := t }
    match r with
    | .wrote w =>
      let c := c.accept (rest.take w)
      { p with conn := c, phase := if rest.drop w = [] then enterRecvAgain full c else .passthru (rest.drop w) full }
    | .want =>
      let c := c.pushTls rest
      { p with conn := c, phase := enterRecvAgain full c }
    | .failed => { p with conn := c.sslFail, phase := enterRecvAgain full c }

/-- One call of a pass. -/
def step (tls : TlsLayer ω) (cfg : Config) (p : Pass ω) : Event → Option (Pass ω)
  | .soError ok => if p.phase = .connect then some (p.onConnect ok) else none
  | .handshake r => if p.phase = .handshake then some (p.onHandshake cfg r) else none
  | .send r => if p.phase = .sendHttp then p.onSend r else none
  | .write r =>
    match p.phase with
    | .writeTls => p.onWrite tls r
    | .passthru rest full => p.onPassthru tls rest full r
    | _ => none
  | .read r => if p.phase = .readTls then p.onRead r else none
  | .recv r => if p.phase = .readHttp then p.onRecv cfg r else none

end Pass

end Conn

end Thingino.Proxy
