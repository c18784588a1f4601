import PpDSCache.Http.HttpContext

/-!
# The HTTP server

What the server does with one connection when data arrives.  A connection that
is shut down for writing drops what is sent and still receives.
-/

namespace PpDSCache.Http

open Cpp Net

inductive HttpStatusCode where
  | kUnknown
  | k200Ok
  | k301MovedPermanently
  | k400BadRequest
  | k404NotFound
  deriving DecidableEq

def HttpStatusCode.value : HttpStatusCode → ℕ
  | kUnknown => 0
  | k200Ok => 200
  | k301MovedPermanently => 301
  | k400BadRequest => 400
  | k404NotFound => 404

structure HttpResponse where
  /-- in the order of the keys -/
  headers : List (Text × Text)
  statusCode : HttpStatusCode
  statusMessage : Text
  closeConnection : Bool
  body : Text
  deriving DecidableEq

namespace HttpResponse

def new (close : Bool) : HttpResponse := ⟨[], .kUnknown, [], close, []⟩

def setHeader (key value : Text) : List (Text × Text) → List (Text × Text)
  | [] => [(key, value)]
  | (k, v) :: headers =>
      if key < k then (key, value) :: (k, v) :: headers
      else if key = k then (k, value) :: headers
      else (k, v) :: setHeader key value headers

def addHeader (key value : Text) (r : HttpResponse) : HttpResponse :=
  { r with headers := setHeader key value r.headers }

def headerText (header : Text × Text) : Text :=
  header.1 ++ ascii ": " ++ header.2 ++ Text.crlf

/-- What `appendToBuffer` writes.  `snprintf` has room for 31 bytes. -/
def text (r : HttpResponse) : Text :=
  (ascii "HTTP/1.1 " ++ decimalText r.statusCode.value ++ ascii " ").take 31 ++
    r.statusMessage ++ Text.crlf ++
    (if r.closeConnection = true then ascii "Connection: close" ++ Text.crlf
     else
      (ascii "Content-Length: " ++ decimalText r.body.length ++ Text.crlf).take 31 ++
        ascii "Connection: Keep-Alive" ++ Text.crlf) ++
    (r.headers.map headerText).flatten ++ Text.crlf ++ r.body

end HttpResponse

/-! ## The connection -/

structure HttpConnection where
  inputBuffer : Buffer
  context : HttpContext
  /-- `kConnected`, not yet shut down -/
  connected : Bool
  /-- what `send` took -/
  sent : Text
  /-- the arguments of the calls of the callback -/
  handled : List HttpRequest

namespace HttpConnection

def new : HttpConnection := ⟨.new Buffer.kInitialSize, .new, true, [], []⟩

def send (data : Text) (s : HttpConnection) : HttpConnection :=
  if s.connected = true then { s with sent := s.sent ++ data } else s

def shutdown (s : HttpConnection) : HttpConnection := { s with connected := false }

end HttpConnection

namespace HttpServer

/-- `HttpCallback` changes the response it is given. -/
abbrev HttpCallback := HttpRequest → HttpResponse → HttpResponse

def defaultHttpCallback : HttpCallback := fun _ resp ↦
  { resp with
    statusCode := .k404NotFound
    statusMessage := ascii "Not Found"
    closeConnection := true }

variable (httpCallback : HttpCallback)

def response (req : HttpRequest) : HttpResponse :=
  let connection := req.getHeader (ascii "Connection")
  let close := connection = ascii "close" ∨
    req.version = .kHttp10 ∧ connection ≠ ascii "Keep-Alive"
  httpCallback req (.new (decide close))

def onRequest (req : HttpRequest) (s : HttpConnection) : HttpConnection :=
  let s := { s with handled := s.handled ++ [req] }
  let resp := response httpCallback req
  let s := s.send resp.text
  if resp.closeConnection = true then s.shutdown else s

def badRequest (s : HttpConnection) : HttpConnection :=
  (s.send (ascii "HTTP/1.1 400 Bad Request" ++ Text.crlf ++ Text.crlf)).shutdown

/-- What `onMessage` does once the parser has returned. -/
def onParsed (ok : Bool) (s : HttpConnection) : HttpConnection :=
  let s := if ok = true then s else badRequest s
  if s.context.gotAll = true then
    { onRequest httpCallback s.context.request s with context := .new }
  else s

def onMessage (receiveTime : ℤ) (s : HttpConnection) : Option HttpConnection := do
  let (ok, context, buf) ← s.context.parseRequest receiveTime s.inputBuffer
  pure (onParsed httpCallback ok { s with context := context, inputBuffer := buf })

/-- Data arrives on the connection. -/
structure Message where
  receiveTime : ℤ
  data : Text

def exec (m : Message) (s : HttpConnection) : Option HttpConnection := do
  let (_, buf) ← s.inputBuffer.readFd (.received m.data)
  onMessage httpCallback m.receiveTime { s with inputBuffer := buf }

end HttpServer

end PpDSCache.Http
