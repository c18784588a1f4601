import Mathlib.Data.List.DropRight
import PpDSCache.Cpp.Search
import PpDSCache.Net.Buffer

/-!
# The parser of HTTP requests

A request is read line by line from the input buffer: the request line first,
then the headers up to a line without a colon.  A function that fails an
assertion, and a loop that does not end, have no result.
-/

namespace PpDSCache.Net.Buffer

open Cpp

/-- The position in the array. -/
def findCRLF (b : Buffer) : Option ℕ :=
  (Text.search Text.crlf ((b.bytes.drop b.readerIndex).take (b.writerIndex - b.readerIndex))).map
    (b.readerIndex + ·)

end PpDSCache.Net.Buffer

namespace PpDSCache.Http

open Cpp Net

inductive Method where
  | kInvalid
  | kGet
  | kPost
  | kHead
  | kPut
  | kDelete
  deriving DecidableEq

inductive Version where
  | kUnknown
  | kHttp10
  | kHttp11
  deriving DecidableEq

structure HttpRequest where
  method : Method
  version : Version
  path : Text
  query : Text
  /-- in microseconds, zero for an invalid time -/
  receiveTime : ℤ
  headers : Text → Option Text

namespace HttpRequest

def new : HttpRequest := ⟨.kInvalid, .kUnknown, [], [], 0, fun _ ↦ none⟩

def methodOf (m : Text) : Method :=
  if m = ascii "GET" then .kGet
  else if m = ascii "POST" then .kPost
  else if m = ascii "HEAD" then .kHead
  else if m = ascii "PUT" then .kPut
  else if m = ascii "DELETE" then .kDelete
  else .kInvalid

def setMethod (m : Text) (r : HttpRequest) : Option (Bool × HttpRequest) :=
  if r.method = .kInvalid then
    some (decide (methodOf m ≠ .kInvalid), { r with method := methodOf m })
  else none

/-- `setPath` and `setQuery`: the query begins with its question mark. -/
def setTarget (target : Text) (r : HttpRequest) : HttpRequest :=
  match Text.cutAt 63 target with
  | some (path, _) => { r with path := path, query := target.drop path.length }
  | none => { r with path := target }

def versionOf (v : Text) : Option Version :=
  if v.length = 8 ∧ v.take 7 = ascii "HTTP/1." then
    if v.getLast? = some 49 then some .kHttp11
    else if v.getLast? = some 48 then some .kHttp10
    else none
  else none

/-- White space around the value is dropped. -/
def trim (v : Text) : Text := (v.dropWhile Text.isSpace).rdropWhile Text.isSpace

def addHeader (field value : Text) (r : HttpRequest) : HttpRequest :=
  { r with headers := Function.update r.headers field (some (trim value)) }

def getHeader (field : Text) (r : HttpRequest) : Text := (r.headers field).getD []

/-- Whether the line is a request line, and the request with what was stored
until that was known. -/
def processRequestLine (line : Text) (r : HttpRequest) : Option (Bool × HttpRequest) :=
  match Text.cutAt 32 line with
  | none => some (false, r)
  | some (method, rest) => do
      let (valid, r) ← r.setMethod method
      if valid = false then pure (false, r)
      else
        match Text.cutAt 32 rest with
        | none => pure (false, r)
        | some (target, version) =>
            match versionOf version with
            | none => pure (false, r.setTarget target)
            | some v => pure (true, { r.setTarget target with version := v })

end HttpRequest

inductive HttpRequestParseState where
  | kExpectRequestLine
  | kExpectHeaders
  | kExpectBody
  | kGotAll
  deriving DecidableEq

structure HttpContext where
  state : HttpRequestParseState
  request : HttpRequest

namespace HttpContext

/-- Also what `reset` leaves. -/
def new : HttpContext := ⟨.kExpectRequestLine, .new⟩

def gotAll (c : HttpContext) : Bool := c.state = .kGotAll

/-- The loop of `parseRequest`, at most `n` rounds of it. -/
def parseLoop (receiveTime : ℤ) : ℕ → HttpContext → Buffer → Option (Bool × HttpContext × Buffer)
  | 0, _, _ => none
  | n + 1, c, b =>
      match c.state with
      | .kExpectRequestLine =>
          match b.findCRLF with
          | none => some (true, c, b)
          | some crlf => do
              let line ← readAt b.bytes b.readerIndex (crlf - b.readerIndex)
              let (ok, request) ← c.request.processRequestLine line
              if ok = true then
                let b ← b.retrieveUntil (crlf + 2)
                parseLoop receiveTime n
                  ⟨.kExpectHeaders, { request with receiveTime := receiveTime }⟩ b
              else pure (false, { c with request := request }, b)
      | .kExpectHeaders =>
          match b.findCRLF with
          | none => some (true, c, b)
          | some crlf => do
              let line ← readAt b.bytes b.readerIndex (crlf - b.readerIndex)
              match Text.cutAt 58 line with
              | some (field, value) =>
                  let b ← b.retrieveUntil (crlf + 2)
                  parseLoop receiveTime n { c with request := c.request.addHeader field value } b
              | none =>
                  let b ← b.retrieveUntil (crlf + 2)
                  pure (true, { c with state := .kGotAll }, b)
      -- no branch of the loop is for these states
      | .kExpectBody | .kGotAll => parseLoop receiveTime n c b

/-- Each round but the last retrieves a line. -/
def parseRequest (receiveTime : ℤ) (c : HttpContext) (b : Buffer) :
    Option (Bool × HttpContext × Buffer) :=
  parseLoop receiveTime (b.readableBytes + 1) c b

end HttpContext

end PpDSCache.Http
