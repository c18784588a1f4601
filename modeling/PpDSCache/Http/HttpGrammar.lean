import PpDSCache.Http.HttpReader

/-!
# The requests that are accepted

The head of a request as text: the request line, the header lines and a line
without a colon, each with its line end.  The parser accepts these texts and no
others.
-/

namespace PpDSCache.Http

open Cpp Text Net

def Method.text : Method → Text
  | kInvalid => []
  | kGet => ascii "GET"
  | kPost => ascii "POST"
  | kHead => ascii "HEAD"
  | kPut => ascii "PUT"
  | kDelete => ascii "DELETE"

def Version.text : Version → Text
  | kUnknown => []
  | kHttp10 => ascii "HTTP/1.0"
  | kHttp11 => ascii "HTTP/1.1"

namespace HttpRequest

end HttpRequest

/-! ## Heads of requests -/

structure HeaderLine where
  field : Text
  /-- with the white space around it -/
  value : Text
  noColon : 58 ∉ field
  isLine : IsLine (field ++ 58 :: value)

def HeaderLine.text (h : HeaderLine) : Text := h.field ++ 58 :: h.value ++ crlf

structure RequestHead where
  method : Method
  target : Text
  version : Version
  headers : List HeaderLine
  /-- the line that ends the headers, empty in a proper request -/
  last : Text
  method_ne : method ≠ .kInvalid
  version_ne : version ≠ .kUnknown
  noSpace : 32 ∉ target
  requestLine_isLine : IsLine (method.text ++ 32 :: (target ++ 32 :: version.text))
  last_isLine : IsLine last
  last_noColon : 58 ∉ last

def addHeaders (headers : List HeaderLine) (r : HttpRequest) : HttpRequest :=
  headers.foldl (fun r h ↦ r.addHeader h.field h.value) r

namespace RequestHead

def text (head : RequestHead) : Text :=
  head.method.text ++ 32 :: (head.target ++ 32 :: head.version.text) ++ crlf ++
    (head.headers.map HeaderLine.text).flatten ++ head.last ++ crlf

/-- The request with the time its first line was read. -/
def request (receiveTime : ℤ) (head : RequestHead) : HttpRequest :=
  addHeaders head.headers
    { HttpRequest.setTarget head.target { HttpRequest.new with method := head.method } with
      version := head.version, receiveTime := receiveTime }

end RequestHead

namespace HttpContext

variable {b : Buffer} {d rest : Text} {r request : HttpRequest} {n : ℕ} {time : ℤ}

end HttpContext

end PpDSCache.Http
