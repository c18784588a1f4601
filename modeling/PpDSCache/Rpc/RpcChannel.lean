import PpDSCache.Cpp.Text

/-!
# Remote calls over a connection

Both ends of a connection have a channel, which makes calls and serves those of
the other end.  Calls come from any thread, and a service answers a call when
it likes, so the steps of `CallMethod` and the closures of the services
interleave with the messages that arrive.  The codec and the connection deliver
messages in the order in which they are sent.
-/

namespace PpDSCache.Rpc

open Cpp

inductive MessageType where
  | REQUEST
  | RESPONSE
  | ERROR
  deriving DecidableEq

inductive ErrorCode where
  | NO_ERROR
  | WRONG_PROTO
  | NO_SERVICE
  | NO_METHOD
  | INVALID_REQUEST
  | INVALID_RESPONSE
  | TIMEOUT
  deriving DecidableEq

structure RpcMessage where
  type : MessageType
  id : ℕ
  service : Option Text
  method : Option Text
  request : Option Text
  response : Option Text
  error : Option ErrorCode
  deriving DecidableEq

/-- What a caller asks for.  Its response object is one of its own. -/
structure RpcCall where
  service : Text
  method : Text
  request : Text
  hasDone : Bool
  deriving DecidableEq

/-- A request handed to a service, whose closure has not been run. -/
structure Running where
  id : ℕ
  service : Text
  method : Text
  request : Text
  deriving DecidableEq

/-- A call whose response has arrived: the response object was parsed from the
bytes if there are any, and the closure was run if there is one. -/
structure Completed where
  id : ℕ
  call : RpcCall
  response : Option Text
  deriving DecidableEq

/-- By the name of a service and of a method, whether the bytes of a request
can be parsed. -/
abbrev Services := Text → Option (Text → Option (Text → Bool))

structure RpcChannel where
  /-- `id_`, a number of 64 bits -/
  id : ℕ
  outstandings : ℕ → Option RpcCall
  services : Option Services
  /-- calls in `CallMethod` in front of the lock -/
  starting : List (ℕ × RpcCall)
  /-- calls in `CallMethod` behind the lock -/
  registered : List (ℕ × RpcCall)
  running : List Running
  completed : List Completed
  /-- a record of all calls of `CallMethod`, in the order of their ids -/
  calls : List RpcCall
  /-- the closures that were run, with their responses -/
  answered : List (Running × Text)

namespace RpcChannel

def new (services : Option Services) : RpcChannel :=
  ⟨0, fun _ ↦ none, services, [], [], [], [], [], []⟩

/-! ## Calling -/

/-- `incrementAndGet` -/
def takeId (call : RpcCall) (c : RpcChannel) : RpcChannel :=
  let id := (c.id + 1) % 2 ^ 64
  { c with id := id, starting := c.starting ++ [(id, call)], calls := c.calls ++ [call] }

def register (k : ℕ) (c : RpcChannel) : Option RpcChannel := do
  let p ← c.starting[k]?
  pure { c with
    starting := c.starting.eraseIdx k
    outstandings := Function.update c.outstandings p.1 (some p.2)
    registered := c.registered ++ [p] }

def requestMessage (id : ℕ) (call : RpcCall) : RpcMessage :=
  ⟨.REQUEST, id, some call.service, some call.method, some call.request, none, none⟩

/-- The call is sent. -/
def sendRequest (k : ℕ) (c : RpcChannel) : Option (RpcChannel × List RpcMessage) := do
  let p ← c.registered[k]?
  pure ({ c with registered := c.registered.eraseIdx k }, [requestMessage p.1 p.2])

/-! ## Serving -/

def findError (services : Option Services) (service method request : Text) : ErrorCode :=
  match services with
  | none => .NO_SERVICE
  | some services =>
      match services service with
      | none => .NO_SERVICE
      | some methods =>
          match methods method with
          | none => .NO_METHOD
          | some parses => if parses request = true then .NO_ERROR else .INVALID_REQUEST

def errorMessage (id : ℕ) (error : ErrorCode) : RpcMessage :=
  ⟨.RESPONSE, id, none, none, none, none, some error⟩

def responseMessage (id : ℕ) (response : Text) : RpcMessage :=
  ⟨.RESPONSE, id, none, none, none, some response, none⟩

/-- The channel, and what it sends. -/
def onRpcMessage (m : RpcMessage) (c : RpcChannel) : Option (RpcChannel × List RpcMessage) :=
  match m.type with
  | .RESPONSE => do
      guard (m.response.isSome = true ∨ m.error.isSome = true)
      match c.outstandings m.id with
      | some out =>
          pure ({ c with
            outstandings := Function.update c.outstandings m.id none
            completed := c.completed ++ [⟨m.id, out, m.response⟩] }, [])
      | none => pure (c, [])
  | .REQUEST =>
      let service := m.service.getD []
      let method := m.method.getD []
      let request := m.request.getD []
      let error := findError c.services service method request
      if error = .NO_ERROR then
        some ({ c with running := c.running ++ [⟨m.id, service, method, request⟩] }, [])
      else some (c, [errorMessage m.id error])
  | .ERROR => some (c, [])

/-- A service runs the closure of a request. -/
def doneCallback (k : ℕ) (response : Text) (c : RpcChannel) :
    Option (RpcChannel × List RpcMessage) := do
  let r ← c.running[k]?
  pure ({ c with
    running := c.running.eraseIdx k
    answered := c.answered ++ [(r, response)] }, [responseMessage r.id response])

end RpcChannel

/-! ## The two ends -/

structure RpcPair where
  chan : Bool → RpcChannel
  /-- what an end has sent and the other has not received -/
  link : Bool → List RpcMessage

inductive RpcAct where
  | takeId (side : Bool) (call : RpcCall)
  | register (side : Bool) (k : ℕ)
  | sendRequest (side : Bool) (k : ℕ)
  | receive (side : Bool)
  | doneCallback (side : Bool) (k : ℕ) (response : Text)

namespace RpcPair

def new (services : Bool → Option Services) : RpcPair :=
  ⟨fun side ↦ .new (services side), fun _ ↦ []⟩

/-- One end changes and sends something. -/
def act (side : Bool) (p : RpcChannel × List RpcMessage) (s : RpcPair) : RpcPair :=
  ⟨Function.update s.chan side p.1, Function.update s.link side (s.link side ++ p.2)⟩

/-- One end takes the first message of the other. -/
def take (side : Bool) (rest : List RpcMessage) (s : RpcPair) : RpcPair :=
  { s with link := Function.update s.link (!side) rest }

def exec (a : RpcAct) (s : RpcPair) : Option RpcPair :=
  match a with
  | .takeId side call => some (s.act side ((s.chan side).takeId call, []))
  | .register side k => ((s.chan side).register k).map fun c ↦ s.act side (c, [])
  | .sendRequest side k => ((s.chan side).sendRequest k).map fun p ↦ s.act side p
  | .receive side =>
      match s.link (!side) with
      | [] => none
      | m :: ms => ((s.chan side).onRpcMessage m).map fun p ↦ (s.take side ms).act side p
  | .doneCallback side k response =>
      ((s.chan side).doneCallback k response).map fun p ↦ s.act side p

end RpcPair

end PpDSCache.Rpc
