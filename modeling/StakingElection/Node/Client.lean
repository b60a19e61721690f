import StakingElection.Journal
import StakingElection.Node.Endpoint
import StakingElection.State.Export

/-!
# Clients of a node

A client asks a node by numbered requests within a session. It opens a session when it needs one,
and closes those it has opened. Connecting means to ask for the name of the chain until there is an
answer; whatever else goes wrong with a request is a failure for the caller.
-/

namespace StakingElection.Node

/-- The session of a client. -/
inductive Session where
  | none
  | owned
  /-- A session that someone else opened and closes. -/
  | borrowed
  deriving Repr, DecidableEq

structure Client where
  uri : Value
  session : Session
  /-- The number of the next request. -/
  nextId : Nat

/-- A new client. -/
def Client.ofUri (uri : Value) : Client := ⟨uri, .none, 1⟩

/-- A client and the endpoint that it talks to. -/
structure Link where
  endpoint : Endpoint
  client : Client

namespace Link

def record (l : Link) (e : Event) : Link := { l with endpoint := l.endpoint.record e }

/-- The link with a session. -/
def openSession (l : Link) : Link :=
  if l.client.session = .none then
    { l.record .opened with client := { l.client with session := .owned } }
  else l

/-- The link without a session. -/
def closeSession (l : Link) : Link :=
  let l := if l.client.session = .owned then l.record .closed else l
  { l with client := { l.client with session := .none } }

/-- The text of a request. -/
def payload (id : Nat) (method : String) (params : List Value) : Value :=
  .object [("jsonrpc", .text "2.0"), ("id", .int id), ("method", .text method),
    ("params", .list params)]

/-- The link once a request is sent and its reply has come. -/
def send (l : Link) (method : String) (params : List Value) : Link :=
  let l := l.openSession
  let sent := l.record (.sent l.client.uri (payload l.client.nextId method params))
  { sent with
    endpoint := sent.endpoint.advance
    client := { sent.client with nextId := sent.client.nextId + 1 } }

end Link

/-! ## Requests -/

def source : String := "timetravel.rpc"

def exportMethod : String := "timetravel_exportStakingState"

/-- A failure without a code. -/
def plain (text : String) : Failure := .rpc text .null

/-- The result in the body of an answer. -/
def resultOfBody (method : String) (body : Value) : Except Failure Value :=
  match body with
  | .object fields =>
    match (fields.lookup "error").getD .null with
    | .null =>
      match fields.lookup "result" with
      | some result => .ok result
      | none => .error (plain s!"{method}: response without result")
    | .object e =>
      .error (.rpc ((e.lookup "message").getD (.object e)).toText ((e.lookup "code").getD .null))
    | other => .error (.decode (.wrongKind other.kindName))
  | _ => .error (plain s!"{method}: malformed response")

/-- The result in a reply. -/
def resultOfReply (method : String) : Reply → Except Failure Value
  | .disconnected text => .error (plain s!"{method}: {text}")
  | .silent => .error .timeout
  | .answer status body =>
    if status ≠ 200 then .error (plain s!"{method}: HTTP {status}")
    else do resultOfBody method (← body.mapError .json)

/-- Sends a request; gives the result. -/
def request (method : String) (params : List Value) : Task Link Value := do
  let reply := (← get).endpoint.next
  modify (·.send method params)
  Task.ofExcept id (resultOfReply method reply)

def close : Task Link Unit := modify Link.closeSession

/-- The name of the chain. -/
def systemChain : Task Link String := do
  return (← request "system_chain" []).toText

/-- The hash of a block, the latest one without a number. -/
def blockHash (number : Option Value) : Task Link String := do
  let result ← request "chain_getBlockHash" number.toList
  if result.isNull then
    throw (plain s!"no block hash for block {(number.getD .null).toText}")
  return result.toText

/-- The profile of the chain. -/
def chainProfile : Task Link Profile := do
  let chain ← systemChain
  Task.log .info source s!"connected to chain {Text.quoted chain}"
  Task.ofExcept id (Profile.ofValue (.text chain))

/-- Whether a fault is one of the content of an export, and not of its form. -/
def isMalformed : DecodeFault → Bool
  | .wrongKind _ => false
  | .infinityToInteger => false
  | _ => true

/-- The state of an export; an export without a block hash is that of the block it was asked for. -/
def stateOfExport (hash raw : Value) : Except Failure StakingState :=
  match raw with
  | .object fields =>
    let fields :=
      if (fields.lookup "block_hash").isSome then fields
      else fields ++ [("block_hash", hash)]
    match StakingState.ofValue (.object fields) with
    | .error (.decode fault) =>
      if isMalformed fault then
        .error (plain s!"{exportMethod}: malformed state for {hash.toText}: {fault.message}")
      else .error (.decode fault)
    | result => result
  | _ => .error (plain s!"{exportMethod}: expected an object for {hash.toText}")

/-- The state at a block. -/
def exportState (hash : Value) : Task Link StakingState := do
  let raw ← request exportMethod [hash]
  Task.ofExcept id (stateOfExport hash raw)

/-- The states at blocks. All of them are asked for, and the first failure counts. -/
def fetchStates (hashes : List Value) : Task Link (List StakingState) := do
  let results ← hashes.mapM fun hash => Task.attempt (exportState hash)
  Task.ofExcept id (results.mapM id)

/-! ## Connecting -/

/-- How many attempts to connect are made at most. -/
inductive AttemptLimit where
  | endless
  /-- The attempt with this number is the last, and the first one if there is none. -/
  | upTo (n : Nat)
  /-- A limit of this kind is no number. -/
  | unusable (kind : String)
  deriving Repr, DecidableEq

namespace AttemptLimit

/-- The limit that a value stands for; what counts as not given is none, and no count comes up to
infinity or to what is no number. -/
def ofValue (v : Value) : AttemptLimit :=
  if !v.isGiven then endless
  else
    match v.toNumber with
    | .error _ => unusable v.kindName
    | .ok (.whole i) => upTo i.toNat
    | .ok (.fraction x) =>
      match x.ceil? with
      | some i => upTo i.toNat
      | none => if x = .infinite true then upTo 0 else endless

/-- Whether an attempt is the last one. -/
def isReached (l : AttemptLimit) (attempt : Nat) : Except DecodeFault Bool :=
  match l with
  | endless => .ok false
  | upTo n => .ok (n ≤ attempt)
  | unusable kind => .error (.unusable kind)

/-- How many attempts a limit leaves for sure. -/
def count : AttemptLimit → Nat
  | upTo n => n
  | _ => 0

end AttemptLimit

/-- Whether a time in seconds can be waited for: not below zero or too large to be a fraction. -/
def waits (seconds : Value) : Except DecodeFault Bool := do
  match ← seconds.toNumber with
  | .whole i =>
    if i ≤ 0 then return false
    match Binary64.ofInt i with
    | .infinite _ => throw .integerToFraction
    | _ => return true
  | x => return !x.isAtMost 0

/-- Whether a limit on the time of an attempt leaves any; none is no limit. -/
def hasTime : Value → Except DecodeFault Bool
  | .null => .ok true
  | limit => waits limit

/-- Whether connecting goes on after a failure. -/
def isTransient : Failure → Bool
  | .rpc .. => true
  | .timeout => true
  | _ => false

/-- A failure as it is shown in a message. -/
def shownFailure (f : Failure) : String :=
  match f with
  | .timeout => "TimeoutError()"
  | f => s!"RpcError({Text.quoted f.message})"

/-- How to connect. What is of no use is a fault only where it is used. -/
structure Retry where
  /-- How many attempts are made at most. -/
  limit : AttemptLimit
  /-- Whether the limit on the time of an attempt leaves any. -/
  hasTime : Except DecodeFault Bool
  /-- The pause between attempts. -/
  pause : Except DecodeFault Unit

/-- One attempt to connect: the outcome and the client. Without time for it nothing is sent. -/
def attemptConnect (uri : Value) (hasTime : Except DecodeFault Bool) :
    Task Endpoint (Except Failure Unit × Client) :=
  Task.ofRun fun endpoint journal =>
    let ask : Task Link Unit := do
      if ← Task.ofExcept .decode hasTime then discard systemChain else throw .timeout
    let r := Task.run ask ⟨endpoint, Client.ofUri uri⟩ journal
    ⟨.ok (r.result, r.state.client), r.state.endpoint, r.journal⟩

/-- Tries to connect, each time with a new client; one that fails is closed. The last failure of the
limit is final. Of `fuel` attempts the last one is at the end of what is known of the endpoint. -/
def connectFrom (uri : Value) (retry : Retry) :
    (fuel : Nat) → (attempt : Nat) → Task Endpoint Client
  | 0, _ => throw .timeout
  | fuel + 1, attempt => do
    match ← attemptConnect uri retry.hasTime with
    | (.ok _, client) => return client
    | (.error f, client) =>
      if !isTransient f then throw f
      modify fun endpoint => (Link.closeSession ⟨endpoint, client⟩).endpoint
      if ← Task.ofExcept .decode (retry.limit.isReached attempt) then
        throw (plain s!"could not connect to {uri.toText}: {f.message}")
      Task.log .warning source
        s!"failed to connect to client due to {shownFailure f}, retrying soon.."
      Task.ofExcept .decode retry.pause
      modify (·.record .paused)
      connectFrom uri retry fuel (attempt + 1)

/-- Connects to a node. Without a limit attempts go on as long as the endpoint has something to say.
-/
def connect (uri : Value) (retry : Retry) : Task Endpoint Client := do
  connectFrom uri retry (max ((← get).replies.length + 1) retry.limit.count) 1

end StakingElection.Node
