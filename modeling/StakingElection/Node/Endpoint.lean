import StakingElection.Json.Parser
import StakingElection.Text.Integer

/-!
# Endpoints

An endpoint answers one request after the other with what it has to say next; where that is used up
it fails. What happens at it is kept in order: sessions that are opened and closed, requests, and
pauses.
-/

namespace StakingElection.Node

/-- An answer of an endpoint. -/
inductive Reply where
  /-- A status and a body, as far as that can be read. -/
  | answer (status : Int) (body : Except Json.Fault Value)
  /-- The connection failed. -/
  | disconnected (text : String)
  /-- Nothing came in time. -/
  | silent

/-- The body of a text; a blank text is nothing. -/
def bodyOfText (text : String) : Except Json.Fault Value :=
  if Text.strip text = "" then .ok .null else Json.parse text

/-- What happens at an endpoint. -/
inductive Event where
  | opened
  | sent (uri : Value) (payload : Value)
  | closed
  | paused

/-- An endpoint: what it says next, what it says when that is used up, and what happened. -/
structure Endpoint where
  replies : List Reply
  afterwards : Reply
  events : List Event

namespace Endpoint

/-- An endpoint where nothing has happened. -/
def ofReplies (replies : List Reply) (afterwards : Reply) : Endpoint := ⟨replies, afterwards, []⟩

def record (e : Endpoint) (event : Event) : Endpoint := { e with events := e.events ++ [event] }

/-- The next reply. -/
def next (e : Endpoint) : Reply := e.replies.headD e.afterwards

/-- The endpoint once its next reply is gone. -/
def advance (e : Endpoint) : Endpoint := { e with replies := e.replies.drop 1 }

/-- All requests. -/
def requests (e : Endpoint) : List (Value × Value) :=
  e.events.filterMap fun
    | .sent uri payload => some (uri, payload)
    | _ => none

/-- How many sessions were closed. -/
def closedSessions (e : Endpoint) : Nat :=
  (e.events.filter fun
    | .closed => true
    | _ => false).length

end Endpoint

end StakingElection.Node
