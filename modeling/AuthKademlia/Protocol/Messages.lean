import AuthKademlia.Protocol.Handlers

/-! # All messages, and the answers they expect

The messages without a record, `dispatch_request` for every request, and the table
of expected answers. `dispatch_accepted` says that the table is in step with the
handlers. -/
namespace AuthKademlia.Protocol
open AuthKademlia.Lib.Async AuthKademlia.Utils AuthKademlia.Routing

/-- `RpcMessage`, with the messages that carry a record and their answers as one case. -/
inductive Message where
  | record (msg : RpcMessage)
  | ping (senderId : NodeId)
  | pong (senderId : NodeId)
  | findNode (senderId key : NodeId)
  | findNodeResult (nodes : List Node)
  | findValue (senderId key : NodeId)
  | findValueNodes (nodes : List Node)
  | findValueHit (value : Bytes)
  | leave (senderId : NodeId)
  | findHash (senderId key : NodeId)
  | findHashHit (hash : Bytes)
  | received
  deriving DecidableEq

inductive ExpectedResponse where
  | pong
  | storeResult
  | updateResult
  | updateStatusListResult
  | findNodeResult
  | findValueResult
  | findHashResult
  | noResponse
  deriving DecidableEq

namespace ExpectedResponse

def forRequest : Message → ExpectedResponse
  | .ping _ => .pong
  | .record (.store _ _ _) => .storeResult
  | .record (.update _ _ _ _) => .updateResult
  | .record (.updateStatusList _ _ _) => .updateStatusListResult
  | .findNode _ _ => .findNodeResult
  | .findValue _ _ => .findValueResult
  | .findHash _ _ => .findHashResult
  | .leave _ => .noResponse
  | .pong _ | .record (.storeResult _) | .record (.updateResult _)
  | .record (.updateStatusListResult _) | .findNodeResult _ | .findValueNodes _
  | .findValueHit _ | .findHashHit _ | .received => .noResponse

def accepts : ExpectedResponse → Message → Bool
  | .pong, .pong _ => true
  | .storeResult, .record (.storeResult _) => true
  | .updateResult, .record (.updateResult _) => true
  | .updateStatusListResult, .record (.updateStatusListResult _) => true
  | .findNodeResult, .findNodeResult _ => true
  | .findValueResult, .findValueHit _ | .findValueResult, .findValueNodes _ => true
  | .findHashResult, .findHashHit _ | .findHashResult, .findValueNodes _ => true
  | _, _ => false

/-- Does the request get a receipt before its answer? -/
def afterReceipt : ExpectedResponse → Bool
  | .storeResult | .updateResult | .updateStatusListResult => true
  | _ => false

end ExpectedResponse

/-- The record a request carries, if any. -/
def carriedRecord : Message → Option Bytes
  | .record (.store _ _ value) | .record (.update _ _ value _)
  | .record (.updateStatusList _ _ value) => some value
  | _ => none

theorem afterReceipt_iff (request : Message) :
    (ExpectedResponse.forRequest request).afterReceipt = (carriedRecord request).isSome := by
  cases request with
  | record msg => cases msg <;> rfl
  | ping | pong | findNode | findNodeResult | findValue | findValueNodes | findValueHit | leave
  | findHash | findHashHit | received => rfl

inductive FindValueResult where
  | nodes (nodes : List Node)
  | value (value : Bytes)

/-- `rpc_find_value` with a routing table `t`. -/
def findValueResult (srv : Server) (t : RoutingTable) (source : Node) (key : NodeId) :
    Routine FindValueResult := do
  scheduleWelcome source
  let closest := FindValueResult.nodes (t.findNeighborsToAdvertise (.fromId key) (some source))
  match ← storageGet key with
  | some value => if isBoundToKey srv key value then return .value value else return closest
  | none => return closest

/-- `dispatch_request` for every message, with a routing table `t`. LEAVE may remove the
sender from that table, and is not answered. -/
def dispatchMessage (srv : Server) (t : RoutingTable) (peer : Addr) :
    Message → Routine (Option Message)
  | .record msg => do return (← dispatchRequest srv peer msg).map .record
  | .ping senderId => do
    scheduleWelcome ⟨senderId, some peer.1, some peer.2⟩
    return some (.pong srv.node.id)
  | .findNode senderId key => do
    let source : Node := ⟨senderId, some peer.1, some peer.2⟩
    scheduleWelcome source
    return some (.findNodeResult (t.findNeighborsToAdvertise (.fromId key) (some source)))
  | .findValue senderId key => do
    match ← findValueResult srv t ⟨senderId, some peer.1, some peer.2⟩ key with
    | .value value => return some (.findValueHit value)
    | .nodes nodes => return some (.findValueNodes nodes)
  | .findHash senderId key => do
    match ← findValueResult srv t ⟨senderId, some peer.1, some peer.2⟩ key with
    | .value value => return some (.findHashHit (srv.platform.hashes.sha256 value))
    | .nodes nodes => return some (.findValueNodes nodes)
  | .leave _ => return none
  | .pong _ | .findNodeResult _ | .findValueNodes _ | .findValueHit _ | .findHashHit _
  | .received => return none

private theorem returns_bind {α β : Type} {p : Routine α} {f : α → Routine β} {b : β}
    (h : (p >>= f).Returns b) : ∃ a, p.Returns a ∧ (f a).Returns b := Prog.Returns.of_bind h

private theorem returns_pure {α : Type} {a b : α} (h : (pure a : Routine α).Returns b) : a = b := h

theorem dispatchRequest_accepted (srv : Server) (peer : Addr) (request : RpcMessage)
    {answer : RpcMessage} (h : (dispatchRequest srv peer request).Returns (some answer)) :
    (ExpectedResponse.forRequest (.record request)).accepts (.record answer) = true := by
  cases request with
  | store senderId key value =>
    obtain ⟨status, -, h⟩ := returns_bind h
    obtain ⟨st, -, rfl⟩ := Option.map_eq_some_iff.mp (returns_pure h)
    rfl
  | update senderId key value authSignature =>
    obtain ⟨ok, -, h⟩ := returns_bind h
    obtain rfl := Option.some.inj (returns_pure h)
    rfl
  | updateStatusList senderId key value =>
    obtain ⟨ok, -, h⟩ := returns_bind h
    obtain rfl := Option.some.inj (returns_pure h)
    rfl
  | storeResult | updateResult | updateStatusListResult => cases returns_pure h

/-- **Whatever a handler answers, the sender expects.** -/
theorem dispatch_accepted (srv : Server) (t : RoutingTable) (peer : Addr) (request : Message)
    {answer : Message} (h : (dispatchMessage srv t peer request).Returns (some answer)) :
    (ExpectedResponse.forRequest request).accepts answer = true := by
  cases request with
  | record msg =>
    obtain ⟨found, hfound, h⟩ := returns_bind h
    obtain ⟨a, rfl, rfl⟩ := Option.map_eq_some_iff.mp (returns_pure h)
    exact dispatchRequest_accepted srv peer msg hfound
  | ping senderId | findNode senderId key =>
    obtain ⟨-, -, h⟩ := returns_bind h
    obtain rfl := Option.some.inj (returns_pure h)
    rfl
  | findValue senderId key | findHash senderId key =>
    obtain ⟨found, -, h⟩ := returns_bind h
    cases found with
    | nodes nodes | value value =>
      obtain rfl := Option.some.inj (returns_pure h)
      rfl
  | leave | pong | findNodeResult | findValueNodes | findValueHit | findHashHit | received =>
    cases returns_pure h

end AuthKademlia.Protocol
