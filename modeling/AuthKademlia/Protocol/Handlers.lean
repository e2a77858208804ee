import AuthKademlia.Crawling.StableNetwork
import AuthKademlia.Protocol.Effects

/-! # What a node does with a request that carries a record

STORE with its network check, UPDATE and UpdateStatusList, and the calls of the
same messages to other nodes. FIND_VALUE changes nothing; it is a function of
the record served and the routing table. -/
namespace AuthKademlia.Protocol
open AuthKademlia.Lib.Async AuthKademlia.Utils AuthKademlia.Storage AuthKademlia.AuthHandler
open AuthKademlia.Crawling AuthKademlia.Routing

/-- `store_needs_lookup`: a STORE for a DID this node does not hold. -/
def storeNeedsLookup (srv : Server) (key : NodeId) : Routine Bool :=
  if key = srv.statusKey then return false
  else do return (← storageGet key).isNone

/-- The verification and the write of `rpc_store`. -/
def storeVerified (srv : Server) (source : Node) (key : NodeId) (value : Bytes) :
    Routine (Option StoreStatus) := do
  if !(← verifyRecord srv key value) then return some .invalidRecord
  let status := StoreStatus.ofWrite (← insertIfAbsent key value)
  if status = .stored ∨ status = .alreadyStored then
    scheduleWelcome source
    return some status
  else return some status

/-- `rpc_store`; no answer when an empty replica could not find out what the
network holds. -/
def rpcStore (srv : Server) (senderId : NodeId) (senderAddr : Addr) (key : NodeId)
    (value : Bytes) : Routine (Option StoreStatus) := do
  let source : Node := ⟨senderId, some senderAddr.1, some senderAddr.2⟩
  if ← storeNeedsLookup srv key then
    if !isBoundToKey srv key value then return some .invalidRecord
    match ← askNetwork key value with
    | .noneOrSame => storeVerified srv source key value
    | .other => return some .conflict
    | .unknown => return none
  else storeVerified srv source key value

/-- `rpc_update`: read the record, verify the rotation against that copy, write. -/
def rpcUpdate (srv : Server) (senderId : NodeId) (senderAddr : Addr) (key : NodeId)
    (value authSignature : Bytes) : Routine Bool := do
  if key = srv.statusKey then return false
  match ← storageGet key with
  | none => return false
  | some oldValue =>
    against key oldValue
    -- a retry of an update this replica already applied
    if oldValue = value then return true
    if !(← verifyRotation srv key value oldValue authSignature) then return false
    scheduleWelcome ⟨senderId, some senderAddr.1, some senderAddr.2⟩
    return (← storageSet key value) ≠ .capacityExceeded

def rpcUpdateStatusList (srv : Server) (senderId : NodeId) (senderAddr : Addr) (key : NodeId)
    (value : Bytes) : Routine Bool := do
  if key ≠ srv.statusKey then return false
  if (← storageGet key).isNone then return false
  if !(← verifyIssuerSigned srv value) then return false
  scheduleWelcome ⟨senderId, some senderAddr.1, some senderAddr.2⟩
  return (← storageSet key value) ≠ .capacityExceeded

/-- `rpc_find_value`, as `call_find_value` hands its answer to a lookup: the record
that the store serves, if it is bound to the key, and else the closest contacts. -/
def rpcFindValue (srv : Server) (record : Option Bytes) (t : RoutingTable) (source : Node)
    (key : NodeId) : RawResponse :=
  match record with
  | some value =>
    if isBoundToKey srv key value then ⟨true, .value value⟩
    else StableNetwork.foundNodes (t.findNeighborsToAdvertise (.fromId key) (some source))
  | none => StableNetwork.foundNodes (t.findNeighborsToAdvertise (.fromId key) (some source))

theorem rpcFindValue_cases (srv : Server) (record : Option Bytes) (t : RoutingTable)
    (source : Node) (key : NodeId) :
    (∃ value, rpcFindValue srv record t source key = ⟨true, .value value⟩) ∨
      rpcFindValue srv record t source key = StableNetwork.foundNodes
        (t.findNeighborsToAdvertise (.fromId key) (some source)) := by
  unfold rpcFindValue
  split
  · split
    · exact Or.inl ⟨_, rfl⟩
    · exact Or.inr rfl
  · exact Or.inr rfl

/-- `dispatch_request`, for the requests that carry a record. -/
def dispatchRequest (srv : Server) (peer : Addr) : RpcMessage → Routine (Option RpcMessage)
  | .store senderId key value => do
    return (← rpcStore srv senderId peer key value).map .storeResult
  | .update senderId key value authSignature => do
    return some (.updateResult (← rpcUpdate srv senderId peer key value authSignature))
  | .updateStatusList senderId key value => do
    return some (.updateStatusListResult (← rpcUpdateStatusList srv senderId peer key value))
  | .storeResult _ | .updateResult _ | .updateStatusListResult _ => return none

/-- Handle a request and send the answer, if there is one. -/
def handleRequest (srv : Server) (peer : Addr) (msg : RpcMessage) :
    Routine (Option RpcMessage) := do
  match ← dispatchRequest srv peer msg with
  | some answer =>
    respond answer
    return some answer
  | none => return none

/-- What the handler of a message may do: it waits for nobody's answer, and it
writes over a record only if the message updates the key. -/
def Handling (msg : RpcMessage) : Op → Prop
  | .send _ _ | .receive _ => False
  | .storageSet key _ => match msg with
    | .update _ k _ _ | .updateStatusList _ k _ => key = k
    | _ => False
  | _ => True

theorem handling_of_isRead (msg : RpcMessage) (o : Op) (h : o.isRead = true) : Handling msg o := by
  cases o <;> trivial

theorem rpcStore_handling (srv : Server) (senderId : NodeId) (peer : Addr) (key : NodeId)
    (value : Bytes) :
    Prog.Within (Handling (.store senderId key value)) (rpcStore srv senderId peer key value) := by
  have hverified : ∀ source, Prog.Within (Handling (.store senderId key value))
      (storeVerified srv source key value) := by
    intro source
    refine .bind ((verifyRecord_reads srv key value).imp (handling_of_isRead _)) fun ok => ?_
    split
    · exact .pure _
    refine .bind (.perform trivial) fun st => ?_
    simp only
    split
    · exact .bind (.perform trivial) fun _ => .pure _
    · exact .pure _
  have hlookup : Prog.Within (Handling (.store senderId key value)) (storeNeedsLookup srv key) := by
    unfold storeNeedsLookup
    split
    · exact .pure _
    · exact .bind (.perform trivial) fun _ => .pure _
  refine .bind hlookup fun needed => ?_
  split
  · split
    · exact .pure _
    · refine .bind (.perform trivial) fun copy => ?_
      cases copy with
      | noneOrSame => exact hverified _
      | other => exact .pure _
      | unknown => exact .pure _
  · exact hverified _

theorem rpcUpdate_handling (srv : Server) (senderId : NodeId) (peer : Addr) (key : NodeId)
    (value auth : Bytes) : Prog.Within (Handling (.update senderId key value auth))
      (rpcUpdate srv senderId peer key value auth) := by
  unfold rpcUpdate
  split
  · exact .pure _
  refine .bind (.perform trivial) fun found => ?_
  split
  · exact .pure _
  refine .bind (.perform trivial) fun _ => ?_
  split
  · exact .pure _
  refine .bind (.perform trivial) fun ok => ?_
  split
  · exact .pure _
  exact .bind (.perform trivial) fun _ => .bind (.perform rfl) fun _ => .pure _

theorem rpcUpdateStatusList_handling (srv : Server) (senderId : NodeId) (peer : Addr)
    (key : NodeId) (value : Bytes) : Prog.Within (Handling (.updateStatusList senderId key value))
      (rpcUpdateStatusList srv senderId peer key value) := by
  unfold rpcUpdateStatusList
  split
  · exact .pure _
  refine .bind (.perform trivial) fun found => ?_
  split
  · exact .pure _
  refine .bind (.perform trivial) fun ok => ?_
  split
  · exact .pure _
  exact .bind (.perform trivial) fun _ => .bind (.perform rfl) fun _ => .pure _

theorem handleRequest_handling (srv : Server) (peer : Addr) (msg : RpcMessage) :
    Prog.Within (Handling msg) (handleRequest srv peer msg) := by
  have hdispatch : Prog.Within (Handling msg) (dispatchRequest srv peer msg) := by
    cases msg with
    | store senderId key value => exact .bind (rpcStore_handling ..) fun _ => .pure _
    | update senderId key value auth => exact .bind (rpcUpdate_handling ..) fun _ => .pure _
    | updateStatusList senderId key value =>
      exact .bind (rpcUpdateStatusList_handling ..) fun _ => .pure _
    | storeResult status => exact .pure _
    | updateResult ok => exact .pure _
    | updateStatusListResult ok => exact .pure _
  refine .bind hdispatch fun ans => ?_
  split
  · exact .bind (.perform trivial) fun _ => .pure _
  · exact .pure _

/-! ## Calls to other nodes -/

/-- Send a request to a node and wait for the answer. A node without an address
cannot be asked. -/
def call (peer : Node) (msg : RpcMessage) : Routine (Option RpcMessage) :=
  match peer.address with
  | none => return none
  | some addr => do receive (← send addr msg)

def callStoreRpc (srv : Server) (peer : Node) (key : NodeId) (value : Bytes) :
    Routine (Option StoreStatus) := do
  match ← call peer (.store srv.node.id key value) with
  | some (.storeResult status) => return some status
  | _ => return none

/-- `call_update_rpc_answer`: a refusal is `some false`, no answer is `none`. -/
def callUpdateRpcAnswer (srv : Server) (peer : Node) (key : NodeId)
    (value authSignature : Bytes) : Routine (Option Bool) := do
  match ← call peer (.update srv.node.id key value authSignature) with
  | some (.updateResult ok) => return some ok
  | _ => return none

def callStatusListUpdateRpc (srv : Server) (peer : Node) (key : NodeId) (value : Bytes) :
    Routine Bool := do
  match ← call peer (.updateStatusList srv.node.id key value) with
  | some (.updateStatusListResult ok) => return ok
  | _ => return false

/-! A call sends its message and waits. -/

section
variable {ok : Op → Prop} {srv : Server} {peer : Node} {key : NodeId} {value : Bytes}
  (hwait : ∀ id, ok (.receive id))
include hwait

theorem call_within {msg : RpcMessage} (hsend : ∀ addr, ok (.send addr msg)) :
    Prog.Within ok (call peer msg) := by
  unfold call
  split
  · exact .pure _
  · exact .bind (.perform (hsend _)) fun _ => .perform (hwait _)

theorem callStoreRpc_within (hsend : ∀ addr, ok (.send addr (.store srv.node.id key value))) :
    Prog.Within ok (callStoreRpc srv peer key value) := by
  refine .bind (call_within hwait hsend) fun answer => ?_
  split
  · exact .pure _
  · exact .pure _

theorem callUpdateRpcAnswer_within {auth : Bytes}
    (hsend : ∀ addr, ok (.send addr (.update srv.node.id key value auth))) :
    Prog.Within ok (callUpdateRpcAnswer srv peer key value auth) := by
  refine .bind (call_within hwait hsend) fun answer => ?_
  split
  · exact .pure _
  · exact .pure _

theorem callStatusListUpdateRpc_within
    (hsend : ∀ addr, ok (.send addr (.updateStatusList srv.node.id key value))) :
    Prog.Within ok (callStatusListUpdateRpc srv peer key value) := by
  refine .bind (call_within hwait hsend) fun answer => ?_
  split
  · exact .pure _
  · exact .pure _

end

end AuthKademlia.Protocol
