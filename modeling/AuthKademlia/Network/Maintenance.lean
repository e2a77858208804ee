import AuthKademlia.Protocol.Effects

/-! # Background work that spreads records

Every hour a node sends its older records to the nodes closest to their keys
(`schedule_refresh`), and a node that just joined or came back is sent the
records it should hold (`replicate_to`). Both go out as STOREs. -/
namespace AuthKademlia.Network
open AuthKademlia.Utils AuthKademlia.Storage AuthKademlia.Crawling AuthKademlia.Routing

def idOfBytes (bytes : Bytes) : Option NodeId :=
  if h : bytes.length = idLen then some ⟨bytes, h⟩ else none

/-- Seconds between two passes, and the age from which a record is sent again. -/
def refreshInterval : Nat := 3600

/-- The STOREs of one pass of `schedule_refresh`. `found` is what the lookup of
each key returns; it is empty when the node has no neighbours to ask. -/
def republish (s : ForgetfulStorage) (now : Instant) (found : NodeId → List Node) :
    List (Node × NodeId × Bytes) :=
  (s.iterOlderThan now refreshInterval).flatMap fun (bytes, value) =>
    match idOfBytes bytes with
    | none => []
    | some key => (found key).map fun n => (n, key, value)

def shouldReplicate (selfNode : Node) (router : RoutingTable) (node : Node) (key : NodeId) : Bool :=
  let keyNode := Node.fromId key
  -- the node itself is none of the neighbours
  let neighbors := router.findNeighbors keyNode (some node)
  let newNodeClose := match neighbors.getLast? with
    | some last => node.distanceTo keyNode < last.distanceTo keyNode
    | none => true
  let thisClosest := match neighbors.head? with
    | some first => selfNode.distanceTo keyNode < first.distanceTo keyNode
    | none => true
  newNodeClose && thisClosest

def replicateTo (selfNode : Node) (router : NodeId → RoutingTable) (s : ForgetfulStorage)
    (now : Instant) (node : Node) : List (Node × NodeId × Bytes) :=
  -- the scan takes the table anew for every chunk of entries, so each key has its own
  (s.iterAll now).filterMap fun (bytes, value) =>
    match idOfBytes bytes with
    | none => none
    | some key =>
      if shouldReplicate selfNode (router key) node key then some (node, key, value) else none

end AuthKademlia.Network
