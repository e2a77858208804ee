import AuthKademlia.AuthHandler
import AuthKademlia.Lib.Async
import AuthKademlia.Protocol.NetworkCopy
import AuthKademlia.Storage

/-! # What a node's tasks do to the world

Handlers and API calls are programs over the operations below, one for each
place where a task touches something shared or awaits something: the store, the
signature cache, a blocking verification, a lookup, a message. Tasks interleave
at these operations only. -/
namespace AuthKademlia.Protocol
open AuthKademlia.Lib.Async AuthKademlia.Utils AuthKademlia.Storage AuthKademlia.Crawling
open AuthKademlia.AuthHandler

/-- A reachable endpoint: `(ip, port)`. -/
abbrev Addr := String × UInt16

inductive StoreStatus where
  | stored
  | alreadyStored
  | conflict
  | capacityExceeded
  | invalidRecord
  deriving DecidableEq

def StoreStatus.ofWrite : StorageWriteStatus → StoreStatus
  | .stored => .stored
  | .alreadyStored => .alreadyStored
  | .conflict => .conflict
  | .capacityExceeded => .capacityExceeded

/-- The messages that carry a record, and their answers. -/
inductive RpcMessage where
  | store (senderId key : NodeId) (value : Bytes)
  | storeResult (status : StoreStatus)
  | update (senderId key : NodeId) (value authSignature : Bytes)
  | updateResult (ok : Bool)
  | updateStatusList (senderId key : NodeId) (value : Bytes)
  | updateStatusListResult (ok : Bool)
  deriving DecidableEq

/-- Trust root used while verifying a record. -/
inductive VerificationDomain where
  | selfSigned
  | issuerSigned
  deriving DecidableEq

def VerificationDomain.byte : VerificationDomain → UInt8
  | .selfSigned => 0
  | .issuerSigned => 1

def computeKey (hashes : Hashes) (domain : VerificationDomain) (value : Bytes) : Bytes :=
  hashes.sha256 (domain.byte :: value)

inductive Op where
  | storageGet (key : NodeId)
  | storageSet (key : NodeId) (value : Bytes)
  | insertIfAbsent (key : NodeId) (value : Bytes)
  | cacheGet (domain : VerificationDomain) (value : Bytes)
  | cacheInsert (domain : VerificationDomain) (value : Bytes) (result : Bool)
  /-- Await a blocking task that computes `result`; a task that dies gives `false`. -/
  | blocking (result : Bool)
  | networkCopy (key : NodeId) (value : Bytes)
  /-- `find_neighbors` of the routing table. -/
  | findNeighbors (key : NodeId)
  /-- `NodeSpiderCrawl::find_lookup_nodes`. -/
  | lookupNodes (key : NodeId) (seeds : List Node)
  /-- `ValueSpiderCrawl::find`. -/
  | lookupValue (key : NodeId) (seeds : List Node)
  /-- The values a `find_first_valid` receives, in order of arrival. -/
  | arrivals (key : NodeId) (seeds : List Node)
  /-- `ValueSpiderCrawl::find_quorum`. -/
  | findQuorum (key : NodeId) (seeds : List Node) (initial : List Bytes) (minimum maximum : Nat)
  /-- Does the node know contacts or seeds? -/
  | knowsOthers
  | scheduleWelcome (source : Node)
  /-- Send a request; the answer is the call's number. -/
  | send (peer : Addr) (msg : RpcMessage)
  /-- Wait for the answer to a call, or for its timeout. -/
  | receive (call : Nat)
  /-- Send the answer of a handler. -/
  | respond (msg : RpcMessage)
  /-- No effect: marks the responsible set that a publication or an update selected, and the
  lookup it selected it from. -/
  | select (key : NodeId) (lookup : LookupNodes) (storeLocal : Bool) (remotes : List Node)
  /-- No effect: marks the record an update is checked against. -/
  | against (key : NodeId) (old : Bytes)

def Ans : Op → Type
  | .storageGet _ => Option Bytes
  | .storageSet _ _ => StorageWriteStatus
  | .insertIfAbsent _ _ => StorageWriteStatus
  | .cacheGet _ _ => Option Bool
  | .cacheInsert _ _ _ => Unit
  | .blocking _ => Bool
  | .networkCopy _ _ => NetworkCopy
  | .findNeighbors _ => List Node
  | .lookupNodes _ _ => LookupNodes
  | .lookupValue _ _ => Option Bytes × LookupNodes
  | .arrivals _ _ => List Bytes
  | .findQuorum _ _ _ _ _ => Option Bytes
  | .knowsOthers => Bool
  | .scheduleWelcome _ => Unit
  | .send _ _ => Nat
  | .receive _ => Option RpcMessage
  | .respond _ => Unit
  | .select _ _ _ _ => Unit
  | .against _ _ => Unit

/-- The key that an operation on the store is about. -/
def Op.key? : Op → Option NodeId
  | .storageGet key | .storageSet key _ | .insertIfAbsent key _ => some key
  | _ => none

def effects : Sig := ⟨Op, Ans⟩

abbrev Routine := Prog effects

def perform (o : Op) : Routine (Ans o) := Prog.perform (S := effects) o

def storageGet (key : NodeId) : Routine (Option Bytes) := perform (.storageGet key)

def storageSet (key : NodeId) (value : Bytes) : Routine StorageWriteStatus :=
  perform (.storageSet key value)

def insertIfAbsent (key : NodeId) (value : Bytes) : Routine StorageWriteStatus :=
  perform (.insertIfAbsent key value)

def cacheGet (domain : VerificationDomain) (value : Bytes) : Routine (Option Bool) :=
  perform (.cacheGet domain value)

def cacheInsert (domain : VerificationDomain) (value : Bytes) (result : Bool) : Routine Unit :=
  perform (.cacheInsert domain value result)

def blocking (result : Bool) : Routine Bool := perform (.blocking result)

def askNetwork (key : NodeId) (value : Bytes) : Routine NetworkCopy :=
  perform (.networkCopy key value)

def findNeighbors (key : NodeId) : Routine (List Node) := perform (.findNeighbors key)

def lookupNodes (key : NodeId) (seeds : List Node) : Routine LookupNodes :=
  perform (.lookupNodes key seeds)

def lookupValue (key : NodeId) (seeds : List Node) : Routine (Option Bytes × LookupNodes) :=
  perform (.lookupValue key seeds)

def arrivals (key : NodeId) (seeds : List Node) : Routine (List Bytes) :=
  perform (.arrivals key seeds)

def findQuorum (key : NodeId) (seeds : List Node) (initial : List Bytes)
    (minimum maximum : Nat) : Routine (Option Bytes) :=
  perform (.findQuorum key seeds initial minimum maximum)

def knowsOthers : Routine Bool := perform .knowsOthers

def scheduleWelcome (source : Node) : Routine Unit := perform (.scheduleWelcome source)

def send (peer : Addr) (msg : RpcMessage) : Routine Nat := perform (.send peer msg)

def receive (call : Nat) : Routine (Option RpcMessage) := perform (.receive call)

def respond (msg : RpcMessage) : Routine Unit := perform (.respond msg)

def select (key : NodeId) (lookup : LookupNodes) (storeLocal : Bool) (remotes : List Node) :
    Routine Unit :=
  perform (.select key lookup storeLocal remotes)

def against (key : NodeId) (old : Bytes) : Routine Unit := perform (.against key old)

/-! ## Verification, as a node runs it -/

/-- What the tasks of a node share and do not change. -/
structure Server where
  platform : Platform
  node : Node
  ksize : Nat
  alpha : Nat
  /-- Is the signature cache enabled? -/
  useCache : Bool
  /-- Has `listen` been called? -/
  listening : Bool

namespace Server

def handler (srv : Server) : SignatureVerifierHandler := didSignatureVerifierHandler srv.platform

def digest (srv : Server) (key : String) : NodeId := srv.platform.hashes.digest key

def statusKey (srv : Server) : NodeId := srv.digest statusListKey

end Server

/-- `is_bound_to_key`: the status list is exempt. -/
def isBoundToKey (srv : Server) (key : NodeId) (value : Bytes) : Bool :=
  key = srv.statusKey || orFalse (srv.handler.handleKeyBindingVerification key value)

/-- The signature check of `verify_record` behind the cache. -/
def verifySignature (srv : Server) (key : NodeId) (value : Bytes) : Routine Bool :=
  blocking (if key = srv.statusKey then
    orFalse (srv.handler.handleIssuerNodeSignatureVerification value)
    else orFalse (srv.handler.handleSignatureVerification value))

def verificationDomain (srv : Server) (key : NodeId) : VerificationDomain :=
  if key = srv.statusKey then .issuerSigned else .selfSigned

/-- `verify_record`: the binding first, then the cache, then the signature. -/
def verifyRecord (srv : Server) (key : NodeId) (value : Bytes) : Routine Bool := do
  if !isBoundToKey srv key value then return false
  if srv.useCache then
    match ← cacheGet (verificationDomain srv key) value with
    | some cached => return cached
    | none =>
      let result ← verifySignature srv key value
      cacheInsert (verificationDomain srv key) value result
      return result
  else verifySignature srv key value

/-- Operations that neither write a record nor exchange a message. -/
def Op.isRead : Op → Bool
  | .storageSet _ _ | .insertIfAbsent _ _ | .send _ _ | .receive _ | .respond _ => false
  | _ => true

abbrev Reads {α : Type} (p : Routine α) : Prop := Prog.Within (fun o : Op => o.isRead = true) p

def Op.isCheck : Op → Bool
  | .cacheGet _ _ | .cacheInsert _ _ _ | .blocking _ => true
  | _ => false

abbrev Checks {α : Type} (p : Routine α) : Prop := Prog.Within (fun o : Op => o.isCheck = true) p

theorem verifyRecord_checks (srv : Server) (key : NodeId) (value : Bytes) :
    Checks (verifyRecord srv key value) := by
  unfold verifyRecord
  split
  · exact .pure _
  split
  · refine .bind (.perform rfl) fun cached => ?_
    split
    · exact .pure _
    · exact .bind (.perform rfl) fun _ => .bind (.perform rfl) fun _ => .pure _
  · exact .perform rfl

theorem reads_of_checks {α : Type} {p : Routine α} (h : Checks p) : Reads p :=
  h.imp fun o ho => by cases o <;> first | rfl | cases ho

theorem verifyRecord_reads (srv : Server) (key : NodeId) (value : Bytes) :
    Reads (verifyRecord srv key value) := reads_of_checks (verifyRecord_checks srv key value)

def verifyRotation (srv : Server) (key : NodeId) (new old authSignature : Bytes) : Routine Bool :=
  blocking (orFalse (srv.handler.handleKeyBindingVerification key old) &&
    orFalse (srv.handler.handleKeyBindingVerification key new) &&
    orFalse (srv.handler.handleUpdateVerification new old authSignature))

def verifyIssuerSigned (srv : Server) (value : Bytes) : Routine Bool :=
  blocking (orFalse (srv.handler.handleIssuerNodeSignatureVerification value))

end AuthKademlia.Protocol
