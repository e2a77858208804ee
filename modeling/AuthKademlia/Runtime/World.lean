import AuthKademlia.Network.Server

/-! # Nodes, messages and time

The nodes of a cluster run their tasks on a shared world: one store and one
signature cache for each node, the requests and answers on their way, and a
clock. Requests and answers are never removed, so any of them may arrive late,
several times or not at all. Everything else is left to the environment: the
clock, the pruning of a store, what lookups find, and every node that is not in
the cluster, which may send any request and give any answer.

Each operation is logged with its answer. No operation reads the log; it is what
statements about runs are about. -/
namespace AuthKademlia.Runtime
open AuthKademlia.Lib.Async AuthKademlia.Utils AuthKademlia.Storage AuthKademlia.Crawling
open AuthKademlia.AuthHandler AuthKademlia.Protocol AuthKademlia.Network

/-- The honest nodes, by address. All verify with the same handler. -/
structure Cluster where
  platform : Platform
  server : Addr → Option Server
  same : ∀ loc srv, server loc = some srv → srv.platform = platform

inductive Job where
  | handle (id : Nat) (src : Addr) (msg : RpcMessage)
  | set (key : String) (value : Bytes)
  | update (key : String) (value : Bytes) (authSignature : Option Bytes)
  | get (key : String)
  deriving DecidableEq

/-- A running task: its number, its node and its job. -/
structure Agent where
  pid : Nat
  loc : Addr
  job : Job
  deriving DecidableEq

/-- An operation of a task with its answer. `live` is the live record the node
had for the operation's key just before. -/
structure Event where
  agent : Agent
  op : Op
  ans : Ans op
  live : Option Bytes

structure Request where
  src : Addr
  dst : Addr
  msg : RpcMessage

structure World where
  now : Instant
  storage : Addr → ForgetfulStorage
  cache : Addr → Bytes → Option Bool
  /-- The position of a request is the number of its call. -/
  requests : List Request
  answers : List (Nat × RpcMessage)
  log : List Event

/-- What the environment decides in an operation. -/
structure Pick where
  /-- Did the blocking task end normally? -/
  finished : Bool := true
  copy : NetworkCopy := .unknown
  nodes : List Node := []
  lookup : LookupNodes := noNodes
  values : List Bytes := []
  value : Option Bytes := none
  known : Bool := false
  answer : Option RpcMessage := none

namespace World

def setStorage (w : World) (loc : Addr) (s : ForgetfulStorage) : World :=
  { w with storage := Function.update w.storage loc s }

theorem setStorage_self (w : World) (loc : Addr) (s : ForgetfulStorage) :
    (w.setStorage loc s).storage loc = s := Function.update_self ..

theorem setStorage_of_ne (w : World) {loc l : Addr} (h : l ≠ loc) (s : ForgetfulStorage) :
    (w.setStorage loc s).storage l = w.storage l := Function.update_of_ne h ..

/-- The record a node serves for a key. -/
def live (w : World) (loc : Addr) (key : NodeId) : Option Bytes :=
  (w.storage loc).get w.now key.bytes

def liveFor (w : World) (loc : Addr) (o : Op) : Option Bytes := o.key?.bind (w.live loc)

end World

/-- What an operation answers and does. -/
def effect (cl : Cluster) (a : Agent) : (o : Op) → Pick → World → Option (Ans o × World)
  | .storageGet key, _, w => some (w.live a.loc key, w)
  | .storageSet key value, _, w =>
    let r := (w.storage a.loc).set w.now key.bytes value
    some (r.1, w.setStorage a.loc r.2)
  | .insertIfAbsent key value, _, w =>
    let r := (w.storage a.loc).insertIfAbsent w.now key.bytes value
    some (r.1, w.setStorage a.loc r.2)
  | .cacheGet domain value, _, w =>
    some (w.cache a.loc (computeKey cl.platform.hashes domain value), w)
  | .cacheInsert domain value result, _, w =>
    let slot := computeKey cl.platform.hashes domain value
    some ((), { w with
      cache := Function.update w.cache a.loc (Function.update (w.cache a.loc) slot (some result)) })
  | .blocking result, p, w => some (p.finished && result, w)
  | .networkCopy _ _, p, w => some (p.copy, w)
  | .findNeighbors _, p, w => some (p.nodes, w)
  | .lookupNodes _ _, p, w => some (p.lookup, w)
  | .lookupValue _ _, p, w => some ((p.value, p.lookup), w)
  | .arrivals _ _, p, w => some (p.values, w)
  | .findQuorum _ _ _ _ _, p, w => some (p.value, w)
  | .knowsOthers, p, w => some (p.known, w)
  | .scheduleWelcome _, _, w => some ((), w)
  | .send peer msg, _, w =>
    some (w.requests.length, { w with requests := w.requests ++ [⟨a.loc, peer, msg⟩] })
  | .receive call, p, w =>
    match p.answer with
    | none => some (none, w)
    | some msg => if (call, msg) ∈ w.answers then some (some msg, w) else none
  | .respond msg, _, w =>
    match a.job with
    | .handle id _ _ => some ((), { w with answers := w.answers ++ [(id, msg)] })
    | _ => none
  | .select _ _ _ _, _, w => some ((), w)
  | .against _ _, _, w => some ((), w)

/-- An operation, with its line in the log. -/
def exec (cl : Cluster) (a : Agent) (o : Op) (p : Pick) (w : World) : Option (Ans o × World) :=
  (effect cl a o p w).map fun r =>
    (r.1, { r.2 with log := w.log ++ [⟨a, o, r.1, w.liveFor a.loc o⟩] })

inductive Env where
  | advance (nanos : Nat)
  | prune (loc : Addr)
  /-- The cache drops an entry. -/
  | evict (loc : Addr) (slot : Bytes)
  /-- Any request, from anyone. -/
  | inject (req : Request)
  /-- Any answer of a node outside the cluster. -/
  | forge (id : Nat) (msg : RpcMessage)

def env (cl : Cluster) : Env → World → Option World
  | .advance nanos, w => some { w with now := w.now + nanos }
  | .prune loc, w => some (w.setStorage loc ((w.storage loc).pruneExpired w.now))
  | .evict loc slot, w => some { w with
      cache := Function.update w.cache loc (Function.update (w.cache loc) slot none) }
  | .inject req, w => some { w with requests := w.requests ++ [req] }
  | .forge id msg, w =>
    match w.requests[id]? with
    | some req =>
      if (cl.server req.dst).isNone then some { w with answers := w.answers ++ [(id, msg)] }
      else none
    | none => none

inductive Call where
  /-- A request arrives, perhaps once more. -/
  | handle (id : Nat)
  | set (loc : Addr) (key : String) (value : Bytes)
  | update (loc : Addr) (key : String) (value : Bytes) (authSignature : Option Bytes)
  | get (loc : Addr) (key : String)

inductive Res where
  | reply (answer : Option RpcMessage)
  | set (outcome : SetOutcome)
  | update (result : Option Bool)
  | get (value : Option Bytes)
  deriving DecidableEq

def Job.prog (srv : Server) : Job → Routine Res
  | .handle _ src msg => do return .reply (← handleRequest srv src msg)
  | .set key value => do return .set (← setDetailed srv key value)
  | .update key value authSignature => do
    return .update (← Network.update srv key value authSignature)
  | .get key => do return .get (← Network.get srv key)

/-- Where a call runs, and its job. -/
def Call.job (w : World) : Call → Option (Addr × Job)
  | .handle id => (w.requests[id]?).map fun req => (req.dst, .handle id req.src req.msg)
  | .set loc key value => some (loc, .set key value)
  | .update loc key value authSignature => some (loc, .update key value authSignature)
  | .get loc key => some (loc, .get key)

def start (cl : Cluster) (call : Call) (n : Nat) (w : World) : Option (Agent × Routine Res) :=
  (call.job w).bind fun (loc, job) =>
    (cl.server loc).map fun srv => (⟨n, loc, job⟩, job.prog srv)

/-- The cluster as a system of interleaved tasks. -/
def system (cl : Cluster) : System effects where
  World := World
  Agent := Agent
  Pick := Pick
  Env := Env
  Call := Call
  Res := Res
  exec := exec cl
  env := env cl
  start := start cl

instance (cl : Cluster) : DecidableEq (system cl).Res := inferInstanceAs (DecidableEq Res)

/-- A world before any task: stores may hold records, nothing else is there. -/
structure Fresh (w : World) : Prop where
  cache : ∀ loc slot, w.cache loc slot = none
  requests : w.requests = []
  answers : w.answers = []
  log : w.log = []

/-! ## Stand-ins to evaluate the model with -/

def toyAddr (port : UInt16) : Addr := ("h", port)

def toyNode (port : UInt16) : Node := ⟨filledId (UInt8.ofNat port.toNat), some "h", some port⟩

/-- Every port of the host `h` is an honest node. -/
def toyClusterOf (ksize alpha : Nat) : Cluster where
  platform := toyPlatform
  server := fun loc =>
    if loc.1 = "h" then some ⟨toyPlatform, toyNode loc.2, ksize, alpha, true, true⟩ else none
  same := fun loc srv h => by
    split at h
    · cases h; rfl
    · cases h

theorem server_toy (ksize alpha : Nat) (port : UInt16) :
    (toyClusterOf ksize alpha).server (toyAddr port) =
      some ⟨toyPlatform, toyNode port, ksize, alpha, true, true⟩ := by
  simp [toyClusterOf, toyAddr]

def toyCluster : Cluster := toyClusterOf 2 2

/-- All nodes start with the store `s`. -/
def toyWorld (s : ForgetfulStorage) : World := ⟨0, fun _ => s, fun _ _ => none, [], [], []⟩

theorem fresh_toyWorld (s : ForgetfulStorage) : Fresh (toyWorld s) :=
  ⟨fun _ _ => rfl, rfl, rfl, rfl⟩

def toyRun {cl : Cluster} (w : World) (ms : List (system cl).Move) : Option (system cl).Config :=
  (system cl).replay ms ⟨w, []⟩

def go {cl : Cluster} (i : Nat) (p : Pick) : (system cl).Move := .step i [] p

theorem run_of_toyRun {cl : Cluster} {w : World} {ms : List (system cl).Move}
    {c : (system cl).Config} (h : toyRun w ms = some c) : (system cl).Run w c :=
  System.Run.replay _ ms .init h

end AuthKademlia.Runtime
