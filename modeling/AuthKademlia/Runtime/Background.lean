import AuthKademlia.Network.Maintenance
import AuthKademlia.Runtime.World

/-! # A cluster left to itself

The nodes handle requests and do their background work. Applications may call
for any key but one: nobody publishes or updates that one any more. -/
namespace AuthKademlia.Runtime
open AuthKademlia.Lib.Async AuthKademlia.Utils AuthKademlia.Storage AuthKademlia.Crawling
open AuthKademlia.Routing AuthKademlia.AuthHandler AuthKademlia.Protocol AuthKademlia.Network

inductive Work where
  | advance (nanos : Nat)
  | prune (loc : Addr)
  | evict (loc : Addr) (slot : Bytes)
  /-- A pass of the refresh task of a node. -/
  | refresh (loc : Addr) (found : NodeId → List Node)
  /-- A node welcomes another one. -/
  | welcome (loc : Addr) (router : NodeId → RoutingTable) (node : Node)

/-- The requests of `call_store_rpc`, to nodes with an address. -/
def storeRequests (loc : Addr) (srv : Server) (l : List (Node × NodeId × Bytes)) : List Request :=
  l.filterMap fun (n, key, value) =>
    n.address.map fun addr => ⟨loc, addr, .store srv.node.id key value⟩

def World.sendAll (w : World) (reqs : List Request) : World :=
  { w with requests := w.requests ++ reqs }

/-- The background work of the nodes of a cluster. Requests stay in the world, so
one that is sent in a pass may arrive at any later time. -/
def work (cl : Cluster) : Work → World → Option World
  | .advance nanos, w => env cl (.advance nanos) w
  | .prune loc, w => env cl (.prune loc) w
  | .evict loc slot, w => env cl (.evict loc slot) w
  | .refresh loc found, w => (cl.server loc).map fun srv =>
    w.sendAll (storeRequests loc srv (republish (w.storage loc) w.now found))
  | .welcome loc router node, w => (cl.server loc).map fun srv =>
    w.sendAll (storeRequests loc srv (replicateTo srv.node router (w.storage loc) w.now node))

/-- Does the call publish or update `key`? -/
def Call.publishes (cl : Cluster) (key : NodeId) : Call → Bool
  | .set _ k _ | .update _ k _ _ => cl.platform.hashes.digest k = key
  | .handle _ | .get _ _ => false

def startOther (cl : Cluster) (key : NodeId) (call : Call) (n : Nat) (w : World) :
    Option (Agent × Routine Res) :=
  if call.publishes cl key then none else start cl call n w

theorem startOther_eq {cl : Cluster} {key : NodeId} {call : Call} {n : Nat} {w : World}
    {x : Agent × Routine Res} (h : startOther cl key call n w = some x) :
    call.publishes cl key = false ∧ start cl call n w = some x := by
  unfold startOther at h
  split at h
  · cases h
  · rename_i hp
    exact ⟨Bool.eq_false_iff.mpr hp, h⟩

/-- The cluster with its background work, and without calls that publish or
update `key`. -/
def background (cl : Cluster) (key : NodeId) : System effects :=
  (system cl).variant (exec cl) (work cl) (startOther cl key)

theorem run_injected {cl : Cluster} {w₀ w : World} {procs : List (system cl).Proc}
    (reqs : List Request) (h : (system cl).Run w₀ ⟨w, procs⟩) :
    (system cl).Run w₀ ⟨w.sendAll reqs, procs⟩ := by
  induction reqs generalizing w with
  | nil =>
    rw [World.sendAll, List.append_nil]
    exact h
  | cons req reqs ih =>
    have hone : (system cl).Run w₀ ⟨{ w with requests := w.requests ++ [req] }, procs⟩ :=
      .move (.env (.inject req)) h rfl
    have hrest := ih hone
    rw [World.sendAll, List.append_assoc] at hrest
    exact hrest

theorem run_worked {cl : Cluster} {w₀ w w' : World} {procs : List (system cl).Proc} {e : Work}
    (he : work cl e w = some w') (h : (system cl).Run w₀ ⟨w, procs⟩) :
    (system cl).Run w₀ ⟨w', procs⟩ := by
  cases e with
  | advance nanos => exact .move (.env (.advance nanos)) h (by cases he; rfl)
  | prune loc => exact .move (.env (.prune loc)) h (by cases he; rfl)
  | evict loc slot => exact .move (.env (.evict loc slot)) h (by cases he; rfl)
  | refresh loc found =>
    obtain ⟨srv, -, rfl⟩ := Option.map_eq_some_iff.mp he
    exact run_injected _ h
  | welcome loc router node =>
    obtain ⟨srv, -, rfl⟩ := Option.map_eq_some_iff.mp he
    exact run_injected _ h

theorem run_of_background {cl : Cluster} {key : NodeId} {w₀ : World}
    {c : (background cl key).Config} (h : (background cl key).Run w₀ c) :
    (system cl).Run w₀ ⟨c.world, c.procs.map fun p => ⟨p.agent, p.prog⟩⟩ := by
  refine System.run_of_variant (system cl) id (fun he _ h => run_worked he h) ?_ h
  intro call n w x hx
  exact ⟨call, (startOther_eq hx).2⟩

/-! ## Tasks that do not update a key -/

/-- The request does not update `key`. -/
def SparesMsg (key : NodeId) : RpcMessage → Prop
  | .update _ k _ _ | .updateStatusList _ k _ => k ≠ key
  | _ => True

/-- The operation neither updates `key` nor asks another node to. -/
def Spares (key : NodeId) : Op → Prop
  | .storageSet k _ => k ≠ key
  | .send _ msg => SparesMsg key msg
  | _ => True

abbrev Sparing (key : NodeId) {α : Type} (p : Routine α) : Prop := Prog.Within (Spares key) p

section
variable {srv : Server} {key k : NodeId} {value : Bytes}

theorem spares_of_isRead (o : Op) (h : o.isRead = true) : Spares key o := by
  cases o <;> trivial

theorem sparing_of_reads {α : Type} {p : Routine α} (h : Reads p) : Sparing key p :=
  h.imp spares_of_isRead

/-- The handler of a request that does not update `key`. -/
theorem sparing_handleRequest {src : Addr} {msg : RpcMessage} (h : SparesMsg key msg) :
    Sparing key (handleRequest srv src msg) := by
  refine (handleRequest_handling srv src msg).imp fun o ho => ?_
  cases o with
  | storageSet k v =>
    cases msg with
    | update sender k' value auth => exact fun he => h (ho.symm.trans he)
    | updateStatusList sender k' value => exact fun he => h (ho.symm.trans he)
    | _ => exact absurd ho id
  | send peer msg => exact absurd ho id
  | _ => trivial

theorem sparing_setDetailed {name : String} : Sparing key (setDetailed srv name value) := by
  have hnodes : Sparing key (discoverPublishNodes srv (srv.digest name)) := by
    unfold discoverPublishNodes
    split
    · exact .pure _
    refine .bind (.perform trivial) fun nearest => ?_
    split
    · exact .pure _
    · exact .perform trivial
  have hstate : Sparing key (checkPublishState srv name value) := by
    refine .bind (.perform trivial) fun found => ?_
    split
    · exact .pure _
    split
    · exact .pure _
    refine .bind (.perform trivial) fun nearest => ?_
    split
    · exact .pure _
    refine .bind (.perform trivial) fun r => ?_
    split
    · refine .bind (sparing_of_reads (verifyRecord_reads ..)) fun ok => ?_
      split
      · exact .pure _
      · exact .bind hnodes fun _ => .pure _
    · exact .pure _
  have hcutOff : ∀ remotes, Sparing key (isCutOff remotes) := by
    intro remotes
    unfold isCutOff
    split
    · exact .perform trivial
    · exact .pure _
  have hlocal : ∀ storeLocal report,
      Sparing key (storeLocally storeLocal (srv.digest name) value report) := by
    intro storeLocal report
    unfold storeLocally
    split
    · exact .bind (.perform trivial) fun _ => .pure _
    · exact .pure _
  have hset : ∀ lookup, Sparing key (setDigestDetailed srv (srv.digest name) value lookup) := by
    intro lookup
    unfold setDigestDetailed
    split
    · exact .pure _
    · exact .bind (.perform trivial) fun _ => .bind (hcutOff _) fun _ => .bind (hlocal _ _) fun _ =>
        .bind (.joinAll fun n _ => callStoreRpc_within (fun _ => trivial) fun _ => trivial)
          fun _ => .pure _
  refine .bind (sparing_of_reads (verifyRecord_reads ..)) fun ok => ?_
  split
  · exact .pure _
  split
  · exact .pure _
  refine .bind hstate fun state => ?_
  split
  · exact hset _
  · exact .bind hnodes fun _ => hset _
  · exact .pure _

theorem sparing_update {name : String} {auth : Option Bytes} (hk : srv.digest name ≠ key) :
    Sparing key (Network.update srv name value auth) := by
  have hreplica : ∀ isStatusList n,
      Sparing key (updateReplica srv isStatusList (srv.digest name) value auth n) :=
    fun _ _ => updateReplica_within (fun _ => trivial) (fun _ => hk) (fun _ => hk) fun _ => trivial
  have hdigest : Sparing key (updateDigest srv name value auth) := by
    unfold updateDigest
    simp only
    split
    · exact .pure _
    refine .bind (.perform trivial) fun nearest => ?_
    split
    · exact .pure _
    refine .bind (.perform trivial) fun lookup => .bind (.perform trivial) fun _ =>
      .bind (.joinAll fun n _ => hreplica _ n) fun results => ?_
    split
    · split
      · exact .bind (.perform hk) fun _ => .pure _
      · exact .pure _
    · exact .pure _
  refine .bind (sparing_of_reads (get_reads ..)) fun found => ?_
  split
  · exact .pure _
  refine .bind (.perform trivial) fun _ =>
    .bind (sparing_of_reads (reads_of_checks (updateAuthorised_checks ..))) fun ok => ?_
  split
  · exact .pure _
  · exact .bind hdigest fun _ => .pure _

end

/-- Every task of a cluster left to itself spares the key, as long as the
requests it may handle do. -/
theorem sparing_start {cl : Cluster} {key : NodeId} {call : Call} {n : Nat} {w : World} {a : Agent}
    {p : Routine Res} (hreqs : ∀ req ∈ w.requests, SparesMsg key req.msg)
    (h : startOther cl key call n w = some (a, p)) : Sparing key p := by
  obtain ⟨hother, h⟩ := startOther_eq h
  obtain ⟨⟨loc, job⟩, hjob, h⟩ := Option.bind_eq_some_iff.mp h
  obtain ⟨srv, hsrv, h⟩ := Option.map_eq_some_iff.mp h
  obtain ⟨rfl, rfl⟩ := Prod.mk.inj h
  cases call with
  | handle id =>
    obtain ⟨req, hreq, hj⟩ := Option.map_eq_some_iff.mp hjob
    obtain ⟨rfl, rfl⟩ := Prod.mk.inj hj
    have hmsg := hreqs req (List.mem_of_getElem? hreq)
    exact .bind (sparing_handleRequest hmsg) fun _ => .pure _
  | set l name value =>
    obtain ⟨rfl, rfl⟩ := Prod.mk.inj (Option.some.inj hjob)
    exact .bind sparing_setDetailed fun _ => .pure _
  | update l name value auth =>
    obtain ⟨rfl, rfl⟩ := Prod.mk.inj (Option.some.inj hjob)
    have hk : srv.digest name ≠ key := by
      rw [Server.digest, cl.same l srv hsrv]
      exact of_decide_eq_false hother
    exact .bind (sparing_update hk) fun _ => .pure _
  | get l name =>
    obtain ⟨rfl, rfl⟩ := Prod.mk.inj (Option.some.inj hjob)
    exact .bind (sparing_of_reads (get_reads ..)) fun _ => .pure _

end AuthKademlia.Runtime
