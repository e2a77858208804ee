import AuthKademlia.Runtime.Deeds

/-! # What a task did to its node's store

A task that refuses wrote nothing, and one that acknowledges a record had it in the
store at its last access. Both are facts about the program of the task and the answers of
its operations; what the store was between them does not matter. -/
namespace AuthKademlia.Runtime
open AuthKademlia.Lib.Async AuthKademlia.Lib.Trace AuthKademlia.Utils AuthKademlia.Storage
open AuthKademlia.Protocol AuthKademlia.Crawling AuthKademlia.Network

def isAccess (d : Deed effects) : Bool := (Op.key? d.1).isSome

/-- What a task did to the store, in order. -/
def accesses (w : World) (a : Agent) : List (Deed effects) := (deeds w a).filter isAccess

/-! ## Operations and the store -/

theorem isWrite_iff {st : StorageWriteStatus} :
    isWrite st = true ↔ st = .stored ∨ st = .alreadyStored := by cases st <;> simp [isWrite]

theorem not_isWrite_iff {st : StorageWriteStatus} :
    isWrite st = false ↔ st = .conflict ∨ st = .capacityExceeded := by cases st <;> simp [isWrite]

/-- Did the operation write? A refused write did not. -/
def changes : (o : Op) → Ans o → Bool
  | .storageSet _ _, st => isWrite st
  | .insertIfAbsent _ _, st => isWrite st
  | _, _ => false

/-- After the operation the store serves `value` under `key`. -/
def leaves (key : NodeId) (value : Bytes) : (o : Op) → Ans o → Prop
  | .storageGet k, found => k = key ∧ found = some value
  | .storageSet k v, st => k = key ∧ v = value ∧ isWrite st = true
  | .insertIfAbsent k v, st => k = key ∧ v = value ∧ isWrite st = true
  | _, _ => False

section
variable {cl : Cluster} {a : Agent} {o : Op} {r : Ans o} {p : Pick} {w w' : World}

/-- An operation that wrote nothing leaves all stores as they are, to the byte counters. -/
theorem effect_storage (h : effect cl a o p w = some (r, w')) (hr : changes o r = false) :
    w'.storage = w.storage := by
  have hsame : ∀ {key value res}, ForgetfulStorage.Stamped (w.storage a.loc) w.now key value res →
      isWrite res.1 = false → (w.setStorage a.loc res.2).storage = w.storage := by
    intro key value res hst hno
    rw [World.setStorage, hst.same (not_isWrite_iff.mp hno)]
    exact Function.update_eq_self _ _
  cases o with
  | storageSet key value =>
    obtain ⟨rfl, rfl⟩ := Prod.mk.inj (Option.some.inj h)
    exact hsame (ForgetfulStorage.set_stamped ..) hr
  | insertIfAbsent key value =>
    obtain ⟨rfl, rfl⟩ := Prod.mk.inj (Option.some.inj h)
    exact hsame (ForgetfulStorage.insertIfAbsent_stamped ..) hr
  | receive call =>
    obtain ⟨rfl, -⟩ := effect_receive h
    rfl
  | respond msg =>
    obtain ⟨_, _, _, _, rfl⟩ := effect_respond h
    rfl
  | _ => cases h; rfl

theorem effect_now (h : effect cl a o p w = some (r, w')) : w'.now = w.now := by
  cases o with
  | receive call =>
    obtain ⟨rfl, -⟩ := effect_receive h
    rfl
  | respond msg =>
    obtain ⟨_, _, _, _, rfl⟩ := effect_respond h
    rfl
  | _ => cases h; rfl

theorem effect_leaves {key : NodeId} {value : Bytes} (h : effect cl a o p w = some (r, w'))
    (hl : leaves key value o r) : w'.live a.loc key = some value := by
  have hserved : ∀ {res}, ForgetfulStorage.Stamped (w.storage a.loc) w.now key.bytes value res →
      isWrite res.1 = true → (w.setStorage a.loc res.2).live a.loc key = some value := by
    intro res hst hyes
    rw [World.live, World.setStorage_self]
    exact hst.get (isWrite_iff.mp hyes)
  cases o with
  | storageGet k =>
    obtain ⟨rfl, hfound⟩ := hl
    obtain ⟨rfl, rfl⟩ := Prod.mk.inj (Option.some.inj h)
    exact hfound
  | storageSet k v =>
    obtain ⟨rfl, rfl, hst⟩ := hl
    obtain ⟨rfl, rfl⟩ := Prod.mk.inj (Option.some.inj h)
    exact hserved (ForgetfulStorage.set_stamped ..) hst
  | insertIfAbsent k v =>
    obtain ⟨rfl, rfl, hst⟩ := hl
    obtain ⟨rfl, rfl⟩ := Prod.mk.inj (Option.some.inj h)
    exact hserved (ForgetfulStorage.insertIfAbsent_stamped ..) hst
  | _ => cases hl

end

/-! ## What is watched -/

/-- Operations on the store, the answer of a handler, and the choice of replicas. -/
def Op.touches : Op → Bool
  | .storageGet _ | .storageSet _ _ | .insertIfAbsent _ _ | .respond _ | .select _ _ _ _ => true
  | _ => false

/-- The answers that can occur: `set` knows no conflict. -/
def Possible : (o : Op) → Ans o → Prop
  | .storageSet _ _, st => st ≠ .conflict
  | _, _ => True

theorem effect_possible {cl : Cluster} {a : Agent} {o : Op} {r : Ans o} {p : Pick} {w w' : World}
    (h : effect cl a o p w = some (r, w')) : Possible o r := by
  cases o with
  | storageSet key value =>
    obtain ⟨rfl, rfl⟩ := Prod.mk.inj (Option.some.inj h)
    exact ForgetfulStorage.set_ne_conflict
  | _ => trivial

/-- The record that an answer to the job's request acknowledges. -/
def Job.acknowledged : Job → RpcMessage → Option (NodeId × Bytes)
  | .handle _ _ (.store _ key value), .storeResult .stored => some (key, value)
  | .handle _ _ (.store _ key value), .storeResult .alreadyStored => some (key, value)
  | .handle _ _ (.update _ key value _), .updateResult true => some (key, value)
  | .handle _ _ (.updateStatusList _ key value), .updateStatusListResult true => some (key, value)
  | _, _ => none

def Unchanged (ds : List (Deed effects)) : Prop := ∀ d ∈ ds, changes d.1 d.2 = false

/-- The last deed leaves `value` under `key`. -/
def Leaves (key : NodeId) (value : Bytes) (ds : List (Deed effects)) : Prop :=
  ∃ pre d, ds = pre ++ [d] ∧ leaves key value d.1 d.2

/-- A handler that answers `r` has left the record that `r` acknowledges, or written
nothing. -/
def Settled (job : Job) (ds : List (Deed effects)) (r : Option RpcMessage) : Prop :=
  match r.bind job.acknowledged with
  | some (key, value) => Leaves key value ds
  | none => Unchanged ds

/-- What a task must have done before an operation. A publication inserts its own record,
and replaces none. -/
def Proper (cl : Cluster) (job : Job) (pre : List (Deed effects)) : Op → Prop
  | .respond answer => Settled job pre (some answer)
  | .storageSet _ _ => ∀ name value, job ≠ .set name value
  | .insertIfAbsent key value => ∀ name v, job = .set name v →
      key = cl.platform.hashes.digest name ∧ value = v
  | _ => True

def storeWatch (cl : Cluster) (job : Job) : Watch effects where
  matters := Op.touches
  answers := Possible
  rule := Proper cl job

/-! ## The programs -/

section
variable {cl : Cluster} {job : Job} {srv : Server} {key : NodeId} {value : Bytes} {name : String}
  {ds : List (Deed effects)} {α : Type}

theorem unchanged_nil : Unchanged [] := fun _ h => by cases h

theorem Unchanged.snoc {d : Deed effects} (h : Unchanged ds) (hd : changes d.1 d.2 = false) :
    Unchanged (ds ++ [d]) := by
  intro x hx
  rcases List.mem_append.mp hx with hx | hx
  · exact h x hx
  · rwa [List.mem_singleton.mp hx]

abbrev Aside (p : Routine α) : Prop := Prog.Within (fun o : Op => Op.touches o = false) p

theorem tells_storageGet {Q : List (Deed effects) → Option Bytes → Prop}
    (h : ∀ found, Q (ds ++ [⟨.storageGet key, found⟩]) found) :
    (storeWatch cl job).Tells (storageGet key) Q ds :=
  Watch.tells_noted rfl trivial fun found _ => h found

theorem tells_insertIfAbsent {Q : List (Deed effects) → StorageWriteStatus → Prop}
    (hrule : Proper cl job ds (.insertIfAbsent key value))
    (h : ∀ st, Q (ds ++ [⟨.insertIfAbsent key value, st⟩]) st) :
    (storeWatch cl job).Tells (insertIfAbsent key value) Q ds :=
  Watch.tells_noted rfl hrule fun st _ => h st

theorem tells_storageSet {Q : List (Deed effects) → StorageWriteStatus → Prop}
    (hjob : ∀ name v, job ≠ .set name v)
    (h : ∀ st, st ≠ .conflict → Q (ds ++ [⟨.storageSet key value, st⟩]) st) :
    (storeWatch cl job).Tells (storageSet key value) Q ds :=
  Watch.tells_noted rfl hjob h

theorem tells_select {Q : List (Deed effects) → Unit → Prop} {lookup : LookupNodes}
    {storeLocal : Bool} {remotes : List Node}
    (h : Q (ds ++ [⟨.select key lookup storeLocal remotes, ()⟩]) ()) :
    (storeWatch cl job).Tells (select key lookup storeLocal remotes) Q ds :=
  Watch.tells_noted rfl trivial fun _ _ => h

theorem aside_of_checks {p : Routine α} (h : Checks p) : Aside p :=
  h.imp fun o ho => by cases o <;> first | rfl | cases ho

theorem aside_of_queries {p : Routine α} (h : Queries p) : Aside p :=
  h.imp fun o ho => by cases o <;> first | rfl | cases ho

theorem verifyRecord_aside : Aside (verifyRecord srv key value) :=
  aside_of_checks (verifyRecord_checks srv key value)

/-- What a handler with the verdict `ok` on a record has done. -/
def Verdict (key : NodeId) (value : Bytes) : Bool → List (Deed effects) → Prop
  | true, ds => Leaves key value ds
  | false, ds => Unchanged ds

theorem tells_storeVerified (hjob : ∀ name v, job ≠ .set name v) {source : Node}
    (hds : Unchanged ds) : (storeWatch cl job).Tells (storeVerified srv source key value)
      (fun ds' r => Verdict key value (SetReport.isAck r) ds') ds := by
  refine Watch.Tells.after verifyRecord_aside fun ok => ?_
  split
  · exact hds
  refine (tells_insertIfAbsent (fun name v h => absurd h (hjob name v)) fun st => ?_).bind
  have hverdict : Verdict key value (SetReport.isAck (some (StoreStatus.ofWrite st)))
      (ds ++ [⟨.insertIfAbsent key value, st⟩]) := by
    cases st with
    | stored => exact ⟨ds, _, rfl, rfl, rfl, rfl⟩
    | alreadyStored => exact ⟨ds, _, rfl, rfl, rfl, rfl⟩
    | conflict => exact hds.snoc rfl
    | capacityExceeded => exact hds.snoc rfl
  dsimp only
  split
  · exact Watch.Tells.after (.perform rfl) fun _ => hverdict
  · exact hverdict

theorem tells_rpcStore (hjob : ∀ name v, job ≠ .set name v) {sender : NodeId} {peer : Addr} :
    (storeWatch cl job).Tells (rpcStore srv sender peer key value)
      (fun ds r => Verdict key value (SetReport.isAck r) ds) [] := by
  have hlookup : (storeWatch cl job).Tells (storeNeedsLookup srv key)
      (fun ds _ => Unchanged ds) [] := by
    unfold storeNeedsLookup
    split
    · exact unchanged_nil
    · exact (tells_storageGet fun found => unchanged_nil.snoc rfl).bind
  refine (hlookup.imp fun ds needs hds => ?_).bind
  split
  · split
    · exact hds
    refine Watch.Tells.after (.perform rfl) fun copy => ?_
    cases copy with
    | noneOrSame => exact tells_storeVerified hjob hds
    | other => exact hds
    | unknown => exact hds
  · exact tells_storeVerified hjob hds

theorem tells_overwrite (hjob : ∀ name v, job ≠ .set name v) (hds : Unchanged ds) :
    (storeWatch cl job).Tells (do return decide ((← storageSet key value) ≠ .capacityExceeded))
      (fun ds' r => Verdict key value r ds') ds := by
  refine (tells_storageSet hjob fun st hst => ?_).bind
  cases st with
  | stored => exact ⟨ds, _, rfl, rfl, rfl, rfl⟩
  | alreadyStored => exact ⟨ds, _, rfl, rfl, rfl, rfl⟩
  | conflict => exact absurd rfl hst
  | capacityExceeded => exact hds.snoc rfl

theorem tells_rpcUpdate (hjob : ∀ name v, job ≠ .set name v) {sender : NodeId} {peer : Addr}
    {auth : Bytes} : (storeWatch cl job).Tells (rpcUpdate srv sender peer key value auth)
      (fun ds r => Verdict key value r ds) [] := by
  unfold rpcUpdate
  split
  · exact unchanged_nil
  refine (tells_storageGet fun found => ?_).bind
  cases found with
  | none => exact unchanged_nil.snoc rfl
  | some old =>
    refine Watch.Tells.after (.perform rfl) fun _ => ?_
    split
    · rename_i heq
      -- a retry: the record that was read is the one submitted
      exact ⟨[], _, rfl, rfl, congrArg some heq⟩
    refine Watch.Tells.after (.perform rfl) fun ok => ?_
    split
    · exact unchanged_nil.snoc rfl
    exact Watch.Tells.after (.perform rfl) fun _ => tells_overwrite hjob (unchanged_nil.snoc rfl)

theorem tells_rpcUpdateStatusList (hjob : ∀ name v, job ≠ .set name v) {sender : NodeId}
    {peer : Addr} :
    (storeWatch cl job).Tells (rpcUpdateStatusList srv sender peer key value)
      (fun ds r => Verdict key value r ds) [] := by
  unfold rpcUpdateStatusList
  split
  · exact unchanged_nil
  refine (tells_storageGet fun found => ?_).bind
  have hread : Unchanged ([] ++ [⟨.storageGet key, found⟩]) := unchanged_nil.snoc rfl
  split
  · exact hread
  refine Watch.Tells.after (.perform rfl) fun ok => ?_
  split
  · exact hread
  exact Watch.Tells.after (.perform rfl) fun _ => tells_overwrite hjob hread

/-- **A handler settles its request**: it leaves the record it acknowledges, or changes
nothing. -/
theorem tells_dispatchRequest {id : Nat} {src : Addr} {msg : RpcMessage} :
    (storeWatch cl (.handle id src msg)).Tells (dispatchRequest srv src msg)
      (Settled (.handle id src msg)) [] := by
  have hjob : ∀ name v, Job.handle id src msg ≠ .set name v := fun _ _ h => by cases h
  cases msg with
  | store sender key value =>
    refine ((tells_rpcStore hjob).imp fun ds r hr => ?_).bind
    rcases r with _ | (_ | _ | _ | _ | _) <;> exact hr
  | update sender key value auth =>
    refine ((tells_rpcUpdate hjob).imp fun ds r hr => ?_).bind
    cases r <;> exact hr
  | updateStatusList sender key value =>
    refine ((tells_rpcUpdateStatusList hjob).imp fun ds r hr => ?_).bind
    cases r <;> exact hr
  | storeResult status => exact unchanged_nil
  | updateResult ok => exact unchanged_nil
  | updateStatusListResult ok => exact unchanged_nil

/-- The request was settled at the last access to the store. -/
def Concluded (job : Job) (ds : List (Deed effects)) (r : Option RpcMessage) : Prop :=
  ∃ pre post, ds = pre ++ post ∧ (∀ d ∈ post, isAccess d = false) ∧ Settled job pre r

theorem tells_handleRequest {id : Nat} {src : Addr} {msg : RpcMessage} :
    (storeWatch cl (.handle id src msg)).Tells (handleRequest srv src msg)
      (Concluded (.handle id src msg)) [] := by
  refine (tells_dispatchRequest.imp fun ds r hr => ?_).bind
  cases r with
  | none => exact ⟨ds, [], (List.append_nil ds).symm, fun d h => by (cases h), hr⟩
  | some answer =>
    refine (Watch.tells_noted (S := effects) (o := Op.respond answer) rfl hr fun _ _ => ?_).bind
    refine ⟨ds, _, rfl, fun d hd => ?_, hr⟩
    rw [List.mem_singleton.mp hd]
    rfl

/-! ### GET and UPDATE -/

theorem tells_get (hds : Unchanged ds) :
    (storeWatch cl job).Tells (Network.get srv name) (fun ds' _ => Unchanged ds') ds := by
  refine (tells_storageGet fun found => ?_).bind
  refine Watch.tells_aside ?_ fun _ => hds.snoc rfl
  cases found with
  | none => exact aside_of_queries (getRemote_queries srv name none)
  | some v =>
    dsimp only
    split
    · exact aside_of_checks (verified_checks srv name v)
    · exact aside_of_queries (getRemote_queries srv name _)

theorem tells_updateDigest (hjob : ∀ name v, job ≠ .set name v) (hds : Unchanged ds)
    {auth : Option Bytes} : (storeWatch cl job).Tells (updateDigest srv name value auth)
      (fun ds' ok => ok = false → Unchanged ds') ds := by
  unfold updateDigest
  dsimp only
  split
  · exact fun _ => hds
  refine Watch.Tells.after (.perform rfl) fun nearest => ?_
  split
  · exact fun _ => hds
  refine Watch.Tells.after (.perform rfl) fun lookup => ?_
  refine (tells_select ?_).bind
  have hreplica : ∀ n, Aside (updateReplica srv (name = statusListKey) (srv.digest name) value
      auth n) := fun n =>
    updateReplica_within (fun _ => rfl) (fun _ => rfl) (fun _ => rfl) fun _ => rfl
  refine Watch.Tells.after (.joinAll fun n _ => hreplica n) fun results => ?_
  split
  · split
    · refine (tells_overwrite hjob (hds.snoc rfl)).imp fun ds' ok hok hfalse => ?_
      rw [hfalse] at hok
      exact hok
    · exact fun h => by cases h
  · exact fun _ => hds.snoc rfl

theorem tells_update (hjob : ∀ name v, job ≠ .set name v) {auth : Option Bytes} :
    (storeWatch cl job).Tells (Network.update srv name value auth)
      (fun ds r => r ≠ some true → Unchanged ds) [] := by
  refine ((tells_get unchanged_nil).imp fun ds found hds => ?_).bind
  cases found with
  | none => exact fun _ => hds
  | some old =>
    refine Watch.Tells.after (.perform rfl) fun _ => ?_
    refine Watch.Tells.after (aside_of_checks (updateAuthorised_checks ..)) fun ok => ?_
    split
    · exact fun _ => hds
    refine ((tells_updateDigest hjob hds).imp fun ds' ok hok hne => hok ?_).bind
    cases ok with
    | false => rfl
    | true => exact absurd rfl hne

/-! ### SET -/

def Unselected (ds : List (Deed effects)) : Prop :=
  ∀ key lookup storeLocal remotes,
    (⟨.select key lookup storeLocal remotes, ()⟩ : Deed effects) ∉ ds

/-- What the report of a publication says about its deeds: its own copy is counted, and so
are the replicas chosen. -/
structure Counted (k : Nat) (ds : List (Deed effects)) (report : SetReport) : Prop where
  wrote : report.acknowledgedReplicas = 0 → Unchanged ds
  chose : 1 ≤ k → report.expectedReplicas = 0 → Unselected ds

theorem discoverPublishNodes_aside : Aside (discoverPublishNodes srv key) := by
  unfold discoverPublishNodes
  split
  · exact .pure _
  refine .bind (.perform rfl) fun nearest => ?_
  split
  · exact .pure _
  · exact .perform rfl

theorem tells_checkPublishState :
    (storeWatch cl job).Tells (checkPublishState srv name value)
      (fun ds _ => Unchanged ds ∧ Unselected ds) [] := by
  refine (tells_storageGet fun found => ?_).bind
  have hread : Unselected ([] ++ [⟨.storageGet (srv.digest name), found⟩]) := by
    intro key lookup storeLocal remotes h
    cases List.mem_singleton.mp h
  refine Watch.tells_aside ?_ fun _ => ⟨unchanged_nil.snoc rfl, hread⟩
  cases found with
  | some v => exact .pure _
  | none =>
    dsimp only
    split
    · exact .pure _
    refine .bind (.perform rfl) fun nearest => ?_
    split
    · exact .pure _
    refine .bind (.perform rfl) fun r => ?_
    split
    · refine .bind verifyRecord_aside fun ok => ?_
      split
      · exact .pure _
      · exact .bind discoverPublishNodes_aside fun _ => .pure _
    · exact .pure _

theorem tells_storeLocally (hrule : Proper cl job ds (.insertIfAbsent key value))
    (hds : Unchanged ds) {storeLocal : Bool} {report : SetReport} :
    (storeWatch cl job).Tells (storeLocally storeLocal key value report)
      (fun ds' r => (r.acknowledgedReplicas = 0 → Unchanged ds') ∧
        r.expectedReplicas = report.expectedReplicas) ds := by
  unfold storeLocally
  split
  · refine (tells_insertIfAbsent hrule fun st => ?_).bind
    refine ⟨fun hzero => ?_, SetReport.recordStatus_expected _ _⟩
    rw [SetReport.recordStatus_acknowledged] at hzero
    refine hds.snoc ?_
    cases st with
    | stored => cases hzero
    | alreadyStored => cases hzero
    | conflict => rfl
    | capacityExceeded => rfl
  · exact ⟨fun _ => hds, rfl⟩

theorem tells_setDigestDetailed (hrule : ∀ ds, Proper cl job ds (.insertIfAbsent key value))
    (hds : Unchanged ds) (hnone : Unselected ds) {lookup : LookupNodes} :
    (storeWatch cl job).Tells (setDigestDetailed srv key value lookup)
      (fun ds' out => Counted srv.ksize ds' out.report) ds := by
  unfold setDigestDetailed
  split
  · exact ⟨fun _ => hds, fun _ _ => hnone⟩
  have hsome : 1 ≤ srv.ksize → _ :=
    selectResponsibleNodes_nonempty srv.node (.fromId key) lookup.nodes
  generalize selectResponsibleNodes srv.node (.fromId key) lookup.nodes srv.ksize = chosen at hsome
  obtain ⟨storeLocal, remotes⟩ := chosen
  refine (tells_select ?_).bind
  have hcut : Aside (isCutOff remotes) := by
    unfold isCutOff
    split
    · exact .perform rfl
    · exact .pure _
  refine Watch.Tells.after hcut fun cutOff => ?_
  refine ((tells_storeLocally (hrule _) (hds.snoc rfl)).imp fun ds' report hreport => ?_).bind
  refine Watch.Tells.after (.joinAll fun n _ => callStoreRpc_within (fun _ => rfl) fun _ => rfl)
    fun statuses => ?_
  obtain ⟨hwrote, hexpected⟩ := hreport
  constructor
  · intro hzero
    rw [classifySetReport_report, SetReport.foldl_acknowledged] at hzero
    exact hwrote (Nat.eq_zero_of_add_eq_zero_right hzero)
  · intro hk hzero
    rw [classifySetReport_report, SetReport.foldl_expected, hexpected] at hzero
    -- somebody was chosen, so somebody is expected
    have hchosen := hsome hk
    dsimp only at hzero hchosen
    rcases hchosen with rfl | hne
    · simp at hzero
    · have hlen := List.length_pos_of_ne_nil hne
      omega

/-- **A publication counts what it did.** -/
theorem tells_setDetailed (hs : srv.platform = cl.platform) :
    (storeWatch cl (.set name value)).Tells (setDetailed srv name value)
      (fun ds out => Counted srv.ksize ds out.report) [] := by
  have hrule : ∀ ds, Proper cl (.set name value) ds (.insertIfAbsent (srv.digest name) value) := by
    rintro ds _ _ ⟨⟩
    exact ⟨by rw [Server.digest, hs], rfl⟩
  have hnone : Unselected [] := fun _ _ _ _ h => by cases h
  refine Watch.Tells.after verifyRecord_aside fun ok => ?_
  split
  · exact ⟨fun _ => unchanged_nil, fun _ _ => hnone⟩
  split
  · exact ⟨fun _ => unchanged_nil, fun _ _ => hnone⟩
  refine (tells_checkPublishState.imp fun ds state hds => ?_).bind
  cases state with
  | missing lookup => exact tells_setDigestDetailed hrule hds.1 hds.2
  | identical =>
    exact Watch.Tells.after discoverPublishNodes_aside fun lookup =>
      tells_setDigestDetailed hrule hds.1 hds.2
  | conflict => exact ⟨fun _ => hds.1, fun _ _ => hds.2⟩

/-! ## Runs -/

/-- What the result of a task says about its deeds. -/
def Told (cl : Cluster) (a : Agent) (ds : List (Deed effects)) : Res → Prop
  | .reply r => Concluded a.job ds r
  | .update r => r ≠ some true → Unchanged ds
  | .set out => ∃ srv, cl.server a.loc = some srv ∧ Counted srv.ksize ds out.report
  | .get _ => Unchanged ds

theorem tells_prog {a : Agent} (hsrv : cl.server a.loc = some srv) :
    (storeWatch cl a.job).Tells (a.job.prog srv) (Told cl a) [] := by
  obtain ⟨n, loc, job⟩ := a
  cases job with
  | handle id src msg => exact (tells_handleRequest.imp fun _ _ h => h).bind
  | set name value =>
    exact ((tells_setDetailed (cl.same _ _ hsrv)).imp fun _ _ h => ⟨srv, hsrv, h⟩).bind
  | update name value auth =>
    exact ((tells_update fun _ _ h => by cases h).imp fun _ _ h => h).bind
  | get name => exact ((tells_get unchanged_nil).imp fun _ _ h => h).bind

/-- What a task did of the operations that are watched. -/
def touched (w : World) (a : Agent) : List (Deed effects) :=
  (deeds w a).filter fun d => Op.touches d.1

/-- **Every task of a run** was proper, and what it returned says what it did. -/
theorem run_told {w₀ : World} (h₀ : w₀.log = []) {c : (system cl).Config}
    (h : (system cl).Run w₀ c) {p : (system cl).Proc} (hp : p ∈ c.procs) :
    Every (fun pre d => Proper cl (Agent.job p.agent) pre d.1) (touched c.world p.agent) ∧
    ∀ res, p.prog.value? = some res → Told cl p.agent (touched c.world p.agent) res := by
  obtain ⟨hobeyed, htells⟩ := run_deeds h₀ (fun a => storeWatch cl a.job) (fun a => Told cl a)
    (fun h => effect_possible h) (fun n job hsrv => tells_prog hsrv) h p hp
  refine ⟨hobeyed, fun res hres => ?_⟩
  rw [Prog.eq_ret_of_value? hres] at htells
  exact htells

end

/-! ## The last access -/

section
variable {cl : Cluster} {w₀ : World} {ms : List (system cl).Move} {c : (system cl).Config}

/-- The run, stopped in `e` right after the last time the task accessed the store. -/
def LastAccess (cl : Cluster) (w₀ : World) (ms : List (system cl).Move) (a : Agent)
    (e c : (system cl).Config) : Prop :=
  ∃ before m after d, ms = before ++ m :: after ∧ (system cl).replay before ⟨w₀, []⟩ = some d ∧
    (system cl).move d m = some e ∧ (system cl).replay after e = some c ∧
    accesses d.world a ≠ accesses e.world a ∧ accesses e.world a = accesses c.world a

theorem mem_touched {w : World} {e : Event} (he : e ∈ w.log) (ho : Op.touches e.op = true) :
    e.deed ∈ touched w e.agent := List.mem_filter.mpr ⟨mem_deeds he, ho⟩

theorem changes_of_unchanged {w : World} {a : Agent} (h : Unchanged (touched w a)) {o : Op}
    {r : Ans o} {live : Option Bytes} (he : (⟨a, o, r, live⟩ : Event) ∈ w.log) :
    changes o r = false := by
  by_cases ho : Op.touches o = true
  · exact h _ (mem_touched he ho)
  · cases o <;> first | rfl | exact absurd rfl ho

theorem accesses_eq (w : World) (a : Agent) :
    accesses w a = (touched w a).filter isAccess := by
  rw [touched, List.filter_filter, accesses]
  refine List.filter_congr fun d _ => ?_
  obtain ⟨o, r⟩ := d
  cases o <;> rfl

/-- **The moment of an access**: after a deed of a task that was its last to the store. -/
theorem lastAccess_of_touched {a : Agent} (h : (system cl).replay ms ⟨w₀, []⟩ = some c)
    (h₀ : w₀.log = []) {pre post : List (Deed effects)} {d : Deed effects}
    (hd : isAccess d = true) (hpost : ∀ x ∈ post, isAccess x = false)
    (htouched : touched c.world a = pre ++ d :: post) :
    ∃ e w pick, LastAccess cl w₀ ms a e c ∧ exec cl a d.1 pick w = some (d.2, e.world) := by
  have hnone : touched w₀ a = [] := by rw [touched, deeds, h₀]; rfl
  obtain ⟨before, m, after, d₁, e, pick, rfl, hd₁, hm, hafter, hx, hpre⟩ :=
    (logbook cl).cut (W := storeWatch cl a.job) h
      (hnone.symm ▸ List.nil_prefix : touched w₀ a <+: pre) htouched
  have hpre : touched d₁.world a = pre := hpre
  have he : accesses e.world a = accesses d₁.world a ++ [d] := by
    have hself : deeds e.world a = deeds d₁.world a ++ [d] := (logbook cl).exec_self hx
    show (deeds e.world a).filter _ = (deeds d₁.world a).filter _ ++ [d]
    rw [hself, List.filter_append, List.filter_singleton, hd]
    rfl
  refine ⟨e, d₁.world, pick, ⟨before, m, after, d₁, rfl, hd₁, hm, hafter, ?_, ?_⟩, hx⟩
  · rw [he]
    exact fun heq => by simpa using congrArg List.length heq
  · have hnil : post.filter isAccess = [] :=
      List.filter_eq_nil_iff.mpr fun x hx => by rw [hpost x hx]; exact Bool.false_ne_true
    rw [he, accesses_eq d₁.world a, accesses_eq c.world a, hpre, htouched, List.filter_append,
      List.filter_cons_of_pos hd, hnil]

theorem lastAccess_of_leaves (h₀ : w₀.log = []) (h : (system cl).replay ms ⟨w₀, []⟩ = some c)
    {a : Agent} {key : NodeId} {value : Bytes} {pre post : List (Deed effects)}
    (htouched : touched c.world a = pre ++ post) (hleaves : Leaves key value pre)
    (hpost : ∀ x ∈ post, isAccess x = false) :
    ∃ e, LastAccess cl w₀ ms a e c ∧ World.live e.world a.loc key = some value := by
  obtain ⟨pre, d, rfl, hd⟩ := hleaves
  have haccess : isAccess d = true := by
    obtain ⟨o, r⟩ := d
    cases o <;> first | rfl | cases hd
  rw [List.append_assoc, List.singleton_append] at htouched
  obtain ⟨e, w, pick, hlast, hx⟩ := lastAccess_of_touched h h₀ haccess hpost htouched
  refine ⟨e, hlast, ?_⟩
  obtain ⟨w₁, heff, hw⟩ := exec_effect hx
  have hlive := effect_leaves heff hd
  rw [hw]
  exact hlive

end

end AuthKademlia.Runtime
