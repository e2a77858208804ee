import AuthKademlia.Protocol.Handlers

/-! # The API of a node: GET, SET and UPDATE -/
namespace AuthKademlia.Network
open AuthKademlia.Lib.Async AuthKademlia.Lib.Shortlist AuthKademlia.Utils AuthKademlia.Storage
open AuthKademlia.Crawling AuthKademlia.Protocol

/-! ## GET -/

/-- Byte-identical responses a Status List GET needs. -/
def readQuorum (alpha : Nat) : Nat := max alpha 1 / 2 + 1

def verifyValue (srv : Server) (key : String) (value : Bytes) : Routine Bool :=
  verifyRecord srv (srv.digest key) value

/-- `find_first_valid`, over the values in the order in which they arrive. -/
def findFirstValid (srv : Server) (key : String) : List Bytes → Routine (Option Bytes)
  | [] => return none
  | value :: rest => do
    if ← verifyValue srv key value then return some value
    else findFirstValid srv key rest

/-- The part of `get` that asks the network. -/
def getRemote (srv : Server) (key : String) (localValue : Option Bytes) :
    Routine (Option Bytes) := do
  if !srv.listening then return none
  let nearest ← findNeighbors (srv.digest key)
  if nearest.isEmpty then return none
  if key ≠ statusListKey then
    findFirstValid srv key (← arrivals (srv.digest key) nearest)
  else
    match ← findQuorum (srv.digest key) nearest localValue.toList (readQuorum srv.alpha)
        (max srv.alpha 1) with
    | some value => do
      if ← verifyValue srv key value then return some value else return none
    | none => return none

/-- `Server::get`: a DID record comes from the own store if it is there. -/
def get (srv : Server) (key : String) : Routine (Option Bytes) := do
  let localValue ← storageGet (srv.digest key)
  match localValue with
  | some result =>
    if key ≠ statusListKey then
      if ← verifyValue srv key result then return some result else return none
    else getRemote srv key localValue
  | none => getRemote srv key localValue

theorem findFirstValid_checks (srv : Server) (key : String) (values : List Bytes) :
    Checks (findFirstValid srv key values) := by
  induction values with
  | nil => exact .pure _
  | cons v rest ih =>
    refine .bind (verifyRecord_checks ..) fun ok => ?_
    split
    · exact .pure _
    · exact ih

theorem verified_checks (srv : Server) (key : String) (value : Bytes) :
    Checks (do if ← verifyValue srv key value then return some value else return none) := by
  refine .bind (verifyRecord_checks ..) fun ok => ?_
  split
  · exact .pure _
  · exact .pure _

/-- Operations of a GET beyond the own store. -/
def Op.isQuery (o : Op) : Bool :=
  o.isCheck || match o with
    | .findNeighbors _ | .arrivals _ _ | .findQuorum .. => true
    | _ => false

abbrev Queries {α : Type} (p : Routine α) : Prop :=
  Prog.Within (fun o : Op => Op.isQuery o = true) p

theorem queries_of_checks {α : Type} {p : Routine α} (h : Checks p) : Queries p :=
  h.imp fun _ ho => Bool.or_eq_true_iff.mpr (Or.inl ho)

theorem getRemote_queries (srv : Server) (key : String) (found : Option Bytes) :
    Queries (getRemote srv key found) := by
  unfold getRemote
  split
  · exact .pure _
  refine .bind (.perform rfl) fun nearest => ?_
  split
  · exact .pure _
  split
  · exact .bind (.perform rfl) fun values =>
      queries_of_checks (findFirstValid_checks srv key values)
  refine .bind (.perform rfl) fun answer => ?_
  split
  · exact queries_of_checks (verified_checks srv key _)
  · exact .pure _

theorem get_reads (srv : Server) (key : String) : Reads (get srv key) := by
  have hquery : ∀ {p : Routine (Option Bytes)}, Queries p → Reads p := fun h =>
    h.imp fun o ho => by cases o <;> first | rfl | cases ho
  refine .bind (.perform rfl) fun found => ?_
  split
  · split
    · exact hquery (queries_of_checks (verified_checks srv key _))
    · exact hquery (getRemote_queries srv key _)
  · exact hquery (getRemote_queries srv key _)

/-! ## The responsible nodes -/

/-- `dedup_by_key` on ids, after `prev`: of a run of equal ids the first stays. -/
def dedupById (prev : Node) : List Node → List Node
  | [] => [prev]
  | n :: ns => if n.id = prev.id then dedupById prev ns else prev :: dedupById n ns

/-- `select_responsible_nodes`: the `k` closest of the remote nodes and the local
one, and whether the local one is among them. -/
def selectResponsibleNodes (localNode target : Node) (remoteNodes : List Node) (ksize : Nat) :
    Bool × List Node :=
  let sorted := (remoteNodes ++ [localNode]).insertionSort fun a b =>
    a.distanceTo target ≤ b.distanceTo target
  let distinct := match sorted with
    | [] => []
    | n :: ns => dedupById n ns
  let chosen := distinct.take ksize
  (chosen.any fun n => n.id = localNode.id, chosen.filter fun n => n.id ≠ localNode.id)

/-- `dedup_by_key` leaves distinct ids alone. -/
theorem dedupById_eq : ∀ {n : Node} {ns : List Node}, ((n :: ns).map Node.id).Nodup →
    dedupById n ns = n :: ns
  | _, [], _ => rfl
  | n, m :: ns, h => by
    rw [List.map_cons, List.nodup_cons] at h
    have hne : m.id ≠ n.id := fun he => h.1 (by simp [he])
    rw [dedupById, if_neg hne, dedupById_eq h.2]

theorem selectResponsibleNodes_distinct {localNode target : Node} {remoteNodes : List Node}
    {ksize : Nat} (h : ((remoteNodes ++ [localNode]).map Node.id).Nodup) {chosen : List Node}
    (hchosen : ((remoteNodes ++ [localNode]).insertionSort fun a b =>
      a.distanceTo target ≤ b.distanceTo target).take ksize = chosen) :
    selectResponsibleNodes localNode target remoteNodes ksize =
      (chosen.any fun n => n.id = localNode.id, chosen.filter fun n => n.id ≠ localNode.id) := by
  have hnd := ((List.perm_insertionSort (fun a b : Node =>
    a.distanceTo target ≤ b.distanceTo target) (remoteNodes ++ [localNode])).map
      Node.id).nodup_iff.mpr h
  subst hchosen
  simp only [selectResponsibleNodes]
  cases hs : (remoteNodes ++ [localNode]).insertionSort fun a b =>
    a.distanceTo target ≤ b.distanceTo target with
  | nil => rfl
  | cons n ns =>
    have hdistinct := dedupById_eq (hs ▸ hnd)
    simp only [hdistinct]

theorem dedupById_ne_nil : ∀ (n : Node) (ns : List Node), dedupById n ns ≠ []
  | _, [] => by simp [dedupById]
  | n, m :: ns => by
    rw [dedupById]
    split
    · exact dedupById_ne_nil n ns
    · simp

theorem dedupById_subset : ∀ (n : Node) (ns : List Node), dedupById n ns ⊆ n :: ns
  | _, [] => List.Subset.refl _
  | n, m :: ns => by
    rw [dedupById]
    split
    · exact List.Subset.trans (dedupById_subset n ns)
        (List.cons_subset_cons n (List.subset_cons_self m ns))
    · exact List.cons_subset_cons n (dedupById_subset m ns)

theorem mem_ids_dedupById : ∀ (n : Node) (ns : List Node) (id : NodeId),
    id ∈ (dedupById n ns).map Node.id ↔ id ∈ (n :: ns).map Node.id
  | _, [], _ => Iff.rfl
  | n, m :: ns, id => by
    rw [dedupById]
    split
    · rename_i hid
      rw [mem_ids_dedupById n ns id]
      simp [hid]
    · rw [List.map_cons, List.mem_cons, mem_ids_dedupById m ns id]
      simp only [List.map_cons, List.mem_cons]

/-- Nodes sorted by their distance have equal ids next to each other, so that
`dedup_by_key` leaves one node for each id. -/
theorem dedupById_increasing {target : Node} : ∀ {n : Node} {ns : List Node},
    ((n :: ns).Pairwise fun a b => a.distanceTo target ≤ b.distanceTo target) →
      (dedupById n ns).Pairwise fun a b => a.distanceTo target < b.distanceTo target
  | _, [], _ => List.pairwise_singleton _ _
  | n, m :: ns, h => by
    obtain ⟨hn, hns⟩ := List.pairwise_cons.mp h
    rw [dedupById]
    split
    · exact dedupById_increasing (List.pairwise_cons.mpr
        ⟨fun b hb => hn b (List.mem_cons_of_mem m hb), hns.of_cons⟩)
    · rename_i hid
      refine List.pairwise_cons.mpr ⟨fun b hb => ?_, dedupById_increasing hns⟩
      have hlt : n.distanceTo target < m.distanceTo target :=
        Nat.lt_of_le_of_ne (hn m List.mem_cons_self) fun he => hid (distTo_injective _ he.symm)
      rcases List.mem_cons.mp (dedupById_subset m ns hb) with rfl | hb
      · exact hlt
      · exact Nat.lt_of_lt_of_le hlt ((List.pairwise_cons.mp hns).1 b hb)

/-- **The selection is a shortlist** of the nodes found and the local one. -/
theorem selectResponsibleNodes_nearest (localNode target : Node) (remoteNodes : List Node)
    (ksize : Nat) : ∃ chosen : List Node,
      selectResponsibleNodes localNode target remoteNodes ksize =
        (chosen.any fun n => n.id = localNode.id, chosen.filter fun n => n.id ≠ localNode.id) ∧
      Nearest ksize (distTo target.longId) {id | id ∈ (remoteNodes ++ [localNode]).map Node.id}
        (chosen.map Node.id) := by
  have hperm := List.perm_insertionSort (fun a b : Node =>
    a.distanceTo target ≤ b.distanceTo target) (remoteNodes ++ [localNode])
  have hsorted := List.pairwise_insertionSort (fun a b : Node =>
    a.distanceTo target ≤ b.distanceTo target) (remoteNodes ++ [localNode])
  refine ⟨_, rfl, ?_⟩
  generalize (remoteNodes ++ [localNode]).insertionSort (fun a b =>
    a.distanceTo target ≤ b.distanceTo target) = sorted at hperm hsorted ⊢
  cases sorted with
  | nil => simpa using hperm.length_eq
  | cons n ns =>
    have hinc : ((dedupById n ns).map Node.id).Pairwise fun a b =>
        distTo target.longId a < distTo target.longId b :=
      List.pairwise_map.mpr (dedupById_increasing hsorted)
    dsimp only
    rw [List.map_take]
    refine (nearest_take hinc).congr fun id => ?_
    exact (mem_ids_dedupById n ns id).trans (hperm.map Node.id).mem_iff

theorem mem_remotes_selected {localNode target : Node} {remoteNodes : List Node} {ksize : Nat}
    {n : Node} (hn : n ∈ (selectResponsibleNodes localNode target remoteNodes ksize).2) :
    n ∈ remoteNodes := by
  simp only [selectResponsibleNodes] at hn
  obtain ⟨hn, hid⟩ := List.mem_filter.mp hn
  have hmem := List.mem_of_mem_take hn
  have hsorted : n ∈ (remoteNodes ++ [localNode]).insertionSort fun a b =>
      a.distanceTo target ≤ b.distanceTo target := by
    split at hmem
    · cases hmem
    · rename_i m ms heq
      rw [heq]
      exact dedupById_subset m ms hmem
  rcases List.mem_append.mp ((List.mem_insertionSort _).mp hsorted) with h | h
  · exact h
  · rw [List.mem_singleton.mp h] at hid
    simp at hid

theorem selectResponsibleNodes_nonempty (localNode target : Node) (remoteNodes : List Node)
    {ksize : Nat} (hk : 1 ≤ ksize) :
    (selectResponsibleNodes localNode target remoteNodes ksize).1 = true ∨
      (selectResponsibleNodes localNode target remoteNodes ksize).2 ≠ [] := by
  simp only [selectResponsibleNodes]
  cases hs : (remoteNodes ++ [localNode]).insertionSort fun a b =>
    a.distanceTo target ≤ b.distanceTo target with
  | nil =>
    have hlen := congrArg List.length hs
    simp [List.length_insertionSort] at hlen
  | cons n ns =>
    obtain ⟨m, ms, hm⟩ := List.exists_cons_of_ne_nil (dedupById_ne_nil n ns)
    obtain ⟨k, rfl⟩ := Nat.exists_eq_add_of_le' hk
    simp only [hm, List.take_succ_cons]
    by_cases hid : m.id = localNode.id
    · exact Or.inl (by simp [hid])
    · exact Or.inr (by simp [hid])

/-! ## SET -/

structure SetReport where
  expectedReplicas : Nat := 0
  storedReplicas : Nat := 0
  alreadyPresent : Nat := 0
  capacityRejections : Nat := 0
  unavailableNodes : Nat := 0
  conflictRejections : Nat := 0
  invalidRejections : Nat := 0
  deriving DecidableEq

namespace SetReport

def acknowledgedReplicas (r : SetReport) : Nat := r.storedReplicas + r.alreadyPresent

def recordStatus (r : SetReport) : Option StoreStatus → SetReport
  | some .stored => { r with storedReplicas := r.storedReplicas + 1 }
  | some .alreadyStored => { r with alreadyPresent := r.alreadyPresent + 1 }
  | some .capacityExceeded => { r with capacityRejections := r.capacityRejections + 1 }
  | some .conflict => { r with conflictRejections := r.conflictRejections + 1 }
  | some .invalidRecord => { r with invalidRejections := r.invalidRejections + 1 }
  | none => { r with unavailableNodes := r.unavailableNodes + 1 }

/-- Is the answer counted as an acknowledgement? -/
def isAck : Option StoreStatus → Bool
  | some .stored | some .alreadyStored => true
  | _ => false

@[simp] theorem recordStatus_expected (r : SetReport) (s : Option StoreStatus) :
    (r.recordStatus s).expectedReplicas = r.expectedReplicas := by
  rcases s with _ | (_ | _ | _ | _ | _) <;> rfl

@[simp] theorem recordStatus_acknowledged (r : SetReport) (s : Option StoreStatus) :
    (r.recordStatus s).acknowledgedReplicas = r.acknowledgedReplicas + (isAck s).toNat := by
  rcases s with _ | (_ | _ | _ | _ | _) <;>
    simp [recordStatus, acknowledgedReplicas, isAck, Nat.add_right_comm, Nat.add_assoc]

/-- All counters but the expected replicas. -/
def total (r : SetReport) : Nat :=
  r.storedReplicas + r.alreadyPresent + r.capacityRejections + r.conflictRejections +
    r.invalidRejections + r.unavailableNodes

theorem recordStatus_total (r : SetReport) (s : Option StoreStatus) :
    (r.recordStatus s).total = r.total + 1 := by
  rcases s with _ | (_ | _ | _ | _ | _) <;> simp only [recordStatus, total] <;> omega

theorem foldl_expected (r : SetReport) (ss : List (Option StoreStatus)) :
    (ss.foldl recordStatus r).expectedReplicas = r.expectedReplicas := by
  induction ss generalizing r with
  | nil => rfl
  | cons s ss ih => rw [List.foldl_cons, ih, recordStatus_expected]

theorem foldl_counter {f : SetReport → Nat} {q : Option StoreStatus → Bool}
    (hf : ∀ r s, f (recordStatus r s) = f r + (q s).toNat) (r : SetReport)
    (ss : List (Option StoreStatus)) : f (ss.foldl recordStatus r) = f r + ss.countP q := by
  induction ss generalizing r with
  | nil => rfl
  | cons s ss ih =>
    rw [List.foldl_cons, ih, hf, List.countP_cons]
    cases q s with
    | false => rfl
    | true => exact Nat.add_right_comm _ _ _

theorem foldl_acknowledged (r : SetReport) (ss : List (Option StoreStatus)) :
    (ss.foldl recordStatus r).acknowledgedReplicas =
      r.acknowledgedReplicas + ss.countP isAck :=
  foldl_counter recordStatus_acknowledged r ss

theorem foldl_conflict (r : SetReport) (ss : List (Option StoreStatus)) :
    (ss.foldl recordStatus r).conflictRejections =
      r.conflictRejections + ss.countP fun s => s = some .conflict := by
  refine foldl_counter (fun r s => ?_) r ss
  rcases s with _ | (_ | _ | _ | _ | _) <;> rfl

theorem foldl_invalid (r : SetReport) (ss : List (Option StoreStatus)) :
    (ss.foldl recordStatus r).invalidRejections =
      r.invalidRejections + ss.countP fun s => s = some .invalidRecord := by
  refine foldl_counter (fun r s => ?_) r ss
  rcases s with _ | (_ | _ | _ | _ | _) <;> rfl

theorem foldl_total (r : SetReport) (ss : List (Option StoreStatus)) :
    (ss.foldl recordStatus r).total = r.total + ss.length := by
  rw [foldl_counter (q := fun _ => true) recordStatus_total, List.countP_true]

end SetReport

inductive SetRejection where
  | existingRecord
  | invalidRecord
  | replicaConflict
  | capacityExceeded
  | unavailable
  | noResponsibleNodes
  deriving DecidableEq

inductive SetOutcome where
  | complete (report : SetReport)
  | degraded (report : SetReport)
  | rejected (reason : SetRejection) (report : SetReport)
  deriving DecidableEq

def SetOutcome.report : SetOutcome → SetReport
  | .complete report | .degraded report | .rejected _ report => report

def classifySetReport (r : SetReport) : SetOutcome :=
  if r.conflictRejections > 0 then .rejected .replicaConflict r
  else if r.invalidRejections > 0 then .rejected .invalidRecord r
  else if r.expectedReplicas = 0 then .rejected .noResponsibleNodes r
  else if r.acknowledgedReplicas = r.expectedReplicas then .complete r
  else if r.acknowledgedReplicas > 0 then .degraded r
  else if r.capacityRejections > 0 then .rejected .capacityExceeded r
  else .rejected .unavailable r

@[simp] theorem classifySetReport_report (r : SetReport) : (classifySetReport r).report = r := by
  unfold classifySetReport
  repeat' split
  all_goals rfl

theorem classifySetReport_complete_iff {r : SetReport} : classifySetReport r = .complete r ↔
    r.conflictRejections = 0 ∧ r.invalidRejections = 0 ∧ r.expectedReplicas ≠ 0 ∧
      r.acknowledgedReplicas = r.expectedReplicas := by
  unfold classifySetReport
  repeat' split
  all_goals
    simp only [reduceCtorEq, false_iff, true_iff]
    omega

theorem classifySetReport_degraded_iff {r : SetReport} : classifySetReport r = .degraded r ↔
    r.conflictRejections = 0 ∧ r.invalidRejections = 0 ∧ r.expectedReplicas ≠ 0 ∧
      r.acknowledgedReplicas ≠ r.expectedReplicas ∧ 0 < r.acknowledgedReplicas := by
  unfold classifySetReport
  repeat' split
  all_goals
    simp only [reduceCtorEq, false_iff, true_iff]
    omega

theorem classifySetReport_complete {r r' : SetReport} (h : classifySetReport r = .complete r') :
    r.acknowledgedReplicas = r.expectedReplicas := by
  have hreport := congrArg SetOutcome.report h
  rw [classifySetReport_report] at hreport
  obtain rfl : r = r' := hreport
  exact (classifySetReport_complete_iff.mp h).2.2.2

inductive PublishLookup where
  | missing (lookup : LookupNodes)
  | identical
  | conflict

/-- `LookupNodes::default`. -/
def noNodes : LookupNodes := ⟨[], 0⟩

def discoverPublishNodes (srv : Server) (dkey : NodeId) : Routine LookupNodes := do
  if !srv.listening then return noNodes
  let nearest ← findNeighbors dkey
  if nearest.isEmpty then return noNodes
  lookupNodes dkey nearest

def checkPublishState (srv : Server) (key : String) (value : Bytes) : Routine PublishLookup := do
  match ← storageGet (srv.digest key) with
  | some existing => return if existing = value then .identical else .conflict
  | none =>
    if !srv.listening then return .missing noNodes
    let nearest ← findNeighbors (srv.digest key)
    if nearest.isEmpty then return .missing noNodes
    match ← lookupValue (srv.digest key) nearest with
    | (some found, _) =>
      if ← verifyValue srv key found then
        return if found = value then .identical else .conflict
      else return .missing (← discoverPublishNodes srv (srv.digest key))
    | (none, lookup) => return .missing lookup

/-- A node with no reachable peer but with known contacts or seeds is cut off. -/
def isCutOff (remotes : List Node) : Routine Bool :=
  if remotes.isEmpty then knowsOthers else return false

/-- The local part of a publication. -/
def storeLocally (storeLocal : Bool) (dkey : NodeId) (value : Bytes) (report : SetReport) :
    Routine SetReport := do
  if storeLocal then
    return report.recordStatus (some (StoreStatus.ofWrite (← insertIfAbsent dkey value)))
  else return report

def setDigestDetailed (srv : Server) (dkey : NodeId) (value : Bytes) (lookup : LookupNodes) :
    Routine SetOutcome := do
  if !srv.listening then return .rejected .unavailable {}
  let (storeLocal, remotes) :=
    selectResponsibleNodes srv.node (.fromId dkey) lookup.nodes srv.ksize
  select dkey lookup storeLocal remotes
  let cutOff ← isCutOff remotes
  let report : SetReport :=
    { expectedReplicas := remotes.length + storeLocal.toNat + cutOff.toNat
      unavailableNodes := max lookup.unresponsive cutOff.toNat }
  let report ← storeLocally storeLocal dkey value report
  let statuses ← Prog.joinAll remotes fun n => callStoreRpc srv n dkey value
  return classifySetReport (statuses.foldl SetReport.recordStatus report)

def setDetailed (srv : Server) (key : String) (value : Bytes) : Routine SetOutcome := do
  if !(← verifyValue srv key value) then return .rejected .invalidRecord {}
  if !srv.listening then return .rejected .unavailable {}
  match ← checkPublishState srv key value with
  | .missing lookup => setDigestDetailed srv (srv.digest key) value lookup
  | .identical => do
    setDigestDetailed srv (srv.digest key) value (← discoverPublishNodes srv (srv.digest key))
  | .conflict => return .rejected .existingRecord {}

/-- What `Server::set` says of an outcome. -/
def SetOutcome.result : SetOutcome → Option Bool
  | .complete _ => some true
  | .degraded _ => some false
  | .rejected reason _ => match reason with
    | .existingRecord | .invalidRecord | .replicaConflict => none
    | .capacityExceeded | .unavailable | .noResponsibleNodes => some false

def set (srv : Server) (key : String) (value : Bytes) : Routine (Option Bool) := do
  return (← setDetailed srv key value).result

/-! ## UPDATE -/

/-- The message to one replica. A replica without the record refuses the update
and is sent the record as a STORE. -/
def updateReplica (srv : Server) (isStatusList : Bool) (dkey : NodeId) (value : Bytes)
    (authSignature : Option Bytes) (n : Node) : Routine Bool := do
  if isStatusList then callStatusListUpdateRpc srv n dkey value
  else
    match ← callUpdateRpcAnswer srv n dkey value (authSignature.getD []) with
    | some true => return true
    | some false => do
      match ← callStoreRpc srv n dkey value with
      | some .stored | some .alreadyStored => return true
      | _ => return false
    | none => return false

theorem updateReplica_within {ok : Op → Prop} {srv : Server} {isStatusList : Bool} {dkey : NodeId}
    {value : Bytes} {authSignature : Option Bytes} {n : Node} (hwait : ∀ id, ok (.receive id))
    (hlist : ∀ addr, ok (.send addr (.updateStatusList srv.node.id dkey value)))
    (hupdate : ∀ addr, ok (.send addr (.update srv.node.id dkey value (authSignature.getD []))))
    (hstore : ∀ addr, ok (.send addr (.store srv.node.id dkey value))) :
    Prog.Within ok (updateReplica srv isStatusList dkey value authSignature n) := by
  unfold updateReplica
  split
  · exact callStatusListUpdateRpc_within hwait hlist
  refine .bind (callUpdateRpcAnswer_within hwait hupdate) fun answer => ?_
  split
  · exact .pure _
  · refine .bind (callStoreRpc_within hwait hstore) fun status => ?_
    split
    · exact .pure _
    · exact .pure _
    · exact .pure _
  · exact .pure _

/-- The remote part of the consistency group, and its size with the local vote. -/
def primaryRemoteCount (alpha : Nat) (storeLocal : Bool) (replicas : Nat) : Nat :=
  min (alpha - storeLocal.toNat) replicas

/-- Is there a majority in the consistency group? -/
def quorumMet (alpha : Nat) (storeLocal : Bool) (results : List Bool) : Bool :=
  let primary := primaryRemoteCount alpha storeLocal results.length
  let groupSize := storeLocal.toNat + primary
  let acknowledgements := storeLocal.toNat + (results.take primary).count true
  groupSize ≠ 0 && groupSize / 2 + 1 ≤ acknowledgements

theorem quorumMet_of_all {alpha : Nat} {storeLocal : Bool} {results : List Bool}
    (halpha : 1 ≤ alpha) (hall : ∀ r ∈ results, r = true)
    (hsome : storeLocal = true ∨ results ≠ []) : quorumMet alpha storeLocal results = true := by
  have hcount : ∀ n, (results.take n).count true = min n results.length := by
    intro n
    rw [List.count_eq_length.mpr fun r hr => (hall r (List.mem_of_mem_take hr)).symm,
      List.length_take]
  have hgroup : storeLocal.toNat + primaryRemoteCount alpha storeLocal results.length ≠ 0 := by
    rcases hsome with rfl | hne
    · simp
    · have hlen := List.length_pos_of_ne_nil hne
      unfold primaryRemoteCount
      cases storeLocal with
      | true => simp
      | false =>
        rw [Bool.toNat_false]
        omega
  simp only [quorumMet, hcount, Bool.and_eq_true, decide_eq_true_eq]
  refine ⟨hgroup, ?_⟩
  have hle : primaryRemoteCount alpha storeLocal results.length ≤ results.length :=
    Nat.min_le_right _ _
  omega

def updateDigest (srv : Server) (key : String) (value : Bytes) (authSignature : Option Bytes) :
    Routine Bool := do
  let dkey := srv.digest key
  if !srv.listening then return false
  let nearest ← findNeighbors dkey
  if nearest.isEmpty then return false
  let lookup ← lookupNodes dkey nearest
  let (storeLocal, remotes) :=
    selectResponsibleNodes srv.node (.fromId dkey) lookup.nodes srv.ksize
  select dkey lookup storeLocal remotes
  let results ← Prog.joinAll remotes fun n =>
    updateReplica srv (key = statusListKey) dkey value authSignature n
  if quorumMet srv.alpha storeLocal results then
    if storeLocal then return (← storageSet dkey value) ≠ .capacityExceeded
    else return true
  else return false

/-- The authorisation check of `update` against the record that was read. -/
def updateAuthorised (srv : Server) (key : String) (value oldValue : Bytes)
    (authSignature : Option Bytes) : Routine Bool :=
  -- a retry of an update that already reached this copy
  if key ≠ statusListKey ∧ oldValue = value then return true
  else if key = statusListKey ∧ authSignature = none then verifyIssuerSigned srv value
  else verifyRotation srv (srv.digest key) value oldValue (authSignature.getD [])

theorem updateAuthorised_checks (srv : Server) (key : String) (value oldValue : Bytes)
    (authSignature : Option Bytes) :
    Checks (updateAuthorised srv key value oldValue authSignature) := by
  unfold updateAuthorised
  split
  · exact .pure _
  split
  · exact .perform rfl
  · exact .perform rfl

def update (srv : Server) (key : String) (value : Bytes) (authSignature : Option Bytes) :
    Routine (Option Bool) := do
  match ← get srv key with
  | none => return none
  | some oldValue =>
    against (srv.digest key) oldValue
    if !(← updateAuthorised srv key value oldValue authSignature) then return none
    return some (← updateDigest srv key value authSignature)

end AuthKademlia.Network
