import AuthKademlia.Network.Server
import AuthKademlia.Properties.Neighbours

/-! # The closest nodes

A lookup keeps the closest nodes it hears of in a `NodeHeap`; a publication chooses
the closest of what it found and of the local node with `select_responsible_nodes`.
Both are the exact shortlist of the ids they were given, in any order and with
repetitions. A replica that checks the network decides by another count whether it is
among the closest, and decides the same. -/
namespace AuthKademlia.Properties
open AuthKademlia.Lib.Shortlist AuthKademlia.Utils AuthKademlia.Routing AuthKademlia.Protocol
open AuthKademlia.Network

/-! ## The shortlist of a lookup -/

/-- The `k` ids closest to the pivot, of a list that may repeat them. -/
def closestIds (k : Nat) (pivot : Node) (ids : List NodeId) : List NodeId :=
  (ids.dedup.insertionSort fun a b => distTo pivot.longId a ≤ distTo pivot.longId b).take k

theorem nearest_closestIds (k : Nat) (pivot : Node) (ids : List NodeId) :
    Nearest k (distTo pivot.longId) {a | a ∈ ids} (closestIds k pivot ids) :=
  (nearest_sort (fun _ _ _ _ he => distTo_injective _ he) ids.nodup_dedup).congr
    fun _ => List.mem_dedup

/-- **A shortlist is the exact bounded top of what was pushed.** After any calls its
entries have different ids, carry their distance to the pivot, increase in it and are
at most `maxsize`. After calls that only push, its ids are the `maxsize` closest of those
pushed; neither their order nor the batches matter. -/
theorem shortlist_exact (pivot : Node) (maxsize : Nat) :
    (∀ calls, ((NodeHeap.after pivot maxsize calls).entries.map fun e => e.node.id).Nodup ∧
      ((NodeHeap.after pivot maxsize calls).entries.Pairwise fun a b => a.distance < b.distance) ∧
      (∀ e ∈ (NodeHeap.after pivot maxsize calls).entries,
        e.distance = pivot.distanceTo e.node) ∧
      (NodeHeap.after pivot maxsize calls).entries.length ≤ maxsize) ∧
    (∀ calls, (∀ c ∈ calls, c.pushed.isSome) →
      ((NodeHeap.after pivot maxsize calls).entries.map fun e => e.node.id) =
        closestIds maxsize pivot (NodeHeap.pushedIds calls)) ∧
    ∀ calls calls', (∀ c ∈ calls ++ calls', c.pushed.isSome) →
      (∀ id, id ∈ NodeHeap.pushedIds calls ↔ id ∈ NodeHeap.pushedIds calls') →
      (NodeHeap.after pivot maxsize calls).getIds =
        (NodeHeap.after pivot maxsize calls').getIds := by
  refine ⟨fun calls => ?_, fun calls hpush => ?_, fun calls calls' hpush hids => ?_⟩
  · obtain ⟨hw, hnode, hmax⟩ := NodeHeap.wf_after pivot maxsize calls
    refine ⟨hw.getIds_eq ▸ hw.getIds_nodup, hw.increasing, fun e he => ?_, ?_⟩
    · rw [hw.labelled e he, hnode, Node.distanceTo_comm, Node.distanceTo_eq]
    · exact Nat.le_trans hw.length_le (Nat.le_of_eq hmax)
  · rw [← (NodeHeap.wf_after pivot maxsize calls).1.getIds_eq]
    exact (NodeHeap.nearest_after hpush).unique (nearest_closestIds maxsize pivot _)
  · have hnear : Nearest maxsize (distTo pivot.longId) {a | a ∈ NodeHeap.pushedIds calls}
        (NodeHeap.after pivot maxsize calls).getIds :=
      NodeHeap.nearest_after fun c hc => hpush c (List.mem_append_left calls' hc)
    exact (hnear.congr hids).unique
      (NodeHeap.nearest_after fun c hc => hpush c (List.mem_append_right calls hc))

/-- Two of three nodes are kept, one node at a time or all at once. -/
theorem shortlist_exact_two :
    (NodeHeap.after (.fromId (filledId 0)) 2 [.pushOne (.fromId (filledId 4)),
      .pushOne (.fromId (filledId 2)), .push [.fromId (filledId 1)]]).getIds =
    (NodeHeap.after (.fromId (filledId 0)) 2 [.push [.fromId (filledId 1), .fromId (filledId 2),
      .fromId (filledId 4), .fromId (filledId 2)]]).getIds := by
  refine (shortlist_exact (.fromId (filledId 0)) 2).2.2 _ _ (by simp [NodeHeap.Call.pushed]) ?_
  intro id
  simp only [NodeHeap.pushedIds, NodeHeap.Call.pushed, List.flatMap_cons, List.flatMap_nil,
    Option.getD_some, List.map_append, List.map_cons, List.map_nil, Node.fromId]
  simp
  grind

/-! ## The replicas of a record -/

section
variable {localNode target : Node} {remoteNodes : List Node} {k : Nat}

def candidates (localNode : Node) (remoteNodes : List Node) : List NodeId :=
  ((remoteNodes ++ [localNode]).map Node.id).dedup

/-- How many different ids among the remote nodes are strictly closer to the target. -/
def closerIds (localNode target : Node) (remoteNodes : List Node) : Nat :=
  (remoteNodes.map Node.id).dedup.countP fun id =>
    distTo target.longId id < localNode.distanceTo target

/-- The selection is the exact top `k` of the remote nodes and the local one. -/
structure ReplicaChoice (localNode target : Node) (remoteNodes : List Node) (k : Nat)
    (storeLocal : Bool) (remotes : List Node) : Prop where
  stores : storeLocal = true ↔ closerIds localNode target remoteNodes < k
  distinct : (remotes.map Node.id).Nodup
  foreign : localNode.id ∉ remotes.map Node.id
  among : ∀ n ∈ remotes, n ∈ remoteNodes
  increasing : remotes.Pairwise fun a b => a.distanceTo target < b.distanceTo target
  length : storeLocal.toNat + remotes.length = min k (candidates localNode remoteNodes).length
  closest : ∀ id ∈ candidates localNode remoteNodes,
    ¬ (storeLocal = true ∧ id = localNode.id ∨ id ∈ remotes.map Node.id) →
      (storeLocal = true → localNode.distanceTo target < distTo target.longId id) ∧
      ∀ n ∈ remotes, n.distanceTo target < distTo target.longId id

theorem countP_candidates :
    ((candidates localNode remoteNodes).countP fun id =>
      distTo target.longId id < distTo target.longId localNode.id) =
      closerIds localNode target remoteNodes := by
  rw [closerIds, candidates, List.countP_eq_length_filter, List.countP_eq_length_filter]
  refine ((List.perm_ext_iff_of_nodup ((List.nodup_dedup _).filter _)
    ((List.nodup_dedup _).filter _)).mpr fun id => ?_).length_eq
  simp only [List.mem_filter, List.mem_dedup, List.map_append, List.map_cons, List.map_nil,
    List.mem_append, List.mem_singleton, Node.distanceTo_eq]
  constructor
  · rintro ⟨hid | rfl, hlt⟩
    · exact ⟨hid, hlt⟩
    · exact absurd (of_decide_eq_true hlt) (Nat.lt_irrefl _)
  · rintro ⟨hid, hlt⟩
    exact ⟨Or.inl hid, hlt⟩

theorem length_filter_ne {α : Type} [DecidableEq α] {a : α} {l : List α} (h : l.Nodup) :
    (decide (a ∈ l)).toNat + (l.filter fun b => b ≠ a).length = l.length := by
  have herase : (l.filter fun b => b ≠ a) = l.erase a := by
    rw [h.erase_eq_filter]
    exact List.filter_congr fun b _ => by by_cases hb : b = a <;> simp [hb]
  rw [herase]
  by_cases ha : a ∈ l
  · have hpos := List.length_pos_of_mem ha
    rw [decide_eq_true ha, List.length_erase_of_mem ha, Bool.toNat_true]
    omega
  · rw [decide_eq_false ha, List.erase_of_not_mem ha, Bool.toNat_false, Nat.zero_add]

theorem selectResponsibleNodes_choice (localNode target : Node) (remoteNodes : List Node)
    (k : Nat) :
    ReplicaChoice localNode target remoteNodes k
      (selectResponsibleNodes localNode target remoteNodes k).1
      (selectResponsibleNodes localNode target remoteNodes k).2 := by
  have hamong : ∀ n ∈ (selectResponsibleNodes localNode target remoteNodes k).2,
      n ∈ remoteNodes := fun n hn => mem_remotes_selected hn
  obtain ⟨chosen, heq, hnear⟩ := selectResponsibleNodes_nearest localNode target remoteNodes k
  rw [heq] at hamong ⊢
  have hstore : (chosen.any fun n => n.id = localNode.id) =
      decide (localNode.id ∈ chosen.map Node.id) := by
    rw [Bool.eq_iff_iff, List.any_eq_true, decide_eq_true_eq, List.mem_map]
    simp only [decide_eq_true_eq]
  have hremotes : (chosen.filter fun n => n.id ≠ localNode.id).map Node.id =
      (chosen.map Node.id).filter fun id => id ≠ localNode.id := by
    rw [List.filter_map]
    rfl
  have hnear : Nearest k (distTo target.longId) {id | id ∈ candidates localNode remoteNodes}
      (chosen.map Node.id) := hnear.congr fun _ => List.mem_dedup.symm
  have hnd : (candidates localNode remoteNodes).Nodup := List.nodup_dedup _
  have hlocal : localNode.id ∈ candidates localNode remoteNodes := List.mem_dedup.mpr (by simp)
  have hin : ∀ id, (chosen.any fun n => n.id = localNode.id) = true ∧ id = localNode.id ∨
      id ∈ (chosen.filter fun n => n.id ≠ localNode.id).map Node.id ↔ id ∈ chosen.map Node.id := by
    intro id
    rw [hstore, hremotes, decide_eq_true_eq, List.mem_filter, decide_eq_true_eq]
    by_cases hid : id = localNode.id
    · simp [hid]
    · simp [hid]
  refine ⟨?_, ?_, ?_, hamong, ?_, ?_, fun id hid hout => ?_⟩
  · rw [hstore, decide_eq_true_eq, hnear.mem_iff_countP hnd hlocal, countP_candidates]
  · rw [hremotes]
    exact hnear.nodup.filter _
  · rw [hremotes]
    simp
  · exact (List.pairwise_map.mp hnear.increasing).sublist List.filter_sublist
  · have hlen := length_filter_ne (a := localNode.id) hnear.nodup
    rw [hstore, ← List.length_map (f := Node.id), hremotes, hlen, hnear.length_eq hnd]
  · rw [hin] at hout
    have hfar := (hnear.rest id hid hout).2
    refine ⟨fun hown => hfar localNode.id ?_, fun n hn => hfar n.id ?_⟩
    · rwa [hstore, decide_eq_true_eq] at hown
    · exact List.mem_map_of_mem (List.mem_of_mem_filter hn)

end

/-- The count of `network_copy`, over neighbours with different ids. -/
theorem amongClosest_eq {t : RoutingTable} (hnd : (t.primaries.map Node.id).Nodup)
    (target : Node) :
    amongClosest t target =
      decide (closerIds t.node target (t.findNeighbors target none) < t.ksize) := by
  have hids : ((t.findNeighbors target none).map Node.id).Nodup := by
    rcases findNeighbors_cases t target none with ⟨-, h⟩ | ⟨-, -, h⟩ | ⟨-, -, h⟩ <;> rw [h] <;>
      exact (closest_closestOf hnd target none _).distinct
  rw [amongClosest, closerIds, hids.dedup, List.countP_map, List.countP_eq_length_filter]
  rfl

/-- **Replica selection is the exact top `k` with the local node**, for any list of remote
nodes. On the neighbours of a node it stores at the node itself exactly when the check
of `network_copy` takes the node for one of the closest. -/
theorem replica_selection_exact :
    (∀ (localNode target : Node) (remoteNodes : List Node) (k : Nat),
      ReplicaChoice localNode target remoteNodes k
        (selectResponsibleNodes localNode target remoteNodes k).1
        (selectResponsibleNodes localNode target remoteNodes k).2) ∧
    ∀ (start : Nat) (own : Node) (k : Nat) (actions : List RoutingTable.Action) (target : Node),
      (selectResponsibleNodes own target
        ((RoutingTable.after start own k actions).findNeighbors target none) k).1 =
        amongClosest (RoutingTable.after start own k actions) target := by
  refine ⟨selectResponsibleNodes_choice, fun start own k actions target => ?_⟩
  have hstores := (selectResponsibleNodes_choice own target
    ((RoutingTable.after start own k actions).findNeighbors target none) k).stores
  rw [amongClosest_eq (RoutingTable.nodup_primaries_after start own k actions),
    RoutingTable.ksize_after, Bool.eq_iff_iff, decide_eq_true_eq, hstores]
  rcases Nat.eq_zero_or_pos k with rfl | hk
  · exact ⟨fun h => absurd h (Nat.not_lt_zero _), fun h => absurd h (Nat.not_lt_zero _)⟩
  · rw [(RoutingTable.ok_after hk start own actions).node]

end AuthKademlia.Properties
