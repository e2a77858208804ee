import AuthKademlia.Crawling.StableSearch
import AuthKademlia.Network.Server

/-! # Publishing and reading in a stable network

Every node comes to the same responsible nodes for a key, though each of them looks the
key up in its own table and leaves itself out of the lookup. A record that these nodes
hold is therefore found by everybody else. -/
namespace AuthKademlia.Properties
open AuthKademlia.Lib.Shortlist AuthKademlia.Utils AuthKademlia.Routing AuthKademlia.Crawling
open AuthKademlia.Crawling.NodeLookup AuthKademlia.Crawling.StableNetwork
open AuthKademlia.Crawling.ValueSearch AuthKademlia.Network

variable {k : Nat}

theorem selected_responsible (net : StableNetwork.Network k) {p : Node} (hp : p ∈ net.nodes)
    {key : NodeId} {found : List Node} (hfound : ∀ n ∈ found, n ∈ net.others p)
    (hnearest : Nearest k (distTo (Node.fromId key).longId)
      {x | x ∈ (net.others p).map Node.id} (found.map Node.id)) :
    selectResponsibleNodes p (.fromId key) found k =
      (decide (p ∈ net.responsible key), (net.responsible key).filter fun n => n.id ≠ p.id) := by
  obtain ⟨chosen, heq, hchosen⟩ := selectResponsibleNodes_nearest p (.fromId key) found k
  have hall : Nearest k (distTo (Node.fromId key).longId) {x | x ∈ net.nodes.map Node.id}
      (chosen.map Node.id) := by
    have hgrow := hnearest.grow (T := {p.id}) (hchosen.congr fun x => by
      simp [List.map_append, or_comm])
    refine hgrow.congr fun x => ⟨?_, fun hx => ?_⟩
    · rintro (hx | rfl)
      · obtain ⟨n, hn, rfl⟩ := List.mem_map.mp hx
        exact List.mem_map_of_mem (Network.mem_others.mp hn).1
      · exact List.mem_map_of_mem hp
    · obtain ⟨n, hn, rfl⟩ := List.mem_map.mp hx
      by_cases hid : n.id = p.id
      · exact Or.inr hid
      · exact Or.inl (List.mem_map_of_mem (Network.mem_others.mpr ⟨hn, hid⟩))
  have hids := hall.unique (net.responsible_nearest key)
  have hlocal : (chosen.any fun n => n.id = p.id) = decide (p ∈ net.responsible key) := by
    rw [Bool.eq_iff_iff, List.any_eq_true, decide_eq_true_eq]
    constructor
    · rintro ⟨n, hn, hid⟩
      have hmem : p.id ∈ (net.responsible key).map Node.id := by
        rw [← hids, ← of_decide_eq_true hid]
        exact List.mem_map_of_mem hn
      obtain ⟨m, hm, hmid⟩ := List.mem_map.mp hmem
      rwa [← Network.eq_of_id (Network.mem_nodes_of_responsible hm) hp hmid]
    · intro hmem
      have hmem : p.id ∈ chosen.map Node.id := by
        rw [hids]
        exact List.mem_map_of_mem hmem
      obtain ⟨n, hn, hid⟩ := List.mem_map.mp hmem
      exact ⟨n, hn, decide_eq_true hid⟩
  have hremote : ∀ n ∈ chosen.filter fun n => n.id ≠ p.id, n ∈ net.nodes := by
    intro n hn
    have hsel : n ∈ (selectResponsibleNodes p (.fromId key) found k).2 := by
      rw [heq]
      exact hn
    exact (Network.mem_others.mp (hfound n (mem_remotes_selected hsel))).1
  have hfilter : ∀ l : List Node, (l.filter fun n => n.id ≠ p.id).map Node.id =
      (l.map Node.id).filter fun x => x ≠ p.id := fun l => by
    rw [List.filter_map]
    rfl
  rw [heq, hlocal]
  refine congrArg (Prod.mk _) (eq_of_ids_eq net hremote (fun n hn => ?_) ?_)
  · exact Network.mem_nodes_of_responsible (List.mem_of_mem_filter hn)
  · rw [hfilter, hfilter, hids]

/-- **All nodes agree on who is responsible for a key.** Whichever node looks the key up and
selects the replicas, and in whatever order its lookup is answered, it selects the closest
nodes of the whole network, itself included. -/
theorem responsible_nodes_agreed (net : StableNetwork.Network k) (hk : 1 ≤ k) (alpha : Nat)
    (p : Node) (hp : p ∈ net.nodes) (key : NodeId) (hkey : key ∉ net.nodes.map Node.id)
    (peers : Peers) (hpeers : net.Honest p key peers) : ∃ bound L rs,
      (∀ fuel ≥ bound, findLookupNodes peers fuel
        (.new (.fromId key) ((net.table p).findNeighbors (.fromId key) none) k alpha) [] =
          some (L, rs)) ∧
      selectResponsibleNodes p (.fromId key) L.nodes k =
        (decide (p ∈ net.responsible key), (net.responsible key).filter fun n => n.id ≠ p.id) := by
  obtain ⟨bound, L, rs, hret, hfound, hnearest⟩ := lookup_nearest net hk alpha hp hkey hpeers
  exact ⟨bound, L, rs, hret, selected_responsible net hp hfound hnearest⟩

/-- **A published record is found.** Suppose that the nodes some node `p` selected for a key
hold copies that the reader `r` accepts, and nobody holds one that it does not accept. Then a
search of `r` for the key ends, in whatever order the answers arrive, and finds a copy, unless
`r` is the only responsible node. -/
theorem published_record_found (net : StableNetwork.Network k) (hk : 1 ≤ k) (p r : Node)
    (hp : p ∈ net.nodes) (hr : r ∈ net.nodes) (key : NodeId)
    (hkey : key ∉ net.nodes.map Node.id) (alpha alpha' : Nat)
    (peers : Peers) (hpeers : net.Honest p key peers) (fuel : Nat) (L : LookupNodes)
    (rs : List Round)
    (hlookup : findLookupNodes peers fuel
      (.new (.fromId key) ((net.table p).findNeighbors (.fromId key) none) k alpha) [] =
        some (L, rs))
    (serves : NodeId → Option Bytes) (accept : Bytes → Option Bytes)
    (hlocal : (selectResponsibleNodes p (.fromId key) L.nodes k).1 = true → (serves p.id).isSome)
    (hremote : ∀ n ∈ (selectResponsibleNodes p (.fromId key) L.nodes k).2, (serves n.id).isSome)
    (haccept : ∀ g ∈ net.nodes, ∀ v, serves g.id = some v → (accept v).isSome)
    (env : SearchPeers) (henv : HonestValues net serves r key env)
    (hother : ∃ n ∈ net.responsible key, n.id ≠ r.id) :
    (∃ fuel e, search env none accept fuel
      (.new (.fromId key) ((net.table r).findNeighbors (.fromId key) none) k alpha') false [] =
        some e) ∧
    ∀ fuel e, search env none accept fuel
      (.new (.fromId key) ((net.table r).findNeighbors (.fromId key) none) k alpha') false [] =
        some e →
      ∃ w, e.outcome = .found w ∧
        ∃ g ∈ net.nodes, ∃ v, serves g.id = some v ∧ accept v = some w := by
  obtain ⟨bound, L', rs', hret, hfound, hnearest⟩ := lookup_nearest net hk alpha hp hkey hpeers
  -- more fuel does not change what a lookup returns
  have hsame := (findLookupNodes_mono hlookup (Nat.le_max_left fuel bound)).symm.trans
    (hret _ (Nat.le_max_right fuel bound))
  obtain ⟨rfl, -⟩ := Prod.mk.inj (Option.some.inj hsame)
  rw [selected_responsible net hp hfound hnearest] at hlocal hremote
  have hholds : ∀ n ∈ net.responsible key, (serves n.id).isSome := by
    intro n hn
    by_cases hid : n.id = p.id
    · have hnp := Network.eq_of_id (Network.mem_nodes_of_responsible hn) hp hid
      subst hnp
      exact hlocal (decide_eq_true hn)
    · exact hremote n (List.mem_filter.mpr ⟨hn, decide_eq_true hid⟩)
  obtain ⟨n, hn, hnr⟩ := hother
  have hin := inside_new hk hr key alpha'
  constructor
  · exact search_returns (going_new hin.keeps.tracks) env
  · intro fuel e hsearch
    have hl := net.others_nearest r key
    refine search_finds hk hr hkey henv haccept hl ?_ (hholds n hn) hin (by simp [askedIds]) hsearch
    refine (net.responsible_nearest key).mem_of_subset hl ?_ (List.mem_map_of_mem hn) ?_
    · intro x hx
      obtain ⟨m, hm, rfl⟩ := List.mem_map.mp hx
      exact List.mem_map_of_mem (Network.mem_others.mp hm).1
    · exact List.mem_map_of_mem (Network.mem_others.mpr
        ⟨Network.mem_nodes_of_responsible hn, hnr⟩)

/-- The node 1 publishes under the key 4, for which 5 and 1 are responsible, and 2 reads. -/
def heldByFiveAndOne (id : NodeId) : Option Bytes :=
  if id = filledId 2 then none else some [7]

theorem responsible_threeNodes :
    threeNodes.responsible (filledId 4) = [.fromId (filledId 5), .fromId (filledId 1)] := by
  decide

theorem responsible_nodes_agreed_threeNodes : ∃ bound L rs,
    (∀ fuel ≥ bound, findLookupNodes (threeNodes.peers (.fromId (filledId 2)) (filledId 4)) fuel
      (.new (.fromId (filledId 4)) ((threeNodes.table (.fromId (filledId 2))).findNeighbors
        (.fromId (filledId 4)) none) 2 3) [] = some (L, rs)) ∧
    selectResponsibleNodes (.fromId (filledId 2)) (.fromId (filledId 4)) L.nodes 2 =
      (false, [.fromId (filledId 5), .fromId (filledId 1)]) := by
  obtain ⟨bound, L, rs, hret, hsel⟩ := responsible_nodes_agreed threeNodes (by decide) 3
    (.fromId (filledId 2)) (by decide) (filledId 4) (by decide) _ (Network.honest_peers _ _ _)
  rw [responsible_threeNodes] at hsel
  exact ⟨bound, L, rs, hret, hsel⟩

theorem published_record_found_threeNodes : ∃ fuel e w,
    search (searchPeers threeNodes heldByFiveAndOne (.fromId (filledId 2)) (filledId 4)) none some
      fuel (.new (.fromId (filledId 4)) ((threeNodes.table (.fromId (filledId 2))).findNeighbors
        (.fromId (filledId 4)) none) 2 3) false [] = some e ∧ e.outcome = .found w := by
  have hp : Node.fromId (filledId 1) ∈ threeNodes.nodes := by decide
  obtain ⟨bound, L, rs, hret, hfound, hnearest⟩ := lookup_nearest threeNodes (by decide) 3 hp
    (by decide : filledId 4 ∉ threeNodes.nodes.map Node.id) (Network.honest_peers _ _ _)
  have hsel := selected_responsible threeNodes hp hfound hnearest
  rw [responsible_threeNodes] at hsel
  obtain ⟨⟨fuel, e, hsearch⟩, hall⟩ := published_record_found threeNodes (by decide)
    (.fromId (filledId 1)) (.fromId (filledId 2)) hp (by decide) (filledId 4) (by decide) 3 3 _
    (Network.honest_peers _ _ _) bound L rs (hret bound (Nat.le_refl bound)) heldByFiveAndOne some
    (fun _ => by decide) (by rw [hsel]; decide) (fun _ _ _ _ => rfl) _
    (honestValues_searchPeers _ _ _ _) ⟨_, by rw [responsible_threeNodes]; exact List.mem_cons_self,
      by decide⟩
  obtain ⟨w, hw, -⟩ := hall fuel e hsearch
  exact ⟨fuel, e, w, hsearch, hw⟩

end AuthKademlia.Properties
