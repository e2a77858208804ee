import AuthKademlia.Crawling.NodeLookup
import AuthKademlia.Routing.Knowledge

/-! # Lookups in a stable honest network

Every node met every other node once, in an order of its own, and answers
FIND_NODE from its table. A node's table may be missing nodes, but only in
blocks it is far from, of which it knows some other node; that is enough for a
lookup to end with exactly the closest nodes of the whole network
(`closest_found`, over what `Routing.Knowledge` says of a table). -/
namespace AuthKademlia.Crawling.StableNetwork
open AuthKademlia.Lib.Shortlist AuthKademlia.Lib.Xor AuthKademlia.Utils AuthKademlia.Routing
open AuthKademlia.Crawling.NodeLookup

/-- Nodes with distinct ids; each met all the others, at times and in an order
of its own, and nobody failed or was removed. -/
structure Network (k : Nat) where
  nodes : List Node
  distinct : (nodes.map Node.id).Nodup
  start : Node → Nat
  order : Node → List (Nat × Node)
  met : ∀ g ∈ nodes, ((order g).map Prod.snd).Perm (nodes.filter fun n => n.id ≠ g.id)
  minLookupContacts : Node → Nat

/-- `rpc_find_node`: the closest contacts of the table, without the sender. -/
def rpcFindNode (t : RoutingTable) (source : Node) (key : NodeId) : List Node :=
  t.findNeighborsToAdvertise (.fromId key) (some source)

/-- The answer as `call_find_node` hands it to the lookup. -/
def foundNodes (ns : List Node) : RawResponse :=
  ⟨true, .nodes (ns.map fun n => (n.id.bytes, n.ip, n.port))⟩

theorem foundNodes_getNodeList (ns : List Node) : (foundNodes ns).getNodeList = ns := by
  have hsome : (fun t : Bytes × Option String × Option UInt16 =>
      if h : t.1.length = idLen then some (⟨⟨t.1, h⟩, t.2.1, t.2.2⟩ : Node) else none) ∘
      (fun n : Node => (n.id.bytes, n.ip, n.port)) = some := by
    funext n
    simp [n.id.length_eq]
  simp only [foundNodes, RawResponse.getNodeList, List.filterMap_map]
  exact (congrArg (List.filterMap · ns) hsome).trans List.filterMap_some

variable {k : Nat}

namespace Network

def table (net : Network k) (g : Node) : RoutingTable :=
  { addContacts g k (net.start g) (net.order g) with
    minLookupContacts := net.minLookupContacts g }

/-- The nodes of the network other than `r`. -/
def others (net : Network k) (r : Node) : List Node := net.nodes.filter fun n => n.id ≠ r.id

/-- Every peer answers a lookup of `r` as `rpc_find_node` does; the order in
which answers are processed is free. -/
def Honest (net : Network k) (r : Node) (key : NodeId) (peers : Peers) : Prop :=
  ∀ seen asked, ∀ a ∈ peers.answers seen asked, a.failing = ∅ ∧
    ∀ g ∈ net.nodes, g.id = a.peer → a.raw = foundNodes (rpcFindNode (net.table g) r key)

/-- The network itself as the peers of `r`, answering in the order asked. -/
def peers (net : Network k) (r : Node) (key : NodeId) : Peers :=
  .scripted fun id => match net.nodes.find? fun g => g.id = id with
    | some g => foundNodes (rpcFindNode (net.table g) r key)
    | none => ⟨false, .empty⟩

variable {net : Network k} {g r n : Node} {key : NodeId} {peers : Peers}

theorem mem_others : n ∈ net.others r ↔ n ∈ net.nodes ∧ n.id ≠ r.id := by
  simp [others]

theorem eq_of_id {m : Node} (hn : n ∈ net.nodes) (hm : m ∈ net.nodes) (h : n.id = m.id) : n = m :=
  List.inj_on_of_nodup_map net.distinct hn hm h

theorem honest_peers (net : Network k) (r : Node) (key : NodeId) :
    net.Honest r key (net.peers r key) := by
  intro seen asked a ha
  obtain ⟨n, -, rfl⟩ := List.mem_map.mp ha
  refine ⟨rfl, fun g hg hid => ?_⟩
  have hfind : net.nodes.find? (fun g => g.id = n.id) = some g := by
    obtain ⟨g', hg'⟩ : ∃ g', net.nodes.find? (fun g => g.id = n.id) = some g' :=
      Option.isSome_iff_exists.mp (List.find?_isSome.mpr ⟨g, hg, by simpa using hid⟩)
    have hid' : g'.id = n.id := by simpa using List.find?_some hg'
    rw [hg', eq_of_id (List.mem_of_find?_eq_some hg') hg (hid'.trans hid.symm)]
  simp only [hfind]

theorem table_ok (hk : 1 ≤ k) (hg : g ∈ net.nodes) :
    ∃ K, (∀ n, n ∈ K ↔ n ∈ net.others g) ∧ TableOk g k K (net.table g) := by
  have hp := net.met g hg
  have hids : ((net.order g).map fun e => e.2.id).Perm ((net.others g).map Node.id) := by
    have := hp.map Node.id
    rwa [List.map_map] at this
  have h := addContacts_ok hk (net.start g) (net.order g)
    (hids.nodup_iff.mpr (net.distinct.sublist (List.filter_sublist.map _))) fun e he => by
      have hm : e.2 ∈ net.others g := hp.mem_iff.mp (List.mem_map_of_mem he)
      exact (mem_others.mp hm).2
  refine ⟨_, fun n => ?_, h.node, h.ksize, h.healthy, h.tiles, h.buckets⟩
  rw [List.mem_reverse]
  exact hp.mem_iff

/-- A peer of the network, other than those left out, is eligible if it is known. -/
theorem mem_eligible (hk : 1 ≤ k) (hg : g ∈ net.nodes) (hkey : key ∉ net.nodes.map Node.id)
    {exclude : Option Node} {keep : Node → Bool} (hkeep : ∀ m, keep m = true)
    (hex : ∀ e ∈ exclude, n.id ≠ e.id) (hn : n ∈ (net.table g).primaries) :
    n ∈ (net.table g).eligible (.fromId key) exclude keep := by
  obtain ⟨K, hK, hok⟩ := table_ok hk hg
  have hnode := (mem_others.mp ((hK n).mp (hok.mem_known hn))).1
  have hne : n.id ≠ key := fun h => hkey (h ▸ List.mem_map_of_mem hnode)
  refine List.mem_filter.mpr ⟨hn, ?_⟩
  have hall : exclude.all (fun e => n.id ≠ e.id) = true := by
    cases exclude with
    | none => rfl
    | some e => simpa using hex e rfl
  rw [hall, hkeep]
  simp [Node.fromId, hne]

/-- Without failures `find_neighbors` makes no difference between contacts. -/
theorem findNeighbors_eq (hk : 1 ≤ k) (hg : g ∈ net.nodes) (target : Node)
    (exclude : Option Node) :
    (net.table g).findNeighbors target exclude =
      (net.table g).closest target exclude fun _ => true := by
  obtain ⟨K, -, hok⟩ := table_ok hk hg
  have hf : (fun n : Node => !(net.table g).hasFailures n.id) = fun _ => true := by
    funext n; simp [RoutingTable.hasFailures, hok.healthy]
  have hs : (fun n : Node => !(net.table g).isStale n.id) = fun _ => true := by
    funext n; simp [RoutingTable.not_stale hok.healthy]
  simp only [RoutingTable.findNeighbors, hf, hs]
  split
  · rfl
  · split <;> rfl

theorem rpcFindNode_eq (hk : 1 ≤ k) (hg : g ∈ net.nodes) (source : Node) (key : NodeId) :
    rpcFindNode (net.table g) source key =
      (net.table g).closest (.fromId key) (some source) fun _ => true := by
  obtain ⟨K, -, hok⟩ := table_ok hk hg
  have hs : (fun n : Node => !(net.table g).isStale n.id) = fun _ => true := by
    funext n; simp [RoutingTable.not_stale hok.healthy]
  simp only [rpcFindNode, RoutingTable.findNeighborsToAdvertise, hs]

theorem mem_others_of_closest (hk : 1 ≤ k) (hg : g ∈ net.nodes) {target : Node}
    {exclude : Option Node} {keep : Node → Bool}
    (hn : n ∈ (net.table g).closest target exclude keep) :
    n ∈ net.others g ∧ ∀ e ∈ exclude, n.id ≠ e.id := by
  obtain ⟨K, hK, hok⟩ := table_ok hk hg
  obtain ⟨hp, hcond⟩ := List.mem_filter.mp (RoutingTable.mem_eligible_of_mem_closest hn)
  refine ⟨(hK n).mp (hok.mem_known hp), fun e he => ?_⟩
  simp only [Bool.and_eq_true] at hcond
  rw [Option.mem_def] at he
  subst he
  simpa using hcond.1.2

end Network

/-! ## A lookup of `r` -/

section Lookup
variable {net : Network k} {r : Node} {key : NodeId} {peers : Peers} {s : SpiderCrawl}
variable {rs : List Round} {seeds : List Node}

/-- An answer of the network to `r`. -/
structure Reply (net : Network k) (r : Node) (key : NodeId) (a : Answer) : Prop where
  healthy : a.failing = ∅
  raw : ∀ g ∈ net.nodes, g.id = a.peer → a.raw = foundNodes (rpcFindNode (net.table g) r key)

/-- The lookup stays among the other nodes, and everybody answers. -/
structure Inside (net : Network k) (r : Node) (key : NodeId) (seeds : List Node)
    (s : SpiderCrawl) (rs : List Round) : Prop where
  keeps : Keeps (.fromId key) seeds k s rs
  nodes : ∀ n ∈ s.nearest.toVec, n ∈ net.others r
  candidates : ∀ x ∈ candidates seeds rs, x ∈ (net.others r).map Node.id
  answered : ∀ x ∈ askedIds rs, ∃ rd ∈ rs, ∃ a ∈ responded rd.answers, a.peer = x ∧
    Reply net r key a
  noFailure : ∀ rd ∈ rs, silent rd.answers = []

/-- What a node of the network reports to `r`. -/
theorem Reply.nodeList {a : Answer} {g : Node} (h : Reply net r key a) (hk : 1 ≤ k)
    (hg : g ∈ net.nodes) (hid : g.id = a.peer) :
    a.raw.getNodeList = (net.table g).closest (.fromId key) (some r) fun _ => true := by
  rw [h.raw g hg hid, foundNodes_getNodeList, Network.rpcFindNode_eq hk hg]

theorem Reply.usable {a : Answer} (h : Reply net r key a) :
    SpiderCrawl.usable a = a.raw.getNodeList.map Node.id := by
  simp [SpiderCrawl.usable, h.healthy]

theorem inside_iff : Inside net r key seeds s rs ↔
    Among (net.others r) (Reply net r key) (.fromId key) seeds k s rs :=
  ⟨fun h => ⟨h.keeps, h.nodes, h.candidates, h.answered, h.noFailure⟩,
    fun h => ⟨h.keeps, h.nodes, h.candidates, h.answered, h.noFailure⟩⟩

theorem inside_new (hk : 1 ≤ k) (hr : r ∈ net.nodes) (key : NodeId) (alpha : Nat) :
    Inside net r key ((net.table r).findNeighbors (.fromId key) none)
      (.new (.fromId key) ((net.table r).findNeighbors (.fromId key) none) k alpha) [] := by
  refine inside_iff.mpr (among_new _ (fun n hn => ?_) _ k alpha)
  rw [Network.findNeighbors_eq hk hr] at hn
  exact (Network.mem_others_of_closest hk hr hn).1

theorem Inside.round (h : Inside net r key seeds s rs) (hk : 1 ≤ k)
    (hp : net.Honest r key peers) :
    Inside net r key seeds (afterRound peers s rs) (rs ++ [thisRound peers s rs]) := by
  refine inside_iff.mpr ((inside_iff.mp h).round
    (fun a ha => ⟨(hp _ _ a ha).1, (hp _ _ a ha).2⟩) fun a ha g hg hid => ?_)
  have hg' := (Network.mem_others.mp hg).1
  refine ⟨by rw [ha.raw g hg' hid]; rfl, ha.healthy, fun n hn => ?_⟩
  rw [ha.nodeList hk hg' hid] at hn
  obtain ⟨h₁, h₂⟩ := Network.mem_others_of_closest hk hg' hn
  exact Network.mem_others.mpr ⟨(Network.mem_others.mp h₁).1, h₂ r rfl⟩

theorem Inside.nearest (h : Inside net r key seeds s rs) :
    Nearest k (distTo (Node.fromId key).longId) {x | x ∈ NodeLookup.candidates seeds rs}
      s.nearest.getIds :=
  (inside_iff.mp h).nearest

/-- The node `g` of the network has `q` among its primaries. -/
def Knows (net : Network k) (g q : NodeId) : Prop :=
  ∃ n ∈ net.nodes, n.id = g ∧ ∃ m ∈ (net.table n).primaries, m.id = q

/-- What `r`, or a node of the final shortlist, knows was reported, unless `k`
closer nodes were. -/
theorem Inside.reported (h : Inside net r key
      ((net.table r).findNeighbors (.fromId key) none) s rs) (hk : 1 ≤ k) (hr : r ∈ net.nodes)
    (hkey : key ∉ net.nodes.map Node.id) (hall : s.nearest.haveContactedAll = true) :
    ∀ g ∈ r.id :: s.nearest.getIds, ∀ q, Knows net g q → q ≠ r.id → q ∉ s.nearest.getIds →
      s.nearest.getIds.length = k ∧ ∀ x ∈ s.nearest.getIds,
        distTo (Node.fromId key).longId x < distTo (Node.fromId key).longId q := by
  rintro g hg q ⟨n, hn, rfl, m, hm, rfl⟩ hqr hqH
  obtain ⟨K, -, hok⟩ := Network.table_ok hk hn
  -- the report that `n` gave: it is the shortlist of what `n` knows
  obtain ⟨exclude, hex, hsub⟩ : ∃ exclude : Option Node, (∀ e ∈ exclude, m.id ≠ e.id) ∧
      ∀ x ∈ ((net.table n).closest (.fromId key) exclude fun _ => true).map Node.id,
        x ∈ NodeLookup.candidates ((net.table r).findNeighbors (.fromId key) none) rs := by
    rcases List.mem_cons.mp hg with hg | hg
    · obtain rfl := Network.eq_of_id hn hr hg
      refine ⟨none, by simp, fun x hx => ?_⟩
      rw [Network.findNeighbors_eq hk hr, NodeLookup.candidates, List.mem_toFinset]
      exact List.mem_append_left _ hx
    · have hask := (h.keeps.tracks.contacted _).mp (s.nearest.haveContactedAll_iff.mp hall _ hg)
      obtain ⟨rd, hrd, a, ha, hpeer, hrep⟩ := h.answered _ hask
      refine ⟨some r, by simpa using hqr, fun x hx => ?_⟩
      rw [← hrep.nodeList hk hn hpeer.symm, ← hrep.usable] at hx
      rw [NodeLookup.candidates, List.mem_toFinset, List.mem_append]
      exact Or.inr (List.mem_flatMap.mpr ⟨rd, hrd, List.mem_flatMap.mpr ⟨a, ha, hx⟩⟩)
  have hclose := RoutingTable.closest_nearest hok.primaries_nodup (.fromId key) exclude
      fun _ => true
  rw [hok.ksize] at hclose
  by_cases hq : m.id ∈ ((net.table n).closest (.fromId key) exclude fun _ => true).map Node.id
  · exact h.nearest.rest _ (hsub _ hq) hqH
  · have hel : m.id ∈ ((net.table n).eligible (.fromId key) exclude fun _ => true).map Node.id :=
      List.mem_map_of_mem (Network.mem_eligible hk hn hkey (fun _ => rfl) hex hm)
    obtain ⟨hlen, hlt⟩ := hclose.rest _ hel hq
    exact h.nearest.below hclose.nodup hlen hsub hlt

/-- A node that does not know `c` knows somebody in a block around `c` that it
is not in. -/
theorem knows_block (hk : 1 ≤ k) {g c : Node} (hg : g ∈ net.nodes) (hc : c ∈ net.nodes)
    (hcg : c.id ≠ g.id) (hmiss : ¬ Knows net g.id c.id) :
    ∃ j q, idToU256 g.id >>> j ≠ idToU256 c.id >>> j ∧ Knows net g.id q ∧
      idToU256 q >>> j = idToU256 c.id >>> j := by
  obtain ⟨K, hK, hok⟩ := Network.table_ok hk hg
  obtain ⟨j, q, hq, hout, hin⟩ := hok.far_block hk ((hK c).mpr (Network.mem_others.mpr ⟨hc, hcg⟩))
    fun hmem => hmiss ⟨g, hg, rfl, c, hmem, rfl⟩
  exact ⟨j, q.id, hout, ⟨g, hg, rfl, q, hq, rfl⟩, hin⟩

theorem Inside.exact (h : Inside net r key ((net.table r).findNeighbors (.fromId key) none) s rs)
    (hk : 1 ≤ k) (hr : r ∈ net.nodes) (hkey : key ∉ net.nodes.map Node.id)
    (hall : s.nearest.haveContactedAll = true) :
    Nearest k (distTo (Node.fromId key).longId) {x | x ∈ (net.others r).map Node.id}
      s.nearest.getIds := by
  have hn := h.nearest
  refine ⟨hn.increasing, fun x hx => h.candidates x (hn.subset x hx), hn.length_le, ?_⟩
  intro x hx hxH
  obtain ⟨c, hc, rfl⟩ := List.mem_map.mp hx
  obtain ⟨hcn, hcr⟩ := Network.mem_others.mp hc
  refine closest_found (h.reported hk hr hkey hall) (fun g hg hcg hmiss => ?_)
    hcr hxH
  obtain ⟨n, hnn, rfl⟩ : ∃ n ∈ net.nodes, n.id = g := by
    rcases List.mem_cons.mp hg with rfl | hg
    · exact ⟨r, hr, rfl⟩
    · obtain ⟨n, hn, hid⟩ := List.mem_map.mp hg
      exact ⟨n, (Network.mem_others.mp (h.nodes n hn)).1, hid⟩
  exact knows_block hk hnn hcn hcg hmiss

theorem eq_of_ids_eq (net : Network k) : ∀ {l m : List Node}, (∀ n ∈ l, n ∈ net.nodes) →
    (∀ n ∈ m, n ∈ net.nodes) → l.map Node.id = m.map Node.id → l = m
  | [], [], _, _, _ => rfl
  | [], _ :: _, _, _, h => by simp at h
  | _ :: _, [], _, _, h => by simp at h
  | a :: l, b :: m, hl, hm, h => by
    simp only [List.map_cons, List.cons.injEq] at h
    rw [Network.eq_of_id (hl a (by simp)) (hm b (by simp)) h.1,
      eq_of_ids_eq net (fun n hn => hl n (List.mem_cons_of_mem a hn))
        (fun n hn => hm n (List.mem_cons_of_mem b hn)) h.2]

/-- **Lookups are exact in a stable honest network.** A lookup of any node for
any key that is not a node's id ends, and returns the closest other nodes of the
whole network, closest first. -/
theorem stable_lookup_exact (net : Network k) (hk : 1 ≤ k) (alpha : Nat) (r : Node)
    (hr : r ∈ net.nodes) (key : NodeId) (hkey : key ∉ net.nodes.map Node.id) (peers : Peers)
    (hp : net.Honest r key peers) : ∃ bound L rs,
      (∀ fuel ≥ bound, findLookupNodes peers fuel
        (.new (.fromId key) ((net.table r).findNeighbors (.fromId key) none) k alpha) [] =
          some (L, rs)) ∧
      L.nodes = ((net.others r).insertionSort fun a b =>
        a.distanceTo (.fromId key) ≤ b.distanceTo (.fromId key)).take k ∧
      L.nodes.length = min k (net.nodes.length - 1) := by
  have hin := inside_new hk hr key alpha
  obtain ⟨bound, L, rs, hret⟩ := findLookupNodes_returns peers hin.keeps.tracks
  refine ⟨bound, L, rs, fun fuel hf => findLookupNodes_mono hret hf, ?_⟩
  obtain ⟨s, h, hall, rfl⟩ := findLookupNodes_induct hin (fun s rs h => h.round hk hp) hret
  have hexact := h.exact hk hr hkey hall
  have hothers : ((net.others r).map Node.id).Nodup :=
    net.distinct.sublist (List.filter_sublist.map _)
  have hsorted : Nearest k (distTo (Node.fromId key).longId) {x | x ∈ (net.others r).map Node.id}
      ((((net.others r).insertionSort fun a b =>
        a.distanceTo (.fromId key) ≤ b.distanceTo (.fromId key)).take k).map Node.id) :=
    nearest_sort_map (fun _ _ _ _ he => distTo_injective _ he) (fun _ _ => rfl) hothers
  have hlen : (net.others r).length = net.nodes.length - 1 := by
    have hsplit : net.nodes.Perm (r :: net.others r) := by
      rw [List.perm_ext_iff_of_nodup (List.Nodup.of_map _ net.distinct)]
      · intro n
        rw [List.mem_cons, Network.mem_others]
        constructor
        · intro hn
          by_cases hid : n.id = r.id
          · exact Or.inl (Network.eq_of_id hn hr hid)
          · exact Or.inr ⟨hn, hid⟩
        · rintro (rfl | hn)
          · exact hr
          · exact hn.1
      · refine List.nodup_cons.mpr ⟨fun hmem => (Network.mem_others.mp hmem).2 rfl, ?_⟩
        exact List.Nodup.of_map _ hothers
    have := hsplit.length_eq
    simp only [List.length_cons] at this
    omega
  refine ⟨eq_of_ids_eq net (fun n hn => (Network.mem_others.mp (h.nodes n hn)).1) (fun n hn => ?_)
    (hexact.unique hsorted), ?_⟩
  · have hm := (List.mem_insertionSort _).mp (List.mem_of_mem_take hn)
    exact (Network.mem_others.mp hm).1
  · have hl := hexact.length_eq hothers
    rw [List.length_map, hlen] at hl
    rwa [NodeHeap.getIds, List.length_map] at hl

/-- Three nodes that met each other in the order of their list. -/
def threeNodes : Network 2 where
  nodes := [.fromId (filledId 1), .fromId (filledId 2), .fromId (filledId 5)]
  distinct := by decide
  start := fun _ => 0
  order := fun g => ([.fromId (filledId 1), .fromId (filledId 2), .fromId (filledId 5)].filter
    fun n : Node => n.id ≠ g.id).map fun n => (0, n)
  met := fun g _ => by simp [Function.comp_def]
  minLookupContacts := fun _ => 2

theorem stable_lookup_exact_threeNodes : ∃ bound L rs,
    (∀ fuel ≥ bound, findLookupNodes (threeNodes.peers (.fromId (filledId 1)) (filledId 4)) fuel
      (.new (.fromId (filledId 4)) ((threeNodes.table (.fromId (filledId 1))).findNeighbors
        (.fromId (filledId 4)) none) 2 3) [] = some (L, rs)) ∧
    L.nodes = [.fromId (filledId 5), .fromId (filledId 2)] := by
  obtain ⟨bound, L, rs, hret, hnodes, -⟩ := stable_lookup_exact threeNodes (by decide) 3
    (.fromId (filledId 1)) (by decide) (filledId 4) (by decide) _ (Network.honest_peers _ _ _)
  exact ⟨bound, L, rs, hret, hnodes.trans (by decide)⟩

end Lookup

end AuthKademlia.Crawling.StableNetwork
