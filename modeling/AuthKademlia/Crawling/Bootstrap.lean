import AuthKademlia.Crawling.StableSearch

/-! # A newcomer's first lookup

`bootstrap` looks the newcomer's own id up, starting with the seeds that answered a
ping. The nodes it asks take it into their tables sooner or later, so that an answer may
come from a table with or without it. Unlike a node of the network, the newcomer has no
table of its own that the lookup could rest on: the nodes asked are all it has. -/
namespace AuthKademlia.Crawling.StableNetwork
open AuthKademlia.Lib.Shortlist AuthKademlia.Lib.Xor AuthKademlia.Utils AuthKademlia.Routing
open AuthKademlia.Crawling.NodeLookup

variable {k : Nat}

/-- A table of `g`, which met the other nodes and perhaps the newcomer `r`. -/
def Met (net : Network k) (r g : Node) (t : RoutingTable) : Prop :=
  ∃ K, (∀ n ∈ net.others g, n ∈ K) ∧ (∀ n ∈ K, n ∈ net.others g ∨ n = r) ∧ TableOk g k K t

/-- An answer to `r`. -/
structure ReplyTo (net : Network k) (r : Node) (a : Answer) : Prop where
  healthy : a.failing = ∅
  raw : ∀ g ∈ net.nodes, g.id = a.peer →
    ∃ t, Met net r g t ∧ a.raw = foundNodes (rpcFindNode t r r.id)

/-- Every peer answers the newcomer from its table, as it is then. -/
def Welcoming (net : Network k) (r : Node) (peers : Peers) : Prop :=
  ∀ seen asked, ∀ a ∈ peers.answers seen asked, ReplyTo net r a

variable {net : Network k} {r g : Node} {peers : Peers} {s : SpiderCrawl} {rs : List Round}
  {seeds : List Node}

/-! ## Tables with and without the newcomer -/

theorem met_table (hk : 1 ≤ k) (hg : g ∈ net.nodes) (r : Node) : Met net r g (net.table g) := by
  obtain ⟨K, hK, hok⟩ := Network.table_ok hk hg
  exact ⟨K, fun n hn => (hK n).mpr hn, fun n hn => Or.inl ((hK n).mp hn), hok⟩

theorem met_addContact (hk : 1 ≤ k) (hg : g ∈ net.nodes) (hr : r.id ∉ net.nodes.map Node.id)
    (now : Nat) : Met net r g ((net.table g).addContact now r).1 := by
  obtain ⟨K, hK, hok⟩ := Network.table_ok hk hg
  have hrg : r.id ≠ g.id := fun h => hr (h ▸ List.mem_map_of_mem hg)
  have hrK : r.id ∉ K.map Node.id := by
    intro hmem
    obtain ⟨n, hn, hid⟩ := List.mem_map.mp hmem
    exact hr (hid ▸ List.mem_map_of_mem (Network.mem_others.mp ((hK n).mp hn)).1)
  refine ⟨r :: K, fun n hn => List.mem_cons_of_mem r ((hK n).mpr hn), fun n hn => ?_,
    hok.addContact hk hrg hrK now⟩
  rcases List.mem_cons.mp hn with rfl | hn
  · exact Or.inr rfl
  · exact Or.inl ((hK n).mp hn)

theorem rpcFindNode_met {t : RoutingTable} (h : Met net r g t) :
    rpcFindNode t r r.id = t.closest (.fromId r.id) (some r) fun _ => true := by
  obtain ⟨K, -, -, hok⟩ := h
  have hs : (fun n : Node => !t.isStale n.id) = fun _ => true := by
    funext n
    simp [RoutingTable.not_stale hok.healthy]
  simp only [rpcFindNode, RoutingTable.findNeighborsToAdvertise, hs]

/-- The primaries other than the newcomer are nodes of the network, and are eligible. -/
theorem Met.mem_nodes {t : RoutingTable} (h : Met net r g t) {n : Node} (hn : n ∈ t.primaries)
    (hne : n.id ≠ r.id) : n ∈ net.others g := by
  obtain ⟨K, -, hK, hok⟩ := h
  rcases hK n (hok.mem_known hn) with h | rfl
  · exact h
  · exact absurd rfl hne

theorem mem_eligible_newcomer {t : RoutingTable} {n : Node} :
    n ∈ t.eligible (.fromId r.id) (some r) (fun _ => true) ↔
      n ∈ t.primaries ∧ n.id ≠ r.id := by
  rw [RoutingTable.eligible, List.mem_filter]
  refine and_congr_right fun _ => ?_
  change (decide (n.id ≠ r.id) && decide (n.id ≠ r.id) && true) = true ↔ _
  rw [Bool.and_true, Bool.and_self, decide_eq_true_eq]

/-- **What a table may be missing**, apart from the newcomer: of a block that it is not in,
it knows a node that is not the newcomer. -/
theorem Met.far_block {t : RoutingTable} (h : Met net r g t) (hk : 2 ≤ k) {c : Node}
    (hc : c ∈ net.others g) (hmiss : c ∉ t.primaries) :
    ∃ j, ∃ q ∈ t.primaries, q.id ≠ r.id ∧ g.longId >>> j ≠ c.longId >>> j ∧
      q.longId >>> j = c.longId >>> j := by
  obtain ⟨K, hall, -, hok⟩ := h
  obtain ⟨b, hmem, hb, hfull, j, hown, hblock⟩ := hok.far_bucket (hall c hc) hmiss
  -- a full bucket has two nodes at least, and one of them is not the newcomer
  obtain ⟨q, hq, hqr⟩ : ∃ q ∈ b.nodes, q.id ≠ r.id := by
    by_contra hnone
    have hsub : b.nodes.map Node.id ⊆ [r.id] := by
      intro x hx
      obtain ⟨q, hq, rfl⟩ := List.mem_map.mp hx
      have hid : q.id = r.id := by
        by_contra hne
        exact hnone ⟨q, hq, hne⟩
      rw [hid]
      exact List.mem_cons_self
    have hle := (List.subperm_of_subset hb.nodup hsub).length_le
    rw [List.length_map, hfull, List.length_singleton] at hle
    omega
  exact ⟨j, q, List.mem_flatMap.mpr ⟨b, hmem, hq⟩, hqr, hown, hblock q hq⟩

/-! ## The lookup -/

/-- An answer reports nodes of the network, those that `g` knows closest to the newcomer. -/
theorem ReplyTo.nodeList {a : Answer} (h : ReplyTo net r a) (hg : g ∈ net.nodes)
    (hid : g.id = a.peer) :
    a.raw.happened = true ∧ ∃ t, Met net r g t ∧
      a.raw.getNodeList = t.closest (.fromId r.id) (some r) fun _ => true := by
  obtain ⟨t, ht, hraw⟩ := h.raw g hg hid
  refine ⟨by rw [hraw]; rfl, t, ht, ?_⟩
  rw [hraw, foundNodes_getNodeList, rpcFindNode_met ht]

theorem Met.closest_nodes {t : RoutingTable} (h : Met net r g t) {n : Node}
    (hn : n ∈ t.closest (.fromId r.id) (some r) fun _ => true) : n ∈ net.nodes := by
  obtain ⟨hp, hne⟩ := mem_eligible_newcomer.mp (RoutingTable.mem_eligible_of_mem_closest hn)
  exact (Network.mem_others.mp (h.mem_nodes hp hne)).1

/-- The newcomer's lookup stays among the nodes of the network. -/
abbrev Joining (net : Network k) (r : Node) (seeds : List Node) : SpiderCrawl → List Round → Prop :=
  Among net.nodes (ReplyTo net r) r seeds k

theorem Joining.welcomed (h : Joining net r seeds s rs) (hp : Welcoming net r peers) :
    Joining net r seeds (afterRound peers s rs) (rs ++ [thisRound peers s rs]) := by
  refine h.round (hp _ _) fun a ha g hg hid => ?_
  obtain ⟨hhappened, t, ht, heq⟩ := ha.nodeList hg hid
  exact ⟨hhappened, ha.healthy, fun n hn => ht.closest_nodes (heq ▸ hn)⟩

/-- What the node with the id `g` knew, apart from the newcomer, when it answered. -/
def Told (net : Network k) (r : Node) (rs : List Round) (g q : NodeId) : Prop :=
  ∃ rd ∈ rs, ∃ a ∈ responded rd.answers, ReplyTo net r a ∧
    ∃ n ∈ net.nodes, n.id = g ∧ ∃ t, Met net r n t ∧
      a.raw.getNodeList = (t.closest (.fromId r.id) (some r) fun _ => true) ∧
      ∃ m ∈ t.primaries, m.id ≠ r.id ∧ m.id = q

/-- What the newcomer was told of is in its shortlist, or beaten by `k` of its members. -/
theorem Joining.reported (h : Joining net r seeds s rs) {g q : NodeId}
    (htold : Told net r rs g q) (hq : q ∉ s.nearest.getIds) :
    s.nearest.getIds.length = k ∧
      ∀ x ∈ s.nearest.getIds, distTo r.longId x < distTo r.longId q := by
  obtain ⟨rd, hrd, a, ha, hreply, n, hn, -, t, ht, heq, m, hm, hmr, rfl⟩ := htold
  have hsub : ∀ x ∈ (t.closest (.fromId r.id) (some r) fun _ => true).map Node.id,
      x ∈ NodeLookup.candidates seeds rs := by
    intro x hx
    rw [NodeLookup.candidates, List.mem_toFinset, List.mem_append]
    refine Or.inr (List.mem_flatMap.mpr ⟨rd, hrd, List.mem_flatMap.mpr ⟨a, ha, ?_⟩⟩)
    simpa [SpiderCrawl.usable, hreply.healthy, heq] using hx
  obtain ⟨K, -, -, hok⟩ := ht
  have hclose := RoutingTable.closest_nearest hok.primaries_nodup (.fromId r.id) (some r)
    fun _ => true
  rw [hok.ksize] at hclose
  by_cases hin : m.id ∈ (t.closest (.fromId r.id) (some r) fun _ => true).map Node.id
  · exact h.nearest.rest _ (hsub _ hin) hq
  · obtain ⟨hlen, hlt⟩ := hclose.rest _
      (List.mem_map_of_mem (mem_eligible_newcomer.mpr ⟨hm, hmr⟩)) hin
    exact h.nearest.below hclose.nodup hlen hsub hlt

/-- **At its end the shortlist is that of the whole network.** -/
theorem Joining.exact (h : Joining net r seeds s rs) (hk : 2 ≤ k)
    (hr : r.id ∉ net.nodes.map Node.id) (hseeds : seeds ≠ [])
    (hall : s.nearest.haveContactedAll = true) :
    Nearest k (distTo r.longId) {x | x ∈ net.nodes.map Node.id} s.nearest.getIds := by
  have hn := h.nearest
  have hne : s.nearest.getIds ≠ [] := by
    intro hnil
    obtain ⟨n, ns, rfl⟩ := List.exists_cons_of_ne_nil hseeds
    have hcand : n.id ∈ NodeLookup.candidates (n :: ns) rs := by
      rw [NodeLookup.candidates, List.mem_toFinset]
      exact List.mem_append_left _ List.mem_cons_self
    have hlen := (hn.rest n.id hcand (by rw [hnil]; exact List.not_mem_nil)).1
    rw [hnil, List.length_nil] at hlen
    omega
  refine ⟨hn.increasing, fun x hx => h.candidates x (hn.subset x hx), hn.length_le, ?_⟩
  intro x hx hxH
  obtain ⟨c, hc, rfl⟩ := List.mem_map.mp hx
  refine closest_found_asking hne (fun _ hx => hx)
    (fun g _ q (htold : Told net r rs g q) hq => h.reported htold hq) (fun g hg hmiss => ?_) hxH
  obtain ⟨n, hnmem, rfl⟩ := List.mem_map.mp hg
  have hnode := h.nodes n hnmem
  have hasked := (h.keeps.tracks.contacted _).mp (s.nearest.haveContactedAll_iff.mp hall _ hg)
  obtain ⟨rd, hrd, a, ha, hpeer, hreply⟩ := h.answered _ hasked
  obtain ⟨-, t, ht, heq⟩ := hreply.nodeList hnode hpeer.symm
  have htold : ∀ m ∈ t.primaries, m.id ≠ r.id → Told net r rs n.id m.id := fun m hm hmr =>
    ⟨rd, hrd, a, ha, hreply, n, hnode, rfl, t, ht, heq, m, hm, hmr, rfl⟩
  have hcn : c ∈ net.others n := Network.mem_others.mpr ⟨hc, fun hid => hxH (hid ▸ hg)⟩
  have hcr : c.id ≠ r.id := fun hid => hr (hid ▸ List.mem_map_of_mem hc)
  obtain ⟨j, q, hq, hqr, hout, hin⟩ := ht.far_block hk hcn fun hmem => hmiss (htold c hmem hcr)
  exact ⟨j, q.id, hout, htold q hq hqr, hin⟩

/-! ## `bootstrap` -/

/-- `bootstrap_node`, where `ping` is what `call_ping_addr` returns. -/
def bootstrapNode (ping : String × UInt16 → Bool × Bytes) (addr : String × UInt16) : Option Node :=
  let (ok, idBytes) := ping addr
  if h : ok = true ∧ idBytes.length = idLen then some ⟨⟨idBytes, h.2⟩, some addr.1, some addr.2⟩
  else none

/-- `bootstrap` of the node `r`, for a lookup of at most `fuel` rounds. -/
def bootstrap (peers : Peers) (ping : String × UInt16 → Bool × Bytes)
    (addrs : List (String × UInt16)) (r : Node) (ksize alpha fuel : Nat) : Option (List Node) :=
  (findLookupNodes peers fuel (.new r (addrs.filterMap (bootstrapNode ping)) ksize alpha) []).map
    fun found => found.1.nodes

/-- **A newcomer finds its neighbourhood.** Of the addresses it is given, those that answer are
nodes of the network, and at least one does. Then `bootstrap` ends, and returns the nodes of the
whole network closest to the newcomer, whether the nodes asked have taken it into their tables
yet or not, and in whatever order they answer. -/
theorem bootstrap_exact (net : Network k) (hk : 2 ≤ k) (alpha : Nat) (r : Node)
    (hr : r.id ∉ net.nodes.map Node.id) (ping : String × UInt16 → Bool × Bytes)
    (addrs : List (String × UInt16))
    (hping : ∀ addr ∈ addrs, ∀ n, bootstrapNode ping addr = some n → n ∈ net.nodes)
    (hsome : ∃ addr ∈ addrs, (bootstrapNode ping addr).isSome)
    (peers : Peers) (hp : Welcoming net r peers) :
    ∃ bound, ∀ fuel ≥ bound, bootstrap peers ping addrs r k alpha fuel =
      some ((net.nodes.insertionSort fun a b => a.distanceTo r ≤ b.distanceTo r).take k) := by
  have hseeds : ∀ n ∈ addrs.filterMap (bootstrapNode ping), n ∈ net.nodes := by
    intro n hn
    obtain ⟨addr, haddr, hnode⟩ := List.mem_filterMap.mp hn
    exact hping addr haddr n hnode
  have hne : addrs.filterMap (bootstrapNode ping) ≠ [] := by
    obtain ⟨addr, haddr, hnode⟩ := hsome
    obtain ⟨n, hnode⟩ := Option.isSome_iff_exists.mp hnode
    exact List.ne_nil_of_mem (List.mem_filterMap.mpr ⟨addr, haddr, hnode⟩)
  have hnew : Joining net r _ _ [] := among_new (ReplyTo net r) hseeds r k alpha
  obtain ⟨bound, L, rs, hret⟩ := findLookupNodes_returns peers hnew.keeps.tracks
  obtain ⟨s, h, hall, rfl⟩ := findLookupNodes_induct hnew (fun s rs h => h.welcomed hp) hret
  refine ⟨bound, fun fuel hfuel => ?_⟩
  rw [bootstrap, findLookupNodes_mono hret hfuel, Option.map_some]
  have hsorted : Nearest k (distTo r.longId) {x | x ∈ net.nodes.map Node.id}
      (((net.nodes.insertionSort fun a b => a.distanceTo r ≤ b.distanceTo r).take k).map
        Node.id) :=
    nearest_sort_map (fun _ _ _ _ he => distTo_injective _ he) (fun _ _ => rfl) net.distinct
  refine congrArg some (eq_of_ids_eq net h.nodes (fun n hn => ?_)
    ((h.exact hk hr hne hall).unique hsorted))
  exact (List.mem_insertionSort _).mp (List.mem_of_mem_take hn)

/-- Three nodes with addresses, that met each other in the order of their list. -/
def threeAddresses : Network 2 where
  nodes := [⟨filledId 1, some "a", some 1⟩, ⟨filledId 2, some "a", some 2⟩,
    ⟨filledId 5, some "a", some 5⟩]
  distinct := by decide
  start := fun _ => 0
  order := fun g => ([⟨filledId 1, some "a", some 1⟩, ⟨filledId 2, some "a", some 2⟩,
    ⟨filledId 5, some "a", some 5⟩].filter fun n : Node => n.id ≠ g.id).map fun n => (0, n)
  met := fun g _ => by simp [Function.comp_def]
  minLookupContacts := fun _ => 2

/-- The node 4 joins through the node 2; another address does not answer. -/
def pingTwo (addr : String × UInt16) : Bool × Bytes :=
  if addr = ("a", 2) then (true, (filledId 2).bytes) else (false, [])

/-- The network as the peers of a newcomer, whom the nodes that `joined` says have taken in. -/
def peersTo (net : Network k) (r : Node) (joined : NodeId → Bool) : Peers :=
  .scripted fun id => match net.nodes.find? fun g => g.id = id with
    | some g => foundNodes (rpcFindNode
        (if joined id then ((net.table g).addContact 0 r).1 else net.table g) r r.id)
    | none => ⟨false, .empty⟩

theorem welcoming_peersTo (net : Network k) (hk : 1 ≤ k) (hr : r.id ∉ net.nodes.map Node.id)
    (joined : NodeId → Bool) : Welcoming net r (peersTo net r joined) := by
  intro seen asked a ha
  obtain ⟨n, -, rfl⟩ := List.mem_map.mp ha
  refine ⟨rfl, fun g hg hid => ?_⟩
  dsimp only
  rw [find_of_id hg hid]
  refine ⟨_, ?_, rfl⟩
  split
  · exact met_addContact hk hg hr 0
  · exact met_table hk hg r

theorem bootstrap_exact_threeAddresses : ∃ bound, ∀ fuel ≥ bound,
    bootstrap (peersTo threeAddresses (.fromId (filledId 4)) fun id => id = filledId 2) pingTwo
      [("a", 9), ("a", 2)] (.fromId (filledId 4)) 2 3 fuel =
        some [⟨filledId 5, some "a", some 5⟩, ⟨filledId 1, some "a", some 1⟩] := by
  obtain ⟨bound, hall⟩ := bootstrap_exact threeAddresses (by decide) 3 (.fromId (filledId 4))
    (by decide) pingTwo [("a", 9), ("a", 2)] (by decide) (by decide) _
    (welcoming_peersTo threeAddresses (by decide) (by decide) fun id => id = filledId 2)
  exact ⟨bound, fun fuel hfuel => (hall fuel hfuel).trans (by decide)⟩

end AuthKademlia.Crawling.StableNetwork
