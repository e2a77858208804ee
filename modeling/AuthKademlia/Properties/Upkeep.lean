import AuthKademlia.Properties.RoutingTable
import AuthKademlia.Properties.Welcome
import AuthKademlia.Protocol.AgreedCheck
import AuthKademlia.Runtime.Taking

/-! # Records stay with the responsible nodes

In a stable network two things bring a record to the nodes that are responsible for its
key: republication by any node that holds it, and the welcome of a newcomer by the node
closest to the key. Both send STOREs to nodes that may hold nothing yet, which ask the
network first. Where all copies are the same, nothing speaks against them. -/
namespace AuthKademlia.Properties
open AuthKademlia.Lib.Shortlist AuthKademlia.Utils AuthKademlia.Storage AuthKademlia.Routing
open AuthKademlia.Routing.RoutingTable AuthKademlia.Crawling AuthKademlia.Crawling.NodeLookup
open AuthKademlia.Crawling.StableNetwork
open AuthKademlia.Protocol AuthKademlia.Network AuthKademlia.Runtime AuthKademlia.AuthHandler

variable {k : Nat} {net : StableNetwork.Network k} {g p n r : Node} {key : NodeId} {v : Bytes}

/-! ## The check of a replica -/

/-- `copy` is what a network check of `r` ends with, while everybody answers in time and
nobody holds a record of the key other than `v`. -/
def CheckedBy (net : StableNetwork.Network k) (hashes : Hashes) (r : Node) (router : RoutingTable)
    (key : NodeId) (v : Bytes) (copy : NetworkCopy) : Prop :=
  ∃ alpha env start serves fuel rounds,
    HashPeers net hashes serves r key (start + storeLookupTimeout) env ∧
    (∀ g ∈ net.nodes, ∀ u, serves g.id = some u → u = v) ∧
    networkCopy hashes router alpha env start fuel key v = some (copy, rounds)

theorem CheckedBy.noneOrSame {hashes : Hashes} {router : RoutingTable} {copy : NetworkCopy}
    (h : CheckedBy net hashes r router key v copy)
    (hcontacts : checkContacts router (.fromId key) ≠ [])
    (hnodes : ∀ m ∈ checkContacts router (.fromId key), m ∈ net.others r) :
    copy = .noneOrSame := by
  obtain ⟨alpha, env, start, serves, fuel, rounds, hpeers, hserves, hret⟩ := h
  exact (networkCopy_agreed alpha hcontacts hnodes (hpeers.agreeing hserves)).2 _ _ _ hret

theorem exists_primary (hk : 1 ≤ k) (hn : n ∈ net.nodes) (hother : p ∈ net.others n) :
    ∃ q, q ∈ (net.table n).primaries := by
  obtain ⟨K, hK, hok⟩ := Network.table_ok hk hn
  by_cases hmem : p ∈ (net.table n).primaries
  · exact ⟨p, hmem⟩
  · obtain ⟨-, q, hq, -⟩ := hok.far_block hk ((hK p).mpr hother) hmem
    exact ⟨q, hq⟩

/-- A replica of the network has contacts to ask, all of them nodes of the network. -/
theorem checkContacts_stable (hk : 1 ≤ k) (hn : n ∈ net.nodes) (hother : p ∈ net.others n)
    (hkey : key ∉ net.nodes.map Node.id) :
    checkContacts (net.table n) (.fromId key) ≠ [] ∧
      ∀ m ∈ checkContacts (net.table n) (.fromId key), m ∈ net.others n := by
  obtain ⟨K, -, hok⟩ := Network.table_ok hk hn
  have hall : checkContacts (net.table n) (.fromId key) =
      (net.table n).closest (.fromId key) none fun _ => true := by
    unfold checkContacts
    rw [Network.findNeighbors_eq hk hn, List.filter_eq_self]
    intro m _
    simp [RoutingTable.hasFailures, hok.healthy]
  rw [hall]
  refine ⟨?_, fun m hm => (Network.mem_others_of_closest hk hn hm).1⟩
  obtain ⟨q, hq⟩ := exists_primary hk hn hother
  have helig : q ∈ (net.table n).eligible (.fromId key) none fun _ => true :=
    Network.mem_eligible hk hn hkey (fun _ => rfl)
      (fun e he => absurd he (Option.not_mem_none e)) hq
  have hlen : 0 < ((net.table n).closest (.fromId key) none fun _ => true).length := by
    have hpos := List.length_pos_of_mem helig
    rw [RoutingTable.closest, List.length_take, List.length_insertionSort, hok.ksize]
    exact Nat.lt_min.mpr ⟨hk, hpos⟩
  exact List.ne_nil_of_length_pos hlen

/-! ## Republication -/

theorem mem_republish {s : ForgetfulStorage} {now : Instant} {found : NodeId → List Node}
    (hold : (key.bytes, v) ∈ s.iterOlderThan now refreshInterval) (hn : n ∈ found key) :
    (n, key, v) ∈ republish s now found := by
  refine List.mem_flatMap.mpr ⟨(key.bytes, v), hold, ?_⟩
  simp only [idOfBytes_eq_some.mpr rfl]
  exact List.mem_map_of_mem hn

/-- **Republication brings a record back to the responsible nodes.** When a node `p` of the
network sends its record again, every other responsible node is sent it. Such a node takes
it, whether it holds the record or lost it, if the record passes its checks and it has room:
its network check ends, and finds nothing against the record. -/
theorem republication_heals (net : StableNetwork.Network k) (hk : 1 ≤ k) (alpha : Nat) (p : Node)
    (hp : p ∈ net.nodes) (key : NodeId) (hkey : key ∉ net.nodes.map Node.id) (peers : Peers)
    (hpeers : net.Honest p key peers) (fuel : Nat) (L : LookupNodes) (rs : List Round)
    (hlookup : findLookupNodes peers fuel
      (.new (.fromId key) ((net.table p).findNeighbors (.fromId key) none) k alpha) [] =
        some (L, rs))
    (s : ForgetfulStorage) (now : Instant) (v : Bytes)
    (hold : (key.bytes, v) ∈ s.iterOlderThan now refreshInterval)
    (found : NodeId → List Node) (hfound : found key = L.nodes) :
    ∀ n ∈ net.responsible key, n.id ≠ p.id →
      (n, key, v) ∈ republish s now found ∧
      (∀ hashes env start serves alpha,
        HashPeers net hashes serves n key (start + storeLookupTimeout) env →
        (∀ g ∈ net.nodes, ∀ u, serves g.id = some u → u = v) →
        ∃ fuel rounds, networkCopy hashes (net.table n) alpha env start fuel key v =
          some (.noneOrSame, rounds)) ∧
      ∀ cl loc srv x w, x.msg = .store p.id key v → Willing cl loc srv key v x w →
        CheckedBy net cl.platform.hashes n (net.table n) key v x.pick.copy →
        Takes cl loc srv key v x w := by
  intro n hn hnp
  have hnode := Network.mem_nodes_of_responsible hn
  obtain ⟨bound, L', rs', hret, hothers, hnearest⟩ := lookup_nearest net hk alpha hp hkey hpeers
  have hsame := (findLookupNodes_mono hlookup (Nat.le_max_left fuel bound)).symm.trans
    (hret _ (Nat.le_max_right fuel bound))
  obtain ⟨rfl, -⟩ := Prod.mk.inj (Option.some.inj hsame)
  have hpo : p ∈ net.others n := Network.mem_others.mpr ⟨hp, Ne.symm hnp⟩
  obtain ⟨hcontacts, hnodes⟩ := checkContacts_stable hk hnode hpo hkey
  refine ⟨mem_republish hold ?_, ?_, ?_⟩
  · -- the closest nodes without `p` include those with `p`
    have hid : n.id ∈ L.nodes.map Node.id := by
      refine (net.responsible_nearest key).mem_of_subset hnearest ?_ (List.mem_map_of_mem hn) ?_
      · intro x hx
        obtain ⟨m, hm, rfl⟩ := List.mem_map.mp hx
        exact List.mem_map_of_mem (Network.mem_others.mp hm).1
      · exact List.mem_map_of_mem (Network.mem_others.mpr ⟨hnode, hnp⟩)
    obtain ⟨m, hm, hmid⟩ := List.mem_map.mp hid
    rw [hfound, ← Network.eq_of_id (Network.mem_others.mp (hothers m hm)).1 hnode hmid]
    exact hm
  · intro hashes env start serves alpha' hhash hserves
    exact (networkCopy_agreed alpha' hcontacts hnodes (hhash.agreeing hserves)).1
  · intro cl loc srv x w hmsg hwill hcheck
    exact hwill.takes hmsg fun _ => hcheck.noneOrSame hcontacts hnodes

/-- The node 5 holds the record of the key 3, for which 2 and 1 are responsible. -/
def heldByFive (id : NodeId) : Option Bytes :=
  if id = filledId 5 then some (toyRecord 1) else none

/-- The server of a node that holds nothing, and the STORE that reaches it. -/
def emptyServer : Server := ⟨toyPlatform, toyNode 2, 2, 2, true, true⟩

def storeArrives : Runtime.Arrival where
  src := toyAddr 5
  msg := .store (filledId 5) toyKey (toyRecord 1)
  now := 7
  pick := { copy := .noneOrSame }

theorem willing_emptyServer : Willing toyCluster (toyAddr 2) emptyServer toyKey (toyRecord 1)
    storeArrives (toyWorld (.withMaxStorageBytes (-1) 1000)) := by
  refine ⟨by decide +kernel, by decide +kernel, ?_, rfl, ?_, by decide +kernel⟩
  · exact fun h => nomatch h
  · intro v hv
    exact nomatch hv

theorem heldByFive_record :
    ∀ g ∈ threeNodes.nodes, ∀ u, heldByFive g.id = some u → u = toyRecord 1 := by
  intro g _ u hu
  unfold heldByFive at hu
  split at hu
  · exact (Option.some.inj hu).symm
  · cases hu

theorem republication_heals_threeNodes : ∃ L : LookupNodes,
    (Node.fromId (filledId 2), toyKey, toyRecord 1) ∈
      republish (singleRecord toyKey (toyRecord 1)) 3600000000000 (fun _ => L.nodes) ∧
    Takes toyCluster (toyAddr 2) emptyServer toyKey (toyRecord 1) storeArrives
      (toyWorld (.withMaxStorageBytes (-1) 1000)) := by
  have hp : Node.fromId (filledId 5) ∈ threeNodes.nodes := by decide
  have hkey : toyKey ∉ threeNodes.nodes.map Node.id := by decide
  obtain ⟨bound, L, rs, hret, -⟩ := lookup_nearest threeNodes (by decide) 3 hp hkey
    (Network.honest_peers _ _ _)
  obtain ⟨hsent, hcheck, htakes⟩ := republication_heals threeNodes (by decide) 3 _ hp toyKey hkey _
    (Network.honest_peers _ _ _) bound L rs (hret bound (Nat.le_refl bound))
    (singleRecord toyKey (toyRecord 1)) 3600000000000 (toyRecord 1) (by decide +kernel)
    (fun _ => L.nodes) rfl (.fromId (filledId 2)) (by decide) (by decide)
  have hpeers := hashPeers_searchPeers (by decide) threeNodes toyHashes heldByFive
    (.fromId (filledId 2)) toyKey 0
  obtain ⟨fuel, rounds, hcopy⟩ := hcheck toyHashes _ 0 heldByFive 2 hpeers heldByFive_record
  exact ⟨L, hsent, htakes _ _ _ _ _ rfl willing_emptyServer
    ⟨2, _, 0, heldByFive, fuel, rounds, hpeers, heldByFive_record, hcopy⟩⟩

/-! ## Newcomers -/

/-- The nodes responsible for a key once `r` has joined. -/
def responsibleWith (net : StableNetwork.Network k) (r : Node) (key : NodeId) : List Node :=
  ((r :: net.nodes).insertionSort fun a b =>
    a.distanceTo (.fromId key) ≤ b.distanceTo (.fromId key)).take k

theorem nodup_joined (hr : r.id ∉ net.nodes.map Node.id) :
    ((r :: net.nodes).map Node.id).Nodup :=
  List.nodup_cons.mpr ⟨hr, net.distinct⟩

theorem responsibleWith_nearest (hr : r.id ∉ net.nodes.map Node.id) (key : NodeId) :
    Nearest k (fun n => n.distanceTo (.fromId key)) {n | n ∈ r :: net.nodes}
      (responsibleWith net r key) := by
  have hids := nodup_joined hr
  exact nearest_sort
    (fun _ ha _ hb he => List.inj_on_of_nodup_map hids ha hb (distTo_injective _ he)) hids.of_map

theorem responsible_nodes_nearest (net : StableNetwork.Network k) (key : NodeId) :
    Nearest k (fun n => n.distanceTo (.fromId key)) {n | n ∈ net.nodes} (net.responsible key) :=
  nearest_sort
    (fun _ ha _ hb he => List.inj_on_of_nodup_map net.distinct ha hb (distTo_injective _ he))
    net.distinct.of_map

/-- In a network of more than `k` nodes everybody has `k` contacts at least. -/
theorem length_primaries_ge (hk : 1 ≤ k) (hsize : k < net.nodes.length) (hg : g ∈ net.nodes) :
    k ≤ (net.table g).primaries.length := by
  obtain ⟨K, hK, hok⟩ := Network.table_ok hk hg
  by_cases hall : ∀ c ∈ net.others g, c ∈ (net.table g).primaries
  · have hothers : net.nodes.length ≤ (net.others g).length + 1 := by
      have hsub : net.nodes ⊆ g :: net.others g := by
        intro m hm
        by_cases hid : m.id = g.id
        · rw [Network.eq_of_id hm hg hid]
          exact List.mem_cons_self
        · exact List.mem_cons_of_mem g (Network.mem_others.mpr ⟨hm, hid⟩)
      exact (List.subperm_of_subset net.distinct.of_map hsub).length_le
    have hnd : (net.others g).Nodup := net.distinct.of_map.sublist List.filter_sublist
    have hle := (List.subperm_of_subset hnd hall).length_le
    omega
  · obtain ⟨c, hc, hmiss⟩ : ∃ c ∈ net.others g, c ∉ (net.table g).primaries := by
      by_contra hno
      exact hall fun c hc => by_contra fun hmiss => hno ⟨c, hc, hmiss⟩
    obtain ⟨b, hb, -, hfull, -⟩ := hok.far_bucket ((hK c).mpr hc) hmiss
    have hsub : b.nodes.Sublist (net.table g).primaries :=
      List.sublist_flatten_of_mem (List.mem_map_of_mem hb)
    exact hfull.ge.trans hsub.length_le

theorem table_invariant (net : StableNetwork.Network k) (hk : 1 ≤ k) (g : Node) :
    (net.table g).Ok g k := by
  have hok := ok_after hk (net.start g) g ((net.order g).map fun e => .addContact e.1 e.2)
  have heq : after (net.start g) g k ((net.order g).map fun e => .addContact e.1 e.2) =
      addContacts g k (net.start g) (net.order g) := by
    rw [after, List.foldl_map]
    rfl
  rw [heq] at hok
  exact ⟨hok.node, hok.ksize, hok.tiles, hok.buckets, hok.failing⟩

/-- **The closest node sends a newcomer what it is responsible for.** -/
theorem closest_replicates (hk : 1 ≤ k) (hsize : k < net.nodes.length)
    (hr : r.id ∉ net.nodes.map Node.id) (hkey : key ∉ net.nodes.map Node.id)
    (hkr : key ≠ r.id) (hg : g ∈ net.nodes)
    (hclosest : ∀ n ∈ net.others g, g.distanceTo (.fromId key) < n.distanceTo (.fromId key))
    (hmem : r ∈ responsibleWith net r key) (joined : Nat) {s : ForgetfulStorage} {now : Instant}
    (hstored : s.get now key.bytes = some v) :
    (r, key, v) ∈ replicateTo g (fun _ => ((net.table g).addContact joined r).1) s now r := by
  have hrg : r.id ≠ g.id := fun h => hr (h ▸ List.mem_map_of_mem hg)
  have hmet := met_addContact hk hg hr joined
  obtain ⟨K, -, hK, hok⟩ := id hmet
  have htable := table_invariant net hk g
  -- the contacts other than the newcomer are nodes of the network
  have hbut : ∀ c ∈ contactsBut ((net.table g).addContact joined r).1 r, c ∈ net.others g := by
    intro c hc
    obtain ⟨hp, hne⟩ := List.mem_filter.mp hc
    exact hmet.mem_nodes hp (of_decide_eq_true hne)
  have hnd := (nodup_contactsBut hok.primaries_nodup r).of_map
  -- and nobody was lost on the way
  have hlen : k ≤ (contactsBut ((net.table g).addContact joined r).1 r).length := by
    obtain ⟨K', hK', hok'⟩ := Network.table_ok hk hg
    refine (length_primaries_ge hk hsize hg).trans ?_
    refine (List.subperm_of_subset hok'.primaries_nodup.of_map ?_).length_le
    intro m hm
    have hid : m.id ≠ r.id := by
      intro h
      have hnode := (Network.mem_others.mp ((hK' m).mp (hok'.mem_known hm))).1
      exact hr (h ▸ List.mem_map_of_mem hnode)
    have hkept := inserted_keeps_fresh htable (htable.addContact_inserted hk hrg joined).1 hm
      (RoutingTable.not_stale hok'.healthy m.id)
    rw [if_neg hid] at hkept
    exact List.mem_filter.mpr ⟨hkept, decide_eq_true hid⟩
  have hprim : key ∉ ((net.table g).addContact joined r).1.primaries.map Node.id := by
    intro h
    obtain ⟨m, hm, rfl⟩ := List.mem_map.mp h
    have hnode := (Network.mem_others.mp (hmet.mem_nodes hm hkr)).1
    exact hkey (List.mem_map_of_mem hnode)
  have hhealthy : Healthy ((net.table g).addContact joined r).1 := fun c _ => by
    simp [RoutingTable.hasFailures, hok.healthy]
  rw [mem_replicateTo hstored, shouldReplicate_iff hok.primaries_nodup hhealthy hprim, hok.ksize,
    Nat.min_eq_left hlen]
  refine Or.inr ⟨?_, fun c hc => hclosest c (hbut c hc)⟩
  have hfew := ((responsibleWith_nearest hr key).mem_iff_countP (nodup_joined hr).of_map
    List.mem_cons_self).mp hmem
  refine Nat.lt_of_le_of_lt ?_ hfew
  rw [nearer, List.countP_eq_length_filter, List.countP_eq_length_filter]
  refine (List.subperm_of_subset (hnd.filter _) ?_).length_le
  intro c hc
  obtain ⟨hc, hlt⟩ := List.mem_filter.mp hc
  exact List.mem_filter.mpr
    ⟨List.mem_cons_of_mem r (Network.mem_others.mp (hbut c hc)).1, hlt⟩

theorem exists_closest (hk : 1 ≤ k) (hne : net.nodes ≠ []) (key : NodeId) :
    ∃ g ∈ net.responsible key,
      ∀ n ∈ net.others g, g.distanceTo (.fromId key) < n.distanceTo (.fromId key) := by
  have hnear := responsible_nodes_nearest net key
  obtain ⟨g, rest, hl⟩ : ∃ g rest, net.responsible key = g :: rest := by
    refine List.exists_cons_of_length_pos ?_
    rw [hnear.length_eq net.distinct.of_map]
    exact Nat.lt_min.mpr ⟨hk, List.length_pos_of_ne_nil hne⟩
  rw [hl] at hnear ⊢
  refine ⟨g, List.mem_cons_self, fun n hn => ?_⟩
  obtain ⟨hnode, hid⟩ := Network.mem_others.mp hn
  by_cases hmem : n ∈ g :: rest
  · rcases List.mem_cons.mp hmem with rfl | hmem
    · exact absurd rfl hid
    · exact (List.pairwise_cons.mp hnear.increasing).1 n hmem
  · exact (hnear.rest n hnode hmem).2 g List.mem_cons_self

def nextToKey : Node := .fromId ⟨List.replicate 19 3 ++ [0], rfl⟩

end AuthKademlia.Properties
