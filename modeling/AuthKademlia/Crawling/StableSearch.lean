import AuthKademlia.Crawling.SearchRuns
import AuthKademlia.Crawling.StableNetwork

/-! # Value searches in a stable honest network

Nodes that hold a record answer FIND_VALUE with it, the others as they answer
FIND_NODE. As long as a search comes upon no copy it is a node lookup, of which
`Inside` holds, so that it could only end with everybody asked of the closest nodes of
the whole network. -/
namespace AuthKademlia.Crawling.StableNetwork
open AuthKademlia.Lib.Shortlist AuthKademlia.Utils AuthKademlia.Routing
open AuthKademlia.Crawling.NodeLookup AuthKademlia.Crawling.ValueSearch
open AuthKademlia.Crawling.QuorumRead (referrals)

variable {k : Nat}

/-- What a node answers to a value search of `r`, if `serves` says what each one holds. -/
def valueReply (net : Network k) (serves : NodeId → Option Bytes) (r : Node) (key : NodeId)
    (g : Node) : RawResponse :=
  match serves g.id with
  | some value => ⟨true, .value value⟩
  | none => foundNodes (rpcFindNode (net.table g) r key)

/-- Every peer answers `r` so; when the answers arrive, and in which order, is free. -/
def HonestValues (net : Network k) (serves : NodeId → Option Bytes) (r : Node) (key : NodeId)
    (env : SearchPeers) : Prop :=
  ∀ seen asked, ∀ a ∈ env.arrivals seen asked, a.answer.failing = ∅ ∧
    ∀ g ∈ net.nodes, g.id = a.answer.peer → a.answer.raw = valueReply net serves r key g

/-- The network itself as the peers of `r`, answering at once and in the order asked. -/
def searchPeers (net : Network k) (serves : NodeId → Option Bytes) (r : Node) (key : NodeId) :
    SearchPeers :=
  .prompt fun id => match net.nodes.find? fun g => g.id = id with
    | some g => valueReply net serves r key g
    | none => ⟨false, .empty⟩

theorem find_of_id {net : Network k} {g : Node} (hg : g ∈ net.nodes) {id : NodeId}
    (hid : g.id = id) : net.nodes.find? (fun g => g.id = id) = some g := by
  obtain ⟨g', hg'⟩ : ∃ g', net.nodes.find? (fun g => g.id = id) = some g' :=
    Option.isSome_iff_exists.mp (List.find?_isSome.mpr ⟨g, hg, by simpa using hid⟩)
  have hid' : g'.id = id := by simpa using List.find?_some hg'
  rw [hg', Network.eq_of_id (List.mem_of_find?_eq_some hg') hg (hid'.trans hid.symm)]

theorem honestValues_searchPeers (net : Network k) (serves : NodeId → Option Bytes) (r : Node)
    (key : NodeId) : HonestValues net serves r key (searchPeers net serves r key) := by
  intro seen asked a ha
  obtain ⟨n, -, rfl⟩ := List.mem_map.mp ha
  refine ⟨rfl, fun g hg hid => ?_⟩
  simp only [find_of_id hg hid]

variable {net : Network k} {serves : NodeId → Option Bytes} {r : Node} {key : NodeId}
  {env : SearchPeers} {accept : Bytes → Option Bytes} {s : SpiderCrawl} {seeds : List Node}
  {rs : List SearchRound}

/-- The peers of one round of a search, as the peers of a node lookup; in every other round
they answer as the network does. -/
def roundPeers (env : SearchPeers) (net : Network k) (r : Node) (key : NodeId)
    (s : SpiderCrawl) (rs : List SearchRound) : Peers where
  answers := fun seen asked =>
    if asked = (s.nextPeers none).1 then (env.arrivals rs asked).map Arrival.answer
    else (net.peers r key).answers seen asked
  perm := fun seen asked => by
    split
    · rw [List.map_map]
      exact env.perm rs asked
    · exact (net.peers r key).perm seen asked

theorem roundPeers_answers (seen : List Round) :
    (roundPeers env net r key s rs).answers seen (s.nextPeers none).1 =
      (nextRound env s rs).answers := if_pos rfl

/-- An answer that leaves a search going, of a node of the network, reports closer nodes. -/
theorem passed_reply (hp : HonestValues net serves r key env)
    (haccept : ∀ g ∈ net.nodes, ∀ v, serves g.id = some v → (accept v).isSome) {a : Arrival}
    {asked : List Node} (ha : a ∈ env.arrivals rs asked) (hpass : Passed none accept a) {g : Node}
    (hg : g ∈ net.nodes) (hid : g.id = a.answer.peer) :
    serves g.id = none ∧ a.answer.raw = foundNodes (rpcFindNode (net.table g) r key) := by
  have hraw := (hp rs asked a ha).2 g hg hid
  unfold valueReply at hraw
  cases hserves : serves g.id with
  | none =>
    rw [hserves] at hraw
    exact ⟨rfl, hraw⟩
  | some v =>
    rw [hserves] at hraw
    have hnone := hpass.rejected (by rw [hraw]; rfl) v (by rw [hraw]; rfl)
    have hsome := haccept g hg v hserves
    rw [hnone] at hsome
    cases hsome

/-- **A round of a search that comes upon no copy is a round of a node lookup.** -/
theorem Inside.searchRound (h : Inside net r key seeds s (rs.map SearchRound.toRound))
    (hk : 1 ≤ k) (hp : HonestValues net serves r key env)
    (haccept : ∀ g ∈ net.nodes, ∀ v, serves g.id = some v → (accept v).isSome)
    (hpass : ∀ a ∈ (nextRound env s rs).arrivals, Passed none accept a) :
    Inside net r key seeds (ValueSearch.afterRound s (nextRound env s rs))
        ((rs ++ [nextRound env s rs]).map SearchRound.toRound) ∧
      ∀ n ∈ (nextRound env s rs).asked, serves n.id = none := by
  have hreply : ∀ a ∈ (nextRound env s rs).arrivals, ∀ g ∈ net.nodes, g.id = a.answer.peer →
      serves g.id = none ∧ a.answer.raw = foundNodes (rpcFindNode (net.table g) r key) :=
    fun a ha g hg hid => passed_reply hp haccept ha (hpass a ha) hg hid
  have hasked : ∀ n ∈ (nextRound env s rs).asked, n ∈ net.nodes := fun n hn =>
    (Network.mem_others.mp (h.nodes n (SpiderCrawl.nextPeers_asked_sublist.mem hn))).1
  -- nobody in this round has a copy
  have hnone : ∀ a ∈ (nextRound env s rs).answers, a.raw.getValue = none := by
    intro a ha
    obtain ⟨x, hx, rfl⟩ := List.mem_map.mp ha
    obtain ⟨g, hg, hid⟩ := List.mem_map.mp ((perm_nextRound env s rs).mem_iff.mp
      (List.mem_map_of_mem ha))
    rw [(hreply x hx g (hasked g hg) hid).2]
    rfl
  have hhonest : net.Honest r key (roundPeers env net r key s rs) := by
    intro seen asked a ha
    by_cases heq : asked = (s.nextPeers none).1
    · subst heq
      rw [roundPeers_answers] at ha
      obtain ⟨x, hx, rfl⟩ := List.mem_map.mp ha
      exact ⟨(hp _ _ x hx).1, fun g hg hid => (hreply x hx g hg hid).2⟩
    · have hother : (roundPeers env net r key s rs).answers seen asked =
          (net.peers r key).answers seen asked := if_neg heq
      rw [hother] at ha
      exact Network.honest_peers net r key seen asked a ha
  have hround := h.round hk hhonest
  have hreferrals : referrals (nextRound env s rs).answers =
      responded (nextRound env s rs).answers := by
    refine List.filter_congr fun a ha => ?_
    rw [hnone a ha]
    simp
  refine ⟨?_, fun n hn => ?_⟩
  · rw [NodeLookup.afterRound, NodeLookup.thisRound, roundPeers_answers, ← hreferrals] at hround
    rw [List.map_append]
    exact hround
  · have hpeer := (perm_nextRound env s rs).mem_iff.mpr (List.mem_map_of_mem hn)
    obtain ⟨a, ha, hid⟩ := List.mem_map.mp hpeer
    obtain ⟨x, hx, rfl⟩ := List.mem_map.mp ha
    exact (hreply x hx n (hasked n hn) hid.symm).1

theorem accepted_served (h : Inside net r key seeds s (rs.map SearchRound.toRound))
    (hp : HonestValues net serves r key env) {a : Arrival} {w : Bytes}
    (ha : a ∈ (nextRound env s rs).arrivals) (hacc : Accepted none accept w a) :
    ∃ g ∈ net.nodes, ∃ v, serves g.id = some v ∧ accept v = some w := by
  obtain ⟨g, hg, hid⟩ := List.mem_map.mp ((perm_nextRound env s rs).mem_iff.mp
    (List.mem_map_of_mem (List.mem_map_of_mem ha)))
  have hnode := (Network.mem_others.mp (h.nodes g (SpiderCrawl.nextPeers_asked_sublist.mem hg))).1
  have hraw := (hp _ _ a ha).2 g hnode hid
  obtain ⟨v, hv, hw⟩ := hacc.value
  refine ⟨g, hnode, v, ?_, hw⟩
  rw [hraw, valueReply] at hv
  cases hserves : serves g.id with
  | none =>
    rw [hserves] at hv
    cases hv
  | some v' =>
    rw [hserves] at hv
    exact hv

/-- **A search finds a record that one of the closest nodes holds.** -/
theorem search_finds (hk : 1 ≤ k) (hr : r ∈ net.nodes) (hkey : key ∉ net.nodes.map Node.id)
    (hp : HonestValues net serves r key env)
    (haccept : ∀ g ∈ net.nodes, ∀ v, serves g.id = some v → (accept v).isSome)
    {l : List NodeId} (hl : Nearest k (distTo (Node.fromId key).longId)
      {x | x ∈ (net.others r).map Node.id} l)
    {x : NodeId} (hx : x ∈ l) (hserves : (serves x).isSome) {fuel : Nat} :
    ∀ {s : SpiderCrawl} {incomplete : Bool} {rs : List SearchRound} {e : SearchEnd},
      Inside net r key ((net.table r).findNeighbors (.fromId key) none) s
        (rs.map SearchRound.toRound) →
      (∀ x ∈ askedIds (rs.map SearchRound.toRound), serves x = none) →
      search env none accept fuel s incomplete rs = some e →
      ∃ w, e.outcome = .found w ∧
        ∃ g ∈ net.nodes, ∃ v, serves g.id = some v ∧ accept v = some w := by
  induction fuel with
  | zero => intro s incomplete rs e _ _ hsearch; cases hsearch
  | succ fuel ih =>
    intro s incomplete rs e h hasked hsearch
    rcases search_succ env none accept s incomplete rs with
      ⟨hall, heq⟩ |
      ⟨hall, ⟨hnow, heq⟩ | ⟨w, ⟨a, ha, hacc⟩, heq⟩ | ⟨⟨a, -, hlate⟩, -⟩ | ⟨hpass, heq⟩⟩
    · -- everybody was asked of the closest nodes, the holder among them
      have hmem : x ∈ s.nearest.getIds := by
        rw [(h.exact hk hr hkey hall).unique hl]
        exact hx
      have hcontacted := s.nearest.haveContactedAll_iff.mp hall x hmem
      rw [hasked x ((h.keeps.tracks.contacted x).mp hcontacted)] at hserves
      cases hserves
    · cases hnow
    · cases (heq fuel).symm.trans hsearch
      exact ⟨w, rfl, accepted_served h hp ha hacc⟩
    · cases hlate
    · obtain ⟨hnext, hround⟩ := h.searchRound hk hp haccept hpass
      refine ih hnext (fun y hy => ?_) ((heq fuel).symm.trans hsearch)
      rw [List.map_append, askedIds, List.flatMap_append] at hy
      rcases List.mem_append.mp hy with hy | hy
      · exact hasked y hy
      · simp only [List.map_cons, List.map_nil, List.flatMap_cons, List.flatMap_nil,
          List.append_nil] at hy
        obtain ⟨n, hn, rfl⟩ := List.mem_map.mp hy
        exact hround n hn

/-- The nodes responsible for a key: the closest of the whole network. -/
def Network.responsible (net : Network k) (key : NodeId) : List Node :=
  (net.nodes.insertionSort fun a b =>
    a.distanceTo (.fromId key) ≤ b.distanceTo (.fromId key)).take k

theorem Network.responsible_nearest (net : Network k) (key : NodeId) :
    Nearest k (distTo (Node.fromId key).longId) {x | x ∈ net.nodes.map Node.id}
      ((net.responsible key).map Node.id) :=
  nearest_sort_map (fun _ _ _ _ he => distTo_injective _ he) (fun _ _ => rfl) net.distinct

theorem Network.mem_nodes_of_responsible {n : Node} (hn : n ∈ net.responsible key) :
    n ∈ net.nodes :=
  (List.mem_insertionSort _).mp (List.mem_of_mem_take hn)

theorem Network.others_nearest (net : Network k) (r : Node) (key : NodeId) :
    Nearest k (distTo (Node.fromId key).longId) {x | x ∈ (net.others r).map Node.id}
      ((((net.others r).insertionSort fun a b =>
        a.distanceTo (.fromId key) ≤ b.distanceTo (.fromId key)).take k).map Node.id) :=
  nearest_sort_map (fun _ _ _ _ he => distTo_injective _ he) (fun _ _ => rfl)
    (net.distinct.sublist (List.filter_sublist.map _))

theorem lookup_nearest (net : Network k) (hk : 1 ≤ k) (alpha : Nat) (hr : r ∈ net.nodes)
    (hkey : key ∉ net.nodes.map Node.id) {peers : Peers} (hp : net.Honest r key peers) :
    ∃ bound L rs,
      (∀ fuel ≥ bound, findLookupNodes peers fuel
        (.new (.fromId key) ((net.table r).findNeighbors (.fromId key) none) k alpha) [] =
          some (L, rs)) ∧
      (∀ n ∈ L.nodes, n ∈ net.others r) ∧
      Nearest k (distTo (Node.fromId key).longId) {x | x ∈ (net.others r).map Node.id}
        (L.nodes.map Node.id) := by
  have hin := inside_new hk hr key alpha
  obtain ⟨bound, L, rs, hret⟩ := findLookupNodes_returns peers hin.keeps.tracks
  refine ⟨bound, L, rs, fun fuel hf => findLookupNodes_mono hret hf, ?_⟩
  obtain ⟨s, h, hall, rfl⟩ := findLookupNodes_induct hin (fun s rs h => h.round hk hp) hret
  exact ⟨h.nodes, h.exact hk hr hkey hall⟩

end AuthKademlia.Crawling.StableNetwork
