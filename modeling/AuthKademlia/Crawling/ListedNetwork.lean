import AuthKademlia.Crawling.NodeLookup
import AuthKademlia.Crawling.QuorumRead
import AuthKademlia.Routing.Table

/-! # Lookups of a node that lists all the others

`D` are the other nodes, closest to the target first. A node whose table lists
them all starts a lookup with the `k` closest, and if everybody answers and
reports nodes of the network, no report can change the shortlist. A node lookup
then finds exactly these, and a quorum read asks them strictly in order, up to
the number of copies it may collect. -/
namespace AuthKademlia.Crawling.ListedNetwork
open AuthKademlia.Lib.Shortlist AuthKademlia.Utils AuthKademlia.Routing

/-- The nodes are in strictly increasing distance from the target. -/
def Ordered (target : Node) (D : List Node) : Prop :=
  D.Pairwise fun a b => distTo target.longId a.id < distTo target.longId b.id

instance (target : Node) (D : List Node) : Decidable (Ordered target D) :=
  inferInstanceAs (Decidable (List.Pairwise _ _))

variable {target : Node} {D : List Node} {k alpha : Nat} {s : SpiderCrawl} {rs : List Round}

theorem Ordered.ids (hD : Ordered target D) :
    (D.map Node.id).Pairwise fun a b => distTo target.longId a < distTo target.longId b :=
  List.pairwise_map.mpr hD

theorem Ordered.nodup_ids (hD : Ordered target D) : (D.map Node.id).Nodup :=
  nodup_of_increasing hD.ids

theorem Ordered.nodup (hD : Ordered target D) : D.Nodup := List.Nodup.of_map _ hD.nodup_ids

theorem Ordered.eq_of_id (hD : Ordered target D) {a b : Node} (ha : a ∈ D) (hb : b ∈ D)
    (h : a.id = b.id) : a = b := List.inj_on_of_nodup_map hD.nodup_ids ha hb h

/-- Among the nodes of `D`, ids determine a list. -/
theorem Ordered.eq_of_ids (hD : Ordered target D) : ∀ {l m : List Node}, (∀ n ∈ l, n ∈ D) →
    (∀ n ∈ m, n ∈ D) → l.map Node.id = m.map Node.id → l = m
  | [], [], _, _, _ => rfl
  | a :: l, b :: m, hl, hm, h => by
    obtain ⟨hab, h⟩ := List.cons.inj h
    rw [hD.eq_of_id (hl a List.mem_cons_self) (hm b List.mem_cons_self) hab,
      Ordered.eq_of_ids hD (fun n hn => hl n (List.mem_cons_of_mem a hn))
        (fun n hn => hm n (List.mem_cons_of_mem b hn)) h]

/-- The first `k` nodes are the shortlist of all. -/
theorem Ordered.nearest (hD : Ordered target D) (k : Nat) :
    Nearest k (distTo target.longId) {x | x ∈ D.map Node.id} ((D.take k).map Node.id) := by
  have hsplit : D.map Node.id = (D.take k).map Node.id ++ (D.drop k).map Node.id := by
    rw [← List.map_append, List.take_append_drop]
  have hinc := hD.ids
  rw [hsplit] at hinc
  obtain ⟨htake, -, hlt⟩ := List.pairwise_append.mp hinc
  refine ⟨htake, fun x hx => ?_, ?_, fun x hx hn => ?_⟩
  · change x ∈ D.map Node.id
    rw [hsplit]; exact List.mem_append_left _ hx
  · rw [List.length_map, List.length_take]; exact Nat.min_le_left _ _
  · change x ∈ D.map Node.id at hx
    rw [hsplit, List.mem_append] at hx
    have hdrop := hx.resolve_left hn
    refine ⟨?_, fun b hb => hlt b hb x hdrop⟩
    have hpos := List.length_pos_of_mem hdrop
    rw [List.length_map, List.length_drop] at hpos
    rw [List.length_map, List.length_take]
    omega

/-! ## The table -/

/-- A routing table with `D` as contacts, none of which failed. -/
structure Lists (t : RoutingTable) (k : Nat) (D : List Node) : Prop where
  ksize : t.ksize = k
  primaries : t.primaries.Perm D
  healthy : ∀ n ∈ D, t.health n.id = none

theorem Lists.not_failing {t : RoutingTable} (h : Lists t k D) {n : Node} (hn : n ∈ D) :
    t.hasFailures n.id = false ∧ t.isStale n.id = false := by
  have hh := h.healthy n hn
  simp [RoutingTable.hasFailures, RoutingTable.isStale, hh]

theorem Lists.eligible {t : RoutingTable} (h : Lists t k D) (hkey : target.id ∉ D.map Node.id)
    {keep : Node → Bool} (hkeep : ∀ n ∈ D, keep n = true) :
    t.eligible target none keep = t.primaries := by
  refine List.filter_eq_self.mpr fun n hn => ?_
  have hn := h.primaries.mem_iff.mp hn
  have hne : n.id ≠ target.id := fun he => hkey (he ▸ List.mem_map_of_mem hn)
  simp [hne, hkeep n hn]

theorem Lists.closest {t : RoutingTable} (h : Lists t k D) (hD : Ordered target D)
    (hkey : target.id ∉ D.map Node.id) {keep : Node → Bool} (hkeep : ∀ n ∈ D, keep n = true) :
    t.closest target none keep = D.take k := by
  have hids := h.primaries.map Node.id
  have hn := RoutingTable.closest_nearest (hids.nodup_iff.mpr hD.nodup_ids) target none keep
  rw [h.eligible hkey hkeep, h.ksize] at hn
  refine hD.eq_of_ids (fun n hn => ?_) (fun n hn => List.mem_of_mem_take hn)
    ((hn.congr fun x => ?_).unique (hD.nearest k))
  · have hn := RoutingTable.mem_eligible_of_mem_closest hn
    rw [h.eligible hkey hkeep] at hn
    exact h.primaries.mem_iff.mp hn
  · exact hids.mem_iff

/-- **The neighbours of a target**, for a node that lists all the others. -/
theorem Lists.findNeighbors {t : RoutingTable} (h : Lists t k D) (hD : Ordered target D)
    (hkey : target.id ∉ D.map Node.id) : t.findNeighbors target none = D.take k := by
  have hf : t.closest target none (fun n => !t.hasFailures n.id) = D.take k :=
    h.closest hD hkey fun n hn => by simp [(h.not_failing hn).1]
  have hs : t.closest target none (fun n => !t.isStale n.id) = D.take k :=
    h.closest hD hkey fun n hn => by simp [(h.not_failing hn).2]
  have ha : t.closest target none (fun _ => true) = D.take k := h.closest hD hkey fun _ _ => rfl
  simp only [RoutingTable.findNeighbors, hf, hs, ha]
  split
  · rfl
  · split <;> rfl

/-! ## The shortlist stands -/

/-- An answer of the network: it came, and reports nodes of the network only. -/
structure Genuine (D : List Node) (a : Answer) : Prop where
  happened : a.raw.happened = true
  reports : ∀ n ∈ a.raw.getNodeList, n ∈ D

/-- All answers so far were genuine. -/
def AllGenuine (D : List Node) (rs : List Round) : Prop :=
  ∀ rd ∈ rs, ∀ a ∈ rd.answers, Genuine D a

theorem AllGenuine.snoc {rd : Round} (h : AllGenuine D (rs ++ [rd])) :
    AllGenuine D rs ∧ ∀ a ∈ rd.answers, Genuine D a :=
  ⟨fun r hr => h r (List.mem_append_left _ hr), h rd (by simp)⟩

/-- The shortlist is still the `k` closest nodes. -/
structure Steady (target : Node) (D : List Node) (k : Nat) (s : SpiderCrawl) (rs : List Round) :
    Prop where
  tracks : SpiderCrawl.Tracks target k s rs
  shortlist : s.nearest.toVec = D.take k

theorem steady_new (hD : Ordered target D) (k alpha : Nat) :
    Steady target D k (.new target (D.take k) k alpha) [] := by
  have hw := NodeHeap.wf_new target k
  have hmem : ∀ n ∈ ((NodeHeap.new target k).push (D.take k)).toVec, n ∈ D.take k := fun n hn =>
    (NodeHeap.mem_push hw hn).resolve_left (by simp [NodeHeap.new, NodeHeap.toVec])
  have hn := NodeHeap.push_nearest hw (D.take k)
  rw [← (hw.push (D.take k)).getIds_eq] at hn
  refine ⟨SpiderCrawl.tracks_new _ _ _ _, hD.eq_of_ids (fun n hn => List.mem_of_mem_take
    (hmem n hn)) (fun n hn => List.mem_of_mem_take hn) ((hn.congr fun x => ?_).unique
      (nearest_self (hD.nearest k).increasing (hD.nearest k).length_le))⟩
  simp [NodeHeap.new, NodeHeap.getIds, NodeHeap.toVec]

/-- **A round of genuine answers leaves the shortlist as it is.** -/
theorem Steady.round (h : Steady target D k s rs) (hD : Ordered target D) (limit : Option Nat)
    {answers merged : List Answer} (hsub : ∀ a ∈ merged, a ∈ answers)
    (hg : ∀ a ∈ answers, Genuine D a) :
    Steady target D k (((s.nextPeers limit).2.mergeAll merged).removeFailed (silent answers))
      (rs ++ [⟨(s.nextPeers limit).1, answers⟩]) := by
  have hw : (s.nextPeers limit).2.nearest.Wf := SpiderCrawl.nextPeers_wf h.tracks.wf
  have hsil : silent answers = [] := by
    rw [silent, List.filter_eq_nil_iff.mpr fun a ha => by simp [(hg a ha).happened], List.map_nil]
  have hwm := (SpiderCrawl.mergeAll_same (s.nextPeers limit).2 merged).wf hw
  refine ⟨h.tracks.round limit merged, ?_⟩
  -- nothing is removed, and everything merged is a node of `D`
  rw [hsil, SpiderCrawl.removeFailed, hwm.toVec_remove, List.filter_eq_self.mpr fun n _ => by simp]
  have hold : (s.nextPeers limit).2.nearest.getIds = (D.take k).map Node.id := by
    rw [SpiderCrawl.nextPeers_getIds, NodeHeap.getIds, h.shortlist]
  have hnear := SpiderCrawl.mergeAll_nearest hw merged (S := {x | x ∈ D.map Node.id}) (by
    rw [hold, SpiderCrawl.nextPeers_maxsize, SpiderCrawl.nextPeers_node, h.tracks.maxsize,
      h.tracks.node]
    exact hD.nearest k)
  rw [SpiderCrawl.nextPeers_maxsize, SpiderCrawl.nextPeers_node, h.tracks.maxsize,
    h.tracks.node] at hnear
  have hreport : ∀ a ∈ merged, ∀ n ∈ a.raw.getNodeList, n ∈ D := fun a ha =>
    (hg a (hsub a ha)).reports
  refine hD.eq_of_ids (fun n hn => ?_) (fun n hn => List.mem_of_mem_take hn)
    ((hnear.congr fun x => ?_).unique (hD.nearest k))
  · rcases SpiderCrawl.mem_mergeAll hw merged hn with hn | ⟨-, a, ha, hn⟩
    · rw [SpiderCrawl.nextPeers_toVec, h.shortlist] at hn
      exact List.mem_of_mem_take hn
    · exact hreport a ha n hn
  · refine ⟨fun hx => ?_, Or.inl⟩
    rcases hx with hx | ⟨⟨a, ha, hx⟩, -⟩
    · exact hx
    · obtain ⟨n, hn, rfl⟩ := List.mem_map.mp (List.mem_of_mem_filter hx)
      exact List.mem_map_of_mem (hreport a ha n hn)

/-- **A node lookup finds the `k` closest nodes.** -/
theorem findLookupNodes_listed (hD : Ordered target D) {peers : Peers} {fuel : Nat}
    {L : LookupNodes}
    (h : NodeLookup.findLookupNodes peers fuel (.new target (D.take k) k alpha) [] = some (L, rs))
    (hg : AllGenuine D rs) : L.nodes = D.take k := by
  obtain ⟨s, hs, -, rfl⟩ := NodeLookup.findLookupNodes_induct
    (I := fun s rs => AllGenuine D rs → Steady target D k s rs)
    (fun _ => steady_new hD k alpha)
    (fun s rs hs hg => (hs hg.snoc.1).round hD none (fun a ha => List.mem_of_mem_filter ha)
      hg.snoc.2) h
  exact (hs hg).shortlist

/-! ## A quorum read -/

open QuorumRead

/-- The nodes asked so far, in order. -/
def askedNodes (rs : List Round) : List Node := rs.flatMap Round.asked

def votes (rs : List Round) : List Bytes := rs.flatMap fun rd => rd.answers.filterMap vote

@[simp] theorem askedNodes_snoc (rs : List Round) (rd : Round) :
    askedNodes (rs ++ [rd]) = askedNodes rs ++ rd.asked := by simp [askedNodes]

@[simp] theorem votes_snoc (rs : List Round) (rd : Round) :
    votes (rs ++ [rd]) = votes rs ++ rd.answers.filterMap vote := by simp [votes]

theorem askedIds_eq (rs : List Round) : askedIds rs = (askedNodes rs).map Node.id := by
  rw [askedIds, askedNodes, List.map_flatMap]

/-- Each of the first `m` nodes that answered sent a copy. -/
def AllVote (D : List Node) (m : Nat) (rs : List Round) : Prop :=
  ∀ rd ∈ rs, ∀ a ∈ rd.answers, a.peer ∈ (D.take m).map Node.id → (vote a).isSome

/-- One answer for each node asked. -/
def AllHeard (rs : List Round) : Prop :=
  ∀ rd ∈ rs, (rd.answers.map Answer.peer).Perm (rd.asked.map Node.id)

/-- A read that has `m` votes left after the initial ones asks the nodes in order. -/
structure Polling (target : Node) (D : List Node) (k m : Nat) (initial : List Bytes)
    (s : SpiderCrawl) (found : List Bytes) (rs : List Round) : Prop where
  steady : Steady target D k s rs
  inOrder : askedNodes rs <+: D.take k
  heard : AllHeard rs
  found : found = initial ++ votes rs
  within : m < k → (askedNodes rs).length ≤ m

variable {m : Nat} {initial found : List Bytes} {v : Bytes}

theorem length_votes (hh : AllHeard rs) (hv : ∀ rd ∈ rs, ∀ a ∈ rd.answers, (vote a).isSome) :
    (votes rs).length = (askedNodes rs).length := by
  induction rs with
  | nil => rfl
  | cons rd rs ih =>
    have hlen : (rd.answers.filterMap vote).length = rd.asked.length := by
      rw [List.length_filterMap_eq_countP, List.countP_eq_length.mpr (hv rd List.mem_cons_self)]
      simpa using (hh rd List.mem_cons_self).length_eq
    have hrest := ih (fun r hr => hh r (List.mem_cons_of_mem rd hr))
      fun r hr => hv r (List.mem_cons_of_mem rd hr)
    simp only [votes, askedNodes, List.flatMap_cons, List.length_append] at hrest ⊢
    omega

/-- Votes for `v` come from nodes asked that are not known to vote otherwise. -/
theorem count_votes_le {p : NodeId → Bool} (hh : AllHeard rs)
    (hp : ∀ rd ∈ rs, ∀ a ∈ rd.answers, p a.peer = true → vote a ≠ some v) :
    (votes rs).count v ≤ (askedNodes rs).countP fun n => !p n.id := by
  induction rs with
  | nil => simp [votes]
  | cons rd rs ih =>
    have hround : (rd.answers.filterMap vote).count v ≤ rd.asked.countP fun n => !p n.id := by
      calc (rd.answers.filterMap vote).count v
          = rd.answers.countP fun a => vote a = some v := by
            rw [List.count, List.countP_filterMap]
            refine List.countP_congr fun a _ => ?_
            cases vote a <;> simp
        _ ≤ rd.answers.countP fun a => !p a.peer := by
            refine List.countP_mono_left fun a ha hav => ?_
            cases hpa : p a.peer with
            | false => rfl
            | true => exact absurd (of_decide_eq_true hav) (hp rd List.mem_cons_self a ha hpa)
        _ = (rd.answers.map Answer.peer).countP fun x => !p x := by
            rw [List.countP_map]; rfl
        _ = rd.asked.countP fun n => !p n.id := by
            rw [(hh rd List.mem_cons_self).countP_eq, List.countP_map]; rfl
    have hrest := ih (fun r hr => hh r (List.mem_cons_of_mem rd hr))
      fun r hr => hp r (List.mem_cons_of_mem rd hr)
    simp only [votes, askedNodes, List.flatMap_cons, List.count_append, List.countP_append]
      at hrest ⊢
    omega

theorem Polling.uncontacted (h : Polling target D k m initial s found rs) (hD : Ordered target D)
    {rest : List Node} (hrest : askedNodes rs ++ rest = D.take k) :
    s.nearest.getUncontacted = rest := by
  have hnd : (D.take k).Pairwise fun a b => a.id ≠ b.id :=
    (List.pairwise_map.mp hD.nodup_ids).sublist (List.take_sublist k D)
  have hcon : ∀ n : Node, n.id ∈ s.nearest.contacted ↔ n.id ∈ (askedNodes rs).map Node.id := by
    intro n
    rw [h.steady.tracks.contacted, askedIds_eq]
  rw [← hrest, List.pairwise_append] at hnd
  rw [NodeHeap.getUncontacted, h.steady.shortlist, ← hrest, List.filter_append,
    List.filter_eq_nil_iff.mpr fun n hn => ?_, List.filter_eq_self.mpr fun n hn => ?_,
    List.nil_append]
  · refine decide_eq_true fun hc => ?_
    obtain ⟨a, ha, hid⟩ := List.mem_map.mp ((hcon n).mp hc)
    exact hnd.2.2 a ha n hn hid
  · have hc := (hcon n).mpr (List.mem_map_of_mem hn)
    simp [hc]

theorem Polling.voted (h : Polling target D k m initial s found rs) (hv : AllVote D m rs)
    (hlt : m < k) : found.length = initial.length + (askedNodes rs).length := by
  rw [h.found, List.length_append, length_votes h.heard]
  intro rd hrd a ha
  refine hv rd hrd a ha ?_
  have hpeer := (h.heard rd hrd).mem_iff.mp (List.mem_map_of_mem ha)
  obtain ⟨n, hn, hid⟩ := List.mem_map.mp hpeer
  rw [← hid]
  refine List.mem_map_of_mem ?_
  -- the nodes asked are among the first `m`
  have hsub : askedNodes rs <+: D.take m := by
    rw [List.prefix_take_iff]
    exact ⟨h.inOrder.trans (List.take_prefix k D), h.within hlt⟩
  exact hsub.subset (List.mem_flatMap.mpr ⟨rd, hrd, hn⟩)

/-- **A round asks the next nodes in order**, as many as there are votes left. -/
theorem Polling.round {peers : Peers} {maximumVotes : Nat}
    (h : Polling target D k (maximumVotes - initial.length) initial s found rs)
    (hD : Ordered target D)
    (hg : ∀ a ∈ replies peers maximumVotes s found rs, Genuine D a)
    (hv : maximumVotes - initial.length < k → AllVote D (maximumVotes - initial.length) rs) :
    Polling target D k (maximumVotes - initial.length) initial
      (afterRound peers maximumVotes s found rs)
      (found ++ (replies peers maximumVotes s found rs).filterMap vote)
      (rs ++ [thisRound peers maximumVotes s found rs]) := by
  obtain ⟨rest, hrest⟩ := h.inOrder
  have hasks : asks maximumVotes s found =
      rest.take (s.count (some (maximumVotes - found.length))) := by
    rw [← h.uncontacted hD hrest]; rfl
  refine ⟨h.steady.round hD _ (fun a ha => List.mem_of_mem_filter ha) hg, ?_, ?_, ?_, ?_⟩
  · rw [askedNodes_snoc, ← hrest, thisRound, hasks]
    exact List.prefix_append_right_inj _ |>.mpr (List.take_prefix _ _)
  · intro rd hrd
    rcases List.mem_append.mp hrd with hrd | hrd
    · exact h.heard rd hrd
    · rw [List.mem_singleton.mp hrd]
      exact peers.perm rs _
  · rw [votes_snoc, ← List.append_assoc, ← h.found]; rfl
  · intro hlt
    have hwithin := h.within hlt
    have hvoted := h.voted (hv hlt) hlt
    have hcount : s.count (some (maximumVotes - found.length)) ≤ maximumVotes - found.length :=
      Nat.min_le_right _ _
    rw [askedNodes_snoc, List.length_append, thisRound, hasks, List.length_take]
    omega

/-- **What a quorum read returns** has enough votes among the initial copies and
the first nodes that are not known to vote otherwise. -/
theorem findQuorum_listed (hD : Ordered target D) {peers : Peers}
    {minimumVotes maximumVotes fuel : Nat}
    (h : findQuorum peers minimumVotes maximumVotes fuel (.new target (D.take k) k alpha) initial
      [] = some (some v, rs)) (hg : AllGenuine D rs)
    (hv : maximumVotes - initial.length < k → AllVote D (maximumVotes - initial.length) rs)
    {p : NodeId → Bool}
    (hp : ∀ rd ∈ rs, ∀ a ∈ rd.answers, p a.peer = true → vote a ≠ some v) :
    minimumVotes ≤ initial.count v +
      (D.take (min k (maximumVotes - initial.length))).countP fun n => !p n.id := by
  obtain ⟨s, found, hpoll, hwin, -⟩ := findQuorum_induct
    (I := fun s found rs => AllGenuine D rs →
      (maximumVotes - initial.length < k → AllVote D (maximumVotes - initial.length) rs) →
      Polling target D k (maximumVotes - initial.length) initial s found rs)
    (fun _ _ => ⟨steady_new hD k alpha, List.nil_prefix, by simp [AllHeard], by simp [votes],
      fun _ => Nat.zero_le _⟩)
    (fun s found rs hpoll _ hg hv => by
      have hinit : maximumVotes - initial.length < k →
          AllVote D (maximumVotes - initial.length) rs :=
        fun hlt rd hrd => hv hlt rd (List.mem_append_left _ hrd)
      exact (hpoll hg.snoc.1 hinit).round hD hg.snoc.2 hinit) h
  have hpoll := hpoll hg hv
  have hfirst : askedNodes rs <+: D.take (min k (maximumVotes - initial.length)) := by
    rw [List.prefix_take_iff]
    refine ⟨hpoll.inOrder.trans (List.take_prefix k D), ?_⟩
    have hlen := hpoll.inOrder.length_le
    rw [List.length_take] at hlen
    by_cases hlt : maximumVotes - initial.length < k
    · have := hpoll.within hlt
      omega
    · omega
  calc minimumVotes ≤ found.count v :=
        Nat.le_trans (Nat.le_max_left _ _) (strictQuorumValue_some hwin)
    _ = initial.count v + (votes rs).count v := by rw [hpoll.found, List.count_append]
    _ ≤ initial.count v + (askedNodes rs).countP fun n => !p n.id :=
        Nat.add_le_add_left (count_votes_le hpoll.heard hp) _
    _ ≤ _ := Nat.add_le_add_left hfirst.sublist.countP_le _

end AuthKademlia.Crawling.ListedNetwork
