import AuthKademlia.Crawling.Bootstrap
import AuthKademlia.Protocol.NetworkCopy

/-! # A check that nothing speaks against

An empty replica that is sent a record asks the network for it first. If everybody
answers in time, and whoever holds a record of the key holds this one, then the check
ends with `NoneOrSame`. The nodes reported on the way are nodes of the network, so
that nobody else is asked. -/
namespace AuthKademlia.Protocol
open AuthKademlia.Utils AuthKademlia.Routing AuthKademlia.Crawling
open AuthKademlia.Crawling.ValueSearch AuthKademlia.Crawling.StableNetwork

/-- Whoever is in `N` answers a search before the deadline, with nodes of `N` or with a
value that the search does not accept. -/
structure Agreeing (N : List Node) (deadline : Instant) (accept : Bytes → Option Bytes)
    (env : SearchPeers) : Prop where
  now : ∀ seen, env.now seen < deadline
  inTime : ∀ seen asked, ∀ a ∈ env.arrivals seen asked, a.time < deadline
  answer : ∀ seen asked, ∀ a ∈ env.arrivals seen asked, ∀ g ∈ N, g.id = a.answer.peer →
    a.answer.raw.happened = true ∧ (∀ v, a.answer.raw.getValue = some v → accept v = none) ∧
      ∀ n ∈ a.answer.raw.getNodeList, n ∈ N

variable {N : List Node} {deadline : Instant} {accept : Bytes → Option Bytes} {env : SearchPeers}

/-- An answer in a round of a search among `N`. -/
theorem Agreeing.heard (h : Agreeing N deadline accept env) {s : SpiderCrawl}
    {rs : List SearchRound} (hs : ∀ n ∈ s.nearest.toVec, n ∈ N) {a : Arrival}
    (ha : a ∈ (nextRound env s rs).arrivals) :
    a.answer.raw.happened = true ∧ (∀ v, a.answer.raw.getValue = some v → accept v = none) ∧
      ∀ n ∈ a.answer.raw.getNodeList, n ∈ N := by
  obtain ⟨g, hg, hid⟩ := List.mem_map.mp ((perm_nextRound env s rs).mem_iff.mp
    (List.mem_map_of_mem (List.mem_map_of_mem ha)))
  exact h.answer _ _ a ha g (hs g (SpiderCrawl.nextPeers_asked_sublist.mem hg)) hid

/-- **Such a search finds nothing.** -/
theorem search_agreed (h : Agreeing N deadline accept env) {fuel : Nat} :
    ∀ {s : SpiderCrawl} {rs : List SearchRound} {e : SearchEnd}, s.nearest.Wf →
      (∀ n ∈ s.nearest.toVec, n ∈ N) →
      search env (some deadline) accept fuel s false rs = some e → e.outcome = .notFound := by
  induction fuel with
  | zero => intro s rs e _ _ hsearch; cases hsearch
  | succ fuel ih =>
    intro s rs e hwf hs hsearch
    have hearly : ∀ t, t < deadline → reached (some deadline) t = false :=
      fun t ht => reached_eq_false.mpr ht
    rcases search_succ env (some deadline) accept s false rs with
      ⟨-, heq⟩ |
      ⟨-, ⟨hnow, -⟩ | ⟨w, ⟨a, ha, hacc⟩, -⟩ | ⟨⟨a, ha, hlate⟩, -⟩ | ⟨-, heq⟩⟩
    · cases (heq fuel).symm.trans hsearch
      rfl
    · rw [hearly _ (h.now rs)] at hnow
      cases hnow
    · obtain ⟨v, hv, hw⟩ := hacc.value
      rw [(h.heard hs ha).2.1 v hv] at hw
      cases hw
    · rw [Arrival.late_of_not_reached (hearly _ (h.inTime _ _ a ha))] at hlate
      cases hlate
    · have hall : (nextRound env s rs).unanswered = false := by
        refine List.any_eq_false.mpr fun a ha => ?_
        rw [(h.heard hs ha).1]
        exact Bool.false_ne_true
      rw [heq fuel, hall] at hsearch
      refine ih ?_ ?_ hsearch
      · exact ((SpiderCrawl.mergeAll_same _ _).wf (SpiderCrawl.nextPeers_wf hwf)).remove _
      · intro n hn
        rcases SpiderCrawl.mem_round hwf hn with hold | ⟨a, ha, hnew⟩
        · exact hs n hold
        · obtain ⟨x, hx, rfl⟩ := List.mem_map.mp (List.mem_of_mem_filter ha)
          exact (h.heard hs hx).2.2 n hnew

/-- **The check ends with `NoneOrSame`.** -/
theorem networkCopy_agreed {hashes : Hashes} {router : RoutingTable} {key : NodeId}
    {value : Bytes} {start : Instant} (alpha : Nat)
    (hcontacts : checkContacts router (.fromId key) ≠ [])
    (hnodes : ∀ n ∈ checkContacts router (.fromId key), n ∈ N)
    (h : Agreeing N (start + storeLookupTimeout)
      (fun found => if found ≠ hashes.sha256 value then some found else none) env) :
    (∃ fuel rounds, networkCopy hashes router alpha env start fuel key value =
      some (.noneOrSame, rounds)) ∧
    ∀ fuel copy rounds, networkCopy hashes router alpha env start fuel key value =
      some (copy, rounds) → copy = .noneOrSame := by
  have hne : (checkContacts router (.fromId key)).isEmpty = false :=
    List.isEmpty_eq_false_iff.mpr hcontacts
  let crawl : SpiderCrawl :=
    { SpiderCrawl.new (.fromId key) (checkContacts router (.fromId key)) router.ksize alpha with
      askEveryone := amongClosest router (.fromId key) }
  have htracks : crawl.Tracks (.fromId key) router.ksize [] := by
    obtain ⟨h₁, h₂, h₃, h₄, h₅, h₆, h₇⟩ := SpiderCrawl.tracks_new (.fromId key)
      (checkContacts router (.fromId key)) router.ksize alpha
    exact ⟨h₁, h₂, h₃, h₄, h₅, h₆, h₇⟩
  have hin : ∀ n ∈ crawl.nearest.toVec, n ∈ N := by
    intro n hn
    rcases NodeHeap.mem_push (NodeHeap.wf_new (.fromId key) router.ksize) hn with hold | hnew
    · simp [NodeHeap.new, NodeHeap.toVec] at hold
    · exact hnodes n hnew
  have hall : ∀ fuel copy rounds, networkCopy hashes router alpha env start fuel key value =
      some (copy, rounds) → copy = .noneOrSame := by
    intro fuel copy rounds hret
    simp only [networkCopy, hne, Bool.false_eq_true, if_false] at hret
    obtain ⟨e, he, hcopy⟩ := Option.map_eq_some_iff.mp hret
    rw [search_agreed h htracks.wf hin he] at hcopy
    cases hcopy
    rfl
  refine ⟨?_, hall⟩
  obtain ⟨fuel, e, he⟩ := search_returns (going_new htracks) env
  have hret : networkCopy hashes router alpha env start fuel key value =
      some (.noneOrSame, e.rounds) := by
    simp only [networkCopy, hne, Bool.false_eq_true, if_false]
    rw [he, Option.map_some, search_agreed h htracks.wf hin he]
  exact ⟨fuel, e.rounds, hret⟩

/-! ## In a stable network -/

variable {k : Nat}

/-- What a node `g` answers `r` to a FIND_HASH: the hash of the record that it serves, or the
closest nodes of its table, which may have met `r` meanwhile. -/
def HashReply (net : StableNetwork.Network k) (hashes : Hashes) (serves : NodeId → Option Bytes)
    (r : Node) (key : NodeId) (g : Node) (raw : RawResponse) : Prop :=
  (∃ v, serves g.id = some v ∧ raw = ⟨true, .value (hashes.sha256 v)⟩) ∨
    serves g.id = none ∧ ∃ t, Met net r g t ∧ raw = foundNodes (rpcFindNode t r key)

/-- Every node answers `r` so, and in time; the order of the answers is free. -/
structure HashPeers (net : StableNetwork.Network k) (hashes : Hashes)
    (serves : NodeId → Option Bytes) (r : Node) (key : NodeId) (deadline : Instant)
    (env : SearchPeers) : Prop where
  now : ∀ seen, env.now seen < deadline
  inTime : ∀ seen asked, ∀ a ∈ env.arrivals seen asked, a.time < deadline
  reply : ∀ seen asked, ∀ a ∈ env.arrivals seen asked, ∀ g ∈ net.nodes, g.id = a.answer.peer →
    HashReply net hashes serves r key g a.answer.raw

variable {net : StableNetwork.Network k} {hashes : Hashes} {serves : NodeId → Option Bytes}
  {r g : Node} {key : NodeId} {value : Bytes}

theorem mem_others_of_reported {t : RoutingTable} (h : Met net r g t) {n : Node}
    (hn : n ∈ rpcFindNode t r key) : n ∈ net.others r := by
  obtain ⟨hp, hcond⟩ := List.mem_filter.mp (RoutingTable.mem_eligible_of_mem_closest hn)
  simp only [Bool.and_eq_true] at hcond
  have hne : n.id ≠ r.id := by simpa using hcond.1.2
  exact Network.mem_others.mpr ⟨(Network.mem_others.mp (h.mem_nodes hp hne)).1, hne⟩

theorem HashPeers.agreeing (h : HashPeers net hashes serves r key deadline env)
    (hserves : ∀ g ∈ net.nodes, ∀ v, serves g.id = some v → v = value) :
    Agreeing (net.others r) deadline
      (fun found => if found ≠ hashes.sha256 value then some found else none) env where
  now := h.now
  inTime := h.inTime
  answer := by
    intro seen asked a ha g hg hid
    have hnode := (Network.mem_others.mp hg).1
    rcases h.reply seen asked a ha g hnode hid with ⟨v, hv, hraw⟩ | ⟨-, t, ht, hraw⟩
    · rw [hraw, hserves g hnode v hv]
      refine ⟨rfl, ?_, fun n hn => nomatch hn⟩
      intro hash hhash
      rw [← Option.some.inj hhash, if_neg (not_not_intro rfl)]
    · rw [hraw, foundNodes_getNodeList]
      exact ⟨rfl, (fun v hv => nomatch hv), fun n hn => mem_others_of_reported ht hn⟩

theorem hashPeers_searchPeers (hk : 1 ≤ k) (net : StableNetwork.Network k) (hashes : Hashes)
    (serves : NodeId → Option Bytes) (r : Node) (key : NodeId) (start : Instant) :
    HashPeers net hashes serves r key (start + storeLookupTimeout)
      (searchPeers net (fun id => (serves id).map hashes.sha256) r key) := by
  have hsoon : 0 < start + storeLookupTimeout := Nat.add_pos_right start (by decide)
  refine ⟨fun _ => hsoon, ?_, ?_⟩
  · intro seen asked a ha
    obtain ⟨n, -, rfl⟩ := List.mem_map.mp ha
    exact hsoon
  · intro seen asked a ha g hg hid
    rw [(honestValues_searchPeers net _ r key seen asked a ha).2 g hg hid]
    unfold HashReply valueReply
    simp only
    cases serves g.id with
    | some v => exact Or.inl ⟨v, rfl, rfl⟩
    | none => exact Or.inr ⟨rfl, net.table g, met_table hk hg r, rfl⟩

end AuthKademlia.Protocol
