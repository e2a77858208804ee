import AuthKademlia.Crawling.NodeLookup
import AuthKademlia.Crawling.ValueSearch

/-! # A value search goes the way of a node lookup

Every node answers, a node that has a copy answers a value search with it, and
otherwise as it answers a node lookup. Until it comes upon a copy, the search
then asks whom the lookup asked: if the lookup found a node with a copy, the
search finds a copy. -/
namespace AuthKademlia.Crawling.ValueSearch
open AuthKademlia.Utils AuthKademlia.Crawling.NodeLookup

/-- What the nodes answer: to a node lookup a list of nodes, to a value search
the copy they have. -/
structure Holders where
  reply : NodeId → RawResponse
  serves : NodeId → Option Bytes
  answered : ∀ id, (reply id).happened = true
  nodes : ∀ id, (reply id).getValue = none

namespace Holders

variable (H : Holders)

def valueReply (id : NodeId) : RawResponse :=
  match H.serves id with
  | some v => ⟨true, .value v⟩
  | none => H.reply id

def answersOf (asked : List Node) : List Answer := asked.map fun n => ⟨n.id, H.reply n.id, ∅⟩

/-- The answers to a value search, as they arrive. -/
def arrivalsOf (asked : List Node) : List Arrival :=
  asked.map fun n => ⟨0, 0, n.id, H.valueReply n.id, ∅⟩

variable {H} {accept : Bytes → Option Bytes}

theorem receive_cases (haccept : ∀ id v, H.serves id = some v → accept v = some v) :
    ∀ (asked : List Node) (m : Merge),
      (∃ n ∈ asked, ∃ v, H.serves n.id = some v ∧
        receive none accept m (H.arrivalsOf asked) = .accepted v) ∨
      (∀ n ∈ asked, H.serves n.id = none) ∧ ∃ m',
        receive none accept m (H.arrivalsOf asked) = .finished m' ∧
        m'.base = m.base.mergeAll (H.answersOf asked) ∧ m'.toRemove = m.toRemove
  | [], m => Or.inr ⟨by simp, m, rfl, rfl, rfl⟩
  | n :: asked, m => by
    cases hn : H.serves n.id with
    | some v =>
      refine Or.inl ⟨n, List.mem_cons_self, v, hn, ?_⟩
      simp [arrivalsOf, receive, valueReply, hn, RawResponse.happened,
        RawResponse.getValue, haccept _ v hn]
    | none =>
      have hreply : H.valueReply n.id = H.reply n.id := by rw [valueReply, hn]
      have hstep : receive none accept m (H.arrivalsOf (n :: asked)) =
          receive none accept { m with
            waiting := m.waiting.filter fun x => x.id ≠ n.id
            base := m.base.addReported ∅ (H.reply n.id).getNodeList } (H.arrivalsOf asked) := by
        simp only [arrivalsOf, List.map_cons, receive, Arrival.late_none, hreply, H.answered,
          H.nodes]
        rfl
      rw [hstep]
      rcases receive_cases haccept asked _ with ⟨n', hn', v, hv, h⟩ | ⟨hall, m', h, hbase, hrem⟩
      · exact Or.inl ⟨n', List.mem_cons_of_mem _ hn', v, hv, h⟩
      · exact Or.inr ⟨List.forall_mem_cons.mpr ⟨hn, hall⟩, m', h, hbase, hrem⟩

theorem afterRound_scripted (s : SpiderCrawl) (rs : List Round) :
    afterRound (.scripted H.reply) s rs =
      ((s.nextPeers none).2.mergeAll (H.answersOf (s.nextPeers none).1)).removeFailed [] := by
  have hresponded : ∀ asked, responded (H.answersOf asked) = H.answersOf asked := by
    intro asked
    refine List.filter_eq_self.mpr fun a ha => ?_
    obtain ⟨n, -, rfl⟩ := List.mem_map.mp ha
    exact H.answered n.id
  have hsilent : ∀ asked, silent (H.answersOf asked) = [] := by
    intro asked
    refine List.map_eq_nil_iff.mpr (List.filter_eq_nil_iff.mpr fun a ha => ?_)
    obtain ⟨n, -, rfl⟩ := List.mem_map.mp ha
    rw [H.answered n.id]
    exact Bool.false_ne_true
  have hanswers : (Peers.scripted H.reply).answers rs (s.nextPeers none).1 =
      H.answersOf (s.nextPeers none).1 := rfl
  rw [afterRound, hanswers, hresponded, hsilent]

theorem afterRound_contacted {s : SpiderCrawl} {rs : List Round} {x : NodeId}
    (h : x ∈ (afterRound (.scripted H.reply) s rs).nearest.contacted) :
    x ∈ s.nearest.contacted ∨ x ∈ (s.nextPeers none).1.map Node.id := by
  rw [afterRound_scripted, SpiderCrawl.removeFailed, NodeHeap.remove_contacted,
    (SpiderCrawl.mergeAll_same _ _).contacted] at h
  exact (SpiderCrawl.mem_nextPeers_contacted x).mp h

/-- **A search comes upon a copy** where a lookup finds a node that has one. -/
theorem search_meets_copy (haccept : ∀ id v, H.serves id = some v → accept v = some v) :
    ∀ {fuel : Nat} {s : SpiderCrawl} {rs out : List Round} {seen : List SearchRound}
      {incomplete : Bool} {L : LookupNodes}, s.nearest.haveContactedAll = false →
      (∀ x ∈ s.nearest.contacted, H.serves x = none) →
      findLookupNodes (.scripted H.reply) fuel s rs = some (L, out) →
      (∃ n ∈ L.nodes, H.serves n.id ≠ none) →
      ∃ id v, H.serves id = some v ∧
        (search (.prompt H.valueReply) none accept fuel s incomplete seen).map SearchEnd.outcome =
          some (.found v)
  | 0, _, _, _, _, _, _, _, _, h, _ => by cases h
  | fuel + 1, s, rs, out, seen, incomplete, L, hopen, hnone, h, ⟨n, hn, hserves⟩ => by
    have harrivals : (SearchPeers.prompt H.valueReply).arrivals seen (s.nextPeers none).1 =
        H.arrivalsOf (s.nextPeers none).1 := rfl
    rw [findLookupNodes_succ] at h
    simp only [search, hopen, Bool.false_eq_true, if_false, reached, Option.any_none, harrivals]
    rcases receive_cases haccept (s.nextPeers none).1 ⟨(s.nextPeers none).2, (s.nextPeers none).1,
      [], incomplete⟩ with ⟨n', -, v, hv, hreceive⟩ | ⟨hall, m', hreceive, hbase, hrem⟩
    · refine ⟨n'.id, v, hv, ?_⟩
      rw [hreceive]
      rfl
    · have hstate : m'.base.removeFailed m'.toRemove = afterRound (.scripted H.reply) s rs := by
        rw [afterRound_scripted, hbase, hrem]
      have hnone' : ∀ x ∈ (afterRound (.scripted H.reply) s rs).nearest.contacted,
          H.serves x = none := by
        intro x hx
        rcases afterRound_contacted hx with hx | hx
        · exact hnone x hx
        · obtain ⟨m, hm, rfl⟩ := List.mem_map.mp hx
          exact hall m hm
      simp only [hreceive, hstate]
      split at h
      · -- whom the lookup returns, it has asked
        rename_i hdone
        obtain ⟨rfl, -⟩ := Prod.mk.inj (Option.some.inj h)
        exact absurd (hnone' n.id ((NodeHeap.haveContactedAll_iff _).mp hdone n.id
          (mem_getIds_of_mem_lookupNodes hn))) hserves
      · rename_i hmore
        exact search_meets_copy haccept (Bool.eq_false_iff.mpr hmore) hnone' h ⟨n, hn, hserves⟩

theorem findLookupNodes_idle {s : SpiderCrawl} {rs out : List Round} {fuel : Nat}
    {L : LookupNodes} (hw : s.nearest.Wf) (hdone : s.nearest.haveContactedAll = true)
    (h : findLookupNodes (.scripted H.reply) fuel s rs = some (L, out)) {n : Node}
    (hn : n ∈ L.nodes) : n.id ∈ s.nearest.contacted := by
  cases fuel with
  | zero => cases h
  | succ fuel =>
    have hask : (s.nextPeers none).1 = [] := by
      have hnone : s.nearest.getUncontacted = [] := by
        simpa [NodeHeap.haveContactedAll] using hdone
      simp [SpiderCrawl.nextPeers, hnone]
    obtain ⟨hids, hcon, -⟩ := SpiderCrawl.round_idle hw hask
    have hround : afterRound (.scripted H.reply) s rs =
        ((s.nextPeers none).2.mergeAll []).removeFailed [] := by
      rw [afterRound_scripted, hask]
      rfl
    have hall : (afterRound (.scripted H.reply) s rs).nearest.haveContactedAll = true := by
      rw [NodeHeap.haveContactedAll_iff, hround, hids, hcon]
      exact (NodeHeap.haveContactedAll_iff _).mp hdone
    rw [findLookupNodes_succ, if_pos hall] at h
    obtain ⟨rfl, -⟩ := Prod.mk.inj (Option.some.inj h)
    have hmem := mem_getIds_of_mem_lookupNodes hn
    rw [hround, hids] at hmem
    exact (NodeHeap.haveContactedAll_iff _).mp hdone n.id hmem

theorem search_finds_copy (haccept : ∀ id v, H.serves id = some v → accept v = some v)
    {target : Node} {seeds : List Node} {k alpha fuel : Nat} {L : LookupNodes} {out : List Round}
    (h : findLookupNodes (.scripted H.reply) fuel (.new target seeds k alpha) [] = some (L, out))
    (hcopy : ∃ n ∈ L.nodes, H.serves n.id ≠ none) :
    ∃ id v, H.serves id = some v ∧
      (search (.prompt H.valueReply) none accept fuel (.new target seeds k alpha) false []).map
        SearchEnd.outcome = some (.found v) := by
  have ht := SpiderCrawl.tracks_new target seeds k alpha
  have hfresh : ∀ x, x ∉ (SpiderCrawl.new target seeds k alpha).nearest.contacted := by
    intro x hx
    exact List.not_mem_nil ((ht.contacted x).mp hx)
  refine search_meets_copy haccept ?_ (fun x hx => absurd hx (hfresh x)) h hcopy
  rw [Bool.eq_false_iff]
  intro hdone
  obtain ⟨n, hn, -⟩ := hcopy
  exact hfresh n.id (findLookupNodes_idle ht.wf hdone h hn)

end Holders

end AuthKademlia.Crawling.ValueSearch
