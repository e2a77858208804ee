import AuthKademlia.Crawling.Rounds

/-! # The node lookup

`find_lookup_nodes` asks nodes until every node of the shortlist has been asked.
It ends against any peers, because no id is asked twice
(`findLookupNodes_returns`), and its result holds only nodes that answered. As long
as everybody answers, it is the shortlist of all the usable nodes it learned of. -/
namespace AuthKademlia.Crawling.NodeLookup
open AuthKademlia.Lib.Shortlist AuthKademlia.Utils

/-- The body of the loop over the answers of a round. -/
def mergeAnswer (acc : SpiderCrawl × List NodeId) (a : Answer) : SpiderCrawl × List NodeId :=
  let (s, toRemove) := acc
  if !a.raw.happened then (s, toRemove ++ [a.peer])
  else (s.addReported a.failing a.raw.getNodeList, toRemove)

/-- `NodeSpiderCrawl::find_lookup_nodes` from the state `s` after the rounds
`rs`; at most `fuel` further rounds. The result comes with all rounds. -/
def findLookupNodes (peers : Peers) :
    Nat → SpiderCrawl → List Round → Option (LookupNodes × List Round)
  | 0, _, _ => none
  | fuel + 1, s, rs =>
    let (asked, s) := s.nextPeers none
    let answers := peers.answers rs asked
    let (s, toRemove) := answers.foldl mergeAnswer (s, [])
    let s := s.removeFailed toRemove
    let rs := rs ++ [⟨asked, answers⟩]
    if s.nearest.haveContactedAll then some (s.lookupNodes, rs)
    else findLookupNodes peers fuel s rs

/-- The answers a node lookup merges. -/
def responded (answers : List Answer) : List Answer := answers.filter fun a => a.raw.happened

def answeredIds (rs : List Round) : List NodeId :=
  rs.flatMap fun r => (responded r.answers).map Answer.peer

def afterRound (peers : Peers) (s : SpiderCrawl) (rs : List Round) : SpiderCrawl :=
  let answers := peers.answers rs (s.nextPeers none).1
  ((s.nextPeers none).2.mergeAll (responded answers)).removeFailed (silent answers)

def thisRound (peers : Peers) (s : SpiderCrawl) (rs : List Round) : Round :=
  ⟨(s.nextPeers none).1, peers.answers rs (s.nextPeers none).1⟩

variable {peers : Peers} {s : SpiderCrawl} {rs out : List Round} {L : LookupNodes}
variable {target : Node} {seeds : List Node} {k alpha fuel : Nat}

theorem foldl_mergeAnswer (answers : List Answer) (s : SpiderCrawl) (toRemove : List NodeId) :
    answers.foldl mergeAnswer (s, toRemove) =
      (s.mergeAll (responded answers), toRemove ++ silent answers) := by
  induction answers generalizing s toRemove with
  | nil => simp [responded, silent, SpiderCrawl.mergeAll]
  | cons a as ih =>
    rw [List.foldl_cons, mergeAnswer]
    cases h : a.raw.happened <;> simp [h, ih, responded, silent]

theorem findLookupNodes_succ (peers : Peers) (fuel : Nat) (s : SpiderCrawl) (rs : List Round) :
    findLookupNodes peers (fuel + 1) s rs =
      if (afterRound peers s rs).nearest.haveContactedAll then
        some ((afterRound peers s rs).lookupNodes, rs ++ [thisRound peers s rs])
      else findLookupNodes peers fuel (afterRound peers s rs) (rs ++ [thisRound peers s rs]) := by
  simp only [findLookupNodes, foldl_mergeAnswer, List.nil_append]
  rfl

theorem tracks_afterRound (peers : Peers) (ht : SpiderCrawl.Tracks target k s rs) :
    SpiderCrawl.Tracks target k (afterRound peers s rs) (rs ++ [thisRound peers s rs]) :=
  ht.round none _

/-- **Run rule.** What holds of the state and the rounds initially, and is kept
by every round, holds when the lookup ends. -/
theorem findLookupNodes_induct {I : SpiderCrawl → List Round → Prop} (h₀ : I s rs)
    (hstep : ∀ s rs, I s rs → I (afterRound peers s rs) (rs ++ [thisRound peers s rs]))
    (h : findLookupNodes peers fuel s rs = some (L, out)) :
    ∃ s', I s' out ∧ s'.nearest.haveContactedAll = true ∧ L = s'.lookupNodes := by
  induction fuel generalizing s rs with
  | zero => cases h
  | succ fuel ih =>
    rw [findLookupNodes_succ] at h
    split at h
    · rename_i hall
      cases h
      exact ⟨_, hstep s rs h₀, hall, rfl⟩
    · exact ih (hstep s rs h₀) h

/-! ## Every lookup ends -/

theorem findLookupNodes_mono (h : findLookupNodes peers fuel s rs = some (L, out)) {fuel' : Nat}
    (hle : fuel ≤ fuel') : findLookupNodes peers fuel' s rs = some (L, out) := by
  induction fuel generalizing s rs fuel' with
  | zero => cases h
  | succ fuel ih =>
    obtain ⟨fuel', rfl⟩ : ∃ m, fuel' = m + 1 := ⟨fuel' - 1, by omega⟩
    rw [findLookupNodes_succ] at h ⊢
    split at h
    · rw [if_pos ‹_›]; exact h
    · rw [if_neg ‹_›]; exact ih h (by omega)

/-- A round uses up budget, unless everybody was asked after it. -/
theorem budget_afterRound (peers : Peers) (ht : SpiderCrawl.Tracks target k s rs)
    (hall : (afterRound peers s rs).nearest.haveContactedAll = false) :
    (afterRound peers s rs).budget (rs ++ [thisRound peers s rs]) < s.budget rs :=
  ht.budget_before (by simp) (peers.perm rs _) (fun _ ha => List.mem_of_mem_filter ha) hall

/-- **Every lookup ends**, whatever the peers answer. -/
theorem findLookupNodes_returns (peers : Peers) (ht : SpiderCrawl.Tracks target k s rs) :
    ∃ fuel L out, findLookupNodes peers fuel s rs = some (L, out) := by
  induction hb : s.budget rs using Nat.strong_induction_on generalizing s rs with
  | _ b ih =>
    cases hall : (afterRound peers s rs).nearest.haveContactedAll with
    | true => exact ⟨1, _, _, by rw [findLookupNodes_succ, if_pos hall]⟩
    | false =>
      obtain ⟨fuel, L, out, h⟩ :=
        ih _ (hb ▸ budget_afterRound peers ht hall) (tracks_afterRound peers ht) rfl
      exact ⟨fuel + 1, L, out, by rw [findLookupNodes_succ, if_neg (by simp [hall])]; exact h⟩

theorem findLookupNodes_rounds (ht : SpiderCrawl.Tracks target k s rs)
    (hp : SpiderCrawl.Pace s rs) (hall : rs ≠ [] → s.nearest.haveContactedAll = false)
    (h : findLookupNodes peers fuel s rs = some (L, out)) :
    (askedIds out).Nodup ∧ Paced out := by
  induction fuel generalizing s rs with
  | zero => cases h
  | succ fuel ih =>
    have ht' := tracks_afterRound peers ht
    have hp' : SpiderCrawl.Pace (afterRound peers s rs) (rs ++ [thisRound peers s rs]) :=
      hp.round ht.wf (by simp) (peers.perm rs _) (fun _ ha => List.mem_of_mem_filter ha) hall
    rw [findLookupNodes_succ] at h
    split at h
    · cases h
      exact ⟨ht'.once, hp'.paced⟩
    · rename_i hleft
      exact ih ht' hp' (fun _ => Bool.eq_false_iff.mpr hleft) h

/-! ## The result holds only nodes that answered -/

theorem answeredIds_snoc (rs : List Round) (r : Round) :
    answeredIds (rs ++ [r]) = answeredIds rs ++ (responded r.answers).map Answer.peer := by
  simp [answeredIds]

/-- Of an asked id, the lookup knows whether it answered. -/
def Settled (rs : List Round) : Prop :=
  ∀ x, x ∈ askedIds rs ↔ x ∈ answeredIds rs ∨ x ∈ failedIds rs

theorem Settled.snoc (h : Settled rs) {r : Round}
    (hp : (r.answers.map Answer.peer).Perm (r.asked.map Node.id)) : Settled (rs ++ [r]) := by
  intro x
  have hx : x ∈ r.asked.map Node.id ↔
      x ∈ (responded r.answers).map Answer.peer ∨ x ∈ silent r.answers := by
    rw [← hp.mem_iff]
    simp only [responded, silent, List.mem_map, List.mem_filter, Bool.not_eq_true']
    constructor
    · rintro ⟨a, ha, rfl⟩
      cases hh : a.raw.happened with
      | true => exact Or.inl ⟨a, ⟨ha, hh⟩, rfl⟩
      | false => exact Or.inr ⟨a, ⟨ha, hh⟩, rfl⟩
    · rintro (⟨a, ⟨ha, -⟩, rfl⟩ | ⟨a, ⟨ha, -⟩, rfl⟩) <;> exact ⟨a, ha, rfl⟩
  rw [askedIds_snoc, answeredIds_snoc, failedIds_snoc, List.mem_append, List.mem_append,
    List.mem_append, h x, hx]
  tauto

theorem mem_getIds_of_mem_lookupNodes {n : Node} (hn : n ∈ s.lookupNodes.nodes) :
    n.id ∈ s.nearest.getIds := List.mem_map_of_mem hn

/-- **A lookup ends, asks no id twice, and returns only nodes that answered**,
at most `k`, in order of distance. -/
theorem lookup_returns_only_responders (peers : Peers) (target : Node) (seeds : List Node)
    (k alpha : Nat) : ∃ bound L rs,
      (∀ fuel ≥ bound, findLookupNodes peers fuel (.new target seeds k alpha) [] = some (L, rs)) ∧
      (askedIds rs).Nodup ∧
      (∀ n ∈ L.nodes, n.id ∈ askedIds rs ∧ n.id ∈ answeredIds rs) ∧
      (∀ n ∈ L.nodes, n.id ∉ failedIds rs) ∧
      (L.nodes.map Node.id).Nodup ∧
      L.nodes.Pairwise (fun a b => distTo target.longId a.id < distTo target.longId b.id) ∧
      L.nodes.length ≤ k := by
  have h₀ := SpiderCrawl.tracks_new target seeds k alpha
  obtain ⟨bound, L, rs, hret⟩ := findLookupNodes_returns peers h₀
  refine ⟨bound, L, rs, fun fuel hf => findLookupNodes_mono hret hf, ?_⟩
  obtain ⟨s, ⟨ht, hset⟩, hall, rfl⟩ := findLookupNodes_induct
    (I := fun s rs => SpiderCrawl.Tracks target k s rs ∧ Settled rs)
    ⟨h₀, by simp [Settled, askedIds, answeredIds, failedIds]⟩
    (fun s rs h => ⟨tracks_afterRound peers h.1, h.2.snoc (peers.perm rs _)⟩) hret
  have hasked : ∀ n ∈ s.lookupNodes.nodes, n.id ∈ askedIds rs := fun n hn =>
    (ht.contacted _).mp ((s.nearest.haveContactedAll_iff.mp hall) _
      (mem_getIds_of_mem_lookupNodes hn))
  have hlive : ∀ n ∈ s.lookupNodes.nodes, n.id ∉ failedIds rs := fun n hn hf =>
    ht.live _ (mem_getIds_of_mem_lookupNodes hn) ((ht.failed _).mpr hf)
  refine ⟨ht.once, fun n hn => ⟨hasked n hn, ?_⟩, hlive, ht.wf.getIds_nodup, ?_, ?_⟩
  · exact ((hset _).mp (hasked n hn)).resolve_right (hlive n hn)
  · have hinc := ht.wf.getIds_increasing
    rwa [ht.node, NodeHeap.getIds, List.pairwise_map] at hinc
  · have hle := ht.wf.getIds_length_le
    rwa [ht.maxsize, NodeHeap.getIds, List.length_map] at hle

/-! ## What a lookup keeps of the nodes it learned of -/

def reported (a : Answer) : List NodeId := a.raw.getNodeList.map Node.id

def reportedIds (rs : List Round) : List NodeId :=
  rs.flatMap fun r => (responded r.answers).flatMap reported

/-- Ids reported so far and left out as known to be failing. -/
def leftOutIds (rs : List Round) : List NodeId :=
  rs.flatMap fun r => (responded r.answers).flatMap fun a => (reported a).filter (· ∈ a.failing)

/-- Ids reported so far and taken into account. -/
def usableIds (rs : List Round) : List NodeId :=
  rs.flatMap fun r => (responded r.answers).flatMap SpiderCrawl.usable

/-- The candidates after the rounds `rs`: seeds, and reported ids not left out. -/
def candidates (seeds : List Node) (rs : List Round) : Finset NodeId :=
  (seeds.map Node.id ++ usableIds rs).toFinset

theorem mem_usableIds_snoc {r : Round} {x : NodeId} : x ∈ usableIds (rs ++ [r]) ↔
    x ∈ usableIds rs ∨ ∃ a ∈ responded r.answers, x ∈ SpiderCrawl.usable a := by
  simp [usableIds]

theorem mem_candidates_snoc (seeds : List Node) (rs : List Round) (r : Round) (x : NodeId) :
    x ∈ candidates seeds (rs ++ [r]) ↔
      x ∈ candidates seeds rs ∨ ∃ a ∈ responded r.answers, x ∈ SpiderCrawl.usable a := by
  simp only [candidates, List.mem_toFinset, List.mem_append, mem_usableIds_snoc, or_assoc]

theorem mem_usableIds {x : NodeId} (hx : x ∈ reportedIds rs) (hl : x ∉ leftOutIds rs) :
    x ∈ usableIds rs := by
  obtain ⟨r, hr, hx⟩ := List.mem_flatMap.mp hx
  obtain ⟨a, ha, hx⟩ := List.mem_flatMap.mp hx
  refine List.mem_flatMap.mpr ⟨r, hr, List.mem_flatMap.mpr ⟨a, ha, ?_⟩⟩
  refine List.mem_filter.mpr ⟨hx, decide_eq_true fun hf => hl ?_⟩
  exact List.mem_flatMap.mpr ⟨r, hr, List.mem_flatMap.mpr ⟨a, ha,
    List.mem_filter.mpr ⟨hx, decide_eq_true hf⟩⟩⟩

theorem reported_of_usable {x : NodeId} (hx : x ∈ usableIds rs) : x ∈ reportedIds rs := by
  obtain ⟨r, hr, hx⟩ := List.mem_flatMap.mp hx
  obtain ⟨a, ha, hx⟩ := List.mem_flatMap.mp hx
  exact List.mem_flatMap.mpr ⟨r, hr, List.mem_flatMap.mpr ⟨a, ha, List.mem_of_mem_filter hx⟩⟩

/-- As long as everybody answers, the shortlist is that of the candidates. -/
structure Keeps (target : Node) (seeds : List Node) (k : Nat) (s : SpiderCrawl)
    (rs : List Round) : Prop where
  tracks : SpiderCrawl.Tracks target k s rs
  nearest : failedIds rs = [] →
    Nearest k (distTo target.longId) {x | x ∈ candidates seeds rs} s.nearest.getIds

theorem keeps_new (target : Node) (seeds : List Node) (k alpha : Nat) :
    Keeps target seeds k (.new target seeds k alpha) [] := by
  refine ⟨SpiderCrawl.tracks_new target seeds k alpha, fun _ => ?_⟩
  have hw := NodeHeap.wf_new target k
  have h := NodeHeap.push_nearest hw seeds
  rw [← (hw.push seeds).getIds_eq] at h
  refine h.congr fun x => ?_
  simp [candidates, usableIds, NodeHeap.getIds, NodeHeap.toVec, NodeHeap.new]

theorem Keeps.round (peers : Peers) (h : Keeps target seeds k s rs) :
    Keeps target seeds k (afterRound peers s rs) (rs ++ [thisRound peers s rs]) := by
  refine ⟨tracks_afterRound peers h.tracks, fun hnone => ?_⟩
  rw [failedIds_snoc, List.append_eq_nil_iff] at hnone
  obtain ⟨hbefore, hsilent⟩ := hnone
  have hsilent : silent (peers.answers rs (s.nextPeers none).1) = [] := hsilent
  have ht := h.tracks
  have hw : (s.nextPeers none).2.nearest.Wf := SpiderCrawl.nextPeers_wf ht.wf
  have hmerged := SpiderCrawl.mergeAll_nearest hw
    (responded (peers.answers rs (s.nextPeers none).1)) (S := {x | x ∈ candidates seeds rs})
    (by simp only [SpiderCrawl.nextPeers_maxsize, SpiderCrawl.nextPeers_node,
          SpiderCrawl.nextPeers_getIds, ht.maxsize, ht.node]
        exact h.nearest hbefore)
  simp only [SpiderCrawl.nextPeers_maxsize, SpiderCrawl.nextPeers_node, ht.maxsize, ht.node,
    SpiderCrawl.nextPeers_failed, ht.failed, hbefore, List.not_mem_nil, not_false_eq_true,
    and_true] at hmerged
  rw [afterRound, SpiderCrawl.removeFailed, hsilent,
    ((SpiderCrawl.mergeAll_same _ _).wf hw).getIds_remove, List.filter_eq_self.mpr (by simp)]
  refine hmerged.congr fun x => ?_
  simp only [Set.mem_union, Set.mem_ofPred_eq, mem_candidates_snoc]
  rfl

/-! ## Lookups in which everybody answers -/

/-- The lookup stays among the nodes `N`, and everybody it asked answered as `Reply` says. -/
structure Among (N : List Node) (Reply : Answer → Prop) (target : Node) (seeds : List Node)
    (k : Nat) (s : SpiderCrawl) (rs : List Round) : Prop where
  keeps : Keeps target seeds k s rs
  nodes : ∀ n ∈ s.nearest.toVec, n ∈ N
  candidates : ∀ x ∈ candidates seeds rs, x ∈ N.map Node.id
  answered : ∀ x ∈ askedIds rs, ∃ rd ∈ rs, ∃ a ∈ responded rd.answers, a.peer = x ∧ Reply a
  noFailure : ∀ rd ∈ rs, silent rd.answers = []

variable {N : List Node} {Reply : Answer → Prop}

theorem among_new (Reply : Answer → Prop) (hseeds : ∀ n ∈ seeds, n ∈ N) (target : Node)
    (k alpha : Nat) : Among N Reply target seeds k (.new target seeds k alpha) [] := by
  refine ⟨keeps_new _ _ k alpha, fun n hn => ?_, fun x hx => ?_, by simp [askedIds], by simp⟩
  · rcases NodeHeap.mem_push (NodeHeap.wf_new _ k) hn with h | h
    · simp [NodeHeap.new, NodeHeap.toVec] at h
    · exact hseeds n h
  · simp only [NodeLookup.candidates, usableIds, List.flatMap_nil, List.append_nil,
      List.mem_toFinset] at hx
    obtain ⟨n, hn, rfl⟩ := List.mem_map.mp hx
    exact List.mem_map_of_mem (hseeds n hn)

/-- **One round**, if whoever is in `N` answers with nodes of `N`, of which none is known to
be failing. -/
theorem Among.round (h : Among N Reply target seeds k s rs)
    (hp : ∀ a ∈ peers.answers rs (s.nextPeers none).1, Reply a)
    (hreply : ∀ a, Reply a → ∀ g ∈ N, g.id = a.peer →
      a.raw.happened = true ∧ a.failing = ∅ ∧ ∀ n ∈ a.raw.getNodeList, n ∈ N) :
    Among N Reply target seeds k (afterRound peers s rs) (rs ++ [thisRound peers s rs]) := by
  let answers := peers.answers rs (s.nextPeers none).1
  -- every answer comes from a node of `N`
  have hanswer : ∀ a ∈ answers, a.raw.happened = true ∧ a.failing = ∅ ∧
      ∀ n ∈ a.raw.getNodeList, n ∈ N := by
    intro a ha
    have hmem := (peers.perm rs (s.nextPeers none).1).mem_iff.mp (List.mem_map_of_mem ha)
    obtain ⟨g, hg, hid⟩ := List.mem_map.mp hmem
    exact hreply a (hp a ha) g (h.nodes g (SpiderCrawl.nextPeers_asked_sublist.mem hg)) hid
  have hresp : responded answers = answers := List.filter_eq_self.mpr fun a ha => (hanswer a ha).1
  have hsil : silent answers = [] := by
    rw [silent, List.filter_eq_nil_iff.mpr fun a ha => by simp [(hanswer a ha).1], List.map_nil]
  refine ⟨h.keeps.round peers, fun n hn => ?_, fun x hx => ?_, fun x hx => ?_, fun rd hrd => ?_⟩
  · rcases SpiderCrawl.mem_round h.keeps.tracks.wf hn with h' | ⟨a, ha, h'⟩
    · exact h.nodes n h'
    · exact (hanswer a (hresp ▸ ha)).2.2 n h'
  · rcases (mem_candidates_snoc seeds rs _ x).mp hx with hx | ⟨a, ha, hx⟩
    · exact h.candidates x hx
    · obtain ⟨-, hfailing, hlist⟩ := hanswer a (hresp ▸ ha)
      simp only [SpiderCrawl.usable, hfailing] at hx
      obtain ⟨n, hn, rfl⟩ := List.mem_map.mp (List.mem_of_mem_filter hx)
      exact List.mem_map_of_mem (hlist n hn)
  · rw [askedIds_snoc, List.mem_append] at hx
    rcases hx with hx | hx
    · obtain ⟨rd, hrd, rest⟩ := h.answered x hx
      exact ⟨rd, List.mem_append_left _ hrd, rest⟩
    · have hx := (peers.perm rs (s.nextPeers none).1).mem_iff.mpr hx
      obtain ⟨a, ha, rfl⟩ := List.mem_map.mp hx
      exact ⟨thisRound peers s rs, by simp, a, (show a ∈ responded answers by rwa [hresp]), rfl,
        hp a ha⟩
  · rcases List.mem_append.mp hrd with hrd | hrd
    · exact h.noFailure rd hrd
    · rw [List.mem_singleton.mp hrd]; exact hsil

theorem Among.nearest (h : Among N Reply target seeds k s rs) :
    Nearest k (distTo target.longId) {x | x ∈ NodeLookup.candidates seeds rs}
      s.nearest.getIds :=
  h.keeps.nearest (List.flatMap_eq_nil_iff.mpr h.noFailure)

end AuthKademlia.Crawling.NodeLookup
