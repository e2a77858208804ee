import AuthKademlia.Crawling.NodeLookup
import AuthKademlia.Lib.Splits

/-! # A node lookup, round by round

`replay` is the state of a lookup after its rounds. A round merges what the answers
report, which may cut nodes from the full shortlist, and then drops the nodes that did
not answer. A cut is never undone: when a node is dropped later, a usable node that was
cut before is missing, unless it is reported again or others that are closer take all
the places (`lookup_keeps_usable`). -/
namespace AuthKademlia.Crawling.NodeLookup
open AuthKademlia.Lib.Shortlist AuthKademlia.Lib.Splits AuthKademlia.Utils

/-- The lookup when the answers of the round have been merged. -/
def merged (s : SpiderCrawl) (r : Round) : SpiderCrawl :=
  (s.nextPeers none).2.mergeAll (responded r.answers)

def replay (s : SpiderCrawl) (rs : List Round) : SpiderCrawl :=
  rs.foldl (fun s r => (merged s r).removeFailed (silent r.answers)) s

/-- The ids that leave the shortlist at the end of the round, because they did not answer. -/
def dropped (s : SpiderCrawl) (r : Round) : List NodeId :=
  (merged s r).nearest.getIds.filter fun x => x ∈ silent r.answers

/-- The rounds of a lookup from `s₀`. -/
structure Took (target : Node) (k : Nat) (s₀ : SpiderCrawl) (rs : List Round) : Prop where
  tracks : ∀ pre post, rs = pre ++ post → SpiderCrawl.Tracks target k (replay s₀ pre) pre
  asked : ∀ pre r post, rs = pre ++ r :: post → r.asked = ((replay s₀ pre).nextPeers none).1
  heard : ∀ r ∈ rs, (r.answers.map Answer.peer).Perm (r.asked.map Node.id)

variable {peers : Peers} {target : Node} {seeds : List Node} {k alpha fuel : Nat}
  {s s₀ : SpiderCrawl} {rs pre post : List Round} {r : Round} {L : LookupNodes} {x : NodeId}

theorem replay_append (s : SpiderCrawl) (pre post : List Round) :
    replay s (pre ++ post) = replay (replay s pre) post := List.foldl_append ..

theorem replay_snoc (s : SpiderCrawl) (rs : List Round) (r : Round) :
    replay s (rs ++ [r]) = (merged (replay s rs) r).removeFailed (silent r.answers) := by
  rw [replay_append]
  rfl

/-! ## The rounds of a lookup -/

theorem took_new (target : Node) (seeds : List Node) (k alpha : Nat) :
    Took target k (.new target seeds k alpha) [] where
  tracks := by
    intro pre post h
    obtain ⟨rfl, rfl⟩ := List.append_eq_nil_iff.mp h.symm
    exact SpiderCrawl.tracks_new target seeds k alpha
  asked := fun pre r post h => by simp at h
  heard := by simp

theorem Took.init (h : Took target k s₀ (pre ++ post)) : Took target k s₀ pre where
  tracks := fun pre' post' heq => h.tracks pre' (post' ++ post) (by simp [heq])
  asked := fun pre' r post' heq => h.asked pre' r (post' ++ post) (by simp [heq])
  heard := fun r hr => h.heard r (List.mem_append_left _ hr)

theorem Took.state (h : Took target k s₀ rs) : SpiderCrawl.Tracks target k (replay s₀ rs) rs :=
  h.tracks rs [] (by simp)

theorem Took.increasing (h : Took target k s₀ rs) : (replay s₀ rs).nearest.getIds.Pairwise
    fun x y => distTo target.longId x < distTo target.longId y := by
  have hinc := h.state.wf.getIds_increasing
  rwa [h.state.node] at hinc

theorem Took.length_le (h : Took target k s₀ rs) :
    (replay s₀ rs).nearest.getIds.length ≤ k := by
  have hle := h.state.wf.getIds_length_le
  rwa [h.state.maxsize] at hle

theorem Took.snoc (h : Took target k s₀ rs) (hasked : r.asked = ((replay s₀ rs).nextPeers none).1)
    (hheard : (r.answers.map Answer.peer).Perm (r.asked.map Node.id)) :
    Took target k s₀ (rs ++ [r]) where
  tracks := by
    intro pre post heq
    rcases List.eq_nil_or_concat post with rfl | ⟨post, y, rfl⟩
    · rw [List.append_nil] at heq
      subst heq
      rw [replay_snoc]
      obtain ⟨asked, answers⟩ := r
      obtain rfl : asked = _ := hasked
      exact h.state.round none _
    · rw [List.concat_eq_append, ← List.append_assoc] at heq
      exact h.tracks pre post (List.append_inj' heq rfl).1
  asked := by
    intro pre r' post heq
    rcases snoc_split heq with ⟨rfl, rfl, -⟩ | ⟨rest, -, hrs⟩
    · exact hasked
    · exact h.asked pre r' rest hrs
  heard := by
    intro r' hr
    rcases List.mem_append.mp hr with hr | hr
    · exact h.heard r' hr
    · rw [List.mem_singleton.mp hr]
      exact hheard

/-- **A lookup takes such rounds**, and returns the shortlist after them. -/
theorem findLookupNodes_took
    (h : findLookupNodes peers fuel (.new target seeds k alpha) [] = some (L, rs)) :
    Took target k (.new target seeds k alpha) rs ∧
      (replay (.new target seeds k alpha) rs).nearest.haveContactedAll = true ∧
      L = (replay (.new target seeds k alpha) rs).lookupNodes := by
  obtain ⟨s, ⟨htook, rfl⟩, hall, hL⟩ := findLookupNodes_induct
    (I := fun s rs => Took target k (.new target seeds k alpha) rs ∧
      s = replay (.new target seeds k alpha) rs)
    ⟨took_new target seeds k alpha, rfl⟩
    (fun s rs ⟨htook, hs⟩ => ⟨htook.snoc (by rw [← hs]; rfl) (peers.perm rs _), by
      rw [replay_snoc, ← hs]
      rfl⟩) h
  exact ⟨htook, hall, hL⟩

/-! ## What a round leaves in the shortlist -/

theorem merged_wf (hw : s.nearest.Wf) : (merged s r).nearest.Wf :=
  (SpiderCrawl.mergeAll_same _ _).wf (SpiderCrawl.nextPeers_wf hw)

theorem covered_merged (h : Took target k s₀ rs)
    (hx : Covered k (distTo target.longId) (replay s₀ rs).nearest.getIds x ∨
      (∃ a ∈ responded r.answers, x ∈ SpiderCrawl.usable a) ∧ x ∉ failedIds rs) :
    Covered k (distTo target.longId) (merged (replay s₀ rs) r).nearest.getIds x := by
  have ht := h.state
  have hw : ((replay s₀ rs).nextPeers none).2.nearest.Wf := SpiderCrawl.nextPeers_wf ht.wf
  have hnew := SpiderCrawl.mergeAll_nearest hw (responded r.answers)
    (S := {y | Covered k (distTo target.longId) (replay s₀ rs).nearest.getIds y})
    (by simpa only [SpiderCrawl.nextPeers_maxsize, SpiderCrawl.nextPeers_node,
      SpiderCrawl.nextPeers_getIds, ht.maxsize, ht.node] using
        nearest_covered h.increasing h.length_le)
  simp only [SpiderCrawl.nextPeers_maxsize, SpiderCrawl.nextPeers_node, ht.maxsize, ht.node,
    SpiderCrawl.nextPeers_failed, ht.failed] at hnew
  exact hnew.covered hx

theorem getIds_replay_snoc (h : Took target k s₀ rs) :
    (replay s₀ (rs ++ [r])).nearest.getIds =
      (merged (replay s₀ rs) r).nearest.getIds.filter fun x => !(silent r.answers).contains x := by
  rw [replay_snoc]
  exact (merged_wf h.state.wf).getIds_remove _

theorem mem_replay_snoc (h : Took target k s₀ rs) : x ∈ (replay s₀ (rs ++ [r])).nearest.getIds ↔
    x ∈ (merged (replay s₀ rs) r).nearest.getIds ∧ x ∉ silent r.answers := by
  rw [getIds_replay_snoc h, List.mem_filter]
  simp

theorem getIds_replay_of_dropped (h : Took target k s₀ rs)
    (hdrop : dropped (replay s₀ rs) r = []) :
    (replay s₀ (rs ++ [r])).nearest.getIds = (merged (replay s₀ rs) r).nearest.getIds := by
  rw [getIds_replay_snoc h, List.filter_eq_self]
  intro y hy
  have hnot := List.filter_eq_nil_iff.mp hdrop y hy
  simpa using hnot

theorem Took.mem_ids (h : Took target k s₀ (pre ++ post))
    (hx : x ∈ (replay s₀ (pre ++ post)).nearest.getIds) :
    x ∈ (replay s₀ pre).nearest.getIds ∨ x ∈ usableIds post := by
  induction post using List.reverseRecOn with
  | nil => exact Or.inl (by rwa [List.append_nil] at hx)
  | append_singleton post r ih =>
    rw [← List.append_assoc] at h hx
    have hw : ((replay s₀ (pre ++ post)).nextPeers none).2.nearest.Wf :=
      SpiderCrawl.nextPeers_wf h.init.state.wf
    have hmerged := ((mem_replay_snoc h.init).mp hx).1
    rw [mem_usableIds_snoc]
    rcases (SpiderCrawl.mergeAll_nearest hw (responded r.answers) hw.nearest_getIds).subset x
      hmerged with hold | ⟨hnew, -⟩
    · exact (ih h.init (SpiderCrawl.nextPeers_getIds ▸ hold)).imp_right Or.inl
    · exact Or.inr (Or.inr hnew)

/-- **While nobody is dropped**, what was covered and what is reported stays covered. -/
theorem Took.covered (h : Took target k s₀ (pre ++ post))
    (hdrop : ∀ mid r rest, post = mid ++ r :: rest → dropped (replay s₀ (pre ++ mid)) r = [])
    (hlive : x ∉ failedIds (pre ++ post))
    (hx : Covered k (distTo target.longId) (replay s₀ pre).nearest.getIds x ∨ x ∈ usableIds post) :
    Covered k (distTo target.longId) (replay s₀ (pre ++ post)).nearest.getIds x := by
  induction post using List.reverseRecOn with
  | nil =>
    rw [List.append_nil]
    exact hx.resolve_right (by simp [usableIds])
  | append_singleton post r ih =>
    rw [← List.append_assoc] at h hlive ⊢
    rw [failedIds_snoc, List.mem_append, not_or] at hlive
    rw [getIds_replay_of_dropped h.init (hdrop post r [] rfl)]
    refine covered_merged h.init ?_
    rw [mem_usableIds_snoc, ← or_assoc] at hx
    exact hx.imp (ih h.init (fun mid r' rest heq => hdrop mid r' (rest ++ [r]) (by simp [heq]))
      hlive.1) fun hnew => ⟨hnew, hlive.1⟩

theorem Took.not_answered_of_failed (h : Took target k s₀ rs) (hfailed : x ∈ failedIds rs) :
    x ∉ answeredIds rs := by
  intro hanswered
  have hpeers : ((rs.flatMap Round.answers).map Answer.peer).Nodup := by
    rw [List.map_flatMap]
    exact (List.Perm.flatMap_left rs h.heard).nodup_iff.mpr h.state.once
  obtain ⟨r, hr, hx⟩ := List.mem_flatMap.mp hfailed
  obtain ⟨a, ha, rfl⟩ := List.mem_map.mp hx
  obtain ⟨r', hr', hx'⟩ := List.mem_flatMap.mp hanswered
  obtain ⟨a', ha', hpeer⟩ := List.mem_map.mp hx'
  obtain ⟨ha, hsilent⟩ := List.mem_filter.mp ha
  obtain ⟨ha', hhappened⟩ := List.mem_filter.mp ha'
  obtain rfl := List.inj_on_of_nodup_map hpeers (List.mem_flatMap.mpr ⟨r', hr', ha'⟩)
    (List.mem_flatMap.mpr ⟨r, hr, ha⟩) hpeer
  simp [hhappened] at hsilent

theorem Took.settled (h : Took target k s₀ rs) : Settled rs := by
  induction rs using List.reverseRecOn with
  | nil => simp [Settled, askedIds, answeredIds, failedIds]
  | append_singleton rs r ih => exact (ih h.init).snoc (h.heard r (by simp))

theorem Took.asked_listed (h : Took target k s₀ (pre ++ r :: post)) {n : Node}
    (hn : n ∈ r.asked) : n ∈ (replay s₀ pre).nearest.toVec := by
  rw [h.asked pre r post rfl] at hn
  exact SpiderCrawl.nextPeers_asked_sublist.subset hn

theorem Took.asked_source (h : Took target k s₀ rs) (hx : x ∈ askedIds rs) :
    x ∈ s₀.nearest.getIds ∨ x ∈ usableIds rs := by
  obtain ⟨r, hr, hx⟩ := List.mem_flatMap.mp hx
  obtain ⟨n, hn, rfl⟩ := List.mem_map.mp hx
  obtain ⟨pre, post, rfl⟩ := List.append_of_mem hr
  have hlisted : n.id ∈ (replay s₀ ([] ++ pre)).nearest.getIds :=
    List.mem_map_of_mem (h.asked_listed hn)
  have htook : Took target k s₀ ([] ++ pre) := h.init
  refine (htook.mem_ids hlisted).imp_right fun hused => ?_
  rw [usableIds, List.flatMap_append]
  exact List.mem_append_left _ hused

theorem mem_skipped_replay (s₀ : SpiderCrawl) (rs : List Round) (x : NodeId) :
    x ∈ (replay s₀ rs).skipped ↔ x ∈ s₀.skipped ∨ x ∈ leftOutIds rs := by
  induction rs using List.reverseRecOn with
  | nil => simp [replay, leftOutIds]
  | append_singleton rs r ih =>
    have hround : x ∈ (replay s₀ (rs ++ [r])).skipped ↔ x ∈ (replay s₀ rs).skipped ∨
        ∃ a ∈ responded r.answers, x ∈ a.raw.getNodeList.map Node.id ∧ x ∈ a.failing := by
      rw [replay_snoc]
      exact SpiderCrawl.mem_mergeAll_skipped _ _ x
    rw [hround, ih, or_assoc]
    simp only [leftOutIds, reported, List.flatMap_append, List.flatMap_cons, List.flatMap_nil,
      List.append_nil, List.mem_append, List.mem_flatMap, List.mem_filter, decide_eq_true_eq]

/-! ## What a lookup keeps of the nodes it learned of -/

/-- What a lookup can still return after the round `r`: ids that never fail, of the
shortlist or of later reports. -/
def prospects (s₀ : SpiderCrawl) (pre : List Round) (r : Round) (post : List Round) :
    List NodeId :=
  (((replay s₀ (pre ++ [r])).nearest.getIds ++ usableIds post).filter
    fun x => x ∉ failedIds (pre ++ r :: post)).dedup

/-- Whenever a node is dropped, each usable id learned by then is in the shortlist, or is
reported again later, or has `k` closer ids that the lookup can still return. -/
def LossesMadeUp (target : Node) (seeds : List Node) (k alpha : Nat) (rs : List Round) : Prop :=
  ∀ pre r post, rs = pre ++ r :: post →
    dropped (replay (.new target seeds k alpha) pre) r ≠ [] →
    ∀ x, x ∈ seeds.map Node.id ∨ x ∈ reportedIds (pre ++ [r]) →
      x ∉ failedIds rs → x ∉ leftOutIds rs →
      x ∈ (merged (replay (.new target seeds k alpha) pre) r).nearest.getIds ∨
      x ∈ reportedIds post ∨
      k ≤ (prospects (.new target seeds k alpha) pre r post).countP
        fun y => distTo target.longId y < distTo target.longId x

theorem covered_new (target : Node) (k alpha : Nat) (hx : x ∈ seeds.map Node.id) :
    Covered k (distTo target.longId)
      (SpiderCrawl.new target seeds k alpha).nearest.getIds x := by
  refine ((keeps_new target seeds k alpha).nearest rfl).covered ?_
  exact List.mem_toFinset.mpr (List.mem_append_left _ hx)

theorem leftOutIds_append (pre post : List Round) :
    leftOutIds (pre ++ post) = leftOutIds pre ++ leftOutIds post := List.flatMap_append ..

theorem reportedIds_append (pre post : List Round) :
    reportedIds (pre ++ post) = reportedIds pre ++ reportedIds post := List.flatMap_append ..

/-- From the round on in which the last node is dropped, all that can still be returned is
covered. -/
theorem Took.covered_after (h : Took target k s₀ (pre ++ r :: post))
    (hlast : ∀ mid r' rest, post = mid ++ r' :: rest →
      ¬ dropped (replay s₀ (pre ++ r :: mid)) r' ≠ [])
    (hlive : x ∉ failedIds (pre ++ r :: post))
    (hx : x ∈ (replay s₀ (pre ++ [r])).nearest.getIds ∨ x ∈ usableIds post) :
    Covered k (distTo target.longId) (replay s₀ (pre ++ r :: post)).nearest.getIds x := by
  have hquiet : ∀ mid r' rest, post = mid ++ r' :: rest →
      dropped (replay s₀ (pre ++ [r] ++ mid)) r' = [] := by
    intro mid r' rest heq
    have hno := not_not.mp (hlast mid r' rest heq)
    rwa [List.append_cons] at hno
  rw [List.append_cons] at h hlive ⊢
  exact h.covered hquiet hlive (hx.imp_left Or.inl)

theorem covered_of_lossesMadeUp (h : Took target k (.new target seeds k alpha) rs)
    (hmade : LossesMadeUp target seeds k alpha rs)
    (hlearned : x ∈ seeds.map Node.id ∨ x ∈ reportedIds rs)
    (hlive : x ∉ failedIds rs) (hkept : x ∉ leftOutIds rs) :
    Covered k (distTo target.longId)
      (replay (.new target seeds k alpha) rs).nearest.getIds x := by
  rcases last_split
    (fun pre r => dropped (replay (.new target seeds k alpha) pre) r ≠ []) rs with
    hnone | ⟨pre, r, post, rfl, hdrop, hlast⟩
  · -- nobody is ever dropped
    have htook : Took target k (.new target seeds k alpha) ([] ++ rs) := h
    refine htook.covered (fun mid r rest heq => ?_) hlive ?_
    · exact not_not.mp (hnone mid r rest heq)
    · exact hlearned.imp (covered_new target k alpha) fun hrep => mem_usableIds hrep hkept
  · have hlater := fun {y} => h.covered_after (x := y) hlast
    have hkept' : x ∉ leftOutIds post := by
      rw [List.append_cons, leftOutIds_append, List.mem_append, not_or] at hkept
      exact hkept.2
    have hreported : x ∈ reportedIds post → Covered k (distTo target.longId)
        (replay (.new target seeds k alpha) (pre ++ r :: post)).nearest.getIds x :=
      fun hrep => hlater hlive (Or.inr (mem_usableIds hrep hkept'))
    have hbefore : x ∈ seeds.map Node.id ∨ x ∈ reportedIds (pre ++ [r]) →
        Covered k (distTo target.longId)
          (replay (.new target seeds k alpha) (pre ++ r :: post)).nearest.getIds x := by
      intro hbefore
      rcases hmade pre r post rfl hdrop x hbefore hlive hkept with hmem | hrep | hcloser
      · refine hlater hlive (Or.inl ((mem_replay_snoc h.init).mpr ⟨hmem, fun hs => ?_⟩))
        exact hlive (List.mem_flatMap.mpr ⟨r, by simp, hs⟩)
      · exact hreported hrep
      · refine covered_of_countP h.increasing h.length_le (List.nodup_dedup _)
          (fun y hy => ?_) hcloser
        obtain ⟨hy, hnot⟩ := List.mem_filter.mp (List.mem_dedup.mp hy)
        exact hlater (of_decide_eq_true hnot) (List.mem_append.mp hy)
    rw [List.append_cons, reportedIds_append, List.mem_append, ← or_assoc] at hlearned
    exact hlearned.elim hbefore hreported

theorem lossesMadeUp_of_covered (h : Took target k (.new target seeds k alpha) rs)
    (hcovered : ∀ x, x ∈ seeds.map Node.id ∨ x ∈ reportedIds rs → x ∉ failedIds rs →
      x ∉ leftOutIds rs → Covered k (distTo target.longId)
        (replay (.new target seeds k alpha) rs).nearest.getIds x) :
    LossesMadeUp target seeds k alpha rs := by
  rintro pre r post rfl - x hlearned hlive hkept
  have hsplit : pre ++ r :: post = (pre ++ [r]) ++ post := by simp
  have htook : Took target k (.new target seeds k alpha) ((pre ++ [r]) ++ post) := hsplit ▸ h
  have hfrom : ∀ y ∈ (replay (.new target seeds k alpha) (pre ++ r :: post)).nearest.getIds,
      y ∈ (replay (.new target seeds k alpha) (pre ++ [r])).nearest.getIds ∨
        y ∈ usableIds post := by
    intro y hy
    rw [hsplit] at hy
    exact htook.mem_ids hy
  have hrep : x ∈ seeds.map Node.id ∨ x ∈ reportedIds (pre ++ r :: post) := by
    rw [hsplit, reportedIds_append, List.mem_append]
    exact hlearned.imp_right Or.inl
  rcases hcovered x hrep hlive hkept with hmem | ⟨hlen, hcloser⟩
  · rcases hfrom x hmem with hthere | hlater
    · exact Or.inl ((mem_replay_snoc htook.init.init).mp hthere).1
    · exact Or.inr (Or.inl (reported_of_usable hlater))
  · refine Or.inr (Or.inr (le_countP_of_full h.state.wf.getIds_nodup hlen hcloser fun y hy => ?_))
    refine List.mem_dedup.mpr (List.mem_filter.mpr ⟨List.mem_append.mpr (hfrom y hy), ?_⟩)
    exact decide_eq_true fun hf => h.state.live y hy ((h.state.failed y).mpr hf)

/-- **A lookup keeps the nearest of the usable nodes it learned of** exactly if its losses
are made up for. A node that is dropped leaves a place; a usable node that was cut before
does not get it back by itself. -/
theorem lookup_keeps_usable (peers : Peers) (fuel : Nat) (target : Node) (seeds : List Node)
    (k alpha : Nat) (L : LookupNodes) (rs : List Round)
    (hret : findLookupNodes peers fuel (.new target seeds k alpha) [] = some (L, rs)) :
    (∀ x, x ∈ seeds.map Node.id ∨ x ∈ reportedIds rs → x ∉ failedIds rs → x ∉ leftOutIds rs →
      x ∈ L.nodes.map Node.id ∨ L.nodes.length = k ∧
        ∀ n ∈ L.nodes, distTo target.longId n.id < distTo target.longId x) ↔
    LossesMadeUp target seeds k alpha rs := by
  obtain ⟨htook, -, rfl⟩ := findLookupNodes_took hret
  have hcovered : ∀ x, Covered k (distTo target.longId)
      (replay (.new target seeds k alpha) rs).nearest.getIds x ↔
      x ∈ (replay (.new target seeds k alpha) rs).lookupNodes.nodes.map Node.id ∨
        (replay (.new target seeds k alpha) rs).lookupNodes.nodes.length = k ∧
          ∀ n ∈ (replay (.new target seeds k alpha) rs).lookupNodes.nodes,
            distTo target.longId n.id < distTo target.longId x := by
    intro x
    simp only [Covered, NodeHeap.getIds, SpiderCrawl.lookupNodes, List.length_map,
      List.forall_mem_map]
  constructor
  · intro hkeeps
    exact lossesMadeUp_of_covered htook fun x hlearned hlive hkept =>
      (hcovered x).mpr (hkeeps x hlearned hlive hkept)
  · intro hmade x hlearned hlive hkept
    exact (hcovered x).mp (covered_of_lossesMadeUp htook hmade hlearned hlive hkept)

/-- `4` reports `reports`, and `3` reports `4`; nobody else answers. -/
def deadEnd (reports : List NodeId) (id : NodeId) : RawResponse :=
  if id = filledId 4 then ⟨true, .nodes (reports.map fun x => (x.bytes, none, none))⟩
  else if id = filledId 3 then ⟨true, .nodes [((filledId 4).bytes, none, none)]⟩
  else ⟨false, .empty⟩

/-- The only seed is pushed out by the two nodes it reports, of which one is dead; it is
back when the other one reports it. -/
theorem lookup_keeps_usable_again : ∃ L rs,
    findLookupNodes (.scripted (deadEnd [filledId 1, filledId 3])) 4
      (.new (.fromId (filledId 0)) [.fromId (filledId 4)] 2 1) [] = some (L, rs) ∧
    filledId 1 ∈ failedIds rs ∧ L.nodes.map Node.id = [filledId 3, filledId 4] ∧
    LossesMadeUp (.fromId (filledId 0)) [.fromId (filledId 4)] 2 1 rs := by
  refine ⟨_, _, rfl, by decide, by decide, ?_⟩
  refine (lookup_keeps_usable (.scripted (deadEnd [filledId 1, filledId 3])) 4
    (.fromId (filledId 0)) [.fromId (filledId 4)] 2 1 _ _ rfl).mp fun x hlearned => ?_
  have hall : ∀ y ∈ [filledId 4] ++ [filledId 1, filledId 3, filledId 4], y = filledId 1 ∨
      y ∈ [filledId 3, filledId 4] := by decide
  rcases hall x (List.mem_append.mpr hlearned) with rfl | hx
  · exact fun hlive => absurd (by decide) hlive
  · exact fun _ _ => Or.inl hx

/-- **Live nodes are lost.** Both seeds answer, but the two dead nodes that one of them
reports push them out and are dropped afterwards: nothing is returned. -/
theorem lookup_loses_live_nodes : ∃ L rs,
    findLookupNodes (.scripted (deadEnd [filledId 1, filledId 2])) 3
      (.new (.fromId (filledId 0)) [.fromId (filledId 3), .fromId (filledId 4)] 2 2) [] =
        some (L, rs) ∧
    filledId 3 ∈ answeredIds rs ∧ filledId 3 ∉ failedIds rs ∧ filledId 3 ∉ leftOutIds rs ∧
    L.nodes = [] ∧
    ¬ (filledId 3 ∈ L.nodes.map Node.id ∨ L.nodes.length = 2 ∧
      ∀ n ∈ L.nodes, distTo (Node.fromId (filledId 0)).longId n.id <
        distTo (Node.fromId (filledId 0)).longId (filledId 3)) := by
  refine ⟨_, _, rfl, ?_, ?_, ?_, ?_, ?_⟩ <;> decide

end AuthKademlia.Crawling.NodeLookup
