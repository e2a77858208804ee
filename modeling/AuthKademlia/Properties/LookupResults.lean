import AuthKademlia.Crawling.ListedNetwork
import AuthKademlia.Crawling.LookupHistory
import AuthKademlia.Crawling.ValueFind

/-! # What a lookup hands over

A publication stores the record at the nodes its lookup returns, and adds the nodes
that are known not to respond to its report. What the caller may conclude from them:
that the nodes answered, at the addresses returned, and that none of them is counted
as unresponsive. The order in which the answers of a round are merged is not part of
it. -/
namespace AuthKademlia.Properties
open AuthKademlia.Lib.Shortlist AuthKademlia.Crawling AuthKademlia.Crawling.NodeLookup
open AuthKademlia.Crawling.ListedNetwork AuthKademlia.Utils

/-! ## A value lookup without a value -/

theorem not_silent_of_unasked {rs : List Round} {r : Round} (hset : Settled (rs ++ [r]))
    {id : NodeId} (hun : id ∉ askedIds (rs ++ [r])) : id ∉ silent r.answers := by
  have hnot : id ∉ failedIds (rs ++ [r]) := fun hf => hun ((hset id).mpr (Or.inr hf))
  rw [failedIds_snoc, List.mem_append, not_or] at hnot
  exact hnot.2

/-- Nobody unasked leaves the shortlist for not answering. -/
theorem mem_afterRound_of_unasked {peers : Peers} {c : ValueFind.ValueSpiderCrawl}
    {rs : List Round} (hw : c.base.nearest.Wf)
    (hset : Settled (rs ++ [ValueFind.thisRound peers c rs])) {id : NodeId}
    (hun : id ∉ askedIds (rs ++ [ValueFind.thisRound peers c rs])) :
    id ∈ (ValueFind.afterRound peers c rs).nearest.getIds ↔
      id ∈ ((c.base.nextPeers none).2.mergeAll
        (QuorumRead.referrals (ValueFind.thisRound peers c rs).answers)).nearest.getIds := by
  have hw' : (c.base.nextPeers none).2.nearest.Wf := SpiderCrawl.nextPeers_wf hw
  have hnot : id ∉ silent (peers.answers rs (c.base.nextPeers none).1) :=
    not_silent_of_unasked hset hun
  rw [ValueFind.afterRound, SpiderCrawl.removeFailed,
    ((SpiderCrawl.mergeAll_same _ _).wf hw').getIds_remove, List.mem_filter]
  refine and_iff_left ?_
  simpa using hnot

/-- **A missed value lookup hands over only nodes that answered**, and leaves nobody unasked,
exactly if every unasked node is cut when the values that disagree arrive: of the ids that
compete for the shortlist in the last round, `k` are closer. If the last round brings no
value there is nothing to ask for. -/
theorem missed_lookup_hands_over (peers : Peers) (target : Node) (seeds : List Node)
    (k alpha fuel : Nat) (result : ValueFind.FindEnd)
    (h : ValueFind.find peers fuel (.new target seeds k alpha) [] = some result)
    (hmiss : result.value = none) :
    ((∀ n ∈ result.nodes.nodes,
      n.id ∈ askedIds result.rounds ∧ n.id ∈ answeredIds result.rounds) ∧
    ∀ id ∈ (ValueFind.replay (.new target seeds k alpha) result.rounds).nearest.getIds,
      id ∈ askedIds result.rounds) ↔
    ∀ pre r, result.rounds = pre ++ [r] → r.answers.filterMap QuorumRead.vote ≠ [] →
      ∀ id ∈ (ValueFind.replay (.new target seeds k alpha) pre).offered
          (QuorumRead.referrals r.answers), id ∉ askedIds result.rounds →
        k ≤ ((ValueFind.replay (.new target seeds k alpha) pre).offered
          (QuorumRead.referrals r.answers)).countP
            fun y => distTo target.longId y < distTo target.longId id := by
  obtain ⟨c, rs, ⟨ht, hset, hs⟩, hrounds, hnodes, -, hall⟩ := ValueFind.find_ended
    (I := fun c rs => SpiderCrawl.Tracks target k c.base rs ∧ Settled rs ∧
      c.base = ValueFind.replay (.new target seeds k alpha) rs)
    ⟨SpiderCrawl.tracks_new target seeds k alpha,
      by simp [Settled, askedIds, answeredIds, failedIds], rfl⟩
    (fun c rs ⟨ht, hset, hs⟩ => ⟨ValueFind.tracks_afterRound peers ht,
      hset.snoc (peers.perm rs _), ValueFind.replay_snoc peers hs⟩) h
  have hnodes := hnodes hmiss
  have ht' := ValueFind.tracks_afterRound peers ht
  have hset' : Settled (rs ++ [ValueFind.thisRound peers c rs]) := hset.snoc (peers.perm rs _)
  rw [← hrounds] at ht' hset'
  rw [hrounds, ← ValueFind.replay_snoc peers hs, ← hrounds]
  have hnear := ht.nearest_offered none
    (QuorumRead.referrals (ValueFind.thisRound peers c rs).answers)
  have hcut := fun {id} hid => hnear.mem_iff_countP (a := id) (List.nodup_dedup _) hid
  have hmem : ∀ {id}, id ∉ askedIds result.rounds →
      (id ∈ (ValueFind.afterRound peers c rs).nearest.getIds ↔
        id ∈ ((c.base.nextPeers none).2.mergeAll
          (QuorumRead.referrals (ValueFind.thisRound peers c rs).answers)).nearest.getIds) :=
    fun hun => mem_afterRound_of_unasked ht.wf (hrounds ▸ hset') (hrounds ▸ hun)
  constructor
  · rintro ⟨-, hasked⟩ pre r heq - id hid hun
    obtain ⟨rfl, hr⟩ := List.append_inj' (hrounds.symm.trans heq) rfl
    obtain rfl := List.singleton_inj.mp hr
    rw [← hs] at hid ⊢
    refine Nat.not_lt.mp fun hfew => hun (hasked id ((hmem hun).mpr ?_))
    exact (hcut hid).mpr hfew
  · intro hcond
    have hasked : ∀ id ∈ (ValueFind.afterRound peers c rs).nearest.getIds,
        id ∈ askedIds result.rounds := by
      intro id hid
      by_cases hvalues : ValueFind.theseValues peers c rs = []
      · exact (ht'.contacted id).mp
          ((ValueFind.afterRound peers c rs).nearest.haveContactedAll_iff.mp (hall hvalues) id hid)
      · by_contra hun
        have hin := (hmem hun).mp hid
        have hoffered := hnear.subset id hin
        have hmany := hcond rs _ hrounds hvalues id (hs ▸ hoffered) hun
        rw [← hs] at hmany
        exact absurd ((hcut hoffered).mp hin) (Nat.not_lt.mpr hmany)
    refine ⟨fun n hn => ?_, hasked⟩
    rw [hnodes] at hn
    have hid := mem_getIds_of_mem_lookupNodes hn
    refine ⟨hasked _ hid, ((hset' _).mp (hasked _ hid)).resolve_right fun hf => ?_⟩
    exact ht'.live _ hid ((ht'.failed _).mpr hf)

/-- The peers `1` and `2` return different values, and `3` has none. -/
def divided (id : NodeId) : RawResponse :=
  if id = filledId 1 then ⟨true, .value [1]⟩
  else if id = filledId 2 then ⟨true, .value [2]⟩
  else ⟨true, .nodes []⟩

/-- Two peers return different values, and there is nobody else. -/
theorem missed_lookup_hands_over_two : ∃ result,
    ValueFind.find (.scripted divided) 3 (.new (.fromId (filledId 0))
      [.fromId (filledId 1), .fromId (filledId 2)] 3 2) [] = some result ∧
    result.value = none ∧ result.nodes.nodes.length = 2 ∧
    ∀ n ∈ result.nodes.nodes, n.id ∈ askedIds result.rounds ∧ n.id ∈ answeredIds result.rounds := by
  refine ⟨_, rfl, by decide, by decide, ?_⟩
  refine ((missed_lookup_hands_over (.scripted divided) (.fromId (filledId 0))
    [.fromId (filledId 1), .fromId (filledId 2)] 3 2 3 _ rfl (by decide)).mpr
    fun pre r heq _ id hid hun => ?_).1
  obtain ⟨rfl, hr⟩ := List.append_inj' (show [] ++ [_] = pre ++ [r] from heq) rfl
  obtain rfl := List.singleton_inj.mp hr
  have hall : ∀ id ∈ (SpiderCrawl.new (.fromId (filledId 0))
      [.fromId (filledId 1), .fromId (filledId 2)] 3 2).offered [],
      id ∈ [filledId 1, filledId 2] := by decide
  exact absurd (hall id hid) hun

/-- **Nodes that were never asked are handed over.** Of three nodes the first two are
asked, and they return different values: the lookup ends without a value, and its
nodes include the third. -/
theorem divided_lookup_hands_over_unasked : ∃ result,
    ValueFind.find (.scripted divided) 3 (.new (.fromId (filledId 0))
      [.fromId (filledId 1), .fromId (filledId 2), .fromId (filledId 3)] 3 2) [] = some result ∧
    result.value = none ∧ Node.fromId (filledId 3) ∈ result.nodes.nodes ∧
    filledId 3 ∉ askedIds result.rounds ∧ filledId 3 ∉ answeredIds result.rounds := by
  refine ⟨_, rfl, ?_, ?_, ?_, ?_⟩ <;> decide

/-! ## The addresses of the nodes returned -/

variable {peers : Peers} {target : Node} {seeds : List Node} {k alpha fuel : Nat}
  {s s₀ : SpiderCrawl} {L : LookupNodes} {rs pre post : List Round} {r : Round}

/-- A report that brings back an id which was asked in an earlier round and has been cut
since, brings it back as it was asked; or the id leaves the shortlist again. -/
def ComesBackAsAsked (s₀ : SpiderCrawl) (rs : List Round) : Prop :=
  ∀ pre r post, rs = pre ++ r :: post → ∀ a ∈ responded r.answers, ∀ n ∈ a.raw.getNodeList,
    n.id ∈ askedIds pre → n.id ∉ (replay s₀ pre).nearest.getIds →
    n ∈ (replay s₀ (pre ++ [r])).nearest.toVec →
      n ∈ askedNodes pre ∨ ∃ mid rest, post = mid ++ rest ∧
        n.id ∉ (replay s₀ (pre ++ [r] ++ mid)).nearest.getIds

theorem eq_of_mem_toVec (hw : s.nearest.Wf) {n m : Node} (hn : n ∈ s.nearest.toVec)
    (hm : m ∈ s.nearest.toVec) (hid : n.id = m.id) : n = m :=
  List.inj_on_of_nodup_map hw.getIds_nodup hn hm hid

theorem stays_round (h : Took target k s₀ rs) {n : Node}
    (hn : n ∈ (replay s₀ rs).nearest.toVec)
    (hid : n.id ∈ (replay s₀ (rs ++ [r])).nearest.getIds) :
    n ∈ (replay s₀ (rs ++ [r])).nearest.toVec := by
  obtain ⟨hmerged, hspoke⟩ := (mem_replay_snoc h).mp hid
  have hw : ((replay s₀ rs).nextPeers none).2.nearest.Wf := SpiderCrawl.nextPeers_wf h.state.wf
  rw [replay_snoc, SpiderCrawl.removeFailed, (merged_wf h.state.wf).toVec_remove, List.mem_filter]
  refine ⟨SpiderCrawl.mem_mergeAll_of_id hw _ ?_ hmerged, by simpa using hspoke⟩
  rwa [SpiderCrawl.nextPeers_toVec]

theorem stays (h : Took target k s₀ (pre ++ post)) {n : Node}
    (hn : n ∈ (replay s₀ pre).nearest.toVec)
    (hids : ∀ mid rest, post = mid ++ rest → n.id ∈ (replay s₀ (pre ++ mid)).nearest.getIds) :
    ∀ mid rest, post = mid ++ rest → n ∈ (replay s₀ (pre ++ mid)).nearest.toVec := by
  intro mid
  induction mid using List.reverseRecOn with
  | nil => exact fun _ _ => by rwa [List.append_nil]
  | append_singleton mid r ih =>
    intro rest hpost
    have hthere := hids (mid ++ [r]) rest hpost
    rw [List.append_assoc] at hpost
    have htook : Took target k s₀ (pre ++ mid) := by
      rw [hpost, ← List.append_assoc] at h
      exact h.init
    rw [← List.append_assoc] at hthere ⊢
    exact stays_round htook (ih _ hpost) hthere

/-- An id of the shortlist has been in it from the start, or since the round that brought it. -/
theorem listed_since (s₀ : SpiderCrawl) (rs : List Round) {x : NodeId}
    (hx : x ∈ (replay s₀ rs).nearest.getIds) :
    ∃ pre post, rs = pre ++ post ∧
      (∀ mid rest, post = mid ++ rest → x ∈ (replay s₀ (pre ++ mid)).nearest.getIds) ∧
      (pre = [] ∨ ∃ before r, pre = before ++ [r] ∧ x ∉ (replay s₀ before).nearest.getIds) := by
  induction rs using List.reverseRecOn with
  | nil =>
    refine ⟨[], [], rfl, fun mid rest h => ?_, Or.inl rfl⟩
    rw [(List.append_eq_nil_iff.mp h.symm).1]
    exact hx
  | append_singleton rs r ih =>
    by_cases hbefore : x ∈ (replay s₀ rs).nearest.getIds
    · obtain ⟨pre, post, rfl, hlisted, hfirst⟩ := ih hbefore
      refine ⟨pre, post ++ [r], by simp, fun mid rest h => ?_, hfirst⟩
      cases rest using List.reverseRecOn with
      | nil =>
        rw [List.append_nil] at h
        rw [← h, ← List.append_assoc]
        exact hx
      | append_singleton rest z =>
        rw [← List.append_assoc] at h
        exact hlisted mid rest (List.append_inj' h rfl).1
    · refine ⟨rs ++ [r], [], by simp, fun mid rest h => ?_, Or.inr ⟨rs, r, rfl, hbefore⟩⟩
      rw [(List.append_eq_nil_iff.mp h.symm).1, List.append_nil]
      exact hx

theorem eq_of_asked (h : Took target k s₀ rs) {n m : Node} (hn : n ∈ askedNodes rs)
    (hm : m ∈ askedNodes rs) (hid : n.id = m.id) : n = m := by
  have honce := h.state.once
  rw [askedIds_eq] at honce
  exact List.inj_on_of_nodup_map honce hn hm hid

theorem mem_askedNodes_append {n : Node} :
    n ∈ askedNodes (pre ++ post) ↔ n ∈ askedNodes pre ∨ n ∈ askedNodes post := by
  simp [askedNodes]

theorem asked_as_listed (h : Took target k s₀ (pre ++ post)) {n : Node}
    (hlisted : ∀ mid rest, post = mid ++ rest → n ∈ (replay s₀ (pre ++ mid)).nearest.toVec)
    (hasked : n.id ∈ askedIds post) : n ∈ askedNodes post := by
  obtain ⟨r, hr, hid⟩ := List.mem_flatMap.mp hasked
  obtain ⟨m, hm, hid⟩ := List.mem_map.mp hid
  obtain ⟨mid, rest, rfl⟩ := List.append_of_mem hr
  rw [← List.append_assoc] at h
  have hthere := hlisted mid (r :: rest) rfl
  rw [← eq_of_mem_toVec h.init.state.wf (h.asked_listed hm) hthere hid]
  exact List.mem_flatMap.mpr ⟨r, hr, hm⟩

/-- **The nodes of the shortlist that were asked are as they were asked**, if whatever comes
back does. -/
theorem asAsked_of_comesBack (h : Took target k s₀ rs) (hback : ComesBackAsAsked s₀ rs) {n : Node}
    (hn : n ∈ (replay s₀ rs).nearest.toVec) (hasked : n.id ∈ askedIds rs) :
    n ∈ askedNodes rs := by
  obtain ⟨pre, post, rfl, hids, hfirst⟩ := listed_since s₀ rs (List.mem_map_of_mem hn)
  -- the node that has been in the shortlist since then is this one
  have hthere := hids [] post rfl
  rw [List.append_nil] at hthere
  obtain ⟨m, hm, hid⟩ := List.mem_map.mp hthere
  have hstays := stays h hm (hid.symm ▸ hids)
  obtain rfl := eq_of_mem_toVec h.state.wf hn (hstays post [] (by simp)) hid.symm
  rw [mem_askedNodes_append]
  rw [askedIds, List.flatMap_append, List.mem_append] at hasked
  rcases hasked with hearlier | hlater
  swap
  · exact Or.inr (asked_as_listed h hstays hlater)
  rcases hfirst with rfl | ⟨before, r, rfl, hout⟩
  · cases hearlier
  rw [List.flatMap_append, List.mem_append] at hearlier
  have hsplit : before ++ [r] ++ post = before ++ r :: post := by simp
  rcases hearlier with hearlier | hnow
  · -- it was asked before it came back
    have htook := h.init.init
    have hround := hm
    rw [replay_snoc] at hround
    rcases SpiderCrawl.mem_round htook.state.wf hround with hold | ⟨a, ha, hreported⟩
    · exact absurd (List.mem_map_of_mem hold) hout
    · rcases hback before r post hsplit a ha n hreported hearlier hout hm with
        hsame | ⟨mid, rest, hpost, hgone⟩
      · exact Or.inl (mem_askedNodes_append.mpr (Or.inl hsame))
      · exact absurd (hids mid rest hpost) hgone
  · -- in that round only nodes of the shortlist before it were asked
    obtain ⟨r', hr', hid⟩ := List.mem_flatMap.mp hnow
    obtain ⟨n', hn', hid⟩ := List.mem_map.mp hid
    rw [List.mem_singleton.mp hr'] at hn'
    rw [hsplit] at h
    exact absurd (hid ▸ List.mem_map_of_mem (h.asked_listed hn')) hout

theorem comesBack_of_asAsked (h : Took target k s₀ rs)
    (hasked : ∀ n ∈ (replay s₀ rs).nearest.toVec, n ∈ askedNodes rs) : ComesBackAsAsked s₀ rs := by
  rintro pre r post rfl a - n - hearlier - hn
  have hsplit : pre ++ r :: post = pre ++ [r] ++ post := by simp
  by_cases hgone : ∃ mid rest, post = mid ++ rest ∧
      n.id ∉ (replay s₀ (pre ++ [r] ++ mid)).nearest.getIds
  · exact Or.inr hgone
  left
  have hids : ∀ mid rest, post = mid ++ rest →
      n.id ∈ (replay s₀ (pre ++ [r] ++ mid)).nearest.getIds := by
    intro mid rest hpost
    by_contra hout
    exact hgone ⟨mid, rest, hpost, hout⟩
  have hstays := stays (hsplit ▸ h) hn hids post [] (by simp)
  rw [askedIds_eq] at hearlier
  obtain ⟨m, hm, hid⟩ := List.mem_map.mp hearlier
  have hthere := hasked n (hsplit ▸ hstays)
  rwa [← eq_of_asked h (mem_askedNodes_append.mpr (Or.inl hm)) hthere hid]

/-- **A lookup returns the endpoints that answered** exactly if an id that was asked and cut
comes back as it was asked, or is cut again. -/
theorem lookup_returns_endpoints (peers : Peers) (target : Node) (seeds : List Node)
    (k alpha fuel : Nat) (L : LookupNodes) (rs : List Round)
    (h : findLookupNodes peers fuel (.new target seeds k alpha) [] = some (L, rs)) :
    (∀ n ∈ L.nodes, ∃ r ∈ rs, n ∈ r.asked ∧
      ∃ a ∈ r.answers, a.peer = n.id ∧ a.raw.happened = true) ↔
    ComesBackAsAsked (.new target seeds k alpha) rs := by
  obtain ⟨htook, hall, rfl⟩ := findLookupNodes_took h
  have ht := htook.state
  constructor
  · intro hends
    refine comesBack_of_asAsked htook fun n hn => ?_
    obtain ⟨r, hr, hmem, -⟩ := hends n hn
    exact List.mem_flatMap.mpr ⟨r, hr, hmem⟩
  · intro hback n hn
    have hid := mem_getIds_of_mem_lookupNodes hn
    have hasked : n.id ∈ askedIds rs := (ht.contacted _).mp
      ((replay (.new target seeds k alpha) rs).nearest.haveContactedAll_iff.mp hall _ hid)
    obtain ⟨r, hr, hmem⟩ := List.mem_flatMap.mp (asAsked_of_comesBack htook hback hn hasked)
    obtain ⟨a, ha, hpeer⟩ :=
      List.mem_map.mp ((htook.heard r hr).mem_iff.mpr (List.mem_map_of_mem hmem))
    refine ⟨r, hr, hmem, a, ha, hpeer, ?_⟩
    -- a node that was asked and did not answer is not returned
    by_contra hno
    refine ht.live _ hid ((ht.failed _).mpr (List.mem_flatMap.mpr ⟨r, hr, ?_⟩))
    exact List.mem_map.mpr ⟨a, List.mem_filter.mpr ⟨ha, by simpa using hno⟩, hpeer⟩

/-- `3` reports `1`, which is dead, and `2`, which reports `3` at the address given. -/
def comeback (host : String) (port : UInt16) (id : NodeId) : RawResponse :=
  if id = filledId 3 then ⟨true, .nodes [((filledId 1).bytes, some "h", some 1),
    ((filledId 2).bytes, some "h", some 2)]⟩
  else if id = filledId 2 then ⟨true, .nodes [((filledId 3).bytes, some host, some port)]⟩
  else ⟨false, .empty⟩

/-- `3` has not been cut when it is reported at another address: the report changes nothing. -/
theorem lookup_returns_endpoints_listed : ∃ L rs,
    findLookupNodes (.scripted (comeback "x" 9)) 4
      (.new (.fromId (filledId 0)) [⟨filledId 3, some "h", some 3⟩] 3 1) [] = some (L, rs) ∧
    L.nodes = [⟨filledId 2, some "h", some 2⟩, ⟨filledId 3, some "h", some 3⟩] ∧
    ComesBackAsAsked (.new (.fromId (filledId 0)) [⟨filledId 3, some "h", some 3⟩] 3 1) rs := by
  refine ⟨_, _, rfl, by decide, ?_⟩
  refine (lookup_returns_endpoints (.scripted (comeback "x" 9)) (.fromId (filledId 0))
    [⟨filledId 3, some "h", some 3⟩] 3 1 4 _ _ rfl).mp ?_
  decide

/-- **An address that never answered is returned.** `3` answers, is pushed out by the two
nodes it reports, and comes back at another address once one of them is dropped: it
counts as asked, and the new address is returned. -/
theorem lookup_returns_other_endpoint : ∃ L rs,
    findLookupNodes (.scripted (comeback "x" 9)) 4
      (.new (.fromId (filledId 0)) [⟨filledId 3, some "h", some 3⟩] 2 1) [] = some (L, rs) ∧
    (⟨filledId 3, some "x", some 9⟩ : Node) ∈ L.nodes ∧
    (⟨filledId 3, some "x", some 9⟩ : Node) ∉ askedNodes rs := by
  refine ⟨_, _, rfl, ?_, ?_⟩ <;> decide

/-! ## The nodes counted as unresponsive -/

/-- The ids that a lookup counts as unresponsive: those that did not answer, and those
reported while known to be failing. -/
def unresponsiveIds (rs : List Round) : Finset NodeId := (failedIds rs ++ leftOutIds rs).toFinset

theorem mem_unresponsiveIds {x : NodeId} :
    x ∈ unresponsiveIds rs ↔ x ∈ failedIds rs ∨ x ∈ leftOutIds rs := by
  rw [unresponsiveIds, List.mem_toFinset, List.mem_append]

/-- Nobody is both counted as unresponsive and among those that answered or are returned. -/
def Apart (L : LookupNodes) (rs : List Round) : Prop :=
  ∀ x ∈ unresponsiveIds rs, x ∉ answeredIds rs ∧ x ∉ L.nodes.map Node.id

/-- Whenever it is the turn of the id to be asked, it does not answer. -/
def NeverAnswers (s₀ : SpiderCrawl) (rs : List Round) (x : NodeId) : Prop :=
  ∀ pre r post, rs = pre ++ r :: post →
    x ∈ ((replay s₀ pre).nextPeers none).1.map Node.id → x ∈ silent r.answers

/-- The contacts known to be failing are `F` throughout the rounds. -/
def FailingFixed (F : Finset NodeId) (rs : List Round) : Prop :=
  ∀ r ∈ rs, ∀ a ∈ r.answers, a.failing = F

theorem unresponsive_eq (target : Node) (seeds : List Node) (k alpha : Nat)
    (h : Took target k (.new target seeds k alpha) rs) :
    (replay (.new target seeds k alpha) rs).lookupNodes.unresponsive =
      (unresponsiveIds rs).card := by
  refine congrArg Finset.card (Finset.ext fun x => ?_)
  rw [Finset.mem_union, h.state.failed, mem_skipped_replay, mem_unresponsiveIds]
  simp [SpiderCrawl.new]

theorem answered_iff (h : Took target k s₀ rs) {x : NodeId} :
    x ∈ answeredIds rs ↔ x ∈ askedIds rs ∧ x ∉ failedIds rs := by
  rw [h.settled x]
  constructor
  · exact fun ha => ⟨Or.inl ha, fun hf => h.not_answered_of_failed hf ha⟩
  · rintro ⟨ha | hf, hno⟩
    · exact ha
    · exact absurd hf hno

theorem neverAnswers_iff (h : Took target k s₀ rs) {x : NodeId} :
    NeverAnswers s₀ rs x ↔ x ∉ answeredIds rs := by
  rw [answered_iff h]
  constructor
  · rintro hnever ⟨hasked, hlive⟩
    obtain ⟨r, hr, hx⟩ := List.mem_flatMap.mp hasked
    obtain ⟨pre, post, rfl⟩ := List.append_of_mem hr
    rw [h.asked pre r post rfl] at hx
    exact hlive (List.mem_flatMap.mpr ⟨r, hr, hnever pre r post rfl hx⟩)
  · rintro hno pre r post rfl hturn
    have hasked : x ∈ askedIds (pre ++ r :: post) := by
      refine List.mem_flatMap.mpr ⟨r, by simp, ?_⟩
      rwa [h.asked pre r post rfl]
    have hfailed := not_not.mp (not_and.mp hno hasked)
    -- it was asked in this round, so it did not answer in this one
    have hpeer := (h.heard r (by simp)).mem_iff.mpr (h.asked pre r post rfl ▸ hturn)
    obtain ⟨a, ha, rfl⟩ := List.mem_map.mp hpeer
    by_contra hspoke
    refine h.not_answered_of_failed hfailed (List.mem_flatMap.mpr ⟨r, by simp, ?_⟩)
    refine List.mem_map_of_mem (List.mem_filter.mpr ⟨ha, ?_⟩)
    by_contra hsilent
    exact hspoke (List.mem_map_of_mem (List.mem_filter.mpr ⟨ha, by simpa using hsilent⟩))

theorem answered_of_returned (h : Took target k s₀ rs)
    (hall : (replay s₀ rs).nearest.haveContactedAll = true) {x : NodeId}
    (hx : x ∈ (replay s₀ rs).nearest.getIds) : x ∈ answeredIds rs := by
  refine (answered_iff h).mpr ⟨(h.state.contacted x).mp
    ((replay s₀ rs).nearest.haveContactedAll_iff.mp hall x hx), fun hf => ?_⟩
  exact h.state.live x hx ((h.state.failed x).mpr hf)

theorem apart_iff (h : Took target k s₀ rs)
    (hall : (replay s₀ rs).nearest.haveContactedAll = true) :
    Apart (replay s₀ rs).lookupNodes rs ↔ ∀ x ∈ leftOutIds rs, x ∉ answeredIds rs := by
  constructor
  · exact fun hapart x hx => (hapart x (mem_unresponsiveIds.mpr (Or.inr hx))).1
  · intro hno x hx
    have hnot : x ∉ answeredIds rs := by
      rcases mem_unresponsiveIds.mp hx with hf | hl
      · exact h.not_answered_of_failed hf
      · exact hno x hl
    exact ⟨hnot, fun hid => hnot (answered_of_returned h hall hid)⟩

theorem mem_seeds_of_new {x : NodeId}
    (hx : x ∈ (SpiderCrawl.new target seeds k alpha).nearest.getIds) : x ∈ seeds.map Node.id := by
  obtain ⟨n, hn, rfl⟩ := List.mem_map.mp hx
  rcases NodeHeap.mem_push (NodeHeap.wf_new target k) hn with hn | hn
  · simp [NodeHeap.new, NodeHeap.toVec] at hn
  · exact List.mem_map_of_mem hn

theorem failing_of_leftOut {F : Finset NodeId} (hF : FailingFixed F rs) {x : NodeId}
    (hx : x ∈ leftOutIds rs) : x ∈ F := by
  obtain ⟨r, hr, hx⟩ := List.mem_flatMap.mp hx
  obtain ⟨a, ha, hx⟩ := List.mem_flatMap.mp hx
  rw [← hF r hr a (List.mem_of_mem_filter ha)]
  exact of_decide_eq_true (List.mem_filter.mp hx).2

theorem not_failing_of_usable {F : Finset NodeId} (hF : FailingFixed F rs) {x : NodeId}
    (hx : x ∈ usableIds rs) : x ∉ F := by
  obtain ⟨r, hr, hx⟩ := List.mem_flatMap.mp hx
  obtain ⟨a, ha, hx⟩ := List.mem_flatMap.mp hx
  rw [← hF r hr a (List.mem_of_mem_filter ha)]
  exact of_decide_eq_true (List.mem_filter.mp hx).2

/-- Everybody reports `x`, while the contacts `failing` are known to be so. -/
def reporting (failing : Finset NodeId) (x : NodeId) : Peers where
  answers := fun _ asked => asked.map fun n =>
    ⟨n.id, ⟨true, .nodes [(x.bytes, none, none)]⟩, failing⟩
  perm := fun _ asked => by simp [Function.comp_def]

theorem reporting_answers {F : Finset NodeId} {x : NodeId}
    (h : findLookupNodes (reporting F x) fuel (.new target seeds k alpha) [] = some (L, rs)) :
    ∀ r ∈ rs, ∀ a ∈ r.answers, a.raw.happened = true ∧ a.raw.getNodeList = [⟨x, none, none⟩] ∧
      a.failing = F := by
  obtain ⟨-, hall, -, -⟩ := findLookupNodes_induct
    (I := fun _ rs => ∀ r ∈ rs, ∀ a ∈ r.answers, a.raw.happened = true ∧
      a.raw.getNodeList = [⟨x, none, none⟩] ∧ a.failing = F) (by simp)
    (fun s rs ih r hr a ha => by
      rcases List.mem_append.mp hr with hr | hr
      · exact ih r hr a ha
      · rw [List.mem_singleton.mp hr] at ha
        obtain ⟨n, -, rfl⟩ := List.mem_map.mp ha
        exact ⟨rfl, by simp [RawResponse.getNodeList, x.length_eq], rfl⟩) h
  exact hall

theorem silent_reporting {F : Finset NodeId} {x : NodeId}
    (h : findLookupNodes (reporting F x) fuel (.new target seeds k alpha) [] = some (L, rs)) :
    ∀ r ∈ rs, silent r.answers = [] := by
  intro r hr
  have hnone : r.answers.filter (fun a => !a.raw.happened) = [] :=
    List.filter_eq_nil_iff.mpr fun a ha => by simp [(reporting_answers h r hr a ha).1]
  rw [silent, hnone, List.map_nil]

theorem reported_reporting {F : Finset NodeId} {x : NodeId}
    (h : findLookupNodes (reporting F x) fuel (.new target seeds k alpha) [] = some (L, rs)) :
    ∀ r ∈ rs, ∀ a ∈ r.answers, reported a = [x] := by
  intro r hr a ha
  rw [reported, (reporting_answers h r hr a ha).2.1]
  rfl

theorem usableIds_reporting {F : Finset NodeId} {x : NodeId} (hF : x ∈ F)
    (h : findLookupNodes (reporting F x) fuel (.new target seeds k alpha) [] = some (L, rs))
    (y : NodeId) : y ∉ usableIds rs := by
  intro hy
  have hknown := not_failing_of_usable (fun r hr a ha => (reporting_answers h r hr a ha).2.2) hy
  obtain ⟨r, hr, hmem⟩ := List.mem_flatMap.mp (reported_of_usable hy)
  obtain ⟨a, ha, hmem⟩ := List.mem_flatMap.mp hmem
  rw [reported_reporting h r hr a (List.mem_of_mem_filter ha), List.mem_singleton] at hmem
  exact hknown (hmem ▸ hF)

/-- Nothing comes in and nobody leaves, so that a seed stays in the shortlist. -/
theorem listed_reporting {F : Finset NodeId} {x y : NodeId} (hF : x ∈ F)
    (h : findLookupNodes (reporting F x) fuel (.new target seeds k alpha) [] = some (L, rs))
    (hy : y ∈ (SpiderCrawl.new target seeds k alpha).nearest.getIds) :
    y ∈ (replay (.new target seeds k alpha) rs).nearest.getIds := by
  obtain ⟨htook, -, rfl⟩ := findLookupNodes_took h
  have hsilent := silent_reporting h
  have hwhole : Took target k (.new target seeds k alpha) ([] ++ rs) := htook
  have hold : ∀ z ∈ (replay (.new target seeds k alpha) rs).nearest.getIds,
      z ∈ (SpiderCrawl.new target seeds k alpha).nearest.getIds := fun z hz =>
    (hwhole.mem_ids hz).resolve_right (usableIds_reporting hF h z)
  have hfailed : y ∉ failedIds rs := by
    rw [failedIds, List.flatMap_eq_nil_iff.mpr hsilent]
    exact List.not_mem_nil
  have hcovered : Covered k (distTo target.longId)
      (replay (.new target seeds k alpha) rs).nearest.getIds y := by
    refine hwhole.covered (fun mid r rest heq => ?_) hfailed (Or.inl (Or.inl hy))
    rw [dropped, hsilent r (heq ▸ by simp)]
    simp
  rcases hcovered with hin | ⟨hlen, hcloser⟩
  · exact hin
  · have hmem := (mem_of_subset_of_length_le htook.state.wf.getIds_nodup hold
      (by rw [hlen]; exact (took_new target seeds k alpha).length_le)) y hy
    exact absurd (hcloser y hmem) (Nat.lt_irrefl _)

/-- A seed in the shortlist that is known to be failing can be asked, and be reported. -/
theorem failing_seed_counted {F : Finset NodeId} {x : NodeId} (hF : x ∈ F)
    (hx : x ∈ (SpiderCrawl.new target seeds k alpha).nearest.getIds)
    (h : findLookupNodes (reporting F x) fuel (.new target seeds k alpha) [] = some (L, rs)) :
    FailingFixed F rs ∧ x ∈ leftOutIds rs ∧ x ∈ answeredIds rs := by
  have hfixed : FailingFixed F rs := fun r hr a ha => (reporting_answers h r hr a ha).2.2
  have hlisted := listed_reporting hF h hx
  obtain ⟨htook, hall, -⟩ := findLookupNodes_took h
  have hanswered := answered_of_returned htook hall hlisted
  refine ⟨hfixed, ?_, hanswered⟩
  obtain ⟨r, hr, hmem⟩ := List.mem_flatMap.mp hanswered
  obtain ⟨a, ha, -⟩ := List.mem_map.mp hmem
  refine List.mem_flatMap.mpr ⟨r, hr, List.mem_flatMap.mpr ⟨a, ha, List.mem_filter.mpr ⟨?_, ?_⟩⟩⟩
  · rw [reported_reporting h r hr a (List.mem_of_mem_filter ha)]
    exact List.mem_singleton_self x
  · rw [hfixed r hr a (List.mem_of_mem_filter ha)]
    exact decide_eq_true hF

/-- **Responding and unresponsive nodes are disjoint** exactly if no id is both reported while
known to be failing, and a seed or reported while not known to be failing, and then asked
and heard. While the contacts known to be failing stay the same, this holds whatever the
peers do if and only if none of them is among the seeds that the lookup starts with. -/
theorem unresponsive_apart (peers : Peers) (target : Node) (seeds : List Node)
    (k alpha fuel : Nat) (L : LookupNodes) (rs : List Round)
    (h : findLookupNodes peers fuel (.new target seeds k alpha) [] = some (L, rs)) :
    L.unresponsive = (unresponsiveIds rs).card ∧
    (Apart L rs ↔ ∀ x ∈ leftOutIds rs, x ∈ candidates seeds rs →
      NeverAnswers (.new target seeds k alpha) rs x) ∧
    ∀ F, (∀ peers' fuel' L' rs', FailingFixed F rs' →
        findLookupNodes peers' fuel' (.new target seeds k alpha) [] = some (L', rs') →
        Apart L' rs') ↔
      ∀ x ∈ (SpiderCrawl.new target seeds k alpha).nearest.getIds, x ∉ F := by
  obtain ⟨htook, hall, rfl⟩ := findLookupNodes_took h
  refine ⟨unresponsive_eq target seeds k alpha htook, ?_, fun F => ⟨fun hapart x hx hF => ?_,
    fun hseeds peers' fuel' L' rs' hfixed h' => ?_⟩⟩
  · rw [apart_iff htook hall]
    refine forall₂_congr fun x hx => ?_
    rw [neverAnswers_iff htook]
    refine ⟨fun hno _ => hno, fun hno hanswered => hno ?_ hanswered⟩
    refine List.mem_toFinset.mpr (List.mem_append.mpr ?_)
    exact (htook.asked_source ((answered_iff htook).mp hanswered).1).imp_left mem_seeds_of_new
  · obtain ⟨fuel', L', rs', h'⟩ := findLookupNodes_returns (reporting F x)
      (SpiderCrawl.tracks_new target seeds k alpha)
    obtain ⟨hfixed, hleft, hanswered⟩ := failing_seed_counted hF hx h'
    exact (hapart _ _ _ _ hfixed h' x (mem_unresponsiveIds.mpr (Or.inr hleft))).1 hanswered
  · obtain ⟨htook', hall', rfl⟩ := findLookupNodes_took h'
    refine (apart_iff htook' hall').mpr fun x hleft hanswered => ?_
    rcases htook'.asked_source ((answered_iff htook').mp hanswered).1 with hseed | hused
    · exact hseeds x hseed (failing_of_leftOut hfixed hleft)
    · exact not_failing_of_usable hfixed hused (failing_of_leftOut hfixed hleft)

/-- `2` is known to be failing and left out, and it is not a seed. -/
theorem unresponsive_apart_one : ∃ L rs,
    findLookupNodes (reporting {filledId 2} (filledId 2)) 3
      (.new (.fromId (filledId 0)) [.fromId (filledId 1)] 2 1) [] = some (L, rs) ∧
    filledId 2 ∈ unresponsiveIds rs ∧ Apart L rs := by
  have hrun : ∃ L rs, findLookupNodes (reporting {filledId 2} (filledId 2)) 3
      (.new (.fromId (filledId 0)) [.fromId (filledId 1)] 2 1) [] = some (L, rs) ∧
      filledId 2 ∈ unresponsiveIds rs := ⟨_, _, rfl, by decide⟩
  obtain ⟨L, rs, h, hcounted⟩ := hrun
  refine ⟨L, rs, h, hcounted, ?_⟩
  have hseeds := ((unresponsive_apart _ (.fromId (filledId 0)) [.fromId (filledId 1)] 2 1 3 L rs
    h).2.2 {filledId 2}).mpr (by decide)
  exact hseeds _ _ _ _ (fun r hr a ha => (reporting_answers h r hr a ha).2.2) h

/-- **A node that answered is counted as unresponsive.** `2` is a seed that is known to
be failing. It is left out of the report of `1`, then asked as a seed, and answers. -/
theorem unresponsive_counts_responder : ∃ L rs,
    findLookupNodes (reporting {filledId 2} (filledId 2)) 3
      (.new (.fromId (filledId 0)) [.fromId (filledId 1), .fromId (filledId 2)] 2 1) [] =
        some (L, rs) ∧
    L.unresponsive = 1 ∧ filledId 2 ∈ unresponsiveIds rs ∧ filledId 2 ∈ answeredIds rs ∧
    filledId 2 ∈ L.nodes.map Node.id := by
  refine ⟨_, _, rfl, ?_, ?_, ?_, ?_⟩ <;> decide

/-! ## The order of the answers -/

/-- Peers whose answers depend on their ids only, while the contacts known to be failing
stay `F`. In which order the answers of a round are processed is left open. -/
def Steady (reply : NodeId → RawResponse) (F : Finset NodeId) (peers : Peers) : Prop :=
  ∀ seen asked, ∀ a ∈ peers.answers seen asked, a.raw = reply a.peer ∧ a.failing = F

section Order
variable {reply : NodeId → RawResponse} {F : Finset NodeId} {p₁ p₂ : Peers}
  {s₁ s₂ : SpiderCrawl} {seen₁ seen₂ : List Round}

theorem Steady.answers_eq (h : Steady reply F peers) (seen : List Round) (asked : List Node) :
    peers.answers seen asked =
      ((peers.answers seen asked).map Answer.peer).map fun x => ⟨x, reply x, F⟩ := by
  have hsame : ∀ a ∈ peers.answers seen asked, a = ⟨a.peer, reply a.peer, F⟩ := by
    intro a ha
    obtain ⟨hraw, hfailing⟩ := h seen asked a ha
    rw [← hraw, ← hfailing]
  rw [List.map_map]
  exact (List.map_id _).symm.trans (List.map_congr_left hsame)

theorem Steady.perm (h₁ : Steady reply F p₁) (h₂ : Steady reply F p₂) {asked₁ asked₂ : List Node}
    (hasked : asked₁.map Node.id = asked₂.map Node.id) :
    (p₁.answers seen₁ asked₁).Perm (p₂.answers seen₂ asked₂) := by
  rw [h₁.answers_eq, h₂.answers_eq]
  exact ((p₁.perm seen₁ asked₁).trans (hasked ▸ (p₂.perm seen₂ asked₂).symm)).map _

/-- Two lookups that differ in the nodes behind the ids of their shortlists at most. -/
structure Alike (s₁ s₂ : SpiderCrawl) : Prop where
  wf₁ : s₁.nearest.Wf
  wf₂ : s₂.nearest.Wf
  node : s₁.nearest.node = s₂.nearest.node
  maxsize : s₁.nearest.maxsize = s₂.nearest.maxsize
  ids : s₁.nearest.getIds = s₂.nearest.getIds
  contacted : s₁.nearest.contacted = s₂.nearest.contacted
  failed : s₁.failed = s₂.failed
  skipped : s₁.skipped = s₂.skipped
  last : s₁.lastIdsCrawled = s₂.lastIdsCrawled
  alpha : s₁.alpha = s₂.alpha
  everyone : s₁.askEveryone = s₂.askEveryone

theorem Alike.refl (hw : s.nearest.Wf) : Alike s s :=
  ⟨hw, hw, rfl, rfl, rfl, rfl, rfl, rfl, rfl, rfl, rfl⟩

theorem map_id_getUncontacted (h : NodeHeap) :
    h.getUncontacted.map Node.id = h.getIds.filter fun x => x ∉ h.contacted := by
  rw [NodeHeap.getUncontacted, NodeHeap.getIds, List.filter_map]
  rfl

theorem len_eq_getIds (hw : s.nearest.Wf) : s.nearest.len = s.nearest.getIds.length := by
  rw [hw.len_eq, hw.getIds_eq, List.length_map]

theorem Alike.haveContactedAll (h : Alike s₁ s₂) :
    s₁.nearest.haveContactedAll = s₂.nearest.haveContactedAll := by
  rw [Bool.eq_iff_iff, NodeHeap.haveContactedAll_iff, NodeHeap.haveContactedAll_iff, h.ids,
    h.contacted]

theorem Alike.asked (h : Alike s₁ s₂) :
    (s₁.nextPeers none).1.map Node.id = (s₂.nextPeers none).1.map Node.id := by
  have hcount : s₁.count none = s₂.count none := by
    simp only [SpiderCrawl.count, h.everyone, h.ids, h.last, h.alpha, len_eq_getIds h.wf₁,
      len_eq_getIds h.wf₂]
  simp only [SpiderCrawl.nextPeers, List.map_take, map_id_getUncontacted, hcount, h.ids,
    h.contacted]

theorem Alike.nextPeers (h : Alike s₁ s₂) :
    Alike (s₁.nextPeers none).2 (s₂.nextPeers none).2 where
  wf₁ := SpiderCrawl.nextPeers_wf h.wf₁
  wf₂ := SpiderCrawl.nextPeers_wf h.wf₂
  node := by rw [SpiderCrawl.nextPeers_node, SpiderCrawl.nextPeers_node, h.node]
  maxsize := by rw [SpiderCrawl.nextPeers_maxsize, SpiderCrawl.nextPeers_maxsize, h.maxsize]
  ids := by rw [SpiderCrawl.nextPeers_getIds, SpiderCrawl.nextPeers_getIds, h.ids]
  contacted := by
    ext x
    rw [SpiderCrawl.mem_nextPeers_contacted, SpiderCrawl.mem_nextPeers_contacted, h.contacted,
      h.asked]
  failed := h.failed
  skipped := h.skipped
  last := h.ids
  alpha := h.alpha
  everyone := h.everyone

/-- **Merging the same answers in another order** leaves the lookups alike: either
shortlist is that of everything merged. -/
theorem Alike.mergeAll (h : Alike s₁ s₂) {as₁ as₂ : List Answer} (hp : as₁.Perm as₂) :
    Alike (s₁.mergeAll as₁) (s₂.mergeAll as₂) := by
  have same₁ := s₁.mergeAll_same as₁
  have same₂ := s₂.mergeAll_same as₂
  obtain ⟨halpha₁, heveryone₁, hlast₁⟩ := s₁.mergeAll_settings as₁
  obtain ⟨halpha₂, heveryone₂, hlast₂⟩ := s₂.mergeAll_settings as₂
  have near₁ := SpiderCrawl.mergeAll_nearest h.wf₁ as₁ h.wf₁.nearest_getIds
  have near₂ := SpiderCrawl.mergeAll_nearest h.wf₂ as₂ h.wf₂.nearest_getIds
  rw [h.node, h.maxsize, h.ids, h.failed] at near₁
  exact {
    wf₁ := same₁.wf h.wf₁
    wf₂ := same₂.wf h.wf₂
    node := by rw [same₁.node, same₂.node, h.node]
    maxsize := by rw [same₁.maxsize, same₂.maxsize, h.maxsize]
    ids := (near₁.congr fun x => by simp only [hp.mem_iff]).unique near₂
    contacted := by rw [same₁.contacted, same₂.contacted, h.contacted]
    failed := by rw [same₁.failed, same₂.failed, h.failed]
    skipped := by
      ext x
      rw [SpiderCrawl.mem_mergeAll_skipped, SpiderCrawl.mem_mergeAll_skipped, h.skipped]
      simp only [hp.mem_iff]
    last := by rw [hlast₁, hlast₂, h.last]
    alpha := by rw [halpha₁, halpha₂, h.alpha]
    everyone := by rw [heveryone₁, heveryone₂, h.everyone] }

theorem Alike.removeFailed (h : Alike s₁ s₂) {ps₁ ps₂ : List NodeId} (hp : ps₁.Perm ps₂) :
    Alike (s₁.removeFailed ps₁) (s₂.removeFailed ps₂) where
  wf₁ := h.wf₁.remove ps₁
  wf₂ := h.wf₂.remove ps₂
  node := by simp only [SpiderCrawl.removeFailed, NodeHeap.remove_node, h.node]
  maxsize := by simp only [SpiderCrawl.removeFailed, NodeHeap.remove_maxsize, h.maxsize]
  ids := by
    simp only [SpiderCrawl.removeFailed, h.wf₁.getIds_remove, h.wf₂.getIds_remove, h.ids,
      List.contains_eq_mem, hp.mem_iff]
  contacted := by simp only [SpiderCrawl.removeFailed, NodeHeap.remove_contacted, h.contacted]
  failed := by simp only [SpiderCrawl.removeFailed, h.failed, List.toFinset_eq_of_perm _ _ hp]
  skipped := h.skipped
  last := h.last
  alpha := h.alpha
  everyone := h.everyone

/-- **A round keeps lookups alike.** -/
theorem Alike.round (h : Alike s₁ s₂) (h₁ : Steady reply F p₁) (h₂ : Steady reply F p₂) :
    Alike (afterRound p₁ s₁ seen₁) (afterRound p₂ s₂ seen₂) :=
  (h.nextPeers.mergeAll ((h₁.perm h₂ h.asked).filter _)).removeFailed
    (((h₁.perm h₂ h.asked).filter _).map _)

/-- What a lookup returns, with the ids it asked in each round. -/
def outcomeIds (x : LookupNodes × List Round) : List NodeId × Nat × List (List NodeId) :=
  (x.1.nodes.map Node.id, x.1.unresponsive, x.2.map fun r => r.asked.map Node.id)

theorem Alike.run (h₁ : Steady reply F p₁) (h₂ : Steady reply F p₂) (fuel : Nat)
    (h : Alike s₁ s₂)
    (hseen : seen₁.map (fun r => r.asked.map Node.id) = seen₂.map fun r => r.asked.map Node.id) :
    (findLookupNodes p₁ fuel s₁ seen₁).map outcomeIds =
      (findLookupNodes p₂ fuel s₂ seen₂).map outcomeIds := by
  induction fuel generalizing s₁ s₂ seen₁ seen₂ with
  | zero => rfl
  | succ fuel ih =>
    have hround : Alike (afterRound p₁ s₁ seen₁) (afterRound p₂ s₂ seen₂) := h.round h₁ h₂
    have hasked : (seen₁ ++ [thisRound p₁ s₁ seen₁]).map (fun r => r.asked.map Node.id) =
        (seen₂ ++ [thisRound p₂ s₂ seen₂]).map fun r => r.asked.map Node.id := by
      simp only [List.map_append, hseen, List.map_cons, List.map_nil, thisRound, h.asked]
    rw [findLookupNodes_succ, findLookupNodes_succ, hround.haveContactedAll]
    split
    · have hids : (afterRound p₁ s₁ seen₁).nearest.toVec.map Node.id =
          (afterRound p₂ s₂ seen₂).nearest.toVec.map Node.id := hround.ids
      simp only [Option.map_some, outcomeIds, SpiderCrawl.lookupNodes, hids, hasked,
        hround.failed, hround.skipped]
    · exact ih hround hasked

end Order

/-- **The order of answers does not matter.** The answers of the peers depend on their
ids only and the contacts known to be failing stay the same: then for any two orders in
which the answers of each round are processed, the lookup asks the same ids in every
round, and returns the same ids and the same count of unresponsive nodes. -/
theorem order_of_answers_irrelevant (reply : NodeId → RawResponse) (F : Finset NodeId)
    (p₁ p₂ : Peers) (h₁ : Steady reply F p₁) (h₂ : Steady reply F p₂) (target : Node)
    (seeds : List Node) (k alpha : Nat) :
    ∃ bound L₁ rs₁ L₂ rs₂, (∀ fuel ≥ bound,
        findLookupNodes p₁ fuel (.new target seeds k alpha) [] = some (L₁, rs₁) ∧
        findLookupNodes p₂ fuel (.new target seeds k alpha) [] = some (L₂, rs₂)) ∧
      rs₁.map (fun r => r.asked.map Node.id) = rs₂.map (fun r => r.asked.map Node.id) ∧
      L₁.nodes.map Node.id = L₂.nodes.map Node.id ∧ L₁.unresponsive = L₂.unresponsive := by
  have ht := SpiderCrawl.tracks_new target seeds k alpha
  obtain ⟨bound, L₁, rs₁, hend₁⟩ := findLookupNodes_returns p₁ ht
  have hsame := Alike.run h₁ h₂ bound (.refl ht.wf) (rfl : List.map _ [] = _)
  rw [hend₁, Option.map_some] at hsame
  obtain ⟨⟨L₂, rs₂⟩, hend₂, hout⟩ := Option.map_eq_some_iff.mp hsame.symm
  obtain ⟨hids, hrest⟩ := Prod.mk.inj hout.symm
  obtain ⟨hcount, hasked⟩ := Prod.mk.inj hrest
  exact ⟨bound, L₁, rs₁, L₂, rs₂,
    fun fuel hf => ⟨findLookupNodes_mono hend₁ hf, findLookupNodes_mono hend₂ hf⟩,
    hasked, hids, hcount⟩

/-- The answers of `Peers.scripted` in the opposite order. -/
def backwards (reply : NodeId → RawResponse) : Peers where
  answers := fun _ asked => (asked.map fun n => ⟨n.id, reply n.id, ∅⟩).reverse
  perm := fun _ asked => by
    rw [List.map_reverse, List.map_map]
    exact List.reverse_perm _

/-- Two seeds that report different nodes, heard in either order. -/
theorem order_of_answers_irrelevant_two :
    let seeds : List Node := [.fromId (filledId 3), .fromId (filledId 4)]
    ∃ bound L₁ rs₁ L₂ rs₂, (∀ fuel ≥ bound,
        findLookupNodes (.scripted (comeback "x" 9)) fuel (.new (.fromId (filledId 0)) seeds 2 2)
          [] = some (L₁, rs₁) ∧
        findLookupNodes (backwards (comeback "x" 9)) fuel (.new (.fromId (filledId 0)) seeds 2 2)
          [] = some (L₂, rs₂)) ∧
      rs₁.map (fun r => r.asked.map Node.id) = rs₂.map (fun r => r.asked.map Node.id) ∧
      L₁.nodes.map Node.id = L₂.nodes.map Node.id ∧ L₁.unresponsive = L₂.unresponsive := by
  intro seeds
  refine order_of_answers_irrelevant (comeback "x" 9) ∅ _ _ (fun seen asked a ha => ?_)
    (fun seen asked a ha => ?_) (.fromId (filledId 0)) seeds 2 2
  · obtain ⟨n, -, rfl⟩ := List.mem_map.mp ha
    exact ⟨rfl, rfl⟩
  · obtain ⟨n, -, rfl⟩ := List.mem_map.mp (List.mem_reverse.mp ha)
    exact ⟨rfl, rfl⟩

end AuthKademlia.Properties
