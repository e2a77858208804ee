import AuthKademlia.Properties.LookupResults

/-! # The copy left behind

A value lookup that succeeds leaves a copy at the nearest node that did not have the
value. It looks that node up in its shortlist, where an answer processed earlier in the
same round may have taken its place. -/
namespace AuthKademlia.Properties
open AuthKademlia.Lib.Shortlist AuthKademlia.Lib.Xor AuthKademlia.Crawling
open AuthKademlia.Crawling.ListedNetwork AuthKademlia.Crawling.QuorumRead AuthKademlia.Utils

/-- The ids that answered without a value. -/
def withoutValue (rs : List Round) : List NodeId :=
  rs.flatMap fun r => (referrals r.answers).map Answer.peer

theorem withoutValue_snoc (rs : List Round) (r : Round) :
    withoutValue (rs ++ [r]) = withoutValue rs ++ (referrals r.answers).map Answer.peer := by
  simp [withoutValue]

/-! ## Nodes still in the shortlist -/

variable {s : SpiderCrawl} {peers : Peers} {target : Node} {k : Nat} {seeds : List Node}
  {alpha : Nat} {rs : List Round}

section Round

variable {asked : List Node} {answers : List Answer} (hw : s.nearest.Wf)
  (hasked : ∀ n ∈ asked, n ∈ s.nearest.toVec)
  (hpeers : ∀ a ∈ answers, a.peer ∈ asked.map Node.id)

include hw hasked hpeers

theorem asked_of_listed {n : Node} (hn : n ∈ ValueFind.listed s answers) :
    n ∈ asked ∧ n.id ∈ answers.map Answer.peer := by
  obtain ⟨before, a, after, rfl, hnode⟩ := ValueFind.mem_listed hn
  have hw' := (SpiderCrawl.mergeAll_same s before).wf hw
  have ha : a ∈ before ++ a :: after := by simp
  obtain ⟨hin, hid⟩ := NodeHeap.getNode_eq_some hw' hnode
  obtain ⟨m, hm, hmid⟩ := List.mem_map.mp (hpeers a ha)
  have hstill : m.id ∈ (s.mergeAll before).nearest.getIds := by
    rw [hmid, ← hid]
    exact List.mem_map_of_mem hin
  have hsame : n = m := List.inj_on_of_nodup_map hw'.getIds_nodup hin
    (SpiderCrawl.mem_mergeAll_of_id hw before (hasked m hm) hstill) (hid.trans hmid.symm)
  exact ⟨hsame ▸ hm, hid ▸ List.mem_map_of_mem ha⟩

theorem listed_eq_nil_iff : ValueFind.listed s answers = [] ↔ answers = [] := by
  cases answers with
  | nil => exact iff_of_true rfl rfl
  | cons a rest =>
    refine iff_of_false ?_ (List.cons_ne_nil a rest)
    obtain ⟨m, hm, hmid⟩ := List.mem_map.mp (hpeers a List.mem_cons_self)
    obtain ⟨n, hn⟩ := NodeHeap.getNode_isSome (x := a.peer) hw
      (hmid ▸ List.mem_map_of_mem (hasked m hm))
    simp [ValueFind.listed, hn]

end Round

/-- A value lookup after the rounds `rs`, with the nodes that it found still in its
shortlist when their answers came. -/
structure Recorded (target : Node) (k : Nat) (start : SpiderCrawl) (c : ValueFind.ValueSpiderCrawl)
    (rs : List Round) : Prop where
  tracks : SpiderCrawl.Tracks target k c.base rs
  replayed : c.base = ValueFind.replay start rs
  without : c.nearestWithoutValue =
    .after target 1 ((ValueFind.stillListed start rs).map NodeHeap.Call.pushOne)
  answered : ∀ n ∈ ValueFind.stillListed start rs, n ∈ askedNodes rs ∧ n.id ∈ withoutValue rs
  nobody : ValueFind.stillListed start rs = [] ↔ withoutValue rs = []

theorem recorded_new (target : Node) (seeds : List Node) (k alpha : Nat) :
    Recorded target k (.new target seeds k alpha) (.new target seeds k alpha) [] where
  tracks := SpiderCrawl.tracks_new target seeds k alpha
  replayed := rfl
  without := rfl
  answered := fun _ hn => absurd hn List.not_mem_nil
  nobody := iff_of_true rfl rfl

/-- **One round records** who is still in the shortlist. -/
theorem Recorded.round (peers : Peers) {c : ValueFind.ValueSpiderCrawl}
    (h : Recorded target k s c rs) :
    Recorded target k s (ValueFind.crawlAfter peers c rs)
      (rs ++ [ValueFind.thisRound peers c rs]) := by
  have hw : (c.base.nextPeers none).2.nearest.Wf := SpiderCrawl.nextPeers_wf h.tracks.wf
  have hasked : ∀ n ∈ (c.base.nextPeers none).1,
      n ∈ (c.base.nextPeers none).2.nearest.toVec := by
    intro n hn
    rw [SpiderCrawl.nextPeers_toVec]
    exact SpiderCrawl.nextPeers_asked_sublist.subset hn
  have hpeers : ∀ a ∈ referrals (ValueFind.thisRound peers c rs).answers,
      a.peer ∈ (c.base.nextPeers none).1.map Node.id := fun a ha =>
    (peers.perm rs _).mem_iff.mp (List.mem_map_of_mem (List.mem_of_mem_filter ha))
  refine ⟨ValueFind.tracks_afterRound peers h.tracks, ValueFind.replay_snoc peers h.replayed,
    ValueFind.withoutAfter_eq peers h.replayed h.without, fun n hn => ?_, ?_⟩
  · rw [ValueFind.stillListed_snoc, ← h.replayed] at hn
    rw [askedNodes_snoc, withoutValue_snoc]
    rcases List.mem_append.mp hn with hold | hnew
    · obtain ⟨h₁, h₂⟩ := h.answered n hold
      exact ⟨List.mem_append_left _ h₁, List.mem_append_left _ h₂⟩
    · obtain ⟨h₁, h₂⟩ := asked_of_listed hw hasked hpeers hnew
      exact ⟨List.mem_append_right _ h₁, List.mem_append_right _ h₂⟩
  · rw [ValueFind.stillListed_snoc, ← h.replayed, withoutValue_snoc, List.append_eq_nil_iff,
      List.append_eq_nil_iff, h.nobody, List.map_eq_nil_iff,
      listed_eq_nil_iff hw hasked hpeers]

/-! ## The copy -/

/-- **A lookup that finds a value leaves a copy** if somebody answered without one. The
copy goes to one of them, and to the closest of all exactly if that node was still in
the shortlist when its answer was merged. -/
theorem copy_left_closest (peers : Peers) (target : Node) (seeds : List Node)
    (k alpha fuel : Nat) (result : ValueFind.FindEnd)
    (h : ValueFind.find peers fuel (.new target seeds k alpha) [] = some result)
    (hfound : result.value ≠ none) :
    (result.storedAt = none ↔ withoutValue result.rounds = []) ∧
    (∀ n, result.storedAt = some n →
      n ∈ askedNodes result.rounds ∧ n.id ∈ withoutValue result.rounds) ∧
    ∀ x ∈ withoutValue result.rounds,
      (∀ y ∈ withoutValue result.rounds, distTo target.longId x ≤ distTo target.longId y) →
      (result.storedAt.map Node.id = some x ↔
        x ∈ (ValueFind.stillListed (.new target seeds k alpha) result.rounds).map Node.id) := by
  obtain ⟨c, hrec, hstored⟩ := ValueFind.find_induct (recorded_new target seeds k alpha)
    (fun c rs h => h.round peers) h
  rw [hstored hfound, hrec.without]
  obtain ⟨hnone, hclosest⟩ := NodeHeap.popleft_pushOne target
    (ValueFind.stillListed (.new target seeds k alpha) result.rounds)
  refine ⟨hnone.trans hrec.nobody, fun n hn => hrec.answered n (hclosest n hn).1,
    fun x hx hleast => ⟨fun hid => ?_, fun hlisted => ?_⟩⟩
  · obtain ⟨n, hn, rfl⟩ := Option.map_eq_some_iff.mp hid
    exact List.mem_map_of_mem (hclosest n hn).1
  · obtain ⟨m, hm, rfl⟩ := List.mem_map.mp hlisted
    obtain ⟨n, hn⟩ := Option.ne_none_iff_exists'.mp fun hno =>
      List.ne_nil_of_mem hm (hnone.mp hno)
    obtain ⟨hmem, hle⟩ := hclosest n hn
    rw [hn, Option.map_some]
    refine congrArg some (distTo_injective target.longId (Nat.le_antisymm (hle m hm) ?_))
    exact hleast n.id (hrec.answered n hmem).2

/-- `0x30` has the value, `0x20` reports three closer nodes, and `0x10` knows nobody. -/
def oneHolder (id : NodeId) : RawResponse :=
  if id = filledId 0x30 then ⟨true, .value [7]⟩
  else if id = filledId 0x20 then
    ⟨true, .nodes ([1, 2, 3].map fun b => ((filledId b).bytes, none, none))⟩
  else ⟨true, .nodes []⟩

/-- A lookup of `0` with three nodes, which are asked at once. -/
def askedAtOnce : ValueFind.ValueSpiderCrawl :=
  .new (.fromId (filledId 0)) ([0x10, 0x20, 0x30].map fun b => .fromId (filledId b)) 3 3

/-- The answers are merged in the order asked: the copy goes to `0x10`. -/
theorem copy_left_closest_inOrder : ∃ result,
    ValueFind.find (.scripted oneHolder) 1 askedAtOnce [] = some result ∧
    result.value = some [7] ∧ filledId 0x10 ∈ withoutValue result.rounds ∧
    result.storedAt.map Node.id = some (filledId 0x10) := by
  have hrun : ∃ result ∈ ValueFind.find (.scripted oneHolder) 1 askedAtOnce [],
      result.value = some [7] ∧ filledId 0x10 ∈ withoutValue result.rounds ∧
      (∀ y ∈ withoutValue result.rounds, distTo (Node.fromId (filledId 0)).longId (filledId 0x10) ≤
        distTo (Node.fromId (filledId 0)).longId y) ∧
      filledId 0x10 ∈ (ValueFind.stillListed askedAtOnce.base result.rounds).map Node.id := by
    decide +kernel
  obtain ⟨result, hfind, hvalue, hwithout, hleast, hlisted⟩ := hrun
  obtain ⟨-, -, hclosest⟩ := copy_left_closest (.scripted oneHolder) (.fromId (filledId 0))
    ([0x10, 0x20, 0x30].map fun b => .fromId (filledId b)) 3 3 1 result hfind
    (by rw [hvalue]; exact Option.some_ne_none _)
  exact ⟨result, hfind, hvalue, hwithout, (hclosest _ hwithout hleast).mpr hlisted⟩

/-- **The copy goes to a node that is farther.** The answer of `0x20` is merged before that
of `0x10`, which is no longer in the shortlist then. -/
theorem copy_left_farther : ∃ result,
    ValueFind.find (backwards oneHolder) 1 askedAtOnce [] = some result ∧
    result.value = some [7] ∧ result.storedAt = some (.fromId (filledId 0x20)) ∧
    filledId 0x10 ∈ withoutValue result.rounds ∧
    distTo (Node.fromId (filledId 0)).longId (filledId 0x10) <
      distTo (Node.fromId (filledId 0)).longId (filledId 0x20) := by
  refine ⟨_, rfl, ?_, ?_, ?_, ?_⟩ <;> decide

end AuthKademlia.Properties
