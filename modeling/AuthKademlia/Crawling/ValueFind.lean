import AuthKademlia.Crawling.QuorumRead

/-! # The value lookup

`ValueSpiderCrawl::find` asks in rounds until somebody returns a value or nobody is
left to ask. Of the values of one round it takes the one with a strict majority, and
stores it at the nearest node that answered without one. It ends against any peers
(`find_returns`); `find_ended` is the rule for what holds of the lookup along its
rounds and at its end. -/
namespace AuthKademlia.Crawling.ValueFind
open AuthKademlia.Crawling.QuorumRead AuthKademlia.Utils

/-- `ValueSpiderCrawl`: the lookup, and the nearest node that did not have the value. -/
structure ValueSpiderCrawl where
  base : SpiderCrawl
  nearestWithoutValue : NodeHeap

def ValueSpiderCrawl.new (node : Node) (peers : List Node) (ksize alpha : Nat) :
    ValueSpiderCrawl :=
  ⟨.new node peers ksize alpha, .new node 1⟩

/-- What the loop over the answers of a round keeps. -/
structure Merge where
  crawl : ValueSpiderCrawl
  foundValues : List Bytes
  toRemove : List NodeId

/-- The body of the loop over the answers of a round. -/
def mergeFind (m : Merge) (a : Answer) : Merge :=
  if !a.raw.happened then { m with toRemove := m.toRemove ++ [a.peer] }
  else if a.raw.hasValue then
    match a.raw.getValue with
    | some value => { m with foundValues := m.foundValues ++ [value] }
    | none => m
  else
    let without := match m.crawl.base.nearest.getNode a.peer with
      | some peer => m.crawl.nearestWithoutValue.pushOne peer
      | none => m.crawl.nearestWithoutValue
    { m with crawl := ⟨m.crawl.base.addReported a.failing a.raw.getNodeList, without⟩ }

/-- What a lookup returns: the value or the nodes found, where the value is stored on
the way (`call_store`), and its rounds. -/
structure FindEnd where
  value : Option Bytes
  nodes : LookupNodes
  storedAt : Option Node
  rounds : List Round

/-- `ValueSpiderCrawl::find` after the rounds `rs`; at most `fuel` further rounds. -/
def find (peers : Peers) : Nat → ValueSpiderCrawl → List Round → Option FindEnd
  | 0, _, _ => none
  | fuel + 1, c, rs =>
    let (asked, s) := c.base.nextPeers none
    let answers := peers.answers rs asked
    let m := answers.foldl mergeFind ⟨{ c with base := s }, [], []⟩
    let s := m.crawl.base.removeFailed m.toRemove
    let rs := rs ++ [⟨asked, answers⟩]
    if m.foundValues ≠ [] then
      match strictQuorumValue m.foundValues 1 with
      | none => some ⟨none, s.lookupNodes, none, rs⟩
      | some value =>
        some ⟨some value, ⟨[], 0⟩, m.crawl.nearestWithoutValue.popleft.1, rs⟩
    else if s.nearest.haveContactedAll then some ⟨none, s.lookupNodes, none, rs⟩
    else find peers fuel ⟨s, m.crawl.nearestWithoutValue⟩ rs

variable {peers : Peers} {fuel k : Nat} {target : Node} {c : ValueSpiderCrawl} {rs : List Round}

theorem foldl_mergeFind (answers : List Answer) (m : Merge) :
    (answers.foldl mergeFind m).crawl.base = m.crawl.base.mergeAll (referrals answers) ∧
      (answers.foldl mergeFind m).toRemove = m.toRemove ++ silent answers ∧
      (answers.foldl mergeFind m).foundValues = m.foundValues ++ answers.filterMap vote := by
  induction answers generalizing m with
  | nil => simp [referrals, silent, SpiderCrawl.mergeAll]
  | cons a as ih =>
    rw [List.foldl_cons]
    obtain ⟨hbase, hremove, hfound⟩ := ih (mergeFind m a)
    rw [hbase, hremove, hfound, mergeFind, RawResponse.hasValue_eq]
    cases hh : a.raw.happened with
    | false => simp [hh, referrals, silent, vote]
    | true =>
      cases hv : a.raw.getValue with
      | none => simp [hh, hv, referrals, silent, vote]
      | some value => simp [hh, hv, referrals, silent, vote]

def afterRound (peers : Peers) (c : ValueSpiderCrawl) (rs : List Round) : SpiderCrawl :=
  let answers := peers.answers rs (c.base.nextPeers none).1
  ((c.base.nextPeers none).2.mergeAll (referrals answers)).removeFailed (silent answers)

def replay (s : SpiderCrawl) (rs : List Round) : SpiderCrawl :=
  rs.foldl (fun s r => ((s.nextPeers none).2.mergeAll (referrals r.answers)).removeFailed
    (silent r.answers)) s

def thisRound (peers : Peers) (c : ValueSpiderCrawl) (rs : List Round) : Round :=
  ⟨(c.base.nextPeers none).1, peers.answers rs (c.base.nextPeers none).1⟩

theorem replay_snoc (peers : Peers) {s : SpiderCrawl} (h : c.base = replay s rs) :
    afterRound peers c rs = replay s (rs ++ [thisRound peers c rs]) := by
  have hlast : c.base = rs.foldl _ s := h
  rw [replay, List.foldl_append, ← hlast]
  rfl

/-- The values received in the round just taken. -/
def theseValues (peers : Peers) (c : ValueSpiderCrawl) (rs : List Round) : List Bytes :=
  (thisRound peers c rs).answers.filterMap vote

/-- The nearest node without the value after the round just taken. -/
def withoutAfter (peers : Peers) (c : ValueSpiderCrawl) (rs : List Round) : NodeHeap :=
  ((peers.answers rs (c.base.nextPeers none).1).foldl mergeFind
    ⟨{ c with base := (c.base.nextPeers none).2 }, [], []⟩).crawl.nearestWithoutValue

/-- The lookup after the round just taken. -/
def crawlAfter (peers : Peers) (c : ValueSpiderCrawl) (rs : List Round) : ValueSpiderCrawl :=
  ⟨afterRound peers c rs, withoutAfter peers c rs⟩

/-- **A turn of the loop** ends with the rounds so far, or goes on because nobody
returned a value and somebody is left to ask. When it ends without a value, it hands
over its shortlist, and unless a value was received everybody in it was asked; when it
ends with one, it stores it at the nearest node without. -/
theorem find_succ (peers : Peers) (c : ValueSpiderCrawl) (rs : List Round) :
    (∃ result : FindEnd, result.rounds = rs ++ [thisRound peers c rs] ∧
      (result.value = none → result.nodes = (afterRound peers c rs).lookupNodes) ∧
      (result.value ≠ none → result.storedAt = (withoutAfter peers c rs).popleft.1) ∧
      (theseValues peers c rs = [] →
        (afterRound peers c rs).nearest.haveContactedAll = true) ∧
      ∀ fuel, find peers (fuel + 1) c rs = some result) ∨
    ((afterRound peers c rs).nearest.haveContactedAll = false ∧
      ∀ fuel, find peers (fuel + 1) c rs =
        find peers fuel (crawlAfter peers c rs) (rs ++ [thisRound peers c rs])) := by
  obtain ⟨hbase, hremove, hvalues⟩ := foldl_mergeFind (peers.answers rs (c.base.nextPeers none).1)
    ⟨{ c with base := (c.base.nextPeers none).2 }, [], []⟩
  simp only [find, crawlAfter, withoutAfter]
  generalize List.foldl mergeFind _ _ = m at hbase hremove hvalues ⊢
  have hs : m.crawl.base.removeFailed m.toRemove = afterRound peers c rs := by
    rw [hbase, hremove, List.nil_append]
    rfl
  have hvalues : m.foundValues = theseValues peers c rs := hvalues
  rw [hs, hvalues]
  by_cases hfound : theseValues peers c rs ≠ []
  · left
    simp only [if_pos hfound]
    cases strictQuorumValue (theseValues peers c rs) 1 with
    | none =>
      exact ⟨_, rfl, fun _ => rfl, fun hsome => absurd rfl hsome, fun hno => absurd hno hfound,
        fun _ => rfl⟩
    | some value =>
      exact ⟨_, rfl, fun hno => by (cases hno), fun _ => rfl, fun hno => absurd hno hfound,
        fun _ => rfl⟩
  · simp only [if_neg hfound]
    cases hall : (afterRound peers c rs).nearest.haveContactedAll with
    | true =>
      exact Or.inl ⟨_, rfl, fun _ => rfl, fun hsome => absurd rfl hsome, fun _ => rfl, fun _ => rfl⟩
    | false => exact Or.inr ⟨rfl, fun _ => rfl⟩

theorem tracks_afterRound (peers : Peers) (ht : SpiderCrawl.Tracks target k c.base rs) :
    SpiderCrawl.Tracks target k (afterRound peers c rs) (rs ++ [thisRound peers c rs]) :=
  ht.round none _

/-- **Every value lookup ends**, whatever the peers answer. -/
theorem find_returns (peers : Peers) (ht : SpiderCrawl.Tracks target k c.base rs) :
    ∃ fuel result, find peers fuel c rs = some result := by
  induction hb : c.base.budget rs using Nat.strong_induction_on generalizing c rs with
  | _ b ih =>
    rcases find_succ peers c rs with ⟨result, -, -, -, -, heq⟩ | ⟨hall, heq⟩
    · exact ⟨1, result, heq 0⟩
    · have hlt : (afterRound peers c rs).budget (rs ++ [thisRound peers c rs]) < c.base.budget rs :=
        ht.budget_before (by simp) (peers.perm rs _) (fun _ ha => List.mem_of_mem_filter ha) hall
      obtain ⟨fuel, result, h⟩ := ih _ (hb ▸ hlt) (c := crawlAfter peers c rs)
        (tracks_afterRound peers ht) rfl
      exact ⟨fuel + 1, result, (heq fuel).trans h⟩

theorem find_rounds {result : FindEnd} (ht : SpiderCrawl.Tracks target k c.base rs)
    (hp : SpiderCrawl.Pace c.base rs) (hall : rs ≠ [] → c.base.nearest.haveContactedAll = false)
    (h : find peers fuel c rs = some result) :
    (askedIds result.rounds).Nodup ∧ Paced result.rounds := by
  induction fuel generalizing c rs with
  | zero => cases h
  | succ fuel ih =>
    have ht' := tracks_afterRound peers ht
    have hp' : SpiderCrawl.Pace (afterRound peers c rs) (rs ++ [thisRound peers c rs]) :=
      hp.round ht.wf (by simp) (peers.perm rs _) (fun _ ha => List.mem_of_mem_filter ha) hall
    rcases find_succ peers c rs with ⟨result', hrounds, -, -, -, heq⟩ | ⟨hleft, heq⟩
    · cases (heq fuel).symm.trans h
      rw [hrounds]
      exact ⟨ht'.once, hp'.paced⟩
    · exact ih (c := crawlAfter peers c rs) ht' hp' (fun _ => hleft)
        ((heq fuel).symm.trans h)

/-- **Run rule.** What holds of the lookup and its rounds initially, and is kept by
every round, holds before its last round. A lookup without a value hands over the
shortlist after that round; if the round brought no value, everybody in the shortlist was
asked. One with a value stores it at the nearest node without. -/
theorem find_ended {I : ValueSpiderCrawl → List Round → Prop} {result : FindEnd} (h₀ : I c rs)
    (hstep : ∀ c rs, I c rs → I (crawlAfter peers c rs) (rs ++ [thisRound peers c rs]))
    (h : find peers fuel c rs = some result) :
    ∃ c' rs', I c' rs' ∧ result.rounds = rs' ++ [thisRound peers c' rs'] ∧
      (result.value = none → result.nodes = (afterRound peers c' rs').lookupNodes) ∧
      (result.value ≠ none → result.storedAt = (withoutAfter peers c' rs').popleft.1) ∧
      (theseValues peers c' rs' = [] →
        (afterRound peers c' rs').nearest.haveContactedAll = true) := by
  induction fuel generalizing c rs with
  | zero => cases h
  | succ fuel ih =>
    rcases find_succ peers c rs with ⟨result', hrounds, hnodes, hstored, hall, heq⟩ | ⟨-, heq⟩
    · cases (heq fuel).symm.trans h
      exact ⟨c, rs, h₀, hrounds, hnodes, hstored, hall⟩
    · exact ih (hstep c rs h₀) ((heq fuel).symm.trans h)

theorem find_induct {I : ValueSpiderCrawl → List Round → Prop} {result : FindEnd} (h₀ : I c rs)
    (hstep : ∀ c rs, I c rs → I (crawlAfter peers c rs) (rs ++ [thisRound peers c rs]))
    (h : find peers fuel c rs = some result) :
    ∃ c' : ValueSpiderCrawl, I c' result.rounds ∧
      (result.value ≠ none → result.storedAt = c'.nearestWithoutValue.popleft.1) := by
  obtain ⟨c', rs', hI, hrounds, -, hstored, -⟩ := find_ended h₀ hstep h
  exact ⟨crawlAfter peers c' rs', hrounds ▸ hstep c' rs' hI, hstored⟩

/-! ## Nodes that answered without a value -/

/-- Of the nodes that answered without a value, those that are still in the shortlist
when their answer is merged. -/
def listed : SpiderCrawl → List Answer → List Node
  | _, [] => []
  | s, a :: rest =>
    (s.nearest.getNode a.peer).toList ++ listed (s.addReported a.failing a.raw.getNodeList) rest

theorem mem_listed {n : Node} : ∀ {answers : List Answer} {s : SpiderCrawl},
    n ∈ listed s answers → ∃ before a after, answers = before ++ a :: after ∧
      (s.mergeAll before).nearest.getNode a.peer = some n
  | a :: rest, s, hn => by
    rcases List.mem_append.mp hn with hn | hn
    · exact ⟨[], a, rest, rfl, Option.mem_toList.mp hn⟩
    · obtain ⟨before, b, after, rfl, hb⟩ := mem_listed hn
      exact ⟨a :: before, b, after, rfl, hb⟩

/-- The same over the rounds of a lookup. -/
def stillListed : SpiderCrawl → List Round → List Node
  | _, [] => []
  | s, r :: rest => listed (s.nextPeers none).2 (referrals r.answers) ++
      stillListed (replay s [r]) rest

theorem stillListed_snoc (r : Round) : ∀ (rs : List Round) (s : SpiderCrawl),
    stillListed s (rs ++ [r]) =
      stillListed s rs ++ listed ((replay s rs).nextPeers none).2 (referrals r.answers)
  | [], s => by simp [stillListed, replay]
  | r' :: rs, s => by
    rw [List.cons_append, stillListed, stillListed_snoc r rs, stillListed, List.append_assoc]
    rfl

theorem foldl_mergeFind_without (answers : List Answer) (m : Merge) :
    (answers.foldl mergeFind m).crawl.nearestWithoutValue =
      (listed m.crawl.base (referrals answers)).foldl NodeHeap.pushOne
        m.crawl.nearestWithoutValue := by
  induction answers generalizing m with
  | nil => rfl
  | cons a as ih =>
    rw [List.foldl_cons, ih (mergeFind m a), mergeFind, RawResponse.hasValue_eq]
    cases hh : a.raw.happened with
    | false => simp [hh, referrals]
    | true =>
      cases hv : a.raw.getValue with
      | some value => simp [hh, hv, referrals]
      | none =>
        have hreferrals : referrals (a :: as) = a :: referrals as := by simp [hh, hv, referrals]
        rw [hreferrals, listed, List.foldl_append]
        cases m.crawl.base.nearest.getNode a.peer <;> rfl

/-- **What is recorded along a lookup.** -/
theorem withoutAfter_eq (peers : Peers) {s : SpiderCrawl} (h : c.base = replay s rs)
    (hwithout : c.nearestWithoutValue =
      .after target 1 ((stillListed s rs).map NodeHeap.Call.pushOne)) :
    withoutAfter peers c rs = .after target 1
      ((stillListed s (rs ++ [thisRound peers c rs])).map NodeHeap.Call.pushOne) := by
  rw [withoutAfter, foldl_mergeFind_without, hwithout, stillListed_snoc, ← h, List.map_append]
  unfold NodeHeap.after
  rw [List.foldl_append, List.foldl_map, List.foldl_map]
  rfl

end AuthKademlia.Crawling.ValueFind
