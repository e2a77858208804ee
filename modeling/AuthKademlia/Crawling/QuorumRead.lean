import Mathlib.Data.List.AList
import Mathlib.Data.List.Dedup
import AuthKademlia.Crawling.Rounds
import AuthKademlia.Lib.Quorum
import AuthKademlia.Lib.Splits

/-! # The read of a quorum of identical copies

`find_quorum` collects at most `maximum_votes` copies, the local one included,
and returns a copy that enough of them agree with. It ends against any peers
(`findQuorum_returns`), it returns what a strict majority of the copies collected
agrees on, if there is such a majority (`strictQuorumValue_eq`), and
`findQuorum_induct` is the rule for what holds of the copies along its rounds. -/
namespace AuthKademlia.Crawling.QuorumRead
open AuthKademlia.Lib.Shortlist AuthKademlia.Lib.Quorum AuthKademlia.Lib.Splits
open AuthKademlia.Utils

/-- Return the value with strictly the most votes, if it has enough of them. -/
def strictQuorumValue (values : List Bytes) (minimumVotes : Nat) : Option Bytes :=
  let counts := values.dedup.map fun v => (v, values.count v)
  let required := max minimumVotes (values.length / 2 + 1)
  match (counts.map Prod.snd).max? with
  | none => none
  | some highest =>
    if highest < required then none
    else match counts.filter fun c => c.2 = highest with
      | [(winner, _)] => some winner
      | _ => none

/-- The body of the loop over the answers of a round: the state, the copies found
and the peers to remove. -/
def mergeVote (acc : SpiderCrawl × List Bytes × List NodeId) (a : Answer) :
    SpiderCrawl × List Bytes × List NodeId :=
  let (s, found, toRemove) := acc
  if !a.raw.happened then (s, found, toRemove ++ [a.peer])
  else match a.raw.getValue with
    | some value => (s, found ++ [value], toRemove)
    | none => (s.addReported a.failing a.raw.getNodeList, found, toRemove)

/-- `ValueSpiderCrawl::find_quorum` from the state `s` after the rounds `rs`; at
most `fuel` further turns of the loop. The result comes with all rounds. -/
def findQuorum (peers : Peers) (minimumVotes maximumVotes : Nat) :
    Nat → SpiderCrawl → List Bytes → List Round → Option (Option Bytes × List Round)
  | 0, _, _, _ => none
  | fuel + 1, s, foundValues, rs =>
    match strictQuorumValue foundValues minimumVotes with
    | some value => some (some value, rs)
    | none =>
      let remainingVotes := maximumVotes - foundValues.length
      if remainingVotes = 0 || s.nearest.haveContactedAll then some (none, rs)
      else
        let (asked, s) := s.nextPeers (some remainingVotes)
        let answers := peers.answers rs asked
        let (s, foundValues, toRemove) := answers.foldl mergeVote (s, foundValues, [])
        findQuorum peers minimumVotes maximumVotes fuel (s.removeFailed toRemove) foundValues
          (rs ++ [⟨asked, answers⟩])

def vote (a : Answer) : Option Bytes := if a.raw.happened then a.raw.getValue else none

/-- The answers that report closer nodes instead of a copy. -/
def referrals (answers : List Answer) : List Answer :=
  answers.filter fun a => a.raw.happened && a.raw.getValue.isNone

variable {peers : Peers} {minimumVotes maximumVotes fuel : Nat} {s : SpiderCrawl}
  {found : List Bytes} {rs out : List Round} {v : Bytes} {r : Option Bytes}
  {target : Node} {k alpha : Nat}

/-! ## Counting votes -/

/-- How `strict_quorum_value` ends. -/
inductive QuorumEnd where
  | noVotes
  | tooFew
  | noWinner
  /-- Two values with the same support. -/
  | tied
  | winner (value : Bytes)
  deriving DecidableEq

def QuorumEnd.value : QuorumEnd → Option Bytes
  | .winner value => some value
  | .noVotes | .tooFew | .noWinner | .tied => none

/-- `strict_quorum_value` on the entries of its hash map: it iterates over them once for
the maximum, as `seen`, and once for the winners, as `drained`. -/
def strictQuorumEnd (required : Nat) (seen drained : List (Bytes × Nat)) : QuorumEnd :=
  match (seen.map Prod.snd).max? with
  | none => .noVotes
  | some highest =>
    if highest < required then .tooFew
    else match drained.filter fun c => c.2 = highest with
      | [] => .noWinner
      | [c] => .winner c.1
      | _ :: _ :: _ => .tied

/-- The loop that counts: `*counts.entry(value).or_insert(0) += 1`. -/
def voteCounts (values : List Bytes) : AList fun _ : Bytes => Nat :=
  values.foldl (fun counts v => counts.insert v ((counts.lookup v).getD 0 + 1)) ∅

/-- The entries of the hash map, in one order. -/
def voteEntries (values : List Bytes) : List (Bytes × Nat) :=
  (voteCounts values).entries.map fun e => (e.1, e.2)

/-- The list has one entry for each value, with its votes. -/
structure Tally (values : List Bytes) (counts : List (Bytes × Nat)) : Prop where
  nodup : counts.Nodup
  mem : ∀ c, c ∈ counts ↔ c.1 ∈ values ∧ c.2 = values.count c.1

theorem voteCounts_snoc (values : List Bytes) (v : Bytes) :
    voteCounts (values ++ [v]) =
      (voteCounts values).insert v (((voteCounts values).lookup v).getD 0 + 1) := by
  rw [voteCounts, List.foldl_append]
  rfl

theorem lookup_voteCounts (values : List Bytes) (v : Bytes) :
    (voteCounts values).lookup v = if v ∈ values then some (values.count v) else none := by
  induction values using List.reverseRecOn with
  | nil => simp [voteCounts]
  | append_singleton values w ih =>
    rw [voteCounts_snoc]
    by_cases hw : v = w
    · subst hw
      have hcount : ((voteCounts values).lookup v).getD 0 = values.count v := by
        rw [ih]
        split
        · rfl
        · exact (List.count_eq_zero.mpr ‹_›).symm
      rw [AList.lookup_insert]
      simp only [List.mem_append, List.mem_singleton, or_true, if_true, List.count_append,
        List.count_singleton_self]
      exact congrArg (fun n => some (n + 1)) hcount
    · rw [AList.lookup_insert_ne hw]
      simpa [hw, List.count_append, Ne.symm hw] using ih

theorem tally_voteEntries (values : List Bytes) : Tally values (voteEntries values) where
  nodup := by
    refine (voteCounts values).nodupKeys.nodup.map ?_
    intro e e' he
    obtain ⟨hv, hn⟩ := Prod.mk.inj he
    exact Sigma.ext hv (heq_of_eq hn)
  mem := by
    intro c
    have hmem : c ∈ voteEntries values ↔ (voteCounts values).lookup c.1 = some c.2 := by
      rw [← Option.mem_def, AList.mem_lookup_iff, voteEntries, List.mem_map]
      constructor
      · rintro ⟨e, he, rfl⟩
        exact he
      · exact fun hc => ⟨_, hc, rfl⟩
    rw [hmem, lookup_voteCounts]
    split
    · simp [*, eq_comm]
    · simp [*]

theorem tally_dedup (values : List Bytes) :
    Tally values (values.dedup.map fun v => (v, values.count v)) where
  nodup := values.nodup_dedup.map fun _ _ he => (Prod.mk.inj he).1
  mem := by
    intro c
    rw [List.mem_map]
    constructor
    · rintro ⟨v, hv, rfl⟩
      exact ⟨List.mem_dedup.mp hv, rfl⟩
    · rintro ⟨hv, hn⟩
      exact ⟨c.1, List.mem_dedup.mpr hv, Prod.ext rfl hn.symm⟩

section
variable {counts seen drained : List (Bytes × Nat)} {required : Nat}

theorem Tally.perm (h : Tally found counts) {found' : List Bytes} (hfound : found'.Perm found)
    (hseen : seen.Perm counts) : Tally found' seen where
  nodup := hseen.nodup_iff.mpr h.nodup
  mem := by
    intro c
    rw [hseen.mem_iff, h.mem, hfound.mem_iff, hfound.count_eq]

theorem eq_of_count_le (hv : found.length / 2 + 1 ≤ found.count v) {w : Bytes}
    (hw : found.count v ≤ found.count w) : w = v := by
  obtain ⟨x, -, hxv, hxw⟩ := majorities_meet (List.Perm.refl found) hv (Nat.le_trans hv hw)
  exact (beq_iff_eq.mp hxw).symm.trans (beq_iff_eq.mp hxv)

theorem Tally.max?_eq (h : Tally found counts) (hv : found.length / 2 + 1 ≤ found.count v) :
    (counts.map Prod.snd).max? = some (found.count v) := by
  have hmem : v ∈ found := List.count_pos_iff.mp (by omega)
  rw [List.max?_eq_some_iff]
  refine ⟨List.mem_map.mpr ⟨(v, found.count v), (h.mem _).mpr ⟨hmem, rfl⟩, rfl⟩, ?_⟩
  intro n hn
  obtain ⟨c, hc, rfl⟩ := List.mem_map.mp hn
  rw [((h.mem c).mp hc).2]
  by_contra hlt
  have hle : found.count v ≤ found.count c.1 := Nat.le_of_lt (Nat.lt_of_not_le hlt)
  exact hlt (Nat.le_of_eq (congrArg found.count (eq_of_count_le hv hle)))

theorem Tally.filter_eq (h : Tally found counts) (hv : found.length / 2 + 1 ≤ found.count v) :
    (counts.filter fun c => c.2 = found.count v) = [(v, found.count v)] := by
  have hmem : v ∈ found := List.count_pos_iff.mp (by omega)
  refine List.perm_singleton.mp ?_
  rw [List.perm_ext_iff_of_nodup (h.nodup.filter _) (List.nodup_singleton _)]
  intro c
  rw [List.mem_filter, h.mem, List.mem_singleton, decide_eq_true_eq]
  constructor
  · rintro ⟨⟨-, hn⟩, hmost⟩
    exact Prod.ext (eq_of_count_le hv (by omega)) hmost
  · rintro rfl
    exact ⟨⟨hmem, rfl⟩, rfl⟩

theorem strictQuorumEnd_winner (hseen : Tally found seen) (hdrained : Tally found drained)
    (hhalf : found.length / 2 + 1 ≤ required) (hv : required ≤ found.count v) :
    strictQuorumEnd required seen drained = .winner v := by
  have hmajority := Nat.le_trans hhalf hv
  simp only [strictQuorumEnd, hseen.max?_eq hmajority, if_neg (Nat.not_lt.mpr hv),
    hdrained.filter_eq hmajority]

/-- If nothing has them, there is no vote at all or the most votes are too few. -/
theorem strictQuorumEnd_none (hseen : Tally found seen)
    (hnone : ∀ v, found.count v < required) :
    strictQuorumEnd required seen drained = .noVotes ∨
      strictQuorumEnd required seen drained = .tooFew := by
  unfold strictQuorumEnd
  cases hmax : (seen.map Prod.snd).max? with
  | none => exact Or.inl rfl
  | some highest =>
    right
    obtain ⟨c, hc, rfl⟩ := List.mem_map.mp (List.max?_eq_some_iff.mp hmax).1
    have hlt : c.2 < required := ((hseen.mem c).mp hc).2 ▸ hnone c.1
    simp only [if_pos hlt]

/-- **The winner** of a count is the value that has the votes required. -/
theorem strictQuorumEnd_value (hseen : Tally found seen) (hdrained : Tally found drained)
    (hhalf : found.length / 2 + 1 ≤ required) :
    (strictQuorumEnd required seen drained).value = some v ↔ required ≤ found.count v := by
  constructor
  · intro h
    by_contra hfew
    by_cases hsome : ∃ w, required ≤ found.count w
    · obtain ⟨w, hw⟩ := hsome
      rw [strictQuorumEnd_winner hseen hdrained hhalf hw] at h
      exact hfew (Option.some.inj h ▸ hw)
    · have hnone : ∀ w, found.count w < required := fun w =>
        Nat.lt_of_not_le fun hw => hsome ⟨w, hw⟩
      have hend : strictQuorumEnd required seen drained = .noVotes ∨
          strictQuorumEnd required seen drained = .tooFew := strictQuorumEnd_none hseen hnone
      rcases hend with he | he <;> rw [he] at h <;> cases h
  · intro hv
    rw [strictQuorumEnd_winner hseen hdrained hhalf hv]
    rfl

theorem strictQuorumEnd_not_tied (hseen : Tally found seen) (hdrained : Tally found drained)
    (hhalf : found.length / 2 + 1 ≤ required) :
    strictQuorumEnd required seen drained ≠ .tied ∧
      strictQuorumEnd required seen drained ≠ .noWinner := by
  by_cases hsome : ∃ w, required ≤ found.count w
  · obtain ⟨w, hw⟩ := hsome
    rw [strictQuorumEnd_winner hseen hdrained hhalf hw]
    exact ⟨QuorumEnd.noConfusion, QuorumEnd.noConfusion⟩
  · have hnone : ∀ w, found.count w < required := fun w =>
      Nat.lt_of_not_le fun hw => hsome ⟨w, hw⟩
    have hend : strictQuorumEnd required seen drained = .noVotes ∨
        strictQuorumEnd required seen drained = .tooFew := strictQuorumEnd_none hseen hnone
    rcases hend with he | he
    all_goals
      rw [he]
      exact ⟨QuorumEnd.noConfusion, QuorumEnd.noConfusion⟩

end

/-- The count of `strictQuorumValue` is one such count. -/
theorem strictQuorumValue_eq_end (values : List Bytes) (minimumVotes : Nat) :
    strictQuorumValue values minimumVotes =
      (strictQuorumEnd (max minimumVotes (values.length / 2 + 1))
        (values.dedup.map fun v => (v, values.count v))
        (values.dedup.map fun v => (v, values.count v))).value := by
  unfold strictQuorumValue strictQuorumEnd
  dsimp only
  split
  · rfl
  · split
    · rfl
    · split <;> rename_i hwinners
      · rw [hwinners]
        rfl
      · split <;> rename_i hw
        · rfl
        · exact absurd hw (hwinners _ _)
        · rfl

/-- **The winner** is the value that has the votes required. -/
theorem strictQuorumValue_eq : strictQuorumValue found minimumVotes = some v ↔
    max minimumVotes (found.length / 2 + 1) ≤ found.count v := by
  rw [strictQuorumValue_eq_end]
  exact strictQuorumEnd_value (tally_dedup found) (tally_dedup found) (Nat.le_max_right _ _)

theorem strictQuorumValue_some (h : strictQuorumValue found minimumVotes = some v) :
    max minimumVotes (found.length / 2 + 1) ≤ found.count v :=
  strictQuorumValue_eq.mp h

/-! ## One round -/

theorem foldl_mergeVote (answers : List Answer) (s : SpiderCrawl) (found : List Bytes)
    (toRemove : List NodeId) :
    answers.foldl mergeVote (s, found, toRemove) =
      (s.mergeAll (referrals answers), found ++ answers.filterMap vote,
        toRemove ++ silent answers) := by
  induction answers generalizing s found toRemove with
  | nil => simp [referrals, silent, SpiderCrawl.mergeAll]
  | cons a as ih =>
    rw [List.foldl_cons, mergeVote]
    cases hh : a.raw.happened with
    | false => simp [hh, ih, referrals, silent, vote]
    | true =>
      cases hv : a.raw.getValue with
      | none => simp [hh, hv, ih, referrals, silent, vote]
      | some value => simp [hh, hv, ih, referrals, silent, vote]

/-- Whom the next round asks, when `found` copies have been collected. -/
def asks (maximumVotes : Nat) (s : SpiderCrawl) (found : List Bytes) : List Node :=
  (s.nextPeers (some (maximumVotes - found.length))).1

def replies (peers : Peers) (maximumVotes : Nat) (s : SpiderCrawl) (found : List Bytes)
    (rs : List Round) : List Answer :=
  peers.answers rs (asks maximumVotes s found)

def afterRound (peers : Peers) (maximumVotes : Nat) (s : SpiderCrawl) (found : List Bytes)
    (rs : List Round) : SpiderCrawl :=
  let answers := replies peers maximumVotes s found rs
  ((s.nextPeers (some (maximumVotes - found.length))).2.mergeAll (referrals answers)).removeFailed
    (silent answers)

def thisRound (peers : Peers) (maximumVotes : Nat) (s : SpiderCrawl) (found : List Bytes)
    (rs : List Round) : Round :=
  ⟨asks maximumVotes s found, replies peers maximumVotes s found rs⟩

/-- The loop stops: it has all the copies it may collect, or nobody is left to ask. -/
def exhausted (maximumVotes : Nat) (s : SpiderCrawl) (found : List Bytes) : Bool :=
  maximumVotes - found.length = 0 || s.nearest.haveContactedAll

theorem findQuorum_succ (peers : Peers) (minimumVotes maximumVotes fuel : Nat) (s : SpiderCrawl)
    (found : List Bytes) (rs : List Round) :
    findQuorum peers minimumVotes maximumVotes (fuel + 1) s found rs =
      match strictQuorumValue found minimumVotes with
      | some value => some (some value, rs)
      | none =>
        if exhausted maximumVotes s found then some (none, rs)
        else findQuorum peers minimumVotes maximumVotes fuel
          (afterRound peers maximumVotes s found rs)
          (found ++ (replies peers maximumVotes s found rs).filterMap vote)
          (rs ++ [thisRound peers maximumVotes s found rs]) := by
  simp only [findQuorum, foldl_mergeVote, List.nil_append]
  rfl

theorem tracks_afterRound (peers : Peers) (maximumVotes : Nat) (found : List Bytes)
    (ht : SpiderCrawl.Tracks target k s rs) :
    SpiderCrawl.Tracks target k (afterRound peers maximumVotes s found rs)
      (rs ++ [thisRound peers maximumVotes s found rs]) :=
  ht.round _ _

/-- **Run rule.** What holds of the state, the copies and the rounds initially,
and is kept by every round that the loop takes, holds when the loop ends; the copies
found then decide what is returned, and nothing only if the loop cannot go on. -/
theorem findQuorum_induct {I : SpiderCrawl → List Bytes → List Round → Prop} (h₀ : I s found rs)
    (hstep : ∀ s found rs, I s found rs → exhausted maximumVotes s found = false →
      I (afterRound peers maximumVotes s found rs)
        (found ++ (replies peers maximumVotes s found rs).filterMap vote)
        (rs ++ [thisRound peers maximumVotes s found rs]))
    (h : findQuorum peers minimumVotes maximumVotes fuel s found rs = some (r, out)) :
    ∃ s' found', I s' found' out ∧ strictQuorumValue found' minimumVotes = r ∧
      (r = none → exhausted maximumVotes s' found' = true) := by
  induction fuel generalizing s found rs with
  | zero => cases h
  | succ fuel ih =>
    rw [findQuorum_succ] at h
    split at h
    · rename_i value hv
      cases h
      exact ⟨s, found, h₀, hv, fun hnone => by cases hnone⟩
    · rename_i hv
      split at h
      · rename_i hex
        cases h
        exact ⟨s, found, h₀, hv, fun _ => hex⟩
      · rename_i hex
        exact ih (hstep s found rs h₀ (Bool.eq_false_iff.mpr hex)) h

/-! ## Every read ends -/

/-- **Every read ends**, whatever the peers answer. -/
theorem findQuorum_returns (peers : Peers) (minimumVotes maximumVotes : Nat) (found : List Bytes)
    (ht : SpiderCrawl.Tracks target k s rs) :
    ∃ fuel r out, findQuorum peers minimumVotes maximumVotes fuel s found rs = some (r, out) := by
  induction hb : s.budget rs using Nat.strong_induction_on generalizing s found rs with
  | _ b ih =>
    cases hv : strictQuorumValue found minimumVotes with
    | some value => exact ⟨1, some value, rs, by rw [findQuorum_succ, hv]⟩
    | none =>
      cases hex : exhausted maximumVotes s found with
      | true => exact ⟨1, none, rs, by rw [findQuorum_succ, hv]; simp [hex]⟩
      | false =>
        obtain ⟨hrem, hall⟩ := Bool.or_eq_false_iff.mp hex
        have hlt : (afterRound peers maximumVotes s found rs).budget
            (rs ++ [thisRound peers maximumVotes s found rs]) < s.budget rs :=
          ht.budget_round (by simpa [Nat.pos_iff_ne_zero] using hrem) (peers.perm rs _)
            (fun a ha => List.mem_of_mem_filter ha) fun _ => hall
        obtain ⟨fuel, r, out, h⟩ :=
          ih _ (hb ▸ hlt) _ (tracks_afterRound peers maximumVotes found ht) rfl
        exact ⟨fuel + 1, r, out, by rw [findQuorum_succ, hv]; simpa [hex] using h⟩

theorem findQuorum_mono (h : findQuorum peers minimumVotes maximumVotes fuel s found rs =
    some (r, out)) {fuel' : Nat} (hle : fuel ≤ fuel') :
    findQuorum peers minimumVotes maximumVotes fuel' s found rs = some (r, out) := by
  induction fuel generalizing s found rs fuel' with
  | zero => cases h
  | succ fuel ih =>
    obtain ⟨fuel', rfl⟩ : ∃ m, fuel' = m + 1 := ⟨fuel' - 1, by omega⟩
    rw [findQuorum_succ] at h ⊢
    cases hv : strictQuorumValue found minimumVotes with
    | some value => simpa only [hv] using h
    | none =>
      cases hex : exhausted maximumVotes s found with
      | true => simpa only [hv, hex, if_true] using h
      | false =>
        simp only [hv, hex, Bool.false_eq_true, if_false] at h ⊢
        exact ih h (Nat.le_of_succ_le_succ hle)

theorem findQuorum_rounds (ht : SpiderCrawl.Tracks target k s rs) (hp : SpiderCrawl.Pace s rs)
    (h : findQuorum peers minimumVotes maximumVotes fuel s found rs = some (r, out)) :
    (askedIds out).Nodup ∧ Paced out := by
  have hstep : ∀ s found rs, SpiderCrawl.Tracks target k s rs ∧ SpiderCrawl.Pace s rs →
      exhausted maximumVotes s found = false →
      SpiderCrawl.Tracks target k (afterRound peers maximumVotes s found rs)
          (rs ++ [thisRound peers maximumVotes s found rs]) ∧
        SpiderCrawl.Pace (afterRound peers maximumVotes s found rs)
          (rs ++ [thisRound peers maximumVotes s found rs]) := by
    rintro s found rs ⟨ht, hp⟩ hex
    obtain ⟨hrem, hall⟩ := Bool.or_eq_false_iff.mp hex
    refine ⟨tracks_afterRound peers maximumVotes found ht, ?_⟩
    exact hp.round ht.wf (by simpa [Nat.pos_iff_ne_zero] using hrem) (peers.perm rs _)
      (fun a ha => List.mem_of_mem_filter ha) fun _ => hall
  obtain ⟨s', -, ⟨ht', hp'⟩, -⟩ := findQuorum_induct
    (I := fun s _ rs => SpiderCrawl.Tracks target k s rs ∧ SpiderCrawl.Pace s rs) ⟨ht, hp⟩ hstep h
  exact ⟨ht'.once, hp'.paced⟩

/-! ## What a read has collected -/

/-- The copies received in the rounds, with the nodes they came from. -/
def ballots (rs : List Round) : List (NodeId × Bytes) :=
  rs.flatMap fun r => r.answers.filterMap fun a => (vote a).map fun v => (a.peer, v)

/-- The nodes that answered with `v`. -/
def voters (rs : List Round) (v : Bytes) : List NodeId :=
  ((ballots rs).filter fun b => b.2 = v).map Prod.fst

theorem mem_voters {x : NodeId} : x ∈ voters rs v ↔ (x, v) ∈ ballots rs := by
  simp [voters]

theorem length_voters (rs : List Round) (v : Bytes) :
    (voters rs v).length = ((ballots rs).map Prod.snd).count v := by
  rw [voters, List.length_map, ← List.countP_eq_length_filter, List.count, List.countP_map]
  refine List.countP_congr fun b _ => ?_
  simp

/-- A round, as it changes the lookup and the copies found. -/
def turn (maximumVotes : Nat) (acc : SpiderCrawl × List Bytes) (r : Round) :
    SpiderCrawl × List Bytes :=
  (((acc.1.nextPeers (some (maximumVotes - acc.2.length))).2.mergeAll
      (referrals r.answers)).removeFailed (silent r.answers),
    acc.2 ++ r.answers.filterMap vote)

def replay (maximumVotes : Nat) (s : SpiderCrawl) (initial : List Bytes) (rs : List Round) :
    SpiderCrawl :=
  (rs.foldl (turn maximumVotes) (s, initial)).1

/-- A read from `s₀` with the copies `initial`, after the rounds `rs`. -/
structure Reading (target : Node) (k maximumVotes : Nat) (s₀ : SpiderCrawl) (initial : List Bytes)
    (s : SpiderCrawl) (found : List Bytes) (rs : List Round) : Prop where
  state : rs.foldl (turn maximumVotes) (s₀, initial) = (s, found)
  tracks : SpiderCrawl.Tracks target k s rs
  heard : ∀ r ∈ rs, (r.answers.map Answer.peer).Perm (r.asked.map Node.id)
  copies : found = initial ++ (ballots rs).map Prod.snd
  room : found.length ≤ maximumVotes

variable {s₀ : SpiderCrawl} {initial : List Bytes}

theorem reading_new (ht : SpiderCrawl.Tracks target k s₀ [])
    (hroom : initial.length ≤ maximumVotes) :
    Reading target k maximumVotes s₀ initial s₀ initial [] :=
  ⟨rfl, ht, by simp, by simp [ballots], hroom⟩

theorem length_replies_le (peers : Peers) (maximumVotes : Nat) (s : SpiderCrawl)
    (found : List Bytes) (rs : List Round) :
    ((replies peers maximumVotes s found rs).filterMap vote).length ≤
      maximumVotes - found.length := by
  have hperm := (peers.perm rs (asks maximumVotes s found)).length_eq
  rw [List.length_map, List.length_map] at hperm
  have hasked : (asks maximumVotes s found).length ≤ maximumVotes - found.length :=
    (List.length_take_le _ _).trans (Nat.min_le_right _ _)
  exact (List.length_filterMap_le vote _).trans (hperm.le.trans hasked)

/-- **A round keeps the count.** -/
theorem Reading.round (peers : Peers)
    (h : Reading target k maximumVotes s₀ initial s found rs) :
    Reading target k maximumVotes s₀ initial (afterRound peers maximumVotes s found rs)
      (found ++ (replies peers maximumVotes s found rs).filterMap vote)
      (rs ++ [thisRound peers maximumVotes s found rs]) where
  state := by
    rw [List.foldl_append, h.state]
    rfl
  tracks := tracks_afterRound peers maximumVotes found h.tracks
  heard := by
    intro r hr
    rcases List.mem_append.mp hr with hr | hr
    · exact h.heard r hr
    · rw [List.mem_singleton.mp hr]
      exact peers.perm rs _
  copies := by
    have hsnd : ((thisRound peers maximumVotes s found rs).answers.filterMap fun a =>
        (vote a).map fun v => (a.peer, v)).map Prod.snd =
          (replies peers maximumVotes s found rs).filterMap vote := by
      rw [List.map_filterMap]
      simp only [Option.map_map, Function.comp_def, Option.map_id']
      rfl
    rw [ballots, List.flatMap_append, List.map_append, List.flatMap_singleton, hsnd,
      ← List.append_assoc]
    exact congrArg (· ++ _) h.copies
  room := by
    have hle := length_replies_le peers maximumVotes s found rs
    have hroom := h.room
    rw [List.length_append]
    omega

theorem Reading.voters_nodup (h : Reading target k maximumVotes s₀ initial s found rs) :
    ((ballots rs).map Prod.fst).Nodup := by
  have hperm : (rs.flatMap fun r => r.answers.map Answer.peer).Perm (askedIds rs) :=
    List.Perm.flatMap_left rs h.heard
  refine (hperm.nodup_iff.mpr h.tracks.once).sublist ?_
  rw [ballots, List.map_flatMap]
  refine List.Sublist.flatMap_right rs fun r _ => ?_
  induction r.answers with
  | nil => exact List.Sublist.refl _
  | cons a as ih =>
    rw [List.filterMap_cons]
    cases vote a with
    | none => exact ih.cons _
    | some v => exact ih.cons_cons _

theorem Reading.asked_of_ballot (h : Reading target k maximumVotes s₀ initial s found rs)
    {b : NodeId × Bytes} (hb : b ∈ ballots rs) : b.1 ∈ askedIds rs := by
  obtain ⟨r, hr, hb⟩ := List.mem_flatMap.mp hb
  obtain ⟨a, ha, hv⟩ := List.mem_filterMap.mp hb
  obtain ⟨v, -, rfl⟩ := Option.map_eq_some_iff.mp hv
  exact List.mem_flatMap.mpr ⟨r, hr, (h.heard r hr).mem_iff.mp (List.mem_map_of_mem ha)⟩

theorem reading_ended (h₀ : Reading target k maximumVotes s₀ initial s found rs)
    (h : findQuorum peers minimumVotes maximumVotes fuel s found rs = some (r, out)) :
    ∃ s' found', Reading target k maximumVotes s₀ initial s' found' out ∧
      strictQuorumValue found' minimumVotes = r ∧
      (r = none → exhausted maximumVotes s' found' = true) :=
  findQuorum_induct h₀ (fun _ _ _ hr _ => hr.round peers) h

/-! ## Whose turn it is -/

/-- Whom a read asks after the rounds, if it goes on. -/
def nextAsked (maximumVotes : Nat) (s₀ : SpiderCrawl) (initial : List Bytes) (rs : List Round) :
    List Node :=
  asks maximumVotes (rs.foldl (turn maximumVotes) (s₀, initial)).1
    (rs.foldl (turn maximumVotes) (s₀, initial)).2

/-- The rounds of a read that started from `seeds`: each asked those whose turn it was, and
they had been heard of before. -/
structure Turns (seeds : List Node) (maximumVotes : Nat) (s₀ : SpiderCrawl)
    (initial : List Bytes) (rs : List Round) : Prop where
  asked : ∀ pre rd post, rs = pre ++ rd :: post →
    rd.asked = nextAsked maximumVotes s₀ initial pre
  heard : ∀ pre rd post, rs = pre ++ rd :: post →
    ∀ n ∈ rd.asked, n ∈ SpiderCrawl.heardOf seeds pre

theorem Turns.snoc {seeds : List Node} {rd : Round}
    (h : Turns seeds maximumVotes s₀ initial rs)
    (hasked : rd.asked = nextAsked maximumVotes s₀ initial rs)
    (hheard : ∀ n ∈ rd.asked, n ∈ SpiderCrawl.heardOf seeds rs) :
    Turns seeds maximumVotes s₀ initial (rs ++ [rd]) where
  asked := by
    intro pre rd' post heq
    rcases snoc_split heq with ⟨rfl, rfl, -⟩ | ⟨rest, -, hrs⟩
    · exact hasked
    · exact h.asked pre rd' rest hrs
  heard := by
    intro pre rd' post heq
    rcases snoc_split heq with ⟨rfl, rfl, -⟩ | ⟨rest, -, hrs⟩
    · exact hheard
    · exact h.heard pre rd' rest hrs

/-- **A read takes turns.** -/
theorem findQuorum_turns {seeds : List Node} (hroom : initial.length ≤ maximumVotes)
    (h : findQuorum peers minimumVotes maximumVotes fuel (.new target seeds k alpha) initial [] =
      some (r, out)) : Turns seeds maximumVotes (.new target seeds k alpha) initial out := by
  obtain ⟨-, -, ⟨-, -, hturns⟩, -⟩ := findQuorum_induct
    (I := fun s found rs =>
      Reading target k maximumVotes (.new target seeds k alpha) initial s found rs ∧
      SpiderCrawl.Sourced seeds s rs ∧
      Turns seeds maximumVotes (.new target seeds k alpha) initial rs)
    ⟨reading_new (SpiderCrawl.tracks_new target seeds k alpha) hroom,
      SpiderCrawl.sourced_new target seeds k alpha, fun pre rd post h => by simp at h,
      fun pre rd post h => by simp at h⟩
    (fun s found rs ⟨hread, hsourced, hturns⟩ _ => ⟨hread.round peers,
      hsourced.round _ fun a ha => List.mem_of_mem_filter ha,
      hturns.snoc (by rw [nextAsked, hread.state]; rfl) fun n hn =>
        hsourced.listed n (SpiderCrawl.nextPeers_asked_sublist.subset hn)⟩) h
  exact hturns

end AuthKademlia.Crawling.QuorumRead
