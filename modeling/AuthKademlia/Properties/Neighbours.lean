import AuthKademlia.Crawling.Base
import AuthKademlia.Properties.RoutingTable

/-! # Choosing neighbours

`find_neighbors_to_advertise` and `find_neighbors` list the closest contacts of a
class. When too few contacts are healthy, the class is that of all contacts that
are not stale, and the closest of those may leave a healthy contact out. -/
namespace AuthKademlia.Properties
open AuthKademlia.Lib.Shortlist AuthKademlia.Routing AuthKademlia.Protocol AuthKademlia.Utils
open AuthKademlia.Routing.RoutingTable

/-- The `k` of `contacts` closest to the target, in order. -/
structure ClosestOf (k : Nat) (target : Node) (contacts chosen : List Node) : Prop where
  distinct : (chosen.map Node.id).Nodup
  increasing : chosen.Pairwise fun a b => a.distanceTo target < b.distanceTo target
  among : ∀ n ∈ chosen, n ∈ contacts
  length : chosen.length = min k contacts.length
  farther : ∀ n ∈ contacts, n ∉ chosen → ∀ m ∈ chosen, m.distanceTo target < n.distanceTo target

/-- Contacts without failures, those that are not stale, and all. -/
def classes (t : RoutingTable) : List (Node → Bool) :=
  [fun n => !t.hasFailures n.id, fun n => !t.isStale n.id, fun _ => true]

section Selection

variable {t : RoutingTable} (hnd : (t.primaries.map Node.id).Nodup) (target : Node)
  (exclude : Option Node)

include hnd

theorem closest_closestOf (keep : Node → Bool) :
    ClosestOf t.ksize target (t.eligible target exclude keep) (t.closest target exclude keep) where
  distinct := (closest_nearest hnd target exclude keep).nodup
  increasing := (closest_shortlist hnd target exclude keep).increasing
  among := (closest_shortlist hnd target exclude keep).subset
  length := (closest_shortlist hnd target exclude keep).length_eq
    (nodup_eligible hnd target exclude keep).of_map
  farther := fun n hn hout => ((closest_shortlist hnd target exclude keep).rest n hn hout).2

theorem nobody_closest {keep : Node → Bool} (h : t.closest target exclude keep = []) :
    t.ksize = 0 ∨ t.eligible target exclude keep = [] := by
  have hlen := (closest_closestOf hnd target exclude keep).length
  rw [h, List.length_nil] at hlen
  rcases Nat.eq_zero_or_pos t.ksize with hk | hk
  · exact Or.inl hk
  · exact Or.inr (List.length_eq_zero_iff.mp (by omega))

end Selection

/-- `find_neighbors` takes the healthy contacts, if there are enough of them, otherwise
those that are not stale, and all contacts if there are none of these either. -/
theorem findNeighbors_cases (t : RoutingTable) (target : Node) (exclude : Option Node) :
    let healthy := t.closest target exclude fun n => !t.hasFailures n.id
    let notStale := t.closest target exclude fun n => !t.isStale n.id
    (t.minLookupContacts ≤ healthy.length ∧ t.findNeighbors target exclude = healthy) ∨
    (healthy.length < t.minLookupContacts ∧ notStale = [] ∧
      t.findNeighbors target exclude = t.closest target exclude fun _ => true) ∨
    (healthy.length < t.minLookupContacts ∧ notStale ≠ [] ∧
      t.findNeighbors target exclude = notStale) := by
  intro healthy notStale
  unfold RoutingTable.findNeighbors
  by_cases hmin : t.minLookupContacts ≤ healthy.length
  · exact Or.inl ⟨hmin, if_pos hmin⟩
  · rw [if_neg hmin]
    refine Or.inr ?_
    by_cases hnil : notStale = []
    · exact Or.inl ⟨Nat.lt_of_not_le hmin, hnil, if_pos (List.isEmpty_iff.mpr hnil)⟩
    · exact Or.inr ⟨Nat.lt_of_not_le hmin, hnil, if_neg (by rwa [List.isEmpty_iff])⟩

theorem not_stale_of_healthy {t : RoutingTable} {id : NodeId} (h : t.hasFailures id = false) :
    t.isStale id = false := by
  rw [hasFailures, Option.isSome_eq_false_iff, Option.isNone_iff_eq_none] at h
  rw [isStale, h]
  rfl

theorem mem_eligible {t : RoutingTable} {target n : Node} {exclude : Option Node}
    {keep : Node → Bool} : n ∈ t.eligible target exclude keep ↔
      n ∈ t.eligible target exclude (fun _ => true) ∧ keep n = true := by
  unfold eligible
  simp only [List.mem_filter, Bool.and_eq_true, Bool.and_true, and_assoc]

/-- **Neighbour selection is exact.** In every table that can arise, what is
advertised are the closest contacts that are not stale; a lookup starts from the
closest contacts of one of the three classes, and from a stale one only if every
eligible contact is stale. -/
theorem neighbours_are_closest (own : Node) (k start : Nat) (actions : List Action)
    (target : Node) (exclude : Option Node) :
    let t := after start own k actions
    (t.primaries.map Node.id).Nodup ∧
    ClosestOf k target (t.eligible target exclude fun n => !t.isStale n.id)
      (t.findNeighborsToAdvertise target exclude) ∧
    (∃ keep ∈ classes t,
      ClosestOf k target (t.eligible target exclude keep) (t.findNeighbors target exclude)) ∧
    ∀ n ∈ t.findNeighbors target exclude, t.isStale n.id = true →
      ∀ m ∈ t.eligible target exclude (fun _ => true), t.isStale m.id = true := by
  intro t
  have hnd : (t.primaries.map Node.id).Nodup := nodup_primaries_after start own k actions
  have hk : t.ksize = k := ksize_after start own k actions
  have hexact := hk ▸ closest_closestOf hnd target exclude
  refine ⟨hnd, hexact _, ?_, ?_⟩
  · rcases findNeighbors_cases t target exclude with ⟨-, heq⟩ | ⟨-, -, heq⟩ | ⟨-, -, heq⟩
    · exact ⟨_, List.mem_cons_self .., heq ▸ hexact _⟩
    · exact ⟨_, by simp [classes], heq ▸ hexact _⟩
    · exact ⟨_, by simp [classes], heq ▸ hexact _⟩
  · intro n hn hstale m hm
    rcases findNeighbors_cases t target exclude with ⟨-, heq⟩ | ⟨-, hnil, heq⟩ | ⟨-, -, heq⟩
    · rw [heq] at hn
      have hfresh := (mem_eligible.mp (mem_eligible_of_mem_closest hn)).2
      rw [not_stale_of_healthy (by simpa using hfresh)] at hstale
      cases hstale
    · rcases nobody_closest hnd target exclude hnil with hzero | hnone
      · have hpos := List.length_pos_of_mem (heq ▸ hn)
        rw [(hexact _).length] at hpos
        omega
      · by_contra hfresh
        have hmem : m ∈ t.eligible target exclude fun n => !t.isStale n.id :=
          mem_eligible.mpr ⟨hm, by simpa using hfresh⟩
        rw [hnone] at hmem
        cases hmem
    · rw [heq] at hn
      have hfresh := (mem_eligible.mp (mem_eligible_of_mem_closest hn)).2
      rw [hstale] at hfresh
      cases hfresh

/-! ## Failing contacts before responding ones -/

/-- How many eligible contacts that are not stale are closer to the target than `n`. -/
def closer (t : RoutingTable) (target : Node) (exclude : Option Node) (n : Node) : Nat :=
  (t.eligible target exclude fun m => !t.isStale m.id).countP fun m =>
    m.distanceTo target < n.distanceTo target

/-- A list with a failing contact has all the healthy ones, up to `k` of them. -/
def Prefers (t : RoutingTable) (target : Node) (exclude : Option Node) (chosen : List Node) :
    Prop :=
  (∃ n ∈ chosen, t.hasFailures n.id = true) →
    (chosen.filter fun n => !t.hasFailures n.id).length =
      min t.ksize (t.eligible target exclude fun n => !t.hasFailures n.id).length

section Preference

variable {t : RoutingTable} {target : Node} {exclude : Option Node}

theorem healthy_not_stale {n : Node}
    (hn : n ∈ t.eligible target exclude fun n => !t.hasFailures n.id) :
    n ∈ t.eligible target exclude fun n => !t.isStale n.id := by
  obtain ⟨helig, hfresh⟩ := mem_eligible.mp hn
  have hnot : t.isStale n.id = false := not_stale_of_healthy (by simpa using hfresh)
  exact mem_eligible.mpr ⟨helig, by rw [hnot]; rfl⟩

theorem mem_responding {chosen : List Node} {keep : Node → Bool}
    (hamong : ∀ n ∈ chosen, n ∈ t.eligible target exclude keep) :
    ∀ n ∈ chosen.filter (fun n => !t.hasFailures n.id),
      n ∈ t.eligible target exclude fun n => !t.hasFailures n.id := by
  intro n hn
  obtain ⟨hmem, hfresh⟩ := List.mem_filter.mp hn
  exact mem_eligible.mpr ⟨(mem_eligible.mp (hamong n hmem)).1, hfresh⟩

variable (hnd : (t.primaries.map Node.id).Nodup)

include hnd

theorem mem_notStale_iff {n : Node} (hn : n ∈ t.eligible target exclude fun m => !t.isStale m.id) :
    n ∈ t.closest target exclude (fun m => !t.isStale m.id) ↔
      closer t target exclude n < t.ksize :=
  (closest_shortlist hnd target exclude _).mem_iff_countP
    (nodup_eligible hnd target exclude _).of_map hn

/-- Of the closest contacts that are not stale: if one has failures, all healthy
ones are listed exactly if each of them is among the `k` closest. -/
theorem all_responding_iff
    (hfail : ∃ n ∈ t.closest target exclude (fun m => !t.isStale m.id),
      t.hasFailures n.id = true) :
    ((t.closest target exclude fun m => !t.isStale m.id).filter
        fun n => !t.hasFailures n.id).length =
      min t.ksize (t.eligible target exclude fun n => !t.hasFailures n.id).length ↔
    ∀ n ∈ t.eligible target exclude (fun n => !t.hasFailures n.id),
      closer t target exclude n < t.ksize := by
  have hshort := closest_shortlist hnd target exclude fun m => !t.isStale m.id
  have hsub := mem_responding hshort.subset
  have hle := (List.subperm_of_subset (hshort.nodup.filter _) hsub).length_le
  have hlisted : ∀ n ∈ t.eligible target exclude (fun n => !t.hasFailures n.id),
      (n ∈ (t.closest target exclude fun m => !t.isStale m.id).filter
          (fun n => !t.hasFailures n.id) ↔ closer t target exclude n < t.ksize) := by
    intro n hn
    rw [List.mem_filter, and_iff_left (mem_eligible.mp hn).2,
      mem_notStale_iff hnd (healthy_not_stale hn)]
  constructor
  · intro hlen n hn
    -- the failing contact takes a place, so that all healthy ones must have fitted
    obtain ⟨f, hf, hfailed⟩ := hfail
    have hlt : ((t.closest target exclude fun m => !t.isStale m.id).filter
        fun n => !t.hasFailures n.id).length < t.ksize := by
      refine Nat.lt_of_lt_of_le (List.length_filter_lt_length_iff_exists.mpr ?_) hshort.length_le
      exact ⟨f, hf, by simp [hfailed]⟩
    rw [← hlisted n hn]
    exact mem_of_subset_of_length_le (hshort.nodup.filter _) hsub (by omega) n hn
  · intro hall
    have hin := fun n hn => (hlisted n hn).mpr (hall n hn)
    have hge := (List.subperm_of_subset
      (nodup_eligible hnd target exclude fun n => !t.hasFailures n.id).of_map hin).length_le
    have hfit := (List.length_filter_le (fun n => !t.hasFailures n.id)
      (t.closest target exclude fun m => !t.isStale m.id)).trans hshort.length_le
    omega

omit hnd in
theorem prefers_healthy :
    Prefers t target exclude (t.closest target exclude fun n => !t.hasFailures n.id) := by
  intro hfail
  obtain ⟨n, hn, hfailed⟩ := hfail
  have hfresh := (mem_eligible.mp (mem_eligible_of_mem_closest hn)).2
  rw [hfailed] at hfresh
  cases hfresh

/-- All contacts, when none of those that are not stale is found: then none is healthy. -/
theorem prefers_all (hnil : t.closest target exclude (fun n => !t.isStale n.id) = []) :
    Prefers t target exclude (t.closest target exclude fun _ => true) := by
  have hall := closest_closestOf hnd target exclude fun _ => true
  intro hfail
  rcases nobody_closest hnd target exclude hnil with hzero | hnone
  · obtain ⟨n, hn, -⟩ := hfail
    have hpos := List.length_pos_of_mem hn
    rw [hall.length] at hpos
    omega
  · have hnobody : t.eligible target exclude (fun n => !t.hasFailures n.id) = [] := by
      rw [List.eq_nil_iff_forall_not_mem]
      intro n hn
      have hmem := healthy_not_stale hn
      rw [hnone] at hmem
      cases hmem
    rw [hnobody, List.length_nil, Nat.min_zero, List.length_eq_zero_iff,
      List.eq_nil_iff_forall_not_mem]
    intro n hn
    have hmem := mem_responding hall.among n hn
    rw [hnobody] at hmem
    cases hmem

theorem prefers_notStale_iff :
    Prefers t target exclude (t.closest target exclude fun n => !t.isStale n.id) ↔
      (∀ n ∈ t.eligible target exclude (fun n => !t.isStale n.id), t.hasFailures n.id = true →
        t.ksize ≤ closer t target exclude n) ∨
      ∀ n ∈ t.eligible target exclude (fun n => !t.hasFailures n.id),
        closer t target exclude n < t.ksize := by
  by_cases hfail : ∃ n ∈ t.closest target exclude (fun m => !t.isStale m.id),
      t.hasFailures n.id = true
  · -- a failing contact is listed, so that the first case is excluded
    have hnear : ¬ ∀ n ∈ t.eligible target exclude (fun n => !t.isStale n.id),
        t.hasFailures n.id = true → t.ksize ≤ closer t target exclude n := by
      intro hfar
      obtain ⟨n, hn, hfailed⟩ := hfail
      have helig := mem_eligible_of_mem_closest hn
      exact Nat.not_lt.mpr (hfar n helig hfailed) ((mem_notStale_iff hnd helig).mp hn)
    rw [or_iff_right hnear, ← all_responding_iff hnd hfail]
    exact ⟨fun hpref => hpref hfail, fun hlen _ => hlen⟩
  · refine iff_of_true (fun hsome => absurd hsome hfail) (Or.inl ?_)
    intro n hn hfailed
    rw [← Nat.not_lt, ← mem_notStale_iff hnd hn]
    exact fun hmem => hfail ⟨n, hmem, hfailed⟩

end Preference

/-- **When a lookup prefers responding contacts to failing ones.** In every table
that can arise: if the list has a contact with failures, it has all healthy ones, up
to `k` of them. This holds exactly if enough healthy contacts are found, or no failing
contact is among the `k` closest that are not stale, or every healthy one is. -/
theorem responding_preferred_iff (own : Node) (k start : Nat) (actions : List Action)
    (target : Node) (exclude : Option Node) :
    let t := after start own k actions
    let healthy := t.eligible target exclude fun n => !t.hasFailures n.id
    ((∃ n ∈ t.findNeighbors target exclude, t.hasFailures n.id = true) →
      ((t.findNeighbors target exclude).filter fun n => !t.hasFailures n.id).length =
        min k healthy.length) ↔
    t.minLookupContacts ≤ min k healthy.length ∨
    (∀ n ∈ t.eligible target exclude (fun n => !t.isStale n.id), t.hasFailures n.id = true →
      k ≤ closer t target exclude n) ∨
    ∀ n ∈ healthy, closer t target exclude n < k := by
  intro t healthy
  have hnd : (t.primaries.map Node.id).Nodup := nodup_primaries_after start own k actions
  have hk : t.ksize = k := ksize_after start own k actions
  rw [← hk]
  have hlen : (t.closest target exclude fun n => !t.hasFailures n.id).length =
      min t.ksize healthy.length := (closest_closestOf hnd target exclude _).length
  show Prefers t target exclude (t.findNeighbors target exclude) ↔ _
  rcases findNeighbors_cases t target exclude with ⟨hmin, heq⟩ | ⟨hfew, hnil, heq⟩ | ⟨hfew, -, heq⟩
  · rw [heq]
    exact iff_of_true prefers_healthy (Or.inl (hlen ▸ hmin))
  · rw [heq]
    refine iff_of_true (prefers_all hnd hnil) (Or.inr ?_)
    rcases nobody_closest hnd target exclude hnil with hzero | hnone
    · exact Or.inl fun n _ _ => by omega
    · refine Or.inl fun n hn => ?_
      rw [hnone] at hn
      cases hn
  · have hnot : ¬ t.minLookupContacts ≤ min t.ksize healthy.length := by
      rw [← hlen]
      exact Nat.not_le.mpr hfew
    rw [heq, or_iff_right hnot]
    exact prefers_notStale_iff hnd

/-- Two contacts that fail and, farther from `0x82..`, one that does not. -/
def twoFailing : List Action :=
  [.addContact 1 (nodeAt 0x80 7000), .addContact 2 (nodeAt 0x81 7001),
    .addContact 3 (nodeAt 0x40 7002), .recordFailureAt (nodeAt 0x80 7000) 4 0,
    .recordFailureAt (nodeAt 0x81 7001) 5 0]

/-- The lookup asks the two that fail and not the one that responds. -/
theorem responding_contact_left_out :
    let t := after 0 (nodeAt 0 6999) 2 twoFailing
    t.findNeighbors (nodeAt 0x82 0) none = [nodeAt 0x80 7000, nodeAt 0x81 7001] ∧
    t.hasFailures (filledId 0x80) = true ∧ t.hasFailures (filledId 0x81) = true ∧
    (t.eligible (nodeAt 0x82 0) none fun n => !t.hasFailures n.id) = [nodeAt 0x40 7002] ∧
    t.minLookupContacts = 2 := by
  decide +kernel

/-! ## Contacts that did not answer -/

theorem not_reported {s : Crawling.SpiderCrawl} (hw : s.nearest.Wf) {t : RoutingTable}
    {nodes : List Node} {id : NodeId} (hid : id ∈ failingAmong t nodes)
    (hout : id ∉ s.nearest.getIds) :
    id ∉ (s.addReported (failingAmong t nodes) nodes).nearest.getIds := by
  intro hin
  obtain ⟨m, hm, rfl⟩ := List.mem_map.mp hin
  rcases NodeHeap.mem_push hw hm with hm | hm
  · exact hout (List.mem_map_of_mem hm)
  · have hpush := of_decide_eq_true (List.mem_filter.mp hm).2
    refine hpush.2 (Finset.mem_filter.mpr ⟨List.mem_toFinset.mpr ?_, hid⟩)
    exact (mem_failingAmong.mp hid).1

/-- **When a peer that did not answer is left out.** Its failure is noted of a primary
contact and is at most the fourth in a row. Then, whatever happens until it is heard of
or its backoff elapses, it is among the failing nodes of every list that has it, and a
lookup that is told of it does not take it up. -/
theorem silent_contact_left_out (own : Node) (k start : Nat) (actions : List Action) (n : Node)
    (now jitter : Nat) (hprimary : n.id ∈ (after start own k actions).primaries.map Node.id)
    (hfew : (after start own k actions).FewFailures n.id now) :
    let noted := (after start own k actions).recordFailureAt n now jitter
    ∃ health, noted.health n.id = some health ∧ now < health.retryAfter ∧
      ∀ later : List Action, (∀ a ∈ later, a.Silent n.id health.retryAfter) →
        let t := later.foldl RoutingTable.act noted
        ∀ nodes : List Node, n.id ∈ nodes.map Node.id →
          n.id ∈ failingAmong t nodes ∧
          ∀ s : Crawling.SpiderCrawl, s.nearest.Wf → n.id ∉ s.nearest.getIds →
            n.id ∉ (s.addReported (failingAmong t nodes) nodes).nearest.getIds := by
  intro noted
  rcases Nat.eq_zero_or_pos k with rfl | hk
  · rw [(bare_after start own actions).primaries] at hprimary
    cases hprimary
  · have h := ok_after hk start own actions
    obtain ⟨health, hnoted, hcount, hlater⟩ := h.health_noted hprimary hfew jitter
    refine ⟨health, hnoted, hlater, ?_⟩
    intro later hsilent t nodes hmem
    have hkept := (h.recordFailureAt n now jitter).health_actions hk hnoted hcount later hsilent
    have hfailing : n.id ∈ failingAmong t nodes :=
      mem_failingAmong.mpr ⟨hmem, by rw [hasFailures, hkept]; rfl⟩
    exact ⟨hfailing, fun s hw hout => not_reported hw hfailing hout⟩

/-- A peer that is no contact, and a contact whose fifth failure lets the node that
waits take its place: neither is remembered as failing. -/
theorem silent_peer_forgotten :
    let peer := nodeAt 0x90 7009
    let contact := nodeAt 0x80 7000
    let t := after 0 (nodeAt 0 6999) 1 secondWaits
    let failed := (List.range 5).foldl
      (fun t i => t.recordFailureAt contact (400 * i * Storage.nanosPerSec) 0) t
    failingAmong (t.recordFailureAt peer 3 0) [peer] = ∅ ∧
    contact.id ∈ t.primaries.map Node.id ∧ failingAmong failed [contact] = ∅ := by
  decide +kernel

/-- One failure of a contact. -/
theorem silent_contact_left_out_secondWaits :
    let noted := (after 0 (nodeAt 0 6999) 1 secondWaits).recordFailureAt (nodeAt 0x80 7000) 3 0
    filledId 0x80 ∈ failingAmong noted [nodeAt 0x80 7000] := by
  obtain ⟨health, -, -, hrun⟩ := silent_contact_left_out (nodeAt 0 6999) 1 0 secondWaits
    (nodeAt 0x80 7000) 3 0 (by decide +kernel) (by
      intro health hnone
      have hhealthy :
          (after 0 (nodeAt 0 6999) 1 secondWaits).hasFailures (filledId 0x80) = false := by
        decide +kernel
      rw [hasFailures, show (after 0 (nodeAt 0 6999) 1 secondWaits).health (filledId 0x80) = _
        from hnone] at hhealthy
      cases hhealthy)
  exact (hrun [] (fun a ha => absurd ha List.not_mem_nil) [nodeAt 0x80 7000]
    (List.mem_singleton_self _)).1

end AuthKademlia.Properties
