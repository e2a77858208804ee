import AuthKademlia.Network.Refresh
import AuthKademlia.Properties.RefreshTimers
import AuthKademlia.Routing.Failures

/-! # How old a bucket gets

What the loop of `schedule_refresh` makes of the timers of all buckets, whatever the other tasks
do to the routing table. -/
namespace AuthKademlia.Properties
open AuthKademlia.Network AuthKademlia.Network.Refresh AuthKademlia.Routing AuthKademlia.Utils
open AuthKademlia.Routing.RoutingTable AuthKademlia.Routing.KBucket

section Timers

variable {own : Node} {k clock : Nat} {t t' : RoutingTable} {pre post : List KBucket}
  {b c : KBucket}

/-- A timer is an old one of the same range, or was set now. -/
def TimersFrom (clock : Nat) (t t' : RoutingTable) : Prop :=
  ∀ d ∈ t'.buckets, d.lastUpdated = clock ∨
    ∃ c ∈ t.buckets, c.lo = d.lo ∧ c.hi = d.hi ∧ c.lastUpdated = d.lastUpdated

theorem timersFrom_refl (h : t'.buckets = t.buckets) : TimersFrom clock t t' :=
  fun d hd => Or.inr ⟨d, h ▸ hd, rfl, rfl, rfl⟩

theorem timersFrom_removeNode (n : Node) (ht : t.buckets = pre ++ b :: post)
    (ht' : t'.buckets = pre ++ b.removeNode n :: post) : TimersFrom clock t t' := by
  obtain ⟨hlo, hhi⟩ := range_removeNode b n
  intro d hd
  right
  rw [ht', List.mem_append, List.mem_cons] at hd
  rw [ht]
  rcases hd with hd | rfl | hd
  · exact ⟨d, List.mem_append_left _ hd, rfl, rfl, rfl⟩
  · exact ⟨b, List.mem_append_right _ List.mem_cons_self, hlo.symm, hhi.symm,
      (lastUpdated_removeNode b n).symm⟩
  · exact ⟨d, List.mem_append_right _ (List.mem_cons_of_mem _ hd), rfl, rfl, rfl⟩

theorem timersFrom_removeContact (h : t.Ok own k) (n : Node) :
    TimersFrom clock t (t.removeContact n) := by
  obtain ⟨pre, b, post, ht, -, hidx⟩ := h.bucket n.id
  refine timersFrom_removeNode n ht ?_
  rw [removeContact_eq ht hidx]

theorem timersFrom_recordFailureAt (h : t.Ok own k) (n : Node) (now jitter : Nat) :
    TimersFrom clock t (t.recordFailureAt n now jitter) := by
  have hnote : ∀ health replaceable, TimersFrom clock t (t.noteHealth n health replaceable) := by
    intro health replaceable
    rw [RoutingTable.noteHealth]
    split
    · exact timersFrom_removeContact h n
    · exact timersFrom_refl rfl
  by_cases hn : n.id ∈ t.primaries.map Node.id
  · obtain ⟨b, -, heq⟩ := h.recordFailureAt_primary hn now jitter
    rw [heq]
    split
    · split
      · exact timersFrom_refl rfl
      · exact hnote _ _
    · exact hnote _ _
  · obtain ⟨pre, b, post, ht, heq⟩ := h.recordFailureAt_foreign hn now jitter
    rw [heq]
    exact timersFrom_removeNode n ht rfl

theorem touchTarget_eq (h : t.Ok own k) (clock : Nat) (target : Node) :
    ∃ pre b post, t.buckets = pre ++ b :: post ∧ b.covers target.longId = true ∧
      (t.touchTarget clock target).buckets = pre ++ { b with lastUpdated := clock } :: post := by
  obtain ⟨pre, b, post, ht, hb, hidx⟩ := h.bucket target.id
  refine ⟨pre, b, post, ht, hb, ?_⟩
  unfold RoutingTable.touchTarget
  rw [show t.bucketIndexFor target.longId = pre.length from hidx, ht, modify_length]

theorem timersFrom_touchTarget (h : t.Ok own k) (clock : Nat) (target : Node) :
    TimersFrom clock t (t.touchTarget clock target) := by
  obtain ⟨pre, b, post, ht, -, ht'⟩ := touchTarget_eq h clock target
  intro d hd
  rw [ht', List.mem_append, List.mem_cons] at hd
  rw [ht]
  rcases hd with hd | rfl | hd
  · exact Or.inr ⟨d, List.mem_append_left _ hd, rfl, rfl, rfl⟩
  · exact Or.inl rfl
  · exact Or.inr ⟨d, List.mem_append_right _ (List.mem_cons_of_mem _ hd), rfl, rfl, rfl⟩

/-- **What any action makes of the timers.** -/
theorem timersFrom_act (h : t.Ok own k) (hk : 1 ≤ k) (clock : Nat) (a : Action) :
    TimersFrom clock t (t.act (atTime clock a)) := by
  cases a with
  | addContact now n =>
    show TimersFrom clock t (t.addContact clock n).1
    by_cases hown : n.id = own.id
    · rw [RoutingTable.addContact, h.node, if_pos hown]
      exact timersFrom_refl rfl
    · obtain ⟨pre, b, post, ht, hb, -⟩ := h.bucket n.id
      obtain ⟨j, m, hj⟩ := (h.buckets b (mem_buckets ht)).block
      have hlt := hj.exponent_le (h.tiles.bounds b (mem_buckets ht)).2
      rw [RoutingTable.addContact, h.node, if_neg hown]
      exact (keepsTimers_insert hk hown clock 161 h ht hb hj hlt).timers
  | removeContact n => exact timersFrom_removeContact h n
  | recordFailureAt n now jitter => exact timersFrom_recordFailureAt h n now jitter
  | recordSuccess now id => exact timersFrom_refl rfl
  | touchTarget now target => exact timersFrom_touchTarget h clock target
  | setMinLookupContacts count => exact timersFrom_refl rfl

end Timers

/-! ## The loop -/

/-- What the timers are, at each point of the loop. A bucket that no lookup touched for an hour
before the loop woke has its id among those to be looked up. -/
def PhaseTimers (d : Nat) (r : Loop) : Prop :=
  match r.phase with
  | .asleep since => since ≤ r.clock ∧
      ∀ b ∈ r.table.buckets, since ≤ b.lastUpdated + refreshInterval + d
  | .finding woken ids => woken ≤ r.clock ∧ ∀ b ∈ r.table.buckets,
      woken ≤ b.lastUpdated + refreshInterval ∨
      (∃ id ∈ ids, b.covers (idToU256 id) = true) ∧
        woken ≤ b.lastUpdated + 2 * refreshInterval + 2 * d
  | .working woken => woken ≤ r.clock ∧
      ∀ b ∈ r.table.buckets, woken ≤ b.lastUpdated + refreshInterval

structure RefreshInv (own : Node) (k d : Nat) (r : Loop) : Prop where
  ok : r.table.Ok own k
  timers : PhaseTimers d r

section Loop

variable {own : Node} {k d : Nat} {r : Loop}

theorem PhaseTimers.transfer (h : PhaseTimers d r) {table : RoutingTable}
    (hfrom : TimersFrom r.clock r.table table) : PhaseTimers d { r with table } := by
  unfold PhaseTimers at h ⊢
  cases hphase : r.phase with
  | asleep since =>
    rw [hphase] at h
    refine ⟨h.1, fun b hb => ?_⟩
    rcases hfrom b hb with hnow | ⟨c, hc, -, -, heq⟩
    · rw [hnow]
      exact h.1.trans (by omega)
    · rw [← heq]
      exact h.2 c hc
  | finding woken ids =>
    rw [hphase] at h
    refine ⟨h.1, fun b hb => ?_⟩
    rcases hfrom b hb with hnow | ⟨c, hc, hlo, hhi, heq⟩
    · rw [hnow]
      exact Or.inl (h.1.trans (Nat.le_add_right _ _))
    · rw [← heq]
      refine (h.2 c hc).imp_right fun ⟨⟨id, hid, hcov⟩, hage⟩ => ⟨⟨id, hid, ?_⟩, hage⟩
      rw [← covers_congr hlo hhi]
      exact hcov
  | working woken =>
    rw [hphase] at h
    refine ⟨h.1, fun b hb => ?_⟩
    rcases hfrom b hb with hnow | ⟨c, hc, -, -, heq⟩
    · rw [hnow]
      exact h.1.trans (Nat.le_add_right _ _)
    · rw [← heq]
      exact h.2 c hc

/-- **Every bucket that is due has an id of its own.** -/
theorem refreshId_at (h : r.table.Ok own k) {i : Nat} {b : KBucket}
    (hi : (r.table.lonelyBuckets r.clock)[i]? = some b) (random : Nat → NodeId) :
    ∃ id, (getRefreshIds r.clock r.table random)[i]? = some id ∧
      b.covers (idToU256 id) = true := by
  have hmem := (List.mem_filter.mp (List.mem_of_getElem? hi)).1
  obtain ⟨j, m, hj⟩ := (h.buckets b hmem).block
  refine ⟨refreshId b (random i), ?_,
    covers_refreshId hj.lo_le_hi (h.tiles.bounds b hmem).2 (random i)⟩
  rw [getRefreshIds, List.getElem?_mapIdx, hi]
  rfl

theorem RefreshInv.wake (h : RefreshInv own k d r) (htimely : Timely d r)
    (random : Nat → NodeId) : RefreshInv own k d (r.move (.wake random)) := by
  have htimers := h.timers
  unfold PhaseTimers at htimers
  unfold Timely at htimely
  simp only [Loop.move]
  split
  · rename_i since hphase
    rw [hphase] at htimers htimely
    split
    · refine ⟨h.ok, Nat.le_refl _, fun b hb => ?_⟩
      by_cases hlonely : b.isLonely r.clock = true
      · obtain ⟨i, hi⟩ := List.mem_iff_getElem?.mp (mem_lonelyBuckets.mpr ⟨hb, hlonely⟩)
        obtain ⟨id, hid, hcov⟩ := refreshId_at h.ok hi random
        refine Or.inr ⟨⟨id, List.mem_of_getElem? hid, hcov⟩, ?_⟩
        have hage := htimers.2 b hb
        dsimp only at htimely ⊢
        omega
      · left
        simp only [isLonely, decide_eq_true_eq] at hlonely
        simp only [refreshInterval]
        omega
    · exact h
  · exact h

theorem RefreshInv.find (h : RefreshInv own k d r) : RefreshInv own k d (r.move .find) := by
  have htimers := h.timers
  unfold PhaseTimers at htimers
  simp only [Loop.move]
  split
  · rename_i woken id ids hphase
    rw [hphase] at htimers
    refine ⟨h.ok.touchTarget r.clock (.fromId id), htimers.1, fun b hb => ?_⟩
    obtain ⟨pre, c, post, ht, hc, ht'⟩ := touchTarget_eq h.ok r.clock (.fromId id)
    -- Only the bucket that was touched covers the id.
    have hother : ∀ e, e ∈ pre ∨ e ∈ post → woken ≤ e.lastUpdated + refreshInterval ∨
        (∃ id ∈ ids, e.covers (idToU256 id) = true) ∧
          woken ≤ e.lastUpdated + 2 * refreshInterval + 2 * d := by
      intro e he
      have hin : e ∈ r.table.buckets := by
        rw [ht, List.mem_append, List.mem_cons]
        exact he.imp_right Or.inr
      refine (htimers.2 e hin).imp_right fun ⟨⟨id', hid', hcov⟩, hage⟩ => ⟨⟨id', ?_, hcov⟩, hage⟩
      refine (List.mem_cons.mp hid').resolve_left fun heq => ?_
      have hno := h.ok.other_bucket ht hc he
      rw [show Node.longId (.fromId id) = idToU256 id from rfl, ← heq, hcov] at hno
      cases hno
    have hb : b ∈ (r.table.touchTarget r.clock (.fromId id)).buckets := hb
    rw [ht', List.mem_append, List.mem_cons] at hb
    rcases hb with hb | rfl | hb
    · exact hother b (Or.inl hb)
    · exact Or.inl (htimers.1.trans (Nat.le_add_right _ _))
    · exact hother b (Or.inr hb)
  · exact h

theorem RefreshInv.start (h : RefreshInv own k d r) : RefreshInv own k d (r.move .start) := by
  have htimers := h.timers
  unfold PhaseTimers at htimers
  simp only [Loop.move]
  split
  · rename_i woken hphase
    rw [hphase] at htimers
    refine ⟨h.ok, htimers.1, fun b hb => (htimers.2 b hb).resolve_right ?_⟩
    rintro ⟨⟨id, hid, -⟩, -⟩
    cases hid
  · exact h

theorem RefreshInv.sleep (h : RefreshInv own k d r) (htimely : Timely d r) :
    RefreshInv own k d (r.move .sleep) := by
  have htimers := h.timers
  unfold PhaseTimers at htimers
  unfold Timely at htimely
  simp only [Loop.move]
  split
  · rename_i woken hphase
    rw [hphase] at htimers htimely
    refine ⟨h.ok, Nat.le_refl _, fun b hb => ?_⟩
    have hage := htimers.2 b hb
    dsimp only at htimely ⊢
    omega
  · exact h

theorem RefreshInv.wait (h : RefreshInv own k d r) (seconds : Nat) :
    RefreshInv own k d (r.move (.wait seconds)) := by
  refine ⟨h.ok, ?_⟩
  have htimers := h.timers
  unfold PhaseTimers at htimers ⊢
  simp only [Loop.move]
  split at htimers
  · exact ⟨htimers.1.trans (Nat.le_add_right _ _), htimers.2⟩
  · exact ⟨htimers.1.trans (Nat.le_add_right _ _), htimers.2⟩
  · exact ⟨htimers.1.trans (Nat.le_add_right _ _), htimers.2⟩

theorem RefreshInv.move (h : RefreshInv own k d r) (hk : 1 ≤ k) (htimely : Timely d r)
    (mv : Refresh.Move) : RefreshInv own k d (r.move mv) := by
  cases mv with
  | wait seconds => exact h.wait seconds
  | other a => exact ⟨h.ok.act hk _, h.timers.transfer (timersFrom_act h.ok hk r.clock a)⟩
  | wake random => exact h.wake htimely random
  | find => exact h.find
  | start => exact h.start
  | sleep => exact h.sleep htimely

theorem RefreshInv.run (h : RefreshInv own k d r) (hk : 1 ≤ k) {moves : List Refresh.Move}
    (htimely : ∀ pre, pre <+: moves → Timely d (r.run pre)) :
    RefreshInv own k d (r.run moves) := by
  induction moves generalizing r with
  | nil => exact h
  | cons mv rest ih =>
    refine ih (h.move hk (htimely [] (List.nil_prefix)) mv) fun pre hpre => ?_
    exact htimely (mv :: pre) (List.cons_prefix_cons.mpr ⟨rfl, hpre⟩)

theorem RefreshInv.age (h : RefreshInv own k d r) (htimely : Timely d r) :
    ∀ b ∈ r.table.buckets, r.clock ≤ b.lastUpdated + 2 * refreshInterval + 3 * d := by
  intro b hb
  have htimers := h.timers
  unfold PhaseTimers at htimers
  unfold Timely at htimely
  split at htimers
  · rename_i hphase
    rw [hphase] at htimely
    have hage := htimers.2 b hb
    dsimp only at htimely
    omega
  · rename_i hphase
    rw [hphase] at htimely
    dsimp only at htimely
    rcases htimers.2 b hb with hage | ⟨-, hage⟩
    · omega
    · omega
  · rename_i hphase
    rw [hphase] at htimely
    have hage := htimers.2 b hb
    dsimp only at htimely
    omega

end Loop

/-- **A bucket is looked into every two hours**, and not every hour: it may have been touched
just less than an hour before the loop wakes, and is then left for the next time. This holds
whatever contacts come and go and whichever buckets split while ids are drawn and looked up.
The ids drawn at any time are one of each bucket that is due, from its range. The loop may be
`d` seconds late, each time it wakes and each time it works. -/
theorem buckets_refreshed (start : Nat) (own : Node) {k d : Nat} (hk : 1 ≤ k)
    (moves : List Refresh.Move)
    (htimely : ∀ pre, pre <+: moves → Timely d ((Loop.new start own k).run pre)) :
    let r := (Loop.new start own k).run moves
    (∀ b ∈ r.table.buckets, r.clock ≤ b.lastUpdated + 2 * refreshInterval + 3 * d) ∧
    ∀ random, (getRefreshIds r.clock r.table random).length =
        (r.table.lonelyBuckets r.clock).length ∧
      ∀ (i : Nat) (b : KBucket), (r.table.lonelyBuckets r.clock)[i]? = some b →
        ∃ id, (getRefreshIds r.clock r.table random)[i]? = some id ∧
          b.covers (idToU256 id) = true := by
  intro r
  have hstart : RefreshInv own k d (Loop.new start own k) := by
    refine ⟨ok_after hk start own [], Nat.le_refl _, fun b hb => ?_⟩
    rw [List.mem_singleton.mp hb]
    show start ≤ start + refreshInterval + d
    omega
  have hend := hstart.run hk htimely
  refine ⟨hend.age (htimely moves (List.prefix_refl moves)), fun random => ⟨?_, ?_⟩⟩
  · rw [getRefreshIds, List.length_mapIdx]
  · intro i b hi
    exact refreshId_at hend.ok hi random

instance (d : Nat) (r : Loop) : Decidable (Timely d r) :=
  match r with
  | ⟨_, _, .asleep _⟩ | ⟨_, _, .finding _ _⟩ | ⟨_, _, .working _⟩ =>
    inferInstanceAs (Decidable (_ ≤ _))

/-- A bucket splits a second after the start, and neither half is due when the loop wakes
after an hour. One of them is used later. -/
def nearlyTwoHours : List Refresh.Move :=
  [.other (.addContact 0 (nodeAt 0x80 7000)), .wait 1, .other (.addContact 0 (nodeAt 0x40 7001)),
    .wait 3599, .wake fun _ => filledId 0, .start, .sleep, .wait 1400,
    .other (.touchTarget 0 (nodeAt 0x40 7001)), .wait 2200]

/-- The other half is due an hour later, and an id of its range is looked up. -/
def dueBucket : List Refresh.Move :=
  nearlyTwoHours ++ [.wake fun _ => filledId 0x77, .find, .start, .sleep, .wait 3600]

theorem buckets_refreshed_dueBucket :
    let r := (Loop.new 0 (nodeAt 0 6999) 1).run nearlyTwoHours
    let r' := (Loop.new 0 (nodeAt 0 6999) 1).run dueBucket
    r.clock = 7200 ∧ r.table.buckets.map KBucket.lastUpdated = [5000, 1] ∧
      (∃ id, getRefreshIds r.clock r.table (fun _ => filledId 0x77) = [id] ∧
        r.table.buckets.map (fun b => b.covers (idToU256 id)) = [false, true]) ∧
      r'.table.buckets.map KBucket.lastUpdated = [5000, 7200] ∧
      ∀ b ∈ r'.table.buckets, r'.clock ≤ b.lastUpdated + 7200 := by
  have htimely : ∀ pre ∈ dueBucket.inits,
      Timely 0 ((Loop.new 0 (nodeAt 0 6999) 1).run pre) := by decide +kernel
  refine ⟨by decide +kernel, by decide +kernel,
    ⟨idOfU256 (2 ^ 159 + idToU256 (filledId 0x77)), by decide +kernel, by decide +kernel⟩,
    by decide +kernel, ?_⟩
  exact (buckets_refreshed 0 (nodeAt 0 6999) Nat.one_pos dueBucket fun pre hpre =>
    htimely pre ((List.mem_inits pre _).mpr hpre)).1

end AuthKademlia.Properties
