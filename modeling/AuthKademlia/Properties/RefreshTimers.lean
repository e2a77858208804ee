import AuthKademlia.Properties.RoutingTable

/-! # Refresh timers

A bucket that no lookup touched for an hour is refreshed. Contacts join and leave a
bucket without a change of its timer, but the halves of a bucket that splits start with
new ones. -/
namespace AuthKademlia.Properties
open AuthKademlia.Lib.Xor AuthKademlia.Routing AuthKademlia.Utils
open AuthKademlia.Routing.RoutingTable AuthKademlia.Routing.KBucket

variable {own n : Node} {k now : Nat} {t t' t'' : RoutingTable} {pre post : List KBucket}
  {b c : KBucket}

/-- The bucket that covers the id is due for a refresh. -/
def Lonely (now : Nat) (t : RoutingTable) (id : NodeId) : Prop :=
  ∃ b ∈ t.lonelyBuckets now, b.covers (idToU256 id) = true

instance (now : Nat) (t : RoutingTable) (id : NodeId) : Decidable (Lonely now t id) :=
  inferInstanceAs (Decidable (∃ b ∈ _, _))

/-- Adding the node splits the bucket that covers the id. -/
def Splits (t : RoutingTable) (n : Node) (id : NodeId) : Prop :=
  n.id ≠ t.node.id ∧ ∃ b ∈ t.buckets, b.covers n.longId = true ∧
    b.covers (idToU256 id) = true ∧ Overfull t n b

/-! ## Timers of a bucket -/

theorem lastUpdated_addAll (ns : List Node) (b : KBucket) :
    (b.addAll ns).lastUpdated = b.lastUpdated := by
  induction ns using List.reverseRecOn with
  | nil => rfl
  | append_singleton ns n ih => rw [addAll_snoc, lastUpdated_addNode, ih]

theorem lastUpdated_split (now : Nat) (b : KBucket) :
    (b.split now).1.lastUpdated = now ∧ (b.split now).2.lastUpdated = now := by
  rw [split_eq, lastUpdated_addAll, lastUpdated_addAll]
  exact ⟨rfl, rfl⟩

theorem not_lonely_of_now (h : b.lastUpdated = now) : b.isLonely now = false := by
  simp [isLonely, h]

theorem mem_lonelyBuckets : b ∈ t.lonelyBuckets now ↔ b ∈ t.buckets ∧ b.isLonely now = true :=
  List.mem_filter

/-! ## Timers of a table -/

/-- The buckets away from the node stay, and a timer is an old one or was set now. -/
structure KeepsTimers (now : Nat) (n : Node) (t t' : RoutingTable) : Prop where
  others : ∀ d ∈ t.buckets, d.covers n.longId = false → d ∈ t'.buckets
  timers : ∀ d ∈ t'.buckets, d.lastUpdated = now ∨
    ∃ c ∈ t.buckets, c.lo = d.lo ∧ c.hi = d.hi ∧ c.lastUpdated = d.lastUpdated

theorem KeepsTimers.trans (h : KeepsTimers now n t t') (h' : KeepsTimers now n t' t'') :
    KeepsTimers now n t t'' where
  others := fun d hd haway => h'.others d (h.others d hd haway) haway
  timers := by
    intro d hd
    rcases h'.timers d hd with hnow | ⟨c, hc, hlo, hhi, heq⟩
    · exact Or.inl hnow
    · rcases h.timers c hc with hnow | ⟨b, hb, hlo', hhi', heq'⟩
      · exact Or.inl (heq.symm.trans hnow)
      · exact Or.inr ⟨b, hb, hlo'.trans hlo, hhi'.trans hhi, heq'.trans heq⟩

theorem keepsTimers_bucket (ht : t.buckets = pre ++ b :: post)
    (ht' : t'.buckets = pre ++ c :: post) (hb : b.covers n.longId = true) (hlo : c.lo = b.lo)
    (hhi : c.hi = b.hi) (heq : c.lastUpdated = b.lastUpdated) : KeepsTimers now n t t' where
  others := by
    intro d hd haway
    rw [ht, List.mem_append, List.mem_cons] at hd
    rw [ht', List.mem_append, List.mem_cons]
    rcases hd with hd | rfl | hd
    · exact Or.inl hd
    · rw [hb] at haway
      cases haway
    · exact Or.inr (Or.inr hd)
  timers := by
    intro d hd
    right
    rw [ht', List.mem_append, List.mem_cons] at hd
    rcases hd with hd | rfl | hd
    · exact ⟨d, by rw [ht]; exact List.mem_append_left _ hd, rfl, rfl, rfl⟩
    · exact ⟨b, mem_buckets ht, hlo.symm, hhi.symm, heq.symm⟩
    · exact ⟨d, by rw [ht]; exact List.mem_append_right _ (List.mem_cons_of_mem _ hd), rfl, rfl,
        rfl⟩

theorem keepsTimers_splitBucket (ht : t.buckets = pre ++ b :: post)
    (hb : b.covers n.longId = true) (now : Nat) :
    KeepsTimers now n t (t.splitBucket now pre.length) where
  others := by
    intro d hd haway
    rw [splitBucket_eq now ht]
    rw [ht, List.mem_append, List.mem_cons] at hd
    rcases hd with hd | rfl | hd
    · exact List.mem_append_left _ hd
    · rw [hb] at haway
      cases haway
    · exact List.mem_append_right _ (List.mem_cons_of_mem _ (List.mem_cons_of_mem _ hd))
  timers := by
    intro d hd
    obtain ⟨hlow, hhigh⟩ := lastUpdated_split now b
    rw [splitBucket_eq now ht, List.mem_append, List.mem_cons, List.mem_cons] at hd
    rcases hd with hd | rfl | rfl | hd
    · exact Or.inr ⟨d, by rw [ht]; exact List.mem_append_left _ hd, rfl, rfl, rfl⟩
    · exact Or.inl hlow
    · exact Or.inl hhigh
    · exact Or.inr ⟨d, by rw [ht]; exact List.mem_append_right _ (List.mem_cons_of_mem _ hd), rfl,
        rfl, rfl⟩

/-- **What an insertion makes of the timers.** -/
theorem keepsTimers_insert (hk : 1 ≤ k) (hn : n.id ≠ own.id) (now : Nat) : ∀ (fuel : Nat)
    {t : RoutingTable} {pre : List KBucket} {b : KBucket} {post : List KBucket} {j m : Nat},
    t.Ok own k → t.buckets = pre ++ b :: post → b.covers n.longId = true →
    Block b.lo b.hi j m → j < fuel → KeepsTimers now n t (t.insert now fuel n).1
  | 0, _, _, _, _, _, _, _, _, _, _, hj => absurd hj (Nat.not_lt_zero _)
  | fuel + 1, t, pre, b, post, j, m, h, ht, hb, hj, hfuel => by
    obtain ⟨t', c, hok, ht', hlo, hhi, htimer, hend⟩ := h.insert_turn hk ht hb hn now
    have hadded : KeepsTimers now n t t' := keepsTimers_bucket ht ht' hb hlo hhi htimer
    rcases hend with ⟨-, -, -, heq⟩ | ⟨hin, -, ⟨-, -, heq⟩ | ⟨-, heq⟩⟩
    · rw [heq]
      exact hadded
    · rw [heq]
      exact hadded
    · have hw := List.ne_nil_of_mem hin
      have hcov : c.covers n.longId = true := by rw [covers_congr hlo hhi]; exact hb
      rw [← hlo, ← hhi] at hj
      obtain ⟨i, rfl⟩ := (hok.buckets c (mem_buckets ht')).splittable hk hw hj
      obtain ⟨pre', d, post', m', ht'', hd, hi⟩ := hok.splitBucket_half ht' hw hj hcov now
      have hrest := keepsTimers_insert hk hn now fuel (hok.splitBucket ht' hw hj now) ht'' hd hi
        (by omega)
      rw [heq]
      exact (hadded.trans (keepsTimers_splitBucket ht' hcov now)).trans hrest

/-! ## Adding a contact -/

theorem eq_of_covers (h : t.Ok own k) (ht : t.buckets = pre ++ b :: post) {x : Nat}
    (hb : b.covers x = true) (hc : c ∈ t.buckets) (hcx : c.covers x = true) : c = b := by
  rw [ht, List.mem_append, List.mem_cons] at hc
  by_contra hne
  have hother := h.other_bucket ht hb (c := c) (hc.imp_right fun hc => hc.resolve_left hne)
  rw [hcx] at hother
  cases hother

theorem lonely_of_bucket {id : NodeId} (ht : t.buckets = pre ++ b :: post)
    (ht' : t'.buckets = pre ++ c :: post) (hlo : c.lo = b.lo) (hhi : c.hi = b.hi)
    (heq : c.lastUpdated = b.lastUpdated) (hlonely : Lonely now t id) : Lonely now t' id := by
  obtain ⟨d, hd, hdx⟩ := hlonely
  obtain ⟨hd, hold⟩ := mem_lonelyBuckets.mp hd
  rw [ht, List.mem_append, List.mem_cons] at hd
  rcases hd with hd | rfl | hd
  · exact ⟨d, mem_lonelyBuckets.mpr ⟨ht' ▸ List.mem_append_left _ hd, hold⟩, hdx⟩
  · refine ⟨c, mem_lonelyBuckets.mpr ⟨mem_buckets ht', ?_⟩, ?_⟩
    · rw [isLonely, heq]
      exact hold
    · rw [covers_congr hlo hhi]
      exact hdx
  · refine ⟨d, mem_lonelyBuckets.mpr ⟨?_, hold⟩, hdx⟩
    exact ht' ▸ List.mem_append_right _ (List.mem_cons_of_mem _ hd)

theorem not_lonely_split {id : NodeId} (h : t.Ok own k) (ht : t.buckets = pre ++ b :: post)
    (hb : b.covers (idToU256 id) = true)
    (hkeeps : KeepsTimers now n (t.splitBucket now pre.length) t') : ¬ Lonely now t' id := by
  rintro ⟨d, hd, hdx⟩
  obtain ⟨hd, hold⟩ := mem_lonelyBuckets.mp hd
  have hset : d.lastUpdated = now := by
    rcases hkeeps.timers d hd with hset | ⟨c, hc, hlo, hhi, heq⟩
    · exact hset
    · obtain ⟨hlow, hhigh⟩ := lastUpdated_split now b
      rw [splitBucket_eq now ht, List.mem_append, List.mem_cons, List.mem_cons] at hc
      have hout : ¬ (c ∈ pre ∨ c ∈ post) := by
        intro hin
        have hother := h.other_bucket ht hb hin
        rw [covers_congr hlo hhi, hdx] at hother
        cases hother
      rcases hc with hc | rfl | rfl | hc
      · exact absurd (Or.inl hc) hout
      · exact heq.symm.trans hlow
      · exact heq.symm.trans hhigh
      · exact absurd (Or.inr hc) hout
  rw [not_lonely_of_now hset] at hold
  cases hold

/-- **A lonely bucket stays lonely when a node is added**, unless it splits. -/
theorem lonely_unless_split (hk : 1 ≤ k) (start : Nat) (own : Node) (actions : List Action)
    (now : Nat) (n : Node) (id : NodeId) (hlonely : Lonely now (after start own k actions) id) :
    Lonely now ((after start own k actions).addContact now n).1 id ↔
      ¬ Splits (after start own k actions) n id := by
  have h := ok_after hk start own actions
  generalize after start own k actions = t at h hlonely
  unfold RoutingTable.addContact
  by_cases hn : n.id = own.id
  · rw [h.node, if_pos hn]
    refine iff_of_true hlonely fun hsplits => hsplits.1 ?_
    rw [h.node]
    exact hn
  · rw [h.node, if_neg hn]
    obtain ⟨pre, b, post, ht, hb, -⟩ := h.bucket n.id
    obtain ⟨j, m, hj⟩ := (h.buckets b (mem_buckets ht)).block
    have hlt := hj.exponent_le (h.tiles.bounds b (mem_buckets ht)).2
    obtain ⟨t', c, hok, ht', hlo, hhi, htimer, hend⟩ := h.insert_turn hk ht hb hn now
    have hstays : ¬ Overfull t n b → ¬ Splits t n id := by
      rintro hno ⟨-, b', hb', hbn, -, hover⟩
      rw [eq_of_covers h ht hb hb' hbn] at hover
      exact hno hover
    rcases hend with ⟨hno, -, -, heq⟩ | ⟨hin, -, ⟨hno, -, heq⟩ | ⟨hover, heq⟩⟩
    · rw [heq]
      exact iff_of_true (lonely_of_bucket ht ht' hlo hhi htimer hlonely) (hstays hno)
    · rw [heq]
      exact iff_of_true (lonely_of_bucket ht ht' hlo hhi htimer hlonely) (hstays hno)
    · by_cases hx : b.covers (idToU256 id) = true
      · refine iff_of_false ?_ (not_not_intro ⟨?_, b, mem_buckets ht, hb, hx, hover⟩)
        · have hw := List.ne_nil_of_mem hin
          rw [← hlo, ← hhi] at hj
          obtain ⟨i, rfl⟩ := (hok.buckets c (mem_buckets ht')).splittable hk hw hj
          obtain ⟨pre', d, post', m', ht'', hd, hi⟩ := hok.splitBucket_half (x := n.longId) ht' hw
            hj (by rw [covers_congr hlo hhi]; exact hb) now
          rw [heq]
          exact not_lonely_split hok ht' (by rw [covers_congr hlo hhi]; exact hx)
            (keepsTimers_insert hk hn now 160 (hok.splitBucket ht' hw hj now) ht'' hd hi (by omega))
        · rw [h.node]
          exact hn
      · refine iff_of_true ?_ ?_
        · obtain ⟨d, hd, hdx⟩ := hlonely
          obtain ⟨hd, hold⟩ := mem_lonelyBuckets.mp hd
          have haway : d.covers n.longId = false := by
            refine Bool.eq_false_iff.mpr fun hdn => hx ?_
            rw [← eq_of_covers h ht hb hd hdn]
            exact hdx
          have hkeeps := keepsTimers_insert hk hn now 161 h ht hb hj hlt
          exact ⟨d, mem_lonelyBuckets.mpr ⟨hkeeps.others d hd haway, hold⟩, hdx⟩
        · rintro ⟨-, b', hb', hbn, hbx, -⟩
          rw [eq_of_covers h ht hb hb' hbn] at hbx
          exact hx hbx

/-- A contact seen again splits nothing. -/
theorem lonely_unless_split_again :
    let t := after 0 (nodeAt 0 6999) 1 [.addContact 0 (nodeAt 0x80 7000)]
    Lonely 4000 t (filledId 0x20) ∧
    (Lonely 4000 (t.addContact 4000 (nodeAt 0x80 7000)).1 (filledId 0x20) ↔
      ¬ Splits t (nodeAt 0x80 7000) (filledId 0x20)) := by
  have hlonely : Lonely 4000 (after 0 (nodeAt 0 6999) 1 [.addContact 0 (nodeAt 0x80 7000)])
      (filledId 0x20) := by decide +kernel
  exact ⟨hlonely, lonely_unless_split (Nat.le_refl 1) 0 (nodeAt 0 6999) _ 4000 (nodeAt 0x80 7000)
    (filledId 0x20) hlonely⟩

/-- The second contact splits the only bucket, for which no lookup was made in over an
hour, and no region is lonely any more. -/
theorem split_resets_timer :
    let t := after 0 (nodeAt 0 6999) 1 [.addContact 0 (nodeAt 0x80 7000)]
    Lonely 4000 t (filledId 0x20) ∧
    ¬ Lonely 4000 (t.addContact 4000 (nodeAt 0x40 7001)).1 (filledId 0x20) ∧
    (t.addContact 4000 (nodeAt 0x40 7001)).1.lonelyBuckets 4000 = [] := by
  refine ⟨by decide +kernel, by decide +kernel, ?_⟩
  rw [← List.length_eq_zero_iff]
  decide +kernel

end AuthKademlia.Properties
