import AuthKademlia.Routing.Invariant

/-! # Insertion

One turn of `insert` puts the node into its bucket, perhaps in the place of a
stale contact, or leaves it waiting in a full bucket that may split; the next
turn then works on half of that bucket. A bucket with a stale primary keeps no
replacements, so that the turn that removes one is the last. -/
namespace AuthKademlia.Routing
open AuthKademlia.Lib.Xor AuthKademlia.Utils KBucket

namespace RoutingTable

variable {own n : Node} {k now : Nat} {t t' t'' : RoutingTable} {pre post : List KBucket}
  {b c : KBucket}

/-! ## What becomes of the other contacts -/

/-- Every primary stays one, and nobody but `n` is new. -/
structure Keeps (n : Node) (t t' : RoutingTable) : Prop where
  known : ∀ m ∈ t'.contacts, m ∈ t.contacts ∨ m = n
  primaries : ∀ id ∈ t.primaries.map Node.id, id ∈ t'.primaries.map Node.id
  health : t'.health = t.health

/-- At most one primary goes, a stale one, and nobody but `n` is new. -/
structure Takes (n : Node) (t t' : RoutingTable) : Prop where
  known : ∀ m ∈ t'.contacts, m ∈ t.contacts ∨ m = n
  kept : ∃ gone : Option NodeId, (∀ id ∈ gone, t.isStale id = true) ∧
    ∀ id ∈ t.primaries.map Node.id, id ∈ t'.primaries.map Node.id ∨ id ∈ gone
  health : ∀ id, t.isStale id = false → t'.health id = t.health id

theorem Keeps.trans (h : Keeps n t t') (h' : Keeps n t' t'') : Keeps n t t'' where
  known := fun m hm => (h'.known m hm).elim (h.known m) Or.inr
  primaries := fun id hid => h'.primaries id (h.primaries id hid)
  health := h'.health.trans h.health

theorem Keeps.takes (h : Keeps n t t') (h' : Takes n t' t'') : Takes n t t'' where
  known := fun m hm => (h'.known m hm).elim (h.known m) Or.inr
  kept := by
    obtain ⟨gone, hstale, hkept⟩ := h'.kept
    refine ⟨gone, ?_, fun id hid => hkept id (h.primaries id hid)⟩
    intro id hid
    have := hstale id hid
    rwa [isStale, h.health] at this
  health := by
    intro id hid
    rw [h'.health id (by rwa [isStale, h.health]), h.health]

theorem Keeps.toTakes (h : Keeps n t t') : Takes n t t' :=
  ⟨h.known, ⟨none, fun _ hid => absurd hid (Option.not_mem_none _), fun id hid =>
    Or.inl (h.primaries id hid)⟩, fun id _ => by rw [h.health]⟩

theorem mem_contacts (ht : t.buckets = pre ++ b :: post) {m : Node} :
    m ∈ t.contacts ↔ m ∈ b.nodes ++ b.replacementNodes ∨
      ∃ d, (d ∈ pre ∨ d ∈ post) ∧ m ∈ d.nodes ++ d.replacementNodes := by
  unfold contacts
  rw [ht, List.mem_flatMap]
  constructor
  · rintro ⟨d, hd, hm⟩
    rcases List.mem_append.mp hd with hd | hd
    · exact Or.inr ⟨d, Or.inl hd, hm⟩
    · rcases List.mem_cons.mp hd with rfl | hd
      · exact Or.inl hm
      · exact Or.inr ⟨d, Or.inr hd, hm⟩
  · rintro (hm | ⟨d, hd, hm⟩)
    · exact ⟨b, List.mem_append_right _ (List.mem_cons_self ..), hm⟩
    · refine ⟨d, List.mem_append.mpr (hd.imp_right (List.mem_cons_of_mem b)), hm⟩

theorem known_of_bucket (ht : t.buckets = pre ++ b :: post) (ht' : t'.buckets = pre ++ c :: post)
    (hknown : ∀ m ∈ c.nodes ++ c.replacementNodes, m ∈ b.nodes ++ b.replacementNodes ∨ m = n) :
    ∀ m ∈ t'.contacts, m ∈ t.contacts ∨ m = n := by
  intro m hm
  rw [mem_contacts ht]
  rcases (mem_contacts ht').mp hm with hm | hm
  · exact (hknown m hm).imp_left Or.inl
  · exact Or.inl (Or.inr hm)

/-! ## One turn -/

/-- **Making room for a node that responds.** Nothing happens, and then a full
bucket without the node has no stale primary, or a stale primary goes and leaves
its place free. -/
theorem Ok.replaceStaleIfFull (h : t.Ok own k) (ht : t.buckets = pre ++ b :: post) (n : Node) :
    (t.replaceStaleIfFull pre.length n = t ∧
      (b.contains n = false → b.nodes.length = k →
        ∀ id ∈ b.nodes.map Node.id, t.isStale id = false)) ∨
    ∃ stale ∈ b.nodes, t.isStale stale.id = true ∧
      t.replaceStaleIfFull pre.length n =
        { t with buckets := pre ++ b.removeNode stale :: post
                 health := Function.update t.health stale.id none } ∧
      (b.removeNode stale).nodes.length < k ∧
      t.removeContact stale = t.replaceStaleIfFull pre.length n := by
  have hget : t.buckets[pre.length]? = some b := by simp [ht]
  unfold RoutingTable.replaceStaleIfFull
  rw [hget]
  by_cases hroom : b.nodes.length < t.ksize ∨ b.contains n = true
  · refine Or.inl ⟨by simp [hroom], ?_⟩
    intro hn hlen
    rw [h.ksize, hn, hlen] at hroom
    simp at hroom
  · simp only [Bool.or_eq_true, decide_eq_true_eq, if_neg hroom]
    rcases hfind : b.nodes.find? (fun m => t.isStale m.id) with _ | stale
    · refine Or.inl ⟨by simp only [hfind], ?_⟩
      intro _ _ id hid
      obtain ⟨m, hm, rfl⟩ := List.mem_map.mp hid
      exact Bool.eq_false_iff.mpr (List.find?_eq_none.mp hfind m hm)
    · have hmem := List.mem_of_find?_eq_some hfind
      have hstale : t.isStale stale.id = true := by simpa using List.find?_some hfind
      have hok := h.buckets b (mem_buckets ht)
      have hcov := hok.inside _ (mem_ids_left (List.mem_map_of_mem hmem))
      have heq := removeContact_eq (n := stale) ht (h.index ht hcov)
      simp only [hfind]
      exact Or.inr ⟨stale, hmem, hstale, heq, hok.room hmem hstale, rfl⟩

theorem Ok.addToBucket (h : t.Ok own k) (ht : t.buckets = pre ++ b :: post)
    (hb : b.covers n.longId = true) (hn : n.id ≠ own.id)
    (hstale : b.contains n = false → b.nodes.length = k →
      ∀ id ∈ b.nodes.map Node.id, t.isStale id = false) :
    Ok own k { t with buckets := pre ++ (b.addNode n).1 :: post } := by
  have hnew : b.contains n = false → t.health n.id = none := by
    intro hout
    by_contra hne
    rw [Bool.eq_false_iff, Ne, contains_iff] at hout
    exact hout (h.failing_here (mem_buckets ht) hb hne)
  obtain ⟨hlo, hhi⟩ := range_addNode b n
  exact h.setBucket ht hlo hhi ((h.buckets b (mem_buckets ht)).addNode hb hn hstale hnew)
    fun id hid _ => (nodes_addNode b n id).1 hid

theorem keeps_addToBucket (ht : t.buckets = pre ++ b :: post) (n : Node) :
    Keeps n t { t with buckets := pre ++ (b.addNode n).1 :: post } where
  known := known_of_bucket ht rfl fun _ hm => mem_addNode hm
  primaries := by
    intro id hid
    rw [mem_primaries (b := (b.addNode n).1) rfl]
    exact ((mem_primaries ht).mp hid).imp_left (nodes_addNode b n id).1
  health := rfl

theorem takes_replacing (ht : t.buckets = pre ++ b :: post) {stale : Node}
    (hstale : t.isStale stale.id = true) (n : Node) :
    Takes n t { t with buckets := pre ++ ((b.removeNode stale).addNode n).1 :: post
                       health := Function.update t.health stale.id none } := by
  refine ⟨known_of_bucket ht rfl ?_, ⟨some stale.id, ?_, ?_⟩, ?_⟩
  · intro m hm
    exact (mem_addNode hm).imp_left mem_removeNode
  · intro id hid
    cases hid
    exact hstale
  · intro id hid
    by_cases he : id = stale.id
    · exact Or.inr (by rw [he]; rfl)
    · left
      rw [mem_primaries (b := ((b.removeNode stale).addNode n).1) rfl]
      exact ((mem_primaries ht).mp hid).imp_left fun hid =>
        (nodes_addNode _ n id).1 (mem_nodes_removeNode hid he)
  · intro id hfresh
    refine Function.update_of_ne ?_ ..
    rintro rfl
    rw [hstale] at hfresh
    cases hfresh

theorem insert_eq (now : Nat) (hidx : t.bucketIndexFor n.longId = pre.length)
    (hroom : t.replaceStaleIfFull pre.length n = t') (ht' : t'.buckets = pre ++ b :: post)
    (hnode : t'.node = own) (fuel : Nat) :
    t.insert now (fuel + 1) n =
      let added : RoutingTable := { t' with buckets := pre ++ (b.addNode n).1 :: post }
      if (b.addNode n).2 then (added, none)
      else if (b.addNode n).1.covers own.longId || (b.addNode n).1.depth % 5 ≠ 0 then
        (added.splitBucket now pre.length).insert now fuel n
      else (added, (b.addNode n).1.head) := by
  rw [RoutingTable.insert, hidx, hroom, ← hnode]
  simp [ht']

/-- The bucket has no room for the node, and nobody in it is stale, but it may split. -/
structure Overfull (t : RoutingTable) (n : Node) (b : KBucket) : Prop where
  new : b.contains n = false
  full : b.nodes.length = t.ksize
  fresh : ∀ m ∈ b.nodes, t.isStale m.id = false
  splits : b.covers t.node.longId = true ∨ b.depth % 5 ≠ 0

theorem Ok.waits (h : t.Ok own k) (ht : t.buckets = pre ++ b :: post)
    (hadded : (b.addNode n).2 = false) : b.contains n = false ∧ b.nodes.length = k ∧
      (b.addNode n).1 = { b with replacementNodes := b.enqueue n } := by
  have hok := h.buckets b (mem_buckets ht)
  have hnew : b.contains n = false := by
    by_contra hin
    rw [Bool.not_eq_false] at hin
    simp [KBucket.addNode, hin] at hadded
  have hfull : b.nodes.length = k := by
    refine Nat.le_antisymm hok.length_le (Nat.le_of_not_lt fun hlt => ?_)
    rw [addNode_room hnew (by rw [hok.ksize]; exact hlt)] at hadded
    cases hadded
  exact ⟨hnew, hfull, by rw [addNode_full hnew (by rw [hok.ksize, hfull])]⟩

theorem Ok.not_overfull (h : t.Ok own k) (ht : t.buckets = pre ++ b :: post)
    (hadded : (b.addNode n).2 = true) : ¬ Overfull t n b := by
  intro hover
  have hfull : b.ksize ≤ b.nodes.length := by
    rw [(h.buckets b (mem_buckets ht)).ksize, hover.full, h.ksize]
  rw [addNode_full hover.new hfull] at hadded
  cases hadded

theorem Ok.overfull_or_closed (h : t.Ok own k) (ht : t.buckets = pre ++ b :: post)
    (hadded : (b.addNode n).2 = false)
    (hstale : b.contains n = false → b.nodes.length = k →
      ∀ id ∈ b.nodes.map Node.id, t.isStale id = false) :
    (Overfull t n b ∧
      ((b.addNode n).1.covers own.longId || (b.addNode n).1.depth % 5 ≠ 0) = true) ∨
    (¬ Overfull t n b ∧ Closed own.longId k (b.addNode n).1 ∧
      ¬ ((b.addNode n).1.covers own.longId || (b.addNode n).1.depth % 5 ≠ 0) = true) := by
  obtain ⟨hnew, hfull, hsame⟩ := h.waits ht hadded
  rw [hsame, Bool.or_eq_true, decide_eq_true_eq]
  by_cases hsplit : b.covers own.longId = true ∨ b.depth % 5 ≠ 0
  · refine Or.inl ⟨⟨hnew, hfull.trans h.ksize.symm, fun m hm => ?_, ?_⟩, hsplit⟩
    · exact hstale hnew hfull m.id (List.mem_map_of_mem hm)
    · rw [h.node]
      exact hsplit
  · obtain ⟨haway, hdepth⟩ := not_or.mp hsplit
    refine Or.inr ⟨fun hover => hsplit ?_, ⟨hfull, Bool.eq_false_iff.mpr haway, ?_⟩, hsplit⟩
    · rw [← h.node]
      exact hover.splits
    · exact Decidable.not_not.mp hdepth

/-- **A turn** makes the node a primary and ends, or leaves it waiting in a full bucket
without stale primaries, which has to split if it may. -/
theorem Ok.insert_turn (h : t.Ok own k) (hk : 1 ≤ k) (ht : t.buckets = pre ++ b :: post)
    (hb : b.covers n.longId = true) (hn : n.id ≠ own.id) (now : Nat) :
    ∃ t' c, t'.Ok own k ∧ t'.buckets = pre ++ c :: post ∧ c.lo = b.lo ∧ c.hi = b.hi ∧
      c.lastUpdated = b.lastUpdated ∧
      ((¬ Overfull t n b ∧ n ∈ c.nodes ∧ Takes n t t' ∧
          ∀ fuel, t.insert now (fuel + 1) n = (t', none)) ∨
        (n ∈ c.replacementNodes ∧ Keeps n t t' ∧
          ((¬ Overfull t n b ∧ Closed own.longId k c ∧
              ∀ fuel, t.insert now (fuel + 1) n = (t', c.head)) ∨
            (Overfull t n b ∧ ∀ fuel, t.insert now (fuel + 1) n =
              (t'.splitBucket now pre.length).insert now fuel n)))) := by
  have hidx := h.index ht hb
  rcases h.replaceStaleIfFull ht n with ⟨hroom, hstale⟩ | ⟨stale, hmem, hstale, hroom, hlen, hrem⟩
  · have hok := h.addToBucket ht hb hn hstale
    have hkeeps := keeps_addToBucket ht n
    obtain ⟨hlo, hhi⟩ := range_addNode b n
    refine ⟨_, _, hok, rfl, hlo, hhi, lastUpdated_addNode b n, ?_⟩
    simp only [insert_eq now hidx hroom ht h.node]
    have hcap : 1 ≤ b.maxReplacementNodes := by
      rw [(h.buckets b (mem_buckets ht)).cap]
      omega
    rcases addNode_registers (n := n) hcap with ⟨hadded, hin⟩ | ⟨hadded, hin⟩
    · refine Or.inl ⟨h.not_overfull ht hadded, hin, hkeeps.toTakes, fun fuel => ?_⟩
      simp only [hadded, if_true]
    · refine Or.inr ⟨hin, hkeeps, ?_⟩
      simp only [hadded, if_false, Bool.false_eq_true]
      rcases h.overfull_or_closed ht hadded hstale with ⟨hover, hsplit⟩ | ⟨hno, hclosed, hsplit⟩
      · exact Or.inr ⟨hover, fun fuel => if_pos hsplit⟩
      · exact Or.inl ⟨hno, hclosed, fun fuel => if_neg hsplit⟩
  · -- the stale primary goes, and there is room
    have hcov : (b.removeNode stale).covers n.longId = true := by
      obtain ⟨hlo, hhi⟩ := range_removeNode b stale
      rw [covers_congr hlo hhi]
      exact hb
    have hgone := hrem ▸ h.removeContact stale
    rw [hroom] at hgone
    have hok := hgone.addToBucket (b := b.removeNode stale) rfl hcov hn
      (fun _ hfull => absurd hfull (Nat.ne_of_lt hlen))
    have hbok := hgone.buckets (b.removeNode stale) (mem_buckets rfl)
    obtain ⟨hlo, hhi⟩ := range_addNode (b.removeNode stale) n
    obtain ⟨hlo', hhi'⟩ := range_removeNode b stale
    have htimer := (lastUpdated_addNode (b.removeNode stale) n).trans
      (lastUpdated_removeNode b stale)
    obtain ⟨hadded, hin⟩ := addNode_primary (n := n) (by rw [hbok.ksize]; exact hlen)
    refine ⟨_, _, hok, rfl, hlo.trans hlo', hhi.trans hhi', htimer,
      Or.inl ⟨fun hover => ?_, hin, ?_, fun fuel => ?_⟩⟩
    · rw [hover.fresh stale hmem] at hstale
      cases hstale
    · exact takes_replacing ht hstale n
    · rw [insert_eq now hidx hroom rfl h.node]
      simp only [hadded, if_true]

/-! ## Splitting -/

theorem mem_primaries_split (now : Nat) {id : NodeId}
    (hid : id ∈ (b.split now).1.nodes.map Node.id ++ (b.split now).2.nodes.map Node.id ∨
      id ∈ (pre.flatMap KBucket.nodes ++ post.flatMap KBucket.nodes).map Node.id) :
    id ∈ ({ t with buckets := pre ++ (b.split now).1 :: (b.split now).2 :: post } :
      RoutingTable).primaries.map Node.id := by
  rw [mem_primaries (b := (b.split now).1) rfl, List.flatMap_cons]
  simp only [List.map_append, List.mem_append] at hid ⊢
  rcases hid with (hid | hid) | hid | hid
  · exact Or.inl hid
  · exact Or.inr (Or.inr (Or.inl hid))
  · exact Or.inr (Or.inl hid)
  · exact Or.inr (Or.inr (Or.inr hid))

/-- **A bucket with replacements may split.** -/
theorem Ok.splitBucket (h : t.Ok own k) (ht : t.buckets = pre ++ b :: post)
    (hw : b.replacementNodes ≠ []) {j m : Nat} (hj : Block b.lo b.hi (j + 1) m) (now : Nat) :
    (t.splitBucket now pre.length).Ok own k := by
  obtain ⟨⟨hlow, hl₁, hl₂⟩, ⟨hhigh, hh₁, hh₂⟩, hkeep⟩ :=
    (h.buckets b (mem_buckets ht)).split hw now hj
  obtain ⟨hbl, hbh⟩ := hj.halves
  have hmid : b.lo ≤ b.mid ∧ b.mid + 1 ≤ b.hi := ⟨hbl.lo_le_hi, hbh.lo_le_hi⟩
  rw [splitBucket_eq now ht]
  refine ⟨h.node, h.ksize, ?_, ?_, ?_⟩
  · have htiles := h.tiles
    rw [ht, Tiles.append_iff] at htiles
    obtain ⟨x, h₁, h₂, h₃, h₄⟩ := htiles
    refine Tiles.append_iff.mpr ⟨x, h₁, by omega, by omega, by omega, by omega, ?_⟩
    rwa [hh₂]
  · intro d hd
    rcases List.mem_append.mp hd with hd | hd
    · exact h.buckets d (by rw [ht]; exact List.mem_append_left _ hd)
    · rcases List.mem_cons.mp hd with rfl | hd
      · exact hlow
      · rcases List.mem_cons.mp hd with rfl | hd
        · exact hhigh
        · exact h.buckets d (by rw [ht]; simp [hd])
  · intro id hid
    exact mem_primaries_split now (((mem_primaries ht).mp (h.failing id hid)).imp_left (hkeep id))

theorem Ok.splitBucket_half (h : t.Ok own k) (ht : t.buckets = pre ++ b :: post)
    (hw : b.replacementNodes ≠ []) {j m x : Nat} (hj : Block b.lo b.hi (j + 1) m)
    (hx : b.covers x = true) (now : Nat) :
    ∃ pre' c post' m', (t.splitBucket now pre.length).buckets = pre' ++ c :: post' ∧
      c.covers x = true ∧ Block c.lo c.hi j m' := by
  obtain ⟨⟨-, hl₁, hl₂⟩, ⟨-, hh₁, hh₂⟩, -⟩ := (h.buckets b (mem_buckets ht)).split hw now hj
  obtain ⟨hbl, hbh⟩ := hj.halves
  have hcov := covers_iff.mp hx
  rw [splitBucket_eq now ht]
  by_cases hmid : x ≤ b.mid
  · refine ⟨pre, (b.split now).1, (b.split now).2 :: post, 2 * m, rfl, ?_, ?_⟩
    · exact covers_iff.mpr (by omega)
    · rw [hl₁, hl₂]
      exact hbl
  · refine ⟨pre ++ [(b.split now).1], (b.split now).2, post, 2 * m + 1, by simp, ?_, ?_⟩
    · exact covers_iff.mpr (by omega)
    · rw [hh₁, hh₂]
      exact hbh

theorem Ok.keeps_splitBucket (h : t.Ok own k) (ht : t.buckets = pre ++ b :: post)
    (hw : b.replacementNodes ≠ []) {j m : Nat} (hj : Block b.lo b.hi (j + 1) m) (now : Nat)
    (n : Node) : Keeps n t (t.splitBucket now pre.length) := by
  obtain ⟨-, -, hkeep⟩ := (h.buckets b (mem_buckets ht)).split hw now hj
  rw [splitBucket_eq now ht]
  refine ⟨?_, ?_, rfl⟩
  · intro q hq
    left
    rw [mem_contacts ht]
    rcases (mem_contacts (b := (b.split now).1) rfl).mp hq with hq | ⟨d, hd, hq⟩
    · exact Or.inl (mem_split (Or.inl hq))
    · rcases hd with hd | hd
      · exact Or.inr ⟨d, Or.inl hd, hq⟩
      · rcases List.mem_cons.mp hd with rfl | hd
        · exact Or.inl (mem_split (Or.inr hq))
        · exact Or.inr ⟨d, Or.inr hd, hq⟩
  · intro id hid
    exact mem_primaries_split now (((mem_primaries ht).mp hid).imp_left (hkeep id))

theorem length_splitBucket (ht : t.buckets = pre ++ b :: post) (now : Nat) :
    (t.splitBucket now pre.length).buckets.length = t.buckets.length + 1 := by
  rw [splitBucket_eq now ht, ht]
  simp only [List.length_append, List.length_cons]
  omega

/-! ## Whole insertions -/

/-- What an insertion of `n` makes of a table, with at most `j` splits: where the
node is now, and what is answered. -/
structure Inserted (own n : Node) (k j : Nat) (t : RoutingTable)
    (result : RoutingTable × Option Node) : Prop where
  ok : result.1.Ok own k
  takes : Takes n t result.1
  splits : t.buckets.length ≤ result.1.buckets.length ∧
    result.1.buckets.length ≤ t.buckets.length + j
  place : ∃ b ∈ result.1.buckets, b.covers n.longId = true ∧
    (n ∈ b.nodes ∧ result.2 = none ∨
      n ∈ b.replacementNodes ∧ Closed own.longId k b ∧ result.2 = b.head)

/-- **What an insertion does.** Each turn that does not end halves the block of the
node's bucket, so that more fuel than that gives the same. -/
theorem Ok.insert (hk : 1 ≤ k) (hn : n.id ≠ own.id) (now : Nat) : ∀ (fuel : Nat)
    {t : RoutingTable} {pre : List KBucket} {b : KBucket} {post : List KBucket} {j m : Nat},
    t.Ok own k → t.buckets = pre ++ b :: post → b.covers n.longId = true →
    Block b.lo b.hi j m → j < fuel →
      Inserted own n k j t (t.insert now fuel n) ∧
        ∀ more, t.insert now (fuel + more) n = t.insert now fuel n
  | 0, _, _, _, _, _, _, _, _, _, _, hj => absurd hj (Nat.not_lt_zero _)
  | fuel + 1, t, pre, b, post, j, m, h, ht, hb, hj, hfuel => by
    obtain ⟨t', c, hok, ht', hlo, hhi, -, hend⟩ := h.insert_turn hk ht hb hn now
    have hcov : c.covers n.longId = true := by rw [covers_congr hlo hhi]; exact hb
    have hlen : t'.buckets.length = t.buckets.length := by simp [ht, ht']
    rcases hend with ⟨-, hin, htakes, heq⟩ | ⟨hin, hkeeps, ⟨-, hclosed, heq⟩ | ⟨-, heq⟩⟩
    · refine ⟨?_, fun more => by rw [heq, Nat.add_right_comm, heq]⟩
      rw [heq]
      exact ⟨hok, htakes, ⟨hlen.ge, hlen.le.trans (Nat.le_add_right _ j)⟩, c,
        mem_buckets ht', hcov, Or.inl ⟨hin, rfl⟩⟩
    · refine ⟨?_, fun more => by rw [heq, Nat.add_right_comm, heq]⟩
      rw [heq]
      exact ⟨hok, hkeeps.toTakes, ⟨hlen.ge, hlen.le.trans (Nat.le_add_right _ j)⟩, c,
        mem_buckets ht', hcov, Or.inr ⟨hin, hclosed, rfl⟩⟩
    · have hw := List.ne_nil_of_mem hin
      rw [← hlo, ← hhi] at hj
      obtain ⟨i, rfl⟩ := (hok.buckets c (mem_buckets ht')).splittable hk hw hj
      obtain ⟨pre', d, post', m', ht'', hd, hi⟩ := hok.splitBucket_half ht' hw hj hcov now
      obtain ⟨hrest, hmore⟩ :=
        Ok.insert hk hn now fuel (hok.splitBucket ht' hw hj now) ht'' hd hi (by omega)
      have hsplit := length_splitBucket ht' now
      have hsplits := hrest.splits
      refine ⟨?_, fun more => by rw [heq, Nat.add_right_comm, heq, hmore]⟩
      rw [heq]
      exact ⟨hrest.ok, (hkeeps.trans (hok.keeps_splitBucket ht' hw hj now n)).takes hrest.takes,
        by omega, hrest.place⟩

/-- **What `add_contact` does**, and that its fuel is never used up. -/
theorem Ok.addContact_inserted (h : t.Ok own k) (hk : 1 ≤ k) (hn : n.id ≠ own.id) (now : Nat) :
    Inserted own n k 160 t (t.addContact now n) ∧
      ∀ more, t.insert now (161 + more) n = t.addContact now n := by
  obtain ⟨pre, b, post, ht, hb, -⟩ := h.bucket n.id
  have hmem := mem_buckets ht
  obtain ⟨j, m, hj⟩ := (h.buckets b hmem).block
  have hlt := hj.exponent_le (h.tiles.bounds b hmem).2
  unfold RoutingTable.addContact
  rw [h.node, if_neg hn]
  obtain ⟨hins, hmore⟩ := Ok.insert hk hn now 161 h ht hb hj hlt
  refine ⟨⟨hins.ok, hins.takes, ⟨hins.splits.1, hins.splits.2.trans ?_⟩, hins.place⟩, hmore⟩
  omega

/-- **A contact added is registered**, in the place of whatever was known of it. -/
theorem Ok.addContact (h : t.Ok own k) (hk : 1 ≤ k) (hn : n.id ≠ own.id) (now : Nat) :
    (t.addContact now n).1.Ok own k ∧ n ∈ (t.addContact now n).1.contacts := by
  obtain ⟨hins, -⟩ := h.addContact_inserted hk hn now
  obtain ⟨b, hb, -, hplace⟩ := hins.place
  refine ⟨hins.ok, List.mem_flatMap.mpr ⟨b, hb, List.mem_append.mpr ?_⟩⟩
  rcases hplace with ⟨hin, -⟩ | ⟨hin, -⟩
  · exact Or.inl hin
  · exact Or.inr hin

end RoutingTable

end AuthKademlia.Routing
