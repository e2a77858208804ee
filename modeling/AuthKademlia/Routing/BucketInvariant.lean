import AuthKademlia.Routing.Knowledge

/-! # The invariant of a bucket

Beyond ranges and sizes, it says when a bucket keeps replacements: only when it
is full, and only while none of its primaries is stale. Failures are never
recorded of replacements. With that, adding, removing and splitting all keep it:
a removed primary gives way to a contact without failures, and the primaries of a
bucket that splits fit into the halves before any replacement is added. -/
namespace AuthKademlia.Routing
open AuthKademlia.Lib.Xor AuthKademlia.Utils

/-- `is_stale`, of a map of failures. -/
def staleIn (health : NodeId → Option ContactHealth) (id : NodeId) : Bool :=
  (health id).any fun h => staleAfterFailures ≤ h.failures

namespace KBucket

/-- The ids of the primaries, then those of the replacements. -/
def ids (b : KBucket) : List NodeId := b.nodes.map Node.id ++ b.replacementNodes.map Node.id

/-- A bucket of the node `own` for at most `k` primaries. -/
structure Ok (own : NodeId) (k : Nat) (health : NodeId → Option ContactHealth) (b : KBucket) :
    Prop where
  ksize : b.ksize = k
  cap : b.maxReplacementNodes = k * 5
  block : ∃ j m, Block b.lo b.hi j m
  inside : ∀ id ∈ b.ids, b.covers (idToU256 id) = true
  nodup : b.ids.Nodup
  foreign : ∀ id ∈ b.ids, id ≠ own
  length_le : b.nodes.length ≤ k
  waiting_le : b.replacementNodes.length ≤ k * 5
  full : b.replacementNodes ≠ [] → b.nodes.length = k
  responsive : b.replacementNodes ≠ [] → ∀ id ∈ b.nodes.map Node.id, staleIn health id = false
  unfailed : ∀ id ∈ b.replacementNodes.map Node.id, health id = none

variable {own : NodeId} {k now : Nat} {health health' : NodeId → Option ContactHealth}
  {b : KBucket} {n : Node}

theorem mem_ids_left {id : NodeId} (h : id ∈ b.nodes.map Node.id) : id ∈ b.ids :=
  List.mem_append_left _ h

theorem mem_ids_right {id : NodeId} (h : id ∈ b.replacementNodes.map Node.id) : id ∈ b.ids :=
  List.mem_append_right _ h

theorem staleIn_of_none {id : NodeId} (h : health id = none) : staleIn health id = false := by
  simp [staleIn, h]

theorem Ok.mono (h : b.Ok own k health)
    (hm : ∀ id ∈ b.ids, health' id = none ∨ health' id = health id) : b.Ok own k health' where
  __ := h
  responsive := by
    intro hne id hid
    rcases hm id (mem_ids_left hid) with hn | he
    · exact staleIn_of_none hn
    · rw [staleIn, he]
      exact h.responsive hne id hid
  unfailed := by
    intro id hid
    rcases hm id (mem_ids_right hid) with hn | he
    · exact hn
    · rw [he]
      exact h.unfailed id hid

/-- The ids of a bucket change: those that stay are inside and foreign already. -/
theorem Ok.update (h : b.Ok own k health) {nodes waiting : List Node}
    (hids : ∀ id ∈ nodes.map Node.id ++ waiting.map Node.id,
      id ∈ b.ids ∨ b.covers (idToU256 id) = true ∧ id ≠ own)
    (hnodup : (nodes.map Node.id ++ waiting.map Node.id).Nodup) (hlength : nodes.length ≤ k)
    (hwaiting : waiting.length ≤ k * 5) (hfull : waiting ≠ [] → nodes.length = k)
    (hresponsive : waiting ≠ [] → ∀ id ∈ nodes.map Node.id, staleIn health id = false)
    (hunfailed : ∀ id ∈ waiting.map Node.id, health id = none) :
    Ok own k health { b with nodes := nodes, replacementNodes := waiting } where
  ksize := h.ksize
  cap := h.cap
  block := h.block
  inside := by
    intro id hid
    rcases hids id hid with hold | ⟨hcov, -⟩
    · exact h.inside id hold
    · exact hcov
  nodup := hnodup
  foreign := by
    intro id hid
    rcases hids id hid with hold | ⟨-, hne⟩
    · exact h.foreign id hold
    · exact hne
  length_le := hlength
  waiting_le := hwaiting
  full := hfull
  responsive := hresponsive
  unfailed := hunfailed

/-! ## Adding a node to a bucket -/

theorem map_eraseP (ns : List Node) (n : Node) :
    (ns.eraseP fun m => m.id = n.id).map Node.id = (ns.map Node.id).erase n.id := by
  rw [List.erase_eq_eraseP, List.eraseP_map]
  congr 2
  funext m
  show decide (m.id = n.id) = (n.id == m.id)
  rw [Bool.beq_eq_decide_eq, decide_eq_decide]
  exact eq_comm

theorem ids_moveToTail {ns : List Node} (h : n.id ∈ ns.map Node.id) :
    ((ns.eraseP (fun m => m.id = n.id) ++ [n]).map Node.id).Perm (ns.map Node.id) := by
  rw [List.map_append, map_eraseP, List.map_singleton]
  exact (List.perm_append_singleton _ _).trans (List.perm_cons_erase h).symm

theorem Ok.refresh (h : b.Ok own k health) (hn : b.contains n = true) :
    (b.addNode n).1.Ok own k health := by
  have hperm := ids_moveToTail (contains_iff.mp hn)
  unfold addNode
  rw [if_pos hn]
  refine h.update ?_ ?_ ?_ h.waiting_le ?_ ?_ h.unfailed
  · intro id hid
    exact Or.inl ((hperm.append_right _).mem_iff.mp hid)
  · exact (hperm.append_right _).nodup_iff.mpr h.nodup
  · have hlen := hperm.length_eq
    rw [List.length_map, List.length_map] at hlen
    rw [hlen]
    exact h.length_le
  · intro hne
    have hlen := hperm.length_eq
    rw [List.length_map, List.length_map] at hlen
    rw [hlen]
    exact h.full hne
  · intro hne id hid
    exact h.responsive hne id (hperm.mem_iff.mp hid)

theorem Ok.none_waiting (h : b.Ok own k health) (hlen : b.nodes.length ≠ k) :
    b.replacementNodes = [] := by
  by_contra hne
  exact hlen (h.full hne)

theorem Ok.append (h : b.Ok own k health) (hn : b.contains n = false) (hlen : b.nodes.length < k)
    (hcov : b.covers n.longId = true) (hown : n.id ≠ own) : (b.addNode n).1.Ok own k health := by
  have hnone := h.none_waiting (Nat.ne_of_lt hlen)
  have hnodes : (b.nodes.map Node.id).Nodup := (List.nodup_append.mp h.nodup).1
  rw [addNode_room hn (by rw [h.ksize]; exact hlen)]
  refine h.update ?_ ?_ ?_ h.waiting_le ?_ ?_ h.unfailed
  · intro id hid
    rw [hnone, List.map_nil, List.append_nil, List.map_append] at hid
    rcases List.mem_append.mp hid with hid | hid
    · exact Or.inl (mem_ids_left hid)
    · rw [List.map_singleton, List.mem_singleton] at hid
      subst hid
      exact Or.inr ⟨hcov, hown⟩
  · rw [hnone, List.map_nil, List.append_nil]
    exact nodup_append_new hnodes hn
  · rw [List.length_append, List.length_singleton]
    exact hlen
  · intro hne
    exact absurd hnone hne
  · intro hne
    exact absurd hnone hne

theorem enqueue_sublist (b : KBucket) (n : Node) :
    (b.enqueue n).Sublist (b.replacementNodes.eraseP (fun m => m.id = n.id) ++ [n]) :=
  List.drop_sublist _ _

theorem mem_enqueue {id : NodeId} (h : id ∈ (b.enqueue n).map Node.id) :
    id ∈ b.replacementNodes.map Node.id ∨ id = n.id := by
  have hmem := ((enqueue_sublist b n).map Node.id).subset h
  rw [List.map_append, List.mem_append] at hmem
  rcases hmem with hmem | hmem
  · exact Or.inl ((List.eraseP_sublist.map Node.id).subset hmem)
  · exact Or.inr (by simpa using hmem)

theorem length_enqueue (b : KBucket) (n : Node) :
    (b.enqueue n).length ≤ b.maxReplacementNodes := by
  unfold enqueue
  rw [List.length_drop]
  omega

theorem mem_enqueue_self (hcap : 1 ≤ b.maxReplacementNodes) : n ∈ b.enqueue n := by
  unfold enqueue
  rw [List.drop_append_of_le_length]
  · exact List.mem_append_right _ (List.mem_singleton_self n)
  · rw [List.length_append, List.length_singleton]
    omega

theorem Ok.enqueue (h : b.Ok own k health) (hn : b.contains n = false)
    (hlen : b.nodes.length = k) (hcov : b.covers n.longId = true) (hown : n.id ≠ own)
    (hstale : ∀ id ∈ b.nodes.map Node.id, staleIn health id = false)
    (hhealth : health n.id = none) : (b.addNode n).1.Ok own k health := by
  rw [Bool.eq_false_iff, Ne, contains_iff] at hn
  rw [addNode_full (by rwa [Bool.eq_false_iff, Ne, contains_iff]) (by rw [h.ksize, hlen])]
  refine h.update ?_ ?_ h.length_le ?_ (fun _ => hlen) (fun _ => hstale) ?_
  · intro id hid
    rcases List.mem_append.mp hid with hid | hid
    · exact Or.inl (mem_ids_left hid)
    · rcases mem_enqueue hid with hid | rfl
      · exact Or.inl (mem_ids_right hid)
      · exact Or.inr ⟨hcov, hown⟩
  · -- the newcomer's old entry is gone before it joins again
    obtain ⟨hnodes, hwaiting, hdisjoint⟩ := List.nodup_append.mp h.nodup
    have hsub := (enqueue_sublist b n).map Node.id
    rw [List.map_append, map_eraseP, List.map_singleton] at hsub
    refine List.nodup_append.mpr ⟨hnodes, ?_, ?_⟩
    · refine List.Nodup.sublist hsub ?_
      exact (List.perm_append_singleton _ _).nodup_iff.mpr
        (List.nodup_cons.mpr ⟨hwaiting.not_mem_erase, hwaiting.erase _⟩)
    · intro x hx y hy
      rcases mem_enqueue hy with hy | rfl
      · exact hdisjoint x hx y hy
      · exact fun he => hn (he ▸ hx)
  · rw [← h.cap]
    exact length_enqueue b n
  · intro id hid
    rcases mem_enqueue hid with hid | rfl
    · exact h.unfailed id hid
    · exact hhealth

theorem Ok.addNode (h : b.Ok own k health) (hcov : b.covers n.longId = true) (hown : n.id ≠ own)
    (hstale : b.contains n = false → b.nodes.length = k →
      ∀ id ∈ b.nodes.map Node.id, staleIn health id = false)
    (hhealth : b.contains n = false → health n.id = none) :
    (b.addNode n).1.Ok own k health := by
  by_cases hn : b.contains n = true
  · exact h.refresh hn
  · rw [Bool.not_eq_true] at hn
    by_cases hlen : b.nodes.length < k
    · exact h.append hn hlen hcov hown
    · have hfull : b.nodes.length = k := Nat.le_antisymm h.length_le (Nat.not_lt.mp hlen)
      exact h.enqueue hn hfull hcov hown (hstale hn hfull) (hhealth hn)

theorem nodes_addNode (b : KBucket) (n : Node) (id : NodeId) :
    (id ∈ b.nodes.map Node.id → id ∈ (b.addNode n).1.nodes.map Node.id) ∧
      (id ∈ (b.addNode n).1.nodes.map Node.id → id ∈ b.nodes.map Node.id ∨ id = n.id) := by
  unfold KBucket.addNode
  split
  · rename_i hn
    have hperm := ids_moveToTail (contains_iff.mp hn)
    exact ⟨hperm.mem_iff.mpr, fun hid => Or.inl (hperm.mem_iff.mp hid)⟩
  · split
    · rw [List.map_append, List.map_singleton]
      exact ⟨List.mem_append_left _, fun hid => (List.mem_append.mp hid).imp_right (by simp)⟩
    · exact ⟨fun hid => hid, Or.inl⟩

theorem mem_addNode {m : Node}
    (hm : m ∈ (b.addNode n).1.nodes ++ (b.addNode n).1.replacementNodes) :
    m ∈ b.nodes ++ b.replacementNodes ∨ m = n := by
  rw [List.mem_append] at hm ⊢
  unfold KBucket.addNode at hm
  split at hm
  · rcases hm with hm | hm
    · rcases List.mem_append.mp hm with hm | hm
      · exact Or.inl (Or.inl (List.mem_of_mem_eraseP hm))
      · exact Or.inr (List.mem_singleton.mp hm)
    · exact Or.inl (Or.inr hm)
  · split at hm
    · rcases hm with hm | hm
      · exact (List.mem_append.mp hm).imp Or.inl List.mem_singleton.mp
      · exact Or.inl (Or.inr hm)
    · rcases hm with hm | hm
      · exact Or.inl (Or.inl hm)
      · rcases List.mem_append.mp ((enqueue_sublist b n).subset hm) with hm | hm
        · exact Or.inl (Or.inr (List.mem_of_mem_eraseP hm))
        · exact Or.inr (List.mem_singleton.mp hm)

/-- An added node is registered, as a primary if the answer is `true` and as a
replacement otherwise. -/
theorem addNode_registers (hcap : 1 ≤ b.maxReplacementNodes) :
    ((b.addNode n).2 = true ∧ n ∈ (b.addNode n).1.nodes) ∨
      ((b.addNode n).2 = false ∧ n ∈ (b.addNode n).1.replacementNodes) := by
  unfold KBucket.addNode
  split
  · exact Or.inl ⟨rfl, List.mem_append_right _ (List.mem_singleton_self n)⟩
  · split
    · exact Or.inl ⟨rfl, List.mem_append_right _ (List.mem_singleton_self n)⟩
    · exact Or.inr ⟨rfl, mem_enqueue_self hcap⟩

theorem addNode_primary (hroom : b.nodes.length < b.ksize) :
    (b.addNode n).2 = true ∧ n ∈ (b.addNode n).1.nodes := by
  unfold KBucket.addNode
  split
  · exact ⟨rfl, List.mem_append_right _ (List.mem_singleton_self n)⟩
  · exact ⟨rfl, List.mem_append_right _ (List.mem_singleton_self n)⟩

theorem range_addNode (b : KBucket) (n : Node) :
    (b.addNode n).1.lo = b.lo ∧ (b.addNode n).1.hi = b.hi := by
  unfold KBucket.addNode
  split
  · exact ⟨rfl, rfl⟩
  · split <;> exact ⟨rfl, rfl⟩

theorem lastUpdated_addNode (b : KBucket) (n : Node) :
    (b.addNode n).1.lastUpdated = b.lastUpdated := by
  unfold KBucket.addNode
  split
  · rfl
  · split <;> rfl

theorem covers_congr {c : KBucket} (hlo : c.lo = b.lo) (hhi : c.hi = b.hi) (x : Nat) :
    c.covers x = b.covers x := by
  unfold covers
  rw [hlo, hhi]

/-! ## Removing a node from a bucket -/

/-- The replacements without the node `n`. -/
def others (b : KBucket) (n : Node) : List Node := b.replacementNodes.filter fun m => m.id ≠ n.id

/-- What `remove_node` can do: drop a replacement, drop a primary, or drop a
primary and promote the newest replacement. -/
theorem removeNode_cases (b : KBucket) (n : Node) :
    (b.contains n = false ∧ b.removeNode n = { b with replacementNodes := b.others n }) ∨
    (b.contains n = true ∧ b.others n = [] ∧
      b.removeNode n =
        { b with nodes := b.nodes.eraseP (fun m => m.id = n.id), replacementNodes := [] }) ∨
    ∃ rest newest, b.contains n = true ∧ b.others n = rest ++ [newest] ∧
      b.removeNode n =
        { b with nodes := b.nodes.eraseP (fun m => m.id = n.id) ++ [newest]
                 replacementNodes := rest } := by
  unfold removeNode
  by_cases hn : b.contains n = true
  · right
    rw [if_pos hn]
    rcases List.eq_nil_or_concat (b.others n) with he | ⟨rest, newest, he⟩
    · left
      refine ⟨hn, he, ?_⟩
      simp only [show b.replacementNodes.filter _ = [] from he, List.getLast?_nil]
    · right
      rw [List.concat_eq_append] at he
      refine ⟨rest, newest, hn, he, ?_⟩
      simp only [show b.replacementNodes.filter _ = rest ++ [newest] from he,
        List.getLast?_append, List.getLast?_singleton, Option.some_or, List.dropLast_concat]
  · left
    rw [if_neg hn]
    exact ⟨by simpa using hn, rfl⟩

theorem range_removeNode (b : KBucket) (n : Node) :
    (b.removeNode n).lo = b.lo ∧ (b.removeNode n).hi = b.hi := by
  obtain ⟨-, he⟩ | ⟨-, -, he⟩ | ⟨rest, newest, -, -, he⟩ := b.removeNode_cases n
  all_goals
    rw [he]
    exact ⟨rfl, rfl⟩

theorem lastUpdated_removeNode (b : KBucket) (n : Node) :
    (b.removeNode n).lastUpdated = b.lastUpdated := by
  obtain ⟨-, he⟩ | ⟨-, -, he⟩ | ⟨rest, newest, -, -, he⟩ := b.removeNode_cases n
  all_goals rw [he]

theorem others_sublist (b : KBucket) (n : Node) : (b.others n).Sublist b.replacementNodes :=
  List.filter_sublist

theorem length_eraseP_contains (hn : b.contains n = true) :
    (b.nodes.eraseP fun m => m.id = n.id).length + 1 = b.nodes.length := by
  obtain ⟨m, hm, hid⟩ := List.any_eq_true.mp hn
  have hpos := List.length_pos_of_mem hm
  rw [List.length_eraseP_of_mem hm hid]
  omega

/-- The replacement seen last takes the place of a primary that goes. It has no failures,
and the bucket stays full if others wait. -/
theorem Ok.promote (h : b.Ok own k health) (hn : b.contains n = true) {rest : List Node}
    {newest : Node} (hlast : b.others n = rest ++ [newest]) :
    Ok own k health { b with nodes := b.nodes.eraseP (fun m => m.id = n.id) ++ [newest]
                             replacementNodes := rest } := by
  have hothers := b.others_sublist n
  have herase : (b.nodes.eraseP fun m => m.id = n.id).Sublist b.nodes := List.eraseP_sublist
  -- the list of ids is that of `b` without `n`, up to the place of the promoted one
  have hperm : ((b.nodes.eraseP (fun m => m.id = n.id) ++ [newest]).map Node.id ++
      rest.map Node.id).Perm
      ((b.nodes.eraseP fun m => m.id = n.id).map Node.id ++ (b.others n).map Node.id) := by
    rw [hlast, List.map_append, List.map_append, List.append_assoc]
    exact List.Perm.append_left _ List.perm_append_comm
  have hsub := (herase.map Node.id).append (hothers.map Node.id)
  have hwait : b.replacementNodes ≠ [] := by
    intro hnil
    rw [others, hnil] at hlast
    simp at hlast
  have hmem : ∀ m ∈ rest ++ [newest], m ∈ b.replacementNodes := by
    intro m hm
    exact hothers.subset (hlast ▸ hm)
  have hlen := length_eraseP_contains hn
  have hfull := h.full hwait
  refine h.update ?_ ?_ ?_ ?_ (fun _ => ?_) (fun _ => ?_) ?_
  · intro id hid
    exact Or.inl (hsub.subset (hperm.mem_iff.mp hid))
  · exact hperm.nodup_iff.mpr (h.nodup.sublist hsub)
  · rw [List.length_append, List.length_singleton, hlen]
    exact h.length_le
  · have hle := hothers.length_le
    rw [hlast, List.length_append] at hle
    exact (Nat.le_of_add_right_le hle).trans h.waiting_le
  · rw [List.length_append, List.length_singleton, hlen]
    exact hfull
  · intro id hid
    rw [List.map_append, List.mem_append] at hid
    rcases hid with hid | hid
    · exact h.responsive hwait id ((herase.map Node.id).subset hid)
    · rw [List.map_singleton, List.mem_singleton] at hid
      subst hid
      exact staleIn_of_none (h.unfailed _ (List.mem_map_of_mem (hmem newest (by simp))))
  · intro id hid
    obtain ⟨m, hm, rfl⟩ := List.mem_map.mp hid
    exact h.unfailed _ (List.mem_map_of_mem (hmem m (List.mem_append_left _ hm)))

/-- **Removing a node keeps the invariant.** -/
theorem Ok.removeNode (h : b.Ok own k health) (n : Node) : (b.removeNode n).Ok own k health := by
  have hothers := b.others_sublist n
  have herase : (b.nodes.eraseP fun m => m.id = n.id).Sublist b.nodes := List.eraseP_sublist
  obtain ⟨-, he⟩ | ⟨hn, hnil, he⟩ | ⟨rest, newest, hn, hlast, he⟩ := b.removeNode_cases n
  · rw [he]
    have hne : b.others n ≠ [] → b.replacementNodes ≠ [] := by
      intro hne hnil
      rw [others, hnil] at hne
      exact hne rfl
    have hsub := (hothers.map Node.id).append_left (b.nodes.map Node.id)
    exact h.update (fun id hid => Or.inl (hsub.subset hid)) (h.nodup.sublist hsub) h.length_le
      (hothers.length_le.trans h.waiting_le) (fun hw => h.full (hne hw))
      (fun hw => h.responsive (hne hw))
      fun id hid => h.unfailed id ((hothers.map Node.id).subset hid)
  · rw [he]
    have hsub : ((b.nodes.eraseP fun m => m.id = n.id).map Node.id).Sublist b.ids :=
      (herase.map Node.id).trans (List.sublist_append_left _ _)
    refine h.update ?_ ?_ (herase.length_le.trans h.length_le) (Nat.zero_le _) (absurd rfl)
      (absurd rfl) (by simp)
    · intro id hid
      rw [List.map_nil, List.append_nil] at hid
      exact Or.inl (hsub.subset hid)
    · rw [List.map_nil, List.append_nil]
      exact h.nodup.sublist hsub
  · rw [he]
    exact h.promote hn hlast

theorem mem_removeNode {m : Node}
    (hm : m ∈ (b.removeNode n).nodes ++ (b.removeNode n).replacementNodes) :
    m ∈ b.nodes ++ b.replacementNodes := by
  rw [List.mem_append] at hm ⊢
  have hothers := (b.others_sublist n).subset
  obtain ⟨-, he⟩ | ⟨-, -, he⟩ | ⟨rest, newest, -, hlast, he⟩ := b.removeNode_cases n
  · rw [he] at hm
    exact hm.imp_right fun hm => hothers hm
  · rw [he] at hm
    exact hm.imp List.mem_of_mem_eraseP fun hm => absurd hm List.not_mem_nil
  · rw [hlast] at hothers
    rw [he] at hm
    rcases hm with hm | hm
    · rcases List.mem_append.mp hm with hm | hm
      · exact Or.inl (List.mem_of_mem_eraseP hm)
      · exact Or.inr (hothers (List.mem_append_right _ hm))
    · exact Or.inr (hothers (List.mem_append_left _ hm))

theorem mem_nodes_removeNode {id : NodeId} (hid : id ∈ b.nodes.map Node.id) (hne : id ≠ n.id) :
    id ∈ (b.removeNode n).nodes.map Node.id := by
  have herase : id ∈ (b.nodes.eraseP fun m => m.id = n.id).map Node.id := by
    rw [map_eraseP]
    exact (List.mem_erase_of_ne hne).mpr hid
  obtain ⟨-, he⟩ | ⟨-, -, he⟩ | ⟨rest, newest, -, -, he⟩ := b.removeNode_cases n
  · rw [he]
    exact hid
  · rw [he]
    exact herase
  · rw [he, List.map_append]
    exact List.mem_append_left _ herase

theorem Ok.room (h : b.Ok own k health) (hn : n ∈ b.nodes) (hstale : staleIn health n.id = true) :
    (b.removeNode n).nodes.length < k := by
  have hid := List.mem_map_of_mem (f := Node.id) hn
  have hnone : b.replacementNodes = [] := by
    by_contra hw
    rw [h.responsive hw n.id hid] at hstale
    cases hstale
  have hin := contains_iff.mpr hid
  have hlen := length_eraseP_contains hin
  have hle := h.length_le
  obtain ⟨hout, -⟩ | ⟨-, -, he⟩ | ⟨rest, newest, -, hlast, -⟩ := b.removeNode_cases n
  · rw [hin] at hout
    cases hout
  · rw [he]
    show (b.nodes.eraseP fun m => m.id = n.id).length < k
    omega
  · rw [others, hnone] at hlast
    simp at hlast

/-! ## Splitting a bucket -/

theorem ok_new {lo hi : Nat} (hblock : ∃ j m, Block lo hi j m) :
    (new now lo hi k).Ok own k health where
  ksize := rfl
  cap := rfl
  block := hblock
  inside := by simp [new, ids]
  nodup := by simp [new, ids]
  foreign := by simp [new, ids]
  length_le := Nat.zero_le _
  waiting_le := Nat.zero_le _
  full := absurd rfl
  responsive := absurd rfl
  unfailed := by simp [new]

theorem mem_addAll {m : Node} : ∀ (ns : List Node) {b : KBucket},
    m ∈ (b.addAll ns).nodes ++ (b.addAll ns).replacementNodes →
      m ∈ b.nodes ++ b.replacementNodes ∨ m ∈ ns
  | [], _, hm => Or.inl hm
  | n :: ns, b, hm => by
    rcases mem_addAll ns (b := (b.addNode n).1) hm with hm | hm
    · refine (mem_addNode hm).imp_right ?_
      rintro rfl
      exact List.mem_cons_self ..
    · exact Or.inr (List.mem_cons_of_mem n hm)

theorem mem_split {m : Node} {now : Nat}
    (hm : m ∈ (b.split now).1.nodes ++ (b.split now).1.replacementNodes ∨
      m ∈ (b.split now).2.nodes ++ (b.split now).2.replacementNodes) :
    m ∈ b.nodes ++ b.replacementNodes := by
  rw [split_eq] at hm
  rcases hm with hm | hm
  · rcases mem_addAll _ hm with hm | hm
    · exact absurd hm List.not_mem_nil
    · exact List.mem_of_mem_filter hm
  · rcases mem_addAll _ hm with hm | hm
    · exact absurd hm List.not_mem_nil
    · exact List.mem_of_mem_filter hm

theorem Ok.addAll : ∀ (ns : List Node) {b : KBucket}, b.Ok own k health →
    (∀ id ∈ b.nodes.map Node.id, staleIn health id = false) →
    (∀ m ∈ ns, b.covers m.longId = true ∧ m.id ≠ own ∧ health m.id = none) →
    (b.addAll ns).Ok own k health ∧ (b.addAll ns).lo = b.lo ∧ (b.addAll ns).hi = b.hi ∧
      ∀ id ∈ b.nodes.map Node.id, id ∈ (b.addAll ns).nodes.map Node.id
  | [], b, h, _, _ => ⟨h, rfl, rfl, fun _ hid => hid⟩
  | n :: ns, b, h, hstale, hns => by
    obtain ⟨hcov, hown, hhealth⟩ := hns n (List.mem_cons_self ..)
    obtain ⟨hlo, hhi⟩ := range_addNode b n
    have hok := h.addNode hcov hown (fun _ _ => hstale) fun _ => hhealth
    have hstale' : ∀ id ∈ (b.addNode n).1.nodes.map Node.id, staleIn health id = false := by
      intro id hid
      rcases (nodes_addNode b n id).2 hid with hid | rfl
      · exact hstale id hid
      · exact staleIn_of_none hhealth
    obtain ⟨hok', hlo', hhi', hkeep⟩ := Ok.addAll ns hok hstale' fun m hm =>
      ⟨by rw [covers_congr hlo hhi]; exact (hns m (List.mem_cons_of_mem n hm)).1,
        (hns m (List.mem_cons_of_mem n hm)).2⟩
    exact ⟨hok', hlo'.trans hlo, hhi'.trans hhi,
      fun id hid => hkeep id ((nodes_addNode b n id).1 hid)⟩

/-- **A half of a bucket** of responsive contacts: its primaries all fit, and the
replacements follow. -/
theorem Ok.half (h : b.Ok own k health)
    (hstale : ∀ id ∈ b.nodes.map Node.id, staleIn health id = false) (now : Nat) {lo hi : Nat}
    (hblock : ∃ j m, Block lo hi j m) {p : Node → Bool}
    (hp : ∀ m : Node, b.covers m.longId = true → p m = true → lo ≤ m.longId ∧ m.longId ≤ hi) :
    let c := (new now lo hi k).addAll ((b.nodes ++ b.replacementNodes).filter p)
    c.Ok own k health ∧ c.lo = lo ∧ c.hi = hi ∧
      ∀ m ∈ b.nodes, p m = true → m.id ∈ c.nodes.map Node.id := by
  have hsub : (b.nodes.filter p).Sublist b.nodes := List.filter_sublist
  have hin : ∀ m ∈ b.nodes ++ b.replacementNodes, p m = true → lo ≤ m.longId ∧ m.longId ≤ hi := by
    intro m hm
    have hid : m.id ∈ b.ids := by
      unfold ids
      rw [← List.map_append]
      exact List.mem_map_of_mem hm
    exact hp m (h.inside m.id hid)
  have hnodes : ((b.nodes.filter p).map Node.id).Nodup :=
    (List.nodup_append.mp h.nodup).1.sublist (hsub.map Node.id)
  have hfirst := addAll_room (b.nodes.filter p) (new now lo hi k) (by simpa [new] using hnodes)
    (by simpa [new] using hsub.length_le.trans h.length_le)
  rw [new_nodes, List.nil_append] at hfirst
  have hok : Ok own k health { new now lo hi k with nodes := b.nodes.filter p } := by
    refine (ok_new hblock).update ?_ (by simpa [new] using hnodes)
      (hsub.length_le.trans h.length_le) (Nat.zero_le _) (absurd rfl) (absurd rfl) (by simp [new])
    intro id hid
    rw [show (new now lo hi k).replacementNodes = [] from rfl, List.map_nil, List.append_nil] at hid
    obtain ⟨m, hm, rfl⟩ := List.mem_map.mp hid
    obtain ⟨hm, hpm⟩ := List.mem_filter.mp hm
    exact Or.inr ⟨covers_iff.mpr (hin m (List.mem_append_left _ hm) hpm),
      h.foreign _ (mem_ids_left (List.mem_map_of_mem hm))⟩
  obtain ⟨hok', hlo, hhi, hkeep⟩ := Ok.addAll (b.replacementNodes.filter p) hok
    (fun id hid => hstale id ((hsub.map Node.id).subset hid)) fun m hm => by
      obtain ⟨hm, hpm⟩ := List.mem_filter.mp hm
      have hid := List.mem_map_of_mem (f := Node.id) hm
      exact ⟨covers_iff.mpr (hin m (List.mem_append_right _ hm) hpm),
        h.foreign _ (mem_ids_right hid), h.unfailed _ hid⟩
  intro c
  have hc : c = KBucket.addAll { new now lo hi k with nodes := b.nodes.filter p }
      (b.replacementNodes.filter p) := by
    show (new now lo hi k).addAll _ = _
    rw [List.filter_append, KBucket.addAll, List.foldl_append, ← KBucket.addAll, ← KBucket.addAll,
      hfirst]
  rw [hc]
  exact ⟨hok', hlo, hhi, fun m hm hpm =>
    hkeep _ (List.mem_map_of_mem (List.mem_filter.mpr ⟨hm, hpm⟩))⟩

theorem Ok.splittable (h : b.Ok own k health) (hk : 1 ≤ k) (hw : b.replacementNodes ≠ [])
    {j m : Nat}
    (hj : Block b.lo b.hi j m) : ∃ i, j = i + 1 := by
  cases j with
  | succ i => exact ⟨i, rfl⟩
  | zero =>
    obtain ⟨q, hq⟩ := List.exists_mem_of_length_pos (l := b.nodes) (by rw [h.full hw]; omega)
    obtain ⟨r, hr⟩ := List.exists_mem_of_ne_nil _ hw
    have hq' := List.mem_map_of_mem (f := Node.id) hq
    have hr' := List.mem_map_of_mem (f := Node.id) hr
    have h₁ := covers_iff.mp (h.inside _ (mem_ids_left hq'))
    have h₂ := covers_iff.mp (h.inside _ (mem_ids_right hr'))
    obtain ⟨hlo, hhi⟩ := hj.eq_of_zero
    have hid : q.id = r.id := idToU256_injective (by omega)
    exact absurd hid ((List.nodup_append.mp h.nodup).2.2 _ hq' _ hr')

/-- **Both halves of a bucket with replacements** keep the invariant, and every
primary stays one. -/
theorem Ok.split (h : b.Ok own k health) (hw : b.replacementNodes ≠ []) (now : Nat) {j m : Nat}
    (hj : Block b.lo b.hi (j + 1) m) :
    let low := (b.split now).1
    let high := (b.split now).2
    (low.Ok own k health ∧ low.lo = b.lo ∧ low.hi = b.mid) ∧
    (high.Ok own k health ∧ high.lo = b.mid + 1 ∧ high.hi = b.hi) ∧
    ∀ id ∈ b.nodes.map Node.id, id ∈ low.nodes.map Node.id ++ high.nodes.map Node.id := by
  obtain ⟨hbl, hbh⟩ := hj.halves
  have hstale := h.responsive hw
  obtain ⟨hlow, hl₁, hl₂, hl⟩ := h.half hstale now ⟨j, _, hbl⟩ (p := fun n => n.longId ≤ b.mid)
    (fun n hn hp => ⟨(covers_iff.mp hn).1, of_decide_eq_true hp⟩)
  obtain ⟨hhigh, hh₁, hh₂, hh⟩ := h.half hstale now ⟨j, _, hbh⟩
    (p := fun n => ¬ n.longId ≤ b.mid)
    (fun n hn hp => ⟨Nat.lt_of_not_le (of_decide_eq_true hp), (covers_iff.mp hn).2⟩)
  rw [split_eq, h.ksize]
  refine ⟨⟨hlow, hl₁, hl₂⟩, ⟨hhigh, hh₁, hh₂⟩, ?_⟩
  intro id hid
  obtain ⟨n, hn, rfl⟩ := List.mem_map.mp hid
  by_cases hp : n.longId ≤ b.mid
  · exact List.mem_append_left _ (hl n hn (by simpa using hp))
  · exact List.mem_append_right _ (hh n hn (by simpa using hp))

end KBucket

end AuthKademlia.Routing
