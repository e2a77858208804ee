import AuthKademlia.Routing.BucketInvariant

/-! # The invariant of the routing table

It holds of a new table and is kept by everything that happens to one: contacts
removed, failures and answers recorded, lookups. That contacts added keep it is
proved with what an insertion does, in the next module. -/
namespace AuthKademlia.Routing
open AuthKademlia.Lib.Xor AuthKademlia.Utils KBucket

namespace RoutingTable

/-- The table of the node `own` with bucket size `k`. -/
structure Ok (own : Node) (k : Nat) (t : RoutingTable) : Prop where
  node : t.node = own
  ksize : t.ksize = k
  tiles : Tiles 0 t.buckets (2 ^ 160)
  buckets : ∀ b ∈ t.buckets, b.Ok own.id k t.health
  failing : ∀ id, t.health id ≠ none → id ∈ t.primaries.map Node.id

variable {own n : Node} {k now : Nat} {t : RoutingTable} {pre post : List KBucket}
  {b c : KBucket} {health' : NodeId → Option ContactHealth}

theorem ok_new (now : Nat) (own : Node) (k : Nat) : (new now own k).Ok own k where
  node := rfl
  ksize := rfl
  tiles := by simp [new, KBucket.new, Tiles]
  buckets := by
    intro b hb
    rw [new, List.mem_singleton] at hb
    subst hb
    exact KBucket.ok_new ⟨160, 0, by simp, by simp⟩
  failing := fun _ hid => absurd rfl hid

theorem Ok.bucket (h : t.Ok own k) (id : NodeId) :
    ∃ pre b post, t.buckets = pre ++ b :: post ∧ b.covers (idToU256 id) = true ∧
      t.bucketIndexFor (idToU256 id) = pre.length := by
  obtain ⟨pre, b, post, ht, hb, hpre, -⟩ := h.tiles.find (Nat.zero_le _) (idToU256_lt id)
  exact ⟨pre, b, post, ht, hb, bucketIndexFor_eq ht hb hpre⟩

theorem Ok.other_bucket (h : t.Ok own k) (ht : t.buckets = pre ++ b :: post) {x : Nat}
    (hb : b.covers x = true) (hc : c ∈ pre ∨ c ∈ post) : c.covers x = false := by
  have hx := covers_iff.mp hb
  have hpw := h.tiles.pairwise
  rw [ht, List.pairwise_append, List.pairwise_cons] at hpw
  obtain ⟨-, ⟨hpost, -⟩, hpre⟩ := hpw
  rw [Bool.eq_false_iff, Ne, covers_iff]
  rcases hc with hc | hc
  · have := hpre c hc b (List.mem_cons_self ..)
    omega
  · have := hpost c hc
    omega

theorem mem_buckets (ht : t.buckets = pre ++ b :: post) : b ∈ t.buckets := by
  rw [ht]
  exact List.mem_append_right _ (List.mem_cons_self ..)

theorem Ok.primary_here (h : t.Ok own k) (hb : b ∈ t.buckets) {id : NodeId}
    (hcov : b.covers (idToU256 id) = true) (hid : id ∈ t.primaries.map Node.id) :
    id ∈ b.nodes.map Node.id := by
  obtain ⟨m, hm, rfl⟩ := List.mem_map.mp hid
  obtain ⟨c, hc, hmc⟩ := List.mem_flatMap.mp hm
  have hcin := (h.buckets c hc).inside _ (mem_ids_left (List.mem_map_of_mem hmc))
  obtain ⟨pre, post, ht⟩ := List.append_of_mem hb
  rw [ht, List.mem_append, List.mem_cons] at hc
  rcases hc with hc | rfl | hc
  · rw [h.other_bucket ht hcov (Or.inl hc)] at hcin
    cases hcin
  · exact List.mem_map_of_mem hmc
  · rw [h.other_bucket ht hcov (Or.inr hc)] at hcin
    cases hcin

theorem Ok.failing_here (h : t.Ok own k) (hb : b ∈ t.buckets) {id : NodeId}
    (hcov : b.covers (idToU256 id) = true) (hid : t.health id ≠ none) :
    id ∈ b.nodes.map Node.id :=
  h.primary_here hb hcov (h.failing id hid)

theorem Ok.replacement_not_primary (h : t.Ok own k) (hb : b ∈ t.buckets)
    (hn : n ∈ b.replacementNodes) : n.id ∉ t.primaries.map Node.id := by
  intro hid
  have hok := h.buckets b hb
  have hwait := List.mem_map_of_mem (f := Node.id) hn
  have hprim := h.primary_here hb (hok.inside n.id (mem_ids_right hwait)) hid
  exact (List.nodup_append.mp hok.nodup).2.2 _ hprim _ hwait rfl

theorem primary_contact {m : Node} (hm : m ∈ t.primaries) : m ∈ t.contacts := by
  obtain ⟨b, hb, hm⟩ := List.mem_flatMap.mp hm
  exact List.mem_flatMap.mpr ⟨b, hb, List.mem_append_left _ hm⟩

theorem mem_primaries (ht : t.buckets = pre ++ b :: post) {id : NodeId} :
    id ∈ t.primaries.map Node.id ↔ id ∈ b.nodes.map Node.id ∨
      id ∈ (pre.flatMap KBucket.nodes ++ post.flatMap KBucket.nodes).map Node.id := by
  unfold primaries
  rw [ht, List.flatMap_append, List.flatMap_cons]
  simp only [List.map_append, List.mem_append]
  exact or_left_comm

/-- **One bucket changes**, with the failures of contacts in its range; elsewhere
failures can only be forgotten. -/
theorem Ok.set (h : t.Ok own k) (ht : t.buckets = pre ++ b :: post) (hlo : c.lo = b.lo)
    (hhi : c.hi = b.hi) (hc : c.Ok own.id k health')
    (haway : ∀ id, b.covers (idToU256 id) = false → health' id = none ∨ health' id = t.health id)
    (hhere : ∀ id, b.covers (idToU256 id) = true → health' id ≠ none →
      id ∈ c.nodes.map Node.id) :
    Ok own k { t with buckets := pre ++ c :: post, health := health' } where
  node := h.node
  ksize := h.ksize
  tiles := by
    have htiles := h.tiles
    rw [ht, Tiles.append_iff] at htiles
    obtain ⟨m, h₁, h₂⟩ := htiles
    exact Tiles.append_iff.mpr ⟨m, h₁, by simpa [Tiles, hlo, hhi] using h₂⟩
  buckets := by
    have hother : ∀ d, d ∈ pre ∨ d ∈ post → d.Ok own.id k health' := by
      intro d hd
      have hdmem : d ∈ t.buckets := by
        rw [ht]
        rcases hd with hd | hd <;> simp [hd]
      refine (h.buckets d hdmem).mono ?_
      intro id hid
      refine haway id ?_
      rw [Bool.eq_false_iff]
      intro hcov
      have hin := (h.buckets d hdmem).inside id hid
      rw [h.other_bucket ht hcov hd] at hin
      cases hin
    intro d hd
    rcases List.mem_append.mp hd with hd | hd
    · exact hother d (Or.inl hd)
    · rcases List.mem_cons.mp hd with rfl | hd
      · exact hc
      · exact hother d (Or.inr hd)
  failing := by
    intro id hid
    rw [mem_primaries (b := c) rfl]
    by_cases hcov : b.covers (idToU256 id) = true
    · exact Or.inl (hhere id hcov hid)
    · have hold : t.health id ≠ none := by
        rcases haway id (by simpa using hcov) with hn | he
        · exact absurd hn hid
        · rwa [← he]
      refine Or.inr (((mem_primaries ht).mp (h.failing id hold)).resolve_left ?_)
      intro hmem
      exact hcov ((h.buckets b (mem_buckets ht)).inside id (mem_ids_left hmem))

theorem Ok.setBucket (h : t.Ok own k) (ht : t.buckets = pre ++ b :: post) (hlo : c.lo = b.lo)
    (hhi : c.hi = b.hi) (hc : c.Ok own.id k t.health)
    (hkeep : ∀ id ∈ b.nodes.map Node.id, t.health id ≠ none → id ∈ c.nodes.map Node.id) :
    Ok own k { t with buckets := pre ++ c :: post } :=
  h.set ht hlo hhi hc (fun _ _ => Or.inr rfl) fun id hcov hid =>
    hkeep id (h.failing_here (mem_buckets ht) hcov hid) hid

/-! ## Removing contacts -/

theorem modify_length (f : KBucket → KBucket) :
    ∀ pre : List KBucket, (pre ++ b :: post).modify pre.length f = pre ++ f b :: post
  | [] => rfl
  | d :: pre => by simp [modify_length f pre]

theorem removeContact_eq (ht : t.buckets = pre ++ b :: post)
    (hidx : t.bucketIndexFor n.longId = pre.length) :
    t.removeContact n =
      { t with buckets := pre ++ b.removeNode n :: post
               health := Function.update t.health n.id none } := by
  unfold removeContact
  rw [hidx, ht, modify_length]

theorem forgotten (health : NodeId → Option ContactHealth) (id x : NodeId) :
    Function.update health id none x = none ∨ Function.update health id none x = health x := by
  by_cases hx : x = id
  · exact Or.inl (by rw [hx, Function.update_self])
  · exact Or.inr (Function.update_of_ne hx ..)

theorem Ok.removeContact (h : t.Ok own k) (n : Node) : (t.removeContact n).Ok own k := by
  obtain ⟨pre, b, post, ht, -, hidx⟩ := h.bucket n.id
  rw [removeContact_eq ht hidx]
  obtain ⟨hlo, hhi⟩ := range_removeNode b n
  refine h.set ht hlo hhi ?_ (fun id _ => forgotten t.health n.id id) ?_
  · exact ((h.buckets b (mem_buckets ht)).removeNode n).mono fun id _ => forgotten t.health n.id id
  · intro id hcov hid
    have hne : id ≠ n.id := by
      intro he
      exact hid (by rw [he, Function.update_self])
    rw [Function.update_of_ne hne] at hid
    exact mem_nodes_removeNode (h.failing_here (mem_buckets ht) hcov hid) hne

theorem Ok.index (h : t.Ok own k) (ht : t.buckets = pre ++ b :: post) {x : Nat}
    (hb : b.covers x = true) : t.bucketIndexFor x = pre.length :=
  bucketIndexFor_eq ht hb fun _ hc => h.other_bucket ht hb (Or.inl hc)

/-! ## Failures, answers and lookups -/

theorem Ok.setHealth (h : t.Ok own k) (ht : t.buckets = pre ++ b :: post)
    (hn : b.contains n = true) (failing : ContactHealth)
    (hstale : b.replacementNodes ≠ [] → failing.failures < staleAfterFailures) :
    Ok own k { t with health := Function.update t.health n.id (some failing) } := by
  have hok := h.buckets b (mem_buckets ht)
  have hnode := contains_iff.mp hn
  have hcov := hok.inside n.id (mem_ids_left hnode)
  have hself : { t with health := Function.update t.health n.id (some failing) } =
      { t with buckets := pre ++ b :: post
               health := Function.update t.health n.id (some failing) } := by rw [← ht]
  rw [hself]
  refine h.set ht rfl rfl { hok with responsive := ?_, unfailed := ?_ } ?_ ?_
  · intro hw id hid
    by_cases he : id = n.id
    · simpa [staleIn, he] using hstale hw
    · rw [staleIn, Function.update_of_ne he]
      exact hok.responsive hw id hid
  · intro id hid
    have hne : id ≠ n.id := fun he =>
      (List.nodup_append.mp hok.nodup).2.2 n.id hnode id hid he.symm
    rw [Function.update_of_ne hne]
    exact hok.unfailed id hid
  · intro id hout
    refine Or.inr (Function.update_of_ne ?_ ..)
    intro he
    rw [he, hcov] at hout
    cases hout
  · intro id hin hid
    by_cases he : id = n.id
    · rw [he]
      exact hnode
    · rw [Function.update_of_ne he] at hid
      exact h.failing_here (mem_buckets ht) hin hid

theorem Ok.noteHealth (h : t.Ok own k) (ht : t.buckets = pre ++ b :: post)
    (hn : b.contains n = true) (failing : ContactHealth) :
    (t.noteHealth n failing b.hasReplacement).Ok own k := by
  unfold RoutingTable.noteHealth
  split
  · -- the failures of a contact that goes are forgotten with it
    have hforget : ({ t with health := Function.update t.health n.id (some failing) } :
        RoutingTable).removeContact n = t.removeContact n := by
      simp only [RoutingTable.removeContact, Function.update_idem]
      rfl
    rw [hforget]
    exact h.removeContact n
  · rename_i hkeep
    refine h.setHealth ht hn failing ?_
    intro hw
    by_contra hstale
    exact hkeep ⟨Nat.not_lt.mp hstale, by simpa [hasReplacement] using hw⟩

theorem Ok.recordFailureAt (h : t.Ok own k) (n : Node) (now jitter : Nat) :
    (t.recordFailureAt n now jitter).Ok own k := by
  obtain ⟨pre, b, post, ht, -, hidx⟩ := h.bucket n.id
  have hget : t.buckets[pre.length]? = some b := by simp [ht]
  have hset : t.buckets.set pre.length (b.removeNode n) = pre ++ b.removeNode n :: post := by
    simp [ht]
  unfold RoutingTable.recordFailureAt
  simp only [show t.bucketIndexFor n.longId = pre.length from hidx, hget, hset]
  by_cases hn : b.contains n = true
  · simp only [hn, Bool.not_true, Bool.false_eq_true, if_false]
    split
    · split
      · exact h
      · exact h.noteHealth ht hn _
    · exact h.noteHealth ht hn _
  · have hout : b.contains n = false := by simpa using hn
    obtain ⟨hlo, hhi⟩ := range_removeNode b n
    simp only [hout, Bool.not_false, if_true]
    refine h.setBucket ht hlo hhi ((h.buckets b (mem_buckets ht)).removeNode n) ?_
    intro id hid _
    refine mem_nodes_removeNode hid ?_
    intro he
    rw [contains_iff] at hn
    exact hn (he ▸ hid)

theorem Ok.recordSuccess (h : t.Ok own k) (now : Nat) (id : NodeId) :
    (t.recordSuccess now id).2.Ok own k := by
  refine ⟨h.node, h.ksize, h.tiles,
    fun b hb => (h.buckets b hb).mono fun x _ => forgotten t.health id x, ?_⟩
  intro x hx
  refine h.failing x ?_
  rcases forgotten t.health id x with hn | he
  · exact absurd hn hx
  · rwa [← he]

theorem Ok.touchTarget (h : t.Ok own k) (now : Nat) (target : Node) :
    (t.touchTarget now target).Ok own k := by
  obtain ⟨pre, b, post, ht, -, hidx⟩ := h.bucket target.id
  unfold RoutingTable.touchTarget
  rw [show t.bucketIndexFor target.longId = pre.length from hidx, ht, modify_length]
  have hok := h.buckets b (mem_buckets ht)
  exact h.setBucket ht rfl rfl { hok with } fun id hid _ => hid

/-! ## What the invariant says of the contacts -/

theorem map_contacts (t : RoutingTable) :
    t.contacts.map Node.id = t.buckets.flatMap KBucket.ids := by
  unfold contacts KBucket.ids
  rw [List.map_flatMap]
  simp only [List.map_append]

/-- **No id is registered twice.** -/
theorem Ok.nodup_contacts (h : t.Ok own k) : (t.contacts.map Node.id).Nodup := by
  rw [map_contacts, List.nodup_flatMap]
  refine ⟨fun b hb => (h.buckets b hb).nodup, ?_⟩
  refine h.tiles.pairwise.imp_of_mem ?_
  intro b c hb hc hlt id hidb hidc
  have h₁ := covers_iff.mp ((h.buckets b hb).inside id hidb)
  have h₂ := covers_iff.mp ((h.buckets c hc).inside id hidc)
  omega

theorem Ok.nodup_primaries (h : t.Ok own k) : (t.primaries.map Node.id).Nodup := by
  refine h.nodup_contacts.sublist (List.Sublist.map _ ?_)
  exact List.Sublist.flatMap_right _ fun b _ => List.sublist_append_left _ _

/-- `get_contact` finds the registered contact. -/
theorem Ok.getContact_eq (h : t.Ok own k) (hn : n ∈ t.contacts) : t.getContact n.id = some n := by
  unfold getContact
  rcases hfind : t.contacts.find? fun m => decide (m.id = n.id) with _ | m
  · have hnone := List.find?_eq_none.mp hfind n hn
    simp at hnone
  · have hid : m.id = n.id := by simpa using List.find?_some hfind
    have hm := List.mem_of_find?_eq_some hfind
    rw [hfind, List.inj_on_of_nodup_map h.nodup_contacts hm hn hid]

end RoutingTable

end AuthKademlia.Routing
