import AuthKademlia.Protocol.Contacts

/-! # The routing table over whole runs

What holds of a table after any sequence of actions, and what a forged message
can do to such a table. -/
namespace AuthKademlia.Properties
open AuthKademlia.Routing AuthKademlia.Protocol AuthKademlia.Utils
open AuthKademlia.Routing.RoutingTable

/-- **The routing table invariant.** After any actions, in this order: the buckets
cover the key space one after the other; contacts lie in the range of their bucket;
no id is registered twice, the own id never; the sizes of the lists; only a full
bucket keeps replacements; only primaries have failures; only responsive primaries
have replacements waiting. -/
theorem routing_table_invariant (own : Node) {k : Nat} (hk : 1 ≤ k) (start : Nat)
    (actions : List Action) :
    let t := after start own k actions
    ((∀ b ∈ t.buckets, b.lo ≤ b.hi) ∧ t.buckets.Pairwise (fun b c => b.hi < c.lo) ∧
      ∀ x, x < 2 ^ 160 ↔ ∃ b ∈ t.buckets, b.lo ≤ x ∧ x ≤ b.hi) ∧
    (∀ b ∈ t.buckets, ∀ n ∈ b.nodes ++ b.replacementNodes, b.lo ≤ n.longId ∧ n.longId ≤ b.hi) ∧
    ((t.contacts.map Node.id).Nodup ∧ own.id ∉ t.contacts.map Node.id) ∧
    (∀ b ∈ t.buckets, b.nodes.length ≤ k ∧ b.replacementNodes.length ≤ 5 * k) ∧
    (∀ b ∈ t.buckets, b.replacementNodes ≠ [] → b.nodes.length = k) ∧
    (∀ id, t.hasFailures id = true → id ∈ t.primaries.map Node.id) ∧
    ∀ b ∈ t.buckets, b.replacementNodes ≠ [] → ∀ n ∈ b.nodes, t.isStale n.id = false := by
  intro t
  have h : t.Ok own k := ok_after hk start own actions
  refine ⟨⟨?_, h.tiles.pairwise, ?_⟩, ?_, ⟨h.nodup_contacts, ?_⟩, ?_, ?_, ?_, ?_⟩
  · intro b hb
    obtain ⟨j, m, hj⟩ := (h.buckets b hb).block
    exact hj.lo_le_hi
  · intro x
    constructor
    · intro hx
      obtain ⟨pre, b, post, ht, hb, -⟩ := h.tiles.find (Nat.zero_le x) hx
      exact ⟨b, mem_buckets ht, KBucket.covers_iff.mp hb⟩
    · rintro ⟨b, hb, hx⟩
      have := h.tiles.bounds b hb
      omega
  · intro b hb n hn
    refine KBucket.covers_iff.mp ((h.buckets b hb).inside n.id ?_)
    unfold KBucket.ids
    rw [← List.map_append]
    exact List.mem_map_of_mem hn
  · rw [map_contacts, List.mem_flatMap]
    rintro ⟨b, hb, hid⟩
    exact (h.buckets b hb).foreign own.id hid rfl
  · intro b hb
    exact ⟨(h.buckets b hb).length_le, Nat.mul_comm k 5 ▸ (h.buckets b hb).waiting_le⟩
  · intro b hb
    exact (h.buckets b hb).full
  · intro id hid
    exact h.failing id (Option.isSome_iff_ne_none.mp hid)
  · intro b hb hw n hn
    exact (h.buckets b hb).responsive hw n.id (List.mem_map_of_mem hn)

/-- A node with an id of twenty equal bytes. -/
def nodeAt (byte : UInt8) (port : UInt16) : Node := ⟨filledId byte, some "10.0.0.1", some port⟩

/-- With one contact to a bucket, the second node far from the own one has to wait. -/
def secondWaits : List Action :=
  [.addContact 1 (nodeAt 0x80 7000), .addContact 2 (nodeAt 0x81 7001)]

theorem routing_table_invariant_secondWaits :
    let t := after 0 (nodeAt 0 6999) 1 secondWaits
    (t.buckets.map fun b => (b.nodes, b.replacementNodes)) =
      [([], []), ([nodeAt 0x80 7000], [nodeAt 0x81 7001])] ∧
    ∀ b ∈ t.buckets, b.replacementNodes ≠ [] → b.nodes.length = 1 := by
  refine ⟨by decide +kernel, ?_⟩
  exact (routing_table_invariant (nodeAt 0 6999) Nat.one_pos 0 secondWaits).2.2.2.2.1

/-! ## Insertion -/

section Insertion

variable {own n : Node} {k j : Nat} {t : RoutingTable} {result : RoutingTable × Option Node}

theorem inserted_contact (hins : Inserted own n k j t result) : n ∈ result.1.contacts := by
  obtain ⟨b, hb, -, hplace⟩ := hins.place
  exact List.mem_flatMap.mpr ⟨b, hb, List.mem_append.mpr (hplace.imp And.left And.left)⟩

theorem inserted_unique {m m' : Node} (h : t.Ok own k) (hins : Inserted own n k j t result)
    (hm : m ∈ t.contacts) (hne : m.id ≠ n.id) (hm' : m' ∈ result.1.contacts) (hid : m'.id = m.id) :
    m' = m := by
  rcases hins.takes.known m' hm' with hold | rfl
  · exact List.inj_on_of_nodup_map h.nodup_contacts hold hm hid
  · exact absurd hid.symm hne

theorem inserted_keeps_fresh (h : t.Ok own k) (hins : Inserted own n k j t result) {m : Node}
    (hm : m ∈ t.primaries) (hfresh : t.isStale m.id = false) :
    (if m.id = n.id then n else m) ∈ result.1.primaries := by
  obtain ⟨gone, hstale, hkept⟩ := hins.takes.kept
  have hid : m.id ∈ result.1.primaries.map Node.id := by
    refine (hkept m.id (List.mem_map_of_mem hm)).resolve_right ?_
    intro hgone
    rw [hstale m.id hgone] at hfresh
    cases hfresh
  obtain ⟨m', hm', he⟩ := List.mem_map.mp hid
  have hcontact := primary_contact hm'
  split
  case isTrue heq =>
    have hsame := List.inj_on_of_nodup_map hins.ok.nodup_contacts hcontact
      (inserted_contact hins) (he.trans heq)
    rwa [← hsame]
  case isFalse hne =>
    have hsame := inserted_unique h hins (primary_contact hm) hne hcontact he
    rwa [← hsame]

/-- A full bucket has an oldest primary, so that `none` is no answer of it. -/
theorem inserted_answer_none (hk : 1 ≤ k) (hins : Inserted own n k j t result) :
    result.2 = none ↔ n ∈ result.1.primaries := by
  obtain ⟨b, hb, -, ⟨hin, hnone⟩ | ⟨hin, hclosed, hhead⟩⟩ := hins.place
  · exact iff_of_true hnone (List.mem_flatMap.mpr ⟨b, hb, hin⟩)
  · refine iff_of_false ?_ ?_
    · intro hnone
      have hempty := List.head?_eq_none_iff.mp (hhead.symm.trans hnone)
      have := hclosed.full
      rw [hempty, List.length_nil] at this
      omega
    · intro hmem
      exact hins.ok.replacement_not_primary hb hin (List.mem_map_of_mem hmem)

end Insertion

/-- **Insertion registers the node and loses no good contact.** In this order: it
ends after at most 160 splits, none of which makes an empty range; the node is
registered as given, in the bucket that covers it; primaries that are not stale
stay; at most one goes, a stale one; the answer is `none` exactly if the node is a
primary, and otherwise the oldest primary of a full bucket that may not split. -/
theorem insertion_registers_node (own : Node) {k : Nat} (hk : 1 ≤ k) (start : Nat)
    (actions : List Action) (n : Node) (hn : n.id ≠ own.id) (now : Nat) :
    let t := after start own k actions
    let t' := (t.addContact now n).1
    let answer := (t.addContact now n).2
    ((∀ more, t.insert now (161 + more) n = t.addContact now n) ∧
      t.buckets.length ≤ t'.buckets.length ∧ t'.buckets.length ≤ t.buckets.length + 160 ∧
      ∀ b ∈ t'.buckets, b.lo ≤ b.hi) ∧
    (∃ b ∈ t'.buckets, b.covers n.longId = true ∧ n ∈ b.nodes ++ b.replacementNodes) ∧
    (∀ m ∈ t.primaries, t.isStale m.id = false →
      (if m.id = n.id then n else m) ∈ t'.primaries) ∧
    (∃ gone : Option NodeId, (∀ id ∈ gone, t.isStale id = true) ∧
      ∀ m ∈ t.primaries, m.id ∈ t'.primaries.map Node.id ∨ gone = some m.id) ∧
    (answer = none ↔ n ∈ t'.primaries) ∧
    ∀ oldest, answer = some oldest → ∃ b ∈ t'.buckets, b.covers n.longId = true ∧
      b.nodes.head? = some oldest ∧ b.nodes.length = k ∧ b.covers own.longId = false ∧
      b.depth % 5 = 0 := by
  intro t t' answer
  have h : t.Ok own k := ok_after hk start own actions
  obtain ⟨hins, hmore⟩ := h.addContact_inserted hk hn now
  obtain ⟨gone, hstale, hkept⟩ := hins.takes.kept
  obtain ⟨b, hb, hcov, hplace⟩ := hins.place
  have hreg : n ∈ b.nodes ++ b.replacementNodes := by
    rw [List.mem_append]
    exact hplace.imp And.left And.left
  refine ⟨⟨hmore, hins.splits.1, hins.splits.2, ?_⟩, ⟨b, hb, hcov, hreg⟩,
    fun m hm hfresh => inserted_keeps_fresh h hins hm hfresh,
    ⟨gone, hstale, fun m hm => hkept m.id (List.mem_map_of_mem hm)⟩,
    inserted_answer_none hk hins, ?_⟩
  · intro c hc
    obtain ⟨j, m, hj⟩ := (hins.ok.buckets c hc).block
    exact hj.lo_le_hi
  · intro oldest holdest
    rcases hplace with ⟨-, hnone⟩ | ⟨-, hclosed, hhead⟩
    · cases hnone.symm.trans holdest
    · exact ⟨b, hb, hcov, hhead.symm.trans holdest, hclosed.full, hclosed.away, hclosed.depth⟩

/-- The second node waits behind the first, which is to be pinged. -/
theorem insertion_registers_node_secondWaits :
    let t := after 0 (nodeAt 0 6999) 1 [.addContact 1 (nodeAt 0x80 7000)]
    (t.addContact 2 (nodeAt 0x81 7001)).2 = some (nodeAt 0x80 7000) ∧
    nodeAt 0x81 7001 ∉ (t.addContact 2 (nodeAt 0x81 7001)).1.primaries := by
  have hspec := (insertion_registers_node (nodeAt 0 6999) Nat.one_pos 0
    [.addContact 1 (nodeAt 0x80 7000)] (nodeAt 0x81 7001) (by decide) 2).2.2.2.2.1
  have hanswer : ((after 0 (nodeAt 0 6999) 1 [.addContact 1 (nodeAt 0x80 7000)]).addContact 2
      (nodeAt 0x81 7001)).2 = some (nodeAt 0x80 7000) := by decide +kernel
  refine ⟨hanswer, fun hmem => ?_⟩
  have hnone := hspec.mpr hmem
  rw [hanswer] at hnone
  cases hnone

/-! ## Forged messages -/

theorem isNewNode_eq {own : Node} {k : Nat} {t : RoutingTable} (h : t.Ok own k) (n : Node) :
    t.isNewNode n = true ↔ n.id ∉ t.primaries.map Node.id := by
  obtain ⟨pre, b, post, ht, hb, hidx⟩ := h.bucket n.id
  have hget : t.buckets[pre.length]? = some b := by simp [ht]
  unfold isNewNode
  rw [show t.bucketIndexFor n.longId = pre.length from hidx, hget]
  simp only [Option.all_some, Bool.not_eq_true', Bool.eq_false_iff, Ne, KBucket.contains_iff]
  refine not_congr ⟨fun hn => (mem_primaries ht).mpr (Or.inl hn), ?_⟩
  exact h.primary_here (mem_buckets ht) hb

theorem getContact_foreign {own registered : Node} {k : Nat} {t : RoutingTable} {id : NodeId}
    (h : t.Ok own k) (hreg : t.getContact id = some registered) : id ≠ own.id := by
  have hmem := List.mem_of_find?_eq_some hreg
  have hid : registered.id = id := by simpa using List.find?_some hreg
  have hids : id ∈ t.contacts.map Node.id := hid ▸ List.mem_map_of_mem hmem
  rw [map_contacts, List.mem_flatMap] at hids
  obtain ⟨b, hb, hin⟩ := hids
  exact (h.buckets b hb).foreign id hin

/-- **When a forged message cannot redirect a contact.** A message from another
endpoint claims the id of a registered contact that is not stale. In every table
that can arise, the contact keeps its endpoint or is dropped exactly if it is a
primary contact. -/
theorem contact_not_redirected_iff (own : Node) {k : Nat} (hk : 1 ≤ k) (start : Nat)
    (actions : List Action) (s : Contacts) (hs : s.router = after start own k actions)
    (registered claimed : Node) (hreg : s.router.getContact claimed.id = some registered)
    (hother : registered.sameHomeAs claimed = false)
    (hstale : s.router.isStale claimed.id = false) (now : Nat) :
    (∀ contact, (s.scheduleWelcomeIfNew now claimed).1.router.getContact claimed.id =
        some contact → contact.sameHomeAs registered = true) ↔
      claimed.id ∈ s.router.primaries.map Node.id := by
  have h : s.router.Ok own k := hs ▸ ok_after hk start own actions
  rw [Contacts.scheduleWelcomeIfNew_router (noteAlive_forged hreg hother hstale now)]
  constructor
  · intro hkeep
    by_contra hnew
    rw [if_pos ((isNewNode_eq h claimed).mpr hnew)] at hkeep
    -- a replacement is inserted again, with the endpoint of the message
    obtain ⟨hok, hmem⟩ := h.addContact hk (getContact_foreign h hreg) now
    have hsame := hkeep claimed (hok.getContact_eq hmem)
    unfold Node.sameHomeAs at hsame hother
    rw [Bool.and_eq_true, decide_eq_true_eq, decide_eq_true_eq] at hsame
    simp [hsame] at hother
  · intro hprimary contact hcontact
    rw [if_neg fun hnew => (isNewNode_eq h claimed).mp hnew hprimary, hreg] at hcontact
    cases hcontact
    simp [Node.sameHomeAs]

/-- The node that waits is redirected by one message. -/
theorem waiting_contact_redirected :
    let s : Contacts := ⟨after 0 (nodeAt 0 6999) 1 secondWaits, ∅, ∅⟩
    let claimed := nodeAt 0x81 6666
    s.router.getContact claimed.id = some (nodeAt 0x81 7001) ∧
    s.router.isStale claimed.id = false ∧
    (s.scheduleWelcomeIfNew 3 claimed).1.router.getContact claimed.id = some claimed := by
  decide +kernel

/-- The primary contact keeps its endpoint. -/
theorem contact_not_redirected_iff_secondWaits :
    let s : Contacts := ⟨after 0 (nodeAt 0 6999) 1 secondWaits, ∅, ∅⟩
    let claimed := nodeAt 0x80 6666
    (∀ contact, (s.scheduleWelcomeIfNew 3 claimed).1.router.getContact claimed.id =
        some contact → contact.sameHomeAs (nodeAt 0x80 7000) = true) ↔
      claimed.id ∈ s.router.primaries.map Node.id :=
  contact_not_redirected_iff (nodeAt 0 6999) Nat.one_pos 0 secondWaits _ rfl (nodeAt 0x80 7000)
    (nodeAt 0x80 6666) (by decide +kernel) (by decide +kernel) (by decide +kernel) 3

end AuthKademlia.Properties
