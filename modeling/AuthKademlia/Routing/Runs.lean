import AuthKademlia.Routing.Insertion

/-! # Runs of a routing table

Everything that happens to a table is a list of actions. With room for contacts
the invariant holds after any of them; without, the table stays bare. -/
namespace AuthKademlia.Routing
open AuthKademlia.Utils KBucket

namespace RoutingTable

variable {own n : Node} {k now : Nat} {t : RoutingTable}

/-! ## Runs -/

/-- What can happen to a table. A lookup touches the bucket of its target. -/
inductive Action
  | addContact (now : Nat) (n : Node)
  | removeContact (n : Node)
  | recordFailureAt (n : Node) (now jitter : Nat)
  | recordSuccess (now : Nat) (id : NodeId)
  | touchTarget (now : Nat) (target : Node)
  | setMinLookupContacts (count : Nat)

def act (t : RoutingTable) : Action → RoutingTable
  | .addContact now n => (t.addContact now n).1
  | .removeContact n => t.removeContact n
  | .recordFailureAt n now jitter => t.recordFailureAt n now jitter
  | .recordSuccess now id => (t.recordSuccess now id).2
  | .touchTarget now target => t.touchTarget now target
  | .setMinLookupContacts count => t.setMinLookupContacts count

theorem Ok.act (h : t.Ok own k) (hk : 1 ≤ k) (a : Action) : (t.act a).Ok own k := by
  cases a with
  | addContact now n =>
    show (t.addContact now n).1.Ok own k
    by_cases hn : n.id = own.id
    · rw [RoutingTable.addContact, h.node, if_pos hn]
      exact h
    · exact (h.addContact hk hn now).1
  | removeContact n => exact h.removeContact n
  | recordFailureAt n now jitter => exact h.recordFailureAt n now jitter
  | recordSuccess now id => exact h.recordSuccess now id
  | touchTarget now target => exact h.touchTarget now target
  | setMinLookupContacts count => exact ⟨h.node, h.ksize, h.tiles, h.buckets, h.failing⟩

/-- The table of `own` after `actions`. -/
def after (start : Nat) (own : Node) (k : Nat) (actions : List Action) : RoutingTable :=
  actions.foldl RoutingTable.act (.new start own k)

/-- **The invariant holds after any actions.** -/
theorem ok_after (hk : 1 ≤ k) (start : Nat) (own : Node) (actions : List Action) :
    (after start own k actions).Ok own k := by
  induction actions using List.reverseRecOn with
  | nil => exact ok_new start own k
  | append_singleton actions a ih =>
    rw [after, List.foldl_append]
    exact ih.act hk a

end RoutingTable

/-! ## Tables without room -/

structure KBucket.Bare (b : KBucket) : Prop where
  ksize : b.ksize = 0
  nodes : b.nodes = []

namespace KBucket

variable {b : KBucket} {n : Node}

theorem Bare.not_contains (h : b.Bare) (n : Node) : b.contains n = false := by
  simp [contains, h.nodes]

theorem Bare.addNode (h : b.Bare) (n : Node) : (b.addNode n).1.Bare := by
  rw [addNode_full (h.not_contains n) (by rw [h.ksize]; exact Nat.zero_le _)]
  exact ⟨h.ksize, h.nodes⟩

theorem Bare.removeNode (h : b.Bare) (n : Node) : (b.removeNode n).Bare := by
  unfold KBucket.removeNode
  rw [if_neg (by rw [h.not_contains]; exact Bool.false_ne_true)]
  exact ⟨h.ksize, h.nodes⟩

theorem Bare.addAll (ns : List Node) : ∀ {b : KBucket}, b.Bare → (b.addAll ns).Bare := by
  induction ns with
  | nil => exact id
  | cons n ns ih => exact fun h => ih (h.addNode n)

theorem Bare.split (h : b.Bare) (now : Nat) : (b.split now).1.Bare ∧ (b.split now).2.Bare := by
  rw [split_eq]
  exact ⟨Bare.addAll _ ⟨h.ksize, rfl⟩, Bare.addAll _ ⟨h.ksize, rfl⟩⟩

end KBucket

namespace RoutingTable

variable {own n : Node} {k now : Nat} {t : RoutingTable}

/-- A table for buckets of no contacts. -/
structure Bare (t : RoutingTable) : Prop where
  ksize : t.ksize = 0
  buckets : ∀ b ∈ t.buckets, b.Bare
  unfailed : ∀ id, t.health id = none

theorem Bare.setBucket (h : t.Bare) {b : KBucket} (hb : b.Bare) (idx : Nat) :
    Bare { t with buckets := t.buckets.set idx b } where
  ksize := h.ksize
  buckets := fun c hc => (List.mem_or_eq_of_mem_set hc).elim (h.buckets c) fun he => he ▸ hb
  unfailed := h.unfailed

theorem Bare.modifyBucket (h : t.Bare) {f : KBucket → KBucket}
    (hf : ∀ b : KBucket, b.Bare → (f b).Bare) (idx : Nat) :
    Bare { t with buckets := t.buckets.modify idx f } where
  ksize := h.ksize
  buckets := by
    intro c hc
    obtain ⟨i, hi, rfl⟩ := List.mem_iff_getElem.mp hc
    rw [List.getElem_modify]
    have hmem := h.buckets _ (List.getElem_mem (by simpa using hi))
    split
    · exact hf _ hmem
    · exact hmem
  unfailed := h.unfailed

theorem Bare.splitBucket (h : t.Bare) (now idx : Nat) : (t.splitBucket now idx).Bare := by
  unfold RoutingTable.splitBucket
  split
  · exact h
  · rename_i b hb
    obtain ⟨hlow, hhigh⟩ := (h.buckets b (List.mem_of_getElem? hb)).split now
    refine ⟨h.ksize, ?_, h.unfailed⟩
    intro c hc
    rcases List.eq_or_mem_of_mem_insertIdx hc with rfl | hc
    · exact hlow
    · rcases List.eq_or_mem_of_mem_insertIdx hc with rfl | hc
      · exact hhigh
      · exact h.buckets c (List.mem_of_mem_eraseIdx hc)

theorem Bare.replaceStaleIfFull (h : t.Bare) (idx : Nat) (n : Node) :
    t.replaceStaleIfFull idx n = t := by
  unfold RoutingTable.replaceStaleIfFull
  split
  · rfl
  · rename_i b hb
    simp [(h.buckets b (List.mem_of_getElem? hb)).nodes]

theorem Bare.insert (n : Node) (now fuel : Nat) : ∀ {t : RoutingTable}, t.Bare →
    (t.insert now fuel n).1.Bare := by
  induction fuel with
  | zero => exact id
  | succ fuel ih =>
    intro t h
    rw [RoutingTable.insert, h.replaceStaleIfFull]
    split
    · exact h
    · rename_i b hb
      have hadded := h.setBucket ((h.buckets b (List.mem_of_getElem? hb)).addNode n)
        (t.bucketIndexFor n.longId)
      dsimp only
      split
      · exact hadded
      · split
        · exact ih (hadded.splitBucket now _)
        · exact hadded

theorem Bare.forget (h : t.Bare) (id : NodeId) :
    Bare { t with health := Function.update t.health id none } where
  ksize := h.ksize
  buckets := h.buckets
  unfailed := by
    intro x
    rcases forgotten t.health id x with hn | he
    · exact hn
    · exact he.trans (h.unfailed x)

theorem Bare.act (h : t.Bare) (a : Action) : (t.act a).Bare := by
  cases a with
  | addContact now n =>
    show (t.addContact now n).1.Bare
    unfold RoutingTable.addContact
    split
    · exact h
    · exact Bare.insert n now 161 h
  | removeContact n => exact (h.modifyBucket (fun b hb => hb.removeNode n) _).forget n.id
  | recordFailureAt n now jitter =>
    show (t.recordFailureAt n now jitter).Bare
    unfold RoutingTable.recordFailureAt
    dsimp only
    split
    · exact h
    · rename_i b hb
      have hbare := h.buckets b (List.mem_of_getElem? hb)
      rw [hbare.not_contains]
      exact h.setBucket (hbare.removeNode n) _
  | recordSuccess now id => exact h.forget id
  | touchTarget now target =>
    exact h.modifyBucket (f := fun b => { b with lastUpdated := now })
      (fun b hb => ⟨hb.ksize, hb.nodes⟩) _
  | setMinLookupContacts count => exact ⟨h.ksize, h.buckets, h.unfailed⟩

theorem bare_after (start : Nat) (own : Node) (actions : List Action) :
    (after start own 0 actions).Bare := by
  induction actions using List.reverseRecOn with
  | nil =>
    refine ⟨rfl, ?_, fun _ => rfl⟩
    intro b hb
    rw [after, List.foldl_nil, new, List.mem_singleton] at hb
    exact hb ▸ ⟨rfl, rfl⟩
  | append_singleton actions a ih =>
    rw [after, List.foldl_append]
    exact ih.act a

theorem Bare.primaries (h : t.Bare) : t.primaries = [] := by
  unfold RoutingTable.primaries
  rw [List.flatMap_eq_nil_iff]
  exact fun b hb => (h.buckets b hb).nodes

/-! ## What holds of every table -/

theorem ksize_after (start : Nat) (own : Node) (k : Nat) (actions : List Action) :
    (after start own k actions).ksize = k := by
  rcases Nat.eq_zero_or_pos k with rfl | hk
  · exact (bare_after start own actions).ksize
  · exact (ok_after hk start own actions).ksize

theorem nodup_primaries_after (start : Nat) (own : Node) (k : Nat) (actions : List Action) :
    ((after start own k actions).primaries.map Node.id).Nodup := by
  rcases Nat.eq_zero_or_pos k with rfl | hk
  · rw [(bare_after start own actions).primaries]
    exact List.nodup_nil
  · exact (ok_after hk start own actions).nodup_primaries

theorem own_not_primary_after (start : Nat) (own : Node) (k : Nat) (actions : List Action) :
    own.id ∉ (after start own k actions).primaries.map Node.id := by
  rcases Nat.eq_zero_or_pos k with rfl | hk
  · rw [(bare_after start own actions).primaries]
    exact List.not_mem_nil
  · intro hown
    obtain ⟨n, hn, hid⟩ := List.mem_map.mp hown
    obtain ⟨b, hb, hnb⟩ := List.mem_flatMap.mp hn
    exact ((ok_after hk start own actions).buckets b hb).foreign own.id
      (mem_ids_left (hid ▸ List.mem_map_of_mem hnb)) rfl

/-! ## A contact that stays silent -/

/-- Nothing is heard of the contact, and a failure of it is noted only before
`retryAfter`, within its backoff. -/
def Action.Silent (id : NodeId) (retryAfter : Nat) : Action → Prop
  | .addContact _ n => n.id ≠ id
  | .removeContact n => n.id ≠ id
  | .recordFailureAt n now _ => n.id = id → now < retryAfter
  | .recordSuccess _ id' => id' ≠ id
  | .touchTarget _ _ => True
  | .setMinLookupContacts _ => True

theorem health_removeContact {id : NodeId} (hne : n.id ≠ id) :
    (t.removeContact n).health id = t.health id :=
  Function.update_of_ne hne.symm ..

theorem health_noteHealth {id : NodeId} (hne : n.id ≠ id) (health : ContactHealth)
    (replaceable : Bool) : (t.noteHealth n health replaceable).health id = t.health id := by
  unfold noteHealth
  dsimp only
  split
  · rw [health_removeContact hne]
    exact Function.update_of_ne hne.symm ..
  · exact Function.update_of_ne hne.symm ..

theorem health_recordFailureAt {id : NodeId} (hne : n.id ≠ id) (now jitter : Nat) :
    (t.recordFailureAt n now jitter).health id = t.health id := by
  unfold recordFailureAt
  dsimp only
  split
  · rfl
  · split
    · rfl
    · split
      · split
        · rfl
        · exact health_noteHealth hne _ _
      · exact health_noteHealth hne _ _

theorem Ok.recordFailureAt_primary (h : t.Ok own k) (hn : n.id ∈ t.primaries.map Node.id)
    (now jitter : Nat) :
    ∃ b ∈ t.buckets, t.recordFailureAt n now jitter =
      match t.health n.id with
      | some health =>
        if now < health.retryAfter then t
        else
          let failures := (health.failures + 1) % 2 ^ 32
          t.noteHealth n ⟨failures, health.firstFailure, now + backoff failures jitter⟩
            b.hasReplacement
      | none => t.noteHealth n ⟨1, now, now + backoff 1 jitter⟩ b.hasReplacement := by
  obtain ⟨pre, b, post, ht, hb, hidx⟩ := h.bucket n.id
  have hget : t.buckets[pre.length]? = some b := by simp [ht]
  have hin : b.contains n = true := contains_iff.mpr (h.primary_here (mem_buckets ht) hb hn)
  refine ⟨b, mem_buckets ht, ?_⟩
  unfold RoutingTable.recordFailureAt
  dsimp only
  rw [show t.bucketIndexFor n.longId = pre.length from hidx, hget]
  dsimp only
  rw [hin]
  rfl

theorem noteHealth_few {health : ContactHealth} (hfew : health.failures < staleAfterFailures)
    (replaceable : Bool) : (t.noteHealth n health replaceable).health n.id = some health := by
  unfold noteHealth
  rw [if_neg fun hstale => Nat.not_le.mpr hfew hstale.1]
  exact Function.update_self ..

/-- A failure at `now` is at most the fourth in a row. -/
def FewFailures (t : RoutingTable) (id : NodeId) (now : Nat) : Prop :=
  ∀ health, t.health id = some health →
    health.failures + 1 < staleAfterFailures ∨
      now < health.retryAfter ∧ health.failures < staleAfterFailures

theorem lt_add_backoff (now failures jitter : Nat) : now < now + backoff failures jitter := by
  have hpow : 1 ≤ 2 ^ min (failures - 1) 16 := Nat.one_le_two_pow
  have hbase : backoffBase ≤ backoffBase * 2 ^ min (failures - 1) 16 :=
    Nat.le_mul_of_pos_right _ hpow
  have hpos : 0 < backoffBase := by decide
  have hmax : 0 < backoffMax := by decide
  unfold backoff
  dsimp only
  omega

theorem Ok.health_noted (h : t.Ok own k) (hn : n.id ∈ t.primaries.map Node.id) {now : Nat}
    (hfew : t.FewFailures n.id now) (jitter : Nat) :
    ∃ health, (t.recordFailureAt n now jitter).health n.id = some health ∧
      health.failures < staleAfterFailures ∧ now < health.retryAfter := by
  obtain ⟨b, -, heq⟩ := h.recordFailureAt_primary hn now jitter
  rw [heq]
  cases hid : t.health n.id with
  | none =>
    have hone : 1 < staleAfterFailures := by decide
    exact ⟨_, noteHealth_few hone _, hone, lt_add_backoff ..⟩
  | some health =>
    dsimp only
    by_cases hearly : now < health.retryAfter
    · rw [if_pos hearly]
      refine ⟨health, hid, ?_, hearly⟩
      rcases hfew health hid with hfew | ⟨-, hfew⟩
      · omega
      · exact hfew
    · rw [if_neg hearly]
      have hcount := (hfew health hid).resolve_right fun hin => hearly hin.1
      have hmod : (health.failures + 1) % 2 ^ 32 < staleAfterFailures :=
        Nat.lt_of_le_of_lt (Nat.mod_le ..) hcount
      exact ⟨_, noteHealth_few hmod _, hmod, lt_add_backoff ..⟩

/-- **A failing contact that is not stale stays failing** until it is heard of or its
backoff elapses. -/
theorem Ok.health_act (h : t.Ok own k) (hk : 1 ≤ k) {id : NodeId} {health : ContactHealth}
    (hid : t.health id = some health) (hfew : health.failures < staleAfterFailures) {a : Action}
    (ha : a.Silent id health.retryAfter) : (t.act a).health id = some health := by
  have hfresh : t.isStale id = false := by
    rw [isStale, hid]
    simpa using hfew
  cases a with
  | addContact now n =>
    show (t.addContact now n).1.health id = some health
    by_cases hown : n.id = own.id
    · rw [RoutingTable.addContact, h.node, if_pos hown, hid]
    · rw [(h.addContact_inserted hk hown now).1.takes.health id hfresh, hid]
  | removeContact n => exact (health_removeContact ha).trans hid
  | recordFailureAt n now jitter =>
    show (t.recordFailureAt n now jitter).health id = some health
    by_cases hne : n.id = id
    · have hprimary : n.id ∈ t.primaries.map Node.id :=
        h.failing n.id (by rw [hne, hid]; exact Option.some_ne_none _)
      obtain ⟨b, -, heq⟩ := h.recordFailureAt_primary hprimary now jitter
      rw [heq, hne, hid]
      simp only [if_pos (ha hne), hid]
    · rw [health_recordFailureAt hne, hid]
  | recordSuccess now id' => exact (Function.update_of_ne (Ne.symm ha) ..).trans hid
  | touchTarget now target => exact hid
  | setMinLookupContacts count => exact hid

theorem Ok.health_actions (h : t.Ok own k) (hk : 1 ≤ k) {id : NodeId} {health : ContactHealth}
    (hid : t.health id = some health) (hfew : health.failures < staleAfterFailures)
    (later : List Action) (hlater : ∀ a ∈ later, a.Silent id health.retryAfter) :
    (later.foldl RoutingTable.act t).health id = some health := by
  induction later generalizing t with
  | nil => exact hid
  | cons a later ih =>
    rw [List.foldl_cons]
    exact ih (h.act hk a) (h.health_act hk hid hfew (hlater a (List.mem_cons_self ..)))
      fun b hb => hlater b (List.mem_cons_of_mem a hb)

end RoutingTable

end AuthKademlia.Routing
