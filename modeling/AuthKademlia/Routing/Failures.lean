import AuthKademlia.Routing.Runs

/-! # Failures that count

A failure counts if it is one of a primary contact whose backoff is over. What the
table knows of a contact's failures changes in no other way, except that it is
forgotten (`Ok.health_act_cases`), and a primary contact goes only if it is removed, or
if it is stale (`Ok.primary_act_cases`). -/
namespace AuthKademlia.Routing
open AuthKademlia.Utils KBucket

namespace RoutingTable

variable {own n : Node} {k : Nat} {t : RoutingTable} {id : NodeId}

/-- A failure of the contact, noted at `now`, counts. -/
def Counts (t : RoutingTable) (id : NodeId) (now : Nat) : Prop :=
  id ∈ t.primaries.map Node.id ∧ ∀ health ∈ t.health id, health.retryAfter ≤ now

instance (t : RoutingTable) (id : NodeId) (now : Nat) : Decidable (t.Counts id now) :=
  inferInstanceAs (Decidable (_ ∧ _))

/-- What is known of the contact with one more failure. -/
def counted (t : RoutingTable) (id : NodeId) (now jitter : Nat) : ContactHealth :=
  match t.health id with
  | some health =>
    let failures := (health.failures + 1) % 2 ^ 32
    ⟨failures, health.firstFailure, now + backoff failures jitter⟩
  | none => ⟨1, now, now + backoff 1 jitter⟩

/-- When the failure of the contact happened that the action notes and that counts. -/
def Action.failureTime (t : RoutingTable) (id : NodeId) : Action → Option Nat
  | .recordFailureAt n now _ => if n.id = id ∧ t.Counts id now then some now else none
  | _ => none

/-- When the failures of the contact happened that count, as the actions are taken. -/
def failureTimes (id : NodeId) : RoutingTable → List Action → List Nat
  | _, [] => []
  | t, a :: rest => (a.failureTime t id).toList ++ failureTimes id (t.act a) rest

theorem failureTimes_append (id : NodeId) (as bs : List Action) : ∀ t : RoutingTable,
    failureTimes id t (as ++ bs) =
      failureTimes id t as ++ failureTimes id (as.foldl RoutingTable.act t) bs := by
  induction as with
  | nil => exact fun _ => rfl
  | cons a as ih =>
    intro t
    rw [List.cons_append, failureTimes, ih, failureTimes, List.append_assoc]
    rfl

/-- The action is an answer of the contact. -/
def Action.Answers (id : NodeId) : Action → Prop
  | .recordSuccess _ id' => id' = id
  | _ => False

/-! ## Noting a failure -/

theorem Ok.recordFailureAt_counts {now : Nat} (h : t.Ok own k) (hc : t.Counts n.id now)
    (jitter : Nat) :
    ∃ b ∈ t.buckets, t.recordFailureAt n now jitter =
      t.noteHealth n (t.counted n.id now jitter) b.hasReplacement := by
  obtain ⟨b, hb, heq⟩ := h.recordFailureAt_primary hc.1 now jitter
  refine ⟨b, hb, heq.trans ?_⟩
  unfold counted
  cases hid : t.health n.id with
  | none => rfl
  | some health =>
    dsimp only
    rw [if_neg (Nat.not_lt.mpr (hc.2 health hid))]

theorem Ok.recordFailureAt_foreign (h : t.Ok own k) (hn : n.id ∉ t.primaries.map Node.id)
    (now jitter : Nat) :
    ∃ pre b post, t.buckets = pre ++ b :: post ∧ t.recordFailureAt n now jitter =
      { t with buckets := pre ++ b.removeNode n :: post } := by
  obtain ⟨pre, b, post, ht, -, hidx⟩ := h.bucket n.id
  have hget : t.buckets[pre.length]? = some b := by simp [ht]
  have hout : b.contains n = false := by
    rw [Bool.eq_false_iff, Ne, contains_iff]
    exact fun hin => hn ((mem_primaries ht).mpr (Or.inl hin))
  refine ⟨pre, b, post, ht, ?_⟩
  unfold RoutingTable.recordFailureAt
  dsimp only
  rw [show t.bucketIndexFor n.longId = pre.length from hidx, hget]
  simp [hout, ht]

/-- A failure that does not count leaves the primary contacts, and what is known of
their failures. -/
theorem Ok.recordFailureAt_ignored {now : Nat} (h : t.Ok own k) (hc : ¬ t.Counts n.id now)
    (jitter : Nat) :
    (t.recordFailureAt n now jitter).health = t.health ∧
      ∀ id ∈ t.primaries.map Node.id,
        id ∈ (t.recordFailureAt n now jitter).primaries.map Node.id := by
  by_cases hn : n.id ∈ t.primaries.map Node.id
  · have hsame : t.recordFailureAt n now jitter = t := by
      obtain ⟨b, -, heq⟩ := h.recordFailureAt_primary hn now jitter
      rw [heq]
      cases hid : t.health n.id with
      | none => exact absurd ⟨hn, fun _ hsome => by rw [hid] at hsome; cases hsome⟩ hc
      | some health =>
        dsimp only
        refine if_pos (Nat.lt_of_not_le fun hle => hc ⟨hn, fun health' hsome => ?_⟩)
        rwa [← Option.some.inj (hid.symm.trans hsome)]
    rw [hsame]
    exact ⟨rfl, fun _ hid => hid⟩
  · obtain ⟨pre, b, post, ht, heq⟩ := h.recordFailureAt_foreign hn now jitter
    rw [heq]
    refine ⟨rfl, fun id hid => ?_⟩
    rw [mem_primaries (b := b.removeNode n) rfl]
    refine ((mem_primaries ht).mp hid).imp_left fun hin => mem_nodes_removeNode hin ?_
    rintro rfl
    exact hn hid

/-! ## What an action makes of the failures of a contact -/

theorem noteHealth_own (health : ContactHealth) (replaceable : Bool) :
    (t.noteHealth n health replaceable).health n.id = none ∨
      (t.noteHealth n health replaceable).health n.id = some health := by
  unfold noteHealth
  dsimp only
  split
  · exact Or.inl (Function.update_self ..)
  · exact Or.inr (Function.update_self ..)

theorem health_replaceStaleIfFull (idx : Nat) (n : Node) (id : NodeId) :
    (t.replaceStaleIfFull idx n).health id = none ∨
      (t.replaceStaleIfFull idx n).health id = t.health id := by
  unfold replaceStaleIfFull
  split
  · exact Or.inr rfl
  · split
    · exact Or.inr rfl
    · split
      · exact forgotten t.health _ id
      · exact Or.inr rfl

theorem health_splitBucket (now idx : Nat) : (t.splitBucket now idx).health = t.health := by
  unfold splitBucket
  split <;> rfl

theorem health_insert (now : Nat) (n : Node) (id : NodeId) (fuel : Nat) :
    ∀ t : RoutingTable, (t.insert now fuel n).1.health id = none ∨
      (t.insert now fuel n).1.health id = t.health id := by
  induction fuel with
  | zero => exact fun _ => Or.inr rfl
  | succ fuel ih =>
    intro t
    have hroom := health_replaceStaleIfFull (t := t) (t.bucketIndexFor n.longId) n id
    rw [RoutingTable.insert]
    generalize t.replaceStaleIfFull (t.bucketIndexFor n.longId) n = t' at hroom
    dsimp only
    split
    · exact hroom
    · split
      · exact hroom
      · split
        · refine (ih _).elim Or.inl fun heq => ?_
          rw [heq, health_splitBucket]
          exact hroom
        · exact hroom

/-- **The failures of a contact** are the ones known before, of one that did not answer
and did not fail again, or there is one more that counted. -/
theorem Ok.health_act_cases (h : t.Ok own k) {a : Action} {health : ContactHealth}
    (hid : (t.act a).health id = some health) :
    (t.health id = some health ∧ ¬ a.Answers id ∧ a.failureTime t id = none) ∨
      ∃ n now jitter, a = .recordFailureAt n now jitter ∧ n.id = id ∧ t.Counts id now ∧
        health = t.counted id now jitter := by
  have hsame : ∀ {health' : Option ContactHealth}, (t.act a).health id = none ∨
      (t.act a).health id = health' → health' = some health := fun hcases => by
    rcases hcases with hnone | heq
    · rw [hnone] at hid
      cases hid
    · rw [← heq, hid]
  cases a with
  | addContact now n =>
    refine Or.inl ⟨hsame ?_, not_false, rfl⟩
    show (t.addContact now n).1.health id = none ∨ (t.addContact now n).1.health id = t.health id
    unfold RoutingTable.addContact
    split
    · exact Or.inr rfl
    · exact health_insert now n id 161 t
  | removeContact n =>
    exact Or.inl ⟨hsame (forgotten t.health n.id id), not_false, rfl⟩
  | recordSuccess now id' =>
    have hcases := forgotten t.health id' id
    refine Or.inl ⟨hsame hcases, ?_, rfl⟩
    rintro rfl
    have hnone : (t.act (.recordSuccess now id')).health id' = none := Function.update_self ..
    rw [hnone] at hid
    cases hid
  | touchTarget now target => exact Or.inl ⟨hid, not_false, rfl⟩
  | setMinLookupContacts count => exact Or.inl ⟨hid, not_false, rfl⟩
  | recordFailureAt n now jitter =>
    by_cases hn : n.id = id
    · subst hn
      by_cases hc : t.Counts n.id now
      · refine Or.inr ⟨n, now, jitter, rfl, rfl, hc, ?_⟩
        obtain ⟨b, -, heq⟩ := h.recordFailureAt_counts hc jitter
        refine (noteHealth_own (t := t) (n := n) (t.counted n.id now jitter)
          b.hasReplacement).elim (fun hnone => ?_) fun hsome => ?_
        · rw [← heq] at hnone
          exact absurd (hnone.symm.trans hid) (by simp)
        · rw [← heq] at hsome
          exact Option.some.inj (hid.symm.trans hsome)
      · obtain ⟨hhealth, -⟩ := h.recordFailureAt_ignored hc jitter
        refine Or.inl ⟨?_, not_false, ?_⟩
        · rw [← hhealth]
          exact hid
        · exact if_neg fun hcounts => hc hcounts.2
    · refine Or.inl ⟨?_, not_false, if_neg fun hcounts => hn hcounts.1⟩
      rw [← health_recordFailureAt hn now jitter]
      exact hid

/-! ## How a primary contact goes -/

theorem Ok.primaries_removeContact (h : t.Ok own k) (hid : id ∈ t.primaries.map Node.id)
    (hne : id ≠ n.id) : id ∈ (t.removeContact n).primaries.map Node.id := by
  obtain ⟨pre, b, post, ht, -, hidx⟩ := h.bucket n.id
  rw [removeContact_eq ht hidx, mem_primaries (b := b.removeNode n) rfl]
  exact ((mem_primaries ht).mp hid).imp_left fun hin => mem_nodes_removeNode hin hne

theorem primaries_touchTarget (now : Nat) (target : Node) :
    (t.touchTarget now target).primaries = t.primaries := by
  unfold primaries RoutingTable.touchTarget
  generalize t.bucketIndexFor target.longId = idx
  induction t.buckets generalizing idx with
  | nil => cases idx <;> rfl
  | cons b rest ih =>
    cases idx with
    | zero => rfl
    | succ idx => simp only [List.modify_succ_cons, List.flatMap_cons, ih]

theorem noteHealth_primaries (health : ContactHealth) (replaceable : Bool) :
    (t.noteHealth n health replaceable).primaries = t.primaries ∨
      staleAfterFailures ≤ health.failures ∧
        (t.noteHealth n health replaceable).primaries = (t.removeContact n).primaries := by
  unfold noteHealth
  dsimp only
  split
  · rename_i hstale
    exact Or.inr ⟨hstale.1, rfl⟩
  · exact Or.inl rfl

/-- **A primary contact goes** when it is removed, when somebody takes its place and it
is stale, or with a failure that makes it stale. -/
theorem Ok.primary_act_cases (h : t.Ok own k) (hk : 1 ≤ k) {a : Action}
    (hid : id ∈ t.primaries.map Node.id) (hgone : id ∉ (t.act a).primaries.map Node.id) :
    (∃ n, a = .removeContact n ∧ n.id = id) ∨
    (∃ now n, a = .addContact now n ∧ t.isStale id = true) ∨
    ∃ n now jitter, a = .recordFailureAt n now jitter ∧ n.id = id ∧ t.Counts id now ∧
      staleAfterFailures ≤ (t.counted id now jitter).failures := by
  cases a with
  | addContact now n =>
    have hgone : id ∉ (t.addContact now n).1.primaries.map Node.id := hgone
    refine Or.inr (Or.inl ⟨now, n, rfl, ?_⟩)
    by_cases hown : n.id = own.id
    · rw [RoutingTable.addContact, h.node, if_pos hown] at hgone
      exact absurd hid hgone
    · obtain ⟨gone, hstale, hkept⟩ := (h.addContact_inserted hk hown now).1.takes.kept
      exact hstale id ((hkept id hid).resolve_left hgone)
  | removeContact n =>
    refine Or.inl ⟨n, rfl, ?_⟩
    by_contra hne
    exact hgone (h.primaries_removeContact hid (Ne.symm hne))
  | recordSuccess now id' => exact absurd hid hgone
  | setMinLookupContacts count => exact absurd hid hgone
  | touchTarget now target =>
    have hgone : id ∉ (t.touchTarget now target).primaries.map Node.id := hgone
    rw [primaries_touchTarget] at hgone
    exact absurd hid hgone
  | recordFailureAt n now jitter =>
    have hgone : id ∉ (t.recordFailureAt n now jitter).primaries.map Node.id := hgone
    by_cases hc : t.Counts n.id now
    · obtain ⟨b, -, heq⟩ := h.recordFailureAt_counts hc jitter
      rw [heq] at hgone
      rcases noteHealth_primaries (t := t) (n := n) (t.counted n.id now jitter)
        b.hasReplacement with hsame | ⟨hstale, hremoved⟩
      · rw [hsame] at hgone
        exact absurd hid hgone
      · rw [hremoved] at hgone
        have hn : n.id = id := by
          by_contra hne
          exact hgone (h.primaries_removeContact hid (Ne.symm hne))
        subst hn
        exact Or.inr (Or.inr ⟨n, now, jitter, rfl, rfl, hc, hstale⟩)
    · exact absurd ((h.recordFailureAt_ignored hc jitter).2 id hid) hgone

/-! ## A contact that keeps its place -/

theorem Ok.contacts_removeContact (h : t.Ok own k) (n : Node) :
    ∀ m ∈ (t.removeContact n).contacts, m ∈ t.contacts := by
  obtain ⟨pre, b, post, ht, -, hidx⟩ := h.bucket n.id
  rw [removeContact_eq ht hidx]
  intro m hm
  rw [mem_contacts ht]
  exact ((mem_contacts (b := b.removeNode n) rfl).mp hm).imp_left mem_removeNode

theorem Ok.contacts_recordFailureAt (h : t.Ok own k) (n : Node) (now jitter : Nat) :
    ∀ m ∈ (t.recordFailureAt n now jitter).contacts, m ∈ t.contacts := by
  have hnote : ∀ health replaceable, ∀ m ∈ (t.noteHealth n health replaceable).contacts,
      m ∈ t.contacts := by
    intro health replaceable m hm
    rw [RoutingTable.noteHealth] at hm
    split at hm
    · exact h.contacts_removeContact n m hm
    · exact hm
  by_cases hn : n.id ∈ t.primaries.map Node.id
  · obtain ⟨b, -, heq⟩ := h.recordFailureAt_primary hn now jitter
    rw [heq]
    split
    · split
      · exact fun m hm => hm
      · exact hnote _ _
    · exact hnote _ _
  · obtain ⟨pre, b, post, ht, heq⟩ := h.recordFailureAt_foreign hn now jitter
    rw [heq]
    intro m hm
    rw [mem_contacts ht]
    exact ((mem_contacts (b := b.removeNode n) rfl).mp hm).imp_left mem_removeNode

/-- **Nobody but a node that is added becomes a contact.** -/
theorem Ok.contacts_act (h : t.Ok own k) (hk : 1 ≤ k) {a : Action} {m : Node}
    (hm : m ∈ (t.act a).contacts) : m ∈ t.contacts ∨ ∃ now, a = .addContact now m := by
  cases a with
  | addContact now n =>
    have hm : m ∈ (t.addContact now n).1.contacts := hm
    by_cases hown : n.id = own.id
    · rw [RoutingTable.addContact, h.node, if_pos hown] at hm
      exact Or.inl hm
    · refine ((h.addContact_inserted hk hown now).1.takes.known m hm).imp_right ?_
      rintro rfl
      exact ⟨now, rfl⟩
  | removeContact n => exact Or.inl (h.contacts_removeContact n m hm)
  | recordFailureAt n now jitter => exact Or.inl (h.contacts_recordFailureAt n now jitter m hm)
  | recordSuccess now id => exact Or.inl hm
  | setMinLookupContacts count => exact Or.inl hm
  | touchTarget now target =>
    have hm : m ∈ (t.touchTarget now target).contacts := hm
    obtain ⟨pre, b, post, ht, -, hidx⟩ := h.bucket target.id
    have hidx : t.bucketIndexFor target.longId = pre.length := hidx
    have ht' : (t.touchTarget now target).buckets =
        pre ++ { b with lastUpdated := now } :: post := by
      unfold RoutingTable.touchTarget
      rw [hidx, ht, modify_length]
    exact Or.inl ((mem_contacts ht).mpr ((mem_contacts ht').mp hm))

/-- The action neither counts against the contact nor moves it. -/
def Action.Spares (x : Node) : Action → Prop
  | .addContact _ n => n.id = x.id → n = x
  | .removeContact n | .recordFailureAt n _ _ => n.id ≠ x.id
  | .recordSuccess _ _ | .touchTarget _ _ | .setMinLookupContacts _ => True

/-- **A healthy contact keeps its place and its endpoint**, whoever else comes and goes. -/
theorem Ok.place_act (h : t.Ok own k) (hk : 1 ≤ k) {a : Action} {x : Node}
    (hx : x ∈ t.primaries) (hhealthy : t.health x.id = none) (ha : a.Spares x) :
    x ∈ (t.act a).primaries ∧ (t.act a).health x.id = none := by
  have hfresh : t.isStale x.id = false := by rw [isStale, hhealthy]; rfl
  have hid : x.id ∈ (t.act a).primaries.map Node.id := by
    by_contra hgone
    obtain ⟨n, rfl, hn⟩ | ⟨now, n, rfl, hstale⟩ | ⟨n, now, jitter, rfl, hn, -⟩ :=
      h.primary_act_cases hk (List.mem_map_of_mem hx) hgone
    · exact ha hn
    · rw [hfresh] at hstale
      cases hstale
    · exact ha hn
  constructor
  · obtain ⟨m, hm, hmid⟩ := List.mem_map.mp hid
    obtain rfl : m = x := by
      rcases h.contacts_act hk (primary_contact hm) with hold | ⟨now, rfl⟩
      · exact List.inj_on_of_nodup_map h.nodup_contacts hold (primary_contact hx) hmid
      · exact ha hmid
    exact hm
  · cases a with
    | addContact now n =>
      show (t.addContact now n).1.health x.id = none
      by_cases hown : n.id = own.id
      · rw [RoutingTable.addContact, h.node, if_pos hown]
        exact hhealthy
      · rw [(h.addContact_inserted hk hown now).1.takes.health x.id hfresh]
        exact hhealthy
    | removeContact n => exact (health_removeContact ha).trans hhealthy
    | recordFailureAt n now jitter => exact (health_recordFailureAt ha now jitter).trans hhealthy
    | recordSuccess now id =>
      exact (forgotten t.health id x.id).elim (fun h => h) fun h => h.trans hhealthy
    | setMinLookupContacts count => exact hhealthy
    | touchTarget now target => exact hhealthy

end RoutingTable

end AuthKademlia.Routing
