import Mathlib.Data.Finset.Card
import AuthKademlia.Network.Recovery
import AuthKademlia.Properties.RoutingTable

/-! # Whom maintenance reaches

Which failing contacts the loop of `schedule_maintenance` pings, and when it turns to the seeds,
whatever the other tasks do to the routing table. -/
namespace AuthKademlia.Properties
open AuthKademlia.Network AuthKademlia.Network.Recovery AuthKademlia.Protocol
open AuthKademlia.Routing AuthKademlia.Routing.RoutingTable AuthKademlia.Utils

/-! ## Contacts that are overdue -/

section Overdue

variable {own : Node} {k now limit : Nat} {t : RoutingTable} {id : NodeId}

theorem mem_overdue {entry : Nat × Node} :
    entry ∈ t.overdue now ↔ entry.2 ∈ t.primaries ∧
      ∃ health, t.health entry.2.id = some health ∧ health.retryAfter = entry.1 ∧
        entry.1 ≤ now := by
  unfold overdue
  rw [List.mem_filterMap]
  constructor
  · rintro ⟨n, hn, hentry⟩
    obtain ⟨health, hhealth, hif⟩ := Option.bind_eq_some_iff.mp hentry
    split at hif
    · rename_i hle
      cases hif
      exact ⟨hn, health, hhealth, rfl, hle⟩
    · cases hif
  · rintro ⟨hn, health, hhealth, hretry, hle⟩
    refine ⟨entry.2, hn, ?_⟩
    rw [hhealth, Option.bind_some, hretry, if_pos hle]

theorem nodup_overdue (h : t.Ok own k) : ((t.overdue now).map fun e => e.2.id).Nodup := by
  refine List.Nodup.sublist ?_ h.nodup_primaries
  unfold overdue
  induction t.primaries with
  | nil => exact List.Sublist.refl _
  | cons n rest ih =>
    cases hif : (t.health n.id).bind fun health =>
        if health.retryAfter ≤ now then some (health.retryAfter, n) else none with
    | none =>
      simp only [List.filterMap_cons, hif]
      exact ih.cons _
    | some entry =>
      simp only [List.filterMap_cons, hif]
      obtain ⟨health, -, hif⟩ := Option.bind_eq_some_iff.mp hif
      split at hif
      · cases hif
        exact ih.cons_cons _
      · cases hif

/-- The failing contacts whose backoff had elapsed at `limit`. -/
def failingBy (limit : Nat) (t : RoutingTable) : Finset NodeId :=
  ((t.primaries.map Node.id).filter fun id =>
    (t.health id).any fun health => health.retryAfter ≤ limit).toFinset

theorem mem_failingBy (h : t.Ok own k) :
    id ∈ failingBy limit t ↔ ∃ health, t.health id = some health ∧ health.retryAfter ≤ limit := by
  unfold failingBy
  rw [List.mem_toFinset, List.mem_filter, Option.any_eq_true]
  simp only [decide_eq_true_eq]
  refine ⟨And.right, fun hfails => ⟨?_, hfails⟩⟩
  obtain ⟨health, hhealth, -⟩ := hfails
  refine h.failing id ?_
  rw [hhealth]
  exact Option.some_ne_none _

theorem retryAfter_counted (t : RoutingTable) (id : NodeId) (now jitter : Nat) :
    now < (t.counted id now jitter).retryAfter := by
  unfold counted
  cases t.health id with
  | none => exact lt_add_backoff ..
  | some health => exact lt_add_backoff ..

/-- **A failure noted now is not overdue**, so that no action adds to those that were. -/
theorem failingBy_act (h : t.Ok own k) (hk : 1 ≤ k) (hlimit : limit ≤ now) (a : Action) :
    failingBy limit (t.act (atTime now a)) ⊆ failingBy limit t := by
  intro id hid
  obtain ⟨health, hhealth, hle⟩ := (mem_failingBy (h.act hk _)).mp hid
  rcases h.health_act_cases hhealth with ⟨hold, -⟩ | ⟨n, now', jitter, ha, -, -, rfl⟩
  · exact (mem_failingBy h).mpr ⟨health, hold, hle⟩
  · have hnow : now' = now := by
      cases a with
      | recordFailureAt n' time jitter' =>
        cases ha
        rfl
      | addContact | removeContact | recordSuccess | touchTarget | setMinLookupContacts => cases ha
    have hlt := retryAfter_counted t id now' jitter
    omega

theorem failed_not_failingBy (h : t.Ok own k) (hk : 1 ≤ k) (hlimit : limit ≤ now) (n : Node)
    (jitter : Nat) : n.id ∉ failingBy limit (t.recordFailureAt n now jitter) := by
  intro hid
  obtain ⟨health, hhealth, hle⟩ :=
    (mem_failingBy (h.act hk (.recordFailureAt n now jitter))).mp hid
  rcases h.health_act_cases (a := .recordFailureAt n now jitter) hhealth with
    ⟨hold, -, htime⟩ | ⟨n', now', jitter', ha, -, -, rfl⟩
  · -- The failure would have counted.
    have hcounts : t.Counts n.id now := by
      refine ⟨h.failing n.id (by rw [hold]; exact Option.some_ne_none _), fun health' hmem => ?_⟩
      obtain rfl : health = health' := Option.some.inj (hold.symm.trans hmem)
      omega
    rw [Action.failureTime, if_pos ⟨rfl, hcounts⟩] at htime
    cases htime
  · cases ha
    have hlt := retryAfter_counted t n.id now jitter
    omega

/-- The answer counts for the contact that was pinged: it has the contact's id, and comes from
the registered endpoint unless the contact is stale. -/
def Believed (t : RoutingTable) (n source : Node) : Prop :=
  source.id = n.id ∧ (((t.getContact n.id).any fun contact => contact.sameHomeAs source) = true ∨
    t.isStale n.id = true)

theorem answered_healthy {n source : Node} (h : Believed t n source) (now : Nat) :
    (noteAlive t now source).2.health n.id = none := by
  obtain ⟨hid, hbelieved⟩ := h
  unfold noteAlive
  rw [hid]
  cases hfails : t.hasFailures n.id with
  | false =>
    show t.health n.id = none
    exact Option.not_isSome_iff_eq_none.mp (by rw [← hasFailures, hfails]; exact Bool.false_ne_true)
  | true =>
    have hno : ¬ (!((t.getContact n.id).any fun contact => contact.sameHomeAs source) &&
        !t.isStale n.id) = true := by
      rcases hbelieved with hhome | hstale
      · rw [hhome]
        exact Bool.false_ne_true
      · rw [hstale, Bool.not_true, Bool.and_false]
        exact Bool.false_ne_true
    simp only [Bool.not_true, Bool.false_eq_true, if_false, if_neg hno]
    exact Function.update_self ..

end Overdue

/-! ## Selections -/

section Selection

variable {own : Node} {k now limit alpha : Nat} {t : RoutingTable} {due : List (Nat × Node)}

theorem nodup_due (h : t.Ok own k) (horder : t.ProbeOrder now due) :
    (due.map fun e => e.2.id).Nodup :=
  (horder.1.map _).nodup_iff.mpr (nodup_overdue h)

theorem map_contactsDueForProbe (due : List (Nat × Node)) (alpha : Nat) :
    (contactsDueForProbe due alpha).map Node.id = (due.take alpha).map fun e => e.2.id := by
  rw [contactsDueForProbe, List.map_map]
  rfl

/-- **Whoever is left out waits behind `alpha` others**, all of them overdue for longer. -/
theorem left_out (h : t.Ok own k) (horder : t.ProbeOrder now due) {id : NodeId}
    {health : ContactHealth} (hhealth : t.health id = some health) (hnow : health.retryAfter ≤ now)
    (hout : id ∉ (contactsDueForProbe due alpha).map Node.id) :
    ((contactsDueForProbe due alpha).map Node.id).toFinset ⊆ failingBy health.retryAfter t ∧
      ((contactsDueForProbe due alpha).map Node.id).toFinset.card = alpha := by
  obtain ⟨x, hx, hxid⟩ := List.mem_map.mp
    (h.failing id (by rw [hhealth]; exact Option.some_ne_none _))
  rw [map_contactsDueForProbe] at hout ⊢
  have hmem : (health.retryAfter, x) ∈ due :=
    horder.1.mem_iff.mpr (mem_overdue.mpr ⟨hx, health, by rw [hxid, hhealth], rfl, hnow⟩)
  have hdrop : (health.retryAfter, x) ∈ due.drop alpha := by
    rw [← List.take_append_drop alpha due, List.mem_append] at hmem
    refine hmem.resolve_left fun htake => hout ?_
    rw [← hxid]
    exact List.mem_map_of_mem (f := fun e : Nat × Node => e.2.id) htake
  have hsorted := horder.2
  rw [← List.take_append_drop alpha due, List.pairwise_append] at hsorted
  constructor
  · intro id' hid'
    obtain ⟨e, he, rfl⟩ := List.mem_map.mp (List.mem_toFinset.mp hid')
    obtain ⟨-, health', hhealth', hretry, -⟩ :=
      mem_overdue.mp (horder.1.mem_iff.mp (List.mem_of_mem_take he))
    have hle := hsorted.2.2 e he _ hdrop
    exact (mem_failingBy h).mpr ⟨health', hhealth', hretry ▸ hle⟩
  · have hlen : alpha < due.length := by
      by_contra hle
      rw [List.drop_eq_nil_of_le (Nat.not_lt.mp hle)] at hdrop
      cases hdrop
    rw [List.toFinset_card_of_nodup ((nodup_due h horder).sublist
      ((List.take_sublist _ _).map _)), List.length_map, List.length_take,
      Nat.min_eq_left (Nat.le_of_lt hlen)]

end Selection

/-! ## Every failing contact is probed -/

section Fairness

variable {own x : Node} {k alpha total : Nat} {health : ContactHealth} {r r' : Loop}
  {mv : Recovery.Move} {before new : List (List Node)}

def idsOf (nodes : List Node) : Finset NodeId := (nodes.map Node.id).toFinset

theorem mem_idsOf {id : NodeId} {nodes : List Node} :
    id ∈ idsOf nodes ↔ ∃ n ∈ nodes, n.id = id := by
  rw [idsOf, List.mem_toFinset, List.mem_map]

def BelievedMove (r : Loop) : Recovery.Move → Prop
  | .answered n source => Believed r.table n source
  | _ => True

/-- **Those ahead of the contact become fewer with each selection**: each of them that was
selected has been heard of, or has failed again, when the next selection is made. -/
structure Ahead (own : Node) (k alpha limit total : Nat) (before : List (List Node)) (r : Loop)
    (new : List (List Node)) : Prop where
  ok : r.table.Ok own k
  clock : limit ≤ r.clock
  selected : r.selected = before ++ new
  waiting : ∀ n ∈ r.phase.waiting, ∃ due ∈ new, n ∈ due
  fewer : (failingBy limit r.table \ idsOf r.phase.waiting).card + new.length * alpha ≤ total

theorem Ahead.keep {limit : Nat} (h : Ahead own k alpha limit total before r new) (hk : 1 ≤ k)
    (heffect : Effect alpha r mv r') (hselected : r'.selected = r.selected)
    (hwaiting : ∀ n ∈ r'.phase.waiting, n ∈ r.phase.waiting)
    (hresolved : ∀ n ∈ r.phase.waiting, n.id ∈ failingBy limit r'.table →
      n.id ∈ idsOf r'.phase.waiting) : Ahead own k alpha limit total before r' new := by
  refine ⟨effect_ok h.ok hk heffect, h.clock.trans (effect_clock heffect),
    hselected.trans h.selected, fun n hn => h.waiting n (hwaiting n hn), ?_⟩
  have hsub : failingBy limit r'.table ⊆ failingBy limit r.table := by
    rcases effect_table heffect with heq | ⟨a, heq⟩
    · rw [heq]
    · rw [heq]
      exact failingBy_act h.ok hk h.clock a
  refine (Nat.add_le_add_right (Finset.card_le_card fun id hid => ?_) _).trans h.fewer
  obtain ⟨hin, hout⟩ := Finset.mem_sdiff.mp hid
  refine Finset.mem_sdiff.mpr ⟨hsub hin, fun hw => hout ?_⟩
  obtain ⟨n, hn, rfl⟩ := mem_idsOf.mp hw
  exact hresolved n hn hin

theorem erase_resolved {waiting : List Node} {n : Node} {s : Finset NodeId} (hn : n.id ∉ s) :
    ∀ m ∈ waiting, m.id ∈ s → m.id ∈ idsOf (waiting.erase n) := by
  intro m hm hin
  refine mem_idsOf.mpr ⟨m, (List.mem_erase_of_ne ?_).mpr hm, rfl⟩
  rintro rfl
  exact hn hin

theorem Ahead.effect (h : Ahead own k alpha health.retryAfter total before r new) (hk : 1 ≤ k)
    (heffect : Effect alpha r mv r') (hhealth : r.table.health x.id = some health)
    (hbelieved : BelievedMove r mv) :
    Ahead own k alpha health.retryAfter total before r' new ∨
      ∃ due, r'.selected = before ++ (new ++ [due]) ∧ (x.id ∈ due.map Node.id ∨
        Ahead own k alpha health.retryAfter total before r' (new ++ [due])) := by
  have hkeep := h.keep hk heffect
  cases heffect with
  | wake asleep order =>
    rename_i deadline due
    refine Or.inr ⟨contactsDueForProbe due alpha, ?_, ?_⟩
    · show r.selected ++ _ = _
      rw [h.selected, List.append_assoc]
    by_cases hin : x.id ∈ (contactsDueForProbe due alpha).map Node.id
    · exact Or.inl hin
    right
    obtain ⟨hsub, hcard⟩ := left_out h.ok order hhealth h.clock hin
    refine ⟨h.ok, h.clock, ?_, fun n hn => ⟨_, List.mem_append_right _ (List.mem_singleton_self _),
      hn⟩, ?_⟩
    · show r.selected ++ _ = _
      rw [h.selected, List.append_assoc]
    · have hfewer := h.fewer
      have hnone : idsOf r.phase.waiting = ∅ := by
        rw [asleep]
        rfl
      rw [hnone, Finset.sdiff_empty] at hfewer
      have hrest := Finset.card_sdiff_add_card_eq_card hsub
      show (failingBy health.retryAfter r.table \
        ((contactsDueForProbe due alpha).map Node.id).toFinset).card + _ ≤ total
      rw [List.length_append, List.length_singleton, Nat.add_mul, Nat.one_mul]
      omega
  | fail probing pinged =>
    left
    rw [probing] at hkeep
    exact hkeep rfl (fun m hm => List.mem_of_mem_erase hm)
      (erase_resolved (failed_not_failingBy h.ok hk h.clock _ _))
  | answered probing pinged =>
    left
    rename_i n source waiting
    rw [probing] at hkeep
    refine hkeep rfl (fun m hm => List.mem_of_mem_erase hm) (erase_resolved ?_)
    intro hin
    have heffect : Effect alpha r (.answered n source) _ := .answered probing pinged
    obtain ⟨health', hhealth', -⟩ := (mem_failingBy (effect_ok h.ok hk heffect)).mp hin
    rw [show (noteAlive r.table r.clock source).2.health n.id = none from
      answered_healthy hbelieved r.clock] at hhealth'
    cases hhealth'
  | reconnecting phase | live phase | ask phase | isolated phase | reconnected phase
  | asked phase =>
    refine Or.inl (hkeep rfl (fun n hn => absurd hn List.not_mem_nil) fun n hn => ?_)
    rw [phase] at hn
    exact absurd hn List.not_mem_nil
  | none | wait | other | rememberSeeds =>
    exact Or.inl (hkeep rfl (fun n hn => hn) fun n hn _ => mem_idsOf.mpr ⟨n, hn, rfl⟩)

theorem selected_effect (h : Effect alpha r mv r') :
    r'.selected = r.selected ∨ ∃ due, r'.selected = r.selected ++ [due] := by
  cases h with
  | wake => exact Or.inr ⟨_, rfl⟩
  | none | wait | other | rememberSeeds | fail | answered | reconnecting | live | ask | isolated
  | reconnected | asked => exact Or.inl rfl

theorem Ahead.run (hk : 1 ≤ k) {moves : List Recovery.Move}
    (h : Ahead own k alpha health.retryAfter total r.selected r [])
    (hhealth : ∀ pre, pre <+: moves → (r.run alpha pre).table.health x.id = some health)
    (hbelieved : ∀ pre mv, pre ++ [mv] <+: moves → BelievedMove (r.run alpha pre) mv) :
    ∃ new, (r.run alpha moves).selected = r.selected ++ new ∧
      ((∃ due ∈ new, x.id ∈ due.map Node.id) ∨
        Ahead own k alpha health.retryAfter total r.selected (r.run alpha moves) new) := by
  induction moves using List.reverseRecOn with
  | nil => exact ⟨[], (List.append_nil _).symm, Or.inr h⟩
  | append_singleton moves mv ih =>
    obtain ⟨new, hselected, hcases⟩ := ih
      (fun pre hpre => hhealth pre (hpre.trans (List.prefix_append _ _)))
      fun pre mv hpre => hbelieved pre mv (hpre.trans (List.prefix_append _ _))
    rw [Recovery.run_snoc]
    have heffect := move_effect alpha (r.run alpha moves) mv
    rcases hcases with ⟨due, hdue, hin⟩ | hahead
    · rcases selected_effect heffect with hsame | ⟨due', hmore⟩
      · exact ⟨new, hsame.trans hselected, Or.inl ⟨due, hdue, hin⟩⟩
      · refine ⟨new ++ [due'], ?_, Or.inl ⟨due, List.mem_append_left _ hdue, hin⟩⟩
        rw [hmore, hselected, List.append_assoc]
    · rcases hahead.effect hk heffect (hhealth moves (List.prefix_append _ _))
        (hbelieved moves mv (List.prefix_refl _)) with hnext | ⟨due, hmore, hnext⟩
      · exact ⟨new, hnext.selected, Or.inr hnext⟩
      · refine ⟨new ++ [due], hmore, hnext.imp_left fun hin => ⟨due, ?_, hin⟩⟩
        exact List.mem_append_right _ (List.mem_singleton_self due)

end Fairness

/-- **Every failing contact is probed in its turn.** A contact whose backoff has elapsed is among
those pinged after as many selections as it takes to ping all those that are overdue as long as
it is, `alpha` at a time, unless it is heard of, fails in another way or goes before; whatever
other contacts fail, come and go meanwhile. -/
theorem failing_contacts_probed (start clock : Nat) (own : Node) {k : Nat} (hk : 1 ≤ k)
    (alpha : Nat) (before moves : List Recovery.Move) (x : Node) (health : ContactHealth) :
    let r := (Loop.new start clock own k).run alpha before
    r.phase.waiting = [] → health.retryAfter ≤ r.clock →
    (∀ pre, pre <+: moves → (r.run alpha pre).table.health x.id = some health) →
    (∀ pre mv, pre ++ [mv] <+: moves → BelievedMove (r.run alpha pre) mv) →
    ∃ new, (r.run alpha moves).selected = r.selected ++ new ∧
      ((failingBy health.retryAfter r.table).card ≤ new.length * alpha →
        ∃ due ∈ new, x.id ∈ due.map Node.id) := by
  intro r hwaiting hclock hhealth hbelieved
  have hok := Recovery.ok_run start clock own hk alpha before
  have hstart : Ahead own k alpha health.retryAfter (failingBy health.retryAfter r.table).card
      r.selected r [] := by
    refine ⟨hok, hclock, (List.append_nil _).symm, fun n hn => ?_, ?_⟩
    · rw [hwaiting] at hn
      exact absurd hn List.not_mem_nil
    · rw [List.length_nil, Nat.zero_mul, Nat.add_zero]
      exact Finset.card_le_card Finset.sdiff_subset
  obtain ⟨new, hselected, hcases⟩ := hstart.run hk hhealth hbelieved
  refine ⟨new, hselected, fun hmany => ?_⟩
  rcases hcases with hin | hahead
  · exact hin
  by_contra hnever
  have hout : x.id ∉ idsOf (r.run alpha moves).phase.waiting := by
    intro hin
    obtain ⟨n, hn, hid⟩ := mem_idsOf.mp hin
    obtain ⟨due, hdue, hmem⟩ := hahead.waiting n hn
    exact hnever ⟨due, hdue, hid ▸ List.mem_map_of_mem hmem⟩
  -- The contact itself is still one of those that are overdue.
  have hmem : x.id ∈ failingBy health.retryAfter (r.run alpha moves).table \
      idsOf (r.run alpha moves).phase.waiting :=
    Finset.mem_sdiff.mpr ⟨(mem_failingBy hahead.ok).mpr
      ⟨health, hhealth moves (List.prefix_refl _), Nat.le_refl _⟩, hout⟩
  have hpos := Finset.card_pos.mpr ⟨x.id, hmem⟩
  have hfewer := hahead.fewer
  omega

deriving instance DecidableEq for ContactHealth

/-- Two contacts fail, the second a second later, and six seconds after that both are due. -/
def twoFail : List Recovery.Move :=
  [.other (.addContact 0 (nodeAt 0x80 7000)), .other (.addContact 0 (nodeAt 0x81 7001)),
    .other (.recordFailureAt (nodeAt 0x80 7000) 0 0), .wait 1000000000,
    .other (.recordFailureAt (nodeAt 0x81 7001) 0 0), .wait 6000000000]

/-- With one ping at a time, the second contact is pinged after the first has failed again. -/
def probedInTurn : List Recovery.Move :=
  [.wake [(5000000000, nodeAt 0x80 7000), (6000000000, nodeAt 0x81 7001)],
    .fail (nodeAt 0x80 7000) 0, .check, .wait 1000000000,
    .wake [(6000000000, nodeAt 0x81 7001)]]

theorem failing_contacts_probed_inTurn :
    let r := (Loop.new 0 0 (nodeAt 0 6999) 2).run 1 twoFail
    ∃ new, (r.run 1 probedInTurn).selected = r.selected ++ new ∧
      ∃ due ∈ new, (nodeAt 0x81 7001).id ∈ due.map Node.id := by
  intro r
  have hhealth : ∀ pre ∈ probedInTurn.inits, (r.run 1 pre).table.health (nodeAt 0x81 7001).id =
      some ⟨1, 1000000000, 6000000000⟩ := by decide +kernel
  obtain ⟨new, hselected, hprobed⟩ := failing_contacts_probed 0 0 (nodeAt 0 6999) (by decide) 1
    twoFail probedInTurn (nodeAt 0x81 7001) ⟨1, 1000000000, 6000000000⟩ (by decide +kernel)
    (by decide +kernel) (fun pre hpre => hhealth pre ((List.mem_inits pre _).mpr hpre)) <| by
      intro pre mv hpre
      have hmem : mv ∈ probedInTurn :=
        hpre.subset (List.mem_append_right _ (List.mem_singleton_self mv))
      simp only [probedInTurn, List.mem_cons, List.not_mem_nil, or_false] at hmem
      obtain rfl | rfl | rfl | rfl | rfl := hmem <;> trivial
  refine ⟨new, hselected, hprobed ?_⟩
  have hcard : (failingBy 6000000000 r.table).card = 2 := by decide +kernel
  have hnew : (r.run 1 probedInTurn).selected.length = r.selected.length + new.length :=
    (congrArg List.length hselected).trans List.length_append
  have hlength : (r.run 1 probedInTurn).selected.length = r.selected.length + 2 := by
    decide +kernel
  have htwo : new.length = 2 := Nat.add_left_cancel (hnew.symm.trans hlength)
  rw [htwo]
  exact Nat.le_of_eq hcard

/-! ## Contacts that answer under another id -/

section Ghosts

variable {own : Node} {k alpha limit now : Nat} {ghosts : List NodeId} {t : RoutingTable}
  {r r' : Loop} {mv : Recovery.Move} {due : List (Nat × Node)}

/-- These contacts are failing, not stale, and overdue for longer than all others. -/
structure Haunted (limit : Nat) (ghosts : List NodeId) (t : RoutingTable) : Prop where
  failing : ∀ id ∈ ghosts, ∃ health, t.health id = some health ∧ health.retryAfter ≤ limit ∧
    health.failures < staleAfterFailures
  others : ∀ id health, t.health id = some health → health.retryAfter ≤ limit → id ∈ ghosts

/-- Nothing is heard of the contacts, and no failure is noted: pings to them are answered by
somebody else. -/
def Eludes (ghosts : List NodeId) (r : Loop) : Recovery.Move → Prop
  | .other a => ∀ id ∈ ghosts, (Recovery.atTime r.clock a).Silent id 0
  | .fail n _ => n.id ∉ ghosts
  | .answered _ source => source.id ∉ ghosts
  | _ => True

theorem silent_mono {id : NodeId} {a : Action} (h : a.Silent id 0) (retryAfter : Nat) :
    a.Silent id retryAfter := by
  cases a with
  | recordFailureAt n now jitter => exact fun hid => absurd (h hid) (Nat.not_lt_zero _)
  | addContact | removeContact | recordSuccess | touchTarget | setMinLookupContacts => exact h

theorem Haunted.act (h : Haunted limit ghosts t) (hok : t.Ok own k) (hk : 1 ≤ k)
    (hlimit : limit ≤ now) {a : Action} (ha : ∀ id ∈ ghosts, (Recovery.atTime now a).Silent id 0) :
    Haunted limit ghosts (t.act (Recovery.atTime now a)) where
  failing := by
    intro id hid
    obtain ⟨health, hhealth, hle, hfew⟩ := h.failing id hid
    exact ⟨health, hok.health_act hk hhealth hfew (silent_mono (ha id hid) _), hle, hfew⟩
  others := by
    intro id health hhealth hle
    obtain ⟨health', hhealth', hle'⟩ := (mem_failingBy hok).mp (failingBy_act hok hk hlimit a
      ((mem_failingBy (hok.act hk _)).mpr ⟨health, hhealth, hle⟩))
    exact h.others id health' hhealth' hle'

theorem Eludes.table (heludes : Eludes ghosts r mv) (heffect : Effect alpha r mv r') :
    r'.table = r.table ∨ ∃ a, r'.table = r.table.act (Recovery.atTime r.clock a) ∧
      ∀ id ∈ ghosts, (Recovery.atTime r.clock a).Silent id 0 := by
  cases heffect with
  | other a => exact Or.inr ⟨a, rfl, heludes⟩
  | fail =>
    rename_i n jitter waiting probing pinged
    refine Or.inr ⟨.recordFailureAt n 0 jitter, rfl, fun id hid hn => ?_⟩
    exact absurd (hn ▸ hid) heludes
  | answered =>
    rename_i n source waiting probing pinged
    refine (noteAlive_cases r.table r.clock source).imp_right fun heq =>
      ⟨.recordSuccess 0 source.id, heq, fun id hid hs => ?_⟩
    exact heludes (hs ▸ hid)
  | none | wait | rememberSeeds | wake | reconnecting | live | ask | isolated | reconnected
  | asked => exact Or.inl rfl

/-- **The contacts take all the pings** if they are as many as are pinged at a time. -/
theorem Haunted.selected (h : Haunted limit ghosts t) (hok : t.Ok own k) (hlimit : limit ≤ now)
    (horder : t.ProbeOrder now due) (hnodup : ghosts.Nodup) (hmany : alpha ≤ ghosts.length) :
    ∀ n ∈ contactsDueForProbe due alpha, n.id ∈ ghosts := by
  intro n hn
  obtain ⟨e, he, rfl⟩ := List.mem_map.mp hn
  obtain ⟨-, health, hhealth, hretry, -⟩ :=
    mem_overdue.mp (horder.1.mem_iff.mp (List.mem_of_mem_take he))
  refine h.others e.2.id health hhealth ?_
  by_contra hlate
  have hsorted := horder.2
  rw [← List.take_append_drop alpha due, List.pairwise_append] at hsorted
  -- All of them come before this one, so that more than `alpha` would have been taken.
  have hall : e.2.id :: ghosts ⊆ (due.take alpha).map fun e => e.2.id := by
    intro id hid
    rcases List.mem_cons.mp hid with rfl | hid
    · exact List.mem_map_of_mem (f := fun e : Nat × Node => e.2.id) he
    obtain ⟨ghost, hghost, hle, -⟩ := h.failing id hid
    obtain ⟨m, hm, rfl⟩ := List.mem_map.mp
      (hok.failing id (by rw [hghost]; exact Option.some_ne_none _))
    have hmem : (ghost.retryAfter, m) ∈ due := horder.1.mem_iff.mpr
      (mem_overdue.mpr ⟨hm, ghost, hghost, rfl, hle.trans hlimit⟩)
    rw [← List.take_append_drop alpha due, List.mem_append] at hmem
    rcases hmem with htake | hdrop
    · exact List.mem_map_of_mem (f := fun e : Nat × Node => e.2.id) htake
    · have hbefore := hsorted.2.2 e he _ hdrop
      dsimp only at hbefore
      omega
  have hnew : (e.2.id :: ghosts).Nodup := by
    refine List.nodup_cons.mpr ⟨fun hin => ?_, hnodup⟩
    obtain ⟨ghost, hghost, hle, -⟩ := h.failing _ hin
    obtain rfl := Option.some.inj (hhealth.symm.trans hghost)
    exact hlate hle
  have hlen := (List.subperm_of_subset hnew hall).length_le
  rw [List.length_cons, List.length_map] at hlen
  have htake := List.length_take_le alpha due
  omega

theorem haunted_run (hok : r.table.Ok own k) (hk : 1 ≤ k) (hlimit : limit ≤ r.clock)
    (h : Haunted limit ghosts r.table) (hnodup : ghosts.Nodup) (hmany : alpha ≤ ghosts.length)
    {moves : List Recovery.Move}
    (heludes : ∀ pre mv, pre ++ [mv] <+: moves → Eludes ghosts (r.run alpha pre) mv) :
    (r.run alpha moves).table.Ok own k ∧ limit ≤ (r.run alpha moves).clock ∧
      Haunted limit ghosts (r.run alpha moves).table ∧
      ∃ new, (r.run alpha moves).selected = r.selected ++ new ∧
        ∀ due ∈ new, ∀ n ∈ due, n.id ∈ ghosts := by
  induction moves using List.reverseRecOn with
  | nil =>
    exact ⟨hok, hlimit, h, [], (List.append_nil _).symm, fun _ hdue => absurd hdue List.not_mem_nil⟩
  | append_singleton moves mv ih =>
    obtain ⟨hok', hlimit', h', new, hselected, hghosts⟩ := ih fun pre mv hpre =>
      heludes pre mv (hpre.trans (List.prefix_append _ _))
    rw [Recovery.run_snoc]
    have heffect := move_effect alpha (r.run alpha moves) mv
    have helude := heludes moves mv (List.prefix_refl _)
    generalize (r.run alpha moves).move alpha mv = r' at heffect
    refine ⟨effect_ok hok' hk heffect, hlimit'.trans (effect_clock heffect), ?_, ?_⟩
    · rcases helude.table heffect with heq | ⟨a, heq, hsilent⟩
      · rwa [heq]
      · rw [heq]
        exact h'.act hok' hk hlimit' hsilent
    · cases heffect with
      | wake asleep order =>
        rename_i deadline found
        refine ⟨new ++ [contactsDueForProbe found alpha], ?_, fun due hdue => ?_⟩
        · show (r.run alpha moves).selected ++ _ = _
          rw [hselected, List.append_assoc]
        · rcases List.mem_append.mp hdue with hold | hlast
          · exact hghosts due hold
          · rw [List.mem_singleton.mp hlast]
            exact h'.selected hok' hlimit' order hnodup hmany
      | none | wait | other | rememberSeeds | fail | answered | reconnecting | live | ask | isolated
      | reconnected | asked => exact ⟨new, hselected, hghosts⟩

end Ghosts

/-- **Contacts that answer under another id keep everybody else from being probed.** The ping of
a contact whose address answers with another id neither fails nor clears the contact, which
stays the longest overdue. Once `alpha` contacts are like that, all selections are made of
them, for as long as nothing is heard of them; and they stay in the table. -/
theorem ghosts_take_all_probes (start clock : Nat) (own : Node) {k : Nat} (hk : 1 ≤ k)
    (alpha limit : Nat) (before moves : List Recovery.Move) (ghosts : List NodeId) :
    let r := (Loop.new start clock own k).run alpha before
    ghosts.Nodup → alpha ≤ ghosts.length → limit ≤ r.clock → Haunted limit ghosts r.table →
    (∀ pre mv, pre ++ [mv] <+: moves → Eludes ghosts (r.run alpha pre) mv) →
    (∃ new, (r.run alpha moves).selected = r.selected ++ new ∧
      ∀ due ∈ new, ∀ n ∈ due, n.id ∈ ghosts) ∧
    ∀ id ∈ ghosts, (r.run alpha moves).table.hasFailures id = true ∧
      id ∈ (r.run alpha moves).table.primaries.map Node.id := by
  intro r hnodup hmany hlimit h heludes
  obtain ⟨hok, -, hend, hselected⟩ := haunted_run
    (Recovery.ok_run start clock own hk alpha before) hk hlimit h hnodup hmany heludes
  refine ⟨hselected, fun id hid => ?_⟩
  obtain ⟨health, hhealth, -⟩ := hend.failing id hid
  have hfails : (r.run alpha moves).table.hasFailures id = true := by
    rw [hasFailures, hhealth]
    rfl
  exact ⟨hfails, hok.failing id (Option.isSome_iff_ne_none.mp hfails)⟩

/-- The address of the first contact answers under another id, twice. -/
def probedInVain : List Recovery.Move :=
  [.wake [(5000000000, nodeAt 0x80 7000), (6000000000, nodeAt 0x81 7001)],
    .answered (nodeAt 0x80 7000) (nodeAt 0x82 7000), .check, .wait 1000000000,
    .wake [(5000000000, nodeAt 0x80 7000), (6000000000, nodeAt 0x81 7001)]]

theorem ghosts_take_all_probes_inVain :
    let r := (Loop.new 0 0 (nodeAt 0 6999) 2).run 1 twoFail
    (r.run 1 probedInVain).selected = [[nodeAt 0x80 7000], [nodeAt 0x80 7000]] ∧
      (r.run 1 probedInVain).table.hasFailures (filledId 0x80) = true := by
  intro r
  have hok := Recovery.ok_run 0 0 (nodeAt 0 6999) (by decide : 1 ≤ 2) 1 twoFail
  have hfirst : r.table.health (filledId 0x80) = some ⟨1, 0, 5000000000⟩ := by decide +kernel
  have hsecond : r.table.health (filledId 0x81) = some ⟨1, 1000000000, 6000000000⟩ := by
    decide +kernel
  have hprimaries : r.table.primaries.map Node.id = [filledId 0x80, filledId 0x81] := by
    decide +kernel
  refine ⟨by decide +kernel, ?_⟩
  refine ((ghosts_take_all_probes 0 0 (nodeAt 0 6999) (by decide) 1 5000000000 twoFail probedInVain
    [filledId 0x80] (List.nodup_singleton _) (Nat.le_refl 1) (by decide +kernel) ?_ ?_).2
    (filledId 0x80) (List.mem_singleton_self _)).1
  · refine ⟨fun id hid => ?_, fun id health hhealth hle => ?_⟩
    · rw [List.mem_singleton.mp hid]
      exact ⟨_, hfirst, Nat.le_refl _, by decide⟩
    · have hid := hok.failing id (by rw [hhealth]; exact Option.some_ne_none _)
      rw [hprimaries] at hid
      rcases List.mem_pair.mp hid with rfl | rfl
      · exact List.mem_singleton_self _
      · obtain rfl := Option.some.inj (hsecond.symm.trans hhealth)
        exact absurd hle (by decide)
  · intro pre mv hpre
    have hmem : mv ∈ probedInVain :=
      hpre.subset (List.mem_append_right _ (List.mem_singleton_self mv))
    simp only [probedInVain, List.mem_cons, List.not_mem_nil, or_false] at hmem
    obtain rfl | rfl | rfl | rfl | rfl := hmem
    · trivial
    · exact (by decide : (nodeAt 0x82 7000).id ∉ [filledId 0x80])
    · trivial
    · trivial
    · trivial

/-! ## The seeds of an isolated node -/

/-- **A node without contacts that respond asks its seeds**: whenever the loop finds none, it
pings all seeds, unless it did in the last 75 seconds. It never does so with a contact that
responds, nor twice within two seconds. -/
theorem isolated_node_asks_seeds (start clock : Nat) (own : Node) (k alpha : Nat)
    (moves : List Recovery.Move) :
    let r := (Loop.new start clock own k).run alpha moves
    (r.phase = .probing [] → r.table.liveContacts = 0 → r.seeds ≠ [] →
      (r.move alpha .check).phase = .askingSeeds r.seeds ∨
        ∃ last ∈ r.lastAsked, r.clock < last + 75 * Storage.nanosPerSec) ∧
    ∀ seeds, r.phase = .probing [] → (r.move alpha .check).phase = .askingSeeds seeds →
      seeds = r.seeds ∧ r.table.liveContacts = 0 ∧
        ∀ last ∈ r.lastAsked, last + 2 * Storage.nanosPerSec ≤ r.clock := by
  intro r
  have h : SeedTimes r := seedTimes_run start clock own k alpha moves
  constructor
  · intro hphase hlive hseeds
    simp only [Loop.move, hphase, hlive, Nat.lt_irrefl, if_false]
    by_cases hdue : r.nextSeedAttempt ≤ r.clock
    · left
      simp [hdue, hseeds]
    · right
      cases hlast : r.lastAsked with
      | none => exact absurd (h.never hlast) hdue
      | some last =>
        obtain ⟨-, hnext⟩ := h.again last hlast
        refine ⟨last, rfl, ?_⟩
        simp only [rejoinBackoffMax] at hnext
        omega
  · intro seeds hphase hasking
    simp only [Loop.move, hphase] at hasking
    split at hasking
    · split at hasking <;> cases hasking
    · rename_i hlive
      split at hasking
      · rename_i hdue
        cases hasking
        have hdue := of_decide_eq_true (Bool.and_eq_true_iff.mp hdue).2
        refine ⟨rfl, Nat.eq_zero_of_not_pos hlive, fun last hlast => ?_⟩
        exact (h.again last hlast).1.trans hdue
      · cases hasking

deriving instance DecidableEq for Recovery.Phase

/-- The only contact fails and the seed is asked. Eighty seconds later a ping of the contact
fails again. -/
def cutOff : List Recovery.Move :=
  [.rememberSeeds [("10.0.0.1", 7000)], .other (.addContact 0 (nodeAt 0x80 7000)),
    .other (.recordFailureAt (nodeAt 0x80 7000) 0 0), .wait 1000000000, .wake [], .check,
    .asked 0, .wait 80000000000, .wake [(5000000000, nodeAt 0x80 7000)],
    .fail (nodeAt 0x80 7000) 0]

theorem isolated_node_asks_seeds_cutOff :
    let r := (Loop.new 0 0 (nodeAt 0 6999) 2).run 3 cutOff
    r.lastAsked = some 1000000000 ∧ r.selected = [[], [nodeAt 0x80 7000]] ∧
      (r.move 3 .check).phase = .askingSeeds r.seeds ∧
      ∀ last ∈ r.lastAsked, last + 2 * Storage.nanosPerSec ≤ r.clock := by
  intro r
  obtain ⟨hphase, hlive, hseeds⟩ : r.phase = .probing [] ∧ r.table.liveContacts = 0 ∧
      r.seeds ≠ [] := by decide +kernel
  obtain ⟨hlast, hclock⟩ : r.lastAsked = some 1000000000 ∧ r.clock = 81000000000 := by
    decide +kernel
  obtain ⟨hasks, hnever⟩ := isolated_node_asks_seeds 0 0 (nodeAt 0 6999) 2 3 cutOff
  have hasked : (r.move 3 .check).phase = .askingSeeds r.seeds := by
    refine (hasks hphase hlive hseeds).resolve_right ?_
    rintro ⟨last, hmem, hrecent⟩
    obtain rfl := Option.some.inj (hlast.symm.trans hmem)
    rw [hclock] at hrecent
    exact absurd hrecent (by decide)
  exact ⟨hlast, by decide +kernel, hasked, (hnever r.seeds hphase hasked).2.2⟩

end AuthKademlia.Properties
