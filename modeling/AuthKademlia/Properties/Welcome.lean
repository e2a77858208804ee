import AuthKademlia.Network.Maintenance
import AuthKademlia.Network.Server
import AuthKademlia.Properties.Neighbours

/-! # The records a new node is sent

`replicate_to` compares the new node with the last of the closest contacts, and this
node with the first. Publication sorts the new node, this node and the contacts and cuts
the list. The two rules part in two places: below a full list a new node that is farther
than every contact gets nothing, and next to a full list this node itself is not
counted. -/
namespace AuthKademlia.Properties
open AuthKademlia.Lib.Shortlist AuthKademlia.Routing AuthKademlia.Network AuthKademlia.Storage
open AuthKademlia.Utils AuthKademlia.Routing.RoutingTable

variable {t : RoutingTable} {own n : Node} {k : Nat} {key : NodeId}

def Healthy (t : RoutingTable) : Prop := ∀ c ∈ t.primaries, t.hasFailures c.id = false

/-- The known contacts other than `n`. -/
def contactsBut (t : RoutingTable) (n : Node) : List Node := t.primaries.filter fun c => c.id ≠ n.id

/-- How many of the nodes are closer to the key than `n`. -/
def nearer (key : NodeId) (n : Node) (nodes : List Node) : Nat :=
  nodes.countP fun c => c.distanceTo (.fromId key) < n.distanceTo (.fromId key)

/-- `own` is closer to the key than every known contact other than `n`. -/
def ThisClosest (own : Node) (t : RoutingTable) (n : Node) (key : NodeId) : Prop :=
  ∀ c ∈ contactsBut t n, own.distanceTo (.fromId key) < c.distanceTo (.fromId key)

/-- Publication over the known contacts, `own` and `n` would choose `n` as a replica. -/
def Responsible (own : Node) (t : RoutingTable) (k : Nat) (n : Node) (key : NodeId) : Prop :=
  n ∈ (selectResponsibleNodes own (.fromId key) (contactsBut t n ++ [n]) k).2

instance : Decidable (Healthy t) :=
  inferInstanceAs (Decidable (∀ c ∈ t.primaries, t.hasFailures c.id = false))

instance : Decidable (ThisClosest own t n key) :=
  inferInstanceAs (Decidable (∀ c ∈ contactsBut t n, _ < _))

instance : Decidable (Responsible own t k n key) := inferInstanceAs (Decidable (n ∈ _))

/-! ## What the two rules compare -/

theorem findNeighbors_healthy (h : Healthy t) (target : Node) (exclude : Option Node) :
    t.findNeighbors target exclude = t.closest target exclude fun _ => true := by
  have hsame : ∀ keep : Node → Bool, (∀ c ∈ t.primaries, keep c = true) →
      t.closest target exclude keep = t.closest target exclude fun _ => true := by
    intro keep hkeep
    unfold RoutingTable.closest
    rw [List.filter_congr fun c hc => by rw [hkeep c hc]]
  have hhealthy := hsame (fun c => !t.hasFailures c.id) fun c hc => by simp [h c hc]
  have hnotStale := hsame (fun c => !t.isStale c.id) fun c hc => by
    simp [not_stale_of_healthy (h c hc)]
  rcases findNeighbors_cases t target exclude with ⟨-, heq⟩ | ⟨-, -, heq⟩ | ⟨-, -, heq⟩
  · exact heq.trans hhealthy
  · exact heq
  · exact heq.trans hnotStale

theorem nodup_contactsBut (hnd : (t.primaries.map Node.id).Nodup) (n : Node) :
    ((contactsBut t n).map Node.id).Nodup :=
  hnd.sublist (List.filter_sublist.map Node.id)

theorem neighbours_nearest (hnd : (t.primaries.map Node.id).Nodup) (hhealthy : Healthy t)
    (hkey : key ∉ t.primaries.map Node.id) (n : Node) :
    Nearest t.ksize (fun c => c.distanceTo (.fromId key)) {c | c ∈ contactsBut t n}
      (t.findNeighbors (.fromId key) (some n)) := by
  rw [findNeighbors_healthy hhealthy]
  refine (closest_shortlist hnd (.fromId key) (some n) fun _ => true).congr fun c => ?_
  have heligible : t.eligible (.fromId key) (some n) (fun _ => true) = contactsBut t n := by
    refine List.filter_congr fun c hc => ?_
    have hne : c.id ≠ (Node.fromId key).id := fun he =>
      hkey (List.mem_map.mpr ⟨c, hc, he⟩)
    simp [hne]
  rw [heligible]

theorem distanceTo_ne {target c n : Node} (h : c.id ≠ n.id) :
    c.distanceTo target ≠ n.distanceTo target :=
  fun he => h (distTo_injective _ he)

/-- **The scan, in numbers**: it sends the record if there is nobody to compare with, or
if fewer contacts are closer than `n` than the list has and this node is the closest. -/
theorem shouldReplicate_iff (hnd : (t.primaries.map Node.id).Nodup) (hhealthy : Healthy t)
    (hkey : key ∉ t.primaries.map Node.id) :
    shouldReplicate own t n key = true ↔ min t.ksize (contactsBut t n).length = 0 ∨
      nearer key n (contactsBut t n) < min t.ksize (contactsBut t n).length ∧
        ThisClosest own t n key := by
  have hnear := neighbours_nearest hnd hhealthy hkey n
  have hC := (nodup_contactsBut hnd n).of_map
  have hlen := hnear.length_eq hC
  simp only [shouldReplicate, Bool.and_eq_true]
  rw [← hlen]
  cases hlist : t.findNeighbors (.fromId key) (some n) with
  | nil => simp
  | cons first rest =>
    rw [hlist] at hnear
    obtain ⟨last, hlast⟩ : ∃ last, (first :: rest).getLast? = some last :=
      ⟨_, List.getLast?_eq_some_getLast (List.cons_ne_nil first rest)⟩
    have hdist : ∀ c ∈ contactsBut t n,
        c.distanceTo (.fromId key) ≠ n.distanceTo (.fromId key) := fun c hc =>
      distanceTo_ne (by simpa using (List.mem_filter.mp hc).2)
    rw [hlast]
    simp only [List.head?_cons, decide_eq_true_eq]
    rw [hnear.lt_getLast_iff hC hlast hdist, hnear.lt_head_iff List.head?_cons]
    simp [nearer, ThisClosest]

/-- **The selection, in numbers**: fewer than `k` of the nodes are closer than `n`. -/
theorem responsible_iff (hnd : (t.primaries.map Node.id).Nodup)
    (hown : own.id ∉ t.primaries.map Node.id) (hn : n.id ≠ own.id) :
    Responsible own t k n key ↔ nearer key n (contactsBut t n ++ [own]) < k := by
  have hids : ((contactsBut t n ++ [n] ++ [own]).map Node.id).Nodup := by
    have hbut : ∀ c ∈ contactsBut t n, c.id ≠ n.id ∧ c.id ≠ own.id := fun c hc =>
      ⟨by simpa using (List.mem_filter.mp hc).2,
        fun he => hown (List.mem_map.mpr ⟨c, List.mem_of_mem_filter hc, he⟩)⟩
    rw [List.append_assoc, List.map_append, List.nodup_append]
    refine ⟨nodup_contactsBut hnd n, by simpa using hn, fun a ha b hb => ?_⟩
    obtain ⟨c, hc, rfl⟩ := List.mem_map.mp ha
    obtain ⟨hcn, hco⟩ := hbut c hc
    simp only [List.map_append, List.map_cons, List.map_nil, List.mem_append,
      List.mem_singleton] at hb
    rcases hb with rfl | rfl
    · exact hcn
    · exact hco
  have hshort : Nearest k (fun c => c.distanceTo (.fromId key))
      {c | c ∈ contactsBut t n ++ [n] ++ [own]} _ := nearest_sort
    (fun a ha b hb he => List.inj_on_of_nodup_map hids ha hb (distTo_injective _ he)) hids.of_map
  rw [Responsible, selectResponsibleNodes_distinct hids rfl, List.mem_filter, decide_eq_true_eq,
    and_iff_left hn, hshort.mem_iff_countP hids.of_map (by simp)]
  simp [nearer, List.countP_append]

theorem idOfBytes_eq_some {bytes : Bytes} : idOfBytes bytes = some key ↔ bytes = key.bytes := by
  unfold idOfBytes
  constructor
  · intro h
    split at h
    · rw [← Option.some.inj h]
    · cases h
  · rintro rfl
    rw [dif_pos key.length_eq]

theorem mem_replicateTo {router : NodeId → RoutingTable} {s : ForgetfulStorage} {now : Instant}
    {value : Bytes} (hstored : s.get now key.bytes = some value) :
    (n, key, value) ∈ replicateTo own router s now n ↔
      shouldReplicate own (router key) n key = true := by
  rw [replicateTo, List.mem_filterMap]
  constructor
  · rintro ⟨⟨bytes, v⟩, -, h⟩
    cases hid : idOfBytes bytes with
    | none => simp [hid] at h
    | some key' =>
      simp only [hid] at h
      split at h
      · rename_i hsend
        obtain ⟨-, hrest⟩ := Prod.mk.inj (Option.some.inj h)
        obtain ⟨rfl, -⟩ := Prod.mk.inj hrest
        exact hsend
      · cases h
  · intro hsend
    refine ⟨(key.bytes, value), ForgetfulStorage.mem_iterAll.mpr hstored, ?_⟩
    simp only [idOfBytes_eq_some.mpr rfl, if_pos hsend]

/-! ## Where they agree -/

/-- All known contacts are closer than `n`, and with this node they are fewer than `k`. -/
def LastOfFew (t : RoutingTable) (k : Nat) (n : Node) (key : NodeId) : Prop :=
  contactsBut t n ≠ [] ∧ nearer key n (contactsBut t n) = (contactsBut t n).length ∧
    (contactsBut t n).length + 1 < k

/-- This node and `k - 1` contacts are closer than `n`, and another contact is farther or
there are no contacts. -/
def JustOutside (own : Node) (t : RoutingTable) (k : Nat) (n : Node) (key : NodeId) : Prop :=
  own.distanceTo (.fromId key) < n.distanceTo (.fromId key) ∧
    nearer key n (contactsBut t n) + 1 = k ∧
    (nearer key n (contactsBut t n) < (contactsBut t n).length ∨ contactsBut t n = [])

instance : Decidable (LastOfFew t k n key) := inferInstanceAs (Decidable (_ ∧ _ ∧ _))

instance : Decidable (JustOutside own t k n key) := inferInstanceAs (Decidable (_ ∧ _ ∧ (_ ∨ _)))

/-- **A new node is sent the records it is responsible for, with two exceptions.** For a
stored key that is no contact's id and a table without failing contacts: `replicate_to`
sends the record exactly if this node is closer to the key than every known contact other
than `n` and publication would choose `n`, unless this node is that close and `n` is
either the last of few (it is chosen, but nothing is sent) or just outside the `k` closest
(it is sent the record, but not chosen). -/
theorem welcome_sends_responsible (own n : Node) (k start : Nat) (actions : List Action)
    (router : NodeId → RoutingTable) (s : ForgetfulStorage) (now : Instant) (key : NodeId)
    (value : Bytes) (hrouter : router key = after start own k actions)
    (hhealthy : Healthy (router key)) (hn : n.id ≠ own.id)
    (hkey : key ∉ (router key).primaries.map Node.id)
    (hstored : s.get now key.bytes = some value) :
    ((n, key, value) ∈ replicateTo own router s now n ↔
      ThisClosest own (router key) n key ∧ Responsible own (router key) k n key) ↔
    ¬ (k = 0 ∨ ThisClosest own (router key) n key ∧
      (LastOfFew (router key) k n key ∨ JustOutside own (router key) k n key)) := by
  have hnd : ((router key).primaries.map Node.id).Nodup :=
    hrouter ▸ nodup_primaries_after start own k actions
  have hown : own.id ∉ (router key).primaries.map Node.id :=
    hrouter ▸ own_not_primary_after start own k actions
  have hk : (router key).ksize = k := hrouter ▸ ksize_after start own k actions
  rw [mem_replicateTo hstored, shouldReplicate_iff hnd hhealthy hkey, hk,
    responsible_iff hnd hown hn]
  have hsplit : nearer key n (contactsBut (router key) n ++ [own]) =
      nearer key n (contactsBut (router key) n) +
        if own.distanceTo (.fromId key) < n.distanceTo (.fromId key) then 1 else 0 := by
    simp [nearer, List.countP_append, List.countP_cons]
  have hle : nearer key n (contactsBut (router key) n) ≤ (contactsBut (router key) n).length :=
    List.countP_le_length
  -- a contact between the closest node and `n` puts the closest node before `n`
  have hbetween : ThisClosest own (router key) n key →
      0 < nearer key n (contactsBut (router key) n) →
      own.distanceTo (.fromId key) < n.distanceTo (.fromId key) := by
    intro hclosest hpos
    obtain ⟨c, hc, hlt⟩ := List.countP_pos_iff.mp hpos
    exact (hclosest c hc).trans (of_decide_eq_true hlt)
  have halone : (contactsBut (router key) n).length = 0 → ThisClosest own (router key) n key := by
    intro hnone c hc
    rw [List.length_eq_zero_iff.mp hnone] at hc
    cases hc
  rw [hsplit, LastOfFew, JustOutside, Ne, ← List.length_eq_zero_iff]
  by_cases hclosest : ThisClosest own (router key) n key
  · by_cases hbefore : own.distanceTo (.fromId key) < n.distanceTo (.fromId key)
    · simp only [hclosest, hbefore, if_true, and_true, true_and]
      omega
    · have hnobody : nearer key n (contactsBut (router key) n) = 0 :=
        Nat.eq_zero_of_not_pos fun hpos => hbefore (hbetween hclosest hpos)
      simp only [hclosest, hbefore, if_false, and_true, true_and, false_and, or_false, hnobody]
      omega
  · have hsome : (contactsBut (router key) n).length ≠ 0 := fun hnone => hclosest (halone hnone)
    simp only [hclosest, and_false, false_and, or_false, iff_false]
    omega

/-- A store with one record that does not expire. -/
def singleRecord (key : NodeId) (value : Bytes) : ForgetfulStorage :=
  ((ForgetfulStorage.withMaxStorageBytes (-1) 100).set 0 key.bytes value).2

/-- The contacts with the bytes given. -/
def met (bytes : List UInt8) : List Action :=
  bytes.map fun b => .addContact 1 (nodeAt b 7000)

/-- Between this node and its only contact, `02..02` is sent the record. -/
theorem welcome_sends_responsible_between :
    let t := after 0 (nodeAt 1 7000) 2 (met [4])
    let sent := replicateTo (nodeAt 1 7000) (fun _ => t) (singleRecord (filledId 0) [7]) 5
      (nodeAt 2 7000)
    (nodeAt 2 7000, filledId 0, [7]) ∈ sent ∧
      ThisClosest (nodeAt 1 7000) t (nodeAt 2 7000) (filledId 0) ∧
      Responsible (nodeAt 1 7000) t 2 (nodeAt 2 7000) (filledId 0) := by
  intro t sent
  have hsent : (nodeAt 2 7000, filledId 0, [7]) ∈ sent := by decide +kernel
  have hagree := welcome_sends_responsible (nodeAt 1 7000) (nodeAt 2 7000) 2 0 (met [4])
    (fun _ => t) (singleRecord (filledId 0) [7]) 5 (filledId 0) [7] rfl
    (by decide +kernel) (by decide) (by decide +kernel) (by decide +kernel)
  exact ⟨hsent, (hagree.mpr (by decide +kernel)).mp hsent⟩

/-- **The rules part.** With `k = 3` and one contact, which is closer than the new node
`04..04`, nothing is sent although the new node is one of the three closest. With
`k = 2` and one closer and one farther contact the record is sent, although this node
and the closer contact are the two closest. -/
theorem welcome_rules_part :
    let sent := fun (k : Nat) (bytes : List UInt8) => replicateTo (nodeAt 1 7000)
      (fun _ => after 0 (nodeAt 1 7000) k (met bytes)) (singleRecord (filledId 0) [7]) 5
      (nodeAt 4 7000)
    let chosen := fun (k : Nat) (bytes : List UInt8) =>
      ThisClosest (nodeAt 1 7000) (after 0 (nodeAt 1 7000) k (met bytes)) (nodeAt 4 7000)
        (filledId 0) ∧
      Responsible (nodeAt 1 7000) (after 0 (nodeAt 1 7000) k (met bytes)) k (nodeAt 4 7000)
        (filledId 0)
    ((nodeAt 4 7000, filledId 0, [7]) ∉ sent 3 [2] ∧ chosen 3 [2]) ∧
    ((nodeAt 4 7000, filledId 0, [7]) ∈ sent 2 [2, 8] ∧ ¬ chosen 2 [2, 8]) := by
  decide +kernel

end AuthKademlia.Properties
