import AuthKademlia.Lib.Xor
import AuthKademlia.Routing.Table

/-! # What a table knows after meeting nodes one by one

Without failures or removals, a bucket holds every node met so far in its range,
until it is full and may not split: then it is closed, keeps its `k` contacts
and takes no part in the local region of the table. `addContacts_ok` proves this
of every order of meeting nodes. The induction inside one insertion follows the
splits: the newcomer waits in the replacement list of a full bucket, and each
split halves the aligned block that the bucket covers. -/
namespace AuthKademlia.Routing
open AuthKademlia.Lib.Xor AuthKademlia.Utils

namespace KBucket

variable {b : KBucket} {n : Node} {now : Nat}

theorem contains_iff : b.contains n = true ↔ n.id ∈ b.nodes.map Node.id := by
  simp [contains, List.any_eq_true]

theorem addNode_room (hn : b.contains n = false) (hlen : b.nodes.length < b.ksize) :
    b.addNode n = ({ b with nodes := b.nodes ++ [n] }, true) := by
  simp [addNode, hn, hlen]

theorem addNode_full (hn : b.contains n = false) (hlen : b.ksize ≤ b.nodes.length) :
    b.addNode n = ({ b with replacementNodes := b.enqueue n }, false) := by
  simp [addNode, hn, Nat.not_lt.mpr hlen]

theorem addNode_waits (hn : b.contains n = false) (hlen : b.ksize ≤ b.nodes.length)
    (hcap : 1 ≤ b.maxReplacementNodes)
    (hw : b.replacementNodes = [] ∨ b.replacementNodes = [n]) :
    b.addNode n = ({ b with replacementNodes := [n] }, false) := by
  have herase : b.replacementNodes.eraseP (fun m => m.id = n.id) = [] := by
    rcases hw with hw | hw <;> simp [hw]
  have hq : b.enqueue n = [n] := by simp [enqueue, herase, Nat.sub_eq_zero_of_le hcap]
  rw [addNode_full hn hlen, hq]

def addAll (b : KBucket) (ns : List Node) : KBucket := ns.foldl (fun b n => (b.addNode n).1) b

theorem addAll_room : ∀ (ns : List Node) (b : KBucket), ((b.nodes ++ ns).map Node.id).Nodup →
    b.nodes.length + ns.length ≤ b.ksize → b.addAll ns = { b with nodes := b.nodes ++ ns }
  | [], b, _, _ => by simp [addAll]
  | n :: ns, b, hnd, hlen => by
    have hn : b.contains n = false := by
      rw [Bool.eq_false_iff, Ne, contains_iff]
      rw [List.map_append, List.map_cons, List.nodup_append] at hnd
      exact fun h => hnd.2.2 n.id h n.id (by simp) rfl
    simp only [List.length_cons] at hlen
    have hstep : b.addAll (n :: ns) = addAll { b with nodes := b.nodes ++ [n] } ns := by
      rw [addAll, List.foldl_cons, addNode_room hn (by omega)]; rfl
    rw [hstep, addAll_room ns _ (by simpa using hnd) (by simp; omega)]
    simp

theorem addAll_snoc (b : KBucket) (ns : List Node) (n : Node) :
    b.addAll (ns ++ [n]) = ((b.addAll ns).addNode n).1 := by
  simp [addAll]

theorem split_eq (now : Nat) (b : KBucket) :
    b.split now =
      ((new now b.lo b.mid b.ksize).addAll
        ((b.nodes ++ b.replacementNodes).filter fun m => m.longId ≤ b.mid),
      (new now (b.mid + 1) b.hi b.ksize).addAll
        ((b.nodes ++ b.replacementNodes).filter fun m => ¬ m.longId ≤ b.mid)) := by
  rw [split]
  generalize new now b.lo b.mid b.ksize = low
  generalize new now (b.mid + 1) b.hi b.ksize = high
  induction b.nodes ++ b.replacementNodes generalizing low high with
  | nil => rfl
  | cons m ms ih =>
    rw [List.foldl_cons, List.filter_cons, List.filter_cons]
    by_cases h : m.longId ≤ b.mid
    · simp only [h, if_true, decide_true, not_true_eq_false, decide_false, ih]; rfl
    · simp only [h, if_false, decide_false, not_false_eq_true, decide_true, ih]; rfl

@[simp] theorem new_nodes (now lo hi k : Nat) : (new now lo hi k).nodes = [] := rfl

end KBucket

open KBucket

/-! ## The invariant -/

/-- A bucket of a node that met the nodes `K`. -/
structure BucketOk (K : List Node) (k : Nat) (b : KBucket) : Prop where
  ksize : b.ksize = k
  cap : b.maxReplacementNodes = k * 5
  known : ∀ m ∈ b.nodes, m ∈ K
  inside : ∀ m ∈ b.nodes, b.covers m.longId = true
  nodup : (b.nodes.map Node.id).Nodup
  length_le : b.nodes.length ≤ k
  block : ∃ j m, Block b.lo b.hi j m

/-- Every node of `K` in the bucket's range is one of its primaries. -/
def HoldsAll (K : List Node) (b : KBucket) : Prop :=
  ∀ m ∈ K, b.covers m.longId = true → m ∈ b.nodes

/-- A full bucket that will not split. -/
structure Closed (own : Nat) (k : Nat) (b : KBucket) : Prop where
  full : b.nodes.length = k
  away : b.covers own = false
  depth : b.depth % 5 = 0

def Settled (K : List Node) (own k : Nat) (b : KBucket) : Prop :=
  b.replacementNodes = [] ∧ HoldsAll K b ∨ Closed own k b

/-- The table of the node `own` with bucket size `k` that met the nodes `K`. -/
structure TableOk (own : Node) (k : Nat) (K : List Node) (t : RoutingTable) : Prop where
  node : t.node = own
  ksize : t.ksize = k
  healthy : ∀ id, t.health id = none
  tiles : Tiles 0 t.buckets (2 ^ 160)
  buckets : ∀ b ∈ t.buckets, BucketOk K k b ∧ Settled K own.longId k b

variable {own n : Node} {k now : Nat} {K : List Node} {b : KBucket} {t : RoutingTable}
variable {pre post : List KBucket}

theorem BucketOk.mono (h : BucketOk K k b) (n : Node) : BucketOk (n :: K) k b :=
  ⟨h.ksize, h.cap, fun m hm => List.mem_cons_of_mem n (h.known m hm), h.inside, h.nodup,
    h.length_le, h.block⟩

theorem BucketOk.perm (h : BucketOk K k b) {ns : List Node} (hperm : ns.Perm b.nodes) :
    BucketOk K k { b with nodes := ns } where
  ksize := h.ksize
  cap := h.cap
  known := fun m hm => h.known m (hperm.mem_iff.mp hm)
  inside := fun m hm => h.inside m (hperm.mem_iff.mp hm)
  nodup := (hperm.map _).nodup_iff.mpr h.nodup
  length_le := hperm.length_eq ▸ h.length_le
  block := h.block

theorem BucketOk.setReplacementNodes (h : BucketOk K k b) (ns : List Node) :
    BucketOk K k { b with replacementNodes := ns } :=
  ⟨h.ksize, h.cap, h.known, h.inside, h.nodup, h.length_le, h.block⟩

theorem Settled.mono (h : Settled K own.longId k b) (hn : b.covers n.longId = false) :
    Settled (n :: K) own.longId k b := by
  rcases h with ⟨hr, hall⟩ | hc
  · refine Or.inl ⟨hr, fun m hm hcov => ?_⟩
    rcases List.mem_cons.mp hm with rfl | hm
    · rw [hn] at hcov; cases hcov
    · exact hall m hm hcov
  · exact Or.inr hc

theorem RoutingTable.not_stale (hh : ∀ id, t.health id = none) (id : NodeId) :
    t.isStale id = false := by
  simp [RoutingTable.isStale, hh]

theorem replaceStaleIfFull_healthy (hh : ∀ id, t.health id = none) (idx : Nat) (n : Node) :
    t.replaceStaleIfFull idx n = t := by
  rw [RoutingTable.replaceStaleIfFull]
  split
  · rfl
  · split
    · rfl
    · rw [List.find?_eq_none.mpr (by simp [RoutingTable.not_stale hh])]

/-- One level of `insert` in a table without failures. -/
theorem insert_succ (hh : ∀ id, t.health id = none) (ht : t.buckets = pre ++ b :: post)
    (hb : b.covers n.longId = true) (hpre : ∀ c ∈ pre, c.covers n.longId = false)
    (now fuel : Nat) :
    t.insert now (fuel + 1) n =
      if (b.addNode n).2 then ({ t with buckets := pre ++ (b.addNode n).1 :: post }, none)
      else if (b.addNode n).1.covers t.node.longId || (b.addNode n).1.depth % 5 ≠ 0 then
        RoutingTable.insert now fuel { t with buckets := pre ++
          ((b.addNode n).1.split now).1 :: ((b.addNode n).1.split now).2 :: post } n
      else ({ t with buckets := pre ++ (b.addNode n).1 :: post }, (b.addNode n).1.head) := by
  have hidx := RoutingTable.bucketIndexFor_eq ht hb hpre
  have hget : t.buckets[pre.length]? = some b := by simp [ht]
  have hset : t.buckets.set pre.length (b.addNode n).1 = pre ++ (b.addNode n).1 :: post := by
    simp [ht]
  rw [RoutingTable.insert, hidx, replaceStaleIfFull_healthy hh]
  simp only [hget, hset]
  rw [RoutingTable.splitBucket_eq now (show _ = pre ++ (b.addNode n).1 :: post from rfl)]

/-! ## One insertion -/

/-- The bucket of a newcomer `n` at some level of `insert`: it is in already, or
the bucket can take it or let it wait, or the bucket is closed. -/
inductive Ready (own n : Node) (k : Nat) (K : List Node) (b : KBucket) : Prop
  | placed (mem : n ∈ b.nodes) (none : b.replacementNodes = []) (all : HoldsAll (n :: K) b)
  | open (new : b.contains n = false)
      (wait : b.replacementNodes = [] ∨ b.replacementNodes = [n] ∧ b.nodes.length = k)
      (all : HoldsAll K b)
  | closed (new : b.contains n = false) (closed : Closed own.longId k b)

/-- A full bucket in whose replacement list the newcomer `n` waits alone. -/
structure Waiting (n : Node) (k : Nat) (K : List Node) (b : KBucket) : Prop where
  ok : BucketOk (n :: K) k b
  full : b.nodes.length = k
  wait : b.replacementNodes = [n]
  all : HoldsAll K b
  new : b.contains n = false
  covers : b.covers n.longId = true

theorem nodup_append_new (h : (b.nodes.map Node.id).Nodup) (hnew : b.contains n = false) :
    ((b.nodes ++ [n]).map Node.id).Nodup := by
  rw [List.map_append, List.nodup_append]
  refine ⟨h, by simp, fun x hx y hy => ?_⟩
  simp only [List.map_cons, List.map_nil, List.mem_singleton] at hy
  rintro rfl
  rw [Bool.eq_false_iff, Ne, contains_iff] at hnew
  exact hnew (hy ▸ hx)

theorem perm_moveToTail {ns : List Node} (h : (ns.map Node.id).Nodup) (hn : n ∈ ns) :
    (ns.eraseP (fun m => m.id = n.id) ++ [n]).Perm ns := by
  induction ns with
  | nil => cases hn
  | cons m ns ih =>
    rw [List.map_cons, List.nodup_cons] at h
    by_cases hm : m.id = n.id
    · rcases List.mem_cons.mp hn with rfl | hn
      · simp
      · exact absurd (hm ▸ List.mem_map_of_mem hn) h.1
    · have hn' : n ∈ ns := (List.mem_cons.mp hn).resolve_left fun he => hm (by rw [he])
      simpa [List.eraseP_cons, hm] using ih h.2 hn'

theorem Waiting.nodup (h : Waiting n k K b) : ((b.nodes ++ [n]).map Node.id).Nodup :=
  nodup_append_new h.ok.nodup h.new

theorem Waiting.known (h : Waiting n k K b) : ∀ m ∈ b.nodes ++ [n], m ∈ n :: K :=
  List.forall_mem_append.mpr ⟨h.ok.known, List.forall_mem_singleton.mpr (List.mem_cons_self ..)⟩

theorem Waiting.inside (h : Waiting n k K b) : ∀ m ∈ b.nodes ++ [n], b.covers m.longId = true :=
  List.forall_mem_append.mpr ⟨h.ok.inside, List.forall_mem_singleton.mpr h.covers⟩

theorem Waiting.mem_of_covers (h : Waiting n k K b) {m : Node} (hm : m ∈ n :: K)
    (hc : b.covers m.longId = true) : m ∈ b.nodes ++ [n] := by
  rcases List.mem_cons.mp hm with rfl | hm
  · simp
  · exact List.mem_append_left _ (h.all m hm hc)

/-- A half of the bucket of a waiting newcomer, and whether the newcomer is here. -/
structure Half (own n : Node) (k : Nat) (K : List Node) (lo hi : Nat) (here : Prop)
    (c : KBucket) : Prop where
  range : c.lo = lo ∧ c.hi = hi
  ok : BucketOk (n :: K) k c
  ready : here → Ready own n k K c
  settled : ¬ here → Settled (n :: K) own.longId k c

section Halves

variable {lo hi : Nat} {p : Node → Bool}

theorem Waiting.half_fits (h : Waiting n k K b) (own : Node) (now : Nat)
    (hblock : ∃ j m, Block lo hi j m) (hsub : ∀ x, lo ≤ x ∧ x ≤ hi → b.covers x = true)
    (hp : ∀ m, b.covers m.longId = true → (p m = true ↔ lo ≤ m.longId ∧ m.longId ≤ hi))
    (hfit : ((b.nodes ++ [n]).filter p).length ≤ k) :
    Half own n k K lo hi (p n = true)
      { KBucket.new now lo hi k with nodes := (b.nodes ++ [n]).filter p } := by
  have hall : HoldsAll (n :: K)
      { KBucket.new now lo hi k with nodes := (b.nodes ++ [n]).filter p } := by
    intro m hm hcm
    have hr : lo ≤ m.longId ∧ m.longId ≤ hi := covers_iff.mp hcm
    have hb := hsub _ hr
    exact List.mem_filter.mpr ⟨h.mem_of_covers hm hb, (hp m hb).mpr hr⟩
  refine ⟨⟨rfl, rfl⟩, ⟨rfl, rfl, ?_, ?_, ?_, hfit, hblock⟩, fun hn => ?_,
    fun _ => Or.inl ⟨rfl, hall⟩⟩
  · exact fun m hm => h.known m (List.mem_of_mem_filter hm)
  · intro m hm
    obtain ⟨hm, hpm⟩ := List.mem_filter.mp hm
    exact covers_iff.mpr ((hp m (h.inside m hm)).mp hpm)
  · exact h.nodup.sublist (List.filter_sublist.map _)
  · exact Ready.placed (List.mem_filter.mpr ⟨by simp, hn⟩) rfl hall

theorem Waiting.half_whole (h : Waiting n k K b) (own : Node) (now : Nat)
    (hblock : ∃ j m, Block lo hi j m) (hsub : ∀ x, lo ≤ x ∧ x ≤ hi → b.covers x = true)
    (hp : ∀ m, b.covers m.longId = true → (p m = true ↔ lo ≤ m.longId ∧ m.longId ≤ hi))
    (hwhole : ∀ m ∈ b.nodes ++ [n], p m = true) :
    Half own n k K lo hi (p n = true)
      { KBucket.new now lo hi k with nodes := b.nodes, replacementNodes := [n] } := by
  obtain ⟨hnodes, hn⟩ := List.forall_mem_append.mp hwhole
  refine ⟨⟨rfl, rfl⟩, ⟨rfl, rfl, h.ok.known, ?_, h.ok.nodup, h.ok.length_le, hblock⟩,
    fun _ => Ready.open h.new (Or.inr ⟨rfl, h.full⟩) ?_,
    fun hout => absurd (List.forall_mem_singleton.mp hn) hout⟩
  · intro m hm
    exact covers_iff.mpr ((hp m (h.ok.inside m hm)).mp (hnodes m hm))
  · intro m hm hcm
    exact h.all m hm (hsub _ (covers_iff.mp hcm))

/-- **A half of a split bucket** over a smaller block takes its own nodes. They
all fit, unless the whole bucket went to this half. -/
theorem Waiting.half (h : Waiting n k K b) (hk : 1 ≤ k) (own : Node) (now : Nat)
    (hblock : ∃ j m, Block lo hi j m) (hsub : ∀ x, lo ≤ x ∧ x ≤ hi → b.covers x = true)
    (hp : ∀ m, b.covers m.longId = true → (p m = true ↔ lo ≤ m.longId ∧ m.longId ≤ hi)) :
    Half own n k K lo hi (p n = true)
      ((KBucket.new now lo hi k).addAll ((b.nodes ++ [n]).filter p)) := by
  by_cases hfit : ((b.nodes ++ [n]).filter p).length ≤ k
  · rw [addAll_room _ _ (h.nodup.sublist (List.filter_sublist.map _))
      (by simpa [KBucket.new] using hfit)]
    exact h.half_fits own now hblock hsub hp hfit
  · have hlen : (b.nodes ++ [n]).length = k + 1 := by simp [h.full]
    have hwhole : (b.nodes ++ [n]).filter p = b.nodes ++ [n] :=
      List.filter_sublist.eq_of_length_le (by omega)
    have hroom := addAll_room b.nodes (KBucket.new now lo hi k)
      (by simpa using h.ok.nodup) (by simp [KBucket.new, h.full])
    have hwait := addNode_waits (n := n) (b := { KBucket.new now lo hi k with nodes := b.nodes })
      h.new (by simp [KBucket.new, h.full]) (by simp [KBucket.new]; omega) (Or.inl rfl)
    rw [hwhole, addAll_snoc, hroom]
    simp only [new_nodes, List.nil_append]
    rw [hwait]
    exact h.half_whole own now hblock hsub hp (List.filter_eq_self.mp hwhole)

end Halves

theorem Waiting.splittable (h : Waiting n k K b) (hk : 1 ≤ k) {j m : Nat}
    (hj : Block b.lo b.hi j m) : ∃ i, j = i + 1 := by
  cases j with
  | succ i => exact ⟨i, rfl⟩
  | zero =>
    obtain ⟨q, hq⟩ := List.exists_mem_of_length_pos (by rw [h.full]; omega)
    have h₁ := covers_iff.mp h.covers
    have h₂ := covers_iff.mp (h.ok.inside q hq)
    obtain ⟨hlo, hhi⟩ := hj.eq_of_zero
    have hid : q.id = n.id := idToU256_injective (show q.longId = n.longId by omega)
    have hnew := h.new
    rw [Bool.eq_false_iff, Ne, contains_iff] at hnew
    exact absurd (List.mem_map.mpr ⟨q, hq, hid⟩) hnew

theorem Waiting.split (h : Waiting n k K b) (hk : 1 ≤ k) {j m : Nat}
    (hj : Block b.lo b.hi (j + 1) m) (own : Node) (now : Nat) :
    Half own n k K b.lo b.mid (n.longId ≤ b.mid) (b.split now).1 ∧
      Half own n k K (b.mid + 1) b.hi (¬ n.longId ≤ b.mid) (b.split now).2 := by
  obtain ⟨hlow, hhigh⟩ := hj.halves
  have hmid : b.lo ≤ b.mid ∧ b.mid + 1 ≤ b.hi := ⟨hlow.lo_le_hi, hhigh.lo_le_hi⟩
  rw [split_eq, h.wait, h.ok.ksize]
  have h₁ := h.half hk own now ⟨j, _, hlow⟩
    (p := fun m => m.longId ≤ b.mid) (fun x hx => covers_iff.mpr (by unfold mid at hmid; omega))
    (fun m hm => by have := covers_iff.mp hm; simp only [decide_eq_true_eq]; unfold mid; omega)
  have h₂ := h.half hk own now ⟨j, _, hhigh⟩
    (p := fun m => ¬ m.longId ≤ b.mid) (fun x hx => covers_iff.mpr (by unfold mid at hmid; omega))
    (fun m hm => by have := covers_iff.mp hm; simp only [decide_eq_true_eq]; unfold mid; omega)
  rw [decide_eq_true_eq] at h₁ h₂
  exact ⟨h₁, h₂⟩

/-- A level of `insert`: `b` is the newcomer's bucket, the others are settled. -/
structure Level (own n : Node) (k : Nat) (K : List Node) (t : RoutingTable)
    (pre : List KBucket) (b : KBucket) (post : List KBucket) : Prop where
  node : t.node = own
  ksize : t.ksize = k
  healthy : ∀ id, t.health id = none
  tiles : Tiles 0 t.buckets (2 ^ 160)
  eq : t.buckets = pre ++ b :: post
  before : ∀ c ∈ pre, (BucketOk (n :: K) k c ∧ Settled (n :: K) own.longId k c) ∧
    c.covers n.longId = false
  after : ∀ c ∈ post, (BucketOk (n :: K) k c ∧ Settled (n :: K) own.longId k c) ∧
    c.covers n.longId = false
  covers : b.covers n.longId = true
  ok : BucketOk (n :: K) k b
  ready : Ready own n k K b

theorem Level.finish (h : Level own n k K t pre b post) {c : KBucket} (hlo : c.lo = b.lo)
    (hhi : c.hi = b.hi) (hok : BucketOk (n :: K) k c) (hs : Settled (n :: K) own.longId k c) :
    TableOk own k (n :: K) { t with buckets := pre ++ c :: post } := by
  refine ⟨h.node, h.ksize, h.healthy, ?_, fun d hd => ?_⟩
  · have ht := h.tiles
    rw [h.eq, Tiles.append_iff] at ht
    obtain ⟨m, h₁, h₂⟩ := ht
    exact Tiles.append_iff.mpr ⟨m, h₁, by simpa [Tiles, hlo, hhi] using h₂⟩
  · rcases List.mem_append.mp hd with hd | hd
    · exact (h.before d hd).1
    · rcases List.mem_cons.mp hd with rfl | hd
      · exact ⟨hok, hs⟩
      · exact (h.after d hd).1

theorem Level.descend (h : Level own n k K t pre b post) {c low high : KBucket}
    (hlo : c.lo = b.lo) (hhi : c.hi = b.hi) (hmid : c.lo ≤ c.mid ∧ c.mid + 1 ≤ c.hi)
    (hlow : Half own n k K c.lo c.mid (n.longId ≤ c.mid) low)
    (hhigh : Half own n k K (c.mid + 1) c.hi (¬ n.longId ≤ c.mid) high) :
    Level own n k K { t with buckets := pre ++ low :: high :: post } pre low (high :: post) ∨
    Level own n k K { t with buckets := pre ++ low :: high :: post } (pre ++ [low]) high post := by
  obtain ⟨⟨hl₁, hl₂⟩, hlok, hlr, hls⟩ := hlow
  obtain ⟨⟨hh₁, hh₂⟩, hhok, hhr, hhs⟩ := hhigh
  have hcov := covers_iff.mp h.covers
  have htiles : Tiles 0 (pre ++ low :: high :: post) (2 ^ 160) := by
    have ht := h.tiles
    rw [h.eq, Tiles.append_iff] at ht
    obtain ⟨m, h₁, h₂, h₃, h₄⟩ := ht
    refine Tiles.append_iff.mpr ⟨m, h₁, by omega, by omega, by omega, by omega, ?_⟩
    rwa [hh₂, hhi]
  by_cases hn : n.longId ≤ c.mid
  · refine Or.inl ⟨h.node, h.ksize, h.healthy, htiles, rfl, h.before, fun d hd => ?_,
      covers_iff.mpr (by omega), hlok, hlr hn⟩
    rcases List.mem_cons.mp hd with rfl | hd
    · refine ⟨⟨hhok, hhs (not_not_intro hn)⟩, ?_⟩
      rw [Bool.eq_false_iff, Ne, covers_iff]; omega
    · exact h.after d hd
  · refine Or.inr ⟨h.node, h.ksize, h.healthy, htiles, by simp, fun d hd => ?_, h.after,
      covers_iff.mpr (by omega), hhok, hhr hn⟩
    rcases List.mem_append.mp hd with hd | hd
    · exact h.before d hd
    · rw [List.mem_singleton.mp hd]
      refine ⟨⟨hlok, hls hn⟩, ?_⟩
      rw [Bool.eq_false_iff, Ne, covers_iff]; omega

/-- The newcomer is a primary already, as a split made it one: it moves to the most
recently seen end. -/
theorem Level.placed_ok (h : Level own n k K t pre b post) (hmem : n ∈ b.nodes)
    (hrep : b.replacementNodes = []) (hall : HoldsAll (n :: K) b) (now fuel : Nat) :
    TableOk own k (n :: K) (t.insert now (fuel + 1) n).1 := by
  have hadd : b.addNode n =
      ({ b with nodes := b.nodes.eraseP (fun m => m.id = n.id) ++ [n] }, true) := by
    simp [addNode, contains_iff.mpr (List.mem_map_of_mem hmem)]
  have hperm := perm_moveToTail h.ok.nodup hmem
  rw [insert_succ h.healthy h.eq h.covers (fun c hc => (h.before c hc).2), hadd]
  exact h.finish rfl rfl (h.ok.perm hperm)
    (Or.inl ⟨hrep, fun m hm hc => hperm.mem_iff.mpr (hall m hm hc)⟩)

theorem Level.room_ok (h : Level own n k K t pre b post) (hnew : b.contains n = false)
    (hrep : b.replacementNodes = []) (hall : HoldsAll K b) (hroom : b.nodes.length < k)
    (now fuel : Nat) : TableOk own k (n :: K) (t.insert now (fuel + 1) n).1 := by
  rw [insert_succ h.healthy h.eq h.covers (fun c hc => (h.before c hc).2),
    addNode_room hnew (by rw [h.ok.ksize]; exact hroom)]
  refine h.finish rfl rfl ⟨h.ok.ksize, h.ok.cap, ?_, ?_, ?_, ?_, h.ok.block⟩ (Or.inl ⟨hrep, ?_⟩)
  · exact List.forall_mem_append.mpr
      ⟨h.ok.known, List.forall_mem_singleton.mpr (List.mem_cons_self ..)⟩
  · exact List.forall_mem_append.mpr ⟨h.ok.inside, List.forall_mem_singleton.mpr h.covers⟩
  · exact nodup_append_new h.ok.nodup hnew
  · rw [List.length_append, List.length_singleton]
    exact hroom
  · intro m hm hc
    rcases List.mem_cons.mp hm with rfl | hm
    · exact List.mem_append_right _ (List.mem_singleton_self _)
    · exact List.mem_append_left _ (hall m hm hc)

/-- The bucket was closed before: the newcomer only joins the replacement list. -/
theorem Level.closed_ok (h : Level own n k K t pre b post) (hnew : b.contains n = false)
    (hclosed : Closed own.longId k b) (now fuel : Nat) :
    TableOk own k (n :: K) (t.insert now (fuel + 1) n).1 := by
  have hcov : ({ b with replacementNodes := b.enqueue n } : KBucket).covers t.node.longId =
      false := by rw [h.node]; exact hclosed.away
  have hdepth : ({ b with replacementNodes := b.enqueue n } : KBucket).depth % 5 = 0 :=
    hclosed.depth
  rw [insert_succ h.healthy h.eq h.covers (fun c hc => (h.before c hc).2),
    addNode_full hnew (by rw [hclosed.full, h.ok.ksize]), if_neg (by simp),
    if_neg (by simp [hcov, hdepth])]
  exact h.finish rfl rfl (h.ok.setReplacementNodes _)
    (Or.inr ⟨hclosed.full, hclosed.away, hclosed.depth⟩)

/-- **One insertion.** The induction is on the levels that are left, of which each split
takes one. -/
theorem Level.insert_ok (hk : 1 ≤ k) (now : Nat) : ∀ (fuel : Nat) {t : RoutingTable}
    {pre : List KBucket} {b : KBucket} {post : List KBucket} {j m : Nat},
    Level own n k K t pre b post → Block b.lo b.hi j m → j < fuel →
      TableOk own k (n :: K) (t.insert now fuel n).1
  | 0, _, _, _, _, _, _, _, _, hj => absurd hj (Nat.not_lt_zero _)
  | fuel + 1, t, pre, b, post, j, m, h, hj, hfuel => by
    rcases h.ready with ⟨hmem, hrep, hall⟩ | ⟨hnew, hwait, hall⟩ | ⟨hnew, hclosed⟩
    · exact h.placed_ok hmem hrep hall now fuel
    · by_cases hroom : b.nodes.length < k
      · have hrep := hwait.resolve_right fun hw => Nat.ne_of_lt hroom hw.2
        exact h.room_ok hnew hrep hall hroom now fuel
      · have hfull : b.nodes.length = k := Nat.le_antisymm h.ok.length_le (by omega)
        have hcap : 1 ≤ b.maxReplacementNodes := by rw [h.ok.cap]; omega
        have hwaiting : Waiting n k K { b with replacementNodes := [n] } :=
          ⟨h.ok.setReplacementNodes [n], hfull, rfl, hall, hnew, h.covers⟩
        rw [insert_succ h.healthy h.eq h.covers (fun c hc => (h.before c hc).2),
          addNode_waits hnew (by rw [h.ok.ksize, hfull]) hcap (hwait.imp_right And.left),
          if_neg (by simp)]
        split
        · obtain ⟨i, rfl⟩ := hwaiting.splittable hk hj
          obtain ⟨hlow, hhigh⟩ := hwaiting.split hk hj own now
          obtain ⟨hbl, hbh⟩ := hj.halves
          rcases h.descend rfl rfl ⟨hbl.lo_le_hi, hbh.lo_le_hi⟩ hlow hhigh with hl | hl
          · refine Level.insert_ok hk now fuel hl (j := i) (m := 2 * m) ?_ (by omega)
            rw [hlow.range.1, hlow.range.2]
            exact hbl
          · refine Level.insert_ok hk now fuel hl (j := i) (m := 2 * m + 1) ?_ (by omega)
            rw [hhigh.range.1, hhigh.range.2]
            exact hbh
        · rename_i hsplit
          simp only [Bool.or_eq_true, decide_eq_true_eq, not_or, not_not, Bool.not_eq_true,
            h.node] at hsplit
          exact h.finish rfl rfl hwaiting.ok (Or.inr ⟨hfull, hsplit.1, hsplit.2⟩)
    · exact h.closed_ok hnew hclosed now fuel

/-! ## Any order of meeting nodes -/

theorem tableOk_new (now : Nat) (own : Node) (k : Nat) :
    TableOk own k [] (.new now own k) := by
  refine ⟨rfl, rfl, fun _ => rfl, by simp [RoutingTable.new, KBucket.new, Tiles], fun b hb => ?_⟩
  rw [RoutingTable.new, List.mem_singleton] at hb
  subst hb
  refine ⟨⟨rfl, rfl, by simp, by simp, by simp, by simp, ⟨160, 0, ?_⟩⟩,
    Or.inl ⟨rfl, fun m hm => by cases hm⟩⟩
  constructor <;> simp [KBucket.new]

theorem TableOk.ready (h : TableOk own k K t) (hn : n.id ∉ K.map Node.id) (hb : b ∈ t.buckets) :
    Ready own n k K b := by
  obtain ⟨hok, hs⟩ := h.buckets b hb
  have hnew : b.contains n = false := by
    rw [Bool.eq_false_iff, Ne, contains_iff]
    intro hmem
    obtain ⟨m, hm, hid⟩ := List.mem_map.mp hmem
    exact hn (hid ▸ List.mem_map_of_mem (hok.known m hm))
  rcases hs with ⟨hr, hall⟩ | hc
  · exact .open hnew (Or.inl hr) hall
  · exact .closed hnew hc

theorem TableOk.addContact (h : TableOk own k K t) (hk : 1 ≤ k) (hown : n.id ≠ own.id)
    (hn : n.id ∉ K.map Node.id) (now : Nat) : TableOk own k (n :: K) (t.addContact now n).1 := by
  rw [RoutingTable.addContact, h.node, if_neg hown]
  obtain ⟨pre, b, post, heq, hb, hpre, hpost⟩ :=
    h.tiles.find (Nat.zero_le _) (idToU256_lt n.id)
  have hmem : ∀ c, c ∈ pre ∨ c = b ∨ c ∈ post → c ∈ t.buckets := by
    intro c hc; rw [heq]; simpa using hc
  have hother : ∀ c ∈ t.buckets, c.covers n.longId = false →
      (BucketOk (n :: K) k c ∧ Settled (n :: K) own.longId k c) ∧ c.covers n.longId = false :=
    fun c hc hcov => ⟨⟨(h.buckets c hc).1.mono n, (h.buckets c hc).2.mono hcov⟩, hcov⟩
  have hbmem := hmem b (Or.inr (Or.inl rfl))
  have hl : Level own n k K t pre b post :=
    ⟨h.node, h.ksize, h.healthy, h.tiles, heq,
      fun c hc => hother c (hmem c (Or.inl hc)) (hpre c hc),
      fun c hc => hother c (hmem c (Or.inr (Or.inr hc))) (hpost c hc), hb,
      (h.buckets b hbmem).1.mono n, h.ready hn hbmem⟩
  obtain ⟨j, m, hj⟩ := hl.ok.block
  exact hl.insert_ok hk now 161 hj (hj.exponent_le (h.tiles.bounds b hbmem).2)

/-- The table of `own` after it met the nodes of `order` one by one. -/
def addContacts (own : Node) (k : Nat) (start : Nat) (order : List (Nat × Node)) : RoutingTable :=
  order.foldl (fun t e => (t.addContact e.1 e.2).1) (.new start own k)

/-- **Whatever the order, every bucket is settled.** -/
theorem addContacts_ok (hk : 1 ≤ k) (start : Nat) (order : List (Nat × Node))
    (hnd : (order.map fun e => e.2.id).Nodup) (hown : ∀ e ∈ order, e.2.id ≠ own.id) :
    TableOk own k (order.map Prod.snd).reverse (addContacts own k start order) := by
  induction order using List.reverseRecOn with
  | nil => exact tableOk_new start own k
  | append_singleton order e ih =>
    rw [List.map_append, List.nodup_append] at hnd
    have h := ih hnd.1 fun e' he => hown e' (List.mem_append_left _ he)
    have hstep := h.addContact hk (hown e (by simp)) (n := e.2) ?_ e.1
    · simpa [addContacts] using hstep
    · intro hmem
      simp only [List.map_reverse, List.mem_reverse, List.map_map] at hmem
      exact hnd.2.2 e.2.id hmem e.2.id (by simp) rfl

/-! ## What such a table knows -/

theorem TableOk.primaries_nodup (h : TableOk own k K t) : (t.primaries.map Node.id).Nodup := by
  rw [RoutingTable.primaries, List.map_flatMap, List.nodup_flatMap]
  refine ⟨fun b hb => (h.buckets b hb).1.nodup,
    h.tiles.pairwise.imp_of_mem fun {b c} hb hc hlt => ?_⟩
  intro x hxb hxc
  obtain ⟨m, hm, rfl⟩ := List.mem_map.mp hxb
  obtain ⟨m', hm', hid⟩ := List.mem_map.mp hxc
  have h₁ := covers_iff.mp ((h.buckets b hb).1.inside m hm)
  have h₂ := covers_iff.mp ((h.buckets c hc).1.inside m' hm')
  have heq : m'.longId = m.longId := congrArg idToU256 hid
  omega

theorem TableOk.mem_known (h : TableOk own k K t) {m : Node} (hm : m ∈ t.primaries) : m ∈ K := by
  obtain ⟨b, hb, hm⟩ := List.mem_flatMap.mp hm
  exact (h.buckets b hb).1.known m hm

/-- **What a table may be missing.** A node met but not a primary lies in a full bucket,
an aligned block without the table's own node. -/
theorem TableOk.far_bucket (h : TableOk own k K t) {c : Node} (hc : c ∈ K)
    (hmiss : c ∉ t.primaries) :
    ∃ b ∈ t.buckets, BucketOk K k b ∧ b.nodes.length = k ∧ ∃ j,
      own.longId >>> j ≠ c.longId >>> j ∧ ∀ q ∈ b.nodes, q.longId >>> j = c.longId >>> j := by
  obtain ⟨pre, b, post, heq, hb, -, -⟩ := h.tiles.find (Nat.zero_le _) (idToU256_lt c.id)
  have hmem : b ∈ t.buckets := by rw [heq]; simp
  obtain ⟨hok, hs⟩ := h.buckets b hmem
  rcases hs with ⟨-, hall⟩ | hclosed
  · exact absurd (List.mem_flatMap.mpr ⟨b, hmem, hall c hc hb⟩) hmiss
  · obtain ⟨j, m, hj⟩ := hok.block
    have hcj : c.longId >>> j = m := hj.mem_iff.mp (covers_iff.mp hb)
    refine ⟨b, hmem, hok, hclosed.full, j, fun hown => ?_, fun q hq => ?_⟩
    · have haway := hclosed.away
      rw [Bool.eq_false_iff, Ne, covers_iff, hj.mem_iff] at haway
      exact haway (hown.trans hcj)
    · rw [hcj]
      exact hj.mem_iff.mp (covers_iff.mp (hok.inside q hq))

theorem TableOk.far_block (h : TableOk own k K t) (hk : 1 ≤ k) {c : Node} (hc : c ∈ K)
    (hmiss : c ∉ t.primaries) :
    ∃ j, ∃ q ∈ t.primaries, own.longId >>> j ≠ c.longId >>> j ∧
      q.longId >>> j = c.longId >>> j := by
  obtain ⟨b, hmem, -, hfull, j, hown, hblock⟩ := h.far_bucket hc hmiss
  obtain ⟨q, hq⟩ := List.exists_mem_of_length_pos (l := b.nodes) (by rw [hfull]; omega)
  exact ⟨j, q, List.mem_flatMap.mpr ⟨b, hmem, hq⟩, hown, hblock q hq⟩

end AuthKademlia.Routing
