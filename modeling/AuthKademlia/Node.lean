import Mathlib.Data.Finset.Basic
import Mathlib.Data.List.Sort
import AuthKademlia.Lib.Shortlist
import AuthKademlia.Utils

/-! # Nodes and the bounded shortlist of a lookup

`NodeHeap` keeps the `maxsize` known nodes closest to a pivot, sorted by XOR
distance, and remembers which ids were contacted. `push_nearest` is what every
lookup rests on: after a batch is pushed, the ids held are the nearest of those
held before and those pushed. -/
namespace AuthKademlia
open AuthKademlia.Lib.Shortlist AuthKademlia.Utils

structure Node where
  id : NodeId
  ip : Option String
  port : Option UInt16
  deriving DecidableEq

namespace Node

/-- A node without an address, used as a lookup key. -/
def fromId (id : NodeId) : Node := ⟨id, none, none⟩

def longId (n : Node) : Nat := idToU256 n.id

def distanceTo (n other : Node) : Nat := n.longId ^^^ other.longId

def sameHomeAs (n other : Node) : Bool := n.ip = other.ip && n.port = other.port

/-- The node's address, if both parts of it are known. -/
def address (n : Node) : Option (String × UInt16) :=
  match n.ip, n.port with
  | some ip, some port => some (ip, port)
  | _, _ => none

theorem distanceTo_eq (n other : Node) : n.distanceTo other = distTo other.longId n.id := rfl

theorem distanceTo_comm (n other : Node) : n.distanceTo other = other.distanceTo n :=
  Nat.xor_comm _ _

end Node

/-- An entry paired with its XOR distance from the heap's pivot. -/
structure HeapEntry where
  distance : Nat
  node : Node

structure NodeHeap where
  node : Node
  entries : List HeapEntry
  contacted : Finset NodeId
  maxsize : Nat

namespace NodeHeap

def new (node : Node) (maxsize : Nat) : NodeHeap := ⟨node, [], ∅, maxsize⟩

/-- The loop of `push`: append the nodes whose id is not in the list yet. The
flag says whether any was. -/
def appendNew (pivot : Node) : List HeapEntry → List Node → List HeapEntry × Bool
  | es, [] => (es, false)
  | es, n :: ns =>
    if es.any fun e => e.node.id = n.id then appendNew pivot es ns
    else ((appendNew pivot (es ++ [⟨pivot.distanceTo n, n⟩]) ns).1, true)

/-- Insert a batch of nodes, ignoring duplicates, and keep the closest. -/
def push (h : NodeHeap) (nodes : List Node) : NodeHeap :=
  let (entries, added) := appendNew h.node h.entries nodes
  if added then
    { h with entries := (entries.insertionSort fun a b => a.distance ≤ b.distance).take h.maxsize }
  else h

def pushOne (h : NodeHeap) (node : Node) : NodeHeap := h.push [node]

def remove (h : NodeHeap) (peers : List NodeId) : NodeHeap :=
  if peers.isEmpty then h
  else { h with entries := h.entries.filter fun e => !peers.contains e.node.id }

def popleft (h : NodeHeap) : Option Node × NodeHeap :=
  match h.entries with
  | [] => (none, h)
  | e :: es => (some e.node, { h with entries := es })

def getNode (h : NodeHeap) (nodeId : NodeId) : Option Node :=
  (h.entries.find? fun e => e.node.id = nodeId).map HeapEntry.node

/-- `iter` and `to_vec`: the nodes, closest first. -/
def toVec (h : NodeHeap) : List Node := (h.entries.take h.maxsize).map HeapEntry.node

def getIds (h : NodeHeap) : List NodeId := h.toVec.map Node.id

def len (h : NodeHeap) : Nat := min h.entries.length h.maxsize

def markContacted (h : NodeHeap) (node : Node) : NodeHeap :=
  { h with contacted := insert node.id h.contacted }

def getUncontacted (h : NodeHeap) : List Node := h.toVec.filter fun n => n.id ∉ h.contacted

def haveContactedAll (h : NodeHeap) : Bool := h.getUncontacted.isEmpty

/-! ## The invariant of a shortlist -/

/-- Entries carry their distance, are strictly increasing and fit the bound. -/
structure Wf (h : NodeHeap) : Prop where
  labelled : ∀ e ∈ h.entries, e.distance = distTo h.node.longId e.node.id
  increasing : h.entries.Pairwise fun a b => a.distance < b.distance
  length_le : h.entries.length ≤ h.maxsize

variable {h : NodeHeap} {pivot : Node}

theorem wf_new (node : Node) (maxsize : Nat) : (new node maxsize).Wf :=
  ⟨by simp [new], by simp [new], by simp [new]⟩

theorem Wf.toVec_eq (hw : h.Wf) : h.toVec = h.entries.map HeapEntry.node := by
  rw [toVec, List.take_of_length_le hw.length_le]

theorem Wf.getIds_eq (hw : h.Wf) : h.getIds = h.entries.map fun e => e.node.id := by
  rw [getIds, hw.toVec_eq, List.map_map]; rfl

theorem Wf.len_eq (hw : h.Wf) : h.len = h.entries.length := by
  rw [len, Nat.min_eq_left hw.length_le]

theorem Wf.getIds_increasing (hw : h.Wf) :
    h.getIds.Pairwise fun a b => distTo h.node.longId a < distTo h.node.longId b := by
  rw [hw.getIds_eq, List.pairwise_map]
  refine hw.increasing.imp_of_mem fun {a b} ha hb hlt => ?_
  rwa [hw.labelled a ha, hw.labelled b hb] at hlt

theorem Wf.getIds_length_le (hw : h.Wf) : h.getIds.length ≤ h.maxsize := by
  rw [hw.getIds_eq, List.length_map]; exact hw.length_le

theorem Wf.getIds_nodup (hw : h.Wf) : h.getIds.Nodup := nodup_of_increasing hw.getIds_increasing

theorem Wf.nearest_getIds (hw : h.Wf) :
    Nearest h.maxsize (distTo h.node.longId) {a | a ∈ h.getIds} h.getIds :=
  nearest_self hw.getIds_increasing hw.getIds_length_le

/-! ## `push` -/

theorem appendNew_labelled : ∀ (ns : List Node) (es : List HeapEntry),
    (∀ e ∈ es, e.distance = distTo pivot.longId e.node.id) →
      ∀ e ∈ (appendNew pivot es ns).1, e.distance = distTo pivot.longId e.node.id
  | [], _, hes => hes
  | n :: ns, es, hes => by
    simp only [appendNew]
    split
    · exact appendNew_labelled ns es hes
    · refine appendNew_labelled ns _ fun e he => ?_
      rcases List.mem_append.mp he with he | he
      · exact hes e he
      · rw [List.mem_singleton] at he
        subst he
        rw [Node.distanceTo_comm, Node.distanceTo_eq]

theorem appendNew_nodup : ∀ (ns : List Node) (es : List HeapEntry),
    (es.map fun e => e.node.id).Nodup → ((appendNew pivot es ns).1.map fun e => e.node.id).Nodup
  | [], _, hes => hes
  | n :: ns, es, hes => by
    simp only [appendNew]
    split
    · exact appendNew_nodup ns es hes
    · rename_i hnew
      refine appendNew_nodup ns _ ?_
      simp only [List.any_eq_true, decide_eq_true_eq, not_exists, not_and] at hnew
      rw [List.map_append, List.nodup_append]
      refine ⟨hes, by simp, fun a ha b hb => ?_⟩
      obtain ⟨e, he, rfl⟩ := List.mem_map.mp ha
      simp only [List.map_cons, List.map_nil, List.mem_singleton] at hb
      rw [hb]; exact hnew e he

theorem mem_ids_appendNew : ∀ (ns : List Node) (es : List HeapEntry) (x : NodeId),
    x ∈ (appendNew pivot es ns).1.map (fun e => e.node.id) ↔
      x ∈ es.map (fun e => e.node.id) ∨ x ∈ ns.map Node.id
  | [], es, x => by simp [appendNew]
  | n :: ns, es, x => by
    simp only [appendNew]
    split
    · rename_i hold
      obtain ⟨e, he, heq⟩ := List.any_eq_true.mp hold
      rw [mem_ids_appendNew ns es x, List.map_cons, List.mem_cons]
      constructor
      · rintro (h | h)
        · exact Or.inl h
        · exact Or.inr (Or.inr h)
      · rintro (h | rfl | h)
        · exact Or.inl h
        · exact Or.inl (List.mem_map.mpr ⟨e, he, of_decide_eq_true heq⟩)
        · exact Or.inr h
    · rw [mem_ids_appendNew ns _ x]
      simp only [List.map_append, List.map_cons, List.map_nil, List.mem_append, List.mem_cons,
        List.not_mem_nil, or_false]
      exact or_assoc

theorem mem_nodes_appendNew : ∀ (ns : List Node) (es : List HeapEntry),
    ∀ e ∈ (appendNew pivot es ns).1, e ∈ es ∨ e.node ∈ ns
  | [], _, _, he => Or.inl he
  | n :: ns, es, e, he => by
    simp only [appendNew] at he
    split at he
    · exact (mem_nodes_appendNew ns es e he).imp_right (List.mem_cons_of_mem n)
    · rcases mem_nodes_appendNew ns _ e he with h | h
      · rcases List.mem_append.mp h with h | h
        · exact Or.inl h
        · rw [List.mem_singleton] at h
          exact Or.inr (by simp [h])
      · exact Or.inr (List.mem_cons_of_mem n h)

theorem subset_appendNew : ∀ (ns : List Node) (es : List HeapEntry),
    ∀ e ∈ es, e ∈ (appendNew pivot es ns).1
  | [], _, _, he => he
  | n :: ns, es, e, he => by
    simp only [appendNew]
    split
    · exact subset_appendNew ns es e he
    · exact subset_appendNew ns _ e (List.mem_append_left _ he)

theorem appendNew_none : ∀ (ns : List Node) (es : List HeapEntry),
    (appendNew pivot es ns).2 = false → (appendNew pivot es ns).1 = es
  | [], _, _ => rfl
  | n :: ns, es, h => by
    simp only [appendNew] at h ⊢
    split at h
    · rename_i hold
      rw [if_pos hold]
      exact appendNew_none ns es h
    · cases h

theorem push_node (h : NodeHeap) (ns : List Node) : (h.push ns).node = h.node := by
  simp only [push]; split <;> rfl

theorem push_maxsize (h : NodeHeap) (ns : List Node) : (h.push ns).maxsize = h.maxsize := by
  simp only [push]; split <;> rfl

@[simp] theorem push_contacted (h : NodeHeap) (ns : List Node) :
    (h.push ns).contacted = h.contacted := by
  simp only [push]; split <;> rfl

theorem push_entries (h : NodeHeap) (ns : List Node) :
    (h.push ns).entries = if (appendNew h.node h.entries ns).2 then
      ((appendNew h.node h.entries ns).1.insertionSort fun a b => a.distance ≤ b.distance).take
        h.maxsize else h.entries := by
  simp only [push]; split <;> rfl

/-- **The ids held after a batch are the nearest of those held and those pushed.** -/
theorem push_nearest (hw : h.Wf) (ns : List Node) :
    Nearest h.maxsize (distTo h.node.longId) ({a | a ∈ h.getIds} ∪ {a | a ∈ ns.map Node.id})
      ((h.push ns).entries.map fun e => e.node.id) := by
  have hmem : ∀ x, x ∈ (appendNew h.node h.entries ns).1.map (fun e => e.node.id) ↔
      x ∈ ({a | a ∈ h.getIds} ∪ {a | a ∈ ns.map Node.id} : Set NodeId) := by
    intro x
    rw [mem_ids_appendNew, hw.getIds_eq]; rfl
  rw [push_entries]
  split
  · have hids : (h.entries.map fun e => e.node.id).Nodup := hw.getIds_eq ▸ hw.getIds_nodup
    exact (nearest_sort_map (fun _ _ _ _ he => distTo_injective _ he)
      (appendNew_labelled ns _ hw.labelled) (appendNew_nodup ns _ hids)).congr hmem
  · rename_i hadd
    have hes := appendNew_none ns h.entries (Bool.eq_false_iff.mpr hadd)
    rw [← hw.getIds_eq]
    refine hw.nearest_getIds.congr fun x => ?_
    rw [← hmem x, hes, hw.getIds_eq]; rfl

theorem mem_push_entries {ns : List Node} {e : HeapEntry} (he : e ∈ (h.push ns).entries) :
    e ∈ (appendNew h.node h.entries ns).1 := by
  rw [push_entries] at he
  split at he
  · exact (List.mem_insertionSort _).mp (List.mem_of_mem_take he)
  · rename_i hadd
    rwa [appendNew_none ns h.entries (Bool.eq_false_iff.mpr hadd)]

theorem Wf.push (hw : h.Wf) (ns : List Node) : (h.push ns).Wf := by
  have hn := push_nearest hw ns
  have hl : ∀ e ∈ (h.push ns).entries, e.distance = distTo h.node.longId e.node.id :=
    fun e he => appendNew_labelled ns _ hw.labelled e (mem_push_entries he)
  refine ⟨?_, ?_, ?_⟩
  · rw [push_node]; exact hl
  · refine (List.pairwise_map.mp hn.increasing).imp_of_mem fun {a b} ha hb hlt => ?_
    rwa [hl a ha, hl b hb]
  · rw [push_maxsize]; simpa using hn.length_le

theorem mem_push (hw : h.Wf) {ns : List Node} {n : Node} (hn : n ∈ (h.push ns).toVec) :
    n ∈ h.toVec ∨ n ∈ ns := by
  rw [(hw.push ns).toVec_eq] at hn
  obtain ⟨e, he, rfl⟩ := List.mem_map.mp hn
  rcases mem_nodes_appendNew ns _ e (mem_push_entries he) with h' | h'
  · rw [hw.toVec_eq]; exact Or.inl (List.mem_map_of_mem h')
  · exact Or.inr h'

theorem mem_push_of_id (hw : h.Wf) {ns : List Node} {n : Node} (hn : n ∈ h.toVec)
    (hid : n.id ∈ (h.push ns).getIds) : n ∈ (h.push ns).toVec := by
  rw [hw.toVec_eq] at hn
  rw [(hw.push ns).getIds_eq] at hid
  rw [(hw.push ns).toVec_eq]
  obtain ⟨e, he, rfl⟩ := List.mem_map.mp hn
  obtain ⟨e', he', heq⟩ := List.mem_map.mp hid
  have hids : (h.entries.map fun e => e.node.id).Nodup := hw.getIds_eq ▸ hw.getIds_nodup
  have hsame : e' = e := List.inj_on_of_nodup_map (appendNew_nodup ns h.entries hids)
    (mem_push_entries he') (subset_appendNew ns h.entries e he) heq
  exact List.mem_map_of_mem (hsame ▸ he')

/-! ## Reading a shortlist -/

theorem getNode_eq_some (hw : h.Wf) {x : NodeId} {n : Node} (hn : h.getNode x = some n) :
    n ∈ h.toVec ∧ n.id = x := by
  obtain ⟨e, he, rfl⟩ := Option.map_eq_some_iff.mp hn
  have hid : e.node.id = x := by simpa using List.find?_some he
  rw [hw.toVec_eq]
  exact ⟨List.mem_map_of_mem (List.mem_of_find?_eq_some he), hid⟩

theorem getNode_isSome (hw : h.Wf) {x : NodeId} (hx : x ∈ h.getIds) :
    ∃ n, h.getNode x = some n := by
  rw [hw.getIds_eq] at hx
  obtain ⟨e, he, hid⟩ := List.mem_map.mp hx
  have hfound : (h.entries.find? fun e => e.node.id = x).isSome := by
    rw [List.find?_isSome]
    exact ⟨e, he, decide_eq_true hid⟩
  obtain ⟨e', he'⟩ := Option.isSome_iff_exists.mp hfound
  exact ⟨e'.node, Option.map_eq_some_iff.mpr ⟨e', he', rfl⟩⟩

theorem popleft_fst (hw : h.Wf) : h.popleft.1 = h.toVec.head? := by
  rw [hw.toVec_eq]
  unfold popleft
  cases h.entries <;> rfl

/-! ## `remove` and `mark_contacted` -/

@[simp] theorem remove_node (h : NodeHeap) (ps : List NodeId) : (h.remove ps).node = h.node := by
  simp only [remove]; split <;> rfl

@[simp] theorem remove_maxsize (h : NodeHeap) (ps : List NodeId) :
    (h.remove ps).maxsize = h.maxsize := by
  simp only [remove]; split <;> rfl

@[simp] theorem remove_contacted (h : NodeHeap) (ps : List NodeId) :
    (h.remove ps).contacted = h.contacted := by
  simp only [remove]; split <;> rfl

theorem remove_entries (h : NodeHeap) (ps : List NodeId) :
    (h.remove ps).entries = h.entries.filter fun e => !ps.contains e.node.id := by
  simp only [remove]
  split
  · rename_i hps
    rw [List.isEmpty_iff.mp hps, List.filter_eq_self.mpr fun _ _ => by simp]
  · rfl

theorem Wf.remove (hw : h.Wf) (ps : List NodeId) : (h.remove ps).Wf := by
  refine ⟨?_, ?_, ?_⟩
  · rw [remove_entries, remove_node]
    exact fun e he => hw.labelled e (List.mem_of_mem_filter he)
  · rw [remove_entries]; exact hw.increasing.sublist List.filter_sublist
  · rw [remove_entries, remove_maxsize]
    exact Nat.le_trans (List.length_filter_le _ _) hw.length_le

theorem Wf.getIds_remove (hw : h.Wf) (ps : List NodeId) :
    (h.remove ps).getIds = h.getIds.filter fun x => !ps.contains x := by
  rw [(hw.remove ps).getIds_eq, hw.getIds_eq, remove_entries, List.filter_map]; rfl

theorem Wf.toVec_remove (hw : h.Wf) (ps : List NodeId) :
    (h.remove ps).toVec = h.toVec.filter fun n => !ps.contains n.id := by
  rw [(hw.remove ps).toVec_eq, hw.toVec_eq, remove_entries, List.filter_map]; rfl

theorem haveContactedAll_iff (h : NodeHeap) :
    h.haveContactedAll = true ↔ ∀ x ∈ h.getIds, x ∈ h.contacted := by
  simp only [haveContactedAll, getUncontacted, List.isEmpty_iff, List.filter_eq_nil_iff, getIds,
    List.mem_map, forall_exists_index, and_imp, forall_apply_eq_imp_iff₂, decide_eq_true_eq,
    not_not]

/-! ## Histories of a shortlist -/

/-- The calls that change a shortlist. -/
inductive Call where
  | push (nodes : List Node)
  | pushOne (node : Node)
  | remove (peers : List NodeId)
  | popleft
  | markContacted (node : Node)

def call (h : NodeHeap) : Call → NodeHeap
  | .push nodes => h.push nodes
  | .pushOne node => h.pushOne node
  | .remove peers => h.remove peers
  | .popleft => h.popleft.2
  | .markContacted node => h.markContacted node

/-- A shortlist after calls, starting from `new`. -/
def after (pivot : Node) (maxsize : Nat) (calls : List Call) : NodeHeap :=
  calls.foldl call (new pivot maxsize)

/-- What a call pushes, if it is a push. -/
def Call.pushed : Call → Option (List Node)
  | .push nodes => some nodes
  | .pushOne node => some [node]
  | .remove _ | .popleft | .markContacted _ => none

theorem Wf.popleft (hw : h.Wf) : h.popleft.2.Wf := by
  unfold NodeHeap.popleft
  split
  · exact hw
  · rename_i e es hes
    have hmem : ∀ x ∈ es, x ∈ h.entries := fun x hx => hes ▸ List.mem_cons_of_mem e hx
    have hinc := hw.increasing
    have hlen := hw.length_le
    rw [hes] at hinc hlen
    exact ⟨fun x hx => hw.labelled x (hmem x hx), hinc.of_cons, Nat.le_of_succ_le hlen⟩

theorem Wf.call (hw : h.Wf) (c : Call) : (h.call c).Wf := by
  cases c with
  | push nodes => exact hw.push nodes
  | pushOne node => exact hw.push [node]
  | remove peers => exact hw.remove peers
  | popleft => exact hw.popleft
  | markContacted node => exact ⟨hw.labelled, hw.increasing, hw.length_le⟩

theorem call_pivot (h : NodeHeap) (c : Call) :
    (h.call c).node = h.node ∧ (h.call c).maxsize = h.maxsize := by
  cases c with
  | push nodes => exact ⟨push_node h nodes, push_maxsize h nodes⟩
  | pushOne node => exact ⟨push_node h [node], push_maxsize h [node]⟩
  | remove peers => exact ⟨remove_node h peers, remove_maxsize h peers⟩
  | popleft =>
    show h.popleft.2.node = _ ∧ h.popleft.2.maxsize = _
    unfold NodeHeap.popleft
    split <;> exact ⟨rfl, rfl⟩
  | markContacted node => exact ⟨rfl, rfl⟩

variable {maxsize : Nat} {calls : List Call}

theorem after_snoc (c : Call) : after pivot maxsize (calls ++ [c]) =
    (after pivot maxsize calls).call c := by
  rw [after, List.foldl_append]
  rfl

/-- **A shortlist stays one**, whatever is called. -/
theorem wf_after (pivot : Node) (maxsize : Nat) (calls : List Call) :
    (after pivot maxsize calls).Wf ∧ (after pivot maxsize calls).node = pivot ∧
      (after pivot maxsize calls).maxsize = maxsize := by
  induction calls using List.reverseRecOn with
  | nil => exact ⟨wf_new pivot maxsize, rfl, rfl⟩
  | append_singleton calls c ih =>
    rw [after_snoc]
    obtain ⟨hw, hnode, hmax⟩ := ih
    obtain ⟨hnode', hmax'⟩ := call_pivot (after pivot maxsize calls) c
    exact ⟨hw.call c, hnode'.trans hnode, hmax'.trans hmax⟩

/-- The ids pushed by calls that only push. -/
def pushedIds (calls : List Call) : List NodeId :=
  (calls.flatMap fun c => c.pushed.getD []).map Node.id

/-- **Pushes keep the nearest of all that was pushed.** -/
theorem nearest_after (hpush : ∀ c ∈ calls, c.pushed.isSome) :
    Nearest maxsize (distTo pivot.longId) {a | a ∈ pushedIds calls}
      (after pivot maxsize calls).getIds := by
  induction calls using List.reverseRecOn with
  | nil =>
    refine (wf_new pivot maxsize).nearest_getIds.congr fun a => ?_
    simp [pushedIds, getIds, toVec, new]
  | append_singleton calls c ih =>
    have ih := ih fun d hd => hpush d (List.mem_append_left _ hd)
    obtain ⟨nodes, hnodes⟩ := Option.isSome_iff_exists.mp (hpush c (by simp))
    have hcall : (after pivot maxsize calls).call c = (after pivot maxsize calls).push nodes := by
      cases c with
      | push ns => rw [← Option.some.inj hnodes]; rfl
      | pushOne n => rw [← Option.some.inj hnodes]; rfl
      | remove | popleft | markContacted => cases hnodes
    obtain ⟨hw, hnode, hmax⟩ := wf_after pivot maxsize calls
    have hgrow := push_nearest hw nodes
    rw [hnode, hmax, ← (hw.push nodes).getIds_eq] at hgrow
    rw [after_snoc, hcall]
    refine (ih.grow hgrow).congr fun a => ?_
    simp only [pushedIds, List.flatMap_append, List.flatMap_singleton, hnodes, Option.getD_some,
      List.map_append, List.mem_append, Set.mem_union, Set.mem_ofPred_eq]

theorem mem_after_pushOne {ns : List Node} {n : Node}
    (hn : n ∈ (after pivot maxsize (ns.map Call.pushOne)).toVec) : n ∈ ns := by
  induction ns using List.reverseRecOn with
  | nil => exact absurd hn (by simp [after, new, toVec])
  | append_singleton ns m ih =>
    rw [List.map_append, List.map_singleton, after_snoc] at hn
    rcases mem_push (wf_after pivot maxsize _).1 hn with hold | hnew
    · exact List.mem_append_left _ (ih hold)
    · exact List.mem_append_right _ hnew

/-- **A shortlist of one** holds the closest of the nodes pushed. -/
theorem popleft_pushOne (pivot : Node) (ns : List Node) :
    ((after pivot 1 (ns.map Call.pushOne)).popleft.1 = none ↔ ns = []) ∧
    ∀ n, (after pivot 1 (ns.map Call.pushOne)).popleft.1 = some n →
      n ∈ ns ∧ ∀ m ∈ ns, distTo pivot.longId n.id ≤ distTo pivot.longId m.id := by
  obtain ⟨hw, -⟩ := wf_after pivot 1 (ns.map Call.pushOne)
  have hnear : Nearest 1 (distTo pivot.longId) {a | a ∈ pushedIds (ns.map Call.pushOne)}
      (after pivot 1 (ns.map Call.pushOne)).getIds := by
    refine nearest_after fun c hc => ?_
    obtain ⟨n, -, rfl⟩ := List.mem_map.mp hc
    rfl
  have hpushed : pushedIds (ns.map Call.pushOne) = ns.map Node.id := by
    simp [pushedIds, List.flatMap_map, Call.pushed]
  rw [hpushed] at hnear
  rw [popleft_fst hw]
  have hof : ∀ n ∈ (after pivot 1 (ns.map Call.pushOne)).toVec, n ∈ ns := fun _ hn =>
    mem_after_pushOne hn
  unfold getIds at hnear
  generalize (after pivot 1 (ns.map Call.pushOne)).toVec = held at hnear hof
  constructor
  · rw [List.head?_eq_none_iff]
    constructor
    · rintro rfl
      rw [List.eq_nil_iff_forall_not_mem]
      intro n hn
      have hlen := (hnear.rest n.id (List.mem_map_of_mem hn) List.not_mem_nil).1
      exact absurd hlen (by simp)
    · rintro rfl
      exact List.eq_nil_iff_forall_not_mem.mpr fun n hn => List.not_mem_nil (hof n hn)
  · intro n hn
    obtain ⟨rest, rfl⟩ := List.head?_eq_some_iff.mp hn
    refine ⟨hof n List.mem_cons_self, fun m hm => ?_⟩
    by_cases hin : m.id ∈ (n :: rest).map Node.id
    · have hlen := hnear.length_le
      rw [List.map_cons, List.length_cons] at hlen
      rw [List.map_cons, List.eq_nil_of_length_eq_zero (l := rest.map Node.id) (by omega),
        List.mem_singleton] at hin
      rw [hin]
    · exact Nat.le_of_lt ((hnear.rest m.id (List.mem_map_of_mem hm) hin).2 n.id (by simp))

end NodeHeap

end AuthKademlia
