import Mathlib.Data.Finset.Union
import AuthKademlia.Node

/-! # The shared state of an iterative lookup

A lookup repeats rounds: choose uncontacted nodes of the shortlist, ask them at
once, merge the answers in whatever order the map of answers yields them, then
drop the nodes that did not answer. `Peers` is everything outside the lookup:
given the rounds so far and the nodes asked now, the answers in the order they
are processed. `Tracks` ties the three sets the code keeps (contacted, failed,
shortlist) to the rounds that took place; a whole round preserves it, whichever
answers the loop at hand merges. -/
namespace AuthKademlia.Crawling
open AuthKademlia.Lib.Shortlist AuthKademlia.Utils

/-- The payload half of a `RawResponse`. -/
inductive FindPayload where
  /-- A list of `(id_bytes, ip, port)` triples. -/
  | nodes (tuples : List (Bytes × Option String × Option UInt16))
  | value (v : Bytes)
  | empty
  deriving DecidableEq

/-- What a `call_find_*` method returns: whether a response came, and its payload. -/
structure RawResponse where
  received : Bool
  payload : FindPayload
  deriving DecidableEq

namespace RawResponse

def happened (r : RawResponse) : Bool := r.received

def hasValue (r : RawResponse) : Bool :=
  match r.payload with
  | .value _ => true
  | _ => false

def getValue (r : RawResponse) : Option Bytes :=
  match r.payload with
  | .value v => some v
  | _ => none

theorem hasValue_eq (r : RawResponse) : r.hasValue = r.getValue.isSome := by
  unfold hasValue getValue
  split <;> rfl

/-- Decode the node list; a triple whose id has the wrong length is dropped. -/
def getNodeList (r : RawResponse) : List Node :=
  match r.payload with
  | .nodes tuples => tuples.filterMap fun (idBytes, ip, port) =>
    if h : idBytes.length = idLen then some ⟨⟨idBytes, h⟩, ip, port⟩ else none
  | _ => []

end RawResponse

/-- The answer of one asked peer. `failing` are the contacts that the local
routing table has failures recorded for when this answer is merged. -/
structure Answer where
  peer : NodeId
  raw : RawResponse
  failing : Finset NodeId

/-- The nodes a lookup found, and how many others it knows did not respond. -/
structure LookupNodes where
  nodes : List Node
  unresponsive : Nat
  deriving DecidableEq

structure SpiderCrawl where
  ksize : Nat
  alpha : Nat
  node : Node
  nearest : NodeHeap
  lastIdsCrawled : List NodeId
  failed : Finset NodeId
  skipped : Finset NodeId
  askEveryone : Bool
  rounds : Nat

/-- `failing_among`: those of `nodes` known not to be responding. -/
def failingAmong (failing : Finset NodeId) (nodes : List Node) : Finset NodeId :=
  (nodes.map Node.id).toFinset.filter (· ∈ failing)

namespace SpiderCrawl

def new (node : Node) (peers : List Node) (ksize alpha : Nat) : SpiderCrawl where
  ksize := ksize
  alpha := alpha
  node := node
  nearest := (NodeHeap.new node ksize).push peers
  lastIdsCrawled := []
  failed := ∅
  skipped := ∅
  askEveryone := false
  rounds := 0

/-- Add contacts reported by a peer, leaving out those that failed in this
lookup or are known not to be responding. -/
def addReported (s : SpiderCrawl) (failing : Finset NodeId) (nodes : List Node) : SpiderCrawl :=
  let knownFailing := failingAmong failing nodes
  let usable := nodes.filter fun n => n.id ∉ s.failed ∧ n.id ∉ knownFailing
  { s with skipped := s.skipped ∪ knownFailing, nearest := s.nearest.push usable }

/-- Drop peers that did not respond from this lookup for good. -/
def removeFailed (s : SpiderCrawl) (peers : List NodeId) : SpiderCrawl :=
  { s with nearest := s.nearest.remove peers, failed := s.failed ∪ peers.toFinset }

def lookupNodes (s : SpiderCrawl) : LookupNodes :=
  ⟨s.nearest.toVec, (s.failed ∪ s.skipped).card⟩

/-- How many peers the next round may ask; no limit is `usize::MAX`. -/
def count (s : SpiderCrawl) (limit : Option Nat) : Nat :=
  let wanted := if s.askEveryone || s.nearest.getIds = s.lastIdsCrawled then s.nearest.len
    else s.alpha
  match limit with
  | none => wanted
  | some limit => min wanted limit

/-- Select up to `limit` peers for the next round and mark them as contacted. -/
def nextPeers (s : SpiderCrawl) (limit : Option Nat) : List Node × SpiderCrawl :=
  let peers := s.nearest.getUncontacted.take (s.count limit)
  (peers, { s with
    lastIdsCrawled := s.nearest.getIds
    nearest := peers.foldl NodeHeap.markContacted s.nearest
    rounds := if peers.isEmpty then s.rounds else s.rounds + 1 })

end SpiderCrawl

/-! ## What happens outside the lookup -/

/-- One round as it took place: whom it asked, and the answers in the order in
which they were processed. -/
structure Round where
  asked : List Node
  answers : List Answer

/-- The other side of a lookup: any behaviour of the peers, any order of
processing, with one answer for each peer asked. -/
structure Peers where
  answers : List Round → List Node → List Answer
  perm : ∀ seen asked, ((answers seen asked).map Answer.peer).Perm (asked.map Node.id)

/-- Peers that answer by a fixed rule, in the order asked, while no contact is
known to be failing. -/
def Peers.scripted (reply : NodeId → RawResponse) : Peers where
  answers := fun _ asked => asked.map fun n => ⟨n.id, reply n.id, ∅⟩
  perm := fun _ asked => by simp [Function.comp_def]

def askedIds (rs : List Round) : List NodeId := rs.flatMap fun r => r.asked.map Node.id

/-- Peers among `answers` that did not respond. -/
def silent (answers : List Answer) : List NodeId :=
  (answers.filter fun a => !a.raw.happened).map Answer.peer

def failedIds (rs : List Round) : List NodeId := rs.flatMap fun r => silent r.answers

@[simp] theorem askedIds_snoc (rs : List Round) (r : Round) :
    askedIds (rs ++ [r]) = askedIds rs ++ r.asked.map Node.id := by
  simp [askedIds]

@[simp] theorem failedIds_snoc (rs : List Round) (r : Round) :
    failedIds (rs ++ [r]) = failedIds rs ++ silent r.answers := by
  simp [failedIds]

/-! ## Choosing whom to ask -/

namespace SpiderCrawl

theorem foldl_markContacted (ns : List Node) (h : NodeHeap) :
    ns.foldl NodeHeap.markContacted h =
      { h with contacted := h.contacted ∪ (ns.map Node.id).toFinset } := by
  induction ns generalizing h with
  | nil => simp
  | cons n ns ih =>
    rw [List.foldl_cons, ih]
    simp only [NodeHeap.markContacted, List.map_cons, List.toFinset_cons, Finset.union_insert,
      Finset.insert_union]

variable {s : SpiderCrawl} {limit : Option Nat}

@[simp] theorem nextPeers_getIds : (s.nextPeers limit).2.nearest.getIds = s.nearest.getIds := by
  simp [nextPeers, foldl_markContacted, NodeHeap.getIds, NodeHeap.toVec]

@[simp] theorem nextPeers_toVec : (s.nextPeers limit).2.nearest.toVec = s.nearest.toVec := by
  simp [nextPeers, foldl_markContacted, NodeHeap.toVec]

@[simp] theorem nextPeers_node : (s.nextPeers limit).2.nearest.node = s.nearest.node := by
  simp [nextPeers, foldl_markContacted]

@[simp] theorem nextPeers_maxsize :
    (s.nextPeers limit).2.nearest.maxsize = s.nearest.maxsize := by
  simp [nextPeers, foldl_markContacted]

@[simp] theorem nextPeers_failed : (s.nextPeers limit).2.failed = s.failed := rfl

theorem nextPeers_wf (hw : s.nearest.Wf) : (s.nextPeers limit).2.nearest.Wf := by
  simp only [nextPeers, foldl_markContacted]
  exact ⟨hw.labelled, hw.increasing, hw.length_le⟩

theorem mem_nextPeers_contacted (x : NodeId) : x ∈ (s.nextPeers limit).2.nearest.contacted ↔
    x ∈ s.nearest.contacted ∨ x ∈ (s.nextPeers limit).1.map Node.id := by
  simp [nextPeers, foldl_markContacted]

theorem nextPeers_asked_sublist : (s.nextPeers limit).1.Sublist s.nearest.toVec :=
  (List.take_sublist _ _).trans List.filter_sublist

theorem nextPeers_asked_fresh {n : Node} (hn : n ∈ (s.nextPeers limit).1) :
    n.id ∉ s.nearest.contacted := by
  have h := List.mem_of_mem_take hn
  simpa using (List.mem_filter.mp h).2

theorem nextPeers_asked_nodup (hw : s.nearest.Wf) :
    ((s.nextPeers limit).1.map Node.id).Nodup :=
  hw.getIds_nodup.sublist (nextPeers_asked_sublist.map Node.id)

/-! ## Merging answers -/

@[simp] theorem addReported_failed (s : SpiderCrawl) (F : Finset NodeId) (ns : List Node) :
    (s.addReported F ns).failed = s.failed := rfl

@[simp] theorem addReported_contacted (s : SpiderCrawl) (F : Finset NodeId) (ns : List Node) :
    (s.addReported F ns).nearest.contacted = s.nearest.contacted := by
  simp [addReported]

@[simp] theorem addReported_node (s : SpiderCrawl) (F : Finset NodeId) (ns : List Node) :
    (s.addReported F ns).nearest.node = s.nearest.node := NodeHeap.push_node _ _

@[simp] theorem addReported_maxsize (s : SpiderCrawl) (F : Finset NodeId) (ns : List Node) :
    (s.addReported F ns).nearest.maxsize = s.nearest.maxsize := NodeHeap.push_maxsize _ _

theorem addReported_wf (hw : s.nearest.Wf) (F : Finset NodeId) (ns : List Node) :
    (s.addReported F ns).nearest.Wf := hw.push _

/-- Merge the reports of `answers`, in order. -/
def mergeAll (s : SpiderCrawl) (answers : List Answer) : SpiderCrawl :=
  answers.foldl (fun s a => s.addReported a.failing a.raw.getNodeList) s

@[simp] theorem mergeAll_cons (s : SpiderCrawl) (a : Answer) (as : List Answer) :
    s.mergeAll (a :: as) = (s.addReported a.failing a.raw.getNodeList).mergeAll as := rfl

/-- What merging reports leaves alone. -/
structure SameButNearest (s s' : SpiderCrawl) : Prop where
  failed : s'.failed = s.failed
  contacted : s'.nearest.contacted = s.nearest.contacted
  node : s'.nearest.node = s.nearest.node
  maxsize : s'.nearest.maxsize = s.nearest.maxsize
  wf : s.nearest.Wf → s'.nearest.Wf

theorem mergeAll_same (s : SpiderCrawl) (as : List Answer) : SameButNearest s (s.mergeAll as) := by
  induction as generalizing s with
  | nil => exact ⟨rfl, rfl, rfl, rfl, id⟩
  | cons a as ih =>
    have h := ih (s.addReported a.failing a.raw.getNodeList)
    exact ⟨by rw [mergeAll_cons, h.failed, addReported_failed],
      by rw [mergeAll_cons, h.contacted, addReported_contacted],
      by rw [mergeAll_cons, h.node, addReported_node],
      by rw [mergeAll_cons, h.maxsize, addReported_maxsize],
      fun hw => h.wf (addReported_wf hw _ _)⟩

theorem mergeAll_settings (s : SpiderCrawl) (as : List Answer) :
    (s.mergeAll as).alpha = s.alpha ∧ (s.mergeAll as).askEveryone = s.askEveryone ∧
      (s.mergeAll as).lastIdsCrawled = s.lastIdsCrawled := by
  induction as generalizing s with
  | nil => exact ⟨rfl, rfl, rfl⟩
  | cons a as ih => exact ih (s.addReported a.failing a.raw.getNodeList)

theorem mem_mergeAll_skipped (s : SpiderCrawl) (as : List Answer) (x : NodeId) :
    x ∈ (s.mergeAll as).skipped ↔
      x ∈ s.skipped ∨ ∃ a ∈ as, x ∈ a.raw.getNodeList.map Node.id ∧ x ∈ a.failing := by
  induction as generalizing s with
  | nil => simp [mergeAll]
  | cons a as ih =>
    rw [mergeAll_cons, ih]
    simp only [addReported, failingAmong, Finset.mem_union, Finset.mem_filter, List.mem_toFinset,
      List.mem_cons, exists_eq_or_imp, or_assoc]

/-- The ids of an answer that `add_reported` does not leave out as known failing. -/
def usable (a : Answer) : List NodeId :=
  (a.raw.getNodeList.map Node.id).filter fun x => x ∉ a.failing

theorem mem_pushed (s : SpiderCrawl) (a : Answer) (x : NodeId) :
    x ∈ (a.raw.getNodeList.filter fun n => n.id ∉ s.failed ∧
        n.id ∉ failingAmong a.failing a.raw.getNodeList).map Node.id ↔
      x ∈ usable a ∧ x ∉ s.failed := by
  simp only [List.mem_map, List.mem_filter, decide_eq_true_eq, failingAmong, Finset.mem_filter,
    List.mem_toFinset, usable]
  constructor
  · rintro ⟨n, ⟨hn, hf, hk⟩, rfl⟩
    exact ⟨⟨⟨n, hn, rfl⟩, fun h => hk ⟨⟨n, hn, rfl⟩, h⟩⟩, hf⟩
  · rintro ⟨⟨⟨n, hn, rfl⟩, hk⟩, hf⟩
    exact ⟨n, ⟨hn, hf, fun h => hk h.2⟩, rfl⟩

theorem addReported_nearest {S : Set NodeId} (hw : s.nearest.Wf) (a : Answer)
    (h : Nearest s.nearest.maxsize (distTo s.nearest.node.longId) S s.nearest.getIds) :
    Nearest s.nearest.maxsize (distTo s.nearest.node.longId)
      (S ∪ {x | x ∈ usable a ∧ x ∉ s.failed})
      (s.addReported a.failing a.raw.getNodeList).nearest.getIds := by
  rw [(addReported_wf hw a.failing a.raw.getNodeList).getIds_eq]
  refine (h.grow (NodeHeap.push_nearest hw _)).congr fun x => ?_
  simp only [Set.mem_union, Set.mem_ofPred_eq, mem_pushed s a x]

/-- **Merging answers keeps the shortlist of everything merged.** -/
theorem mergeAll_nearest {S : Set NodeId} (hw : s.nearest.Wf) (as : List Answer)
    (h : Nearest s.nearest.maxsize (distTo s.nearest.node.longId) S s.nearest.getIds) :
    Nearest s.nearest.maxsize (distTo s.nearest.node.longId)
      (S ∪ {x | (∃ a ∈ as, x ∈ usable a) ∧ x ∉ s.failed}) (s.mergeAll as).nearest.getIds := by
  induction as generalizing s S with
  | nil => exact h.congr fun x => by simp
  | cons a as ih =>
    have hstep := addReported_nearest hw a h
    rw [← addReported_node s a.failing a.raw.getNodeList,
      ← addReported_maxsize s a.failing a.raw.getNodeList] at hstep ⊢
    refine (ih (addReported_wf hw _ _) hstep).congr fun x => ?_
    simp only [Set.mem_union, Set.mem_ofPred_eq, addReported_failed, List.mem_cons,
      exists_eq_or_imp]
    tauto

theorem mem_mergeAll (hw : s.nearest.Wf) (as : List Answer) {n : Node}
    (hn : n ∈ (s.mergeAll as).nearest.toVec) :
    n ∈ s.nearest.toVec ∨ n.id ∉ s.failed ∧ ∃ a ∈ as, n ∈ a.raw.getNodeList := by
  induction as generalizing s with
  | nil => exact Or.inl hn
  | cons a as ih =>
    rcases ih (addReported_wf hw a.failing a.raw.getNodeList) hn with h | ⟨hf, b, hb, h⟩
    · rcases NodeHeap.mem_push hw h with h | h
      · exact Or.inl h
      · obtain ⟨hm, hp⟩ := List.mem_filter.mp h
        exact Or.inr ⟨(of_decide_eq_true hp).1, a, by simp, hm⟩
    · exact Or.inr ⟨hf, b, List.mem_cons_of_mem a hb, h⟩

/-- A node whose id is still in the shortlist is still in it, as it was: an id that was cut
does not come back while reports are merged. -/
theorem mem_mergeAll_of_id (hw : s.nearest.Wf) (as : List Answer) {n : Node}
    (hn : n ∈ s.nearest.toVec) (hid : n.id ∈ (s.mergeAll as).nearest.getIds) :
    n ∈ (s.mergeAll as).nearest.toVec := by
  induction as generalizing s with
  | nil => exact hn
  | cons a as ih =>
    have hw' := addReported_wf hw a.failing a.raw.getNodeList
    by_cases hstill : n.id ∈ (s.addReported a.failing a.raw.getNodeList).nearest.getIds
    · exact ih hw' (NodeHeap.mem_push_of_id hw hn hstill) hid
    · -- everything that is closer stays
      have hcut := addReported_nearest hw a hw.nearest_getIds
      obtain ⟨hlen, hcloser⟩ := hcut.rest n.id (Or.inl (List.mem_map_of_mem hn)) hstill
      have hlater := mergeAll_nearest hw' as hw'.nearest_getIds
      rw [addReported_node, addReported_maxsize] at hlater
      have hbelow := (hlater.below hcut.nodup hlen (fun _ hx => Or.inl hx) hcloser).2 n.id hid
      exact absurd hbelow (Nat.lt_irrefl _)

/-! ## A round -/

/-- A node of the shortlist after a round was in it before, or was just reported. -/
theorem mem_round (hw : s.nearest.Wf) {merged answers : List Answer} {n : Node}
    (hn : n ∈ (((s.nextPeers limit).2.mergeAll merged).removeFailed
      (silent answers)).nearest.toVec) :
    n ∈ s.nearest.toVec ∨ ∃ a ∈ merged, n ∈ a.raw.getNodeList := by
  have hw' : (s.nextPeers limit).2.nearest.Wf := nextPeers_wf hw
  rw [removeFailed, ((mergeAll_same _ merged).wf hw').toVec_remove] at hn
  rcases mem_mergeAll hw' merged (List.mem_of_mem_filter hn) with hold | ⟨-, hnew⟩
  · rw [nextPeers_toVec] at hold
    exact Or.inl hold
  · exact Or.inr hnew

/-- The state of a lookup for `target` with bound `k`, after the rounds `rs`. -/
structure Tracks (target : Node) (k : Nat) (s : SpiderCrawl) (rs : List Round) : Prop where
  wf : s.nearest.Wf
  node : s.nearest.node = target
  maxsize : s.nearest.maxsize = k
  contacted : ∀ x, x ∈ s.nearest.contacted ↔ x ∈ askedIds rs
  failed : ∀ x, x ∈ s.failed ↔ x ∈ failedIds rs
  live : ∀ x ∈ s.nearest.getIds, x ∉ s.failed
  once : (askedIds rs).Nodup

variable {target : Node} {k : Nat} {rs : List Round}

theorem tracks_new (target : Node) (seeds : List Node) (k alpha : Nat) :
    Tracks target k (new target seeds k alpha) [] where
  wf := (NodeHeap.wf_new target k).push seeds
  node := NodeHeap.push_node _ _
  maxsize := NodeHeap.push_maxsize _ _
  contacted := by simp [new, NodeHeap.new, askedIds]
  failed := by simp [new, failedIds]
  live := by simp [new]
  once := List.nodup_nil

/-- **One round preserves `Tracks`**, whichever of the answers are merged. -/
theorem Tracks.round (ht : Tracks target k s rs) (limit : Option Nat) {answers : List Answer}
    (merged : List Answer) :
    Tracks target k (((s.nextPeers limit).2.mergeAll merged).removeFailed (silent answers))
      (rs ++ [⟨(s.nextPeers limit).1, answers⟩]) := by
  have hs := mergeAll_same (s.nextPeers limit).2 merged
  have hw := hs.wf (nextPeers_wf ht.wf)
  refine ⟨hw.remove _, ?_, ?_, ?_, ?_, ?_, ?_⟩
  · simp only [removeFailed, NodeHeap.remove_node, hs.node, nextPeers_node, ht.node]
  · simp only [removeFailed, NodeHeap.remove_maxsize, hs.maxsize, nextPeers_maxsize, ht.maxsize]
  · intro x
    simp only [removeFailed, NodeHeap.remove_contacted, hs.contacted, mem_nextPeers_contacted,
      ht.contacted, askedIds_snoc, List.mem_append]
  · intro x
    simp only [removeFailed, hs.failed, nextPeers_failed, Finset.mem_union, List.mem_toFinset,
      ht.failed, failedIds_snoc, List.mem_append]
  · intro x hx
    simp only [removeFailed, hs.failed, nextPeers_failed, Finset.mem_union, List.mem_toFinset]
    simp only [removeFailed] at hx
    rw [hw.getIds_remove] at hx
    obtain ⟨hx, hnot⟩ := List.mem_filter.mp hx
    obtain ⟨n, hn, rfl⟩ := List.mem_map.mp hx
    rintro (hf | hf)
    · rcases mem_mergeAll (nextPeers_wf ht.wf) merged hn with h | ⟨h, -⟩
      · rw [nextPeers_toVec] at h
        exact ht.live n.id (List.mem_map_of_mem h) hf
      · exact h hf
    · simp [hf] at hnot
  · rw [askedIds_snoc, List.nodup_append]
    refine ⟨ht.once, nextPeers_asked_nodup ht.wf, fun a ha b hb hab => ?_⟩
    obtain ⟨n, hn, rfl⟩ := List.mem_map.mp hb
    exact nextPeers_asked_fresh hn ((ht.contacted _).mpr (hab ▸ ha))

/-- The ids that compete for the shortlist when the answers of a round are merged: those in
it before, and those reported, unless they failed. -/
def offered (s : SpiderCrawl) (answers : List Answer) : List NodeId :=
  ((s.nearest.getIds ++ answers.flatMap usable).filter fun x => x ∉ s.failed).dedup

theorem Tracks.nearest_offered (ht : Tracks target k s rs) (limit : Option Nat)
    (answers : List Answer) :
    Nearest k (distTo target.longId) {x | x ∈ s.offered answers}
      ((s.nextPeers limit).2.mergeAll answers).nearest.getIds := by
  have hw : (s.nextPeers limit).2.nearest.Wf := nextPeers_wf ht.wf
  have h := mergeAll_nearest hw answers hw.nearest_getIds
  simp only [nextPeers_maxsize, nextPeers_node, nextPeers_getIds, nextPeers_failed, ht.maxsize,
    ht.node] at h
  refine h.congr fun x => ?_
  simp only [offered, Set.mem_union, Set.mem_ofPred_eq, List.mem_dedup, List.mem_filter,
    List.mem_append, List.mem_flatMap, decide_eq_true_eq, or_and_right]
  exact or_congr_left ⟨fun hx => ⟨hx, ht.live x hx⟩, And.left⟩

/-! ## Where the nodes come from -/

/-- The nodes that a lookup has heard of: its seeds, and those reported in the rounds. -/
def heardOf (seeds : List Node) (rs : List Round) : List Node :=
  seeds ++ rs.flatMap fun r => r.answers.flatMap fun a => a.raw.getNodeList

theorem heardOf_snoc (seeds : List Node) (rs : List Round) (r : Round) :
    heardOf seeds (rs ++ [r]) =
      heardOf seeds rs ++ r.answers.flatMap fun a => a.raw.getNodeList := by
  simp [heardOf]

/-- A lookup that lists and asks only nodes that it has heard of. -/
structure Sourced (seeds : List Node) (s : SpiderCrawl) (rs : List Round) : Prop where
  wf : s.nearest.Wf
  listed : ∀ n ∈ s.nearest.toVec, n ∈ heardOf seeds rs
  asked : ∀ r ∈ rs, ∀ n ∈ r.asked, n ∈ heardOf seeds rs

theorem sourced_new (target : Node) (seeds : List Node) (k alpha : Nat) :
    Sourced seeds (new target seeds k alpha) [] where
  wf := (tracks_new target seeds k alpha).wf
  listed := by
    intro n hn
    rcases NodeHeap.mem_push (NodeHeap.wf_new target k) hn with hn | hn
    · simp [NodeHeap.new, NodeHeap.toVec] at hn
    · exact List.mem_append_left _ hn
  asked := fun r hr => by cases hr

/-- **A round asks only nodes heard of before it**, and lists what it has heard of. -/
theorem Sourced.round {seeds : List Node} (h : Sourced seeds s rs) (limit : Option Nat)
    {answers merged : List Answer} (hsub : ∀ a ∈ merged, a ∈ answers) :
    Sourced seeds (((s.nextPeers limit).2.mergeAll merged).removeFailed (silent answers))
      (rs ++ [⟨(s.nextPeers limit).1, answers⟩]) where
  wf := ((mergeAll_same _ merged).wf (nextPeers_wf h.wf)).remove _
  listed := by
    intro n hn
    rw [heardOf_snoc]
    rcases mem_round h.wf hn with hold | ⟨a, ha, hnew⟩
    · exact List.mem_append_left _ (h.listed n hold)
    · exact List.mem_append_right _ (List.mem_flatMap.mpr ⟨a, hsub a ha, hnew⟩)
  asked := by
    intro r hr n hn
    rw [heardOf_snoc]
    refine List.mem_append_left _ ?_
    rcases List.mem_append.mp hr with hr | hr
    · exact h.asked r hr n hn
    · obtain rfl := List.mem_singleton.mp hr
      exact h.listed n (nextPeers_asked_sublist.subset hn)

/-! ## Rounds run out -/

theorem round_idle (hw : s.nearest.Wf) (h : (s.nextPeers limit).1 = []) :
    (((s.nextPeers limit).2.mergeAll []).removeFailed []).nearest.getIds = s.nearest.getIds ∧
      (((s.nextPeers limit).2.mergeAll []).removeFailed []).nearest.contacted =
        s.nearest.contacted ∧
      (((s.nextPeers limit).2.mergeAll []).removeFailed []).lastIdsCrawled =
        s.nearest.getIds := by
  have hnil : (s.nextPeers limit).2.mergeAll [] = (s.nextPeers limit).2 := rfl
  rw [hnil]
  simp only [removeFailed, (nextPeers_wf hw).getIds_remove, NodeHeap.remove_contacted,
    nextPeers_getIds]
  refine ⟨by simp, ?_, rfl⟩
  ext x
  rw [mem_nextPeers_contacted, h]
  simp

/-- A round asks nobody only when everybody was asked, or when it is not yet
known that the shortlist stopped changing. -/
theorem nextPeers_nonempty (hw : s.nearest.Wf) (hall : s.nearest.haveContactedAll = false)
    (hlast : s.nearest.getIds = s.lastIdsCrawled) (hlimit : ∀ m ∈ limit, 0 < m) :
    (s.nextPeers limit).1 ≠ [] := by
  have hun : s.nearest.getUncontacted ≠ [] := by
    simpa [NodeHeap.haveContactedAll] using hall
  have hlen : 0 < s.nearest.len := by
    obtain ⟨n, hn⟩ := List.exists_mem_of_ne_nil _ hun
    have hmem := List.mem_of_mem_filter hn
    rw [hw.toVec_eq] at hmem
    rw [hw.len_eq]
    simpa using List.length_pos_of_mem hmem
  have hcount : 0 < s.count limit := by
    simp only [count, hlast, decide_true, Bool.or_true, if_true]
    cases limit with
    | none => exact hlen
    | some m => exact Nat.lt_min.mpr ⟨hlen, hlimit m rfl⟩
  intro h
  rcases List.take_eq_nil_iff.mp h with h | h
  · omega
  · exact hun h

/-- Rounds that may still follow: each asks a new id, or is followed by one that does. -/
def budget (s : SpiderCrawl) (rs : List Round) : Nat :=
  2 * (2 ^ 160 - (askedIds rs).length) + if s.nearest.getIds = s.lastIdsCrawled then 0 else 1

/-- **A round uses up budget**, unless it comes when everybody was asked. -/
theorem Tracks.budget_round (ht : Tracks target k s rs) (hlimit : ∀ m ∈ limit, 0 < m)
    {answers merged : List Answer}
    (hperm : (answers.map Answer.peer).Perm ((s.nextPeers limit).1.map Node.id))
    (hsub : ∀ a ∈ merged, a ∈ answers)
    (hall : (s.nextPeers limit).1 = [] → s.nearest.haveContactedAll = false) :
    budget (((s.nextPeers limit).2.mergeAll merged).removeFailed (silent answers))
      (rs ++ [⟨(s.nextPeers limit).1, answers⟩]) < budget s rs := by
  have ht' : Tracks target k _ (rs ++ [⟨(s.nextPeers limit).1, answers⟩]) := ht.round limit merged
  have hle := length_le_of_nodup_ids ht'.once
  simp only [askedIds_snoc, List.length_append, List.length_map] at hle
  simp only [budget, askedIds_snoc, List.length_append, List.length_map]
  by_cases hask : (s.nextPeers limit).1 = []
  · have hans : answers = [] := by
      rw [hask, List.map_nil] at hperm
      exact List.map_eq_nil_iff.mp hperm.eq_nil
    have hmer : merged = [] := List.eq_nil_iff_forall_not_mem.mpr fun a ha => by
      have := hsub a ha
      simp [hans] at this
    subst hans hmer
    obtain ⟨hids, -, hlast⟩ := round_idle ht.wf hask
    have hne : s.nearest.getIds ≠ s.lastIdsCrawled := fun heq =>
      nextPeers_nonempty ht.wf (hall hask) heq hlimit hask
    rw [show silent [] = [] from rfl, hids, hlast, hask, if_pos rfl, if_neg hne]
    simp
  · have hpos := List.length_pos_of_ne_nil hask
    split <;> split <;> omega

end SpiderCrawl

end AuthKademlia.Crawling
