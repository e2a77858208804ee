import Mathlib.Logic.Function.Basic
import AuthKademlia.Node
import AuthKademlia.Storage

/-! # The routing table

Buckets of at most `k` primary contacts cover ranges of the key space and split
when they are full. A bucket that may not split keeps newcomers in a
replacement list. Time enters where the code reads a clock: a bucket is stamped
when it is made and when a lookup touches it. -/
namespace AuthKademlia.Routing
open AuthKademlia.Lib.Shortlist AuthKademlia.Utils AuthKademlia.Storage

/-- `STALE_AFTER_FAILURES`: failures in a row after which a contact is stale. -/
def staleAfterFailures : Nat := 5

def defaultMinLookupContacts : Nat := 2

/-- `BACKOFF_BASE`, 5 s, and `BACKOFF_MAX`, 300 s. -/
def backoffBase : Nat := 5 * nanosPerSec

def backoffMax : Nat := 300 * nanosPerSec

/-- `backoff`; the random part of the delay is `jitter`. -/
def backoff (failures jitter : Nat) : Nat :=
  let doublings := min (failures - 1) 16
  min (backoffBase * 2 ^ doublings) backoffMax + jitter

/-- Kept only for primary contacts that failed since their last response. -/
structure ContactHealth where
  failures : Nat
  firstFailure : Nat
  retryAfter : Nat

/-- A bucket for the ids of the inclusive range `lo ..= hi`. -/
structure KBucket where
  lo : Nat
  hi : Nat
  /-- Primary contacts, least recently seen first. -/
  nodes : List Node
  /-- Contacts that arrived when the bucket was full. -/
  replacementNodes : List Node
  ksize : Nat
  maxReplacementNodes : Nat
  lastUpdated : Nat

namespace KBucket

def new (now lo hi ksize : Nat) : KBucket := ⟨lo, hi, [], [], ksize, ksize * 5, now⟩

def contains (b : KBucket) (n : Node) : Bool := b.nodes.any fun m => m.id = n.id

def covers (b : KBucket) (longId : Nat) : Bool := b.lo ≤ longId && longId ≤ b.hi

/-- The replacement list after a node joins it at the end; the oldest entries
beyond the cap are dropped. -/
def enqueue (b : KBucket) (n : Node) : List Node :=
  let waiting := b.replacementNodes.eraseP (fun m => m.id = n.id) ++ [n]
  waiting.drop (waiting.length - b.maxReplacementNodes)

/-- Insert or refresh a node. A full bucket puts it on the replacement list and
answers `false`. -/
def addNode (b : KBucket) (n : Node) : KBucket × Bool :=
  if b.contains n then ({ b with nodes := b.nodes.eraseP (fun m => m.id = n.id) ++ [n] }, true)
  else if b.nodes.length < b.ksize then ({ b with nodes := b.nodes ++ [n] }, true)
  else ({ b with replacementNodes := b.enqueue n }, false)

/-- Remove a node; the newest replacement takes the place of a primary. -/
def removeNode (b : KBucket) (n : Node) : KBucket :=
  let waiting := b.replacementNodes.filter fun m => m.id ≠ n.id
  if b.contains n then
    let nodes := b.nodes.eraseP fun m => m.id = n.id
    match waiting.getLast? with
    | some newest => { b with nodes := nodes ++ [newest], replacementNodes := waiting.dropLast }
    | none => { b with nodes := nodes, replacementNodes := waiting }
  else { b with replacementNodes := waiting }

/-- The midpoint at which a bucket splits. -/
def mid (b : KBucket) : Nat := b.lo + (b.hi - b.lo) / 2

/-- Split at the midpoint, distributing primaries and then replacements. -/
def split (now : Nat) (b : KBucket) : KBucket × KBucket :=
  (b.nodes ++ b.replacementNodes).foldl
    (fun (halves : KBucket × KBucket) n =>
      if n.longId ≤ b.mid then ((halves.1.addNode n).1, halves.2)
      else (halves.1, (halves.2.addNode n).1))
    (new now b.lo b.mid b.ksize, new now (b.mid + 1) b.hi b.ksize)

/-- Positions of the bits of an id, most significant first. -/
def bitPositions : List (Nat × Nat) :=
  (List.range idLen).flatMap fun byteIdx => (List.range 8).reverse.map fun shift => (byteIdx, shift)

def bitAt (n : Node) (pos : Nat × Nat) : Nat := ((n.id.bytes.getD pos.1 0).toNat >>> pos.2) &&& 1

/-- Length of the prefix, in bits, that all primary ids share. -/
def depth (b : KBucket) : Nat :=
  match b.nodes with
  | [] => 0
  | [n] => n.id.bytes.length * 8
  | first :: rest =>
    (bitPositions.takeWhile fun pos => rest.all fun n => bitAt n pos = bitAt first pos).length

def head (b : KBucket) : Option Node := b.nodes.head?

def hasReplacement (b : KBucket) : Bool := !b.replacementNodes.isEmpty

/-- No lookup touched the bucket in the last hour. -/
def isLonely (now : Nat) (b : KBucket) : Bool := 3600 < now - b.lastUpdated

end KBucket

structure RoutingTable where
  node : Node
  ksize : Nat
  buckets : List KBucket
  health : NodeId → Option ContactHealth
  minLookupContacts : Nat

namespace RoutingTable

def new (now : Nat) (node : Node) (ksize : Nat) : RoutingTable :=
  ⟨node, ksize, [.new now 0 (2 ^ 160 - 1) ksize], fun _ => none, defaultMinLookupContacts⟩

def hasFailures (t : RoutingTable) (id : NodeId) : Bool := (t.health id).isSome

def isStale (t : RoutingTable) (id : NodeId) : Bool :=
  (t.health id).any fun health => staleAfterFailures ≤ health.failures

/-- The first bucket that covers the id; the last one if none does. -/
def bucketIndexFor (t : RoutingTable) (longId : Nat) : Nat :=
  (t.buckets.findIdx? fun b => b.covers longId).getD (t.buckets.length - 1)

def removeContact (t : RoutingTable) (n : Node) : RoutingTable :=
  { t with
    buckets := t.buckets.modify (t.bucketIndexFor n.longId) fun b => b.removeNode n
    health := Function.update t.health n.id none }

/-- A full bucket gives up a stale contact for a node that is responding. -/
def replaceStaleIfFull (t : RoutingTable) (idx : Nat) (n : Node) : RoutingTable :=
  match t.buckets[idx]? with
  | none => t
  | some b =>
    if b.nodes.length < t.ksize || b.contains n then t
    else match b.nodes.find? fun m => t.isStale m.id with
      | some stale => t.removeContact stale
      | none => t

def splitBucket (now : Nat) (t : RoutingTable) (idx : Nat) : RoutingTable :=
  match t.buckets[idx]? with
  | none => t
  | some b =>
    let halves := b.split now
    { t with
      buckets := ((t.buckets.eraseIdx idx).insertIdx idx halves.2).insertIdx idx halves.1 }

/-- Insert a node, splitting its bucket as often as the rules allow. Returns the
least recently seen contact of a full bucket that may not split. -/
def insert (now : Nat) : Nat → RoutingTable → Node → RoutingTable × Option Node
  | 0, t, _ => (t, none)
  | fuel + 1, t, n =>
    let idx := t.bucketIndexFor n.longId
    let t := t.replaceStaleIfFull idx n
    match t.buckets[idx]? with
    | none => (t, none)
    | some b =>
      let (b, added) := b.addNode n
      let t := { t with buckets := t.buckets.set idx b }
      if added then (t, none)
      else if b.covers t.node.longId || b.depth % 5 ≠ 0 then
        insert now fuel (t.splitBucket now idx) n
      else (t, b.head)

/-- A range of `2 ^ 160` ids can be halved 160 times, so the fuel is never used up. -/
def addContact (now : Nat) (t : RoutingTable) (n : Node) : RoutingTable × Option Node :=
  if n.id = t.node.id then (t, none) else t.insert now 161 n

/-- The end of `record_failure_at`: a stale contact goes if a replacement can take
its place. -/
def noteHealth (t : RoutingTable) (n : Node) (health : ContactHealth) (replaceable : Bool) :
    RoutingTable :=
  let t := { t with health := Function.update t.health n.id (some health) }
  if staleAfterFailures ≤ health.failures ∧ replaceable then t.removeContact n else t

/-- Count a failure to respond. Failures within the backoff of the last one do not
count, and a node that is no primary contact is dropped. -/
def recordFailureAt (t : RoutingTable) (n : Node) (now jitter : Nat) : RoutingTable :=
  let idx := t.bucketIndexFor n.longId
  match t.buckets[idx]? with
  | none => t
  | some b =>
    if !b.contains n then { t with buckets := t.buckets.set idx (b.removeNode n) }
    else match t.health n.id with
      | some health =>
        if now < health.retryAfter then t
        else
          let failures := (health.failures + 1) % 2 ^ 32
          t.noteHealth n ⟨failures, health.firstFailure, now + backoff failures jitter⟩
            b.hasReplacement
      | none => t.noteHealth n ⟨1, now, now + backoff 1 jitter⟩ b.hasReplacement

/-- Clear a contact's failures; for how long it had been failing. -/
def recordSuccess (t : RoutingTable) (now : Nat) (id : NodeId) : Option Nat × RoutingTable :=
  ((t.health id).map fun health => now - health.firstFailure,
    { t with health := Function.update t.health id none })

def setMinLookupContacts (t : RoutingTable) (count : Nat) : RoutingTable :=
  { t with minLookupContacts := count }

/-- Is the node not a primary contact? -/
def isNewNode (t : RoutingTable) (n : Node) : Bool :=
  (t.buckets[t.bucketIndexFor n.longId]?).all fun b => !b.contains n

/-- All contacts, the replacements of each bucket after its primaries. -/
def contacts (t : RoutingTable) : List Node :=
  t.buckets.flatMap fun b => b.nodes ++ b.replacementNodes

/-- The registered contact for an id, be it a replacement. -/
def getContact (t : RoutingTable) (id : NodeId) : Option Node := t.contacts.find? fun n => n.id = id

/-- Primary contacts, over all buckets. -/
def primaries (t : RoutingTable) : List Node := t.buckets.flatMap KBucket.nodes

/-- The primary contacts closest to the target that pass `keep`. -/
def closest (t : RoutingTable) (target : Node) (exclude : Option Node) (keep : Node → Bool) :
    List Node :=
  ((t.primaries.filter fun n =>
    n.id ≠ target.id && exclude.all (fun e => n.id ≠ e.id) && keep n).insertionSort
      fun a b => a.distanceTo target ≤ b.distanceTo target).take t.ksize

/-- The clock part of `closest`: the target's bucket counts as refreshed. -/
def touchTarget (now : Nat) (t : RoutingTable) (target : Node) : RoutingTable :=
  { t with
    buckets := t.buckets.modify (t.bucketIndexFor target.longId) fun b =>
      { b with lastUpdated := now } }

def lonelyBuckets (now : Nat) (t : RoutingTable) : List KBucket :=
  t.buckets.filter fun b => b.isLonely now

/-- Contacts to start a lookup with. Failing contacts are used only when too few
healthy ones remain, stale ones only when there is nobody else. -/
def findNeighbors (t : RoutingTable) (target : Node) (exclude : Option Node) : List Node :=
  let healthy := t.closest target exclude fun n => !t.hasFailures n.id
  if t.minLookupContacts ≤ healthy.length then healthy
  else
    let notStale := t.closest target exclude fun n => !t.isStale n.id
    if notStale.isEmpty then t.closest target exclude fun _ => true else notStale

/-- Contacts to report to other nodes. Stale contacts are not passed on. -/
def findNeighborsToAdvertise (t : RoutingTable) (target : Node) (exclude : Option Node) :
    List Node :=
  t.closest target exclude fun n => !t.isStale n.id

/-- Failing contacts whose backoff has elapsed, with the time at which it had. -/
def overdue (t : RoutingTable) (now : Nat) : List (Nat × Node) :=
  t.primaries.filterMap fun n => (t.health n.id).bind fun health =>
    if health.retryAfter ≤ now then some (health.retryAfter, n) else none

/-- An order in which `contacts_due_for_probe` may see them: the longest overdue first, and
those that are equally long overdue in any order. -/
def ProbeOrder (t : RoutingTable) (now : Nat) (due : List (Nat × Node)) : Prop :=
  due.Perm (t.overdue now) ∧ due.Pairwise fun a b => a.1 ≤ b.1

instance (t : RoutingTable) (now : Nat) (due : List (Nat × Node)) :
    Decidable (t.ProbeOrder now due) :=
  inferInstanceAs (Decidable (_ ∧ _))

/-- The rest of `contacts_due_for_probe`. -/
def contactsDueForProbe (due : List (Nat × Node)) (limit : Nat) : List Node :=
  (due.take limit).map Prod.snd

/-- How many primary contacts have no failure since their last response. -/
def liveContacts (t : RoutingTable) : Nat :=
  (t.primaries.filter fun n => !t.hasFailures n.id).length

end RoutingTable

/-! ## Selecting neighbours -/

/-- The ids `closest` chooses from. -/
def RoutingTable.eligible (t : RoutingTable) (target : Node) (exclude : Option Node)
    (keep : Node → Bool) : List Node :=
  t.primaries.filter fun n => n.id ≠ target.id && exclude.all (fun e => n.id ≠ e.id) && keep n

/-- **`closest` is the shortlist of the eligible primaries.** -/
theorem RoutingTable.closest_nearest {t : RoutingTable} (hnd : (t.primaries.map Node.id).Nodup)
    (target : Node) (exclude : Option Node) (keep : Node → Bool) :
    Nearest t.ksize (distTo target.longId)
      {x | x ∈ (t.eligible target exclude keep).map Node.id}
      ((t.closest target exclude keep).map Node.id) :=
  nearest_sort_map (fun _ _ _ _ he => distTo_injective _ he) (fun _ _ => rfl)
    (hnd.sublist (List.filter_sublist.map _))

theorem RoutingTable.nodup_eligible {t : RoutingTable} (hnd : (t.primaries.map Node.id).Nodup)
    (target : Node) (exclude : Option Node) (keep : Node → Bool) :
    ((t.eligible target exclude keep).map Node.id).Nodup :=
  hnd.sublist (List.filter_sublist.map _)

theorem RoutingTable.closest_shortlist {t : RoutingTable} (hnd : (t.primaries.map Node.id).Nodup)
    (target : Node) (exclude : Option Node) (keep : Node → Bool) :
    Nearest t.ksize (fun n => n.distanceTo target) {n | n ∈ t.eligible target exclude keep}
      (t.closest target exclude keep) := by
  have helig := nodup_eligible hnd target exclude keep
  refine nearest_sort (fun a ha b hb he => ?_) helig.of_map
  exact List.inj_on_of_nodup_map helig ha hb (distTo_injective _ he)

theorem RoutingTable.mem_eligible_of_mem_closest {t : RoutingTable} {target n : Node}
    {exclude : Option Node} {keep : Node → Bool} (h : n ∈ t.closest target exclude keep) :
    n ∈ t.eligible target exclude keep :=
  (List.mem_insertionSort _).mp (List.mem_of_mem_take h)

theorem RoutingTable.mem_primaries_of_mem_findNeighbors {t : RoutingTable} {target n : Node}
    {exclude : Option Node} (h : n ∈ t.findNeighbors target exclude) : n ∈ t.primaries := by
  have hclosest : ∀ keep, n ∈ t.closest target exclude keep → n ∈ t.primaries := fun _ h =>
    List.mem_of_mem_filter (mem_eligible_of_mem_closest h)
  unfold findNeighbors at h
  dsimp only at h
  split at h
  · exact hclosest _ h
  · split at h
    · exact hclosest _ h
    · exact hclosest _ h

/-! ## Buckets tile the key space -/

/-- The ranges of `bs` cover `lo ≤ x < hi` one after the other. -/
def Tiles : Nat → List KBucket → Nat → Prop
  | lo, [], hi => lo = hi
  | lo, b :: bs, hi => b.lo = lo ∧ b.lo ≤ b.hi ∧ Tiles (b.hi + 1) bs hi

variable {lo hi x : Nat} {b : KBucket} {bs pre post : List KBucket} {t : RoutingTable} {n : Node}

theorem KBucket.covers_iff : b.covers x = true ↔ b.lo ≤ x ∧ x ≤ b.hi := by
  simp [KBucket.covers]

theorem Tiles.le : ∀ {lo : Nat} {bs : List KBucket}, Tiles lo bs hi → lo ≤ hi
  | _, [], h => Nat.le_of_eq h
  | _, b :: bs, ⟨h₁, h₂, h₃⟩ => by have := Tiles.le h₃; omega

theorem Tiles.append_iff : ∀ {pre : List KBucket} {lo : Nat},
    Tiles lo (pre ++ post) hi ↔ ∃ m, Tiles lo pre m ∧ Tiles m post hi
  | [], lo => by simp [Tiles]
  | c :: pre, lo => by
    simp only [List.cons_append, Tiles, Tiles.append_iff]
    constructor
    · rintro ⟨h₁, h₂, m, h₃, h₄⟩
      exact ⟨m, ⟨h₁, h₂, h₃⟩, h₄⟩
    · rintro ⟨m, ⟨h₁, h₂, h₃⟩, h₄⟩
      exact ⟨h₁, h₂, m, h₃, h₄⟩

theorem Tiles.bounds : ∀ {bs : List KBucket} {lo : Nat}, Tiles lo bs hi →
    ∀ c ∈ bs, lo ≤ c.lo ∧ c.hi < hi
  | [], _, _, c, hc => by simp at hc
  | b :: bs, lo, ⟨h₁, h₂, h₃⟩, c, hc => by
    rcases List.mem_cons.mp hc with rfl | hc
    · have := h₃.le; omega
    · have := h₃.bounds c hc; omega

theorem Tiles.pairwise : ∀ {bs : List KBucket} {lo : Nat}, Tiles lo bs hi →
    bs.Pairwise fun b c => b.hi < c.lo
  | [], _, _ => List.Pairwise.nil
  | _ :: _, _, ⟨_, _, h⟩ =>
    List.Pairwise.cons (fun c hc => Nat.lt_of_succ_le (h.bounds c hc).1) h.pairwise

/-- **Every id has its bucket**, and no other bucket covers it. -/
theorem Tiles.find : ∀ {bs : List KBucket} {lo : Nat}, Tiles lo bs hi → lo ≤ x → x < hi →
    ∃ pre b post, bs = pre ++ b :: post ∧ b.covers x = true ∧
      (∀ c ∈ pre, c.covers x = false) ∧ ∀ c ∈ post, c.covers x = false
  | [], _, h, hlo, hhi => by simp only [Tiles] at h; omega
  | b :: bs, lo, ⟨h₁, h₂, h₃⟩, hlo, hhi => by
    by_cases hx : x ≤ b.hi
    · refine ⟨[], b, bs, rfl, KBucket.covers_iff.mpr ⟨by omega, hx⟩, by simp, fun c hc => ?_⟩
      have := h₃.bounds c hc
      rw [Bool.eq_false_iff, Ne, KBucket.covers_iff]
      omega
    · obtain ⟨pre, c, post, rfl, hc, hpre, hpost⟩ := h₃.find (by omega) hhi
      refine ⟨b :: pre, c, post, rfl, hc, fun d hd => ?_, hpost⟩
      rcases List.mem_cons.mp hd with rfl | hd
      · rw [Bool.eq_false_iff, Ne, KBucket.covers_iff]
        omega
      · exact hpre d hd

/-- `bucket_index_for` finds the bucket that covers an id. -/
theorem RoutingTable.bucketIndexFor_eq (ht : t.buckets = pre ++ b :: post)
    (hb : b.covers x = true) (hpre : ∀ c ∈ pre, c.covers x = false) :
    t.bucketIndexFor x = pre.length := by
  have hfind : t.buckets.findIdx? (fun b => b.covers x) = some pre.length := by
    rw [ht, List.findIdx?_append, List.findIdx?_eq_none_iff.mpr hpre]
    simp [List.findIdx?_cons, hb]
  rw [RoutingTable.bucketIndexFor, hfind, Option.getD_some]

private theorem insertIdx_length (c : KBucket) :
    ∀ pre : List KBucket, (pre ++ post).insertIdx pre.length c = pre ++ c :: post
  | [] => rfl
  | d :: pre => by simp [insertIdx_length c pre]

theorem RoutingTable.splitBucket_eq (now : Nat) (ht : t.buckets = pre ++ b :: post) :
    t.splitBucket now pre.length =
      { t with buckets := pre ++ (b.split now).1 :: (b.split now).2 :: post } := by
  have hget : t.buckets[pre.length]? = some b := by simp [ht]
  have herase : t.buckets.eraseIdx pre.length = pre ++ post := by
    simp [ht, List.eraseIdx_append_of_length_le]
  rw [RoutingTable.splitBucket, hget]
  simp only [herase, insertIdx_length]

end AuthKademlia.Routing
