import Mathlib.Data.List.Perm.Basic
import AuthKademlia.Protocol.Transport

/-! # Fragmentation and reassembly

Fragments of any number of messages arrive in any order, late, more than once or
not at all. What comes out of the reassembly map is a message that went in, and a
message all of whose fragments arrive comes out, unless a limit or a sweep got in
the way. The size limit of the receiver is not the one of the sender. -/
namespace AuthKademlia.Properties
open AuthKademlia.Fragmentation AuthKademlia.Protocol AuthKademlia.Utils AuthKademlia.Storage

variable {Peer : Type}

/-- A message cut into several fragments, its sender and its id. -/
structure Sent (Peer : Type) where
  peer : Peer
  fragId : UInt32
  payload : Bytes
  fits : payload.length ≤ maxMessageSize
  cut : 2 ≤ (encodeFragments fragId payload).length

namespace Sent
variable (m : Sent Peer)

def datagrams : List Bytes := encodeFragments m.fragId m.payload

def key : Peer × UInt32 := (m.peer, m.fragId)

theorem payload_ne_nil : m.payload ≠ [] := by
  intro h
  have hcut := m.cut
  rw [h] at hcut
  simp [encodeFragments] at hcut

theorem small : (parts m.payload).length < 2 ^ 16 :=
  Nat.lt_of_le_of_lt (length_parts_le m.fits) (by decide)

theorem mem_datagrams {d : Bytes} :
    d ∈ m.datagrams ↔ ∃ i < (parts m.payload).length, d = fragment m.fragId m.payload i := by
  rw [datagrams, encodeFragments_eq m.payload_ne_nil]
  simp only [List.mem_map, List.mem_range]
  constructor
  · rintro ⟨i, hi, rfl⟩
    exact ⟨i, hi, rfl⟩
  · rintro ⟨i, hi, rfl⟩
    exact ⟨i, hi, rfl⟩

end Sent

/-- A datagram arrives, or old entries are swept out. -/
inductive Arrival (Peer : Type) where
  | deliver (now : Instant) (peer : Peer) (data : Bytes)
  | gc (now : Instant)

variable [DecidableEq Peer]

/-- A datagram goes through `parse_fragment` and `accept_fragment`; what comes out
is for its sender and id. -/
def arrive (map : ReassemblyMap Peer) :
    Arrival Peer → Option ((Peer × UInt32) × Bytes) × ReassemblyMap Peer
  | .deliver now peer data =>
    match parseFragment data with
    | none => (none, map)
    | some (header, chunk) =>
      let (payload, map) := acceptFragment map now peer header chunk
      (payload.map fun p => ((peer, header.fragId), p), map)
  | .gc now => (none, sweep map now)

/-- The map after a sequence of arrivals. -/
def mapAfter (map : ReassemblyMap Peer) (es : List (Arrival Peer)) : ReassemblyMap Peer :=
  es.foldl (fun map e => (arrive map e).2) map

/-- The messages that come out along a sequence of arrivals. -/
def outputs : ReassemblyMap Peer → List (Arrival Peer) → List ((Peer × UInt32) × Bytes)
  | _, [] => []
  | map, e :: es => (arrive map e).1.toList ++ outputs (arrive map e).2 es

/-- A fragment of one of the messages, or a sweep. -/
def Arrival.IsOf (msgs : List (Sent Peer)) : Arrival Peer → Prop
  | .deliver _ peer data => ∃ m ∈ msgs, peer = m.peer ∧ data ∈ m.datagrams
  | .gc _ => True

/-- The limits refuse no fragment of the message, and no sweep drops its entry. -/
def Undisturbed (key : Peer × UInt32) : ReassemblyMap Peer → List (Arrival Peer) → Prop
  | _, [] => True
  | map, e :: es =>
    (match e with
      | .deliver _ peer data => ∀ header chunk, parseFragment data = some (header, chunk) →
          (peer, header.fragId) = key → map.lookup key = none → hasRoom map peer = true
      | .gc now => ∀ entry, map.lookup key = some entry → now - entry.createdAt < reassemblyTtl) ∧
    Undisturbed key (arrive map e).2 es

/-! ## One arrival -/

section
variable {msgs : List (Sent Peer)} {map : ReassemblyMap Peer} {m : Sent Peer} {e : Arrival Peer}

/-- Different messages have different keys. -/
def OwnKeys (msgs : List (Sent Peer)) : Prop :=
  ∀ m ∈ msgs, ∀ m' ∈ msgs, m.peer = m'.peer → m.fragId = m'.fragId → m = m'

/-- The entry of a message holds chunks of this message. -/
def Consistent (msgs : List (Sent Peer)) (map : ReassemblyMap Peer) : Prop :=
  ∀ m ∈ msgs, ∀ e, map.lookup m.key = some e → e.Collects (parts m.payload)

omit [DecidableEq Peer] in
theorem fragment_parsed {i : Nat} (hi : i < (parts m.payload).length) :
    ∃ header chunk, parseFragment (fragment m.fragId m.payload i) = some (header, chunk) ∧
      (m.peer, header.fragId) = m.key ∧ header.total.toNat = (parts m.payload).length ∧
      header.index.toNat = i ∧ (parts m.payload)[i]? = some chunk := by
  obtain ⟨header, chunk, hparse, hid, htotal, hindex, hchunk⟩ :=
    parseFragment_fragment m.fragId hi m.small
  exact ⟨header, chunk, hparse, by rw [hid, Sent.key], htotal, hindex, hchunk⟩

theorem arrive_fragment (now : Instant)
    (hmap : ∀ e, map.lookup m.key = some e → e.Collects (parts m.payload)) {i : Nat}
    (hi : i < (parts m.payload).length) :
    ∃ r, Accepted map now m.key (parts m.payload) i r ∧
      arrive map (.deliver now m.peer (fragment m.fragId m.payload i)) =
        (r.1.map fun p => (m.key, p), r.2) := by
  obtain ⟨header, chunk, hparse, hkey, htotal, hindex, hchunk⟩ := fragment_parsed (m := m) hi
  have hspec : Accepted map now (m.peer, header.fragId) (parts m.payload) header.index.toNat
      (acceptFragment map now m.peer header chunk) :=
    acceptFragment_spec (by rw [hkey]; exact hmap) htotal (by rw [hindex]; exact hchunk)
  rw [hkey, hindex] at hspec
  refine ⟨_, hspec, ?_⟩
  simp only [arrive, hparse, hkey]

theorem lookup_of_accepted {now : Instant} {key key' : Peer × UInt32} {ps : List Bytes} {i : Nat}
    {r : Option Bytes × ReassemblyMap Peer} (h : Accepted map now key ps i r) (hne : key' ≠ key) :
    r.2.lookup key' = map.lookup key' := by
  cases h with
  | refused _ _ => rfl
  | completed _ => exact AList.lookup_erase_ne hne
  | kept e _ _ _ => exact AList.lookup_insert_ne hne

/-- **One arrival** keeps the entries consistent, and what comes out went in. -/
theorem Consistent.step (hown : OwnKeys msgs) (h : Consistent msgs map) (he : e.IsOf msgs) :
    Consistent msgs (arrive map e).2 ∧
      ∀ out ∈ (arrive map e).1, ∃ m ∈ msgs, out = (m.key, m.payload) := by
  cases e with
  | gc now =>
    refine ⟨?_, fun out hout => by cases hout⟩
    intro m hm entry hentry
    exact h m hm entry (lookup_sweep.mp hentry).1
  | deliver now peer data =>
    obtain ⟨m, hm, rfl, hdata⟩ := he
    obtain ⟨i, hi, rfl⟩ := m.mem_datagrams.mp hdata
    obtain ⟨r, hr, heq⟩ := arrive_fragment now (h m hm) hi
    rw [heq]
    constructor
    · intro m' hm' entry hentry
      by_cases hkey : m'.key = m.key
      · obtain ⟨hpeer, hid⟩ := Prod.mk.inj hkey
        obtain rfl := hown m' hm' m hm hpeer hid
        cases hr with
        | refused _ _ => exact h m' hm entry hentry
        | completed _ =>
          have hnone : (map.erase m'.key).lookup m'.key = none := AList.lookup_erase ..
          rw [hnone] at hentry
          cases hentry
        | kept e hcollects _ _ =>
          have hsome : (map.insert m'.key e).lookup m'.key = some e := AList.lookup_insert ..
          rw [hsome] at hentry
          exact Option.some.inj hentry ▸ hcollects
      · rw [lookup_of_accepted hr hkey] at hentry
        exact h m' hm' entry hentry
    · intro out hout
      refine ⟨m, hm, ?_⟩
      cases hr with
      | refused _ _ => cases hout
      | kept _ _ _ _ => cases hout
      | completed _ =>
        rw [flatten_parts] at hout
        exact (Option.some.inj hout).symm

theorem consistent_empty (msgs : List (Sent Peer)) : Consistent msgs ∅ := by
  intro m _ e he
  simp at he

/-! ## All arrivals -/

theorem Consistent.after (hown : OwnKeys msgs) {es : List (Arrival Peer)} :
    ∀ {map : ReassemblyMap Peer}, Consistent msgs map → (∀ e ∈ es, e.IsOf msgs) →
      Consistent msgs (mapAfter map es) := by
  induction es with
  | nil => intro map h _; exact h
  | cons e es ih =>
    intro map h hes
    exact ih (h.step hown (hes e List.mem_cons_self)).1
      fun e' he' => hes e' (List.mem_cons_of_mem _ he')

theorem Consistent.came (hown : OwnKeys msgs) {es : List (Arrival Peer)} :
    ∀ {map : ReassemblyMap Peer}, Consistent msgs map → (∀ e ∈ es, e.IsOf msgs) →
      ∀ out ∈ outputs map es, ∃ m ∈ msgs, out = (m.key, m.payload) := by
  induction es with
  | nil => intro map _ _ out hout; cases hout
  | cons e es ih =>
    intro map h hes out hout
    obtain ⟨hnext, hout'⟩ := h.step hown (hes e List.mem_cons_self)
    rcases List.mem_append.mp hout with hout | hout
    · exact hout' out (Option.mem_toList.mp hout)
    · exact ih hnext (fun e' he' => hes e' (List.mem_cons_of_mem _ he')) out hout

/-- What one arrival does to the chunks of `m` that are in: the message comes out,
or they stay, with the chunk that arrives. -/
theorem arrive_hasChunk (hown : OwnKeys msgs) (h : Consistent msgs map) (he : e.IsOf msgs)
    (hm : m ∈ msgs) {es : List (Arrival Peer)} (hfree : Undisturbed m.key map (e :: es)) :
    (arrive map e).1 = some (m.key, m.payload) ∨
      (∀ j, HasChunk map m.key j → HasChunk (arrive map e).2 m.key j) ∧
      ∀ now j, j < (parts m.payload).length →
        e = .deliver now m.peer (fragment m.fragId m.payload j) →
        HasChunk (arrive map e).2 m.key j := by
  cases e with
  | gc now =>
    refine Or.inr ⟨?_, fun _ _ _ he => by cases he⟩
    rintro j ⟨entry, hentry, hj⟩
    exact ⟨entry, lookup_sweep.mpr ⟨hentry, hfree.1 entry hentry⟩, hj⟩
  | deliver now peer data =>
    obtain ⟨m', hm', rfl, hdata⟩ := he
    obtain ⟨i, hi, rfl⟩ := m'.mem_datagrams.mp hdata
    obtain ⟨header, chunk, hparse, hkey, -, hindex, -⟩ := fragment_parsed (m := m') hi
    obtain ⟨r, hr, heq⟩ := arrive_fragment now (h m' hm') hi
    rw [heq]
    by_cases hsame : m.key = m'.key
    · obtain ⟨hpeer, hid⟩ := Prod.mk.inj hsame
      obtain rfl := hown m hm m' hm' hpeer hid
      cases hr with
      | refused hnone hroom =>
        have := hfree.1 header chunk hparse hkey hnone
        rw [Sent.key] at hroom
        rw [hroom] at this
        cases this
      | completed _ => exact Or.inl (by rw [flatten_parts]; rfl)
      | kept entry _ _ hhas =>
        have hin : ∀ j, HasChunk map m.key j ∨ j = i → HasChunk (map.insert m.key entry) m.key j :=
          fun j hj => ⟨entry, AList.lookup_insert .., (hhas j).mpr hj⟩
        refine Or.inr ⟨fun j hj => hin j (Or.inl hj), ?_⟩
        intro now' j hj heq'
        refine hin j (Or.inr ?_)
        -- equal datagrams have equal indices
        injection heq' with _ _ hfrag
        obtain ⟨header', chunk', hparse', -, -, hindex', -⟩ := fragment_parsed (m := m) hj
        rw [hfrag, hparse'] at hparse
        obtain ⟨rfl, -⟩ := Prod.mk.inj (Option.some.inj hparse)
        rw [← hindex, hindex']
    · refine Or.inr ⟨?_, ?_⟩
      · rintro j ⟨entry, hentry, hj⟩
        exact ⟨entry, by rw [lookup_of_accepted hr hsame]; exact hentry, hj⟩
      · intro now' j hj heq'
        injection heq' with _ hpeer hfrag
        obtain ⟨header', chunk', hparse', hkey', -, -, -⟩ := fragment_parsed (m := m) hj
        rw [hfrag, hparse'] at hparse
        obtain ⟨rfl, -⟩ := Prod.mk.inj (Option.some.inj hparse)
        exact absurd (by rw [← hkey', ← hkey, hpeer]) hsame

/-- **A message all of whose chunks are in or arrive comes out.** -/
theorem comes_out (hown : OwnKeys msgs) (hm : m ∈ msgs) {es : List (Arrival Peer)} :
    ∀ {map : ReassemblyMap Peer}, Consistent msgs map → (∀ e ∈ es, e.IsOf msgs) →
      Undisturbed m.key map es →
      (∀ j < (parts m.payload).length, HasChunk map m.key j ∨
        ∃ now, Arrival.deliver now m.peer (fragment m.fragId m.payload j) ∈ es) →
      (m.key, m.payload) ∈ outputs map es := by
  induction es with
  | nil =>
    intro map h _ _ hall
    -- nothing is left to arrive, but an entry always misses a chunk
    have hin : ∀ j < (parts m.payload).length, HasChunk map m.key j := by
      intro j hj
      exact (hall j hj).resolve_right (by simp)
    have hcut := m.cut
    rw [encodeFragments_eq m.payload_ne_nil, List.length_map, List.length_range] at hcut
    obtain ⟨entry, hentry, -⟩ := hin 0 (by omega)
    obtain ⟨j, hj, hmissing⟩ := (h m hm entry hentry).exists_missing
    obtain ⟨entry', hentry', hhas⟩ := hin j hj
    rw [hentry] at hentry'
    exact absurd (Option.some.inj hentry' ▸ hhas) hmissing
  | cons e es ih =>
    intro map h hes hfree hall
    have he := hes e List.mem_cons_self
    rcases arrive_hasChunk hown h he hm hfree with hout | ⟨hstay, hnew⟩
    · exact List.mem_append_left _ (by rw [hout]; exact List.mem_singleton_self _)
    · refine List.mem_append_right _ (ih (h.step hown he).1
        (fun e' he' => hes e' (List.mem_cons_of_mem _ he')) hfree.2 fun j hj => ?_)
      rcases hall j hj with hj' | ⟨now, hnow⟩
      · exact Or.inl (hstay j hj')
      · rcases List.mem_cons.mp hnow with rfl | hnow
        · exact Or.inl (hnew now j hj rfl)
        · exact Or.inr ⟨now, hnow⟩

end

/-! ## One message on its own -/

section
variable {m : Sent Peer} {map : ReassemblyMap Peer}

/-- No other message is in reassembly. -/
def Alone (m : Sent Peer) (map : ReassemblyMap Peer) : Prop := ∀ key ∈ map.keys, key = m.key

omit [DecidableEq Peer] in
theorem Alone.empty (m : Sent Peer) : Alone m ∅ := by
  intro key hkey
  simp at hkey

theorem Alone.hasRoom (h : Alone m map) (hnone : map.lookup m.key = none) (peer : Peer) :
    hasRoom map peer = true := by
  have hkeys : map.keys = [] := by
    rw [List.eq_nil_iff_forall_not_mem]
    intro key hkey
    have hmem : m.key ∈ map := by
      rw [← h key hkey]
      exact AList.mem_keys.mp hkey
    exact (AList.lookup_eq_none.mp hnone) hmem
  simp [Fragmentation.hasRoom, hkeys, maxReassemblyEntries, maxReassemblyEntriesPerPeer]

theorem Alone.accepted {now : Instant} {ps : List Bytes} {i : Nat}
    {r : Option Bytes × ReassemblyMap Peer} (h : Alone m map)
    (hr : Accepted map now m.key ps i r) : Alone m r.2 := by
  intro key hkey
  cases hr with
  | refused _ _ => exact h key hkey
  | completed _ =>
    have hmem : key ∈ map.erase m.key := AList.mem_keys.mpr hkey
    exact h key (AList.mem_keys.mp (AList.mem_erase.mp hmem).2)
  | kept e _ _ _ =>
    have hmem : key ∈ map.insert m.key e := AList.mem_keys.mpr hkey
    rcases AList.mem_insert _ |>.mp hmem with hk | hk
    · exact hk
    · exact h key (AList.mem_keys.mp hk)

theorem undisturbed_alone {es : List (Arrival Peer)} :
    ∀ {map : ReassemblyMap Peer}, Alone m map → Consistent [m] map →
      (∀ e ∈ es, ∃ now, ∃ d ∈ m.datagrams, e = .deliver now m.peer d) →
      Undisturbed m.key map es := by
  induction es with
  | nil => intro map _ _ _; trivial
  | cons e es ih =>
    intro map h hmap hes
    obtain ⟨now, d, hd, rfl⟩ := hes e List.mem_cons_self
    refine ⟨fun header chunk _ _ hnone => h.hasRoom hnone _, ?_⟩
    obtain ⟨i, hi, rfl⟩ := m.mem_datagrams.mp hd
    obtain ⟨r, hr, heq⟩ := arrive_fragment now (hmap m List.mem_cons_self) hi
    have hown : OwnKeys [m] := by
      intro a ha b hb _ _
      rw [List.mem_singleton.mp ha, List.mem_singleton.mp hb]
    have hof : Arrival.IsOf [m] (.deliver now m.peer (fragment m.fragId m.payload i)) :=
      ⟨m, List.mem_cons_self, rfl, hd⟩
    refine ih ?_ (hmap.step hown hof).1
      fun e' he' => hes e' (List.mem_cons_of_mem _ he')
    rw [heq]
    exact h.accepted hr

end

/-! ## Whole runs -/

/-- **Fragmentation and reassembly are inverse.** Every datagram parses. Along any
arrivals of fragments of the messages, what comes out for a sender and an id is
the message with this sender and id. If the fragments of a message all arrive
within some part of the run in which no limit refuses it and no sweep drops its
entry, it comes out in this part. -/
theorem reassembly_inverts_fragmentation (msgs : List (Sent Peer)) (hown : OwnKeys msgs) :
    (∀ m ∈ msgs, ∀ d ∈ m.datagrams, (parseFragment d).isSome) ∧
    ∀ before part : List (Arrival Peer), (∀ e ∈ before ++ part, e.IsOf msgs) →
      (∀ key payload, (key, payload) ∈ outputs ∅ (before ++ part) →
        ∃ m ∈ msgs, key = (m.peer, m.fragId) ∧ payload = m.payload) ∧
      ∀ m ∈ msgs, (∀ d ∈ m.datagrams, ∃ now, Arrival.deliver now m.peer d ∈ part) →
        Undisturbed (m.peer, m.fragId) (mapAfter ∅ before) part →
        ((m.peer, m.fragId), m.payload) ∈ outputs (mapAfter ∅ before) part := by
  refine ⟨?_, ?_⟩
  · intro m _ d hd
    obtain ⟨i, hi, rfl⟩ := m.mem_datagrams.mp hd
    obtain ⟨header, chunk, hparse, -⟩ := fragment_parsed (m := m) hi
    rw [hparse]
    rfl
  · intro before part hes
    have hempty := consistent_empty msgs
    refine ⟨?_, ?_⟩
    · intro key payload hout
      obtain ⟨m, hm, heq⟩ := hempty.came hown hes _ hout
      obtain ⟨rfl, rfl⟩ := Prod.mk.inj heq
      exact ⟨m, hm, rfl, rfl⟩
    · intro m hm harrive hfree
      have hafter := hempty.after hown fun e he => hes e (List.mem_append_left _ he)
      refine comes_out hown hm hafter (fun e he => hes e (List.mem_append_right _ he)) hfree ?_
      intro j hj
      exact Or.inr (harrive _ (m.mem_datagrams.mpr ⟨j, hj, rfl⟩))

/-- The bytes `5, 5, …` of a message of two fragments. -/
@[irreducible] def fives : Bytes := List.replicate 1401 5

theorem length_fives : fives.length = 1401 := by
  unfold fives
  exact List.length_replicate

theorem two_le_length_fives (fragId : UInt32) : 2 ≤ (encodeFragments fragId fives).length := by
  have hne : fives ≠ [] := List.ne_nil_of_length_pos (by rw [length_fives]; decide)
  rw [encodeFragments_eq hne, List.length_map, List.length_range, length_parts, length_fives]
  decide

def twoFragments : Sent Nat where
  peer := 1
  fragId := 7
  payload := fives
  fits := by rw [length_fives]; decide
  cut := two_le_length_fives 7

theorem reassembly_inverts_fragmentation_twoFragments :
    (twoFragments.key, twoFragments.payload) ∈
      outputs ∅ (twoFragments.datagrams.reverse.map fun d =>
        Arrival.deliver 0 twoFragments.peer d) := by
  have hown : OwnKeys [twoFragments] := by
    intro a ha b hb _ _
    rw [List.mem_singleton.mp ha, List.mem_singleton.mp hb]
  have hes : ∀ e ∈ twoFragments.datagrams.reverse.map
        fun d => Arrival.deliver 0 twoFragments.peer d,
      ∃ now, ∃ d ∈ twoFragments.datagrams, e = .deliver now twoFragments.peer d := by
    intro e he
    obtain ⟨d, hd, rfl⟩ := List.mem_map.mp he
    exact ⟨0, d, List.mem_reverse.mp hd, rfl⟩
  refine ((reassembly_inverts_fragmentation [twoFragments] hown).2 []
    (twoFragments.datagrams.reverse.map fun d => Arrival.deliver 0 twoFragments.peer d) ?_).2
      twoFragments List.mem_cons_self ?_ ?_
  · intro e he
    obtain ⟨now, d, hd, rfl⟩ := hes e he
    exact ⟨twoFragments, List.mem_cons_self, rfl, hd⟩
  · intro d hd
    exact ⟨0, List.mem_map.mpr ⟨d, List.mem_reverse.mpr hd, rfl⟩⟩
  · exact undisturbed_alone (Alone.empty twoFragments) (consistent_empty _) hes

/-! ## The size limits -/

section
variable {m : Sent Peer} {start now : Instant} {r : Receiver Peer}

/-- A receiver that has the chunks `D` of `m`, and nothing else. -/
structure Filling (m : Sent Peer) (start : Instant) (D : Nat → Prop) (r : Receiver Peer) :
    Prop where
  alone : Alone m r.reassembly
  entry : ∀ e, r.reassembly.lookup m.key = some e →
    e.Collects (parts m.payload) ∧ start ≤ e.createdAt
  has : ∀ j, HasChunk r.reassembly m.key j ↔ D j

theorem Filling.empty (m : Sent Peer) (start gc : Instant) :
    Filling m start (fun _ => False) ⟨∅, gc⟩ where
  alone := Alone.empty m
  entry := fun e he => by simp at he
  has := by
    intro j
    constructor
    · rintro ⟨e, he, -⟩
      simp at he
    · exact False.elim

private theorem age_lt {start created now ttl : Nat} (hpos : 0 < ttl) (hcreated : start ≤ created)
    (hnow : now < start + ttl) : now - created < ttl := by omega

theorem Filling.gc {D : Nat → Prop} (h : Filling m start D r)
    (hnow : now < start + reassemblyTtl) : Filling m start D (gcReassembly r now) := by
  unfold gcReassembly
  split
  · exact h
  · have hlookup : ∀ e, (sweep r.reassembly now).lookup m.key = some e ↔
        r.reassembly.lookup m.key = some e := by
      intro e
      rw [lookup_sweep, and_iff_left_iff_imp]
      intro he
      exact age_lt (by decide) (h.entry e he).2 hnow
    refine ⟨?_, fun e he => h.entry e ((hlookup e).mp he), fun j => ?_⟩
    · intro key hkey
      refine h.alone key ?_
      obtain ⟨e, he⟩ := Option.isSome_iff_exists.mp
        (AList.lookup_isSome.mpr (AList.mem_keys.mpr hkey))
      exact AList.mem_keys.mp (AList.lookup_isSome.mp (by rw [(lookup_sweep.mp he).1]; rfl))
    · rw [← h.has j]
      simp only [HasChunk, hlookup]

/-- **One datagram** completes the message, or adds its chunk. -/
theorem Filling.receive {D : Nat → Prop} (h : Filling m start D r) (hstart : start ≤ now)
    (hnow : now < start + reassemblyTtl)
    (hsize : (parts m.payload).length * fragChunkSize ≤ maxMessageSize) {i : Nat}
    (hi : i < (parts m.payload).length) {out : Option Bytes × Receiver Peer}
    (hout : receiveDatagram r now m.peer (fragment m.fragId m.payload i) = out) :
    (out.1 = some m.payload ∧ ∀ j < (parts m.payload).length, D j ∨ j = i) ∨
    (out.1 = none ∧ Filling m start (fun j => D j ∨ j = i) out.2 ∧
      ∃ j < (parts m.payload).length, ¬ (D j ∨ j = i)) := by
  obtain ⟨header, chunk, hparse, hkey, htotal, hindex, hchunk⟩ := fragment_parsed (m := m) hi
  have hcut := m.cut
  rw [encodeFragments_eq m.payload_ne_nil, List.length_map, List.length_range] at hcut
  have hmany : header.total ≠ 1 := by
    rw [Ne, ← UInt16.toNat_inj, htotal, UInt16.toNat_one]
    omega
  have hfits : oversized header = false := by
    unfold oversized
    rw [htotal, decide_eq_false_iff_not]
    omega
  have hgc := h.gc hnow
  simp only [receiveDatagram, hparse, hmany, if_false, hfits, Bool.false_eq_true] at hout
  generalize gcReassembly r now = r' at hgc hout
  have hspec : Accepted r'.reassembly now (m.peer, header.fragId) (parts m.payload)
      header.index.toNat (acceptFragment r'.reassembly now m.peer header chunk) :=
    acceptFragment_spec (by rw [hkey]; exact fun e he => (hgc.entry e he).1) htotal
      (by rw [hindex]; exact hchunk)
  rw [hkey, hindex] at hspec
  generalize acceptFragment r'.reassembly now m.peer header chunk = a at hspec hout
  subst hout
  have halone := hgc.alone.accepted hspec
  cases hspec with
  | refused hnone hroom =>
    rw [hgc.alone.hasRoom hnone] at hroom
    cases hroom
  | completed hall =>
    refine Or.inl ⟨by rw [flatten_parts], fun j hj => ?_⟩
    rw [← hgc.has j]
    exact hall j hj
  | kept e hcollects hcreated hhas =>
    have hself : (r'.reassembly.insert m.key e).lookup m.key = some e := AList.lookup_insert ..
    refine Or.inr ⟨rfl, ⟨halone, ?_, ?_⟩, ?_⟩
    · intro e' he'
      obtain rfl := Option.some.inj (hself.symm.trans he')
      refine ⟨hcollects, ?_⟩
      rcases hcreated with ⟨-, hc⟩ | ⟨old, hold, hc⟩
      · rw [hc]
        exact hstart
      · rw [hc]
        exact (hgc.entry old hold).2
    · intro j
      rw [← hgc.has j, ← hhas j]
      constructor
      · rintro ⟨e', he', hj⟩
        obtain rfl := Option.some.inj (hself.symm.trans he')
        exact hj
      · intro hj
        exact ⟨e, hself, hj⟩
    · obtain ⟨j, hj, hmissing⟩ := hcollects.exists_missing
      refine ⟨j, hj, ?_⟩
      rw [← hgc.has j, ← hhas j]
      exact hmissing

/-- **All datagrams**, each once and in any order: the message comes out with the
last one. -/
theorem Filling.receiveAll (hsize : (parts m.payload).length * fragChunkSize ≤ maxMessageSize)
    {is : List Nat} : ∀ {D : Nat → Prop} {r : Receiver Peer} {l : List (Instant × Bytes)},
    Filling m start D r → is.Nodup → is ≠ [] →
    List.Forall₂ (fun i x => x.2 = fragment m.fragId m.payload i) is l →
    (∀ x ∈ l, start ≤ x.1 ∧ x.1 < start + reassemblyTtl) →
    (∀ i ∈ is, i < (parts m.payload).length ∧ ¬ D i) →
    (∀ j < (parts m.payload).length, D j ∨ j ∈ is) →
    Protocol.receiveAll m.peer r l = [m.payload] := by
  induction is with
  | nil => intro D r l _ _ hne; exact absurd rfl hne
  | cons i is ih =>
    intro D r l h hnd _ hl htimes his hall
    obtain ⟨hnotin, hnd⟩ := List.nodup_cons.mp hnd
    obtain _ | ⟨hx, hl⟩ := hl
    rename_i x l
    obtain ⟨now, data⟩ := x
    obtain rfl : data = fragment m.fragId m.payload i := hx
    obtain ⟨hstart, hnow⟩ := htimes _ List.mem_cons_self
    simp only [Protocol.receiveAll]
    rcases h.receive hstart hnow hsize (his i List.mem_cons_self).1 rfl with
      ⟨hout, hlast⟩ | ⟨hout, hnext, j, hj, hmissing⟩
    · -- every chunk is in, so nothing is left to come
      have hnil : is = [] := by
        rw [List.eq_nil_iff_forall_not_mem]
        intro j hj
        obtain ⟨hlt, hD⟩ := his j (List.mem_cons_of_mem _ hj)
        rcases hlast j hlt with hDj | rfl
        · exact hD hDj
        · exact hnotin hj
      subst hnil
      cases hl
      rw [hout]
      rfl
    · have hne : is ≠ [] := by
        rintro rfl
        rcases hall j hj with hDj | hj'
        · exact hmissing (Or.inl hDj)
        · exact hmissing (Or.inr (List.mem_singleton.mp hj'))
      rw [hout]
      refine ih hnext hnd hne hl (fun x hx => htimes x (List.mem_cons_of_mem _ hx)) ?_ ?_
      · intro i' hi'
        obtain ⟨hlt, hD⟩ := his i' (List.mem_cons_of_mem _ hi')
        refine ⟨hlt, ?_⟩
        rintro (hD' | rfl)
        · exact hD hD'
        · exact hnotin hi'
      · intro j' hj'
        rcases hall j' hj' with hD | hmem
        · exact Or.inl (Or.inl hD)
        · rcases List.mem_cons.mp hmem with rfl | hmem
          · exact Or.inl (Or.inr rfl)
          · exact Or.inr hmem

omit [DecidableEq Peer] in
theorem single_datagram (fragId : UInt32) {bytes : Bytes} (h : (parts bytes).length ≤ 1) :
    ∃ d header, encodeFragments fragId bytes = [d] ∧ parseFragment d = some (header, bytes) ∧
      header.total = 1 := by
  by_cases hne : bytes = []
  · subst hne
    refine ⟨FragHeader.bytes ⟨fragId, 0, 1⟩, ⟨fragId, 0, 1⟩, rfl, ?_, rfl⟩
    have hparse : parseFragment (FragHeader.bytes ⟨fragId, 0, 1⟩ ++ []) =
        some (⟨fragId, 0, 1⟩, []) :=
      parseFragment_bytes (show (0 : UInt16) < 1 by decide) (Nat.zero_le _)
    rwa [List.append_nil] at hparse
  · have hpos := length_parts_pos hne
    have hlen : (parts bytes).length = 1 := by omega
    obtain ⟨c, hc⟩ := List.length_eq_one_iff.mp hlen
    obtain ⟨header, chunk, hparse, -, htotal, -, hchunk⟩ :=
      parseFragment_fragment fragId hpos (by omega)
    have hflat := flatten_parts bytes
    rw [hc] at hchunk hflat
    have hbytes : chunk = bytes := by
      rw [← hflat, ← Option.some.inj hchunk]
      simp
    rw [hbytes] at hparse
    refine ⟨fragment fragId bytes 0, header, ?_, hparse, ?_⟩
    · rw [encodeFragments_eq hne, hlen]
      rfl
    · rw [← UInt16.toNat_inj, htotal, hlen, UInt16.toNat_one]

theorem parts_fit_iff (bytes : Bytes) :
    (parts bytes).length * fragChunkSize ≤ maxMessageSize ↔
      bytes.length ≤ maxMessageSize / fragChunkSize * fragChunkSize := by
  rw [length_parts]
  simp only [fragChunkSize, maxMessageSize]
  omega

omit [DecidableEq Peer] in
theorem sizeRefused_of_mem {fragId : UInt32} {bytes d : Bytes} (hmany : 2 ≤ (parts bytes).length)
    (hfits : bytes.length ≤ maxMessageSize) (hd : d ∈ encodeFragments fragId bytes) :
    sizeRefused d = decide (maxMessageSize < (parts bytes).length * fragChunkSize) := by
  have hne : bytes ≠ [] := by
    rintro rfl
    simp [length_parts, fragChunkSize] at hmany
  rw [encodeFragments_eq hne] at hd
  obtain ⟨i, hi, rfl⟩ := List.mem_map.mp hd
  obtain ⟨header, chunk, hparse, -, htotal, -, -⟩ := parseFragment_fragment fragId
    (List.mem_range.mp hi) (Nat.lt_of_le_of_lt (length_parts_le hfits) (by decide))
  have hone : header.total ≠ 1 := by
    rw [Ne, ← UInt16.toNat_inj, htotal, UInt16.toNat_one]
    omega
  simp [sizeRefused, oversized, hparse, hone, htotal]

/-- All datagrams of a frame that is cut and not too long, each once, in any order. -/
theorem receiveAll_cut (peer : Peer) {fragId : UInt32} {bytes : Bytes}
    (hmany : 2 ≤ (parts bytes).length) (hfits : bytes.length ≤ maxMessageSize)
    (hsize : (parts bytes).length * fragChunkSize ≤ maxMessageSize)
    {l : List (Instant × Bytes)} (hl : (l.map Prod.snd).Perm (encodeFragments fragId bytes))
    (htimes : ∀ x ∈ l, start ≤ x.1 ∧ x.1 < start + reassemblyTtl) (gc : Instant) :
    receiveAll peer ⟨∅, gc⟩ l = [bytes] := by
  have hne : bytes ≠ [] := by
    rintro rfl
    simp [length_parts, fragChunkSize] at hmany
  have hcut : 2 ≤ (encodeFragments fragId bytes).length := by
    rw [encodeFragments_eq hne, List.length_map, List.length_range]
    exact hmany
  rw [encodeFragments_eq hne] at hl
  -- the indices of the datagrams, in the order in which they come
  have hmap : List.Forall₂ (fun d i => d = fragment fragId bytes i)
      ((List.range (parts bytes).length).map (fragment fragId bytes))
      (List.range (parts bytes).length) := by
    rw [List.forall₂_map_left_iff, List.forall₂_same]
    exact fun _ _ => rfl
  obtain ⟨is, his, hperm⟩ := List.perm_comp_forall₂ hl hmap
  rw [List.forall₂_map_left_iff] at his
  have hmem : ∀ j, j ∈ is ↔ j < (parts bytes).length := fun j => by
    rw [hperm.mem_iff, List.mem_range]
  refine Filling.receiveAll (m := ⟨peer, fragId, bytes, hfits, hcut⟩) hsize
    (Filling.empty _ start gc) (hperm.nodup_iff.mpr List.nodup_range) ?_ his.flip htimes ?_ ?_
  · rintro rfl
    have := (hmem 0).mpr (by omega)
    cases this
  · exact fun i hi => ⟨(hmem i).mp hi, id⟩
  · exact fun j hj => Or.inr ((hmem j).mpr hj)

end

/-- **The size limits agree for lengths up to the largest multiple of the chunk
size.** The receiver refuses none of the datagrams of a frame, and delivering them
all, in any order, yields the frame, exactly if the frame is no longer than that. -/
theorem size_limits_agree_iff (peer : Peer) (fragId : UInt32) (bytes : Bytes)
    (datagrams : List Bytes) (hsend : encodeFrame fragId bytes = some datagrams) :
    ((∀ d ∈ datagrams, sizeRefused d = false) ∧
      ∀ deliveries : List (Instant × Bytes), (deliveries.map Prod.snd).Perm datagrams →
        (∃ start, ∀ x ∈ deliveries, start ≤ x.1 ∧ x.1 < start + reassemblyTtl) →
        ∀ gc, receiveAll peer ⟨∅, gc⟩ deliveries = [bytes]) ↔
      bytes.length ≤ maxMessageSize / fragChunkSize * fragChunkSize := by
  unfold encodeFrame at hsend
  split at hsend
  · cases hsend
  rename_i hfits
  obtain rfl := Option.some.inj hsend
  have hfits : bytes.length ≤ maxMessageSize := Nat.not_lt.mp hfits
  rw [← parts_fit_iff]
  by_cases hmany : 2 ≤ (parts bytes).length
  · constructor
    · rintro ⟨hnone, -⟩
      obtain ⟨d, hd⟩ := List.exists_mem_of_ne_nil _ (encodeFragments_ne_nil fragId bytes)
      have hcheck := sizeRefused_of_mem hmany hfits hd
      rw [hnone d hd] at hcheck
      exact Nat.not_lt.mp (of_decide_eq_false hcheck.symm)
    · intro hsize
      refine ⟨fun d hd => ?_, fun l hl ⟨start, htimes⟩ gc => ?_⟩
      · rw [sizeRefused_of_mem hmany hfits hd]
        exact decide_eq_false (Nat.not_lt.mpr hsize)
      · exact receiveAll_cut peer hmany hfits hsize hl htimes gc
  · -- one datagram, which no check is for
    have hone : (parts bytes).length ≤ 1 := by omega
    obtain ⟨d, header, hd, hparse, htotal⟩ := single_datagram fragId hone
    refine iff_of_true ⟨?_, ?_⟩ ?_
    · intro d' hd'
      rw [hd] at hd'
      rw [List.mem_singleton.mp hd', sizeRefused, hparse]
      simp [htotal]
    · intro l hl _ gc
      rw [hd] at hl
      obtain ⟨⟨now, data⟩, rfl, rfl⟩ := List.map_eq_singleton_iff.mp (List.perm_singleton.mp hl)
      simp [receiveAll, receiveDatagram, hparse, htotal]
    · simp only [fragChunkSize, maxMessageSize]
      omega

/-- Bytes `0, 0, …`, as many as a message may have. -/
@[irreducible] def largest : Bytes := List.replicate maxMessageSize 0

theorem length_largest : largest.length = maxMessageSize := by
  unfold largest
  exact List.length_replicate

/-- **The largest frame.** The sender agrees to send it, and the receiver refuses
every datagram of it. -/
theorem largest_frame_refused : ∃ datagrams, encodeFrame 0 largest = some datagrams ∧
    datagrams ≠ [] ∧ ∀ d ∈ datagrams, sizeRefused d = true := by
  have hfits : largest.length ≤ maxMessageSize := Nat.le_of_eq length_largest
  have hparts : (parts largest).length = 188 := by
    rw [length_parts, length_largest]
    decide
  refine ⟨encodeFragments 0 largest, if_neg (Nat.not_lt.mpr hfits), encodeFragments_ne_nil _ _, ?_⟩
  intro d hd
  rw [sizeRefused_of_mem (by rw [hparts]; decide) hfits hd, hparts]
  decide

theorem size_limits_agree_iff_fives :
    receiveAll 1 ⟨∅, 0⟩ ((encodeFragments 7 fives).reverse.map fun d => (0, d)) = [fives] := by
  have hfits : fives.length ≤ maxMessageSize := by
    rw [length_fives]
    decide
  have hsend : encodeFrame 7 fives = some (encodeFragments 7 fives) := if_neg (Nat.not_lt.mpr hfits)
  refine ((size_limits_agree_iff 1 7 fives _ hsend).mpr ?_).2 _ ?_ ⟨0, ?_⟩ 0
  · rw [length_fives]
    decide
  · rw [List.map_map]
    simp
  · intro x hx
    obtain ⟨d, -, rfl⟩ := List.mem_map.mp hx
    exact ⟨Nat.le_refl _, show (0 : Nat) < 0 + reassemblyTtl by decide⟩

end AuthKademlia.Properties
