import Mathlib.Data.List.AList
import AuthKademlia.Lib.Pieces
import AuthKademlia.Storage

/-! # Fragments

A message is cut into chunks that fit a datagram each; every datagram carries the
id of its message and its place in it. The receiver keeps an entry for each
message it has seen only a part of, by sender and id. -/
namespace AuthKademlia.Fragmentation
open AuthKademlia.Lib.Pieces AuthKademlia.Utils AuthKademlia.Storage

/-- `FRAG_MAGIC`, "KADF". -/
def fragMagic : Nat := 0x4B414446

def fragHeaderLen : Nat := 4 + 4 + 2 + 2

/-- `FRAG_CHUNK_SIZE`: payload bytes of a datagram. -/
def fragChunkSize : Nat := 1400

/-- `REASSEMBLY_TTL`, 10 s. -/
def reassemblyTtl : Nat := 10 * nanosPerSec

/-- `REASSEMBLY_GC_INTERVAL`, 1 s. -/
def reassemblyGcInterval : Nat := nanosPerSec

def maxMessageSize : Nat := 256 * 1024

def maxReassemblyEntries : Nat := 64

def maxReassemblyEntriesPerPeer : Nat := 8

/-- A message of which some fragments have arrived. -/
structure ReassemblyEntry where
  total : UInt16
  received : UInt16
  chunks : List (Option Bytes)
  createdAt : Instant

namespace ReassemblyEntry

def new (now : Instant) (total : UInt16) : ReassemblyEntry :=
  ⟨total, 0, List.replicate total.toNat none, now⟩

/-- Put a chunk in its slot, unless it is taken. Is the message complete? -/
def insert (e : ReassemblyEntry) (index : UInt16) (payload : Bytes) : ReassemblyEntry × Bool :=
  match e.chunks[index.toNat]? with
  | none => (e, false)
  | some (some _) => (e, e.received = e.total)
  | some none =>
    let received := e.received + 1
    ({ e with chunks := e.chunks.set index.toNat (some payload), received }, received = e.total)

/-- The chunks in order, if none is missing. -/
def assembleChunks : List (Option Bytes) → Option Bytes
  | [] => some []
  | c :: cs => do return (← c) ++ (← assembleChunks cs)

def assemble (e : ReassemblyEntry) : Option Bytes := assembleChunks e.chunks

end ReassemblyEntry

structure FragHeader where
  fragId : UInt32
  index : UInt16
  total : UInt16

def FragHeader.bytes (h : FragHeader) : Bytes :=
  toBigEndian 4 fragMagic ++ toBigEndian 4 h.fragId.toNat ++ toBigEndian 2 h.index.toNat ++
    toBigEndian 2 h.total.toNat

def encodeFragments (fragId : UInt32) (payload : Bytes) : List Bytes :=
  if payload.isEmpty then [FragHeader.bytes ⟨fragId, 0, 1⟩]
  else
    let total := UInt16.ofNat ((payload.length + fragChunkSize - 1) / fragChunkSize)
    (chunks fragChunkSize payload).mapIdx fun i chunk =>
      FragHeader.bytes ⟨fragId, UInt16.ofNat i, total⟩ ++ chunk

def parseFragment (data : Bytes) : Option (FragHeader × Bytes) :=
  if data.length < fragHeaderLen ∨ fragHeaderLen + fragChunkSize < data.length then none
  else if fromBigEndian (data.take 4) ≠ fragMagic then none
  else
    let fragId := UInt32.ofNat (fromBigEndian ((data.drop 4).take 4))
    let index := UInt16.ofNat (fromBigEndian ((data.drop 8).take 2))
    let total := UInt16.ofNat (fromBigEndian ((data.drop 10).take 2))
    if total = 0 ∨ total ≤ index then none
    else some (⟨fragId, index, total⟩, data.drop fragHeaderLen)

section
variable {Peer : Type} [DecidableEq Peer]

/-- The messages in reassembly, by sender and id. -/
abbrev ReassemblyMap (Peer : Type) := AList fun _ : Peer × UInt32 => ReassemblyEntry

/-- Is there room for another message of the peer? -/
def hasRoom (map : ReassemblyMap Peer) (peer : Peer) : Bool :=
  map.keys.length < maxReassemblyEntries &&
    (map.keys.filter fun key => key.1 = peer).length < maxReassemblyEntriesPerPeer

/-- The entry a fragment belongs to, perhaps a new one; none if a limit is reached. -/
def entryFor (map : ReassemblyMap Peer) (now : Instant) (peer : Peer) (header : FragHeader) :
    Option ReassemblyEntry :=
  match map.lookup (peer, header.fragId) with
  | some entry => some entry
  | none => if hasRoom map peer then some (.new now header.total) else none

/-- `accept_fragment`: the message, once its last fragment is here. Fragments that
disagree on their number drop the whole message. -/
def acceptFragment (map : ReassemblyMap Peer) (now : Instant) (peer : Peer) (header : FragHeader)
    (chunk : Bytes) : Option Bytes × ReassemblyMap Peer :=
  match entryFor map now peer header with
  | none => (none, map)
  | some entry =>
    if entry.total ≠ header.total then (none, map.erase (peer, header.fragId))
    else
      let (entry, complete) := entry.insert header.index chunk
      if complete then (entry.assemble, map.erase (peer, header.fragId))
      else (none, map.insert (peer, header.fragId) entry)

/-- How `accept_fragment` ends. -/
inductive FragmentEnd where
  | mapFull
  | peerLimit
  /-- An entry that must be in the map is not. -/
  | disappeared
  | inconsistentTotal
  | incomplete
  | assemblyFailed
  | complete (payload : Bytes)

def FragmentEnd.payload : FragmentEnd → Option Bytes
  | .complete payload => some payload
  | .mapFull | .peerLimit | .disappeared | .inconsistentTotal | .incomplete
  | .assemblyFailed => none

/-- The first part of `accept_fragment`: the map with an entry for the message. -/
def admitFragment (map : ReassemblyMap Peer) (now : Instant) (peer : Peer) (header : FragHeader) :
    Except FragmentEnd (ReassemblyMap Peer) :=
  if (peer, header.fragId) ∈ map then .ok map
  else if maxReassemblyEntries ≤ map.keys.length then .error .mapFull
  else if maxReassemblyEntriesPerPeer ≤ (map.keys.filter fun key => key.1 = peer).length then
    .error .peerLimit
  else .ok (map.insert (peer, header.fragId) (.new now header.total))

/-- `accept_fragment` with every look into the map, and the way it ends. -/
def acceptFragmentEnd (map : ReassemblyMap Peer) (now : Instant) (peer : Peer)
    (header : FragHeader) (chunk : Bytes) : FragmentEnd × ReassemblyMap Peer :=
  let key := (peer, header.fragId)
  match admitFragment map now peer header with
  | .error e => (e, map)
  | .ok map =>
    match map.lookup key with
    | none => (.disappeared, map)
    | some entry =>
      if entry.total ≠ header.total then (.inconsistentTotal, map.erase key)
      else match map.lookup key with
        | none => (.disappeared, map)
        | some entry =>
          let (entry, complete) := entry.insert header.index chunk
          let map := map.insert key entry
          if !complete then (.incomplete, map)
          else match map.lookup key with
            | none => (.disappeared, map)
            | some entry =>
              match entry.assemble with
              | none => (.assemblyFailed, map.erase key)
              | some payload => (.complete payload, map.erase key)

/-- The sweep of `gc_reassembly`: old entries go. -/
def sweep (map : ReassemblyMap Peer) (now : Instant) : ReassemblyMap Peer :=
  ⟨map.entries.filter fun e => now - e.2.createdAt < reassemblyTtl,
    .sublist List.filter_sublist map.nodupKeys⟩

end

/-! ## Headers -/

private theorem field_eq {pre field rest : Bytes} {start len : Nat} (hpre : pre.length = start)
    (hfield : field.length = len) : ((pre ++ (field ++ rest)).drop start).take len = field := by
  rw [List.drop_left' hpre, List.take_left' hfield]

theorem parseFragment_bytes {h : FragHeader} {chunk : Bytes} (hindex : h.index < h.total)
    (hchunk : chunk.length ≤ fragChunkSize) :
    parseFragment (h.bytes ++ chunk) = some (h, chunk) := by
  have hlen : h.bytes.length = fragHeaderLen := by simp [FragHeader.bytes, fragHeaderLen]
  have hsize : ¬ ((h.bytes ++ chunk).length < fragHeaderLen ∨
      fragHeaderLen + fragChunkSize < (h.bytes ++ chunk).length) := by
    rw [List.length_append, hlen]
    omega
  have hmagic : fromBigEndian ((h.bytes ++ chunk).take 4) = fragMagic := by
    have hfield : (h.bytes ++ chunk).take 4 = toBigEndian 4 fragMagic := by
      simp only [FragHeader.bytes, List.append_assoc]
      exact List.take_left' (length_toBigEndian ..)
    rw [hfield]
    exact fromBigEndian_toBigEndian (by decide)
  have hid : fromBigEndian (((h.bytes ++ chunk).drop 4).take 4) = h.fragId.toNat := by
    have hfield : ((h.bytes ++ chunk).drop 4).take 4 = toBigEndian 4 h.fragId.toNat := by
      simp only [FragHeader.bytes, List.append_assoc]
      exact field_eq (length_toBigEndian ..) (length_toBigEndian ..)
    rw [hfield]
    exact fromBigEndian_toBigEndian h.fragId.toNat_lt
  have hi : fromBigEndian (((h.bytes ++ chunk).drop 8).take 2) = h.index.toNat := by
    have hfield : ((h.bytes ++ chunk).drop 8).take 2 = toBigEndian 2 h.index.toNat := by
      simp only [FragHeader.bytes, List.append_assoc (toBigEndian 4 fragMagic ++ _)]
      exact field_eq (by simp) (length_toBigEndian ..)
    rw [hfield]
    exact fromBigEndian_toBigEndian h.index.toNat_lt
  have ht : fromBigEndian (((h.bytes ++ chunk).drop 10).take 2) = h.total.toNat := by
    have hfield : ((h.bytes ++ chunk).drop 10).take 2 = toBigEndian 2 h.total.toNat := by
      rw [FragHeader.bytes, List.append_assoc]
      exact field_eq (by simp) (length_toBigEndian ..)
    rw [hfield]
    exact fromBigEndian_toBigEndian h.total.toNat_lt
  have hpos : ¬ (h.total = 0 ∨ h.total ≤ h.index) := by
    rw [← UInt16.toNat_inj, UInt16.le_iff_toNat_le, UInt16.toNat_zero]
    rw [UInt16.lt_iff_toNat_lt] at hindex
    omega
  have hrest : (h.bytes ++ chunk).drop fragHeaderLen = chunk := List.drop_left' hlen
  unfold parseFragment
  rw [if_neg hsize, hmagic, if_neg (by simp)]
  simp only [hid, hi, ht, hrest, UInt32.ofNat_toNat, UInt16.ofNat_toNat, hpos, if_false]

/-! ## The datagrams of a message -/

def parts (payload : Bytes) : List Bytes := chunks fragChunkSize payload

theorem flatten_parts (payload : Bytes) : (parts payload).flatten = payload :=
  flatten_chunks (by decide) payload

theorem length_parts (payload : Bytes) :
    (parts payload).length = (payload.length + fragChunkSize - 1) / fragChunkSize :=
  length_chunks _ _

theorem length_parts_le {payload : Bytes} (h : payload.length ≤ maxMessageSize) :
    (parts payload).length ≤ 188 := by
  rw [length_parts]
  simp only [fragChunkSize, maxMessageSize] at h ⊢
  omega

theorem length_parts_pos {payload : Bytes} (h : payload ≠ []) : 0 < (parts payload).length := by
  rw [length_parts]
  have hlen := List.length_pos_of_ne_nil h
  simp only [fragChunkSize]
  omega

def fragment (fragId : UInt32) (payload : Bytes) (i : Nat) : Bytes :=
  FragHeader.bytes ⟨fragId, .ofNat i, .ofNat (parts payload).length⟩ ++ (parts payload).getD i []

theorem encodeFragments_eq {fragId : UInt32} {payload : Bytes} (h : payload ≠ []) :
    encodeFragments fragId payload =
      (List.range (parts payload).length).map (fragment fragId payload) := by
  have hne : payload.isEmpty = false := by simpa using h
  unfold encodeFragments
  simp only [hne, Bool.false_eq_true, if_false, ← length_parts]
  show List.mapIdx _ (parts payload) = _
  apply List.ext_getElem (by simp)
  intro i h₁ h₂
  have hi : i < (parts payload).length := by simpa using h₁
  simp [fragment, hi]

theorem encodeFragments_ne_nil (fragId : UInt32) (payload : Bytes) :
    encodeFragments fragId payload ≠ [] := by
  by_cases h : payload = []
  · rw [h]
    exact List.cons_ne_nil _ _
  · rw [encodeFragments_eq h, Ne, List.map_eq_nil_iff, List.range_eq_nil]
    exact Nat.ne_of_gt (length_parts_pos h)

/-- **Every datagram parses**, to its place in the message. -/
theorem parseFragment_fragment (fragId : UInt32) {payload : Bytes} {i : Nat}
    (hi : i < (parts payload).length) (hsmall : (parts payload).length < 2 ^ 16) :
    ∃ header chunk, parseFragment (fragment fragId payload i) = some (header, chunk) ∧
      header.fragId = fragId ∧ header.total.toNat = (parts payload).length ∧
      header.index.toNat = i ∧ (parts payload)[i]? = some chunk := by
  have hindex : (UInt16.ofNat i).toNat = i := UInt16.toNat_ofNat_of_lt' (Nat.lt_trans hi hsmall)
  have htotal : (UInt16.ofNat (parts payload).length).toNat = (parts payload).length :=
    UInt16.toNat_ofNat_of_lt' hsmall
  have hget : (parts payload).getD i [] = (parts payload)[i] := by
    rw [List.getD_eq_getElem _ _ hi]
  refine ⟨⟨fragId, .ofNat i, .ofNat (parts payload).length⟩, (parts payload)[i], ?_, rfl, htotal,
    hindex, List.getElem?_eq_getElem hi⟩
  unfold fragment
  rw [hget]
  refine parseFragment_bytes ?_ (length_le_of_mem_chunks (List.getElem_mem hi))
  show UInt16.ofNat i < UInt16.ofNat (parts payload).length
  rw [UInt16.lt_iff_toNat_lt, hindex, htotal]
  exact hi

/-! ## One entry -/

/-- The entry has room for `parts`, and some of them are in. -/
structure ReassemblyEntry.Collects (parts : List Bytes) (e : ReassemblyEntry) : Prop where
  total : e.total.toNat = parts.length
  holds : Holds parts e.chunks
  received : e.received.toNat = filled e.chunks
  missing : filled e.chunks < parts.length

namespace ReassemblyEntry
variable {parts : List Bytes} {e : ReassemblyEntry}

def Has (e : ReassemblyEntry) (i : Nat) : Prop := ∃ v, e.chunks[i]? = some (some v)

theorem collects_new (now : Instant) {total : UInt16} (ht : total.toNat = parts.length)
    (hpos : 0 < parts.length) : (new now total).Collects parts where
  total := ht
  holds := by
    show Holds parts (List.replicate total.toNat none)
    rw [ht]
    exact Holds.empty parts
  received := by
    show 0 = filled (List.replicate total.toNat none)
    rw [filled_empty]
  missing := by
    show filled (List.replicate total.toNat none) < parts.length
    rwa [filled_empty]

theorem not_has_new (now : Instant) (total : UInt16) (i : Nat) : ¬ (new now total).Has i := by
  rintro ⟨v, hv⟩
  simp only [new, List.getElem?_replicate] at hv
  split at hv <;> cases hv

theorem Collects.exists_missing (h : e.Collects parts) : ∃ i < parts.length, ¬ e.Has i := by
  by_contra hall
  have hsome : ∀ s ∈ e.chunks, s.isSome = true := by
    intro s hs
    obtain ⟨i, hi⟩ := List.mem_iff_getElem?.mp hs
    obtain ⟨hlt, -⟩ := List.getElem?_eq_some_iff.mp hi
    by_contra hnone
    refine hall ⟨i, h.holds.length ▸ hlt, ?_⟩
    rintro ⟨v, hv⟩
    rw [hi] at hv
    rw [Option.some.inj hv] at hnone
    exact hnone rfl
  have hfull : filled e.chunks = e.chunks.length := List.countP_eq_length.mpr hsome
  have hmissing := h.missing
  rw [hfull, h.holds.length] at hmissing
  exact Nat.lt_irrefl _ hmissing

theorem assembleChunks_map : ∀ parts : List Bytes,
    assembleChunks (parts.map some) = some parts.flatten
  | [] => rfl
  | p :: ps => by
    rw [List.map_cons, assembleChunks, assembleChunks_map ps]
    rfl

/-- **One insertion.** It completes the message, or one more chunk is in. -/
theorem Collects.insert (h : e.Collects parts) {index : UInt16} {chunk : Bytes}
    (hchunk : parts[index.toNat]? = some chunk) :
    ((e.insert index chunk).2 = true ∧ (e.insert index chunk).1.assemble = some parts.flatten ∧
      ∀ j < parts.length, e.Has j ∨ j = index.toNat) ∨
    ((e.insert index chunk).2 = false ∧ (e.insert index chunk).1.Collects parts ∧
      (e.insert index chunk).1.createdAt = e.createdAt ∧
      ∀ j, (e.insert index chunk).1.Has j ↔ e.Has j ∨ j = index.toNat) := by
  have hlt : index.toNat < e.chunks.length := by
    rw [h.holds.length]
    exact (List.getElem?_eq_some_iff.mp hchunk).1
  have hne : e.received ≠ e.total := by
    rw [Ne, ← UInt16.toNat_inj, h.received, h.total]
    exact Nat.ne_of_lt h.missing
  unfold ReassemblyEntry.insert
  cases hslot : e.chunks[index.toNat]? with
  | none => exact absurd hlt (Nat.not_lt.mpr (List.getElem?_eq_none_iff.mp hslot))
  | some slot =>
    cases slot with
    | some v =>
      -- a duplicate changes nothing
      refine Or.inr ⟨decide_eq_false hne, h, rfl, fun j => ⟨Or.inl, ?_⟩⟩
      rintro (hj | rfl)
      · exact hj
      · exact ⟨v, hslot⟩
    | none =>
      have hholds : Holds parts (e.chunks.set index.toNat (some chunk)) := h.holds.fill hchunk
      have hcount : filled (e.chunks.set index.toNat (some chunk)) = filled e.chunks + 1 :=
        filled_fill hslot
      have hreceived : (e.received + 1).toNat = filled e.chunks + 1 := by
        have htotal := e.total.toNat_lt
        have hmissing := h.missing
        rw [h.total] at htotal
        rw [UInt16.toNat_add, h.received, UInt16.toNat_one]
        omega
      have hhas : ∀ j, (∃ v, (e.chunks.set index.toNat (some chunk))[j]? = some (some v)) ↔
          e.Has j ∨ j = index.toNat := by
        intro j
        by_cases hj : j = index.toNat
        · subst hj
          simp [hlt]
        · rw [List.getElem?_set_ne (Ne.symm hj)]
          simp [Has, hj]
      by_cases hfull : filled e.chunks + 1 = parts.length
      · left
        have hmap : e.chunks.set index.toNat (some chunk) = parts.map some :=
          hholds.full (by rw [hcount, hfull, hholds.length])
        refine ⟨decide_eq_true ?_, ?_, ?_⟩
        · rw [← UInt16.toNat_inj, hreceived, h.total, hfull]
        · show assembleChunks (e.chunks.set index.toNat (some chunk)) = _
          rw [hmap, assembleChunks_map]
        · intro j hj
          refine (hhas j).mp ⟨parts[j], ?_⟩
          rw [hmap, List.getElem?_map, List.getElem?_eq_getElem hj, Option.map_some]
      · right
        refine ⟨decide_eq_false ?_, ⟨h.total, hholds, ?_, ?_⟩, rfl, hhas⟩
        · rw [← UInt16.toNat_inj, hreceived, h.total]
          exact hfull
        · rw [hreceived, hcount]
        · show filled (e.chunks.set index.toNat (some chunk)) < parts.length
          have hmissing := h.missing
          omega

end ReassemblyEntry

/-! ## One fragment -/

section
variable {Peer : Type} [DecidableEq Peer] {map : ReassemblyMap Peer} {key : Peer × UInt32}
  {parts : List Bytes} {now : Instant}

/-- The chunk `j` of the message `key` is in. -/
def HasChunk (map : ReassemblyMap Peer) (key : Peer × UInt32) (j : Nat) : Prop :=
  ∃ e, map.lookup key = some e ∧ e.Has j

/-- What the fragment `i` of a message can do: nothing, if a limit refuses it;
else it completes the message, or its chunk is kept. -/
inductive Accepted (map : ReassemblyMap Peer) (now : Instant) (key : Peer × UInt32)
    (parts : List Bytes) (i : Nat) : Option Bytes × ReassemblyMap Peer → Prop
  | refused (hnone : map.lookup key = none) (hroom : hasRoom map key.1 = false) :
      Accepted map now key parts i (none, map)
  | completed (hall : ∀ j < parts.length, HasChunk map key j ∨ j = i) :
      Accepted map now key parts i (some parts.flatten, map.erase key)
  | kept (e : ReassemblyEntry) (hcollects : e.Collects parts)
      (hcreated : map.lookup key = none ∧ e.createdAt = now ∨
        ∃ old, map.lookup key = some old ∧ e.createdAt = old.createdAt)
      (hhas : ∀ j, e.Has j ↔ HasChunk map key j ∨ j = i) :
      Accepted map now key parts i (none, map.insert key e)

theorem entryFor_cases {peer : Peer} {header : FragHeader} {e : ReassemblyEntry}
    (h : entryFor map now peer header = some e) :
    map.lookup (peer, header.fragId) = some e ∨
      map.lookup (peer, header.fragId) = none ∧ e = .new now header.total := by
  unfold entryFor at h
  cases hl : map.lookup (peer, header.fragId) with
  | some old => exact Or.inl (by rwa [hl] at h)
  | none =>
    rw [hl] at h
    simp only at h
    split at h
    · exact Or.inr ⟨rfl, (Option.some.inj h).symm⟩
    · cases h

theorem entryFor_none {peer : Peer} {header : FragHeader}
    (h : entryFor map now peer header = none) :
    map.lookup (peer, header.fragId) = none ∧ hasRoom map peer = false := by
  unfold entryFor at h
  cases hl : map.lookup (peer, header.fragId) with
  | some old => rw [hl] at h; cases h
  | none =>
    rw [hl] at h
    simp only at h
    split at h
    · cases h
    · exact ⟨rfl, by simpa using ‹¬ hasRoom map peer = true›⟩

/-- **`accept_fragment` on the fragments of one message.** -/
theorem acceptFragment_spec {peer : Peer} {header : FragHeader} {chunk : Bytes}
    (hmap : ∀ e, map.lookup (peer, header.fragId) = some e → e.Collects parts)
    (htotal : header.total.toNat = parts.length)
    (hchunk : parts[header.index.toNat]? = some chunk) :
    Accepted map now (peer, header.fragId) parts header.index.toNat
      (acceptFragment map now peer header chunk) := by
  have hpos : 0 < parts.length := Nat.lt_of_le_of_lt (Nat.zero_le _)
    (List.getElem?_eq_some_iff.mp hchunk).1
  unfold acceptFragment
  cases hentry : entryFor map now peer header with
  | none =>
    obtain ⟨hnone, hroom⟩ := entryFor_none hentry
    exact .refused hnone hroom
  | some e =>
    have hcases := entryFor_cases hentry
    have hcollects : e.Collects parts := by
      rcases hcases with hold | ⟨-, rfl⟩
      · exact hmap e hold
      · exact ReassemblyEntry.collects_new now htotal hpos
    have hhas : ∀ j, e.Has j ↔ HasChunk map (peer, header.fragId) j := by
      intro j
      rcases hcases with hold | ⟨hnone, rfl⟩
      · simp [HasChunk, hold]
      · simp [HasChunk, hnone, ReassemblyEntry.not_has_new]
    have hsame : e.total = header.total := by
      rw [← UInt16.toNat_inj, hcollects.total, htotal]
    simp only [hsame, ne_eq, not_true_eq_false, if_false]
    rcases hcollects.insert hchunk with ⟨hdone, hall, hrest⟩ | ⟨hdone, hcol, hcreated, hmore⟩
    · rw [hdone, if_pos rfl, hall]
      exact .completed fun j hj => (hrest j hj).imp (hhas j).mp id
    · rw [hdone, if_neg Bool.false_ne_true]
      refine .kept _ hcol ?_ fun j => ?_
      · rcases hcases with hold | ⟨hnone, rfl⟩
        · exact Or.inr ⟨e, hold, hcreated⟩
        · exact Or.inl ⟨hnone, hcreated⟩
      · rw [hmore, hhas]

/-! ## All the exits -/

theorem erase_insert {α β : Type} [DecidableEq α] (m : AList fun _ : α => β) (a : α) (b : β) :
    (m.insert a b).erase a = m.erase a := by
  apply AList.ext
  show List.kerase a (m.insert a b).entries = List.kerase a m.entries
  rw [AList.entries_insert]
  exact List.kerase_cons_eq rfl

theorem admitFragment_ok {peer : Peer} {header : FragHeader} {map' : ReassemblyMap Peer}
    (h : admitFragment map now peer header = .ok map') :
    ∃ e, entryFor map now peer header = some e ∧ map'.lookup (peer, header.fragId) = some e ∧
      map'.erase (peer, header.fragId) = map.erase (peer, header.fragId) ∧
      ∀ e', map'.insert (peer, header.fragId) e' = map.insert (peer, header.fragId) e' := by
  unfold admitFragment at h
  split at h
  · rename_i hmem
    obtain ⟨e, he⟩ := Option.isSome_iff_exists.mp (AList.lookup_isSome.mpr hmem)
    obtain rfl := Except.ok.inj h
    exact ⟨e, by rw [entryFor, he], he, rfl, fun _ => rfl⟩
  · rename_i hmem
    have hnone : map.lookup (peer, header.fragId) = none := AList.lookup_eq_none.mpr hmem
    split at h
    · cases h
    · rename_i hfull
      split at h
      · cases h
      · rename_i hlimit
        obtain rfl := Except.ok.inj h
        have hroom : hasRoom map peer = true := by
          rw [hasRoom, Bool.and_eq_true, decide_eq_true_eq, decide_eq_true_eq]
          omega
        refine ⟨.new now header.total, ?_, AList.lookup_insert _, ?_, fun e' => ?_⟩
        · rw [entryFor, hnone]
          exact if_pos hroom
        · exact erase_insert ..
        · exact AList.insert_insert ..

theorem admitFragment_error {peer : Peer} {header : FragHeader} {e : FragmentEnd}
    (h : admitFragment map now peer header = .error e) :
    entryFor map now peer header = none ∧ (e = .mapFull ∨ e = .peerLimit) := by
  unfold admitFragment at h
  split at h
  · cases h
  · rename_i hmem
    have hnone : map.lookup (peer, header.fragId) = none := AList.lookup_eq_none.mpr hmem
    have hroom : hasRoom map peer = false → entryFor map now peer header = none := fun hroom => by
      rw [entryFor, hnone]
      exact if_neg (by rw [hroom]; exact Bool.false_ne_true)
    split at h
    · rename_i hfull
      cases h
      refine ⟨hroom ?_, Or.inl rfl⟩
      rw [hasRoom, Bool.and_eq_false_iff]
      exact Or.inl (decide_eq_false (Nat.not_lt.mpr hfull))
    · split at h
      · rename_i hlimit
        cases h
        refine ⟨hroom ?_, Or.inr rfl⟩
        rw [hasRoom, Bool.and_eq_false_iff]
        exact Or.inr (decide_eq_false (Nat.not_lt.mpr hlimit))
      · cases h

/-- **`acceptFragment` is `accept_fragment`**: the exits for an entry that has
disappeared are not taken, and the others have its result. -/
theorem acceptFragmentEnd_eq (map : ReassemblyMap Peer) (now : Instant) (peer : Peer)
    (header : FragHeader) (chunk : Bytes) :
    (acceptFragmentEnd map now peer header chunk).1.payload =
        (acceptFragment map now peer header chunk).1 ∧
      (acceptFragmentEnd map now peer header chunk).2 =
        (acceptFragment map now peer header chunk).2 ∧
      (acceptFragmentEnd map now peer header chunk).1 ≠ .disappeared := by
  unfold acceptFragmentEnd acceptFragment
  cases hadmit : admitFragment map now peer header with
  | error e =>
    obtain ⟨hnone, he⟩ := admitFragment_error hadmit
    rw [hnone]
    rcases he with rfl | rfl <;> exact ⟨rfl, rfl, FragmentEnd.noConfusion⟩
  | ok map' =>
    obtain ⟨e, hentry, hlookup, herase, hinsert⟩ := admitFragment_ok hadmit
    simp only [hentry, hlookup]
    split
    · exact ⟨rfl, herase, FragmentEnd.noConfusion⟩
    · have hdone : ∀ e', ((map'.insert (peer, header.fragId) e').erase (peer, header.fragId)) =
          map.erase (peer, header.fragId) := fun e' => by
        rw [hinsert]
        exact erase_insert ..
      cases hcomplete : (e.insert header.index chunk).2 with
      | false =>
        simp only [Bool.not_false, if_true, Bool.false_eq_true, if_false]
        exact ⟨rfl, hinsert _, FragmentEnd.noConfusion⟩
      | true =>
        simp only [Bool.not_true, Bool.false_eq_true, if_false, if_true, AList.lookup_insert]
        cases (e.insert header.index chunk).1.assemble with
        | none => exact ⟨rfl, hdone _, FragmentEnd.noConfusion⟩
        | some payload => exact ⟨rfl, hdone _, FragmentEnd.noConfusion⟩

theorem lookup_sweep {e : ReassemblyEntry} :
    (sweep map now).lookup key = some e ↔
      map.lookup key = some e ∧ now - e.createdAt < reassemblyTtl := by
  rw [← Option.mem_def, ← Option.mem_def, AList.mem_lookup_iff, AList.mem_lookup_iff]
  show _ ∈ List.filter _ _ ↔ _
  rw [List.mem_filter, decide_eq_true_eq]

end

end AuthKademlia.Fragmentation
