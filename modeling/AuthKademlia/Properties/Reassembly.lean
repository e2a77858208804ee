import Mathlib.Algebra.Order.BigOperators.Group.List
import AuthKademlia.Protocol.Transport

/-! # What reassembly may keep

Any peer may send any datagrams, with any headers. Whatever they are, the bookkeeping
of every entry of the reassembly map stays right (`ReassemblyEntry.Sound`), and the map
stays within its limits (`Limited`): one datagram and one sweep keep both, so every
sequence of them does. A complete entry can therefore always be assembled, and the
payload that is buffered is bounded. -/
namespace AuthKademlia.Properties
open AuthKademlia.Lib.Pieces AuthKademlia.Utils AuthKademlia.Storage
open AuthKademlia.Fragmentation AuthKademlia.Protocol

/-! ## One entry -/

/-- The bookkeeping of an entry is right and within the limits. -/
structure EntrySound (e : ReassemblyEntry) : Prop where
  several : 2 ≤ e.total.toNat
  fits : e.total.toNat * fragChunkSize ≤ maxMessageSize
  slots : e.chunks.length = e.total.toNat
  received : e.received.toNat = filled e.chunks
  missing : e.received < e.total
  small : ∀ chunk, some chunk ∈ e.chunks → chunk.length ≤ fragChunkSize

theorem entrySound_new (now : Instant) {total : UInt16} (hseveral : 2 ≤ total.toNat)
    (hfits : total.toNat * fragChunkSize ≤ maxMessageSize) : EntrySound (.new now total) where
  several := hseveral
  fits := hfits
  slots := List.length_replicate
  received := by
    show 0 = filled (List.replicate total.toNat none)
    rw [filled_empty]
  missing := by
    show (0 : UInt16) < total
    rw [UInt16.lt_iff_toNat_lt, UInt16.toNat_zero]
    omega
  small := by
    intro chunk hchunk
    cases (List.mem_replicate.mp hchunk).2

theorem assembleChunks_isSome : ∀ {cs : List (Option Bytes)}, (∀ c ∈ cs, c.isSome) →
    (ReassemblyEntry.assembleChunks cs).isSome
  | [], _ => rfl
  | c :: cs, h => by
    obtain ⟨bytes, rfl⟩ := Option.isSome_iff_exists.mp (h c List.mem_cons_self)
    obtain ⟨rest, hrest⟩ := Option.isSome_iff_exists.mp
      (assembleChunks_isSome fun d hd => h d (List.mem_cons_of_mem _ hd))
    rw [ReassemblyEntry.assembleChunks, hrest]
    rfl

/-- **One insertion of anything.** The entry is complete and can be assembled, or its
bookkeeping is right again. -/
theorem EntrySound.insert {e : ReassemblyEntry} (h : EntrySound e) {index : UInt16}
    {chunk : Bytes} (hindex : index < e.total)
    (hchunk : chunk.length ≤ fragChunkSize) :
    ((e.insert index chunk).2 = true ∧ (e.insert index chunk).1.assemble.isSome) ∨
    ((e.insert index chunk).2 = false ∧ EntrySound (e.insert index chunk).1) := by
  rw [UInt16.lt_iff_toNat_lt] at hindex
  have hmissing := UInt16.lt_iff_toNat_lt.mp h.missing
  have hne : e.received ≠ e.total := fun heq => by
    rw [heq] at hmissing
    exact Nat.lt_irrefl _ hmissing
  unfold ReassemblyEntry.insert
  cases hslot : e.chunks[index.toNat]? with
  | none =>
    have hlen := List.getElem?_eq_none_iff.mp hslot
    rw [h.slots] at hlen
    omega
  | some slot =>
    cases slot with
    | some v => exact Or.inr ⟨decide_eq_false hne, h⟩
    | none =>
      have hcount : filled (e.chunks.set index.toNat (some chunk)) = filled e.chunks + 1 :=
        filled_fill hslot
      have hreceived : (e.received + 1).toNat = filled e.chunks + 1 := by
        have htotal := e.total.toNat_lt
        rw [UInt16.toNat_add, UInt16.toNat_one, ← h.received]
        omega
      by_cases hfull : e.received + 1 = e.total
      · left
        have hall : filled (e.chunks.set index.toNat (some chunk)) =
            (e.chunks.set index.toNat (some chunk)).length := by
          rw [hcount, ← hreceived, hfull, List.length_set, h.slots]
        exact ⟨decide_eq_true hfull, assembleChunks_isSome (List.countP_eq_length.mp hall)⟩
      · right
        refine ⟨decide_eq_false hfull, h.several, h.fits, ?_, ?_, ?_, fun c hc => ?_⟩
        · rw [List.length_set, h.slots]
        · rw [hreceived, hcount]
        · show e.received + 1 < e.total
          rw [← UInt16.toNat_inj, hreceived, ← h.received] at hfull
          rw [UInt16.lt_iff_toNat_lt, hreceived, ← h.received]
          omega
        · rcases List.mem_or_eq_of_mem_set hc with hold | hnew
          · exact h.small c hold
          · rw [Option.some.inj hnew]
            exact hchunk

/-! ## The map -/

section
variable {Peer : Type} [DecidableEq Peer] {map : ReassemblyMap Peer} {key : Peer × UInt32}
  {now : Instant}

/-- How many messages of a peer are in reassembly. -/
def peerEntries (map : ReassemblyMap Peer) (peer : Peer) : Nat :=
  (map.keys.filter fun key => key.1 = peer).length

/-- The map is within its limits, and so is every entry. -/
structure Limited (map : ReassemblyMap Peer) : Prop where
  entries : map.keys.length ≤ maxReassemblyEntries
  perPeer : ∀ peer, peerEntries map peer ≤ maxReassemblyEntriesPerPeer
  sound : ∀ key e, map.lookup key = some e → EntrySound e

theorem limited_empty : Limited (∅ : ReassemblyMap Peer) where
  entries := Nat.zero_le _
  perPeer := fun _ => Nat.zero_le _
  sound := fun _ _ h => by cases h

theorem Limited.sublist {map' : ReassemblyMap Peer} (h : Limited map)
    (hsub : map'.entries.Sublist map.entries) : Limited map' where
  entries := Nat.le_trans (hsub.map Sigma.fst).length_le h.entries
  perPeer := fun peer =>
    Nat.le_trans ((hsub.map Sigma.fst).filter _).length_le (h.perPeer peer)
  sound := fun key e he => by
    rw [← Option.mem_def, AList.mem_lookup_iff] at he
    exact h.sound key e (AList.mem_lookup_iff.mpr (hsub.subset he))

theorem Limited.erase (h : Limited map) (key : Peer × UInt32) : Limited (map.erase key) :=
  h.sublist (List.kerase_sublist key map.entries)

theorem Limited.sweep (h : Limited map) (now : Instant) : Limited (sweep map now) :=
  h.sublist List.filter_sublist

theorem keys_insert_perm {α β : Type} [DecidableEq α] {m : AList fun _ : α => β} {a : α}
    (h : a ∈ m) (b : β) : (m.insert a b).keys.Perm m.keys := by
  rw [AList.keys_insert]
  exact (List.perm_cons_erase (AList.mem_keys.mp h)).symm

theorem keys_insert_new {α β : Type} [DecidableEq α] {m : AList fun _ : α => β} {a : α}
    (h : a ∉ m) (b : β) : (m.insert a b).keys = a :: m.keys := by
  rw [AList.keys_insert, List.erase_of_not_mem fun ha => h (AList.mem_keys.mpr ha)]

theorem Limited.insert (h : Limited map) {e : ReassemblyEntry} (he : EntrySound e)
    (hroom : key ∈ map ∨ hasRoom map key.1 = true) : Limited (map.insert key e) := by
  have hsound : ∀ key' e', (map.insert key e).lookup key' = some e' → EntrySound e' := by
    intro key' e' hlookup
    by_cases hk : key' = key
    · subst hk
      rw [AList.lookup_insert] at hlookup
      exact Option.some.inj hlookup ▸ he
    · rw [AList.lookup_insert_ne hk] at hlookup
      exact h.sound key' e' hlookup
  by_cases hmem : key ∈ map
  · -- the keys are the same, in another order
    have hperm : (map.insert key e).keys.Perm map.keys := keys_insert_perm hmem e
    refine ⟨hperm.length_eq ▸ h.entries, fun peer => ?_, hsound⟩
    rw [peerEntries, (hperm.filter _).length_eq]
    exact h.perPeer peer
  · have hroom := hroom.resolve_left hmem
    rw [hasRoom, Bool.and_eq_true, decide_eq_true_eq, decide_eq_true_eq] at hroom
    have hkeys : (map.insert key e).keys = key :: map.keys := keys_insert_new hmem e
    refine ⟨?_, fun peer => ?_, hsound⟩
    · rw [hkeys]
      exact hroom.1
    · rw [peerEntries, hkeys, List.filter_cons]
      split
      · rename_i hpeer
        rw [← of_decide_eq_true hpeer]
        exact hroom.2
      · exact h.perPeer peer

/-- A fragment as `parse_fragment` returns it, of a message that is not too large. -/
structure Admissible (header : FragHeader) (chunk : Bytes) : Prop where
  index : header.index < header.total
  several : 2 ≤ header.total.toNat
  fits : header.total.toNat * fragChunkSize ≤ maxMessageSize
  small : chunk.length ≤ fragChunkSize

theorem Limited.entryFor (h : Limited map) {peer : Peer} {header : FragHeader} {chunk : Bytes}
    (hok : Admissible header chunk) {e : ReassemblyEntry}
    (he : entryFor map now peer header = some e) :
    EntrySound e ∧ ((peer, header.fragId) ∈ map ∨ hasRoom map peer = true) := by
  unfold Fragmentation.entryFor at he
  cases hl : map.lookup (peer, header.fragId) with
  | some old =>
    rw [hl] at he
    obtain rfl := Option.some.inj he
    exact ⟨h.sound _ _ hl, Or.inl (AList.lookup_isSome.mp (by rw [hl]; rfl))⟩
  | none =>
    rw [hl] at he
    simp only at he
    split at he
    · rename_i hroom
      obtain rfl := Option.some.inj he
      exact ⟨entrySound_new now hok.several hok.fits, Or.inr hroom⟩
    · cases he

/-- **Any fragment keeps the map within its limits.** -/
theorem Limited.acceptFragment (h : Limited map) {peer : Peer} {header : FragHeader}
    {chunk : Bytes} (hok : Admissible header chunk) :
    Limited (acceptFragment map now peer header chunk).2 := by
  unfold Fragmentation.acceptFragment
  cases hentry : Fragmentation.entryFor map now peer header with
  | none => exact h
  | some e =>
    obtain ⟨hsound, hroom⟩ := h.entryFor hok hentry
    dsimp only
    split
    · exact h.erase _
    · rename_i htotal
      have hindex : header.index < e.total := (not_not.mp htotal) ▸ hok.index
      rcases hsound.insert hindex hok.small with ⟨hdone, -⟩ | ⟨hdone, hnext⟩
      · rw [hdone, if_pos rfl]
        exact h.erase _
      · rw [hdone, if_neg Bool.false_ne_true]
        exact h.insert hnext hroom

/-- **A complete message can be assembled.** -/
theorem Limited.assembles (h : Limited map) {peer : Peer} {header : FragHeader} {chunk : Bytes}
    (hok : Admissible header chunk) :
    (acceptFragmentEnd map now peer header chunk).1 ≠ .assemblyFailed := by
  unfold acceptFragmentEnd
  cases hadmit : admitFragment map now peer header with
  | error e =>
    obtain ⟨-, rfl | rfl⟩ := admitFragment_error hadmit <;> exact FragmentEnd.noConfusion
  | ok map' =>
    obtain ⟨e, hentry, hlookup, -, -⟩ := admitFragment_ok hadmit
    simp only [hlookup]
    split
    · exact FragmentEnd.noConfusion
    · rename_i htotal
      have hindex : header.index < e.total := (not_not.mp htotal) ▸ hok.index
      rcases (h.entryFor hok hentry).1.insert hindex hok.small with ⟨hdone, hall⟩ | ⟨hdone, -⟩
      · obtain ⟨payload, hpayload⟩ := Option.isSome_iff_exists.mp hall
        simp only [hdone, Bool.not_true, Bool.false_eq_true, if_false, AList.lookup_insert,
          hpayload]
        exact FragmentEnd.noConfusion
      · simp only [hdone, Bool.not_false, if_true]
        exact FragmentEnd.noConfusion

/-! The payload that is buffered. -/

def chunkBytes (e : ReassemblyEntry) : Nat :=
  (e.chunks.map fun c => (c.getD []).length).sum

/-- The bytes that all entries hold. -/
def bufferedBytes (map : ReassemblyMap Peer) : Nat :=
  (map.entries.map fun e => chunkBytes e.2).sum

theorem EntrySound.buffered_le {e : ReassemblyEntry} (h : EntrySound e) :
    chunkBytes e ≤ maxMessageSize := by
  refine Nat.le_trans ?_ h.fits
  rw [← h.slots, ← List.length_map (f := fun c : Option Bytes => (c.getD []).length)]
  refine List.sum_le_card_nsmul _ fragChunkSize fun n hn => ?_
  obtain ⟨c, hc, rfl⟩ := List.mem_map.mp hn
  cases c with
  | none => exact Nat.zero_le _
  | some chunk => exact h.small chunk hc

theorem Limited.bufferedBytes_le (h : Limited map) :
    bufferedBytes map ≤ maxReassemblyEntries * maxMessageSize := by
  have hlen : (map.entries.map fun e => chunkBytes e.2).length ≤ maxReassemblyEntries := by
    rw [List.length_map, ← List.length_map (f := Sigma.fst)]
    exact h.entries
  refine Nat.le_trans (List.sum_le_card_nsmul _ maxMessageSize fun n hn => ?_)
    (Nat.mul_le_mul_right _ hlen)
  obtain ⟨e, he, rfl⟩ := List.mem_map.mp hn
  exact (h.sound e.1 e.2 (AList.mem_lookup_iff.mpr he)).buffered_le

/-! ## All datagrams -/

theorem length_of_parsed {data chunk : Bytes} {header : FragHeader}
    (h : parseFragment data = some (header, chunk)) :
    header.index < header.total ∧ header.total ≠ 0 ∧ chunk.length ≤ fragChunkSize := by
  unfold parseFragment at h
  split at h
  · cases h
  · rename_i hsize
    split at h
    · cases h
    · dsimp only at h
      split at h
      · cases h
      · rename_i hplace
        obtain ⟨rfl, rfl⟩ := Prod.mk.inj (Option.some.inj h)
        rw [not_or, UInt16.not_le] at hplace
        refine ⟨hplace.2, hplace.1, ?_⟩
        rw [List.length_drop]
        omega

theorem admissible_of_parsed {data chunk : Bytes} {header : FragHeader}
    (h : parseFragment data = some (header, chunk)) (hone : header.total ≠ 1)
    (hsize : oversized header = false) : Admissible header chunk := by
  obtain ⟨hindex, hzero, hchunk⟩ := length_of_parsed h
  refine ⟨hindex, ?_, Nat.le_of_not_lt (of_decide_eq_false hsize), hchunk⟩
  rw [Ne, ← UInt16.toNat_inj] at hone hzero
  have hone : header.total.toNat ≠ 1 := hone
  have hzero : header.total.toNat ≠ 0 := hzero
  omega

theorem Limited.gc {r : Receiver Peer} (h : Limited r.reassembly) (now : Instant) :
    Limited (gcReassembly r now).reassembly := by
  unfold gcReassembly
  split
  · exact h
  · exact h.sweep now

/-- **One datagram** keeps the map within its limits, and neither misses an entry nor
fails to assemble one. -/
theorem Limited.receive {r : Receiver Peer} (h : Limited r.reassembly) (gcNow now : Instant)
    (peer : Peer) (data : Bytes) :
    Limited (receiveDatagramEnd r gcNow now peer data).2.reassembly ∧
      (receiveDatagramEnd r gcNow now peer data).1 ≠ .fragment .disappeared ∧
      (receiveDatagramEnd r gcNow now peer data).1 ≠ .fragment .assemblyFailed := by
  unfold receiveDatagramEnd
  cases hparse : parseFragment data with
  | none => exact ⟨h, DatagramEnd.noConfusion, DatagramEnd.noConfusion⟩
  | some parsed =>
    obtain ⟨header, chunk⟩ := parsed
    dsimp only
    split
    · exact ⟨h, DatagramEnd.noConfusion, DatagramEnd.noConfusion⟩
    · rename_i hone
      split
      · exact ⟨h, DatagramEnd.noConfusion, DatagramEnd.noConfusion⟩
      · rename_i hsize
        have hok := admissible_of_parsed hparse hone (Bool.eq_false_iff.mpr hsize)
        have hgc := h.gc gcNow
        obtain ⟨-, hmap, hthere⟩ :=
          acceptFragmentEnd_eq (gcReassembly r gcNow).reassembly now peer header chunk
        refine ⟨?_, fun he => hthere (DatagramEnd.fragment.inj he),
          fun he => hgc.assembles hok (DatagramEnd.fragment.inj he)⟩
        dsimp only
        rw [hmap]
        exact hgc.acceptFragment hok

/-- A datagram is passed to `handle_datagram`, or entries are collected by somebody
else. -/
inductive Reception (Peer : Type) where
  | datagram (gcNow now : Instant) (peer : Peer) (data : Bytes)
  | gc (now : Instant)

def receive (r : Receiver Peer) : Reception Peer → Receiver Peer
  | .datagram gcNow now peer data => (receiveDatagramEnd r gcNow now peer data).2
  | .gc now => gcReassembly r now

/-- A node that has just started, after a sequence of datagrams. -/
def received (start : Instant) (rs : List (Reception Peer)) : Receiver Peer :=
  rs.foldl receive ⟨∅, start⟩

theorem limited_received (start : Instant) (rs : List (Reception Peer)) :
    Limited (received start rs).reassembly := by
  induction rs using List.reverseRecOn with
  | nil => exact limited_empty
  | append_singleton rs e ih =>
    rw [received, List.foldl_append]
    cases e with
    | datagram gcNow now peer data => exact (ih.receive gcNow now peer data).1
    | gc now => exact ih.gc now

/-- **Reassembly stays consistent and bounded.** After any datagrams of any peers and
any collections, the map has at most 64 entries and at most 8 of one peer; every entry
has between 2 and 187 slots, the number its total says, with chunks of at most 1400
bytes, and counts those that are filled, which are not all; and what is buffered is at
most 64 times the largest message. The next datagram does not find an entry gone, and
what it completes can be assembled. -/
theorem reassembly_consistent (start : Instant) (rs : List (Reception Peer)) :
    ((received start rs).reassembly.keys.length ≤ 64 ∧
      ∀ peer, ((received start rs).reassembly.keys.filter fun key => key.1 = peer).length ≤ 8) ∧
    (∀ key e, (received start rs).reassembly.lookup key = some e →
      2 ≤ e.total.toNat ∧ e.total.toNat ≤ 187 ∧ e.chunks.length = e.total.toNat ∧
      (∀ chunk, some chunk ∈ e.chunks → chunk.length ≤ 1400) ∧
      e.received.toNat = filled e.chunks ∧ e.received < e.total) ∧
    bufferedBytes (received start rs).reassembly ≤ 64 * maxMessageSize ∧
    ∀ gcNow now peer data,
      (receiveDatagramEnd (received start rs) gcNow now peer data).1 ≠ .fragment .disappeared ∧
      (receiveDatagramEnd (received start rs) gcNow now peer data).1 ≠
        .fragment .assemblyFailed := by
  have hlimited := limited_received start rs
  refine ⟨⟨hlimited.entries, hlimited.perPeer⟩, fun key e he => ?_, hlimited.bufferedBytes_le,
    fun gcNow now peer data => (hlimited.receive gcNow now peer data).2⟩
  have hsound := hlimited.sound key e he
  have hfits := hsound.fits
  rw [fragChunkSize, maxMessageSize] at hfits
  exact ⟨hsound.several, by omega, hsound.slots, hsound.small, hsound.received, hsound.missing⟩

end

end AuthKademlia.Properties
