import AuthKademlia.Properties.Fragments
import AuthKademlia.Properties.Reassembly
import AuthKademlia.Protocol.Wire

/-! # Frames that arrive

Datagrams of any peers arrive in any order, with any losses and copies, and the workers
sweep the reassembly map in between. One peer sends nothing but the datagrams of its own
frames, under an id for each; the others send anything. What is read as a frame of this
peer is then one it sent, and once the first datagram of a frame has found a place, the
others cannot keep the frame from arriving. -/
namespace AuthKademlia.Properties
open AuthKademlia.Fragmentation AuthKademlia.Utils AuthKademlia.Storage AuthKademlia.Protocol
open AuthKademlia.Protocol.InProgress AuthKademlia.Protocol.Wire

variable {Peer : Type} [DecidableEq Peer]

/-! ## What a reception leaves alone -/

theorem lookup_gc {r : Receiver Peer} {now : Instant} {key : Peer × UInt32} {e : ReassemblyEntry}
    (h : (gcReassembly r now).reassembly.lookup key = some e) :
    r.reassembly.lookup key = some e := by
  unfold gcReassembly at h
  split at h
  · exact h
  · exact (lookup_sweep.mp h).1

private theorem sub_lt_ttl {created now ttl : Nat} (hpos : 0 < ttl) (h : now < created + ttl) :
    now - created < ttl := by omega

theorem lookup_gc_young {r : Receiver Peer} {now : Instant} {key : Peer × UInt32}
    {e : ReassemblyEntry} (h : r.reassembly.lookup key = some e)
    (hyoung : now < e.createdAt + reassemblyTtl) :
    (gcReassembly r now).reassembly.lookup key = some e := by
  unfold gcReassembly
  split
  · exact h
  · exact lookup_sweep.mpr ⟨h, sub_lt_ttl (by decide) hyoung⟩

theorem lookup_acceptFragment_ne {map : ReassemblyMap Peer} {now : Instant} {peer : Peer}
    {header : FragHeader} {chunk : Bytes} {key : Peer × UInt32}
    (hne : key ≠ (peer, header.fragId)) :
    (acceptFragment map now peer header chunk).2.lookup key = map.lookup key := by
  unfold acceptFragment
  split
  · rfl
  · split
    · exact AList.lookup_erase_ne hne
    · dsimp only
      split
      · exact AList.lookup_erase_ne hne
      · exact AList.lookup_insert_ne hne

theorem lookup_receive_ne {r : Receiver Peer} {gcNow now : Instant} {peer : Peer} {data : Bytes}
    {key : Peer × UInt32}
    (hne : ∀ header chunk, parseFragment data = some (header, chunk) →
      key ≠ (peer, header.fragId)) :
    (receiveDatagramEnd r gcNow now peer data).2.reassembly.lookup key =
        r.reassembly.lookup key ∨
      (receiveDatagramEnd r gcNow now peer data).2.reassembly.lookup key =
        (gcReassembly r gcNow).reassembly.lookup key := by
  unfold receiveDatagramEnd
  cases hparse : parseFragment data with
  | none => exact Or.inl rfl
  | some parsed =>
    obtain ⟨header, chunk⟩ := parsed
    dsimp only
    split
    · exact Or.inl rfl
    · split
      · exact Or.inl rfl
      · right
        obtain ⟨-, hmap, -⟩ :=
          acceptFragmentEnd_eq (gcReassembly r gcNow).reassembly now peer header chunk
        dsimp only
        rw [hmap]
        exact lookup_acceptFragment_ne (hne header chunk hparse)

theorem collects_of_accepted {map : ReassemblyMap Peer} {key : Peer × UInt32} {ps : List Bytes}
    {i : Nat} {res : Option Bytes × ReassemblyMap Peer} {now : Instant}
    (h : Accepted map now key ps i res)
    (hmap : ∀ e, map.lookup key = some e → e.Collects ps) {e : ReassemblyEntry}
    (he : res.2.lookup key = some e) : e.Collects ps := by
  cases h with
  | refused _ _ => exact hmap e he
  | completed _ =>
    have hnone : (map.erase key).lookup key = none := AList.lookup_erase ..
    cases hnone.symm.trans he
  | kept e' hcollects _ _ =>
    have hsome : (map.insert key e').lookup key = some e' := AList.lookup_insert ..
    exact Option.some.inj (hsome.symm.trans he) ▸ hcollects

theorem payload_of_accepted {map : ReassemblyMap Peer} {key : Peer × UInt32} {ps : List Bytes}
    {i : Nat} {res : Option Bytes × ReassemblyMap Peer} {now : Instant}
    (h : Accepted map now key ps i res)
    {payload : Bytes} (hp : payload ∈ res.1) : payload = ps.flatten := by
  cases h with
  | refused _ _ => cases hp
  | completed _ => exact (Option.some.inj hp).symm
  | kept _ _ _ _ => cases hp

theorem kept_of_accepted {map : ReassemblyMap Peer} {key : Peer × UInt32} {ps : List Bytes}
    {i : Nat} {res : Option Bytes × ReassemblyMap Peer} {now : Instant}
    (h : Accepted map now key ps i res)
    (hroom : map.lookup key = none → hasRoom map key.1 = true) :
    res.1 = some ps.flatten ∨
      ∃ e, res.2.lookup key = some e ∧
        (map.lookup key = none ∧ e.createdAt = now ∨
          ∃ old, map.lookup key = some old ∧ e.createdAt = old.createdAt) ∧
        ∀ j, e.Has j ↔ HasChunk map key j ∨ j = i := by
  cases h with
  | refused hnone hfull => cases (hroom hnone).symm.trans hfull
  | completed _ => exact Or.inl rfl
  | kept e _ hcreated hhas => exact Or.inr ⟨e, AList.lookup_insert .., hcreated, hhas⟩

/-! ## Frames on their way -/

/-- A frame that a node sends, and the id of its fragments. -/
structure Outgoing [FrameCodec] where
  fragId : UInt32
  frame : Frame
  wellFormed : WellFormed frame
  fits : (serialize frame).length ≤ maxMessageSize

namespace Outgoing
variable [FrameCodec] (o : Outgoing)

def payload : Bytes := serialize o.frame

def datagrams : List Bytes := encodeFragments o.fragId o.payload

/-- They are the datagrams that `encode_frame` makes. -/
theorem encodeFrame_eq : encodeFrame o.fragId (serialize o.frame) = some o.datagrams :=
  if_neg (Nat.not_lt.mpr o.fits)

theorem read_payload : deserialize o.payload = some o.frame := deserialize_serialize o.wellFormed

theorem payload_ne_nil : o.payload ≠ [] := FrameCodec.ne_nil o.frame

theorem mem_datagrams {d : Bytes} :
    d ∈ o.datagrams ↔ ∃ i < (parts o.payload).length, d = fragment o.fragId o.payload i := by
  rw [datagrams, encodeFragments_eq o.payload_ne_nil]
  simp only [List.mem_map, List.mem_range, eq_comm]

theorem parsed {i : Nat} (hi : i < (parts o.payload).length) :
    ∃ header chunk, parseFragment (fragment o.fragId o.payload i) = some (header, chunk) ∧
      header.fragId = o.fragId ∧ header.total.toNat = (parts o.payload).length ∧
      header.index.toNat = i ∧ (parts o.payload)[i]? = some chunk :=
  parseFragment_fragment o.fragId hi (Nat.lt_of_le_of_lt (length_parts_le o.fits) (by decide))

end Outgoing

section
variable [FrameCodec]

/-- The frames that a node reads along a sequence of receptions, with their senders. -/
def framesIn : Receiver Peer → List (Reception Peer) → List (Peer × Frame)
  | _, [] => []
  | r, .gc now :: rs => framesIn (gcReassembly r now) rs
  | r, .datagram gcNow now peer data :: rs =>
    let (how, r) := receiveDatagramEnd r gcNow now peer data
    ((how.payload.bind deserialize).map fun f => (peer, f)).toList ++ framesIn r rs

/-- What comes from `peer` is of one of the frames. -/
def Says (peer : Peer) (sent : List Outgoing) : Reception Peer → Prop
  | .datagram _ _ p data => p = peer → ∃ o ∈ sent, data ∈ o.datagrams
  | .gc _ => True

/-- Different frames have different ids. -/
def OwnIds (sent : List Outgoing) : Prop :=
  ∀ o ∈ sent, ∀ o' ∈ sent, o.fragId = o'.fragId → o.frame = o'.frame

/-- The entries of the peer hold chunks of its frames. -/
def Faithful (peer : Peer) (sent : List Outgoing) (map : ReassemblyMap Peer) : Prop :=
  ∀ o ∈ sent, ∀ e, map.lookup (peer, o.fragId) = some e → e.Collects (parts o.payload)

/-! ## The peer's own datagrams -/

variable {peer : Peer} {sent : List Outgoing} {o : Outgoing} {r : Receiver Peer}
  {gcNow now : Instant} {data : Bytes}

/-- What one of its own datagrams does for a frame. -/
inductive OwnDatagram (o : Outgoing) (peer : Peer) (r : Receiver Peer) (gcNow now : Instant)
    (data : Bytes) : DatagramEnd × Receiver Peer → Prop
  | whole {how} (hhow : how.payload = some o.payload) :
      OwnDatagram o peer r gcNow now data (how, r)
  | refused (hsize : maxMessageSize < (parts o.payload).length * fragChunkSize) {how}
      (hhow : how.payload = none) : OwnDatagram o peer r gcNow now data (how, r)
  | fragment (i : Nat) (hi : i < (parts o.payload).length)
      (hdata : data = fragment o.fragId o.payload i) {out}
      (hout : Accepted (gcReassembly r gcNow).reassembly now (peer, o.fragId) (parts o.payload) i
        (out.1.payload, out.2.reassembly)) :
      OwnDatagram o peer r gcNow now data out

theorem ownDatagram (hdata : data ∈ o.datagrams)
    (hmap : ∀ e, r.reassembly.lookup (peer, o.fragId) = some e → e.Collects (parts o.payload)) :
    OwnDatagram o peer r gcNow now data (receiveDatagramEnd r gcNow now peer data) := by
  obtain ⟨i, hi, rfl⟩ := o.mem_datagrams.mp hdata
  obtain ⟨header, chunk, hparse, hid, htotal, hindex, hchunk⟩ := o.parsed hi
  unfold receiveDatagramEnd
  simp only [hparse]
  split
  · -- the only chunk is the frame
    rename_i hone
    rw [hone, UInt16.toNat_one] at htotal
    obtain ⟨c, hc⟩ := List.length_eq_one_iff.mp htotal.symm
    have hflat := flatten_parts o.payload
    obtain rfl : i = 0 := by omega
    rw [hc] at hchunk hflat
    obtain rfl := Option.some.inj hchunk
    refine .whole (congrArg some ?_)
    rw [← hflat, List.flatten_singleton]
  · split
    · rename_i hsize
      refine .refused ?_ rfl
      rw [← htotal]
      exact of_decide_eq_true hsize
    · refine .fragment i hi rfl ?_
      obtain ⟨hpayload, hmap', -⟩ :=
        acceptFragmentEnd_eq (gcReassembly r gcNow).reassembly now peer header chunk
      have hspec : Accepted (gcReassembly r gcNow).reassembly now (peer, header.fragId)
          (parts o.payload) header.index.toNat
          (acceptFragment (gcReassembly r gcNow).reassembly now peer header chunk) :=
        acceptFragment_spec (by rw [hid]; exact fun e he => hmap e (lookup_gc he)) htotal
          (by rw [hindex]; exact hchunk)
      rw [hid, hindex] at hspec
      dsimp only [DatagramEnd.payload]
      rw [hpayload, hmap']
      exact hspec

omit [DecidableEq Peer] in
/-- A datagram that is not of the frame `o`, from anybody, has another key. -/
theorem key_ne (hown : OwnIds sent) (ho : o ∈ sent) {p : Peer}
    (hsaid : Says peer sent (.datagram gcNow now p data))
    (hnot : p = peer → data ∉ o.datagrams) {header : FragHeader} {chunk : Bytes}
    (hparse : parseFragment data = some (header, chunk)) :
    (peer, o.fragId) ≠ (p, header.fragId) := by
  intro hkey
  obtain ⟨rfl, hid⟩ := Prod.mk.inj hkey
  obtain ⟨o', ho', hdata⟩ := hsaid rfl
  obtain ⟨i, hi, rfl⟩ := o'.mem_datagrams.mp hdata
  obtain ⟨header', chunk', hparse', hid', -, -, -⟩ := o'.parsed hi
  obtain ⟨rfl, -⟩ := Prod.mk.inj (Option.some.inj (hparse.symm.trans hparse'))
  have hsame := hown o ho o' ho' (hid.trans hid')
  refine hnot rfl ?_
  rw [Outgoing.datagrams, Outgoing.payload, hsame, hid, hid']
  exact hdata

/-! ## Whatever is read was sent -/

/-- **One datagram** keeps the entries of the peer faithful, and what comes out as a frame
of the peer is one it sent. -/
theorem Faithful.datagram (hown : OwnIds sent) (h : Faithful peer sent r.reassembly) {p : Peer}
    (hsaid : Says peer sent (.datagram gcNow now p data)) :
    Faithful peer sent (receiveDatagramEnd r gcNow now p data).2.reassembly ∧
      (p = peer → ∀ payload ∈ (receiveDatagramEnd r gcNow now p data).1.payload,
        ∃ o ∈ sent, payload = o.payload) := by
  constructor
  · intro o ho e he
    by_cases hmine : p = peer ∧ data ∈ o.datagrams
    · obtain ⟨rfl, hdata⟩ := hmine
      have hout : OwnDatagram o p r gcNow now data _ := ownDatagram hdata (h o ho)
      generalize receiveDatagramEnd r gcNow now p data = out at hout he
      cases hout with
      | whole hhow => exact h o ho e he
      | refused hsize hhow => exact h o ho e he
      | fragment i hi hdata hout =>
        exact collects_of_accepted hout (fun e he => h o ho e (lookup_gc he)) he
    · have hnot : p = peer → data ∉ o.datagrams := fun hp hdata => hmine ⟨hp, hdata⟩
      rcases lookup_receive_ne fun header chunk => key_ne hown ho hsaid hnot with hl | hl
      · exact h o ho e (hl ▸ he)
      · exact h o ho e (lookup_gc (hl ▸ he))
  · rintro rfl payload hpayload
    obtain ⟨o, ho, hdata⟩ := hsaid rfl
    refine ⟨o, ho, ?_⟩
    have hout : OwnDatagram o p r gcNow now data _ := ownDatagram hdata (h o ho)
    generalize receiveDatagramEnd r gcNow now p data = out at hout hpayload
    cases hout with
    | whole hhow => exact (Option.some.inj (hhow.symm.trans hpayload)).symm
    | refused hsize hhow => cases hhow.symm.trans hpayload
    | fragment i hi hdata hout =>
      rw [payload_of_accepted hout hpayload, flatten_parts]

theorem framesIn_faithful (hown : OwnIds sent) {rs : List (Reception Peer)} :
    ∀ {r : Receiver Peer}, Faithful peer sent r.reassembly → (∀ e ∈ rs, Says peer sent e) →
      ∀ f, (peer, f) ∈ framesIn r rs → ∃ o ∈ sent, o.frame = f := by
  induction rs with
  | nil => intro r _ _ f hf; cases hf
  | cons e rs ih =>
    intro r h hsaid f hf
    have hrest := fun e he => hsaid e (List.mem_cons_of_mem _ he)
    cases e with
    | gc now => exact ih (fun o ho e he => h o ho e (lookup_gc he)) hrest f hf
    | datagram gcNow now p data =>
      obtain ⟨hnext, hread⟩ := h.datagram hown (hsaid _ List.mem_cons_self)
      rcases List.mem_append.mp hf with hf | hf
      · obtain ⟨f', hf', he⟩ := Option.map_eq_some_iff.mp (Option.mem_toList.mp hf)
        obtain ⟨rfl, rfl⟩ := Prod.mk.inj he
        obtain ⟨payload, hpayload, hf'⟩ := Option.bind_eq_some_iff.mp hf'
        obtain ⟨o, ho, rfl⟩ := hread rfl payload hpayload
        exact ⟨o, ho, Option.some.inj (o.read_payload.symm.trans hf')⟩
      · exact ih hnext hrest f hf

theorem faithful_empty (peer : Peer) (sent : List Outgoing) : Faithful peer sent ∅ := by
  intro o _ e he
  cases he

/-- **A frame that is read as one of a peer was sent by this peer**, whatever the other
peers send and in whatever order datagrams arrive, get lost, come again and are swept. -/
theorem frames_come_from_their_sender (peer : Peer) (sent : List Outgoing) (hown : OwnIds sent)
    (start : Instant) (rs : List (Reception Peer)) (hsaid : ∀ e ∈ rs, Says peer sent e)
    (f : Frame) (hf : (peer, f) ∈ framesIn ⟨∅, start⟩ rs) : ∃ o ∈ sent, o.frame = f :=
  framesIn_faithful hown (faithful_empty peer sent) hsaid f hf

end

/-! ## Long records -/

/-- How bincode writes two messages with a long record. -/
def longTable : MessageTable where
  entries := [(.findValueHit fives, [12, 0, 0, 0] ++ [121, 5, 0, 0, 0, 0, 0, 0] ++ fives),
    (.record (.store (filledId 2) (filledId 3) fives), [2, 0, 0, 0] ++ (filledId 2).bytes ++
      (filledId 3).bytes ++ [121, 5, 0, 0, 0, 0, 0, 0] ++ fives),
    (.received, [16, 0, 0, 0])]
  messages := by simp
  bytes := by simp
  received := by simp

section
local instance longCodec : FrameCodec := longTable.codec

theorem length_serialize_findValueHit (msgId : Nat) (isRequest : Bool) :
    (serialize ⟨msgId, isRequest, .findValueHit fives⟩).length = 1418 := by
  rw [show serialize ⟨msgId, isRequest, .findValueHit fives⟩ = _ from
    longTable.serialize_of_mem List.mem_cons_self]
  simp [fourBytes, length_fives]

def longFrame (fragId : UInt32) (msgId : Nat) (h : msgId < 2 ^ 32) : Outgoing where
  fragId
  frame := ⟨msgId, false, .findValueHit fives⟩
  wellFormed := ⟨h, by simp [Sendable, longTable]⟩
  fits := by
    rw [length_serialize_findValueHit]
    decide

theorem length_parts_longFrame (fragId : UInt32) (msgId : Nat) (h : msgId < 2 ^ 32) :
    (parts (longFrame fragId msgId h).payload).length = 2 := by
  rw [length_parts, Outgoing.payload, longFrame, length_serialize_findValueHit]
  rfl

theorem fragment_mem_longFrame (fragId : UInt32) (msgId : Nat) (h : msgId < 2 ^ 32) {i : Nat}
    (hi : i < 2) :
    fragment fragId (longFrame fragId msgId h).payload i ∈ (longFrame fragId msgId h).datagrams :=
  (Outgoing.mem_datagrams _).mpr ⟨i, by rw [length_parts_longFrame]; exact hi, rfl⟩

def hit : Outgoing := longFrame 9 2 (by decide)

/-- The same record for another request. One of its datagrams is lost. -/
def lostHit : Outgoing := longFrame 10 3 (by decide)

theorem hit_fragment {i : Nat} (hi : i < 2) : fragment 9 hit.payload i ∈ hit.datagrams :=
  fragment_mem_longFrame 9 2 (by decide) hi

theorem lostHit_fragment : fragment 10 lostHit.payload 0 ∈ lostHit.datagrams :=
  fragment_mem_longFrame 10 3 (by decide) (by decide)

theorem ownIds_hits : OwnIds [lostHit, hit] := by
  intro o ho o' ho' hid
  simp only [List.mem_cons, List.not_mem_nil, or_false] at ho ho'
  rcases ho with rfl | rfl <;> rcases ho' with rfl | rfl
  · rfl
  · cases hid
  · cases hid
  · rfl

/-- Both frames, with copies, and somebody else who uses the same id. -/
def mixedDatagrams : List (Reception Nat) :=
  [.datagram 0 0 1 [75, 65], .datagram 0 0 0 (fragment 9 hit.payload 1),
    .datagram 1 1 0 (fragment 10 lostHit.payload 0), .gc 2,
    .datagram 2 2 0 (fragment 9 hit.payload 1), .datagram 3 3 1 (fragment 9 lostHit.payload 0),
    .datagram 4 4 0 (fragment 9 hit.payload 0), .datagram 5 5 0 (fragment 9 hit.payload 0)]

theorem frames_come_from_their_sender_hits :
    framesIn ⟨∅, 0⟩ mixedDatagrams = [(0, hit.frame)] ∧
      ∃ o ∈ [lostHit, hit], o.frame = ⟨2, false, .findValueHit fives⟩ := by
  have hread : framesIn ⟨∅, 0⟩ mixedDatagrams = [(0, hit.frame)] := by decide +kernel
  refine ⟨hread,
    frames_come_from_their_sender 0 [lostHit, hit] ownIds_hits 0 mixedDatagrams ?_ _ ?_⟩
  · simp only [mixedDatagrams, List.forall_mem_cons, Says, List.not_mem_nil, IsEmpty.forall_iff,
      implies_true, and_true]
    refine ⟨fun h => absurd h (by decide), fun _ => ⟨hit, ?_, hit_fragment (by decide)⟩,
      fun _ => ⟨lostHit, ?_, lostHit_fragment⟩, trivial,
      fun _ => ⟨hit, ?_, hit_fragment (by decide)⟩, fun h => absurd h (by decide),
      fun _ => ⟨hit, ?_, hit_fragment (by decide)⟩,
      fun _ => ⟨hit, ?_, hit_fragment (by decide)⟩⟩ <;> simp
  · rw [hread]
    exact List.mem_cons_self

end

/-! ## What has a place arrives -/

section
variable [FrameCodec] {peer : Peer} {sent : List Outgoing} {o : Outgoing} {r : Receiver Peer}
  {gcNow now : Instant} {data : Bytes}

/-- The clock that `gc_reassembly` reads. -/
def Reception.gcTime : Reception Peer → Instant
  | .datagram gcNow _ _ _ => gcNow
  | .gc now => now

/-- The frame has an entry since `since`. -/
def InReassembly (peer : Peer) (o : Outgoing) (since : Instant) (r : Receiver Peer) : Prop :=
  ∃ e, r.reassembly.lookup (peer, o.fragId) = some e ∧ e.createdAt = since

/-- The frames that a reception yields. -/
def framesOf (r : Receiver Peer) (e : Reception Peer) : List (Peer × Frame) := framesIn r [e]

theorem framesIn_cons (r : Receiver Peer) (e : Reception Peer) (rs : List (Reception Peer)) :
    framesIn r (e :: rs) = framesOf r e ++ framesIn (receive r e) rs := by
  cases e with
  | gc now => rfl
  | datagram gcNow now p data =>
    simp only [framesOf, framesIn, List.append_nil, receive]

theorem framesIn_append (rs rs' : List (Reception Peer)) : ∀ r : Receiver Peer,
    framesIn r (rs ++ rs') = framesIn r rs ++ framesIn (rs.foldl receive r) rs' := by
  induction rs with
  | nil => exact fun _ => rfl
  | cons e rs ih =>
    intro r
    rw [List.cons_append, framesIn_cons, framesIn_cons, ih, List.append_assoc, List.foldl_cons]

theorem mem_framesOf (hpayload : (receiveDatagramEnd r gcNow now peer data).1.payload =
    some o.payload) : (peer, o.frame) ∈ framesOf r (.datagram gcNow now peer data) := by
  simp only [framesOf, framesIn, hpayload, Option.bind_some, o.read_payload, Option.map_some]
  exact List.mem_cons_self

theorem Faithful.receive (hown : OwnIds sent) (h : Faithful peer sent r.reassembly)
    {e : Reception Peer} (hsaid : Says peer sent e) :
    Faithful peer sent (receive r e).reassembly := by
  cases e with
  | gc now => exact fun o ho e he => h o ho e (lookup_gc he)
  | datagram gcNow now p data => exact (h.datagram hown hsaid).1

theorem lookup_receive (hown : OwnIds sent) (ho : o ∈ sent) {e : Reception Peer}
    (hsaid : Says peer sent e)
    (hnot : ∀ gcNow now data, e = .datagram gcNow now peer data → data ∉ o.datagrams) :
    (receive r e).reassembly.lookup (peer, o.fragId) = r.reassembly.lookup (peer, o.fragId) ∨
      (receive r e).reassembly.lookup (peer, o.fragId) =
        (gcReassembly r e.gcTime).reassembly.lookup (peer, o.fragId) := by
  cases e with
  | gc now => exact Or.inr rfl
  | datagram gcNow now p data =>
    refine lookup_receive_ne fun header chunk => key_ne hown ho hsaid ?_
    rintro rfl
    exact hnot gcNow now data rfl

theorem fragment_index {i j : Nat} (hi : i < (parts o.payload).length)
    (hj : j < (parts o.payload).length)
    (h : fragment o.fragId o.payload i = fragment o.fragId o.payload j) : i = j := by
  obtain ⟨header, chunk, hparse, -, -, hindex, -⟩ := o.parsed hi
  obtain ⟨header', chunk', hparse', -, -, hindex', -⟩ := o.parsed hj
  rw [h, hparse'] at hparse
  obtain ⟨rfl, -⟩ := Prod.mk.inj (Option.some.inj hparse)
  rw [← hindex, hindex']

/-- A datagram of a frame that is not too large completes it or is kept, if there is a
place for it. -/
theorem ownDatagram_progress {out : DatagramEnd × Receiver Peer}
    (h : OwnDatagram o peer r gcNow now data out)
    (hsize : (parts o.payload).length * fragChunkSize ≤ maxMessageSize)
    (hroom : (gcReassembly r gcNow).reassembly.lookup (peer, o.fragId) = none →
      hasRoom (gcReassembly r gcNow).reassembly peer = true) :
    out.1.payload = some o.payload ∨
      ∃ i < (parts o.payload).length, data = fragment o.fragId o.payload i ∧
        ∃ e, out.2.reassembly.lookup (peer, o.fragId) = some e ∧
          ((gcReassembly r gcNow).reassembly.lookup (peer, o.fragId) = none ∧ e.createdAt = now ∨
            ∃ old, (gcReassembly r gcNow).reassembly.lookup (peer, o.fragId) = some old ∧
              e.createdAt = old.createdAt) ∧
          ∀ j, e.Has j ↔ HasChunk (gcReassembly r gcNow).reassembly (peer, o.fragId) j ∨ j = i := by
  cases h with
  | whole hhow => exact Or.inl hhow
  | refused hlarge hhow => omega
  | fragment i hi hdata hout =>
    rcases kept_of_accepted hout hroom with hdone | hkept
    · rw [flatten_parts] at hdone
      exact Or.inl hdone
    · exact Or.inr ⟨i, hi, hdata, hkept⟩

/-- **One reception** yields the frame, or its entry keeps its chunks, with one more if the
reception is of the frame. -/
theorem InReassembly.receive (hown : OwnIds sent) (ho : o ∈ sent)
    (hsize : (parts o.payload).length * fragChunkSize ≤ maxMessageSize) {since : Instant}
    (hfaithful : Faithful peer sent r.reassembly) (h : InReassembly peer o since r)
    {e : Reception Peer} (hsaid : Says peer sent e) (htime : e.gcTime < since + reassemblyTtl) :
    (peer, o.frame) ∈ framesOf r e ∨
      InReassembly peer o since (receive r e) ∧
      ∀ j < (parts o.payload).length, HasChunk r.reassembly (peer, o.fragId) j ∨
        (∃ gcNow now, e = .datagram gcNow now peer (fragment o.fragId o.payload j)) →
        HasChunk (Properties.receive r e).reassembly (peer, o.fragId) j := by
  obtain ⟨entry, hentry, rfl⟩ := h
  have hyoung := lookup_gc_young hentry htime
  by_cases hmine : ∃ gcNow now data, e = .datagram gcNow now peer data ∧ data ∈ o.datagrams
  · obtain ⟨gcNow, now, data, rfl, hdata⟩ := hmine
    have hout : OwnDatagram o peer r gcNow now data _ := ownDatagram hdata (hfaithful o ho)
    have hroom : (gcReassembly r gcNow).reassembly.lookup (peer, o.fragId) = none →
        hasRoom (gcReassembly r gcNow).reassembly peer = true := fun hnone => by
      cases hyoung.symm.trans hnone
    rcases ownDatagram_progress hout hsize hroom with
      hdone | ⟨i, hi, rfl, e', hafter, hcreated, hhas⟩
    · exact Or.inl (mem_framesOf hdone)
    · right
      refine ⟨⟨e', hafter, ?_⟩, ?_⟩
      · rcases hcreated with ⟨hnone, -⟩ | ⟨old, hold, hc⟩
        · cases hyoung.symm.trans hnone
        · rw [hc, Option.some.inj (hyoung.symm.trans hold)]
      · intro j hj hchunk
        refine ⟨e', hafter, (hhas j).mpr ?_⟩
        rcases hchunk with ⟨entry', hentry', hj'⟩ | ⟨gcNow', now', he⟩
        · obtain rfl := Option.some.inj (hentry.symm.trans hentry')
          exact Or.inl ⟨entry, hyoung, hj'⟩
        · injection he with _ _ _ hfrag
          exact Or.inr (fragment_index hj hi hfrag.symm)
  · right
    have hkept : (Properties.receive r e).reassembly.lookup (peer, o.fragId) = some entry := by
      rcases lookup_receive (r := r) hown ho hsaid fun gcNow now data he hdata =>
        hmine ⟨gcNow, now, data, he, hdata⟩ with hl | hl
      · rw [hl, hentry]
      · rw [hl, hyoung]
    refine ⟨⟨entry, hkept, rfl⟩, ?_⟩
    rintro j hj (⟨entry', hentry', hhas⟩ | ⟨gcNow, now, rfl⟩)
    · obtain rfl := Option.some.inj (hentry.symm.trans hentry')
      exact ⟨entry, hkept, hhas⟩
    · exact absurd ⟨gcNow, now, _, rfl, o.mem_datagrams.mpr ⟨j, hj, rfl⟩⟩ hmine

/-- **A frame in reassembly arrives** if the datagrams that are missing do. -/
theorem InReassembly.arrives (hown : OwnIds sent) (ho : o ∈ sent)
    (hsize : (parts o.payload).length * fragChunkSize ≤ maxMessageSize) {since : Instant}
    {rs : List (Reception Peer)} :
    ∀ {r : Receiver Peer}, Faithful peer sent r.reassembly → InReassembly peer o since r →
      (∀ e ∈ rs, Says peer sent e) → (∀ e ∈ rs, e.gcTime < since + reassemblyTtl) →
      (∀ j < (parts o.payload).length, HasChunk r.reassembly (peer, o.fragId) j ∨
        ∃ gcNow now, .datagram gcNow now peer (fragment o.fragId o.payload j) ∈ rs) →
      (peer, o.frame) ∈ framesIn r rs := by
  induction rs with
  | nil =>
    -- nothing is left to arrive, but an entry always misses a chunk
    rintro r hfaithful ⟨entry, hentry, -⟩ - - hall
    obtain ⟨j, hj, hmissing⟩ := (hfaithful o ho entry hentry).exists_missing
    rcases hall j hj with ⟨entry', hentry', hhas⟩ | ⟨gcNow, now, hmem⟩
    · obtain rfl := Option.some.inj (hentry.symm.trans hentry')
      exact absurd hhas hmissing
    · cases hmem
  | cons e rs ih =>
    intro r hfaithful h hsaid htimes hall
    have he := hsaid e List.mem_cons_self
    rw [framesIn_cons]
    rcases h.receive hown ho hsize hfaithful he (htimes e List.mem_cons_self) with
      hout | ⟨hnext, hkeeps⟩
    · exact List.mem_append_left _ hout
    · refine List.mem_append_right _ (ih (hfaithful.receive hown he) hnext
        (fun e he => hsaid e (List.mem_cons_of_mem _ he))
        (fun e he => htimes e (List.mem_cons_of_mem _ he)) fun j hj => ?_)
      rcases hall j hj with hin | ⟨gcNow, now, hmem⟩
      · exact Or.inl (hkeeps j hj (Or.inl hin))
      · rcases List.mem_cons.mp hmem with rfl | hmem
        · exact Or.inl (hkeeps j hj (Or.inr ⟨gcNow, now, rfl⟩))
        · exact Or.inr ⟨gcNow, now, hmem⟩

theorem lookup_before (hown : OwnIds sent) (ho : o ∈ sent) (start : Instant)
    {rs : List (Reception Peer)} (hsaid : ∀ e ∈ rs, Says peer sent e)
    (hnot : ∀ gcNow now data, .datagram gcNow now peer data ∈ rs → data ∉ o.datagrams) :
    Faithful peer sent (received start rs).reassembly ∧
      (received start rs).reassembly.lookup (peer, o.fragId) = none := by
  induction rs using List.reverseRecOn with
  | nil => exact ⟨faithful_empty peer sent, rfl⟩
  | append_singleton rs e ih =>
    obtain ⟨hfaithful, hnone⟩ := ih (fun e he => hsaid e (List.mem_append_left _ he))
      fun gcNow now data h => hnot gcNow now data (List.mem_append_left _ h)
    have he := hsaid e (List.mem_append_right _ List.mem_cons_self)
    rw [received, List.foldl_append]
    refine ⟨hfaithful.receive hown he, ?_⟩
    rcases lookup_receive (r := received start rs) hown ho he fun gcNow now data hd =>
      hnot gcNow now data (List.mem_append_right _ (by rw [hd]; exact List.mem_cons_self)) with
      hl | hl
    · exact hl.trans hnone
    · refine hl.trans (Option.eq_none_iff_forall_ne_some.mpr fun e he => ?_)
      cases hnone.symm.trans (lookup_gc he)

/-- All datagrams of a frame arrive. The first of them finds a place, and the others come
within the time to live of its entry. -/
structure Delivered (peer : Peer) (sent : List Outgoing) (o : Outgoing) (start : Instant)
    (before : List (Reception Peer)) (gcNow now : Instant) (d : Bytes)
    (rest : List (Reception Peer)) : Prop where
  mine : d ∈ o.datagrams
  said : ∀ e ∈ before ++ rest, Says peer sent e
  first : ∀ gcNow now data, .datagram gcNow now peer data ∈ before → data ∉ o.datagrams
  room : hasRoom (gcReassembly (received start before) gcNow).reassembly peer = true
  times : ∀ e ∈ rest, e.gcTime < now + reassemblyTtl
  all : ∀ d' ∈ o.datagrams, d' = d ∨ ∃ gcNow now, .datagram gcNow now peer d' ∈ rest

theorem Delivered.arrives {start : Instant} {before rest : List (Reception Peer)} {d : Bytes}
    (h : Delivered peer sent o start before gcNow now d rest) (hown : OwnIds sent) (ho : o ∈ sent)
    (hsize : (parts o.payload).length * fragChunkSize ≤ maxMessageSize) :
    (peer, o.frame) ∈ framesIn ⟨∅, start⟩ (before ++ .datagram gcNow now peer d :: rest) := by
  obtain ⟨hd, hsaid, hfirst, hroom, htimes, hall⟩ := h
  obtain ⟨hfaithful, hnone⟩ := lookup_before hown ho start
    (fun e he => hsaid e (List.mem_append_left _ he)) hfirst
  rw [framesIn_append, framesIn_cons]
  change _ ∈ _ ++ (framesOf (received start before) _ ++
    framesIn (receive (received start before) _) _)
  refine List.mem_append_right _ ?_
  generalize received start before = r at *
  have hmine : Says peer sent (.datagram gcNow now peer d) := fun _ => ⟨o, ho, hd⟩
  have hout : OwnDatagram o peer r gcNow now d _ := ownDatagram hd (hfaithful o ho)
  rcases ownDatagram_progress hout hsize fun _ => hroom with
    hdone | ⟨i, hi, rfl, e, hafter, hcreated, hhas⟩
  · exact List.mem_append_left _ (mem_framesOf hdone)
  · have hsince : e.createdAt = now := by
      rcases hcreated with ⟨-, hc⟩ | ⟨old, hold, -⟩
      · exact hc
      · cases hnone.symm.trans (lookup_gc hold)
    refine List.mem_append_right _ (InReassembly.arrives hown ho hsize
      (hfaithful.receive hown hmine) ⟨e, hafter, hsince⟩
      (fun e he => hsaid e (List.mem_append_right _ he)) htimes fun j hj => ?_)
    rcases hall _ (o.mem_datagrams.mpr ⟨j, hj, rfl⟩) with hsame | hmem
    · exact Or.inl ⟨e, hafter, (hhas j).mpr (Or.inr (fragment_index hj hi hsame))⟩
    · exact Or.inr hmem

/-- **Once its first datagram has found a place, a frame arrives**, whatever the other peers
send meanwhile, if the rest of its datagrams come within the time to live of its entry. -/
theorem admitted_frame_arrives (peer : Peer) (sent : List Outgoing) (hown : OwnIds sent)
    (o : Outgoing) (ho : o ∈ sent)
    (hsize : (serialize o.frame).length ≤ maxMessageSize / fragChunkSize * fragChunkSize)
    (start gcNow now : Instant) (before rest : List (Reception Peer)) (d : Bytes)
    (hd : d ∈ o.datagrams)
    (hsaid : ∀ e ∈ before ++ rest, Says peer sent e)
    (hfirst : ∀ gcNow now data, .datagram gcNow now peer data ∈ before → data ∉ o.datagrams)
    (hroom : hasRoom (gcReassembly (received start before) gcNow).reassembly peer = true)
    (htimes : ∀ e ∈ rest, e.gcTime < now + reassemblyTtl)
    (hall : ∀ d' ∈ o.datagrams, d' = d ∨ ∃ gcNow now, .datagram gcNow now peer d' ∈ rest) :
    (peer, o.frame) ∈ framesIn ⟨∅, start⟩ (before ++ .datagram gcNow now peer d :: rest) := by
  have hdelivered : Delivered peer sent o start before gcNow now d rest :=
    ⟨hd, hsaid, hfirst, hroom, htimes, hall⟩
  exact hdelivered.arrives hown ho ((parts_fit_iff o.payload).mpr hsize)

end

section
attribute [local instance] longCodec

/-- The two datagrams in the wrong order, after one of somebody else and one of the frame
that does not arrive. -/
theorem hit_delivered : Delivered 0 [lostHit, hit] hit 0
    [.datagram 0 0 1 [75, 65], .datagram 0 0 0 (fragment 10 lostHit.payload 0)]
    0 0 (fragment 9 hit.payload 1) [.datagram 3 3 0 (fragment 9 hit.payload 0)] where
  mine := hit_fragment (by decide)
  said := by
    simp only [List.cons_append, List.nil_append, List.forall_mem_cons, Says, List.not_mem_nil,
      IsEmpty.forall_iff, implies_true, and_true]
    refine ⟨fun h => absurd h (by decide), fun _ => ⟨lostHit, ?_, lostHit_fragment⟩,
      fun _ => ⟨hit, ?_, hit_fragment (by decide)⟩⟩ <;> simp
  first := by
    intro gcNow now data hdata hmine
    obtain ⟨-, -, hdata⟩ : gcNow = 0 ∧ now = 0 ∧ data = fragment 10 lostHit.payload 0 := by
      simpa using hdata
    obtain ⟨i, hi, heq⟩ := hit.mem_datagrams.mp (hdata ▸ hmine)
    obtain ⟨header, chunk, hparse, hid, -⟩ := hit.parsed hi
    obtain ⟨header', chunk', hparse', hid', -⟩ := lostHit.parsed (show 0 < _ by
      rw [lostHit, length_parts_longFrame]; decide)
    have hsame := hparse.symm.trans ((congrArg parseFragment heq.symm).trans hparse')
    obtain ⟨rfl, -⟩ := Prod.mk.inj (Option.some.inj hsame)
    cases hid.symm.trans hid'
  room := by decide +kernel
  times := by
    intro e he
    rw [List.mem_singleton.mp he]
    decide
  all := by
    intro d' hd'
    obtain ⟨i, hi, rfl⟩ := hit.mem_datagrams.mp hd'
    rw [hit, length_parts_longFrame] at hi
    obtain rfl | rfl : i = 0 ∨ i = 1 := by omega
    · exact Or.inr ⟨3, 3, List.mem_cons_self⟩
    · exact Or.inl rfl

theorem admitted_frame_arrives_hit :
    (0, hit.frame) ∈ framesIn (⟨∅, 0⟩ : Receiver Nat)
      ([.datagram 0 0 1 [75, 65], .datagram 0 0 0 (fragment 10 lostHit.payload 0)] ++
        .datagram 0 0 0 (fragment 9 hit.payload 1) ::
        [.datagram 3 3 0 (fragment 9 hit.payload 0)]) := by
  refine admitted_frame_arrives 0 [lostHit, hit] ownIds_hits hit (by simp) ?_ 0 0 0 _ _ _
    hit_delivered.mine hit_delivered.said hit_delivered.first hit_delivered.room
    hit_delivered.times hit_delivered.all
  rw [hit, longFrame, length_serialize_findValueHit]
  decide

end

/-! ## What was read can be sent on -/

theorem length_assembleChunks_le {n : Nat} : ∀ {cs : List (Option Bytes)} {payload : Bytes},
    ReassemblyEntry.assembleChunks cs = some payload →
    (∀ chunk, some chunk ∈ cs → chunk.length ≤ n) → payload.length ≤ cs.length * n
  | [], _, h, _ => by
    cases h
    exact Nat.zero_le _
  | c :: cs, payload, h, hsmall => by
    obtain ⟨chunk, rfl, h⟩ := Option.bind_eq_some_iff.mp h
    obtain ⟨rest, hrest, h⟩ := Option.bind_eq_some_iff.mp h
    obtain rfl := Option.some.inj h
    have hle := length_assembleChunks_le hrest fun c hc => hsmall c (List.mem_cons_of_mem _ hc)
    have hchunk := hsmall chunk List.mem_cons_self
    rw [List.length_append, List.length_cons, Nat.add_one_mul]
    omega

theorem EntrySound.assemble_le {e : ReassemblyEntry} (h : EntrySound e) {index : UInt16}
    {chunk payload : Bytes} (hchunk : chunk.length ≤ fragChunkSize)
    (hpayload : (e.insert index chunk).1.assemble = some payload) :
    payload.length ≤ e.total.toNat * fragChunkSize := by
  rw [← h.slots]
  unfold ReassemblyEntry.insert at hpayload
  split at hpayload
  · exact length_assembleChunks_le hpayload h.small
  · exact length_assembleChunks_le hpayload h.small
  · have hlen : (e.chunks.set index.toNat (some chunk)).length = e.chunks.length :=
      List.length_set
    rw [← hlen]
    refine length_assembleChunks_le hpayload fun c hc => ?_
    rcases List.mem_or_eq_of_mem_set hc with hold | hnew
    · exact h.small c hold
    · rw [Option.some.inj hnew]
      exact hchunk

theorem Limited.assembled_le {map : ReassemblyMap Peer} (h : Limited map) {now : Instant}
    {peer : Peer} {header : FragHeader} {chunk payload : Bytes} (hok : Admissible header chunk)
    (hpayload : (Fragmentation.acceptFragment map now peer header chunk).1 = some payload) :
    payload.length ≤ maxMessageSize / fragChunkSize * fragChunkSize := by
  unfold Fragmentation.acceptFragment at hpayload
  cases hentry : Fragmentation.entryFor map now peer header with
  | none =>
    rw [hentry] at hpayload
    cases hpayload
  | some e =>
    obtain ⟨hsound, -⟩ := h.entryFor hok hentry
    rw [hentry] at hpayload
    dsimp only at hpayload
    split at hpayload
    · cases hpayload
    · split at hpayload
      · have hle := hsound.assemble_le hok.small hpayload
        have hfits := hsound.fits
        refine Nat.le_trans hle (Nat.mul_le_mul_right _ ?_)
        exact (Nat.le_div_iff_mul_le (by decide)).mpr hfits
      · cases hpayload

theorem Limited.payload_le {r : Receiver Peer} (h : Limited r.reassembly) {gcNow now : Instant}
    {peer : Peer} {data payload : Bytes}
    (hpayload : (receiveDatagramEnd r gcNow now peer data).1.payload = some payload) :
    payload.length ≤ maxMessageSize / fragChunkSize * fragChunkSize := by
  unfold receiveDatagramEnd at hpayload
  cases hparse : parseFragment data with
  | none =>
    rw [hparse] at hpayload
    cases hpayload
  | some parsed =>
    obtain ⟨header, chunk⟩ := parsed
    rw [hparse] at hpayload
    dsimp only at hpayload
    split at hpayload
    · obtain rfl := Option.some.inj hpayload
      exact Nat.le_trans (length_of_parsed hparse).2.2 (by decide)
    · rename_i hone
      split at hpayload
      · cases hpayload
      · rename_i hsize
        have hok := admissible_of_parsed hparse hone (Bool.eq_false_iff.mpr hsize)
        obtain ⟨heq, -, -⟩ :=
          acceptFragmentEnd_eq (gcReassembly r gcNow).reassembly now peer header chunk
        dsimp only [DatagramEnd.payload] at hpayload
        rw [heq] at hpayload
        exact (h.gc gcNow).assembled_le hok hpayload

/-- **What a node can read it can send on.** After any datagrams, a frame that is not longer
than one that was read is not refused by `encode_frame`, and it arrives where its datagrams
do. -/
theorem read_frames_can_be_sent [FrameCodec] (start : Instant) (rs : List (Reception Peer))
    (gcNow now : Instant) (source : Peer) (data payload : Bytes)
    (hread : (receiveDatagramEnd (received start rs) gcNow now source data).1.payload =
      some payload)
    (g : Frame) (hwell : WellFormed g) (hshort : (serialize g).length ≤ payload.length)
    (fragId : UInt32) :
    ∃ o : Outgoing, o.frame = g ∧ o.fragId = fragId ∧
      encodeFrame fragId (serialize g) = some o.datagrams ∧
      ∀ (peer : Peer) sent, OwnIds sent → o ∈ sent → ∀ start before gcNow now d rest,
        Delivered peer sent o start before gcNow now d rest →
        (peer, g) ∈ framesIn ⟨∅, start⟩ (before ++ .datagram gcNow now peer d :: rest) := by
  have hlen := Nat.le_trans hshort ((limited_received start rs).payload_le hread)
  let o : Outgoing := ⟨fragId, g, hwell, Nat.le_trans hlen (by decide)⟩
  refine ⟨o, rfl, rfl, o.encodeFrame_eq, ?_⟩
  intro peer sent hown ho start before gcNow now d rest h
  exact h.arrives hown ho ((parts_fit_iff o.payload).mpr hlen)

section
attribute [local instance] longCodec

def longStore : Bytes := serialize ⟨7, true, .record (.store (filledId 2) (filledId 3) fives)⟩

theorem length_longStore : longStore.length = 1458 := by
  rw [longStore, show serialize ⟨7, true, .record (.store (filledId 2) (filledId 3) fives)⟩ = _
    from longTable.serialize_of_mem (List.mem_cons_of_mem _ List.mem_cons_self)]
  simp [fourBytes, length_fives, filledId, idLen]

/-- The record of the STORE, which comes in two datagrams, is sent on in an answer. -/
theorem read_frames_can_be_sent_hit :
    (0, hit.frame) ∈ framesIn (⟨∅, 0⟩ : Receiver Nat)
      ([.datagram 0 0 1 [75, 65], .datagram 0 0 0 (fragment 10 lostHit.payload 0)] ++
        .datagram 0 0 0 (fragment 9 hit.payload 1) ::
        [.datagram 3 3 0 (fragment 9 hit.payload 0)]) := by
  have hread : (receiveDatagramEnd (received 0 [.datagram 0 0 4 (fragment 6 longStore 1),
      .datagram 1 1 5 [75, 65]]) 2 2 4 (fragment 6 longStore 0)).1.payload = some longStore := by
    decide +kernel
  obtain ⟨⟨fragId, frame, hwell, hfits⟩, rfl, rfl, -, harrives⟩ :=
    read_frames_can_be_sent 0 _ 2 2 4 _ longStore hread hit.frame hit.wellFormed (by
      rw [hit, longFrame, length_serialize_findValueHit, length_longStore]
      decide) 9
  exact harrives 0 [lostHit, hit] ownIds_hits (by simp [hit, longFrame]) 0 _ 0 0 _ _ hit_delivered

end

end AuthKademlia.Properties
