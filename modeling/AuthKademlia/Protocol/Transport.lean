import AuthKademlia.Fragmentation

/-! # Frames as datagrams

What `encode_frame` sends of a serialized frame, and what `handle_datagram` makes
of a datagram before it deserializes anything: it parses the header, refuses
messages that would be too large, sweeps old entries out of the reassembly map
now and then, and adds the fragment. -/
namespace AuthKademlia.Protocol
open AuthKademlia.Fragmentation AuthKademlia.Utils AuthKademlia.Storage

/-- `encode_frame`, for a frame that bincode serializes to `bytes`. -/
def encodeFrame (fragId : UInt32) (bytes : Bytes) : Option (List Bytes) :=
  if maxMessageSize < bytes.length then none else some (encodeFragments fragId bytes)

/-- The size check of `handle_datagram`: so many full chunks would be too large. -/
def oversized (header : FragHeader) : Bool :=
  maxMessageSize < header.total.toNat * fragChunkSize

def sizeRefused (data : Bytes) : Bool :=
  (parseFragment data).any fun parsed => parsed.1.total ≠ 1 && oversized parsed.1

structure Receiver (Peer : Type) where
  reassembly : ReassemblyMap Peer
  lastReassemblyGc : Instant

section
variable {Peer : Type} [DecidableEq Peer]

def gcReassembly (r : Receiver Peer) (now : Instant) : Receiver Peer :=
  if now - r.lastReassemblyGc < reassemblyGcInterval then r
  else ⟨sweep r.reassembly now, now⟩

/-- The first part of `handle_datagram`: the serialized frame, once it is complete. -/
def receiveDatagram (r : Receiver Peer) (now : Instant) (peer : Peer) (data : Bytes) :
    Option Bytes × Receiver Peer :=
  match parseFragment data with
  | none => (none, r)
  | some (header, chunk) =>
    if header.total = 1 then (some chunk, r)
    else if oversized header then (none, r)
    else
      let r := gcReassembly r now
      let (payload, reassembly) := acceptFragment r.reassembly now peer header chunk
      (payload, { r with reassembly })

/-- How `handle_datagram` is done with a datagram before it deserializes anything. -/
inductive DatagramEnd where
  | malformed
  | single (payload : Bytes)
  | oversized
  | fragment (how : FragmentEnd)

def DatagramEnd.payload : DatagramEnd → Option Bytes
  | .single payload => some payload
  | .fragment how => how.payload
  | .malformed | .oversized => none

/-- `receiveDatagram` with its exits. `gcNow` is the instant that `gc_reassembly` reads,
`now` the one at which a new entry is made. -/
def receiveDatagramEnd (r : Receiver Peer) (gcNow now : Instant) (peer : Peer) (data : Bytes) :
    DatagramEnd × Receiver Peer :=
  match parseFragment data with
  | none => (.malformed, r)
  | some (header, chunk) =>
    if header.total = 1 then (.single chunk, r)
    else if oversized header then (.oversized, r)
    else
      let r := gcReassembly r gcNow
      let (how, reassembly) := acceptFragmentEnd r.reassembly now peer header chunk
      (.fragment how, { r with reassembly })

theorem receiveDatagramEnd_eq (r : Receiver Peer) (now : Instant) (peer : Peer) (data : Bytes) :
    (receiveDatagramEnd r now now peer data).1.payload = (receiveDatagram r now peer data).1 ∧
      (receiveDatagramEnd r now now peer data).2 = (receiveDatagram r now peer data).2 := by
  unfold receiveDatagramEnd receiveDatagram
  split
  · exact ⟨rfl, rfl⟩
  · rename_i header chunk _
    split
    · exact ⟨rfl, rfl⟩
    · split
      · exact ⟨rfl, rfl⟩
      · obtain ⟨hpayload, hmap, -⟩ :=
          acceptFragmentEnd_eq (gcReassembly r now).reassembly now peer header chunk
        refine ⟨hpayload, ?_⟩
        dsimp only
        rw [hmap]

def receiveAll (peer : Peer) : Receiver Peer → List (Instant × Bytes) → List Bytes
  | _, [] => []
  | r, (now, data) :: rest =>
    let (payload, r) := receiveDatagram r now peer data
    payload.toList ++ receiveAll peer r rest

end

end AuthKademlia.Protocol
