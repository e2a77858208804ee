import AuthKademlia.Protocol.InProgress

/-! # Frames as bytes

Frames are written and read by bincode, which is not part of the sources. What is used of
it are the laws of `FrameCodec`; everything about frames on the wire holds for any codec
that keeps them. -/
namespace AuthKademlia.Protocol.Wire
open AuthKademlia.Utils AuthKademlia.Protocol AuthKademlia.Protocol.InProgress

/-- `bincode::serialize` and `bincode::deserialize`, for frames. -/
class FrameCodec where
  /-- Messages of the source's types. -/
  Sendable : Message → Prop
  serialize : Frame → Bytes
  deserialize : Bytes → Option Frame
  /-- What is written is read back. An id of a call is a `u32`. -/
  read_back : ∀ {f}, f.msgId < 2 ^ 32 → Sendable f.message → deserialize (serialize f) = some f
  /-- What is read is a frame of the source's types. -/
  of_read : ∀ {payload f}, deserialize payload = some f → f.msgId < 2 ^ 32 ∧ Sendable f.message
  /-- `encode_fragments` calls its branch for the empty payload unreachable. -/
  ne_nil : ∀ f, serialize f ≠ []
  received : Sendable .received

export FrameCodec (serialize deserialize Sendable)

def WellFormed [FrameCodec] (f : Frame) : Prop := f.msgId < 2 ^ 32 ∧ Sendable f.message

theorem deserialize_serialize [FrameCodec] {f : Frame} (hf : WellFormed f) :
    deserialize (serialize f) = some f := FrameCodec.read_back hf.1 hf.2

theorem wellFormed_of_deserialize [FrameCodec] {payload : Bytes} {f : Frame}
    (h : deserialize payload = some f) : WellFormed f := FrameCodec.of_read h

/-! ## A stand-in to evaluate the model with -/

/-- A `u32` in little-endian order. -/
def fourBytes (n : Nat) : Bytes :=
  [.ofNat n, .ofNat (n / 256), .ofNat (n / 256 ^ 2), .ofNat (n / 256 ^ 3)]

/-- Of some messages it is known how they are written; the rest of a frame is an id and a
flag before the message. -/
structure MessageTable where
  entries : List (Message × Bytes)
  messages : (entries.map Prod.fst).Nodup
  bytes : (entries.map Prod.snd).Nodup
  received : .received ∈ entries.map Prod.fst

namespace MessageTable

variable (table : MessageTable)

def serialize (f : Frame) : Bytes :=
  fourBytes f.msgId ++ (if f.isRequest then 1 else 0) ::
    ((table.entries.find? fun e => e.1 = f.message).map Prod.snd).getD []

def deserialize : Bytes → Option Frame
  | a :: b :: c :: d :: flag :: rest =>
    if flag = 0 ∨ flag = 1 then
      (table.entries.find? fun e => e.2 = rest).map fun e =>
        ⟨a.toNat + 256 * (b.toNat + 256 * (c.toNat + 256 * d.toNat)), flag = 1, e.1⟩
    else none
  | _ => none

theorem find?_of_nodup {α β : Type} [DecidableEq β] {g : α → β} : ∀ {l : List α} {x : α},
    (l.map g).Nodup → x ∈ l → l.find? (fun y => g y = g x) = some x
  | y :: l, x, hnd, hx => by
    obtain ⟨hy, hnd⟩ := List.nodup_cons.mp hnd
    rcases List.mem_cons.mp hx with rfl | hx
    · exact List.find?_cons_of_pos (decide_eq_true rfl)
    · have hne : g y ≠ g x := fun heq => hy (heq ▸ List.mem_map_of_mem hx)
      rw [List.find?_cons_of_neg (by simp [hne]), find?_of_nodup hnd hx]

theorem serialize_of_mem {f : Frame} {bytes : Bytes} (he : (f.message, bytes) ∈ table.entries) :
    table.serialize f = fourBytes f.msgId ++ (if f.isRequest then 1 else 0) :: bytes := by
  have hfind : table.entries.find? (fun e => e.1 = f.message) = some (f.message, bytes) :=
    find?_of_nodup table.messages he
  rw [serialize, hfind]
  rfl

theorem read_back {f : Frame} (hid : f.msgId < 2 ^ 32)
    (hf : f.message ∈ table.entries.map Prod.fst) :
    table.deserialize (table.serialize f) = some f := by
  obtain ⟨⟨m, bytes⟩, he, hm⟩ := List.mem_map.mp hf
  obtain rfl : m = f.message := hm
  have hread : table.entries.find? (fun e => e.2 = bytes) = some (f.message, bytes) :=
    find?_of_nodup table.bytes he
  rw [table.serialize_of_mem he]
  obtain ⟨msgId, isRequest, message⟩ := f
  have hid : msgId < 2 ^ 32 := hid
  cases isRequest <;> simp [fourBytes, deserialize, hread] <;> omega

theorem of_read {payload : Bytes} {f : Frame} (h : table.deserialize payload = some f) :
    f.msgId < 2 ^ 32 ∧ f.message ∈ table.entries.map Prod.fst := by
  unfold deserialize at h
  split at h
  · rename_i a b c d flag rest
    obtain ⟨-, h⟩ := Option.ite_none_right_eq_some.mp h
    obtain ⟨e, he, rfl⟩ := Option.map_eq_some_iff.mp h
    refine ⟨?_, List.mem_map_of_mem (List.mem_of_find?_eq_some he)⟩
    have := a.toNat_lt
    have := b.toNat_lt
    have := c.toNat_lt
    have := d.toNat_lt
    dsimp only
    omega
  · cases h

abbrev codec : FrameCodec where
  Sendable := fun m => m ∈ table.entries.map Prod.fst
  serialize := table.serialize
  deserialize := table.deserialize
  read_back := table.read_back
  of_read := table.of_read
  ne_nil := fun f h => by cases h
  received := table.received

end MessageTable

end AuthKademlia.Protocol.Wire
