import Mathlib.Data.Nat.Digits.Lemmas
import AuthKademlia.Lib.Xor

/-! # Keys and ids

DHT keys and node ids are SHA-1 digests of 20 bytes. Distances are taken on the
number an id spells in big-endian order. SHA-1 and SHA-256 are functions of the
platform, collected in `Hashes`. -/
namespace AuthKademlia.Utils
open AuthKademlia.Lib.Xor

abbrev Bytes := List UInt8

/-- `ID_LEN`: the length of a SHA-1 digest. -/
def idLen : Nat := 20

@[ext] structure NodeId where
  bytes : Bytes
  length_eq : bytes.length = idLen
  deriving DecidableEq

/-- `STATUS_LIST_KEY`: the reserved key of the issuer-signed status list. -/
def statusListKey : String := "status-list"

/-- `digest` is SHA-1 of a string, `sha256` the hash of records and cache keys. -/
structure Hashes where
  digest : String → NodeId
  sha256 : Bytes → Bytes

/-- Stand-ins to evaluate the model with: a string's digest spells its length,
and bytes are their own hash. -/
def toyHashes : Hashes where
  digest := fun s => ⟨List.replicate idLen (UInt8.ofNat s.length), List.length_replicate⟩
  sha256 := id

def fromBigEndian (bytes : Bytes) : Nat := bytes.foldl (fun acc b => acc * 256 + b.toNat) 0

/-- `to_be_bytes` of a number of `len` bytes. -/
def toBigEndian : Nat → Nat → Bytes
  | 0, _ => []
  | len + 1, n => toBigEndian len (n / 256) ++ [UInt8.ofNat (n % 256)]

def idToU256 (id : NodeId) : Nat := fromBigEndian id.bytes

/-- The id all of whose bytes are `b`. -/
def filledId (b : UInt8) : NodeId := ⟨List.replicate idLen b, List.length_replicate⟩

/-- XOR distance of an id to a point of the key space. -/
def distTo (target : Nat) (id : NodeId) : Nat := idToU256 id ^^^ target

private theorem foldl_eq_ofDigits (bytes : Bytes) (acc : Nat) :
    bytes.foldl (fun acc b => acc * 256 + b.toNat) acc =
      Nat.ofDigits 256 (bytes.reverse.map UInt8.toNat) + 256 ^ bytes.length * acc := by
  induction bytes generalizing acc with
  | nil => simp
  | cons b bytes ih =>
    rw [List.foldl_cons, ih, List.reverse_cons, List.map_append, Nat.ofDigits_append]
    simp only [List.map_cons, List.map_nil, Nat.ofDigits_singleton, List.length_map,
      List.length_reverse, List.length_cons, pow_succ]
    ring

theorem fromBigEndian_eq (bytes : Bytes) :
    fromBigEndian bytes = Nat.ofDigits 256 (bytes.reverse.map UInt8.toNat) := by
  rw [fromBigEndian, foldl_eq_ofDigits, Nat.mul_zero, Nat.add_zero]

@[simp] theorem length_toBigEndian (len n : Nat) : (toBigEndian len n).length = len := by
  induction len generalizing n with
  | zero => rfl
  | succ len ih => rw [toBigEndian, List.length_append, ih, List.length_singleton]

theorem fromBigEndian_toBigEndian {len n : Nat} (h : n < 256 ^ len) :
    fromBigEndian (toBigEndian len n) = n := by
  induction len generalizing n with
  | zero =>
    have hn : n = 0 := Nat.lt_one_iff.mp h
    rw [hn]
    rfl
  | succ len ih =>
    have hdiv : n / 256 < 256 ^ len := Nat.div_lt_of_lt_mul (by rwa [Nat.pow_succ'] at h)
    have hbyte : (UInt8.ofNat (n % 256)).toNat = n % 256 := by simp
    have hacc := ih hdiv
    unfold fromBigEndian at hacc ⊢
    rw [toBigEndian, List.foldl_append, hacc, List.foldl_cons, List.foldl_nil, hbyte]
    omega

private theorem digits_lt (bytes : Bytes) : ∀ x ∈ bytes.reverse.map UInt8.toNat, x < 256 := by
  intro x hx
  obtain ⟨b, _, rfl⟩ := List.mem_map.mp hx
  exact b.toNat_lt

theorem idToU256_lt (id : NodeId) : idToU256 id < 2 ^ 160 := by
  have h := Nat.ofDigits_lt_base_pow_length (by decide : 1 < 256) (digits_lt id.bytes)
  rw [← fromBigEndian_eq, List.length_map, List.length_reverse, id.length_eq] at h
  exact h

theorem idToU256_injective : Function.Injective idToU256 := by
  intro a b h
  rw [idToU256, idToU256, fromBigEndian_eq, fromBigEndian_eq] at h
  have hd := Nat.ofDigits_inj_of_len_eq (by decide : 1 < 256)
    (by simp [a.length_eq, b.length_eq]) (digits_lt a.bytes) (digits_lt b.bytes) h
  have hr := List.map_injective_iff.mpr (fun x y h => UInt8.toNat_inj.mp h) hd
  have hb : a.bytes = b.bytes := List.reverse_injective hr
  cases a; cases b
  simpa using hb

/-- There are at most `2 ^ 160` different ids. -/
theorem length_le_of_nodup_ids {ids : List NodeId} (h : ids.Nodup) : ids.length ≤ 2 ^ 160 := by
  have hsub : ids.map idToU256 ⊆ List.range (2 ^ 160) := by
    intro x hx
    obtain ⟨id, -, rfl⟩ := List.mem_map.mp hx
    exact List.mem_range.mpr (idToU256_lt id)
  have hle := (List.subperm_of_subset (h.map idToU256_injective) hsub).length_le
  rwa [List.length_map, List.length_range] at hle

theorem distTo_injective (target : Nat) : Function.Injective (distTo target) :=
  fun _ _ h => idToU256_injective (xor_cancel_right h)

end AuthKademlia.Utils
