import Mathlib.Data.List.Basic

/-! # Cutting a list into pieces, and collecting them again

`chunks` cuts a list into pieces of one size. A collector has a slot for each
piece, empty or filled; pieces come in any order and more than once. `Holds` says
that nothing but a piece is in its slot, and a collector with as many filled
slots as pieces gives them all back (`Holds.full`). -/
namespace AuthKademlia.Lib.Pieces

variable {α : Type}

/-! ## Cutting -/

/-- The pieces of `n` elements of a list; the last one may be shorter. -/
def chunks (n : Nat) (l : List α) : List (List α) :=
  (List.range ((l.length + n - 1) / n)).map fun i => (l.drop (i * n)).take n

@[simp] theorem length_chunks (n : Nat) (l : List α) :
    (chunks n l).length = (l.length + n - 1) / n := by
  rw [chunks, List.length_map, List.length_range]

theorem length_le_of_mem_chunks {n : Nat} {l c : List α} (h : c ∈ chunks n l) : c.length ≤ n := by
  unfold chunks at h
  obtain ⟨i, -, rfl⟩ := List.mem_map.mp h
  exact List.length_take_le _ _

private theorem flatten_pieces (n : Nat) (l : List α) (m : Nat) :
    ((List.range m).map fun i => (l.drop (i * n)).take n).flatten = l.take (m * n) := by
  induction m with
  | zero => simp
  | succ m ih =>
    rw [List.range_succ, List.map_append, List.flatten_append, ih, Nat.succ_mul, List.take_add]
    simp

theorem flatten_chunks {n : Nat} (hn : 0 < n) (l : List α) : (chunks n l).flatten = l := by
  unfold chunks
  rw [flatten_pieces]
  apply List.take_of_length_le
  have hdiv := Nat.div_add_mod (l.length + n - 1) n
  have hmod := Nat.mod_lt (l.length + n - 1) hn
  rw [Nat.mul_comm] at hdiv
  omega

/-! ## Collecting -/

def filled (slots : List (Option α)) : Nat := slots.countP Option.isSome

/-- Each slot is empty or holds the piece of its position. -/
structure Holds (parts : List α) (slots : List (Option α)) : Prop where
  length : slots.length = parts.length
  part : ∀ (i : Nat) (v : α), slots[i]? = some (some v) → parts[i]? = some v

variable {parts : List α} {slots : List (Option α)} {i : Nat} {v : α}

theorem Holds.empty (parts : List α) : Holds parts (List.replicate parts.length none) := by
  refine ⟨List.length_replicate, ?_⟩
  intro i v h
  rw [List.getElem?_replicate] at h
  split at h <;> cases h

theorem filled_empty (n : Nat) : filled (List.replicate n (none : Option α)) = 0 := by
  simp [filled, List.countP_replicate]

theorem Holds.fill (h : Holds parts slots) (hv : parts[i]? = some v) :
    Holds parts (slots.set i (some v)) := by
  refine ⟨by rw [List.length_set, h.length], ?_⟩
  intro j w hj
  rw [List.getElem?_set] at hj
  split at hj
  · rename_i hij
    subst hij
    split at hj
    · rw [hv, Option.some.inj (Option.some.inj hj)]
    · cases hj
  · exact h.part j w hj

theorem filled_fill (h : slots[i]? = some none) :
    filled (slots.set i (some v)) = filled slots + 1 := by
  obtain ⟨hi, hnone⟩ := List.getElem?_eq_some_iff.mp h
  simp [filled, List.countP_set hi, hnone]

/-- **A full collector** has all the pieces. -/
theorem Holds.full (h : Holds parts slots) (hall : filled slots = slots.length) :
    slots = parts.map some := by
  have hsome : ∀ s ∈ slots, s.isSome = true := List.countP_eq_length.mp hall
  apply List.ext_getElem (by rw [h.length, List.length_map])
  intro i h₁ h₂
  obtain ⟨v, hv⟩ := Option.isSome_iff_exists.mp (hsome _ (List.getElem_mem h₁))
  have hp := h.part i v (by rw [List.getElem?_eq_getElem h₁, hv])
  obtain ⟨hi, rfl⟩ := List.getElem?_eq_some_iff.mp hp
  rw [hv, List.getElem_map]

end AuthKademlia.Lib.Pieces
