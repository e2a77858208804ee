import Mathlib.Data.List.MinMax
import Mathlib.Data.Nat.Bitwise
import Mathlib.Tactic.Ring

/-! # The XOR metric and aligned blocks

Numbers that agree above bit `j` form a block, an interval of length `2 ^ j`
aligned to its length. Seen from any point, the elements of a block are
consecutive in the XOR order (`block_convex`), and the elements of a point's own
block come before all others (`block_closer`). -/
namespace AuthKademlia.Lib.Xor

variable {a b c g t x j m lo hi : Nat}

theorem xor_cancel_right (h : a ^^^ t = b ^^^ t) : a = b := by
  have := congrArg (· ^^^ t) h
  simpa [Nat.xor_assoc] using this

theorem xor_pos (h : a ≠ b) : 0 < a ^^^ b := by
  rcases Nat.eq_zero_or_pos (a ^^^ b) with h0 | h0
  · exact absurd (xor_cancel_right (t := b) (by rw [h0, Nat.xor_self])) h
  · exact h0

theorem shiftRight_mono (h : a ≤ b) : a >>> j ≤ b >>> j := by
  rw [Nat.shiftRight_eq_div_pow, Nat.shiftRight_eq_div_pow]
  exact Nat.div_le_div_right h

theorem lt_of_shiftRight_lt (h : a >>> j < b >>> j) : a < b := by
  by_contra hn
  have := shiftRight_mono (j := j) (Nat.le_of_not_lt hn)
  omega

/-- What lies between two elements of a block, seen from any point, is in the block. -/
theorem block_convex (hab : a >>> j = b >>> j) (h₁ : a ^^^ t ≤ x ^^^ t)
    (h₂ : x ^^^ t ≤ b ^^^ t) : x >>> j = a >>> j := by
  have h₁' := shiftRight_mono (j := j) h₁
  have h₂' := shiftRight_mono (j := j) h₂
  rw [Nat.shiftRight_xor_distrib, Nat.shiftRight_xor_distrib] at h₁' h₂'
  rw [← hab] at h₂'
  exact xor_cancel_right (Nat.le_antisymm h₂' h₁')

/-- An element of the block of `c` is closer to `c` than one outside it. -/
theorem block_closer (hx : x >>> j = c >>> j) (hg : g >>> j ≠ c >>> j) : x ^^^ c < g ^^^ c := by
  apply lt_of_shiftRight_lt (j := j)
  rw [Nat.shiftRight_xor_distrib, Nat.shiftRight_xor_distrib, hx, Nat.xor_self]
  exact xor_pos hg

/-- `[lo, hi]` is the block number `m` of length `2 ^ j`. -/
structure Block (lo hi j m : Nat) : Prop where
  lo_eq : lo = m * 2 ^ j
  hi_eq : hi + 1 = (m + 1) * 2 ^ j

theorem Block.mem_iff (h : Block lo hi j m) : lo ≤ x ∧ x ≤ hi ↔ x >>> j = m := by
  rw [Nat.shiftRight_eq_div_pow, Nat.div_eq_iff (Nat.two_pow_pos j), h.lo_eq]
  have hpos := Nat.two_pow_pos j
  have hhi := h.hi_eq
  constructor
  · rintro ⟨h₁, h₂⟩
    exact ⟨h₁, by rw [Nat.add_mul, Nat.one_mul] at hhi; omega⟩
  · rintro ⟨h₁, h₂⟩
    exact ⟨h₁, by rw [Nat.add_mul, Nat.one_mul] at hhi; omega⟩

theorem Block.lo_le_hi (h : Block lo hi j m) : lo ≤ hi := by
  have hpos := Nat.two_pow_pos j
  have h₁ := h.lo_eq
  have h₂ := h.hi_eq
  rw [Nat.add_mul, Nat.one_mul] at h₂
  omega

theorem Block.eq_of_zero (h : Block lo hi 0 m) : lo = m ∧ hi = m := by
  have h₁ := h.lo_eq
  have h₂ := h.hi_eq
  simp only [Nat.pow_zero, Nat.mul_one] at h₁ h₂
  omega

/-- A block of numbers below `2 ^ w` has at most `2 ^ w` of them. -/
theorem Block.exponent_le {w : Nat} (h : Block lo hi j m) (hw : hi < 2 ^ w) : j < w + 1 := by
  have h₂ := h.hi_eq
  have hle : 2 ^ j ≤ 2 ^ w := by
    have : (m + 1) * 2 ^ j = m * 2 ^ j + 2 ^ j := by ring
    omega
  exact Nat.lt_succ_of_le ((Nat.pow_le_pow_iff_right (by decide)).mp hle)

theorem Block.halves (h : Block lo hi (j + 1) m) :
    Block lo (lo + (hi - lo) / 2) j (2 * m) ∧
      Block (lo + (hi - lo) / 2 + 1) hi j (2 * m + 1) := by
  have hpos := Nat.two_pow_pos j
  have h₁ : lo = 2 * m * 2 ^ j := by rw [h.lo_eq, pow_succ]; ring
  have h₂ : hi + 1 = 2 * m * 2 ^ j + 2 * 2 ^ j := by rw [h.hi_eq, pow_succ]; ring
  have hmid : lo + (hi - lo) / 2 + 1 = 2 * m * 2 ^ j + 2 ^ j := by omega
  refine ⟨⟨h₁, ?_⟩, ⟨?_, ?_⟩⟩
  · rw [hmid]; ring
  · rw [hmid]; ring
  · rw [h₂]; ring

/-! ## Greedy search by XOR distance -/

section
variable {α : Type} {num : α → Nat} {k : Nat} {r : α} {c : α}
variable {H : List α} {knows : α → α → Prop}

/-- **Greedy search finds the closest**, whoever was asked. `H` is what a search for `t` ended
with, and `G` those whose knowledge it used, the members of `H` among them. Suppose that
whatever they know is one of them or beaten by `k` members of `H`, and that each of them that
does not know `c` knows somebody in a block around `c` that it is not in itself. Then `c` is
beaten by `k` members of `H`. -/
theorem closest_found_asking {G : List α} (hG : G ≠ []) (hHG : ∀ x ∈ H, x ∈ G)
    (hrep : ∀ g ∈ G, ∀ q, knows g q → q ∉ G → H.length = k ∧ ∀ x ∈ H, num x ^^^ t < num q ^^^ t)
    (hfar : ∀ g ∈ G, ¬ knows g c →
      ∃ j q, num g >>> j ≠ num c >>> j ∧ knows g q ∧ num q >>> j = num c >>> j)
    (hc : c ∉ G) : H.length = k ∧ ∀ x ∈ H, num x ^^^ t < num c ^^^ t := by
  -- `g` is the one closest to `c` among those whose knowledge was used
  obtain ⟨g, hg, hmin⟩ : ∃ g ∈ G, ∀ x ∈ G, num g ^^^ num c ≤ num x ^^^ num c := by
    have hne : G.argmin (fun x => num x ^^^ num c) ≠ none := by
      rwa [Ne, List.argmin_eq_none]
    obtain ⟨g, hg⟩ := Option.ne_none_iff_exists'.mp hne
    exact ⟨g, List.argmin_mem hg, fun x hx => List.le_of_mem_argmin hx hg⟩
  by_cases hk : knows g c
  · exact hrep g hg c hk hc
  · obtain ⟨j, q, hgj, hgq, hqj⟩ := hfar g hg hk
    have hout : ∀ x ∈ G, num x >>> j ≠ num c >>> j := fun x hx heq =>
      absurd (hmin x hx) (Nat.not_le_of_lt (block_closer heq hgj))
    obtain ⟨hlen, hlt⟩ := hrep g hg q hgq fun h => hout q h hqj
    refine ⟨hlen, fun x hx => ?_⟩
    by_contra hge
    -- `x` lies between `c` and `q` in distance, hence in their block
    have hxj := block_convex hqj.symm (Nat.not_lt.mp hge) (Nat.le_of_lt (hlt x hx))
    exact hout x (hHG x hx) hxj

/-- **Greedy search finds the closest.** `H` is what a search for `t` by `r`
ended with. Suppose that whatever `r` or a member of `H` knows is in `H` or
beaten by `k` members, and that each of them that does not know `c` knows
somebody in a block around `c` that it is not in itself. Then `c` is in `H` or
beaten by `k` members. -/
theorem closest_found
    (hrep : ∀ g ∈ r :: H, ∀ q, knows g q → q ≠ r → q ∉ H →
      H.length = k ∧ ∀ x ∈ H, num x ^^^ t < num q ^^^ t)
    (hfar : ∀ g ∈ r :: H, c ≠ g → ¬ knows g c →
      ∃ j q, num g >>> j ≠ num c >>> j ∧ knows g q ∧ num q >>> j = num c >>> j)
    (hcr : c ≠ r) (hcH : c ∉ H) : H.length = k ∧ ∀ x ∈ H, num x ^^^ t < num c ^^^ t := by
  have hc : c ∉ r :: H := List.not_mem_cons_of_ne_of_not_mem hcr hcH
  refine closest_found_asking (List.cons_ne_nil r H) (fun x hx => List.mem_cons_of_mem r hx)
    (fun g hg q hq hout => ?_) (fun g hg => hfar g hg fun h => hc (h ▸ hg)) hc
  obtain ⟨hqr, hqH⟩ := List.ne_and_not_mem_of_not_mem_cons hout
  exact hrep g hg q hq hqr hqH

end

end AuthKademlia.Lib.Xor
