import Mathlib.Data.List.Count
import Mathlib.Data.List.Forall2
import Mathlib.Data.List.Nodup

/-! # Majorities by counting

Two majorities of one group meet. A majority of one group leaves too few others
for a majority of a second group that misses little of the first. The groups
in question are made of the first members of a ranked list, where a given member
may count as the first of all (`front`): two of them differ by one member at
most. -/
namespace AuthKademlia.Lib.Quorum

variable {α : Type}

/-- Two predicates that together hold more often than there are positions hold
together somewhere. -/
theorem exists_both_of_length_lt {p q : α → Bool} : ∀ {l : List α},
    l.length < l.countP p + l.countP q → ∃ x ∈ l, p x = true ∧ q x = true
  | [], h => by simp at h
  | x :: l, h => by
    by_cases hx : p x = true ∧ q x = true
    · exact ⟨x, List.mem_cons_self, hx⟩
    · have hl : l.length < l.countP p + l.countP q := by
        simp only [List.countP_cons, List.length_cons] at h
        cases hp : p x <;> cases hq : q x <;> simp_all <;> omega
      obtain ⟨y, hy, hpq⟩ := exists_both_of_length_lt hl
      exact ⟨y, List.mem_cons_of_mem x hy, hpq⟩

/-- **Two majorities of one group meet.** -/
theorem majorities_meet {p q : α → Bool} {l l' : List α} (hperm : l.Perm l')
    (hp : l.length / 2 + 1 ≤ l.countP p) (hq : l'.length / 2 + 1 ≤ l'.countP q) :
    ∃ x ∈ l, p x = true ∧ q x = true := by
  rw [← hperm.length_eq, ← hperm.countP_eq] at hq
  exact exists_both_of_length_lt (by omega)

theorem count_true_le_countP {p : α → Bool} {l : List α} {rs : List Bool}
    (h : List.Forall₂ (fun x r => r = true → p x = true) l rs) : rs.count true ≤ l.countP p := by
  induction h with
  | nil => simp
  | @cons x r l rs hr _ ih =>
    rw [List.count_cons, List.countP_cons]
    cases r with
    | false => simp; omega
    | true => simp [hr rfl, ih]

/-! ## A majority of one group, seen from another -/

theorem mem_take_filter {p : α → Bool} {l : List α} {m : Nat} {y : α} (hy : y ∈ l.take m)
    (hp : p y = true) : y ∈ (l.filter p).take m := by
  obtain ⟨t, ht⟩ := (List.take_prefix m l).filter p
  have hlen : ((l.take m).filter p).length ≤ m :=
    Nat.le_trans (List.length_filter_le _ _) (List.length_take_le m l)
  rw [← ht, List.take_append, List.take_of_length_le hlen]
  exact List.mem_append_left _ (List.mem_filter.mpr ⟨hy, hp⟩)

section
variable [DecidableEq α] {p : α → Bool} {l V W : List α} {x y : α} {m n : Nat} {own : Bool}

theorem countP_le_countP_add (hW : W.Nodup) :
    W.countP p ≤ V.countP p + W.countP fun y => y ∉ V := by
  have hsplit : W.countP p ≤
      (W.countP fun y => p y && decide (y ∈ V)) + W.countP fun y => y ∉ V := by
    induction W with
    | nil => simp
    | cons y W ih =>
      have ih := ih (List.nodup_cons.mp hW).2
      simp only [List.countP_cons]
      by_cases hy : y ∈ V <;> cases p y <;> simp [hy] at ih ⊢ <;> omega
  have hsub : (W.countP fun y => p y && decide (y ∈ V)) ≤ V.countP p := by
    rw [List.countP_eq_length_filter, List.countP_eq_length_filter]
    refine (List.subperm_of_subset (hW.filter _) fun y hy => ?_).length_le
    obtain ⟨-, hy⟩ := List.mem_filter.mp hy
    obtain ⟨hp, hV⟩ := Bool.and_eq_true_iff.mp hy
    exact List.mem_filter.mpr ⟨of_decide_eq_true hV, hp⟩
  omega

/-- **A majority leaves a minority.** Where a majority of `W` satisfies `p`, the
members of `V` that do not are few, up to what `V` misses of `W`. -/
theorem minority_of_majority (hW : W.Nodup) (hmaj : W.length / 2 + 1 ≤ W.countP p) :
    (V.countP fun y => !p y) + W.length / 2 + 1 ≤ V.length + W.countP fun y => y ∉ V := by
  have hle : W.countP p ≤ V.countP p + W.countP fun y => y ∉ V := countP_le_countP_add hW
  have hlen : V.length = V.countP p + V.countP fun y => !p y := by
    rw [List.length_eq_countP_add_countP p]
    simp
  omega

/-- The first `n` of a ranked list; `x` counts as the first of all if `own`, and
does not count otherwise. -/
def front (own : Bool) (x : α) (n : Nat) (l : List α) : List α :=
  (if own then [x] else []) ++ (l.filter fun y => y ≠ x).take (n - own.toNat)

theorem filter_ne_of_not_mem (hx : x ∉ l) : (l.filter fun y => y ≠ x) = l :=
  List.filter_eq_self.mpr fun _ hy => decide_eq_true fun h => hx (h ▸ hy)

theorem filter_ne_cons (h : y ≠ x) :
    ((y :: l).filter fun z => z ≠ x) = y :: l.filter fun z => z ≠ x := by
  simp [h]

/-- Leaving out a member behind the first `m` does not touch them. -/
theorem take_filter_ne_of_not_mem : ∀ {l : List α} {m : Nat}, x ∉ l.take m →
    (l.filter fun y => y ≠ x).take m = l.take m
  | [], _, _ => rfl
  | _ :: _, 0, _ => rfl
  | a :: l, m + 1, hx => by
    rw [List.take_succ_cons, List.mem_cons, not_or] at hx
    rw [filter_ne_cons (Ne.symm hx.1), List.take_succ_cons, List.take_succ_cons,
      take_filter_ne_of_not_mem hx.2]

/-- Leaving out one of the first `m + 1` leaves the other `m`. -/
theorem take_filter_ne_of_mem : ∀ {l : List α} {m : Nat}, l.Nodup → x ∈ l.take (m + 1) →
    (l.filter fun y => y ≠ x).take m = (l.take (m + 1)).filter fun y => y ≠ x
  | [], _, _, hx => by simp at hx
  | a :: l, m, hl, hx => by
    obtain ⟨hal, hl⟩ := List.nodup_cons.mp hl
    rw [List.take_succ_cons] at hx ⊢
    by_cases hax : a = x
    · subst hax
      have hm : a ∉ l.take m := fun h => hal (List.mem_of_mem_take h)
      simp only [ne_eq, not_true_eq_false, decide_false, Bool.false_eq_true, not_false_eq_true,
        List.filter_cons_of_neg]
      rw [filter_ne_of_not_mem hal, filter_ne_of_not_mem hm]
    · have hx := (List.mem_cons.mp hx).resolve_left (Ne.symm hax)
      obtain ⟨m, rfl⟩ : ∃ m', m = m' + 1 := ⟨m - 1, by
        cases m with
        | zero => simp at hx
        | succ m => rfl⟩
      rw [filter_ne_cons hax, filter_ne_cons hax, List.take_succ_cons,
        take_filter_ne_of_mem hl hx]

theorem mem_take_succ_of_mem_take_filter : ∀ {l : List α} {m : Nat}, l.Nodup →
    y ∈ (l.filter fun z => z ≠ x).take m → y ∈ l.take (m + 1)
  | l, m, hl, hy => by
    by_cases hx : x ∈ l.take (m + 1)
    · rw [take_filter_ne_of_mem hl hx] at hy
      exact List.mem_of_mem_filter hy
    · have hm : x ∉ l.take m := fun h => hx (List.take_subset_take_left l (Nat.le_succ m) h)
      rw [take_filter_ne_of_not_mem hm] at hy
      exact List.take_subset_take_left l (Nat.le_succ m) hy

theorem front_nodup (hl : l.Nodup) : (front own x n l).Nodup := by
  refine List.nodup_append.mpr
    ⟨by split <;> simp, (hl.filter _).sublist (List.take_sublist _ _), ?_⟩
  intro a ha b hb hab
  have hb := of_decide_eq_true (List.mem_filter.mp (List.mem_of_mem_take hb)).2
  split at ha
  · exact hb (hab ▸ List.mem_singleton.mp ha)
  · simp at ha

theorem length_front_le (hn : own.toNat ≤ n) : (front own x n l).length ≤ n := by
  have hfirst : (if own then [x] else []).length = own.toNat := by cases own <;> rfl
  rw [front, List.length_append, List.length_take, hfirst]
  omega

/-- The first members of the list are in its front, unless `x` is left out. -/
theorem mem_front (hx : own = true ∨ x ∉ l.take m) (hm : m + own.toNat ≤ n) (hy : y ∈ l.take m) :
    y ∈ front own x n l := by
  by_cases hyx : y = x
  · subst hyx
    have hown := hx.resolve_right (not_not_intro hy)
    simp [front, hown]
  · refine List.mem_append_right _ ?_
    have hmem : y ∈ (l.filter fun z => z ≠ x).take m := mem_take_filter hy (decide_eq_true hyx)
    exact (List.take_subset_take_left _ (by omega)) hmem

/-- The front is the first `n` of the list, if `x` counts exactly when it is one
of them. -/
theorem mem_front_iff (hl : l.Nodup) (hx : own = true ↔ x ∈ l.take n) :
    y ∈ front own x n l ↔ y ∈ l.take n := by
  cases own with
  | false =>
    have hnot : x ∉ l.take n := fun h => by simpa using hx.mpr h
    rw [front, Bool.toNat_false, Nat.sub_zero, take_filter_ne_of_not_mem hnot]
    simp
  | true =>
    have hmem := hx.mp rfl
    obtain ⟨n, rfl⟩ : ∃ m, n = m + 1 := ⟨n - 1, by
      cases n with
      | zero => simp at hmem
      | succ n => rfl⟩
    rw [front, Bool.toNat_true, Nat.add_sub_cancel, take_filter_ne_of_mem hl hmem]
    by_cases hyx : y = x
    · subst hyx; simp [hmem]
    · simp [hyx]

theorem length_front (hl : l.Nodup) (hn : 1 ≤ n) (hlen : n ≤ l.length) (hx : own = true → x ∈ l)
    (hx' : own = false → x ∉ l.take n) : (front own x n l).length = n := by
  cases own with
  | false =>
    rw [front, Bool.toNat_false, Nat.sub_zero, take_filter_ne_of_not_mem (hx' rfl)]
    simp [hlen]
  | true =>
    have herase := List.length_erase_of_mem (hx rfl)
    rw [hl.erase_eq_filter] at herase
    have hfilter : (l.filter fun y => y ≠ x).length = l.length - 1 := by
      rw [← herase]
      congr 1
      refine List.filter_congr fun y _ => ?_
      by_cases hyx : y = x <;> simp [hyx]
    rw [front, List.length_append, List.length_take, hfilter]
    simp
    omega

/-- A front of the first `k` is one of the whole list, if it fits into them. -/
theorem front_take {k : Nat} (hl : l.Nodup) (hx : own = true ↔ x ∈ l.take k) (hn : n ≤ k) :
    front own x n (l.take k) = front own x n l := by
  rw [front, front]
  congr 1
  cases own with
  | false =>
    have hnot : x ∉ l.take k := fun h => by simpa using hx.mpr h
    rw [filter_ne_of_not_mem hnot, ← take_filter_ne_of_not_mem hnot, List.take_take,
      Nat.min_eq_left (by simpa using hn)]
  | true =>
    have hmem := hx.mp rfl
    obtain ⟨k, rfl⟩ : ∃ m, k = m + 1 := ⟨k - 1, by
      cases k with
      | zero => simp at hmem
      | succ k => rfl⟩
    rw [← take_filter_ne_of_mem hl hmem, List.take_take, Nat.min_eq_left (by simp; omega)]

/-- **Two fronts of one list differ by one member at most.** -/
theorem front_miss_le_one {own' : Bool} {x' : α} (hl : l.Nodup) (hn : 1 ≤ n) (hlen : n ≤ l.length)
    (hx : own = true ∨ x ∉ l.take (n - 1)) (hx' : own' = true ∨ x' ∉ l.take (n - 1)) :
    ((front own x n l).countP fun y => y ∉ front own' x' n l) ≤ 1 := by
  have hbool : ∀ b : Bool, n - 1 + b.toNat ≤ n := fun b => by cases b <;> simp; omega
  -- both contain the first `n - 1`
  have hin : (l.take (n - 1)).length ≤ (front own x n l).countP fun y => y ∈ l.take (n - 1) := by
    rw [List.countP_eq_length_filter]
    refine (List.subperm_of_subset (hl.sublist (List.take_sublist _ _)) fun y hy => ?_).length_le
    exact List.mem_filter.mpr ⟨mem_front hx (hbool own) hy, decide_eq_true hy⟩
  have hout : ((front own x n l).countP fun y => y ∉ front own' x' n l) ≤
      (front own x n l).countP fun y => y ∉ l.take (n - 1) := by
    refine List.countP_mono_left fun y _ hy => decide_eq_true fun hmem => ?_
    exact of_decide_eq_true hy (mem_front hx' (hbool own') hmem)
  have hall := List.length_eq_countP_add_countP (fun y => decide (y ∈ l.take (n - 1)))
    (l := front own x n l)
  have hle : (front own x n l).length ≤ n := length_front_le (Nat.le_trans (Bool.toNat_le own) hn)
  rw [List.length_take_of_le (by omega)] at hin
  simp only [decide_eq_true_eq, decide_not] at hall hout ⊢
  omega

section
variable {k : Nat} {own' : Bool} {x' : α}

theorem read_miss (hl : l.Nodup) (hn : 1 ≤ n) (hk : n ≤ k) (hlen : k ≤ l.length)
    (hx : own = true ↔ x ∈ l.take k) (hx' : x' ∈ l.take k → own' = true)
    (hcond : n % 2 = 0 ∨ own = true ∧ x = x' ∨
      (own = true → x ∈ l.take n) ∧ (own' = true → x' ∈ l.take n)) :
    ((front own x n l).countP fun y => y ∉ front own' x' n l) ≤ if n % 2 = 0 then 1 else 0 := by
  have hsub : ∀ {m : Nat} {y : α}, m ≤ k → y ∈ l.take m → y ∈ l.take k := fun hm h =>
    List.take_subset_take_left l hm h
  have hall : (∀ y ∈ front own x n l, y ∈ front own' x' n l) →
      ((front own x n l).countP fun y => y ∉ front own' x' n l) = 0 := fun h =>
    List.countP_eq_zero.mpr fun y hy => by simpa using h y hy
  by_cases heven : n % 2 = 0
  · rw [if_pos heven]
    refine front_miss_le_one hl hn (by omega) ?_ ?_
    · exact (Classical.em (own = true)).imp id fun h hmem => h (hx.mpr (hsub (by omega) hmem))
    · exact (Classical.em (own' = true)).imp id fun h hmem => h (hx' (hsub (by omega) hmem))
  · rw [if_neg heven, Nat.le_zero]
    rcases hcond.resolve_left heven with ⟨htrue, rfl⟩ | ⟨hfirst, hfirst'⟩
    · rw [htrue, hx' (hx.mp htrue)] at hall ⊢
      exact hall fun y hy => hy
    · have hiff : own = true ↔ x ∈ l.take n := ⟨hfirst, fun h => hx.mpr (hsub hk h)⟩
      have hiff' : own' = true ↔ x' ∈ l.take n := ⟨hfirst', fun h => hx' (hsub hk h)⟩
      exact hall fun y hy => (mem_front_iff hl hiff').mpr ((mem_front_iff hl hiff).mp hy)

/-- The case of a long list of first members: both fronts have length `n`. -/
theorem read_meets_write_of_le (hl : l.Nodup) (hlen : k ≤ l.length) (hn : 1 ≤ n) (hk : n ≤ k)
    (hx : own = true ↔ x ∈ l.take k) (hx' : x' ∈ l.take k → own' = true)
    (hcond : n % 2 = 0 ∨ own = true ∧ x = x' ∨
      (own = true → x ∈ l.take n) ∧ (own' = true → x' ∈ l.take n))
    (hmaj : (front own x n l).length / 2 + 1 ≤ (front own x n l).countP p) :
    ((front own' x' n l).countP fun y => !p y) < n / 2 + 1 := by
  have hwrite : (front own x n l).length = n := by
    refine length_front hl hn (by omega) (fun h => List.mem_of_mem_take (hx.mp h)) ?_
    rintro rfl hmem
    exact absurd (hx.mpr (List.take_subset_take_left l hk hmem)) Bool.false_ne_true
  have hread : (front own' x' n l).length ≤ n :=
    length_front_le (Nat.le_trans (Bool.toNat_le own') hn)
  have hmiss := read_miss hl hn hk hlen hx hx' hcond
  have hmin : ((front own' x' n l).countP fun y => !p y) + (front own x n l).length / 2 + 1 ≤
      (front own' x' n l).length + (front own x n l).countP fun y => y ∉ front own' x' n l :=
    minority_of_majority (front_nodup hl) hmaj
  split at hmiss <;> omega

/-- The case of a short list: the write's front is all of the first `k`, and the
read misses none of them. -/
theorem read_meets_write_of_lt (hl : l.Nodup) (hlen : k ≤ l.length) (hk : k < n)
    (hx : own = true ↔ x ∈ l.take k) (hx' : x' ∈ l.take k → own' = true)
    (hmaj : (front own x n (l.take k)).length / 2 + 1 ≤ (front own x n (l.take k)).countP p) :
    ((front own' x' (k + own'.toNat) l).countP fun y => !p y) < n / 2 + 1 := by
  have hlk : (l.take k).Nodup := hl.sublist (List.take_sublist k l)
  have hnd : (front own x n (l.take k)).Nodup := front_nodup hlk
  have htake : (l.take k).take n = l.take k :=
    List.take_of_length_le (by rw [List.length_take]; omega)
  have hmem : ∀ y, y ∈ front own x n (l.take k) ↔ y ∈ l.take k := fun y => by
    rw [mem_front_iff hlk (by rw [htake]; exact hx), htake]
  have hwrite : (front own x n (l.take k)).length = k := by
    rw [((List.perm_ext_iff_of_nodup hnd hlk).mpr hmem).length_eq, List.length_take_of_le hlen]
  have hone : own'.toNat ≤ 1 := Bool.toNat_le own'
  have hread : (front own' x' (k + own'.toNat) l).length ≤ k + own'.toNat :=
    length_front_le (Nat.le_add_left _ _)
  have hown : own' = true ∨ x' ∉ l.take k :=
    (Classical.em (own' = true)).imp id fun h hmem => h (hx' hmem)
  have hmiss : ((front own x n (l.take k)).countP
      fun y => y ∉ front own' x' (k + own'.toNat) l) = 0 := by
    refine List.countP_eq_zero.mpr fun y hy => ?_
    have hin : y ∈ front own' x' (k + own'.toNat) l :=
      mem_front hown (Nat.le_refl _) ((hmem y).mp hy)
    simpa using hin
  have hmin : ((front own' x' (k + own'.toNat) l).countP fun y => !p y) +
      (front own x n (l.take k)).length / 2 + 1 ≤ (front own' x' (k + own'.toNat) l).length +
        (front own x n (l.take k)).countP fun y => y ∉ front own' x' (k + own'.toNat) l :=
    minority_of_majority hnd hmaj
  omega

/-- **A read meets a write.** A write has the consent of a majority of its front of
the first `k` members. A read asks its own front of all; it counts itself
whenever it is one of the first `k`. Then fewer than half of `n` members of its
front have not consented, if `n` is even, or if reader and writer are one member
that counts itself, or if whoever counts itself is among the first `n`. -/
theorem read_meets_write (hl : l.Nodup) (hlen : k ≤ l.length) (hn : 1 ≤ n)
    (hx : own = true ↔ x ∈ l.take k) (hx' : x' ∈ l.take k → own' = true)
    (hcond : n % 2 = 0 ∨ own = true ∧ x = x' ∨
      (own = true → x ∈ l.take n) ∧ (own' = true → x' ∈ l.take n))
    (hmaj : (front own x n (l.take k)).length / 2 + 1 ≤ (front own x n (l.take k)).countP p) :
    ((front own' x' (min n (k + own'.toNat)) l).countP fun y => !p y) < n / 2 + 1 := by
  have hone : own'.toNat ≤ 1 := Bool.toNat_le own'
  by_cases hk : n ≤ k
  · rw [front_take hl hx hk] at hmaj
    rw [Nat.min_eq_left (by omega)]
    exact read_meets_write_of_le hl hlen hn hk hx hx' hcond hmaj
  · rw [Nat.min_eq_right (by omega)]
    exact read_meets_write_of_lt hl hlen (by omega) hx hx' hmaj

end

end

end AuthKademlia.Lib.Quorum
