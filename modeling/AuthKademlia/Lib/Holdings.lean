import Mathlib.Data.Finset.Basic
import Mathlib.Data.List.Basic

/-! # Who holds how much

Agents in a list each hold some of a resource. When one agent changes, the total changes
by what that agent took or gave back (`held_set`), so that a counter which every agent
changes by its own part stays equal to the total. Marks in a set are accounted for in the
same way: each is held by one agent (`Marked`). -/
namespace AuthKademlia.Lib.Holdings

variable {α : Type} {w : α → Nat} {l : List α} {a b : α} {i j : Nat}

def held (w : α → Nat) : List α → Nat
  | [] => 0
  | a :: l => w a + held w l

@[simp] theorem held_nil : held w [] = 0 := rfl

@[simp] theorem held_cons : held w (a :: l) = w a + held w l := rfl

theorem held_append (l m : List α) : held w (l ++ m) = held w l + held w m := by
  induction l with
  | nil => exact (Nat.zero_add _).symm
  | cons a l ih => rw [List.cons_append, held_cons, held_cons, ih, Nat.add_assoc]

/-- **One agent changes.** -/
theorem held_set (h : l[i]? = some a) (b : α) : held w (l.set i b) + w a = held w l + w b := by
  induction l generalizing i with
  | nil => cases h
  | cons c l ih =>
    cases i with
    | zero =>
      obtain rfl : c = a := Option.some.inj h
      rw [List.set_cons_zero, held_cons, held_cons]
      omega
    | succ i =>
      have ih := ih (i := i) h
      rw [List.set_cons_succ, held_cons, held_cons]
      omega

theorem le_held (h : l[i]? = some a) : w a ≤ held w l := by
  induction l generalizing i with
  | nil => cases h
  | cons c l ih =>
    rw [held_cons]
    cases i with
    | zero =>
      obtain rfl : c = a := Option.some.inj h
      exact Nat.le_add_right _ _
    | succ i =>
      have ih := ih (i := i) h
      omega

theorem held_eq_zero (h : ∀ a ∈ l, w a = 0) : held w l = 0 := by
  induction l with
  | nil => rfl
  | cons a l ih =>
    rw [held_cons, h a List.mem_cons_self, ih fun b hb => h b (List.mem_cons_of_mem a hb)]

theorem held_mono {v : α → Nat} (h : ∀ a, w a ≤ v a) (l : List α) : held w l ≤ held v l := by
  induction l with
  | nil => exact Nat.le_refl 0
  | cons a l ih =>
    rw [held_cons, held_cons]
    exact Nat.add_le_add (h a) ih

theorem exists_of_held_pos (h : 0 < held w l) : ∃ a ∈ l, 0 < w a := by
  by_contra hno
  simp only [not_exists, not_and, Nat.not_lt, Nat.le_zero] at hno
  rw [held_eq_zero hno] at h
  exact absurd h (Nat.lt_irrefl 0)

theorem add_le_held (hi : l[i]? = some a) (hj : l[j]? = some b) (hne : i ≠ j) :
    w a + w b ≤ held w l := by
  induction l generalizing i j with
  | nil => cases hi
  | cons c l ih =>
    rw [held_cons]
    cases i with
    | zero =>
      obtain rfl : c = a := Option.some.inj hi
      obtain ⟨j, rfl⟩ := Nat.exists_eq_succ_of_ne_zero hne.symm
      exact Nat.add_le_add_left (le_held (i := j) hj) _
    | succ i =>
      cases j with
      | zero =>
        obtain rfl : c = b := Option.some.inj hj
        have hle := le_held (w := w) (i := i) hi
        omega
      | succ j =>
        have hle := ih (i := i) (j := j) hi hj (fun he => hne (by rw [he]))
        omega

/-! ## Marks in a set -/

section Marks

variable {κ : Type} [DecidableEq κ] {f : α → Option κ} {s : Finset κ} {key : κ}

def mark (f : α → Option κ) (key : κ) (a : α) : Nat := if f a = some key then 1 else 0

/-- Every mark in the set is held by exactly one agent, and no other mark is held. -/
def Marked (f : α → Option κ) (l : List α) (s : Finset κ) : Prop :=
  ∀ key, held (mark f key) l = if key ∈ s then 1 else 0

theorem mark_pos (h : f a = some key) : mark f key a = 1 := if_pos h

theorem mark_none (h : f a = none) (key : κ) : mark f key a = 0 := by
  rw [mark, h]
  exact if_neg (Option.some_ne_none key).symm

theorem mark_congr (h : f b = f a) (key : κ) : mark f key b = mark f key a := by
  rw [mark, mark, h]

theorem marked_nil : Marked f [] ∅ := fun _ => rfl

theorem Marked.set_same (h : Marked f l s) (hi : l[i]? = some a) (hab : f b = f a) :
    Marked f (l.set i b) s := by
  intro key
  have hset := held_set (w := mark f key) hi b
  rw [mark_congr hab] at hset
  rw [← h key]
  omega

theorem Marked.set_erase (h : Marked f l s) (hi : l[i]? = some a) (ha : f a = some key)
    (hb : f b = none) : Marked f (l.set i b) (s.erase key) := by
  intro key'
  have hset := held_set (w := mark f key') hi b
  rw [h key', mark_none hb] at hset
  by_cases hkey : key' = key
  · subst hkey
    have hle := le_held (w := mark f key') hi
    rw [h key', mark_pos ha] at hle
    rw [mark_pos ha] at hset
    rw [if_neg (Finset.notMem_erase key' s)]
    split at hset
    · omega
    · omega
  · have hother : mark f key' a = 0 :=
      if_neg (by rw [ha]; exact fun he => hkey (Option.some.inj he).symm)
    rw [hother] at hset
    simp only [Finset.mem_erase, ne_eq, hkey, not_false_eq_true, true_and]
    omega

theorem Marked.append_none (h : Marked f l s) (ha : f a = none) : Marked f (l ++ [a]) s := by
  intro key
  rw [held_append, held_cons, held_nil, mark_none ha, h key]
  rfl

theorem Marked.append_insert (h : Marked f l s) (ha : f a = some key) (hkey : key ∉ s) :
    Marked f (l ++ [a]) (insert key s) := by
  intro key'
  rw [held_append, held_cons, held_nil, h key']
  by_cases he : key' = key
  · subst he
    rw [mark_pos ha, if_neg hkey, if_pos (Finset.mem_insert_self key' s)]
  · have hother : mark f key' a = 0 :=
      if_neg (by rw [ha]; exact fun h => he (Option.some.inj h).symm)
    simp only [hother, Finset.mem_insert, he, false_or]
    rfl

theorem Marked.mem_iff (h : Marked f l s) : key ∈ s ↔ ∃ a ∈ l, f a = some key := by
  constructor
  · intro hkey
    have hpos : 0 < held (mark f key) l := by
      rw [h key, if_pos hkey]
      exact Nat.one_pos
    obtain ⟨a, ha, hmark⟩ := exists_of_held_pos hpos
    refine ⟨a, ha, ?_⟩
    by_contra hno
    rw [mark, if_neg hno] at hmark
    exact absurd hmark (Nat.lt_irrefl 0)
  · rintro ⟨a, ha, hmark⟩
    obtain ⟨i, hi⟩ := List.mem_iff_getElem?.mp ha
    have hle := le_held (w := mark f key) hi
    rw [h key, mark_pos hmark] at hle
    by_contra hno
    rw [if_neg hno] at hle
    exact absurd hle (by decide)

theorem Marked.unique (h : Marked f l s) (hi : l[i]? = some a) (hj : l[j]? = some b)
    (ha : f a = some key) (hb : f b = some key) : i = j := by
  by_contra hne
  have hle := add_le_held (w := mark f key) hi hj hne
  rw [h key, mark_pos ha, mark_pos hb] at hle
  split at hle
  · omega
  · omega

end Marks

end AuthKademlia.Lib.Holdings
