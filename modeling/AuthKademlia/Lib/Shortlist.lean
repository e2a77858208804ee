import Mathlib.Data.Finset.Card
import Mathlib.Data.List.Sort
import Mathlib.Data.Set.Basic

/-! # The k nearest elements of a set

`Nearest k f S l` says that `l` lists the at most `k` elements of `S` with the
smallest keys, closest first. A bounded shortlist that is sorted and cut after
every insertion keeps this relation to everything ever inserted
(`Nearest.grow`), and loses it only when an element is taken out after a cut. What can
still be in it then is `Covered`: it is there, or `k` closer elements are. -/
namespace AuthKademlia.Lib.Shortlist

variable {α β : Type} {k : Nat} {f : α → Nat} {S T : Set α} {l m : List α}

structure Nearest (k : Nat) (f : α → Nat) (S : Set α) (l : List α) : Prop where
  increasing : l.Pairwise fun a b => f a < f b
  subset : ∀ a ∈ l, a ∈ S
  length_le : l.length ≤ k
  rest : ∀ a ∈ S, a ∉ l → l.length = k ∧ ∀ b ∈ l, f b < f a

theorem nodup_of_increasing (h : l.Pairwise fun a b => f a < f b) : l.Nodup :=
  h.imp fun hlt heq => by rw [heq] at hlt; exact Nat.lt_irrefl _ hlt

theorem Nearest.nodup (h : Nearest k f S l) : l.Nodup := nodup_of_increasing h.increasing

theorem nearest_self (h : l.Pairwise fun a b => f a < f b) (hk : l.length ≤ k) :
    Nearest k f {a | a ∈ l} l :=
  ⟨h, fun _ ha => ha, hk, fun _ ha hn => absurd ha hn⟩

/-- A duplicate-free list inside another that is no longer has the same elements. -/
theorem mem_of_subset_of_length_le (hl : l.Nodup) (hs : ∀ a ∈ l, a ∈ m)
    (hlen : m.length ≤ l.length) : ∀ a ∈ m, a ∈ l := by
  have hp : l.Perm m := (List.subperm_of_subset hl hs).perm_of_length_le hlen
  exact fun a ha => hp.mem_iff.mpr ha

/-- **Cutting loses nothing.** The shortlist of a shortlist and new elements is
the shortlist of everything behind it and the new elements. -/
theorem Nearest.grow (h : Nearest k f S l) (hm : Nearest k f ({a | a ∈ l} ∪ T) m) :
    Nearest k f (S ∪ T) m := by
  refine ⟨hm.increasing, ?_, hm.length_le, ?_⟩
  · intro a ha
    rcases hm.subset a ha with ha | ha
    · exact Or.inl (h.subset a ha)
    · exact Or.inr ha
  · intro a ha hn
    by_cases hl : a ∈ l ∨ a ∈ T
    · exact hm.rest a hl hn
    · obtain ⟨hal, haT⟩ := not_or.mp hl
      have haS : a ∈ S := ha.resolve_right haT
      obtain ⟨hlen, hlt⟩ := h.rest a haS hal
      -- `a` was cut before: either the old shortlist survives whole, or some
      -- element of it was cut now, and then all that remain are closer still
      by_cases hsub : ∀ b ∈ l, b ∈ m
      · have hml := mem_of_subset_of_length_le h.nodup hsub (by rw [hlen]; exact hm.length_le)
        have hle := (List.subperm_of_subset h.nodup hsub).length_le
        have hmk := hm.length_le
        exact ⟨by omega, fun b hb => hlt b (hml b hb)⟩
      · obtain ⟨c, hc, hcm⟩ : ∃ c ∈ l, c ∉ m := by simpa using hsub
        obtain ⟨hmlen, hmlt⟩ := hm.rest c (Or.inl hc) hcm
        exact ⟨hmlen, fun b hb => Nat.lt_trans (hmlt b hb) (hlt c hc)⟩

theorem Nearest.congr (h : Nearest k f S l) (hST : ∀ a, a ∈ S ↔ a ∈ T) : Nearest k f T l := by
  rwa [show T = S from Set.ext fun a => (hST a).symm]

/-- What is in the shortlist of a set is in that of every part of the set it belongs to. -/
theorem Nearest.mem_of_subset (hl : Nearest k f S l) (hm : Nearest k f T m)
    (hTS : ∀ a ∈ T, a ∈ S) {a : α} (ha : a ∈ l) (haT : a ∈ T) : a ∈ m := by
  by_contra hn
  obtain ⟨hlen, hlt⟩ := hm.rest a haT hn
  by_cases hsub : ∀ b ∈ m, b ∈ l
  · exact hn (mem_of_subset_of_length_le hm.nodup hsub (by rw [hlen]; exact hl.length_le) a ha)
  · obtain ⟨c, hc, hcl⟩ : ∃ c ∈ m, c ∉ l := by simpa using hsub
    have h₁ := (hl.rest c (hTS c (hm.subset c hc)) hcl).2 a ha
    have h₂ := hlt c hc
    omega

theorem Nearest.unique (hl : Nearest k f S l) (hm : Nearest k f S m) : l = m := by
  have hp : l.Perm m := (List.perm_ext_iff_of_nodup hl.nodup hm.nodup).mpr fun a =>
    ⟨fun ha => hl.mem_of_subset hm (fun _ h => h) ha (hl.subset a ha),
      fun ha => hm.mem_of_subset hl (fun _ h => h) ha (hm.subset a ha)⟩
  exact hp.eq_of_pairwise (fun a b _ _ h₁ h₂ => absurd (Nat.lt_trans h₁ h₂) (Nat.lt_irrefl _))
    hl.increasing hm.increasing

theorem Nearest.all_of_card_le {F : Finset α} (h : Nearest k f S l) (hF : ∀ a, a ∈ F ↔ a ∈ S)
    (hk : F.card ≤ k) : ∀ a ∈ S, a ∈ l := by
  classical
  intro a ha
  by_contra hn
  have hsub : l.toFinset ⊆ F.erase a := by
    intro b hb
    rw [List.mem_toFinset] at hb
    exact Finset.mem_erase.mpr ⟨fun he => hn (he ▸ hb), (hF b).mpr (h.subset b hb)⟩
  have hle := Finset.card_le_card hsub
  rw [List.toFinset_card_of_nodup h.nodup, (h.rest a ha hn).1] at hle
  have hlt := Finset.card_erase_lt_of_mem ((hF a).mpr ha)
  omega

theorem Nearest.below {s : List α} {d : Nat} (h : Nearest k f S l) (hs : s.Nodup)
    (hlen : s.length = k) (hS : ∀ a ∈ s, a ∈ S) (hd : ∀ a ∈ s, f a < d) :
    l.length = k ∧ ∀ a ∈ l, f a < d := by
  by_cases hall : ∀ a ∈ s, a ∈ l
  · have hle := (List.subperm_of_subset hs hall).length_le
    have hlk := h.length_le
    exact ⟨by omega, fun a ha => hd a (mem_of_subset_of_length_le hs hall (by omega) a ha)⟩
  · obtain ⟨c, hc, hn⟩ : ∃ c ∈ s, c ∉ l := by simpa using hall
    obtain ⟨hlk, hlt⟩ := h.rest c (hS c hc) hn
    exact ⟨hlk, fun a ha => (hlt a ha).trans (hd c hc)⟩

/-- The list holds the element, or is full of nearer ones. -/
def Covered (k : Nat) (f : α → Nat) (l : List α) (a : α) : Prop :=
  a ∈ l ∨ l.length = k ∧ ∀ b ∈ l, f b < f a

theorem Nearest.covered (h : Nearest k f S l) {a : α} (ha : a ∈ S) : Covered k f l a :=
  or_iff_not_imp_left.mpr fun hn => h.rest a ha hn

theorem nearest_covered (h : l.Pairwise fun a b => f a < f b) (hk : l.length ≤ k) :
    Nearest k f {a | Covered k f l a} l :=
  ⟨h, fun _ ha => Or.inl ha, hk, fun _ ha hn => ha.resolve_left hn⟩

/-- Who has `k` nearer elements that are covered is covered. -/
theorem covered_of_countP {s : List α} {a : α} (h : l.Pairwise fun a b => f a < f b)
    (hl : l.length ≤ k) (hs : s.Nodup) (hcovered : ∀ b ∈ s, Covered k f l b)
    (hk : k ≤ s.countP fun b => f b < f a) : Covered k f l a := by
  rw [List.countP_eq_length_filter] at hk
  refine Or.inr ((nearest_covered h hl).below ((hs.filter _).sublist (List.take_sublist k _))
    (List.length_take_of_le hk) (fun b hb => ?_) fun b hb => ?_)
  · exact hcovered b (List.mem_of_mem_filter (List.mem_of_mem_take hb))
  · exact of_decide_eq_true (List.mem_filter.mp (List.mem_of_mem_take hb)).2

/-- A full list of nearer elements has `k` of them, wherever they come from. -/
theorem le_countP_of_full {s : List α} {a : α} (hl : l.Nodup) (hlen : l.length = k)
    (hnear : ∀ b ∈ l, f b < f a) (hsub : ∀ b ∈ l, b ∈ s) :
    k ≤ s.countP fun b => f b < f a := by
  rw [List.countP_eq_length_filter, ← hlen]
  exact (List.subperm_of_subset hl fun b hb =>
    List.mem_filter.mpr ⟨hsub b hb, decide_eq_true (hnear b hb)⟩).length_le

theorem Nearest.length_eq {s : List α} (h : Nearest k f {a | a ∈ s} l) (hs : s.Nodup) :
    l.length = min k s.length := by
  have hle : l.length ≤ s.length := (List.subperm_of_subset h.nodup h.subset).length_le
  by_cases hall : ∀ a ∈ s, a ∈ l
  · have hge := (List.subperm_of_subset hs hall).length_le
    have hk := h.length_le
    omega
  · obtain ⟨a, ha, hn⟩ : ∃ a ∈ s, a ∉ l := by simpa using hall
    have hk := (h.rest a ha hn).1
    omega

/-- An element is in the shortlist if fewer than `k` are nearer. -/
theorem Nearest.mem_iff_countP {s : List α} {a : α} (h : Nearest k f {a | a ∈ s} l)
    (hs : s.Nodup) (ha : a ∈ s) : a ∈ l ↔ s.countP (fun b => f b < f a) < k := by
  classical
  rw [List.countP_eq_length_filter]
  constructor
  · intro hal
    -- all that are nearer are in the list too, besides `a`
    have hsub : ∀ b ∈ s.filter (fun b => f b < f a), b ∈ l.erase a := by
      intro b hb
      obtain ⟨hbs, hlt⟩ := List.mem_filter.mp hb
      have hlt := of_decide_eq_true hlt
      refine (List.mem_erase_of_ne fun he => ?_).mpr ?_
      · rw [he] at hlt
        exact Nat.lt_irrefl _ hlt
      · by_contra hn
        exact absurd ((h.rest b hbs hn).2 a hal) (Nat.lt_asymm hlt)
    have hle := (List.subperm_of_subset (hs.filter _) hsub).length_le
    rw [List.length_erase_of_mem hal] at hle
    have hk := h.length_le
    have hpos := List.length_pos_of_mem hal
    omega
  · intro hlt
    by_contra hn
    obtain ⟨hlen, hnear⟩ := h.rest a ha hn
    have hsub : ∀ b ∈ l, b ∈ s.filter (fun b => f b < f a) := fun b hb =>
      List.mem_filter.mpr ⟨h.subset b hb, decide_eq_true (hnear b hb)⟩
    have hle := (List.subperm_of_subset h.nodup hsub).length_le
    omega

theorem Nearest.lt_head_iff {z : α} {d : Nat} (h : Nearest k f S l) (hz : l.head? = some z) :
    d < f z ↔ ∀ a ∈ S, d < f a := by
  obtain ⟨rest, rfl⟩ := List.head?_eq_some_iff.mp hz
  constructor
  · intro hd a ha
    by_cases hl : a ∈ z :: rest
    · rcases List.mem_cons.mp hl with rfl | hl
      · exact hd
      · exact hd.trans ((List.pairwise_cons.mp h.increasing).1 a hl)
    · exact hd.trans ((h.rest a ha hl).2 z List.mem_cons_self)
  · exact fun hall => hall z (h.subset z List.mem_cons_self)

/-- What is nearer than the last element has fewer elements before it than the
shortlist has. -/
theorem Nearest.lt_getLast_iff {s : List α} {z : α} {d : Nat} (h : Nearest k f {a | a ∈ s} l)
    (hs : s.Nodup) (hz : l.getLast? = some z) (hd : ∀ a ∈ s, f a ≠ d) :
    d < f z ↔ s.countP (fun a => f a < d) < l.length := by
  classical
  obtain ⟨front, rfl⟩ := List.getLast?_eq_some_iff.mp hz
  have hlast : z ∈ front ++ [z] := by simp
  rw [List.countP_eq_length_filter]
  constructor
  · intro hlt
    -- what is nearer is in the shortlist, before its last element
    have hsub : ∀ a ∈ s.filter (fun a => f a < d), a ∈ front := by
      intro a ha
      obtain ⟨has, hda⟩ := List.mem_filter.mp ha
      have hda := of_decide_eq_true hda
      have hal : a ∈ front ++ [z] := by
        by_contra hn
        have := (h.rest a has hn).2 z hlast
        omega
      rcases List.mem_append.mp hal with hf | hf
      · exact hf
      · rw [List.mem_singleton.mp hf] at hda
        omega
    have hle := (List.subperm_of_subset (hs.filter _) hsub).length_le
    rw [List.length_append, List.length_singleton]
    omega
  · intro hcount
    by_contra hge
    have hne := hd z (h.subset z hlast)
    have hsub : ∀ a ∈ front ++ [z], a ∈ s.filter (fun a => f a < d) := by
      intro a ha
      refine List.mem_filter.mpr ⟨h.subset a ha, decide_eq_true ?_⟩
      rcases List.mem_append.mp ha with hf | hf
      · have := (List.pairwise_append.mp h.increasing).2.2 a hf z (List.mem_singleton_self z)
        omega
      · rw [List.mem_singleton.mp hf]
        omega
    have hle := (List.subperm_of_subset h.nodup hsub).length_le
    omega

theorem nearest_take (h : l.Pairwise fun a b => f a < f b) :
    Nearest k f {a | a ∈ l} (l.take k) := by
  refine ⟨h.sublist (List.take_sublist k l), fun a => List.mem_of_mem_take,
    List.length_take_le k l, fun a ha hn => ?_⟩
  rw [← List.take_append_drop k l] at h
  have hmem : a ∈ l.take k ++ l.drop k := by rwa [List.take_append_drop]
  have hdrop := (List.mem_append.mp hmem).resolve_left hn
  have hpos := List.length_pos_of_mem hdrop
  rw [List.length_drop] at hpos
  refine ⟨by rw [List.length_take]; omega, fun b hb => ?_⟩
  exact (List.pairwise_append.mp h).2.2 b hb a hdrop

/-- Sorting labelled elements by their label and cutting the list gives the
shortlist of their names, when labels are the keys of the names. -/
theorem nearest_sort_map {es : List β} {g : β → α} {h : β → Nat}
    (hf : ∀ a ∈ es.map g, ∀ b ∈ es.map g, f a = f b → a = b)
    (hlabel : ∀ e ∈ es, h e = f (g e)) (hnd : (es.map g).Nodup) :
    Nearest k f {a | a ∈ es.map g}
      (((es.insertionSort fun a b => h a ≤ h b).take k).map g) := by
  let s := es.insertionSort fun a b => h a ≤ h b
  have hperm : s.Perm es := List.perm_insertionSort _ _
  have hle : s.Pairwise fun a b => h a ≤ h b :=
    List.pairwise_insertionSort (fun a b => h a ≤ h b) es
  have hsnd : (s.map g).Nodup := (hperm.map g).nodup_iff.mpr hnd
  have hinc : (s.map g).Pairwise fun a b => f a < f b := by
    refine List.pairwise_map.mpr ?_
    refine ((List.pairwise_map.mp hsnd).and hle).imp_of_mem ?_
    intro a b ha hb hab
    have ha' := hperm.mem_iff.mp ha
    have hb' := hperm.mem_iff.mp hb
    have hne : f (g a) ≠ f (g b) := fun he =>
      hab.1 (hf _ (List.mem_map_of_mem ha') _ (List.mem_map_of_mem hb') he)
    have hab' := hab.2
    rw [hlabel a ha', hlabel b hb'] at hab'
    omega
  rw [List.map_take]
  exact (nearest_take hinc).congr fun a => (hperm.map g).mem_iff

/-- Sorting elements with different keys and cutting the list gives their shortlist. -/
theorem nearest_sort {es : List α} (hf : ∀ a ∈ es, ∀ b ∈ es, f a = f b → a = b)
    (hnd : es.Nodup) :
    Nearest k f {a | a ∈ es} ((es.insertionSort fun a b => f a ≤ f b).take k) := by
  have h : Nearest k f {a | a ∈ es.map id}
      (((es.insertionSort fun a b => f a ≤ f b).take k).map id) :=
    nearest_sort_map (by rwa [List.map_id]) (fun _ _ => rfl) (by rwa [List.map_id])
  simpa only [List.map_id] using h

end AuthKademlia.Lib.Shortlist
