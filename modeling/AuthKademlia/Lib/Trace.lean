import Mathlib.Data.List.Basic
import Mathlib.Data.List.Infix
import Mathlib.Order.Defs.Unbundled

/-! # Traces

`Every P log` says that each event of a trace is related by `P` to the part of
the trace before it. `latest` is a register that some events write: its content
after a trace. If every write to a full register moves its content along a
preorder, then so does every part of the trace. -/
namespace AuthKademlia.Lib.Trace

variable {ε β : Type} {P Q : List ε → ε → Prop} {log pre mid : List ε} {e : ε}

def Every (P : List ε → ε → Prop) (log : List ε) : Prop :=
  ∀ pre e post, log = pre ++ e :: post → P pre e

theorem every_nil : Every P ([] : List ε) := by
  intro pre e post h
  simp at h

theorem Every.of_prefix (h : Every P log) (hp : pre <+: log) : Every P pre := by
  obtain ⟨post, rfl⟩ := hp
  intro p e q heq
  exact h p e (q ++ post) (by rw [heq, List.append_assoc, List.cons_append])

theorem every_snoc : Every P (log ++ [e]) ↔ Every P log ∧ P log e := by
  constructor
  · intro h
    exact ⟨h.of_prefix (List.prefix_append _ _), h log e [] rfl⟩
  · rintro ⟨hlog, he⟩ pre x post heq
    -- the event is the last one, or an event of `log`
    rcases List.eq_nil_or_concat post with rfl | ⟨post', y, rfl⟩
    · obtain ⟨rfl, h⟩ := List.append_inj' heq rfl
      obtain rfl := List.singleton_inj.mp h
      exact he
    · rw [List.concat_eq_append, ← List.cons_append, ← List.append_assoc] at heq
      obtain ⟨rfl, -⟩ := List.append_inj' heq rfl
      exact hlog pre x post' rfl

theorem every_iff_get :
    Every P log ↔ ∀ i : Fin log.length, P (log.take i) (log.get i) := by
  constructor
  · intro h i
    exact h _ _ (log.drop (i + 1)) (by simp)
  · rintro h pre e post rfl
    have hi := h ⟨pre.length, by simp⟩
    simpa using hi

instance [∀ pre e, Decidable (P pre e)] : Decidable (Every P log) :=
  decidable_of_iff _ every_iff_get.symm

theorem split_two {i j : Nat} {x y : ε} (hi : log[i]? = some x) (hj : log[j]? = some y)
    (hij : i < j) : log = log.take i ++ x ::
      ((log.drop (i + 1)).take (j - (i + 1)) ++ y :: log.drop (j + 1)) := by
  obtain ⟨hlt, rfl⟩ := List.getElem?_eq_some_iff.mp hi
  obtain ⟨hlt', rfl⟩ := List.getElem?_eq_some_iff.mp hj
  have hdrop : log.drop j = log[j] :: log.drop (j + 1) := List.drop_eq_getElem_cons hlt'
  have hrest : (log.drop (i + 1)).drop (j - (i + 1)) = log.drop j := by
    rw [List.drop_drop]
    congr 1
    omega
  rw [← hdrop, ← hrest, List.take_append_drop, ← List.drop_eq_getElem_cons hlt,
    List.take_append_drop]

/-! ## Registers -/

/-- The content of a register after a trace, starting from `x₀`. -/
def latest (write : ε → Option β) (x₀ : Option β) (log : List ε) : Option β :=
  log.foldl (fun x e => (write e).or x) x₀

variable {write : ε → Option β} {x₀ : Option β}

theorem latest_append (l l' : List ε) :
    latest write x₀ (l ++ l') = latest write (latest write x₀ l) l' := List.foldl_append

@[simp] theorem latest_snoc :
    latest write x₀ (log ++ [e]) = (write e).or (latest write x₀ log) := by
  simp [latest]

theorem latest_cases {y : β} : ∀ {log : List ε}, latest write x₀ log = some y →
    x₀ = some y ∨ ∃ pre e post, log = pre ++ e :: post ∧ write e = some y := by
  intro log
  induction log using List.reverseRecOn with
  | nil => exact Or.inl
  | append_singleton log e ih =>
    intro h
    rw [latest_snoc] at h
    cases he : write e with
    | some z =>
      rw [he, Option.some_or] at h
      exact Or.inr ⟨log, e, [], rfl, by rw [he, h]⟩
    | none =>
      rw [he, Option.none_or] at h
      rcases ih h with h | ⟨pre, x, post, rfl, hx⟩
      · exact Or.inl h
      · exact Or.inr ⟨pre, x, post ++ [e], by simp, hx⟩

theorem latest_ne_none (h : x₀ ≠ none) (log : List ε) : latest write x₀ log ≠ none := by
  induction log using List.reverseRecOn with
  | nil => exact h
  | append_singleton log e ih =>
    rw [latest_snoc]
    cases write e with
    | none => exact ih
    | some y => simp

/-- Every write to the full register moves its content along `rel`. -/
def Moves (write : ε → Option β) (x₀ : Option β) (rel : β → β → Prop) (log : List ε) : Prop :=
  Every (fun pre e => ∀ x y, latest write x₀ pre = some x → write e = some y → rel x y) log

/-- **A register that only moves along a preorder** does so over any part of the
trace. -/
theorem Moves.onwards {rel : β → β → Prop} [Std.Refl rel] [IsTrans β rel] (pre : List ε) {x : β}
    (hx : latest write x₀ pre = some x) :
    ∀ {mid : List ε}, Moves write x₀ rel (pre ++ mid) →
      ∃ y, latest write x₀ (pre ++ mid) = some y ∧ rel x y := by
  intro mid
  induction mid using List.reverseRecOn with
  | nil =>
    intro _
    exact ⟨x, by rw [List.append_nil, hx], refl_of rel x⟩
  | append_singleton mid e ih =>
    intro h
    rw [← List.append_assoc] at h ⊢
    obtain ⟨hmid, he⟩ := every_snoc.mp h
    obtain ⟨y, hy, hxy⟩ := ih hmid
    rw [latest_snoc, hy]
    cases hw : write e with
    | none => exact ⟨y, rfl, hxy⟩
    | some z => exact ⟨z, rfl, IsTrans.trans x y z hxy (he y z hy hw)⟩

theorem Moves.comparable {rel : β → β → Prop} [Std.Refl rel] [IsTrans β rel]
    (h : Moves write x₀ rel log) {p q : List ε} (hp : p <+: log) (hq : q <+: log) {x y : β}
    (hx : latest write x₀ p = some x) (hy : latest write x₀ q = some y) :
    rel x y ∨ rel y x := by
  rcases List.prefix_or_prefix_of_prefix hp hq with ⟨mid, rfl⟩ | ⟨mid, rfl⟩
  · obtain ⟨z, hz, hxz⟩ := Moves.onwards p hx (h.of_prefix hq)
    exact Or.inl (Option.some.inj (hz.symm.trans hy) ▸ hxz)
  · obtain ⟨z, hz, hyz⟩ := Moves.onwards q hy (h.of_prefix hp)
    exact Or.inr (Option.some.inj (hz.symm.trans hx) ▸ hyz)

end AuthKademlia.Lib.Trace
