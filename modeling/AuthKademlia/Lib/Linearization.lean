import Mathlib.Data.List.Basic
import Mathlib.Logic.Relation

/-! # One order for the effects of concurrent calls

A log lists what concurrent calls did to a shared state, each effect with the number
of its call. `Sequential` says that the effects, one after the other, lead from one
state to another. A system that logs each effect of a call while the call is under way
is linearizable: at every moment the log explains the state, and what is added later is
of no call that is over. -/
namespace AuthKademlia.Lib.Linearization

variable {σ ε : Type}

abbrev Log (ε : Type) := List (Nat × ε)

def effectsOf (i : Nat) (log : Log ε) : List ε :=
  log.filterMap fun e => if e.1 = i then some e.2 else none

@[simp] theorem effectsOf_nil (i : Nat) : effectsOf i ([] : Log ε) = [] := rfl

@[simp] theorem effectsOf_append (i : Nat) (log log' : Log ε) :
    effectsOf i (log ++ log') = effectsOf i log ++ effectsOf i log' := List.filterMap_append

@[simp] theorem effectsOf_map_self (i : Nat) (es : List ε) :
    effectsOf i (es.map fun e => (i, e)) = es := by
  simp [effectsOf, List.filterMap_map]

theorem effectsOf_eq_nil {i : Nat} {log : Log ε} (h : ∀ e ∈ log, e.1 ≠ i) :
    effectsOf i log = [] := by
  refine List.filterMap_eq_nil_iff.mpr ?_
  intro e he
  rw [if_neg (h e he)]

/-- The effects of a log, one after the other, lead from `s` to another state. -/
inductive Sequential (legal : σ → ε → σ → Prop) (s : σ) : Log ε → σ → Prop
  | nil : Sequential legal s [] s
  | snoc {log : Log ε} {t u : σ} (i : Nat) {e : ε} :
      Sequential legal s log t → legal t e u → Sequential legal s (log ++ [(i, e)]) u

theorem Sequential.single {legal : σ → ε → σ → Prop} {s t : σ} (i : Nat) {e : ε}
    (h : legal s e t) : Sequential legal s [(i, e)] t := by
  have hnil : Sequential legal s [] s := .nil
  exact hnil.snoc i h

theorem Sequential.trans {legal : σ → ε → σ → Prop} {s t u : σ} {log log' : Log ε}
    (h : Sequential legal s log t) (h' : Sequential legal t log' u) :
    Sequential legal s (log ++ log') u := by
  induction h' with
  | nil =>
    rw [List.append_nil]
    exact h
  | snoc i _ he ih =>
    rw [← List.append_assoc]
    exact ih.snoc i he

/-! ## Systems that log what they do -/

variable {C : Type}

/-- Each step adds to the log what it does to the state, and only for calls that have
begun and are not over. -/
structure Recorded (Step : C → C → Prop) (legal : σ → ε → σ → Prop) (state : C → σ)
    (log : C → Log ε) (begun : C → Nat) (over? : C → Nat → Prop) : Prop where
  adds : ∀ {c c'}, Step c c' → ∃ es, log c' = log c ++ es ∧
    Sequential legal (state c) es (state c') ∧ ∀ e ∈ es, e.1 < begun c ∧ ¬ over? c e.1
  begun_le : ∀ {c c'}, Step c c' → begun c ≤ begun c'
  over_step : ∀ {c c' i}, Step c c' → over? c i → over? c' i

namespace Recorded

variable {Step : C → C → Prop} {legal : σ → ε → σ → Prop} {state : C → σ} {log : C → Log ε}
  {begun : C → Nat} {over? : C → Nat → Prop} {c₀ c c' : C}

/-- **What a run adds to the log** explains how the state changed, and is of no call
that was over before. -/
theorem run (h : Recorded Step legal state log begun over?)
    (hrun : Relation.ReflTransGen Step c c') :
    ∃ es, log c' = log c ++ es ∧ Sequential legal (state c) es (state c') ∧
      (∀ e ∈ es, e.1 < begun c' ∧ ¬ over? c e.1) ∧ ∀ i, over? c i → over? c' i := by
  induction hrun with
  | refl => exact ⟨[], (List.append_nil _).symm, .nil, (fun e he => nomatch he), fun i hi => hi⟩
  | tail hto hstep ih =>
    rename_i b d
    obtain ⟨es, hlog, hseq, hcalls, hover⟩ := ih
    obtain ⟨fs, hlog', hseq', hcalls'⟩ := h.adds hstep
    refine ⟨es ++ fs, ?_, hseq.trans hseq', ?_, fun i hi => h.over_step hstep (hover i hi)⟩
    · rw [hlog', hlog, List.append_assoc]
    · intro e he
      rcases List.mem_append.mp he with he | he
      · exact ⟨Nat.lt_of_lt_of_le (hcalls e he).1 (h.begun_le hstep), (hcalls e he).2⟩
      · exact ⟨Nat.lt_of_lt_of_le (hcalls' e he).1 (h.begun_le hstep),
          fun hov => (hcalls' e he).2 (hover _ hov)⟩

/-- **Linearizability.** At every moment of a run the log explains the state and holds
nothing of calls to come, and what is added later is of no call that is over. -/
theorem cut (h : Recorded Step legal state log begun over?) (hnil : log c₀ = [])
    (hto : Relation.ReflTransGen Step c₀ c) (hrun : Relation.ReflTransGen Step c c') :
    ∃ later, log c' = log c ++ later ∧ Sequential legal (state c₀) (log c) (state c) ∧
      (∀ i, begun c ≤ i → effectsOf i (log c) = []) ∧
      ∀ i, over? c i → effectsOf i later = [] := by
  obtain ⟨es, hlog, hseq, hcalls, -⟩ := h.run hto
  obtain ⟨fs, hlog', -, hcalls', -⟩ := h.run hrun
  refine ⟨fs, hlog', ?_, ?_, ?_⟩
  · rw [hlog, hnil, List.nil_append]
    exact hseq
  · intro i hi
    rw [hlog, hnil, List.nil_append]
    refine effectsOf_eq_nil fun e he heq => ?_
    have hlt := (hcalls e he).1
    rw [heq] at hlt
    exact Nat.not_lt.mpr hi hlt
  · intro i hi
    refine effectsOf_eq_nil fun e he heq => (hcalls' e he).2 ?_
    rw [heq]
    exact hi

end Recorded
end AuthKademlia.Lib.Linearization
