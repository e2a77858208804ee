import Mathlib.Data.List.Nodup
import AuthKademlia.Lib.Async
import AuthKademlia.Lib.Trace

/-! # What a program has done, and what its result says about that

Tasks interleave, but each does its own operations in order. `Tells` follows the ones
that matter, with their answers: each comes only after what the rule asks for, and the
result of the program fits all of them. The predicate is about a program alone, for any
answers within given bounds. `run_tells` carries it over to the runs of a system whose
worlds keep a record of all operations. -/
namespace AuthKademlia.Lib.Async
open AuthKademlia.Lib.Trace

variable {S : Sig} {α β γ : Type}

abbrev Deed (S : Sig) : Type := Σ o : S.Op, S.Ans o

/-- What is watched of a program: the operations that matter, the answers to reckon with,
and what must have been done before an operation that matters. -/
structure Watch (S : Sig) where
  matters : S.Op → Bool
  answers : (o : S.Op) → S.Ans o → Prop
  rule : List (Deed S) → S.Op → Prop

namespace Watch

variable (W : Watch S)

def relevant (deeds : List (Deed S)) : List (Deed S) := deeds.filter fun d => W.matters d.1

def note (deeds : List (Deed S)) (o : S.Op) (r : S.Ans o) : List (Deed S) :=
  if W.matters o then deeds ++ [⟨o, r⟩] else deeds

theorem relevant_snoc (deeds : List (Deed S)) (o : S.Op) (r : S.Ans o) :
    W.relevant (deeds ++ [⟨o, r⟩]) = W.note (W.relevant deeds) o r := by
  rw [relevant, List.filter_append, note]
  cases h : W.matters o <;> simp [h, relevant]

/-- After `deeds`, the program keeps to the rule, and if it ends then `Q` holds of all its
deeds and its result. Programs run side by side do nothing that matters. -/
def Tells : {α : Type} → Prog S α → (List (Deed S) → α → Prop) → List (Deed S) → Prop
  | _, .ret a, Q, deeds => Q deeds a
  | _, .op o k, Q, deeds => (W.matters o = true → W.rule deeds o) ∧
      ∀ r, W.answers o r → Tells (k r) Q (W.note deeds o r)
  | _, .join _ subs k, Q, deeds => (∀ i, (subs i).Within fun o => W.matters o = false) ∧
      ∀ rs, Tells (k rs) Q deeds

/-- Every deed that matters came after what the rule asks for. -/
def Obeyed (deeds : List (Deed S)) : Prop := Every (fun pre d => W.rule pre d.1) deeds

variable {W} {deeds : List (Deed S)}

theorem Tells.imp : ∀ {α : Type} {p : Prog S α} {Q R : List (Deed S) → α → Prop}
    {deeds : List (Deed S)}, (∀ ds x, Q ds x → R ds x) → W.Tells p Q deeds → W.Tells p R deeds
  | _, .ret x, _, _, deeds, hQR, h => hQR deeds x h
  | _, .op _ _, _, _, _, hQR, h => ⟨h.1, fun r hr => (h.2 r hr).imp hQR⟩
  | _, .join _ _ _, _, _, _, hQR, h => ⟨h.1, fun rs => (h.2 rs).imp hQR⟩

/-- **Sequencing.** -/
theorem Tells.bind : ∀ {α : Type} {p : Prog S α} {f : α → Prog S β}
    {Q : List (Deed S) → β → Prop} {deeds : List (Deed S)},
    W.Tells p (fun ds x => W.Tells (f x) Q ds) deeds → W.Tells (p >>= f) Q deeds
  | _, .ret _, _, _, _, h => h
  | _, .op _ _, _, _, _, h => ⟨h.1, fun r hr => (h.2 r hr).bind⟩
  | _, .join _ _ _, _, _, _, h => ⟨h.1, fun rs => (h.2 rs).bind⟩

theorem tells_noted {o : S.Op} {Q : List (Deed S) → S.Ans o → Prop} (ho : W.matters o = true)
    (hrule : W.rule deeds o) (h : ∀ r, W.answers o r → Q (deeds ++ [⟨o, r⟩]) r) :
    W.Tells (Prog.perform o) Q deeds := by
  refine ⟨fun _ => hrule, fun r hr => ?_⟩
  rw [note, if_pos ho]
  exact h r hr

theorem tells_aside : ∀ {α : Type} {p : Prog S α} {Q : List (Deed S) → α → Prop}
    {deeds : List (Deed S)}, (p.Within fun o => W.matters o = false) → (∀ x, Q deeds x) →
    W.Tells p Q deeds
  | _, .ret x, _, _, _, hQ => hQ x
  | _, .op o k, _, deeds, hp, hQ => by
    refine ⟨fun ho => ?_, fun r _ => ?_⟩
    · rw [hp.1] at ho
      cases ho
    · rw [note, hp.1, if_neg Bool.false_ne_true]
      exact tells_aside (hp.2 r) hQ
  | _, .join _ _ _, _, _, hp, hQ => ⟨hp.1, fun rs => tells_aside (hp.2 rs) hQ⟩

theorem Tells.after {p : Prog S α} {f : α → Prog S β} {Q : List (Deed S) → β → Prop}
    (hp : p.Within fun o => W.matters o = false) (hf : ∀ x, W.Tells (f x) Q deeds) :
    W.Tells (p >>= f) Q deeds :=
  (tells_aside hp hf).bind

end Watch

theorem System.step_exec (sys : System S) {a : sys.Agent} {pick : sys.Pick} {p p' : Prog S α}
    {path : List Nat} {w w' : sys.World} (h : sys.step a pick p path w = some (p', w')) :
    w' = w ∨ ∃ o pick r, sys.exec a o pick w = some (r, w') :=
  sys.step_rel (fun w w' => w' = w ∨ ∃ o pick r, sys.exec a o pick w = some (r, w'))
    (fun _ => Or.inl rfl) (fun hx => Or.inr ⟨_, _, _, hx⟩) h

theorem System.replay_agent (sys : System S) {ms : List sys.Move} {c c' : sys.Config}
    (h : sys.replay ms c = some c') {i : Nat} {p : sys.Proc} (hp : c.procs[i]? = some p) :
    ∃ p', c'.procs[i]? = some p' ∧ p'.agent = p.agent := by
  refine sys.replay_rel (fun c c' => ∀ p, c.procs[i]? = some p →
    ∃ p', c'.procs[i]? = some p' ∧ p'.agent = p.agent) (fun _ p hp => ⟨p, hp, rfl⟩)
    (fun h₁ h₂ p hp => ?_) (fun {c m c'} hm p hp => ?_) h p hp
  · obtain ⟨p₁, hp₁, ha₁⟩ := h₁ p hp
    obtain ⟨p₂, hp₂, ha₂⟩ := h₂ p₁ hp₁
    exact ⟨p₂, hp₂, ha₂.trans ha₁⟩
  · have hi := (List.getElem?_eq_some_iff.mp hp).1
    cases m with
    | step j path pick =>
      obtain ⟨q, hq, hm⟩ := Option.bind_eq_some_iff.mp hm
      obtain ⟨⟨t, w₂⟩, -, rfl⟩ := Option.map_eq_some_iff.mp hm
      by_cases hij : j = i
      · subst hij
        obtain rfl := Option.some.inj (hq.symm.trans hp)
        exact ⟨_, List.getElem?_set_self hi, rfl⟩
      · exact ⟨p, by rwa [List.getElem?_set_ne hij], rfl⟩
    | env e =>
      obtain ⟨w₂, -, rfl⟩ := Option.map_eq_some_iff.mp hm
      exact ⟨p, hp, rfl⟩
    | start call =>
      obtain ⟨r, -, rfl⟩ := Option.map_eq_some_iff.mp hm
      exact ⟨p, by rw [List.getElem?_append_left hi, hp], rfl⟩

/-- **Cutting a run**: where each move adds at most one entry to a list that is read off the
configurations, the run can be cut at the move that added a given one. -/
theorem System.cut (sys : System S) {ε : Type} (f : sys.Config → List ε)
    (hmove : ∀ {c m c'}, sys.move c m = some c' → f c' = f c ∨ ∃ x, f c' = f c ++ [x])
    {pre post : List ε} {x : ε} : ∀ {ms : List sys.Move} {c c' : sys.Config},
      sys.replay ms c = some c' → f c <+: pre → f c' = pre ++ x :: post →
      ∃ ms₁ m ms₂ e e', ms = ms₁ ++ m :: ms₂ ∧ sys.replay ms₁ c = some e ∧
        sys.move e m = some e' ∧ sys.replay ms₂ e' = some c' ∧ f e = pre ∧ f e' = pre ++ [x]
  | [], c, c', h, hpre, hc' => by
    obtain rfl : c = c' := Option.some.inj h
    have hlen := hpre.length_le
    rw [hc', List.length_append, List.length_cons] at hlen
    omega
  | m :: ms, c, c', h, hpre, hc' => by
    obtain ⟨c₁, hm, hms⟩ := Option.bind_eq_some_iff.mp h
    -- the entry comes later if `pre` covers the first move too
    have later (hpre₁ : f c₁ <+: pre) : ∃ ms₁ m' ms₂ e e', m :: ms = ms₁ ++ m' :: ms₂ ∧
        sys.replay ms₁ c = some e ∧ sys.move e m' = some e' ∧ sys.replay ms₂ e' = some c' ∧
        f e = pre ∧ f e' = pre ++ [x] := by
      obtain ⟨ms₁, m', ms₂, e, e', rfl, he, hrest⟩ := cut sys f hmove hms hpre₁ hc'
      exact ⟨m :: ms₁, m', ms₂, e, e', rfl, Option.bind_eq_some_iff.mpr ⟨c₁, hm, he⟩, hrest⟩
    rcases hmove hm with hsame | ⟨y, hself⟩
    · exact later (by rwa [hsame])
    have hgrows : f c₁ <+: f c' := by
      refine sys.replay_rel (fun c c' => f c <+: f c') (fun _ => List.prefix_rfl)
        (fun h h' => h.trans h') (fun hm => ?_) hms
      rcases hmove hm with hsame | ⟨z, hsnoc⟩
      · rw [hsame]
      · rw [hsnoc]
        exact List.prefix_append _ _
    rw [hself, hc'] at hgrows
    obtain ⟨rest, rfl⟩ := hpre
    cases rest with
    | nil =>
      rw [List.append_nil, List.prefix_append_right_inj] at hgrows
      obtain ⟨rfl, -⟩ := List.cons_prefix_cons.mp hgrows
      rw [List.append_nil]
      exact ⟨[], m, ms, c, c₁, rfl, rfl, hm, hms, rfl, hself⟩
    | cons z rest =>
      rw [List.append_assoc, List.prefix_append_right_inj, List.cons_append] at hgrows
      obtain ⟨rfl, -⟩ := List.cons_prefix_cons.mp hgrows
      refine later ?_
      rw [hself, List.prefix_append_right_inj]
      exact List.cons_prefix_cons.mpr ⟨rfl, List.nil_prefix⟩

/-- How the worlds of a system record what its programs do. -/
structure Logbook (sys : System S) where
  deeds : sys.World → sys.Agent → List (Deed S)
  exec_self : ∀ {a o pick w r w'}, sys.exec a o pick w = some (r, w') →
    deeds w' a = deeds w a ++ [⟨o, r⟩]
  exec_other : ∀ {a b o pick w r w'}, sys.exec a o pick w = some (r, w') → b ≠ a →
    deeds w' b = deeds w b
  env : ∀ {e w w'} (a : sys.Agent), sys.env e w = some w' → deeds w' a = deeds w a

namespace Logbook

variable {sys : System S} (B : Logbook sys) {a b : sys.Agent} {pick : sys.Pick}

theorem step_other (hne : b ≠ a) {p p' : Prog S α} {path : List Nat} {w w' : sys.World}
    (h : sys.step a pick p path w = some (p', w')) : B.deeds w' b = B.deeds w b :=
  sys.step_rel (fun w w' => B.deeds w' b = B.deeds w b) (fun _ => rfl)
    (fun hx => B.exec_other hx hne) h

/-- **A step of a program that tells what it did** leaves one. -/
theorem step_tells {W : Watch S}
    (hanswers : ∀ {o pick w r w'}, sys.exec a o pick w = some (r, w') → W.answers o r) :
    ∀ {α : Type} {p p' : Prog S α} {Q : List (Deed S) → α → Prop} {path : List Nat}
      {w w' : sys.World}, W.Obeyed (W.relevant (B.deeds w a)) →
      W.Tells p Q (W.relevant (B.deeds w a)) → sys.step a pick p path w = some (p', w') →
      W.Obeyed (W.relevant (B.deeds w' a)) ∧ W.Tells p' Q (W.relevant (B.deeds w' a))
  | _, .ret _, _, _, path, _, _, _, _, h => by cases path <;> cases h
  | _, .op o k, _, _, [], w, _, hobeyed, hp, h => by
    obtain ⟨⟨r, w₂⟩, hr, he⟩ := Option.map_eq_some_iff.mp h
    obtain ⟨rfl, rfl⟩ := Prod.mk.inj he
    have hself := B.exec_self hr
    rw [hself, W.relevant_snoc]
    refine ⟨?_, hp.2 r (hanswers hr)⟩
    rw [Watch.note]
    split
    · exact every_snoc.mpr ⟨hobeyed, hp.1 ‹_›⟩
    · exact hobeyed
  | _, .op _ _, _, _, _ :: _, _, _, _, _, h => by cases h
  | _, .join n subs k, _, _, [], _, _, hobeyed, hp, h => by
    simp only [System.step] at h
    split at h
    · obtain ⟨rfl, rfl⟩ := Prod.mk.inj (Option.some.inj h)
      exact ⟨hobeyed, hp.2 _⟩
    · cases h
  | _, .join n subs k, _, _, i :: path, w, _, hobeyed, hp, h => by
    simp only [System.step] at h
    split at h
    · rename_i hi
      obtain ⟨⟨t, w₂⟩, ht, he⟩ := Option.map_eq_some_iff.mp h
      obtain ⟨rfl, rfl⟩ := Prod.mk.inj he
      obtain ⟨hsub, hsame⟩ := sys.step_within (a := a)
        (fun w w' => W.relevant (B.deeds w' a) = W.relevant (B.deeds w a)) (fun _ => rfl)
        (fun {o pick w r w'} ho hx => by
          rw [B.exec_self hx, W.relevant_snoc, Watch.note, ho, if_neg Bool.false_ne_true])
        (hp.1 ⟨i, hi⟩) ht
      rw [hsame]
      refine ⟨hobeyed, fun j => ?_, hp.2⟩
      by_cases hj : j = ⟨i, hi⟩
      · rw [hj, Function.update_self]
        exact hsub
      · rw [Function.update_of_ne hj]
        exact hp.1 j
    · cases h

/-- **The rule for runs.** Every call starts a program that tells what it will have done,
for a task that has done nothing yet and is none of those before: then in every
configuration of a run each task has obeyed its rule, and tells what it did. -/
theorem run_tells {init : sys.World} (W : sys.Agent → Watch S)
    (Q : sys.Agent → List (Deed S) → sys.Res → Prop)
    (hanswers : ∀ {a o pick w r w'}, sys.exec a o pick w = some (r, w') → (W a).answers o r)
    (hfresh : ∀ {c : sys.Config} {call a p}, sys.Run init c →
      sys.start call c.procs.length c.world = some (a, p) →
      B.deeds c.world a = [] ∧ ∀ q ∈ c.procs, q.agent ≠ a)
    (hstart : ∀ {call n w a p}, sys.start call n w = some (a, p) → (W a).Tells p (Q a) [])
    {c : sys.Config} (h : sys.Run init c) :
    (c.procs.map System.Proc.agent).Nodup ∧ ∀ p ∈ c.procs,
      (W p.agent).Obeyed ((W p.agent).relevant (B.deeds c.world p.agent)) ∧
      (W p.agent).Tells p.prog (Q p.agent) ((W p.agent).relevant (B.deeds c.world p.agent)) := by
  induction h with
  | init => exact ⟨List.nodup_nil, fun p hp => by cases hp⟩
  | @move c c' m hrun hm ih =>
    obtain ⟨hnd, hall⟩ := ih
    cases m with
    | step i path pick =>
      obtain ⟨p, hp, hm⟩ := Option.bind_eq_some_iff.mp hm
      obtain ⟨⟨t, w₂⟩, ht, rfl⟩ := Option.map_eq_some_iff.mp hm
      obtain ⟨hi, rfl⟩ := List.getElem?_eq_some_iff.mp hp
      have hagents : (c.procs.set i ⟨(c.procs[i]).agent, t⟩).map System.Proc.agent =
          c.procs.map System.Proc.agent := by
        rw [List.map_set, ← List.getElem_map System.Proc.agent, List.set_getElem_self]
        rwa [List.length_map]
      refine ⟨hagents ▸ hnd, fun q hq => ?_⟩
      obtain ⟨j, hj, rfl⟩ := List.mem_iff_getElem.mp hq
      rw [List.length_set] at hj
      by_cases hij : i = j
      · subst hij
        rw [List.getElem_set_self]
        obtain ⟨hobeyed, htells⟩ := hall _ (List.getElem_mem hi)
        exact B.step_tells hanswers hobeyed htells ht
      · rw [List.getElem_set_ne hij]
        have hne : (c.procs[j]).agent ≠ (c.procs[i]).agent := by
          intro he
          have hsame := List.inj_on_of_nodup_map hnd (List.getElem_mem hj) (List.getElem_mem hi) he
          exact hij ((List.Nodup.getElem_inj_iff hnd.of_map).mp hsame).symm
        rw [B.step_other hne ht]
        exact hall _ (List.getElem_mem hj)
    | env e =>
      obtain ⟨w₂, hw, rfl⟩ := Option.map_eq_some_iff.mp hm
      refine ⟨hnd, fun q hq => ?_⟩
      rw [B.env q.agent hw]
      exact hall q hq
    | start call =>
      obtain ⟨⟨ag, t⟩, ht, rfl⟩ := Option.map_eq_some_iff.mp hm
      obtain ⟨hnothing, hnew⟩ := hfresh hrun ht
      refine ⟨?_, fun q hq => ?_⟩
      · rw [List.map_append, List.nodup_append]
        refine ⟨hnd, List.nodup_singleton _, fun x hx y hy => ?_⟩
        obtain ⟨q, hq, rfl⟩ := List.mem_map.mp hx
        rw [List.mem_singleton.mp hy]
        exact hnew q hq
      · rcases List.mem_append.mp hq with hq | hq
        · exact hall q hq
        · rw [List.mem_singleton] at hq
          subst hq
          rw [hnothing]
          exact ⟨every_nil, hstart ht⟩

/-! ## When a deed was done -/

theorem move_cases {c c' : sys.Config} {m : sys.Move} (h : sys.move c m = some c')
    (a : sys.Agent) : B.deeds c'.world a = B.deeds c.world a ∨
      ∃ o pick r, sys.exec a o pick c.world = some (r, c'.world) := by
  cases m with
  | step i path pick =>
    obtain ⟨p, -, h⟩ := Option.bind_eq_some_iff.mp h
    obtain ⟨⟨t, w₂⟩, ht, rfl⟩ := Option.map_eq_some_iff.mp h
    by_cases ha : a = p.agent
    · subst ha
      rcases sys.step_exec ht with hw | hx
      · exact Or.inl (by rw [hw])
      · exact Or.inr hx
    · exact Or.inl (B.step_other ha ht)
  | env e =>
    obtain ⟨w₂, hw, rfl⟩ := Option.map_eq_some_iff.mp h
    exact Or.inl (B.env a hw)
  | start call =>
    obtain ⟨r, -, rfl⟩ := Option.map_eq_some_iff.mp h
    exact Or.inl rfl

/-- **The move that did a deed**: a run that does `d` after the deeds `pre` can be cut at
the operation. -/
theorem cut {W : Watch S} {pre post : List (Deed S)} {d : Deed S} {ms : List sys.Move}
    {c c' : sys.Config} (h : sys.replay ms c = some c')
    (hpre : W.relevant (B.deeds c.world a) <+: pre)
    (hc' : W.relevant (B.deeds c'.world a) = pre ++ d :: post) :
    ∃ ms₁ m ms₂ e e' pick, ms = ms₁ ++ m :: ms₂ ∧ sys.replay ms₁ c = some e ∧
      sys.move e m = some e' ∧ sys.replay ms₂ e' = some c' ∧
      sys.exec a d.1 pick e.world = some (d.2, e'.world) ∧
      W.relevant (B.deeds e.world a) = pre := by
  have hmove : ∀ {e m e'}, sys.move e m = some e' →
      W.relevant (B.deeds e'.world a) = W.relevant (B.deeds e.world a) ∨
      ∃ o pick r, sys.exec a o pick e.world = some (r, e'.world) ∧
        W.relevant (B.deeds e'.world a) = W.relevant (B.deeds e.world a) ++ [⟨o, r⟩] := by
    intro e m e' hm
    rcases B.move_cases hm a with hsame | ⟨o, pick, r, hx⟩
    · exact Or.inl (by rw [hsame])
    rw [B.exec_self hx, W.relevant_snoc, Watch.note]
    split
    · exact Or.inr ⟨o, pick, r, hx, rfl⟩
    · exact Or.inl rfl
  obtain ⟨ms₁, m, ms₂, e, e', hms, he, hm, hafter, hpre', hnew⟩ :=
    sys.cut (fun c => W.relevant (B.deeds c.world a))
      (fun hm => (hmove hm).imp id fun ⟨o, _, r, _, h⟩ => ⟨⟨o, r⟩, h⟩) h hpre hc'
  rcases hmove hm with hsame | ⟨o, pick, r, hx, hsnoc⟩
  · have hlen := congrArg List.length (hpre'.symm.trans (hsame.symm.trans hnew))
    simp at hlen
  · obtain rfl := List.singleton_inj.mp
      (List.append_cancel_left (hsnoc.symm.trans (hnew.trans (by rw [hpre']))))
    exact ⟨ms₁, m, ms₂, e, e', pick, hms, he, hm, hafter, hx, hpre'⟩

end Logbook

end AuthKademlia.Lib.Async
