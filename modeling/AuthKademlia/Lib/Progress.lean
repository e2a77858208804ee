import AuthKademlia.Lib.Async

/-! # Programs that come to their end

`Goes` says of a program that it never gets stuck: whenever it has reached an
operation, the others can bring the world to a state in which the operation has
an outcome. `Goes.finishes` is the rule: a process whose program goes on can be run
to its end, while the processes beside it stay as they are and new ones join. -/
namespace AuthKademlia.Lib.Async

variable {S : Sig} {α β γ : Type}

namespace System

variable (sys : System S)

/-- The system can move from one configuration to the other. -/
def Leads (c c' : sys.Config) : Prop := ∃ ms, sys.replay ms c = some c'

/-- Meanwhile other processes were started and run. -/
def Helped (c c' : sys.Config) : Prop := sys.Leads c c' ∧ c.procs <+: c'.procs

variable {sys} {init : sys.World} {c c' c'' : sys.Config} {a : sys.Agent}

theorem replay_append (ms ms' : List sys.Move) (c : sys.Config) :
    sys.replay (ms ++ ms') c = (sys.replay ms c).bind (sys.replay ms') := by
  induction ms generalizing c with
  | nil => rfl
  | cons m ms ih =>
    simp only [List.cons_append, replay]
    cases sys.move c m with
    | none => rfl
    | some d => exact ih d

namespace Leads

protected theorem refl (c : sys.Config) : sys.Leads c c := ⟨[], rfl⟩

protected theorem trans (h : sys.Leads c c') (h' : sys.Leads c' c'') : sys.Leads c c'' := by
  obtain ⟨ms, hms⟩ := h
  obtain ⟨ms', hms'⟩ := h'
  refine ⟨ms ++ ms', ?_⟩
  rw [replay_append, hms]
  exact hms'

theorem move {m : sys.Move} (h : sys.move c m = some c') : sys.Leads c c' :=
  ⟨[m], by simp only [replay, h, Option.bind_some]⟩

theorem run (h : sys.Leads c c') (hrun : sys.Run init c) : sys.Run init c' := by
  obtain ⟨ms, hms⟩ := h
  exact hrun.replay _ ms hms

end Leads

protected theorem Helped.refl (c : sys.Config) : sys.Helped c c := ⟨.refl c, List.prefix_rfl⟩

/-- The steps of a program at a place inside a process are steps of the process. -/
def Context (a : sys.Agent) (C : Prog S α → Prog S β) (pre : List Nat) : Prop :=
  ∀ {p p' : Prog S α} {path : List Nat} {pick : sys.Pick} {w w' : sys.World},
    sys.step a pick p path w = some (p', w') →
    sys.step a pick (C p) (pre ++ path) w = some (C p', w')

theorem Context.id : sys.Context a (fun p : Prog S α => p) [] := fun h => h

theorem Context.join {C : Prog S β → Prog S γ} {pre : List Nat} (hC : sys.Context a C pre)
    {n : Nat} (subs : Fin n → Prog S α) (k : (Fin n → α) → Prog S β) (i : Fin n) :
    sys.Context a (fun q => C (.join n (Function.update subs i q) k)) (pre ++ [i.val]) := by
  intro p p' path pick w w' h
  rw [List.append_assoc]
  refine hC ?_
  simp only [List.cons_append, List.nil_append, step, Fin.eta, i.isLt, dite_true,
    Function.update_self, h, Option.map_some, Function.update_idem]

end System

namespace Logic

variable {sys : System S} (L : Logic sys) (init : sys.World)

/-- The program never gets stuck, from a world on that moves along the order. -/
def Goes (a : sys.Agent) : {α : Type} → Prog S α → sys.World → Prop
  | _, .ret _, _ => True
  | _, .op o k, w =>
    (∀ c, sys.Run init c → L.le w c.world →
      ∃ c', sys.Helped c c' ∧ ∃ pick x, sys.exec a o pick c'.world = some x) ∧
    ∀ w₁ pick r w₂, L.le w w₁ → sys.exec a o pick w₁ = some (r, w₂) → L.le w₁ w₂ → Goes a (k r) w₂
  | _, .join _ subs k, w => (∀ i, Goes a (subs i) w) ∧ ∀ rs w₁, L.le w w₁ → Goes a (k rs) w₁

variable {L} {init} {a : sys.Agent} {w w' : sys.World}

theorem Goes.mono : ∀ {α : Type} {p : Prog S α} {w w' : sys.World}, L.le w w' →
    L.Goes init a p w → L.Goes init a p w'
  | _, .ret _, _, _, _, _ => trivial
  | _, .op _ _, _, _, hle, h =>
    ⟨fun c hrun hc => h.1 c hrun (L.trans hle hc),
      fun w₁ pick r w₂ hw => h.2 w₁ pick r w₂ (L.trans hle hw)⟩
  | _, .join _ _ _, _, _, hle, h =>
    ⟨fun i => (h.1 i).mono hle, fun rs w₁ hw => h.2 rs w₁ (L.trans hle hw)⟩

theorem Goes.step : ∀ {α : Type} {p p' : Prog S α} {path : List Nat} {pick : sys.Pick}
    {w w₁ w₂ : sys.World}, L.Goes init a p w → L.le w w₁ → L.le w₁ w₂ →
    sys.step a pick p path w₁ = some (p', w₂) → L.Goes init a p' w₂
  | _, .ret _, _, path, _, _, _, _, _, _, _, hs => by cases path <;> cases hs
  | _, .op o k, _, [], pick, _, _, _, h, hw, hle, hs => by
    obtain ⟨⟨r, w₃⟩, hr, he⟩ := Option.map_eq_some_iff.mp hs
    obtain ⟨rfl, rfl⟩ := Prod.mk.inj he
    exact h.2 _ pick r _ hw hr hle
  | _, .op _ _, _, _ :: _, _, _, _, _, _, _, _, hs => by cases hs
  | _, .join n subs k, _, [], _, _, _, _, h, hw, _, hs => by
    simp only [System.step] at hs
    split at hs
    · obtain ⟨rfl, rfl⟩ := Prod.mk.inj (Option.some.inj hs)
      exact h.2 _ _ hw
    · cases hs
  | _, .join n subs k, _, i :: path, _, _, _, _, h, hw, hle, hs => by
    simp only [System.step] at hs
    split at hs
    · rename_i hlt
      obtain ⟨⟨t, w₃⟩, ht, he⟩ := Option.map_eq_some_iff.mp hs
      obtain ⟨rfl, rfl⟩ := Prod.mk.inj he
      refine ⟨fun j => ?_, fun rs w₁ hw₁ => h.2 rs w₁ (L.trans hw (L.trans hle hw₁))⟩
      by_cases hj : j = ⟨i, hlt⟩
      · subst hj
        rw [Function.update_self]
        exact (h.1 ⟨i, hlt⟩).step hw hle ht
      · rw [Function.update_of_ne hj]
        exact (h.1 j).mono (L.trans hw hle)
    · cases hs

theorem Goes.pure (x : α) : L.Goes init a (Pure.pure x : Prog S α) w := trivial

theorem Goes.perform {o : S.Op} {f : S.Ans o → Prog S β}
    (hready : ∀ c, sys.Run init c → L.le w c.world →
      ∃ c', sys.Helped c c' ∧ ∃ pick x, sys.exec a o pick c'.world = some x)
    (hrest : ∀ w₁ pick r w₂, L.le w w₁ → sys.exec a o pick w₁ = some (r, w₂) → L.le w₁ w₂ →
      L.Goes init a (f r) w₂) : L.Goes init a (Prog.perform o >>= f) w :=
  ⟨hready, hrest⟩

theorem Goes.bind : ∀ {α : Type} {p : Prog S α} {f : α → Prog S β} {w : sys.World},
    L.Goes init a p w → (∀ x w₁, L.le w w₁ → L.Goes init a (f x) w₁) →
    L.Goes init a (p >>= f) w
  | _, .ret x, _, w, _, hf => hf x w (L.refl w)
  | _, .op _ _, _, _, h, hf =>
    ⟨h.1, fun w₁ pick r w₂ hw hx hle => (h.2 w₁ pick r w₂ hw hx hle).bind
      fun x w₃ hw₃ => hf x w₃ (L.trans hw (L.trans hle hw₃))⟩
  | _, .join _ _ _, _, _, h, hf =>
    ⟨h.1, fun rs w₁ hw => (h.2 rs w₁ hw).bind fun x w₂ hw₂ => hf x w₂ (L.trans hw hw₂)⟩

theorem Goes.joinAll {l : List γ} {f : γ → Prog S β} (h : ∀ x ∈ l, L.Goes init a (f x) w) :
    L.Goes init a (Prog.joinAll l f) w :=
  ⟨fun _ => h _ (List.get_mem _ _), fun _ _ _ => trivial⟩

theorem Goes.of_within {ok : S.Op → Prop}
    (hready : ∀ {o} (c : sys.Config), ok o → ∃ pick x, sys.exec a o pick c.world = some x) :
    ∀ {α : Type} {p : Prog S α} {w : sys.World}, p.Within ok → L.Goes init a p w
  | _, .ret _, _, _ => trivial
  | _, .op _ _, _, h =>
    ⟨fun c _ _ => ⟨c, .refl c, hready c h.1⟩, fun _ _ r _ _ _ _ => Goes.of_within hready (h.2 r)⟩
  | _, .join _ _ _, _, h =>
    ⟨fun i => Goes.of_within hready (h.1 i), fun rs _ _ => Goes.of_within hready (h.2 rs)⟩

/-- A process can run its program `p`, at a place `C` inside it, to the end. -/
def Finishes (L : Logic sys) (init : sys.World) (a : sys.Agent) (p : Prog S α) (w : sys.World) :
    Prop :=
  ∀ {C : Prog S α → Prog S sys.Res} {pre : List Nat} {c : sys.Config} {i : Nat},
    sys.Context a C pre → sys.Run init c → L.le w c.world → c.procs[i]? = some ⟨a, C p⟩ →
    ∃ c' x, sys.Leads c c' ∧ c.procs.set i ⟨a, C (.ret x)⟩ <+: c'.procs

section
variable {τ : Type*} {l l' : List τ} {i : Nat} {x : τ}

private theorem set_same_place (h : l[i]? = some x) : l.set i x = l := by
  obtain ⟨hi, rfl⟩ := List.getElem?_eq_some_iff.mp h
  exact List.set_getElem_self hi

private theorem prefix_same_place (h : l[i]? = some x) : l.set i x <+: l :=
  ⟨[], by rw [List.append_nil, set_same_place h]⟩

private theorem prefix_set (h : l <+: l') (hi : i < l.length) (x : τ) :
    l.set i x <+: l'.set i x := by
  obtain ⟨t, rfl⟩ := h
  rw [List.set_append_left _ _ hi]
  exact List.prefix_append _ _

private theorem getElem?_of_prefix (h : l <+: l') (hx : l[i]? = some x) : l'[i]? = some x := by
  obtain ⟨t, rfl⟩ := h
  rw [List.getElem?_append_left (List.getElem?_eq_some_iff.mp hx).1, hx]

end

theorem Finishes.step {p p' : Prog S α} {C : Prog S α → Prog S sys.Res} {pre path : List Nat}
    {c : sys.Config} {i : Nat} {pick : sys.Pick} {w₁ w₂ : sys.World}
    (hC : sys.Context a C pre) (hrun : sys.Run init c) (hi : c.procs[i]? = some ⟨a, C p⟩)
    (hstep : sys.step a pick p path c.world = some (p', w₁)) (hw : L.le w₂ w₁)
    (h : L.Finishes init a p' w₂) :
    ∃ c' x, sys.Leads c c' ∧ c.procs.set i ⟨a, C (.ret x)⟩ <+: c'.procs := by
  have hlt : i < c.procs.length := (List.getElem?_eq_some_iff.mp hi).1
  have hmove : sys.move c (.step i (pre ++ path) pick) =
      some ⟨w₁, c.procs.set i ⟨a, C p'⟩⟩ := by
    simp only [System.move, hi, Option.bind_some, hC hstep, Option.map_some]
  obtain ⟨c', x, hlead, hpre⟩ := h hC (.move _ hrun hmove) hw (List.getElem?_set_self hlt)
  rw [List.set_set] at hpre
  exact ⟨c', x, (System.Leads.move hmove).trans hlead, hpre⟩

section
variable (hle : ∀ {c m c'}, sys.Run init c → sys.move c m = some c' → L.le c.world c'.world)
include hle

theorem le_of_leads {c c' : sys.Config} (hrun : sys.Run init c) (h : sys.Leads c c') :
    L.le c.world c'.world := by
  obtain ⟨ms, hms⟩ := h
  induction ms generalizing c with
  | nil =>
    have hc : c = c' := Option.some.inj hms
    exact hc ▸ L.refl _
  | cons m ms ih =>
    obtain ⟨d, hd, hms⟩ := Option.bind_eq_some_iff.mp hms
    exact L.trans (hle hrun hd) (ih (.move m hrun hd) hms)

theorem run_goes (hstart : ∀ {call n c a p}, sys.Run init c →
      sys.start call n c.world = some (a, p) → L.Goes init a p c.world)
    {c : sys.Config} (h : sys.Run init c) :
    ∀ p ∈ c.procs, L.Goes init p.agent p.prog c.world := by
  induction h with
  | init => exact fun p hp => by simp at hp
  | @move c c' m hrun hm ih =>
    have hw := hle hrun hm
    cases m with
    | step i path pick =>
      obtain ⟨p, hp, hm⟩ := Option.bind_eq_some_iff.mp hm
      obtain ⟨⟨t, w₂⟩, ht, rfl⟩ := Option.map_eq_some_iff.mp hm
      intro q hq
      rcases List.mem_or_eq_of_mem_set hq with hq | rfl
      · exact (ih q hq).mono hw
      · exact (ih p (List.mem_of_getElem? hp)).step (L.refl _) hw ht
    | env e =>
      obtain ⟨w₂, -, rfl⟩ := Option.map_eq_some_iff.mp hm
      exact fun q hq => (ih q hq).mono hw
    | start call =>
      obtain ⟨⟨ag, t⟩, ht, rfl⟩ := Option.map_eq_some_iff.mp hm
      intro q hq
      rcases List.mem_append.mp hq with hq | hq
      · exact ih q hq
      · obtain rfl := List.mem_singleton.mp hq
        exact hstart (c := c) hrun ht

/-- The programs of a `join`, one after the other. -/
theorem finishes_subs {n : Nat} {subs : Fin n → Prog S β} {k : (Fin n → β) → Prog S α}
    (ih : ∀ j, L.Finishes init a (subs j) w) {C : Prog S α → Prog S sys.Res} {pre : List Nat}
    (hC : sys.Context a C pre) {i : Nat} : ∀ (l : List (Fin n)), l.Nodup →
    ∀ {now : Fin n → Prog S β} {c : sys.Config}, (∀ j ∈ l, now j = subs j) →
      (∀ j, j ∉ l → (now j).value?.isSome) → sys.Run init c → L.le w c.world →
      c.procs[i]? = some ⟨a, C (.join n now k)⟩ →
      ∃ c' done, sys.Leads c c' ∧ (∀ j, (done j).value?.isSome) ∧
        c.procs.set i ⟨a, C (.join n done k)⟩ <+: c'.procs
  | [], _, now, c, _, hdone, _, _, hi => by
    refine ⟨c, now, .refl c, fun j => hdone j List.not_mem_nil, ?_⟩
    exact prefix_same_place hi
  | j :: l, hnd, now, c, htodo, hdone, hrun, hw, hi => by
    obtain ⟨hj, hnd⟩ := List.nodup_cons.mp hnd
    have hlt : i < c.procs.length := (List.getElem?_eq_some_iff.mp hi).1
    have hat : c.procs[i]? = some ⟨a, C (.join n (Function.update now j (subs j)) k)⟩ := by
      rw [← htodo j List.mem_cons_self, Function.update_eq_self]
      exact hi
    obtain ⟨c₁, x, hlead, hpre⟩ := ih j (hC.join now k j) hrun hw hat
    have hi₁ := getElem?_of_prefix hpre (List.getElem?_set_self hlt)
    obtain ⟨c₂, done, hlead₂, hall, hpre₂⟩ := finishes_subs ih hC l hnd
      (fun m hm => by
        have hne : m ≠ j := fun he => hj (he ▸ hm)
        rw [Function.update_of_ne hne, htodo m (List.mem_cons_of_mem _ hm)])
      (fun m hm => by
        by_cases hmj : m = j
        · rw [hmj, Function.update_self]
          rfl
        · rw [Function.update_of_ne hmj]
          exact hdone m fun hmem => (List.mem_cons.mp hmem).elim hmj hm)
      (hlead.run hrun) (L.trans hw (le_of_leads hle hrun hlead)) hi₁
    refine ⟨c₂, done, hlead.trans hlead₂, hall, ?_⟩
    have hset := prefix_set hpre (by rw [List.length_set]; exact hlt) ⟨a, C (.join n done k)⟩
    rw [List.set_set] at hset
    exact hset.trans hpre₂

/-- **Whatever goes on can be finished.** -/
theorem Goes.finishes (pick₀ : sys.Pick) : ∀ {α : Type} {p : Prog S α} {w : sys.World},
    L.Goes init a p w → L.Finishes init a p w
  | _, .ret x, _, _, C, _, c, i, _, _, _, hi => by
    refine ⟨c, x, .refl c, ?_⟩
    exact prefix_same_place hi
  | _, .op o k, w, h, C, pre, c, i, hC, hrun, hw, hi => by
    obtain ⟨c₁, ⟨hlead, hpre⟩, pick, ⟨r, w₂⟩, hx⟩ := h.1 c hrun hw
    have hrun₁ := hlead.run hrun
    have hw₁ := L.trans hw (le_of_leads hle hrun hlead)
    have hi₁ := getElem?_of_prefix hpre hi
    have hstep : sys.step a pick (.op o k) [] c₁.world = some (k r, w₂) := by
      simp only [System.step, hx, Option.map_some]
    have hmove : sys.move c₁ (.step i (pre ++ []) pick) =
        some ⟨w₂, c₁.procs.set i ⟨a, C (k r)⟩⟩ := by
      simp only [System.move, hi₁, Option.bind_some, hC hstep, Option.map_some]
    have hrest : L.Finishes init a (k r) w₂ :=
      Goes.finishes pick₀ (h.2 c₁.world pick r w₂ hw₁ hx (hle hrun₁ hmove))
    obtain ⟨c', x, hlead', hpre'⟩ := Finishes.step hC hrun₁ hi₁ hstep (L.refl w₂) hrest
    refine ⟨c', x, hlead.trans hlead', ?_⟩
    exact (prefix_set hpre (List.getElem?_eq_some_iff.mp hi).1 _).trans hpre'
  | _, .join n subs k, w, h, C, pre, c, i, hC, hrun, hw, hi => by
    have ih : ∀ j, L.Finishes init a (subs j) w := fun j => Goes.finishes pick₀ (h.1 j)
    obtain ⟨c₁, done, hlead, hall, hpre⟩ := finishes_subs hle ih hC
      (List.finRange n) (List.nodup_finRange n) (fun _ _ => rfl)
      (fun j hj => absurd (List.mem_finRange j) hj) hrun hw hi
    have hlt : i < c.procs.length := (List.getElem?_eq_some_iff.mp hi).1
    have hi₁ := getElem?_of_prefix hpre (List.getElem?_set_self hlt)
    have hw₁ := L.trans hw (le_of_leads hle hrun hlead)
    have hstep : sys.step a pick₀ (.join n done k) [] c₁.world =
        some (k fun j => (done j).value?.get (hall j), c₁.world) := by
      simp only [System.step, dif_pos hall]
    have hrest : L.Finishes init a (k fun j => (done j).value?.get (hall j)) c₁.world :=
      Goes.finishes pick₀ (h.2 _ c₁.world hw₁)
    obtain ⟨c', x, hlead', hpre'⟩ :=
      Finishes.step hC (hlead.run hrun) hi₁ hstep (L.refl c₁.world) hrest
    refine ⟨c', x, hlead.trans hlead', ?_⟩
    have hset := prefix_set hpre (by rw [List.length_set]; exact hlt) ⟨a, C (.ret x)⟩
    rw [List.set_set] at hset
    exact hset.trans hpre'

end

end Logic

end AuthKademlia.Lib.Async
