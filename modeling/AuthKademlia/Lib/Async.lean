import Mathlib.Logic.Function.Basic
import Mathlib.Data.List.Forall2
import Mathlib.Data.List.OfFn

/-! # Concurrent programs over a shared world

A program is a tree of operations: at each one it hands control back, and it
goes on with the operation's answer. `join` runs several programs side by side
and waits for all of them. A `System` gives the operations their meaning on a
world shared by any number of running programs; its runs interleave them at
operations, in any order, with moves of the environment and with new calls.

`Safe` is the logic of such programs. A program keeps a global invariant at
every operation, whatever the others did since its previous one, as long as the
world only moved along a given order. `run_safe` is the rule for whole runs. -/
namespace AuthKademlia.Lib.Async

/-- Operations and the types of their answers. -/
structure Sig where
  Op : Type
  Ans : Op → Type

inductive Prog (S : Sig) : Type → Type 1
  | ret {α : Type} (a : α) : Prog S α
  | op {α : Type} (o : S.Op) (k : S.Ans o → Prog S α) : Prog S α
  | join {α β : Type} (n : Nat) (subs : Fin n → Prog S β) (k : (Fin n → β) → Prog S α) : Prog S α

variable {S : Sig} {α β γ : Type}

namespace Prog

def bind : {α : Type} → Prog S α → (α → Prog S β) → Prog S β
  | _, .ret a, f => f a
  | _, .op o k, f => .op o fun r => bind (k r) f
  | _, .join n subs k, f => .join n subs fun rs => bind (k rs) f

instance : Monad (Prog S) where
  pure := .ret
  bind := bind

def perform (o : S.Op) : Prog S (S.Ans o) := .op o .ret

/-- Run `f x` for every `x` of a list side by side; the results in list order. -/
def joinAll (l : List γ) (f : γ → Prog S β) : Prog S (List β) :=
  .join l.length (fun i => f (l.get i)) fun rs => .ret (List.ofFn rs)

/-- The result of a finished program. -/
def value? : {α : Type} → Prog S α → Option α
  | _, .ret a => some a
  | _, .op _ _ => none
  | _, .join _ _ _ => none

theorem eq_ret_of_value? {p : Prog S α} {a : α} (h : p.value? = some a) : p = .ret a := by
  cases p with
  | ret b => exact congrArg Prog.ret (Option.some.inj h)
  | op o k => cases h
  | join n subs k => cases h

/-- The results a program may end with, whatever its operations answer. -/
def Returns : {α : Type} → Prog S α → α → Prop
  | _, .ret b, a => b = a
  | _, .op _ k, a => ∃ r, Returns (k r) a
  | _, @Prog.join _ _ β n subs k, a =>
    ∃ rs : Fin n → β, (∀ i, Returns (subs i) (rs i)) ∧ Returns (k rs) a

theorem Returns.of_bind : ∀ {α : Type} {p : Prog S α} {f : α → Prog S β} {b : β},
    (p.bind f).Returns b → ∃ a, p.Returns a ∧ (f a).Returns b
  | _, .ret a, _, _, h => ⟨a, rfl, h⟩
  | _, .op _ _, _, _, h => by
    obtain ⟨r, h⟩ := h
    obtain ⟨a, ha, hb⟩ := Returns.of_bind h
    exact ⟨a, ⟨r, ha⟩, hb⟩
  | _, .join _ _ _, _, _, h => by
    obtain ⟨rs, hrs, h⟩ := h
    obtain ⟨a, ha, hb⟩ := Returns.of_bind h
    exact ⟨a, ⟨rs, hrs, ha⟩, hb⟩

/-- Every operation of the program, whatever the earlier ones answer, is `ok`. -/
def Within (ok : S.Op → Prop) : {α : Type} → Prog S α → Prop
  | _, .ret _ => True
  | _, .op o k => ok o ∧ ∀ r, Within ok (k r)
  | _, .join _ subs k => (∀ i, Within ok (subs i)) ∧ ∀ rs, Within ok (k rs)

section
variable {ok : S.Op → Prop}

theorem Within.imp {ok' : S.Op → Prop} (himp : ∀ o, ok o → ok' o) : ∀ {α : Type} {p : Prog S α},
    Within ok p → Within ok' p
  | _, .ret _, _ => trivial
  | _, .op o _, h => ⟨himp o h.1, fun r => Within.imp himp (h.2 r)⟩
  | _, .join _ _ _, h => ⟨fun i => Within.imp himp (h.1 i), fun rs => Within.imp himp (h.2 rs)⟩

theorem Within.any : ∀ {α : Type} (p : Prog S α), Within (fun _ => True) p
  | _, .ret _ => trivial
  | _, .op _ k => ⟨trivial, fun r => Within.any (k r)⟩
  | _, .join _ subs k => ⟨fun i => Within.any (subs i), fun rs => Within.any (k rs)⟩

theorem Within.pure (x : α) : Within ok (Pure.pure x : Prog S α) := trivial

theorem Within.perform {o : S.Op} (h : ok o) : Within ok (perform o) := ⟨h, fun _ => trivial⟩

theorem Within.bind : ∀ {α : Type} {p : Prog S α} {f : α → Prog S β},
    Within ok p → (∀ x, Within ok (f x)) → Within ok (p >>= f)
  | _, .ret a, _, _, hf => hf a
  | _, .op _ _, _, hp, hf => ⟨hp.1, fun r => Within.bind (hp.2 r) hf⟩
  | _, .join _ _ _, _, hp, hf => ⟨hp.1, fun rs => Within.bind (hp.2 rs) hf⟩

theorem Within.joinAll {l : List γ} {f : γ → Prog S β} (h : ∀ x ∈ l, Within ok (f x)) :
    Within ok (joinAll l f) :=
  ⟨fun _ => h _ (List.get_mem _ _), fun _ => trivial⟩

end

end Prog

/-- What programs run on. `Pick` resolves what the world leaves open in an
operation, `Env` are the moves of the environment, `Call` the programs that may
be started. -/
structure System (S : Sig) where
  World : Type
  Agent : Type
  Pick : Type
  Env : Type
  Call : Type
  Res : Type
  exec : Agent → (o : S.Op) → Pick → World → Option (S.Ans o × World)
  env : Env → World → Option World
  start : Call → Nat → World → Option (Agent × Prog S Res)

namespace System

variable (sys : System S)

/-- One step of a program: the operation it has reached, or, along a path of
positions, one of a program inside a `join`; a `join` whose programs have all
finished goes on. -/
def step (a : sys.Agent) (pick : sys.Pick) : {α : Type} → Prog S α → List Nat → sys.World →
    Option (Prog S α × sys.World)
  | _, .ret _, _, _ => none
  | _, .op o k, [], w => (sys.exec a o pick w).map fun r => (k r.1, r.2)
  | _, .op _ _, _ :: _, _ => none
  | _, .join n subs k, [], w =>
    if h : ∀ i : Fin n, (subs i).value?.isSome then
      some (k fun i => (subs i).value?.get (h i), w)
    else none
  | _, .join n subs k, i :: path, w =>
    if h : i < n then
      (step a pick (subs ⟨i, h⟩) path w).map fun r =>
        (.join n (Function.update subs ⟨i, h⟩ r.1) k, r.2)
    else none

structure Proc where
  agent : sys.Agent
  prog : Prog S sys.Res

structure Config where
  world : sys.World
  procs : List sys.Proc

inductive Move
  | step (proc : Nat) (path : List Nat) (pick : sys.Pick)
  | env (e : sys.Env)
  | start (c : sys.Call)

def move (c : sys.Config) : sys.Move → Option sys.Config
  | .step i path pick =>
    (c.procs[i]?).bind fun p => (sys.step p.agent pick p.prog path c.world).map fun r =>
      ⟨r.2, c.procs.set i ⟨p.agent, r.1⟩⟩
  | .env e => (sys.env e c.world).map fun w => ⟨w, c.procs⟩
  | .start call => (sys.start call c.procs.length c.world).map fun r =>
      ⟨c.world, c.procs ++ [⟨r.1, r.2⟩]⟩

/-- Runs from `init` on. -/
inductive Run (init : sys.World) : sys.Config → Prop
  | init : Run init ⟨init, []⟩
  | move {c c' : sys.Config} (m : sys.Move) : Run init c → sys.move c m = some c' → Run init c'

def replay : List sys.Move → sys.Config → Option sys.Config
  | [], c => some c
  | m :: ms, c => (sys.move c m).bind fun c' => replay ms c'

theorem Run.replay {init : sys.World} : ∀ (ms : List sys.Move) {c c' : sys.Config},
    sys.Run init c → sys.replay ms c = some c' → sys.Run init c'
  | [], c, c', hr, h => by
    have hc : c = c' := Option.some.inj h
    exact hc ▸ hr
  | m :: ms, c, c', hr, h => by
    obtain ⟨d, hd, h⟩ := Option.bind_eq_some_iff.mp h
    exact Run.replay ms (.move m hr hd) h

theorem replay_rel (rel : sys.Config → sys.Config → Prop) (hrefl : ∀ c, rel c c)
    (htrans : ∀ {c d e}, rel c d → rel d e → rel c e)
    (hmove : ∀ {c m c'}, sys.move c m = some c' → rel c c') :
    ∀ {ms : List sys.Move} {c c' : sys.Config}, sys.replay ms c = some c' → rel c c'
  | [], c, c', h => by
    have hc : c = c' := Option.some.inj h
    exact hc ▸ hrefl c
  | m :: ms, c, c', h => by
    obtain ⟨d, hd, h⟩ := Option.bind_eq_some_iff.mp h
    exact htrans (hmove hd) (replay_rel rel hrefl htrans hmove h)

/-- A step of a program within `ok` leaves one, and does what its operations do. -/
theorem step_within {a : sys.Agent} {ok : S.Op → Prop} (rel : sys.World → sys.World → Prop)
    (hrefl : ∀ w, rel w w)
    (hexec : ∀ {o pick w r w'}, ok o → sys.exec a o pick w = some (r, w') → rel w w') :
    ∀ {α : Type} {p p' : Prog S α} {path : List Nat} {pick : sys.Pick} {w w' : sys.World},
      p.Within ok → sys.step a pick p path w = some (p', w') → p'.Within ok ∧ rel w w'
  | _, .ret _, _, path, _, _, _, _, h => by cases path <;> cases h
  | _, .op o k, _, [], _, _, _, hp, h => by
    obtain ⟨⟨r, w₂⟩, hr, he⟩ := Option.map_eq_some_iff.mp h
    obtain ⟨rfl, rfl⟩ := Prod.mk.inj he
    exact ⟨hp.2 r, hexec hp.1 hr⟩
  | _, .op _ _, _, _ :: _, _, _, _, _, h => by cases h
  | _, .join n subs k, _, [], _, _, _, hp, h => by
    simp only [System.step] at h
    split at h
    · obtain ⟨rfl, rfl⟩ := Prod.mk.inj (Option.some.inj h)
      exact ⟨hp.2 _, hrefl _⟩
    · cases h
  | _, .join n subs k, _, i :: path, _, _, _, hp, h => by
    simp only [System.step] at h
    split at h
    · obtain ⟨⟨t, w₂⟩, ht, he⟩ := Option.map_eq_some_iff.mp h
      obtain ⟨rfl, rfl⟩ := Prod.mk.inj he
      obtain ⟨hsub, hrel⟩ := step_within rel hrefl hexec (hp.1 _) ht
      refine ⟨⟨fun j => ?_, hp.2⟩, hrel⟩
      by_cases hj : j = ⟨i, ‹_›⟩
      · rw [hj, Function.update_self]
        exact hsub
      · rw [Function.update_of_ne hj]
        exact hp.1 j
    · cases h

/-- What every operation of an agent does to the world, a step of it does, unless
it does nothing. -/
theorem step_rel {a : sys.Agent} (rel : sys.World → sys.World → Prop) (hrefl : ∀ w, rel w w)
    (hexec : ∀ {o pick w r w'}, sys.exec a o pick w = some (r, w') → rel w w') {p p' : Prog S α}
    {path : List Nat} {pick : sys.Pick} {w w' : sys.World}
    (h : sys.step a pick p path w = some (p', w')) : rel w w' :=
  (sys.step_within rel hrefl (fun _ hx => hexec hx) (.any p) h).2

/-- **Programs within `ok`.** Every call starts a program whose operations are
`ok`, and these and the environment keep `inv`: then `inv` holds along every run. -/
theorem run_within {init : sys.World} {ok : S.Op → Prop} (inv : sys.World → Prop)
    (hinit : inv init) (henv : ∀ {e w w'}, inv w → sys.env e w = some w' → inv w')
    (hstart : ∀ {call n w a p}, inv w → sys.start call n w = some (a, p) → p.Within ok)
    (hexec : ∀ {a o pick w r w'}, inv w → ok o → sys.exec a o pick w = some (r, w') → inv w')
    {c : sys.Config} (h : sys.Run init c) :
    inv c.world ∧ ∀ p ∈ c.procs, p.prog.Within ok := by
  induction h with
  | init => exact ⟨hinit, fun p hp => by simp at hp⟩
  | @move c c' m _ hm ih =>
    obtain ⟨hi, hall⟩ := ih
    cases m with
    | step i path pick =>
      obtain ⟨p, hp, hm⟩ := Option.bind_eq_some_iff.mp hm
      obtain ⟨⟨t, w₂⟩, ht, rfl⟩ := Option.map_eq_some_iff.mp hm
      obtain ⟨hsub, hrel⟩ := sys.step_within (fun w w' => inv w → inv w') (fun _ => id)
        (fun ho hx hw => hexec hw ho hx) (hall p (List.mem_of_getElem? hp)) ht
      refine ⟨hrel hi, fun q hq => ?_⟩
      rcases List.mem_or_eq_of_mem_set hq with hq | rfl
      · exact hall q hq
      · exact hsub
    | env e =>
      obtain ⟨w₂, hw, rfl⟩ := Option.map_eq_some_iff.mp hm
      exact ⟨henv hi hw, hall⟩
    | start call =>
      obtain ⟨⟨ag, t⟩, ht, rfl⟩ := Option.map_eq_some_iff.mp hm
      refine ⟨hi, fun q hq => ?_⟩
      rcases List.mem_append.mp hq with hq | hq
      · exact hall q hq
      · rw [List.mem_singleton] at hq
        subst hq
        exact hstart hi ht

/-! ### Another environment on the same world -/

/-- The same programs, with fewer outcomes of operations and with other moves of
the environment and other calls. -/
def variant {Env Call : Type}
    (exec : sys.Agent → (o : S.Op) → sys.Pick → sys.World → Option (S.Ans o × sys.World))
    (env : Env → sys.World → Option sys.World)
    (start : Call → Nat → sys.World → Option (sys.Agent × Prog S sys.Res)) : System S where
  World := sys.World
  Agent := sys.Agent
  Pick := sys.Pick
  Env := Env
  Call := Call
  Res := sys.Res
  exec := exec
  env := env
  start := start

section
variable {Env Call : Type}
  {exec : sys.Agent → (o : S.Op) → sys.Pick → sys.World → Option (S.Ans o × sys.World)}
  {env : Env → sys.World → Option sys.World}
  {start : Call → Nat → sys.World → Option (sys.Agent × Prog S sys.Res)}
  (hexec : ∀ {a o pick w x}, exec a o pick w = some x → sys.exec a o pick w = some x)
include hexec

theorem step_of_variant {a : sys.Agent} {pick : sys.Pick} : ∀ {α : Type} {p p' : Prog S α}
    {path : List Nat} {w w' : sys.World},
    (sys.variant exec env start).step a pick p path w = some (p', w') →
    sys.step a pick p path w = some (p', w')
  | _, .ret _, _, path, _, _, h => by cases path <;> cases h
  | _, .op o k, _, [], _, _, h => by
    obtain ⟨x, hx, he⟩ := Option.map_eq_some_iff.mp h
    exact Option.map_eq_some_iff.mpr ⟨x, hexec hx, he⟩
  | _, .op _ _, _, _ :: _, _, _, h => by cases h
  | _, .join n subs k, _, [], _, _, h => by
    simp only [System.step] at h ⊢
    exact h
  | _, .join n subs k, _, i :: path, _, _, h => by
    simp only [System.step] at h ⊢
    split at h
    · rename_i hi
      obtain ⟨⟨t, w₂⟩, ht, he⟩ := Option.map_eq_some_iff.mp h
      rw [dif_pos hi]
      exact Option.map_eq_some_iff.mpr ⟨(t, w₂), step_of_variant ht, he⟩
    · cases h

/-- The runs of a variant are runs of the system, if its environment does what
the system's may do and its calls are calls of the system. -/
theorem run_of_variant {init : sys.World}
    (henv : ∀ {e w w'}, env e w = some w' → ∀ {procs}, sys.Run init ⟨w, procs⟩ →
      sys.Run init ⟨w', procs⟩)
    (hstart : ∀ {call n w x}, start call n w = some x → ∃ call', sys.start call' n w = some x)
    {c : (sys.variant exec env start).Config} (h : (sys.variant exec env start).Run init c) :
    sys.Run init ⟨c.world, c.procs.map fun p => ⟨p.agent, p.prog⟩⟩ := by
  induction h with
  | init => exact .init
  | @move c c' m _ hm ih =>
    cases m with
    | step i path pick =>
      obtain ⟨p, hp, hm⟩ := Option.bind_eq_some_iff.mp hm
      obtain ⟨⟨t, w₂⟩, ht, rfl⟩ := Option.map_eq_some_iff.mp hm
      refine .move (.step i path pick) ih (Option.bind_eq_some_iff.mpr ⟨⟨p.agent, p.prog⟩, ?_,
        Option.map_eq_some_iff.mpr ⟨(t, w₂), sys.step_of_variant hexec ht, ?_⟩⟩)
      · rw [List.getElem?_map, hp]
        rfl
      · rw [List.map_set]
    | env e =>
      obtain ⟨w₂, hw, rfl⟩ := Option.map_eq_some_iff.mp hm
      exact henv hw ih
    | start call =>
      obtain ⟨x, hx, rfl⟩ := Option.map_eq_some_iff.mp hm
      obtain ⟨call', hcall⟩ := hstart hx
      refine .move (.start call') ih (Option.map_eq_some_iff.mpr ⟨x, ?_, ?_⟩)
      · rw [List.length_map]
        exact hcall
      · rw [List.map_append]
        rfl

end

/-- Run programs one after the other. -/
def inTurn {W : Type} : (n : Nat) → (Fin n → W → Option (β × W)) → W → Option ((Fin n → β) × W)
  | 0, _, w => some (Fin.elim0, w)
  | n + 1, run, w => (run 0 w).bind fun r =>
    (inTurn n (fun i => run i.succ) r.2).map fun rs => (Fin.cons r.1 rs.1, rs.2)

/-- A program from its beginning to its end with nothing in between, what is
left open always resolved by `pick`. -/
def alone (a : sys.Agent) (pick : sys.Pick) : {α : Type} → Prog S α → sys.World →
    Option (α × sys.World)
  | _, .ret x, w => some (x, w)
  | _, .op o k, w => (sys.exec a o pick w).bind fun r => alone a pick (k r.1) r.2
  | _, .join n subs k, w =>
    (inTurn n (fun i => alone a pick (subs i)) w).bind fun r => alone a pick (k r.1) r.2

/-- Alone, the program comes to its end, and `Q` holds then. -/
def Ends (a : sys.Agent) (pick : sys.Pick) (p : Prog S α) (Q : α → sys.World → Prop)
    (w : sys.World) : Prop :=
  ∃ x w', sys.alone a pick p w = some (x, w') ∧ Q x w'

section
variable {sys} {a : sys.Agent} {pick : sys.Pick} {w : sys.World} {Q : β → sys.World → Prop}

theorem Ends.pure {x : β} (h : Q x w) : sys.Ends a pick (Pure.pure x : Prog S β) Q w :=
  ⟨x, w, rfl, h⟩

theorem Ends.perform {o : S.Op} {r : S.Ans o} {w' : sys.World} {Q : S.Ans o → sys.World → Prop}
    (hexec : sys.exec a o pick w = some (r, w')) (h : Q r w') :
    sys.Ends a pick (Prog.perform o) Q w := by
  refine ⟨r, w', ?_, h⟩
  change (sys.exec a o pick w).bind _ = _
  rw [hexec]
  rfl

theorem alone_bind : ∀ {α : Type} (p : Prog S α) (f : α → Prog S β) (w : sys.World),
    sys.alone a pick (p.bind f) w =
      (sys.alone a pick p w).bind fun r => sys.alone a pick (f r.1) r.2
  | _, .ret _, _, _ => rfl
  | _, .op o k, f, w => by
    simp only [Prog.bind, alone, Option.bind_assoc]
    congr 1
    funext r
    exact alone_bind (k r.1) f r.2
  | _, .join n subs k, f, w => by
    simp only [Prog.bind, alone, Option.bind_assoc]
    congr 1
    funext r
    exact alone_bind (k r.1) f r.2

theorem Ends.bind {p : Prog S α} {f : α → Prog S β}
    (h : sys.Ends a pick p (fun x w' => sys.Ends a pick (f x) Q w') w) :
    sys.Ends a pick (p >>= f) Q w := by
  obtain ⟨x, w', hp, y, w'', hf, hQ⟩ := h
  refine ⟨y, w'', ?_, hQ⟩
  change sys.alone a pick (p.bind f) w = _
  rw [alone_bind, hp]
  exact hf

theorem Ends.of_alone {p : Prog S β} {x : β} {w' : sys.World} (h : sys.Ends a pick p Q w)
    (hp : sys.alone a pick p w = some (x, w')) : Q x w' := by
  obtain ⟨y, w₁, hp', hQ⟩ := h
  obtain ⟨rfl, rfl⟩ := Prod.mk.inj (Option.some.inj (hp'.symm.trans hp))
  exact hQ

theorem Ends.imp {p : Prog S β} {R : β → sys.World → Prop} (h : sys.Ends a pick p Q w)
    (hQ : ∀ x w', Q x w' → R x w') : sys.Ends a pick p R w := by
  obtain ⟨x, w', hp, hx⟩ := h
  exact ⟨x, w', hp, hQ x w' hx⟩

end

end System

/-! ## The logic -/

/-- What a proof about the runs of a system is parametrised by: the invariant,
and an order the world moves along. -/
structure Logic (sys : System S) where
  inv : sys.World → Prop
  le : sys.World → sys.World → Prop
  refl : ∀ w, le w w
  trans : ∀ {u v w}, le u v → le v w → le u w

namespace Logic

variable {sys : System S} (L : Logic sys)

/-- An assertion that stays true when the world moves on. -/
def Stable (P : sys.World → Prop) : Prop := ∀ {w w'}, L.le w w' → P w → P w'

def Safe (a : sys.Agent) : {α : Type} → Prog S α → (α → sys.World → Prop) → sys.World → Prop
  | _, .ret x, Q, w => Q x w
  | _, .op o k, Q, w => ∀ w₁, L.le w w₁ → L.inv w₁ → ∀ pick r w₂,
      sys.exec a o pick w₁ = some (r, w₂) → L.inv w₂ ∧ L.le w₁ w₂ ∧ Safe a (k r) Q w₂
  | _, @Prog.join _ _ β n subs k, Q, w => ∃ P : Fin n → β → sys.World → Prop,
      (∀ i x, L.Stable (P i x)) ∧ (∀ i, Safe a (subs i) (P i) w) ∧
      ∀ rs w₁, L.le w w₁ → L.inv w₁ → (∀ i, P i (rs i) w₁) → Safe a (k rs) Q w₁

variable {L} {a : sys.Agent} {w w' : sys.World} {Q : α → sys.World → Prop}

theorem Safe.mono : ∀ {α : Type} {p : Prog S α} {Q : α → sys.World → Prop} {w w' : sys.World},
    (∀ x, L.Stable (Q x)) → L.le w w' → L.Safe a p Q w → L.Safe a p Q w'
  | _, .ret x, Q, w, w', hQ, hle, h => hQ x hle h
  | _, .op o k, Q, w, w', hQ, hle, h => fun w₁ hle₁ hi => h w₁ (L.trans hle hle₁) hi
  | _, .join n subs k, Q, w, w', hQ, hle, h => by
    obtain ⟨P, hP, hs, hk⟩ := h
    exact ⟨P, hP, fun i => Safe.mono (hP i) hle (hs i),
      fun rs w₁ hle₁ hi => hk rs w₁ (L.trans hle hle₁) hi⟩

theorem Safe.step : ∀ {α : Type} {p : Prog S α} {Q : α → sys.World → Prop} {path : List Nat}
    {pick : sys.Pick} {p' : Prog S α} {w w' : sys.World},
    L.Safe a p Q w → L.inv w → sys.step a pick p path w = some (p', w') →
    L.inv w' ∧ L.le w w' ∧ L.Safe a p' Q w'
  | _, .ret x, Q, path, pick, p', w, w', _, _, hs => by cases path <;> cases hs
  | _, .op o k, Q, [], pick, p', w, w', h, hi, hs => by
    obtain ⟨⟨r, w₂⟩, hr, he⟩ := Option.map_eq_some_iff.mp hs
    obtain ⟨rfl, rfl⟩ := Prod.mk.inj he
    exact h w (L.refl w) hi pick r w₂ hr
  | _, .op o k, Q, i :: path, pick, p', w, w', _, _, hs => by cases hs
  | _, .join n subs k, Q, [], pick, p', w, w', h, hi, hs => by
    obtain ⟨P, hP, hsub, hk⟩ := h
    simp only [System.step] at hs
    split at hs
    · rename_i hall
      obtain ⟨rfl, rfl⟩ := Prod.mk.inj (Option.some.inj hs)
      refine ⟨hi, L.refl _, hk _ _ (L.refl _) hi fun i => ?_⟩
      have hret := Prog.eq_ret_of_value? (Option.some_get (hall i)).symm
      have hsi := hsub i
      rw [hret] at hsi
      exact hsi
    · cases hs
  | _, .join n subs k, Q, i :: path, pick, p', w, w', h, hi, hs => by
    obtain ⟨P, hP, hsub, hk⟩ := h
    simp only [System.step] at hs
    split at hs
    · rename_i hlt
      obtain ⟨⟨t, w₂⟩, ht, he⟩ := Option.map_eq_some_iff.mp hs
      obtain ⟨rfl, rfl⟩ := Prod.mk.inj he
      obtain ⟨hi', hle, hsafe⟩ := Safe.step (hsub ⟨i, hlt⟩) hi ht
      refine ⟨hi', hle, P, hP, fun j => ?_, fun rs w₁ hle₁ => hk rs w₁ (L.trans hle hle₁)⟩
      by_cases hj : j = ⟨i, hlt⟩
      · subst hj
        rw [Function.update_self]
        exact hsafe
      · rw [Function.update_of_ne hj]
        exact (hsub j).mono (hP j) hle
    · cases hs

theorem Safe.imp : ∀ {α : Type} {p : Prog S α} {Q R : α → sys.World → Prop} {w : sys.World},
    (∀ x w, Q x w → R x w) → L.Safe a p Q w → L.Safe a p R w
  | _, .ret x, Q, R, w, hQR, h => hQR x w h
  | _, .op o k, Q, R, w, hQR, h => fun w₁ hle hi pick r w₂ he =>
    have ⟨hi', hle', hs⟩ := h w₁ hle hi pick r w₂ he
    ⟨hi', hle', hs.imp hQR⟩
  | _, .join n subs k, Q, R, w, hQR, h => by
    obtain ⟨P, hP, hs, hk⟩ := h
    exact ⟨P, hP, hs, fun rs w₁ hle hi hall => (hk rs w₁ hle hi hall).imp hQR⟩

theorem Safe.bind : ∀ {α : Type} {p : Prog S α} {f : α → Prog S β} {Q : β → sys.World → Prop}
    {w : sys.World}, L.Safe a p (fun x w => L.Safe a (f x) Q w) w → L.Safe a (p.bind f) Q w
  | _, .ret x, f, Q, w, h => h
  | _, .op o k, f, Q, w, h => fun w₁ hle hi pick r w₂ he =>
    have ⟨hi', hle', hs⟩ := h w₁ hle hi pick r w₂ he
    ⟨hi', hle', hs.bind⟩
  | _, .join n subs k, f, Q, w, h => by
    obtain ⟨P, hP, hs, hk⟩ := h
    exact ⟨P, hP, hs, fun rs w₁ hle hi hall => (hk rs w₁ hle hi hall).bind⟩

/-- When a program ends, the world has moved along the order and the invariant holds. -/
theorem Safe.frame : ∀ {α : Type} {p : Prog S α} {Q : α → sys.World → Prop} {w : sys.World},
    L.inv w → L.Safe a p Q w → L.Safe a p (fun x w' => L.le w w' ∧ L.inv w' ∧ Q x w') w
  | _, .ret x, Q, w, hi, h => ⟨L.refl w, hi, h⟩
  | _, .op o k, Q, w, _, h => fun w₁ hle hi pick r w₂ he =>
    have ⟨hi', hle', hs⟩ := h w₁ hle hi pick r w₂ he
    ⟨hi', hle', (hs.frame hi').imp fun _ _ ⟨h₁, h₂, h₃⟩ =>
      ⟨L.trans hle (L.trans hle' h₁), h₂, h₃⟩⟩
  | _, .join n subs k, Q, w, _, h => by
    obtain ⟨P, hP, hs, hk⟩ := h
    refine ⟨P, hP, hs, fun rs w₁ hle hi hall => ?_⟩
    exact ((hk rs w₁ hle hi hall).frame hi).imp fun _ _ ⟨h₁, h₂, h₃⟩ => ⟨L.trans hle h₁, h₂, h₃⟩

@[simp] theorem safe_pure {x : α} : L.Safe a (pure x : Prog S α) Q w ↔ Q x w := Iff.rfl

theorem Safe.bind' {p : Prog S α} {f : α → Prog S β} {Q : β → sys.World → Prop}
    (h : L.Safe a p (fun x w => L.Safe a (f x) Q w) w) : L.Safe a (p >>= f) Q w := h.bind

/-- **Sequencing.** The rest of a program starts from what its first part established. -/
theorem Safe.seq {p : Prog S α} {f : α → Prog S β} {R : α → sys.World → Prop}
    {Q : β → sys.World → Prop} (h : L.Safe a p R w) (hi : L.inv w)
    (hf : ∀ x w', L.le w w' → L.inv w' → R x w' → L.Safe a (f x) Q w') :
    L.Safe a (p >>= f) Q w :=
  Safe.bind' ((h.frame hi).imp fun x w' ⟨hle, hi', hx⟩ => hf x w' hle hi' hx)

theorem safe_perform {o : S.Op} {Q : S.Ans o → sys.World → Prop}
    (h : ∀ w₁, L.le w w₁ → L.inv w₁ → ∀ pick r w₂,
      sys.exec a o pick w₁ = some (r, w₂) → L.inv w₂ ∧ L.le w₁ w₂ ∧ Q r w₂) :
    L.Safe a (Prog.perform o) Q w := h

theorem safe_joinAll {l : List γ} {f : γ → Prog S β} {P : γ → β → sys.World → Prop}
    {Q : List β → sys.World → Prop} (hP : ∀ x y, L.Stable (P x y))
    (hf : ∀ x ∈ l, L.Safe a (f x) (P x) w)
    (hQ : ∀ {rs w₁}, L.le w w₁ → L.inv w₁ → List.Forall₂ (fun x y => P x y w₁) l rs → Q rs w₁) :
    L.Safe a (Prog.joinAll l f) Q w := by
  refine ⟨fun i => P (l.get i), fun i => hP _, fun i => hf _ (List.get_mem _ _), ?_⟩
  intro rs w₁ hle hi hall
  refine hQ hle hi (List.forall₂_iff_get.mpr ⟨by simp, fun i h₁ h₂ => ?_⟩)
  have := hall ⟨i, h₁⟩
  simpa using this

/-- **The rule for runs.** Each move of the environment keeps the invariant,
each call starts a safe program: then in every configuration of a run the
invariant holds and every program is still safe. -/
theorem run_safe {init : sys.World} {Q : sys.Agent → sys.Res → sys.World → Prop}
    (hQ : ∀ a x, L.Stable (Q a x)) (hinit : L.inv init)
    (henv : ∀ {e w w'}, L.inv w → sys.env e w = some w' → L.inv w' ∧ L.le w w')
    (hstart : ∀ {call n w a p}, L.inv w → sys.start call n w = some (a, p) →
      L.Safe a p (Q a) w)
    {c : sys.Config} (h : sys.Run init c) :
    L.inv c.world ∧ ∀ p ∈ c.procs, L.Safe p.agent p.prog (Q p.agent) c.world := by
  induction h with
  | init => exact ⟨hinit, fun p hp => by simp at hp⟩
  | @move c c' m _ hm ih =>
    obtain ⟨hi, hsafe⟩ := ih
    cases m with
    | step i path pick =>
      obtain ⟨p, hp, hm⟩ := Option.bind_eq_some_iff.mp hm
      obtain ⟨⟨t, w₂⟩, ht, rfl⟩ := Option.map_eq_some_iff.mp hm
      have hmem : p ∈ c.procs := List.mem_of_getElem? hp
      obtain ⟨hi', hle, hs⟩ := (hsafe p hmem).step hi ht
      refine ⟨hi', fun q hq => ?_⟩
      rcases List.mem_or_eq_of_mem_set hq with hq | rfl
      · exact (hsafe q hq).mono (hQ _) hle
      · exact hs
    | env e =>
      obtain ⟨w₂, hw, rfl⟩ := Option.map_eq_some_iff.mp hm
      obtain ⟨hi', hle⟩ := henv hi hw
      exact ⟨hi', fun q hq => (hsafe q hq).mono (hQ _) hle⟩
    | start call =>
      obtain ⟨⟨ag, t⟩, ht, rfl⟩ := Option.map_eq_some_iff.mp hm
      refine ⟨hi, fun q hq => ?_⟩
      rcases List.mem_append.mp hq with hq | hq
      · exact hsafe q hq
      · rw [List.mem_singleton] at hq
        subst hq
        exact hstart hi ht

theorem run_le {init : sys.World} {Q : sys.Agent → sys.Res → sys.World → Prop}
    (hQ : ∀ a x, L.Stable (Q a x)) (hinit : L.inv init)
    (henv : ∀ {e w w'}, L.inv w → sys.env e w = some w' → L.inv w' ∧ L.le w w')
    (hstart : ∀ {call n w a p}, L.inv w → sys.start call n w = some (a, p) →
      L.Safe a p (Q a) w)
    {c c' : sys.Config} {m : sys.Move} (h : sys.Run init c) (hm : sys.move c m = some c') :
    L.le c.world c'.world := by
  obtain ⟨hi, hsafe⟩ := run_safe hQ hinit henv hstart h
  cases m with
  | step i path pick =>
    obtain ⟨p, hp, hm⟩ := Option.bind_eq_some_iff.mp hm
    obtain ⟨⟨t, w₂⟩, ht, rfl⟩ := Option.map_eq_some_iff.mp hm
    exact ((hsafe p (List.mem_of_getElem? hp)).step hi ht).2.1
  | env e =>
    obtain ⟨w₂, hw, rfl⟩ := Option.map_eq_some_iff.mp hm
    exact (henv hi hw).2
  | start call =>
    obtain ⟨x, -, rfl⟩ := Option.map_eq_some_iff.mp hm
    exact L.refl _

end Logic

end AuthKademlia.Lib.Async
