import Mathlib.Data.List.Induction
import Mathlib.Data.Set.Function
import Mathlib.Logic.Function.Basic

/-! # Answers kept in a shared cache

Calls ask questions, and the answers depend on something outside that may change at
any time. An answer is kept under the slot of its question, and later calls for that
slot take it from there. Any number of calls are under way at once, and the cache may
drop any entry at any time.

For the proofs, an entry carries the question that it answers and what was outside
then, and a finished call what was outside when its answer was decided. No step goes
by them. -/
namespace AuthKademlia.Lib.Memo

structure Setup (Job Query Slot Outside Answer : Type) where
  /-- Jobs that are answered without a question. -/
  early : Outside → Job → Option Answer
  query : Job → Query
  slot : Query → Slot
  answer : Outside → Query → Answer
  /-- Is the cache in use? -/
  enabled : Bool

inductive Phase (Outside Answer : Type) where
  | looking
  | asking
  /-- The answer is not in the cache yet. -/
  | keeping (answer : Answer) (seen : Outside)
  | done (answer : Answer) (seen : Outside)
  deriving DecidableEq

structure Call (Job Outside Answer : Type) where
  job : Job
  phase : Phase Outside Answer
  deriving DecidableEq

structure Entry (Query Outside Answer : Type) where
  answer : Answer
  query : Query
  origin : Outside

structure State (Job Query Slot Outside Answer : Type) where
  outside : Outside
  cache : Slot → Option (Entry Query Outside Answer)
  calls : List (Call Job Outside Answer)

inductive Move (Job Slot Outside : Type) where
  | start (job : Job)
  | step (i : Nat)
  | change (outside : Outside)
  | drop (slot : Slot)

variable {Job Query Slot Outside Answer : Type}

/-- Nothing is kept and no call is under way. -/
def State.new (outside : Outside) : State Job Query Slot Outside Answer :=
  ⟨outside, fun _ => none, []⟩

namespace Setup

variable (M : Setup Job Query Slot Outside Answer)

def begin (outside : Outside) (job : Job) : Phase Outside Answer :=
  match M.early outside job with
  | some a => .done a outside
  | none => if M.enabled then .looking else .asking

/-- The next operation of a call: its next phase and the cache. -/
def advance [DecidableEq Slot] (s : State Job Query Slot Outside Answer) (q : Query) :
    Phase Outside Answer →
      Phase Outside Answer × (Slot → Option (Entry Query Outside Answer))
  | .looking =>
    match s.cache (M.slot q) with
    | some e => (.done e.answer s.outside, s.cache)
    | none => (.asking, s.cache)
  | .asking =>
    let a := M.answer s.outside q
    (if M.enabled then .keeping a s.outside else .done a s.outside, s.cache)
  | .keeping a seen => (.done a seen, Function.update s.cache (M.slot q) (some ⟨a, q, seen⟩))
  | .done a seen => (.done a seen, s.cache)

section
variable [DecidableEq Slot] {M} {s : State Job Query Slot Outside Answer} {q : Query}

theorem advance_hit {e : Entry Query Outside Answer} (h : s.cache (M.slot q) = some e) :
    M.advance s q .looking = (.done e.answer s.outside, s.cache) := by
  simp only [advance, h]

theorem advance_miss (h : s.cache (M.slot q) = none) :
    M.advance s q .looking = (.asking, s.cache) := by
  simp only [advance, h]

theorem advance_enabled (h : M.enabled = true) :
    M.advance s q .asking = (.keeping (M.answer s.outside q) s.outside, s.cache) := by
  simp only [advance, h, if_true]

theorem advance_disabled (h : M.enabled = false) :
    M.advance s q .asking = (.done (M.answer s.outside q) s.outside, s.cache) := by
  simp only [advance, h]
  rfl

end

def move [DecidableEq Slot] (s : State Job Query Slot Outside Answer) :
    Move Job Slot Outside → State Job Query Slot Outside Answer
  | .start job => { s with calls := s.calls ++ [⟨job, M.begin s.outside job⟩] }
  | .step i =>
    match s.calls[i]? with
    | none => s
    | some c =>
      let next := M.advance s (M.query c.job) c.phase
      { s with cache := next.2, calls := s.calls.set i ⟨c.job, next.1⟩ }
  | .change outside => { s with outside }
  | .drop slot => { s with cache := Function.update s.cache slot none }

def run [DecidableEq Slot] (outside : Outside) (moves : List (Move Job Slot Outside)) :
    State Job Query Slot Outside Answer :=
  moves.foldl M.move (.new outside)

/-! ## What the cache holds -/

/-- Every entry answers a question of its slot, one of those used. -/
def Kept (used : Set Query) (cache : Slot → Option (Entry Query Outside Answer)) : Prop :=
  ∀ slot e, cache slot = some e →
    slot = M.slot e.query ∧ e.answer = M.answer e.origin e.query ∧ e.query ∈ used

/-- What is known of a call. `R` relates the question and the outside of an entry to those of a
call that takes it. -/
def Sound (used : Set Query) (R : Query → Outside → Query → Outside → Prop)
    (c : Call Job Outside Answer) : Prop :=
  match c.phase with
  | .looking | .asking => (∃ f, M.early f c.job = none) ∧ M.query c.job ∈ used
  | .keeping a seen => ((∃ f, M.early f c.job = none) ∧ M.query c.job ∈ used) ∧
    a = M.answer seen (M.query c.job)
  | .done a seen => M.early seen c.job = some a ∨ (∃ f, M.early f c.job = none) ∧
    ∃ q f, R q f (M.query c.job) seen ∧ a = M.answer f q

structure Inv (used : Set Query) (R : Query → Outside → Query → Outside → Prop)
    (s : State Job Query Slot Outside Answer) : Prop where
  kept : M.Kept used s.cache
  sound : ∀ c ∈ s.calls, M.Sound used R c

/-- The entry that a move takes from the cache, and for which question. -/
def taken (s : State Job Query Slot Outside Answer) :
    Move Job Slot Outside → Option (Entry Query Outside Answer × Query)
  | .step i =>
    match s.calls[i]? with
    | some ⟨job, .looking⟩ => (s.cache (M.slot (M.query job))).map fun e => (e, M.query job)
    | _ => none
  | _ => none

/-- If the move takes an entry from the cache, then one that `R` admits. -/
def Admits (R : Query → Outside → Query → Outside → Prop)
    (s : State Job Query Slot Outside Answer) (m : Move Job Slot Outside) : Prop :=
  ∀ t ∈ M.taken s m, R t.1.query t.1.origin t.2 s.outside

instance (R : Query → Outside → Query → Outside → Prop) [∀ q f q' f', Decidable (R q f q' f')]
    (s : State Job Query Slot Outside Answer) (m : Move Job Slot Outside) :
    Decidable (M.Admits R s m) :=
  inferInstanceAs (Decidable (∀ t ∈ M.taken s m, _))

/-- A job that is started, and may have to ask, asks a question of `used`. -/
def Uses (used : Set Query) : Move Job Slot Outside → Prop
  | .start job => (∃ f, M.early f job = none) → M.query job ∈ used
  | _ => True

variable {M} {used : Set Query} {R : Query → Outside → Query → Outside → Prop}
  {s : State Job Query Slot Outside Answer}

theorem inv_new (outside : Outside) : M.Inv used R (.new outside) :=
  ⟨fun _ _ he => (nomatch he), fun _ hc => (nomatch hc)⟩

theorem sound_begin {job : Job} (huse : (∃ f, M.early f job = none) → M.query job ∈ used)
    (outside : Outside) : M.Sound used R ⟨job, M.begin outside job⟩ := by
  unfold Sound begin
  cases hearly : M.early outside job with
  | some a => exact Or.inl hearly
  | none =>
    have hasks : ∃ f, M.early f job = none := ⟨outside, hearly⟩
    by_cases hen : M.enabled
    · simp only [hen, if_true]
      exact ⟨hasks, huse hasks⟩
    · simp only [hen]
      exact ⟨hasks, huse hasks⟩

theorem taken_eq {i : Nat} {c : Call Job Outside Answer} (hi : s.calls[i]? = some c)
    (hlooking : c.phase = .looking) {e : Entry Query Outside Answer}
    (he : s.cache (M.slot (M.query c.job)) = some e) :
    M.taken s (.step i) = some (e, M.query c.job) := by
  obtain ⟨job, phase⟩ := c
  obtain rfl : phase = .looking := hlooking
  dsimp only [taken]
  rw [hi]
  dsimp only
  rw [he]
  rfl

/-- An entry that a move takes is one of the slot of the question, which is one of those used. -/
theorem Inv.taken_slot (h : M.Inv used R s) {m : Move Job Slot Outside}
    {e : Entry Query Outside Answer} {q : Query} (ht : M.taken s m = some (e, q)) :
    M.slot e.query = M.slot q ∧ e.query ∈ used ∧ q ∈ used := by
  unfold taken at ht
  split at ht
  · split at ht
    · rename_i job hi
      obtain ⟨e', he, heq⟩ := Option.map_eq_some_iff.mp ht
      obtain ⟨rfl, rfl⟩ := Prod.mk.inj heq
      obtain ⟨hslot, -, hmem⟩ := h.kept _ e' he
      exact ⟨hslot.symm, hmem, (h.sound _ (List.mem_of_getElem? hi)).2⟩
    · cases ht
  · cases ht

variable [DecidableEq Slot]

theorem Kept.update {cache : Slot → Option (Entry Query Outside Answer)}
    (hkept : M.Kept used cache) {q : Query} (hq : q ∈ used) (seen : Outside) :
    M.Kept used (Function.update cache (M.slot q) (some ⟨M.answer seen q, q, seen⟩)) := by
  intro slot e he
  by_cases hslot : slot = M.slot q
  · subst hslot
    rw [Function.update_self] at he
    obtain rfl := Option.some.inj he
    exact ⟨rfl, rfl, hq⟩
  · rw [Function.update_of_ne hslot] at he
    exact hkept slot e he

theorem Kept.drop {cache : Slot → Option (Entry Query Outside Answer)}
    (hkept : M.Kept used cache) (dropped : Slot) :
    M.Kept used (Function.update cache dropped none) := by
  intro slot e he
  by_cases hslot : slot = dropped
  · rw [hslot, Function.update_self] at he
    cases he
  · rw [Function.update_of_ne hslot] at he
    exact hkept slot e he

theorem sound_advance (hR : ∀ q f, R q f q f) (hkept : M.Kept used s.cache)
    {job : Job} {phase : Phase Outside Answer} (hc : M.Sound used R ⟨job, phase⟩)
    (hadmits : phase = .looking → ∀ e, s.cache (M.slot (M.query job)) = some e →
      R e.query e.origin (M.query job) s.outside) :
    M.Kept used (M.advance s (M.query job) phase).2 ∧
      M.Sound used R ⟨job, (M.advance s (M.query job) phase).1⟩ := by
  cases phase with
  | looking =>
    cases hentry : s.cache (M.slot (M.query job)) with
    | none =>
      rw [advance_miss hentry]
      exact ⟨hkept, hc⟩
    | some e =>
      rw [advance_hit hentry]
      obtain ⟨-, hanswer, -⟩ := hkept _ e hentry
      exact ⟨hkept, Or.inr ⟨hc.1, e.query, e.origin, hadmits rfl e hentry, hanswer⟩⟩
  | asking =>
    cases hen : M.enabled with
    | true =>
      rw [advance_enabled hen]
      exact ⟨hkept, hc, rfl⟩
    | false =>
      rw [advance_disabled hen]
      exact ⟨hkept, Or.inr ⟨hc.1, M.query job, s.outside, hR _ _, rfl⟩⟩
  | keeping a seen =>
    obtain ⟨⟨hasks, hq⟩, ha⟩ := hc
    rw [show a = M.answer seen (M.query job) from ha]
    exact ⟨hkept.update hq seen, Or.inr ⟨hasks, M.query job, seen, hR _ _, rfl⟩⟩
  | done a seen => exact ⟨hkept, hc⟩

theorem Inv.move (h : M.Inv used R s) (hR : ∀ q f, R q f q f) {m : Move Job Slot Outside}
    (huse : M.Uses used m) (hadmits : M.Admits R s m) : M.Inv used R (M.move s m) := by
  cases m with
  | start job =>
    refine ⟨h.kept, ?_⟩
    intro c hc
    rcases List.mem_append.mp hc with hc | hc
    · exact h.sound c hc
    · rw [List.mem_singleton.mp hc]
      exact sound_begin huse s.outside
  | step i =>
    dsimp only [Setup.move]
    cases hi : s.calls[i]? with
    | none => exact h
    | some c =>
      obtain ⟨hkept, hsound⟩ := sound_advance hR h.kept (h.sound c (List.mem_of_getElem? hi))
        fun hlooking e he => hadmits (e, M.query c.job) (taken_eq hi hlooking he)
      refine ⟨hkept, ?_⟩
      intro d hd
      rcases List.mem_or_eq_of_mem_set hd with hd | rfl
      · exact h.sound d hd
      · exact hsound
  | change outside => exact ⟨h.kept, h.sound⟩
  | drop slot => exact ⟨h.kept.drop slot, h.sound⟩

/-! ## Whole runs -/

/-- Every answer taken from the cache is one that `R` admits. -/
def Along (M : Setup Job Query Slot Outside Answer)
    (R : Query → Outside → Query → Outside → Prop) :
    State Job Query Slot Outside Answer → List (Move Job Slot Outside) → Prop
  | _, [] => True
  | s, m :: moves => M.Admits R s m ∧ Along M R (M.move s m) moves

instance Along.decidable (M : Setup Job Query Slot Outside Answer)
    (R : Query → Outside → Query → Outside → Prop) [∀ q f q' f', Decidable (R q f q' f')] :
    (s : State Job Query Slot Outside Answer) → (moves : List (Move Job Slot Outside)) →
      Decidable (M.Along R s moves)
  | _, [] => .isTrue trivial
  | s, m :: moves =>
    have := Along.decidable M R (M.move s m) moves
    inferInstanceAs (Decidable (M.Admits R s m ∧ M.Along R (M.move s m) moves))

theorem Inv.run (h : M.Inv used R s) (hR : ∀ q f, R q f q f)
    {moves : List (Move Job Slot Outside)} (huse : ∀ m ∈ moves, M.Uses used m)
    (halong : M.Along R s moves) : M.Inv used R (moves.foldl M.move s) := by
  induction moves generalizing s with
  | nil => exact h
  | cons m moves ih =>
    obtain ⟨hadmits, halong⟩ := halong
    exact ih (h.move hR (huse m List.mem_cons_self) hadmits)
      (fun m' hm' => huse m' (List.mem_cons_of_mem m hm')) halong

/-- **Without collisions every entry that a call takes answers its own question.** -/
theorem along_of_injOn (hslot : Set.InjOn M.slot used)
    (h : M.Inv used (fun q' _ q _ => q' = q) s) {moves : List (Move Job Slot Outside)}
    (huse : ∀ m ∈ moves, M.Uses used m) : M.Along (fun q' _ q _ => q' = q) s moves := by
  induction moves generalizing s with
  | nil => trivial
  | cons m moves ih =>
    have hadmits : M.Admits (fun q' _ q _ => q' = q) s m := by
      intro t ht
      obtain ⟨heq, hentry, hq⟩ := h.taken_slot ht
      exact hslot hentry hq heq
    exact ⟨hadmits, ih (h.move (fun _ _ => rfl) (huse m List.mem_cons_self) hadmits)
      fun m' hm' => huse m' (List.mem_cons_of_mem m hm')⟩

theorem run_alone (hen : M.enabled = false) (outside : Outside) (job : Job) :
    (M.run outside [.start job, .step 0]).calls =
      [⟨job, .done ((M.early outside job).getD (M.answer outside (M.query job))) outside⟩] := by
  have hnext : (M.advance { (.new outside : State Job Query Slot Outside Answer) with
      calls := [⟨job, M.begin outside job⟩] } (M.query job) (M.begin outside job)).1 =
      .done ((M.early outside job).getD (M.answer outside (M.query job))) outside := by
    unfold begin
    cases hearly : M.early outside job with
    | some a => rfl
    | none =>
      dsimp only
      rw [hen, if_neg Bool.false_ne_true, advance_disabled hen]
      rfl
  show [(⟨job, _⟩ : Call Job Outside Answer)] = _
  rw [← hnext]
  rfl

/-! ## When an answer is decided -/

/-- The call has its answer, decided when `seen` was outside. -/
def Decided (seen : Outside) (phase : Phase Outside Answer) : Prop :=
  ∃ a, phase = .keeping a seen ∨ phase = .done a seen

/-- The call stood at the question before the next move, or it was answered early by it. -/
structure DecidedAfter (M : Setup Job Query Slot Outside Answer) (outside : Outside)
    (before : List (Move Job Slot Outside)) (i : Nat) (job : Job) (seen : Outside) : Prop where
  outside_eq : (M.run outside before).outside = seen
  undecided : (M.run outside before).calls[i]? = some ⟨job, .looking⟩ ∨
    (M.run outside before).calls[i]? = some ⟨job, .asking⟩ ∨ (M.early seen job).isSome

theorem run_append (outside : Outside) (moves : List (Move Job Slot Outside))
    (m : Move Job Slot Outside) :
    M.run outside (moves ++ [m]) = M.move (M.run outside moves) m := by
  unfold run
  rw [List.foldl_append]
  rfl

theorem Decided.of_keeping {a : Answer} {f seen : Outside}
    (h : Decided seen (.keeping a f : Phase Outside Answer)) : f = seen := by
  obtain ⟨b, hb | hb⟩ := h <;> cases hb
  rfl

theorem Decided.of_done {a : Answer} {f seen : Outside}
    (h : Decided seen (.done a f : Phase Outside Answer)) : f = seen := by
  obtain ⟨b, hb | hb⟩ := h <;> cases hb
  rfl

/-- One operation decides a call under what is outside, or it was decided before. -/
theorem decided_advance {q : Query} {phase : Phase Outside Answer} {seen : Outside}
    (h : Decided seen (M.advance s q phase).1) :
    Decided seen phase ∨ s.outside = seen ∧ (phase = .looking ∨ phase = .asking) := by
  cases phase with
  | looking =>
    cases hentry : s.cache (M.slot q) with
    | none =>
      rw [advance_miss hentry] at h
      obtain ⟨a, ha | ha⟩ := h <;> cases ha
    | some e =>
      rw [advance_hit hentry] at h
      exact Or.inr ⟨h.of_done, Or.inl rfl⟩
  | asking =>
    refine Or.inr ⟨?_, Or.inr rfl⟩
    cases hen : M.enabled with
    | true =>
      rw [advance_enabled hen] at h
      exact h.of_keeping
    | false =>
      rw [advance_disabled hen] at h
      exact h.of_done
  | keeping a f =>
    obtain rfl := h.of_done
    exact Or.inl ⟨a, Or.inl rfl⟩
  | done a f => exact Or.inl h

omit [DecidableEq Slot] in
theorem decided_begin {f seen : Outside} {job : Job} (h : Decided seen (M.begin f job)) :
    f = seen ∧ (M.early seen job).isSome := by
  unfold begin at h
  split at h
  · rename_i a hearly
    obtain rfl := h.of_done
    exact ⟨rfl, Option.isSome_of_eq_some hearly⟩
  · obtain ⟨a, ha⟩ := h
    split at ha <;> rcases ha with ha | ha <;> cases ha

theorem move_calls {m : Move Job Slot Outside} {i : Nat} {job : Job}
    {phase : Phase Outside Answer} (h : (M.move s m).calls[i]? = some ⟨job, phase⟩) :
    s.calls[i]? = some ⟨job, phase⟩ ∨
      (∃ old, s.calls[i]? = some ⟨job, old⟩ ∧ phase = (M.advance s (M.query job) old).1) ∨
      phase = M.begin s.outside job := by
  cases m with
  | start job' =>
    dsimp only [Setup.move] at h
    rcases Nat.lt_or_ge i s.calls.length with hlt | hge
    · rw [List.getElem?_append_left hlt] at h
      exact Or.inl h
    · rw [List.getElem?_append_right hge] at h
      have hnew := List.mem_singleton.mp (List.mem_of_getElem? h)
      obtain ⟨rfl, hphase⟩ := (Call.mk.injEq _ _ _ _).mp hnew
      exact Or.inr (Or.inr hphase)
  | step j =>
    dsimp only [Setup.move] at h
    cases hj : s.calls[j]? with
    | none =>
      rw [hj] at h
      exact Or.inl h
    | some c =>
      rw [hj] at h
      dsimp only at h
      by_cases hij : j = i
      · subst hij
        rw [List.getElem?_set_self (List.getElem?_eq_some_iff.mp hj).1] at h
        obtain ⟨rfl, hphase⟩ := (Call.mk.injEq _ _ _ _).mp (Option.some.inj h)
        exact Or.inr (Or.inl ⟨c.phase, hj, hphase.symm⟩)
      · rw [List.getElem?_set_ne hij] at h
        exact Or.inl h
  | change f => exact Or.inl h
  | drop slot => exact Or.inl h

/-- **An answer is decided while its call is under way.** -/
theorem decided_during {outside : Outside} {moves : List (Move Job Slot Outside)} {i : Nat}
    {job : Job} {phase : Phase Outside Answer} {seen : Outside}
    (hcall : (M.run outside moves).calls[i]? = some ⟨job, phase⟩) (hdecided : Decided seen phase) :
    ∃ before after, moves = before ++ after ∧ M.DecidedAfter outside before i job seen := by
  induction moves using List.reverseRecOn generalizing phase with
  | nil => cases hcall
  | append_singleton moves m ih =>
    -- either the last move decides the call, or an earlier one did
    have hearlier : ∀ {old}, (M.run outside moves).calls[i]? = some ⟨job, old⟩ →
        Decided seen old → ∃ before after, moves ++ [m] = before ++ after ∧
          M.DecidedAfter outside before i job seen := by
      intro old hcall' hdecided'
      obtain ⟨before, after, rfl, h⟩ := ih hcall' hdecided'
      exact ⟨before, after ++ [m], List.append_assoc _ _ _, h⟩
    rw [run_append] at hcall
    rcases move_calls hcall with hsame | ⟨old, hold, rfl⟩ | rfl
    · exact hearlier hsame hdecided
    · rcases decided_advance hdecided with hbefore | ⟨hseen, rfl | rfl⟩
      · exact hearlier hold hbefore
      · exact ⟨moves, [m], rfl, hseen, Or.inl hold⟩
      · exact ⟨moves, [m], rfl, hseen, Or.inr (Or.inl hold)⟩
    · obtain ⟨hseen, hearly⟩ := decided_begin hdecided
      exact ⟨moves, [m], rfl, hseen, Or.inr (Or.inr hearly)⟩

end Setup

end AuthKademlia.Lib.Memo
