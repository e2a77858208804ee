import AuthKademlia.Crawling.Base

/-! # The value search that must hear from everybody

`search` asks peers for a value and takes the answers as they arrive, each
request being a task of its own. It ends with the first value the caller
accepts, at the deadline, or when nobody is left to ask. The instants at which
requests complete come from outside, like the answers. `timeout_at` polls the
requests before it looks at the clock: an answer is given up only if the loop looks
for it at or after the deadline and it has not completed by then. While the loop
awaits `accept` or `add_reported` it does not look. -/
namespace AuthKademlia.Crawling.ValueSearch
open AuthKademlia.Lib.Shortlist AuthKademlia.Utils

abbrev Instant := Nat

/-- `SILENT_AFTER`: one second. -/
def silentAfter : Nat := 1000000000

/-- Outcome of a value lookup that must hear from every peer it asks. -/
inductive Outcome where
  | found (value : Bytes)
  | notFound
  | incomplete
  deriving DecidableEq

/-- A completed request: when, and with what answer. -/
structure Arrival where
  time : Instant
  /-- When the loop first looks for this answer at or after the deadline. -/
  looked : Instant
  answer : Answer

/-- One round as it took place: whom it asked, and the requests in the order in
which they completed. -/
structure SearchRound where
  asked : List Node
  arrivals : List Arrival

def SearchRound.answers (r : SearchRound) : List Answer := r.arrivals.map Arrival.answer

/-- The other side of a search: the clock at the head of the loop, and, for the
peers asked, the instant of asking, the completed requests in order and the
instant at which waiting would end at a deadline. -/
structure SearchPeers where
  now : List SearchRound → Instant
  askedAt : List SearchRound → Instant
  gaveUpAt : List SearchRound → Instant
  arrivals : List SearchRound → List Node → List Arrival
  perm : ∀ seen asked,
    ((arrivals seen asked).map fun a => a.answer.peer).Perm (asked.map Node.id)

/-- Peers that answer at once by a fixed rule. -/
def SearchPeers.prompt (reply : NodeId → RawResponse) : SearchPeers where
  now := fun _ => 0
  askedAt := fun _ => 0
  gaveUpAt := fun _ => 0
  arrivals := fun _ asked => asked.map fun n => ⟨0, 0, n.id, reply n.id, ∅⟩
  perm := fun _ asked => by simp [Function.comp_def]

structure Merge where
  base : SpiderCrawl
  waiting : List Node
  toRemove : List NodeId
  incomplete : Bool

inductive RoundEnd where
  | finished (m : Merge)
  | accepted (value : Bytes)
  | timedOut (m : Merge)

def reached (deadline : Option Instant) (t : Instant) : Bool := deadline.any fun d => d ≤ t

theorem reached_eq_false {d t : Instant} : reached (some d) t = false ↔ t < d := by
  simp [reached]

/-- The deadline is reached, and the loop has looked before the request completed. -/
def Arrival.late (deadline : Option Instant) (a : Arrival) : Bool :=
  reached deadline a.time && decide (a.looked < a.time)

@[simp] theorem Arrival.late_none (a : Arrival) : a.late none = false := rfl

theorem Arrival.late_eq_false {d : Instant} {a : Arrival} :
    a.late (some d) = false ↔ (d ≤ a.time → a.time ≤ a.looked) := by
  simp [late, reached, Bool.and_eq_false_imp]

theorem Arrival.late_of_not_reached {deadline : Option Instant} {a : Arrival}
    (h : reached deadline a.time = false) : a.late deadline = false := by
  simp [late, h]

/-- The loop over the arrivals of a round. -/
def receive (deadline : Option Instant) (accept : Bytes → Option Bytes) :
    Merge → List Arrival → RoundEnd
  | m, [] => .finished m
  | m, x :: rest =>
    if x.late deadline then .timedOut m
    else
      let a := x.answer
      let m := { m with waiting := m.waiting.filter fun n => n.id ≠ a.peer }
      if !a.raw.happened then
        receive deadline accept
          { m with toRemove := m.toRemove ++ [a.peer], incomplete := true } rest
      else match a.raw.getValue with
        | some value =>
          match accept value with
          | some accepted => .accepted accepted
          | none => receive deadline accept m rest
        | none =>
          receive deadline accept
            { m with base := m.base.addReported a.failing a.raw.getNodeList } rest

/-- What a search returns: its outcome, the peers it reports as not answering
(`note_no_answer`), and its rounds. -/
structure SearchEnd where
  outcome : Outcome
  noted : List Node
  rounds : List SearchRound

/-- `ValueSpiderCrawl::search`, for at most `fuel` turns of the loop. -/
def search (env : SearchPeers) (deadline : Option Instant) (accept : Bytes → Option Bytes) :
    Nat → SpiderCrawl → Bool → List SearchRound → Option SearchEnd
  | 0, _, _, _ => none
  | fuel + 1, s, incomplete, rs =>
    if s.nearest.haveContactedAll then
      some ⟨if incomplete then .incomplete else .notFound, [], rs⟩
    else if reached deadline (env.now rs) then some ⟨.incomplete, [], rs⟩
    else
      let (asked, s) := s.nextPeers none
      let arrivals := env.arrivals rs asked
      let heard := rs ++ [⟨asked, arrivals⟩]
      match receive deadline accept ⟨s, asked, [], incomplete⟩ arrivals with
      | .accepted value => some ⟨.found value, [], heard⟩
      | .timedOut m =>
        some ⟨.incomplete,
          if silentAfter ≤ env.gaveUpAt rs - env.askedAt rs then m.waiting else [], heard⟩
      | .finished m =>
        search env deadline accept fuel (m.base.removeFailed m.toRemove) m.incomplete heard

variable {env : SearchPeers} {deadline : Option Instant} {accept : Bytes → Option Bytes}
variable {fuel : Nat} {s : SpiderCrawl} {rs : List SearchRound} {incomplete : Bool}

/-- An arrival that leaves the search going: handed on, and without a value that
the caller accepts. -/
structure Passed (deadline : Option Instant) (accept : Bytes → Option Bytes) (a : Arrival) :
    Prop where
  handed : a.late deadline = false
  rejected : a.answer.raw.happened = true → ∀ v, a.answer.raw.getValue = some v → accept v = none

/-- An arrival with a value that the caller accepts as `w`. -/
structure Accepted (deadline : Option Instant) (accept : Bytes → Option Bytes) (w : Bytes)
    (a : Arrival) : Prop where
  handed : a.late deadline = false
  happened : a.answer.raw.happened = true
  value : ∃ v, a.answer.raw.getValue = some v ∧ accept v = some w

/-- What the loop keeps after an answer that leaves the search going. -/
def Merge.heard (m : Merge) (a : Answer) : Merge where
  base := if a.raw.happened && a.raw.getValue.isNone then
      m.base.addReported a.failing a.raw.getNodeList
    else m.base
  waiting := m.waiting.filter fun n => n.id ≠ a.peer
  toRemove := if a.raw.happened then m.toRemove else m.toRemove ++ [a.peer]
  incomplete := m.incomplete || !a.raw.happened

/-- **One arrival** leaves the search going, ends it with an accepted value, or is
too late. -/
theorem receive_cons (x : Arrival) (m : Merge) :
    (Passed deadline accept x ∧ ∀ rest, receive deadline accept m (x :: rest) =
      receive deadline accept (m.heard x.answer) rest) ∨
    (∃ w, Accepted deadline accept w x ∧
      ∀ rest, receive deadline accept m (x :: rest) = .accepted w) ∨
    (x.late deadline = true ∧
      ∀ rest, receive deadline accept m (x :: rest) = .timedOut m) := by
  simp only [receive]
  cases htime : x.late deadline with
  | true => exact Or.inr (Or.inr ⟨rfl, fun _ => by simp⟩)
  | false =>
    cases hh : x.answer.raw.happened with
    | false =>
      refine Or.inl ⟨⟨htime, fun hy => ?_⟩, fun _ => by simp [Merge.heard, hh]⟩
      rw [hh] at hy
      cases hy
    | true =>
      cases hv : x.answer.raw.getValue with
      | none =>
        refine Or.inl ⟨⟨htime, fun _ v hw => ?_⟩, fun _ => by simp [Merge.heard, hh, hv]⟩
        rw [hv] at hw
        cases hw
      | some v =>
        cases hacc : accept v with
        | some w => exact Or.inr (Or.inl ⟨w, ⟨htime, hh, v, hv, hacc⟩, fun _ => by simp [hacc]⟩)
        | none =>
          refine Or.inl ⟨⟨htime, fun _ w hw => ?_⟩, fun _ => by simp [Merge.heard, hh, hv, hacc]⟩
          rw [hv] at hw
          exact Option.some.inj hw ▸ hacc

/-- **A round** is heard to its end, ended by an accepted value, or cut off by the
deadline. -/
theorem receive_cases (deadline : Option Instant) (accept : Bytes → Option Bytes)
    (arrivals : List Arrival) (m : Merge) :
    ((∀ a ∈ arrivals, Passed deadline accept a) ∧ receive deadline accept m arrivals =
      .finished ((arrivals.map Arrival.answer).foldl Merge.heard m)) ∨
    (∃ w, receive deadline accept m arrivals = .accepted w ∧
      ∃ a ∈ arrivals, Accepted deadline accept w a) ∨
    ∃ m', receive deadline accept m arrivals = .timedOut m' ∧
      ∃ a ∈ arrivals, a.late deadline = true := by
  induction arrivals generalizing m with
  | nil => exact Or.inl ⟨fun _ ha => absurd ha List.not_mem_nil, rfl⟩
  | cons x rest ih =>
    rcases receive_cons x m with ⟨hpass, heq⟩ | ⟨w, hacc, heq⟩ | ⟨hlate, heq⟩
    · rw [heq]
      rcases ih (m.heard x.answer) with
        ⟨hall, hfin⟩ | ⟨w, hw, b, hb, hacc⟩ | ⟨m', hm, b, hb, hlate⟩
      · exact Or.inl ⟨List.forall_mem_cons.mpr ⟨hpass, hall⟩, hfin⟩
      · exact Or.inr (Or.inl ⟨w, hw, b, List.mem_cons_of_mem x hb, hacc⟩)
      · exact Or.inr (Or.inr ⟨m', hm, b, List.mem_cons_of_mem x hb, hlate⟩)
    · exact Or.inr (Or.inl ⟨w, heq rest, x, List.mem_cons_self .., hacc⟩)
    · exact Or.inr (Or.inr ⟨m, heq rest, x, List.mem_cons_self .., hlate⟩)

theorem heard_incomplete (answers : List Answer) (m : Merge) :
    (answers.foldl Merge.heard m).incomplete =
      (m.incomplete || answers.any fun a => !a.raw.happened) := by
  induction answers generalizing m with
  | nil => simp
  | cons a answers ih => rw [List.foldl_cons, ih, List.any_cons, Merge.heard, Bool.or_assoc]

/-- **Inversion of a round** that was heard to its end. -/
theorem receive_finished {arrivals : List Arrival} {m m' : Merge}
    (h : receive deadline accept m arrivals = .finished m') :
    (∀ a ∈ arrivals, Passed deadline accept a) ∧
      (m'.incomplete = false → m.incomplete = false ∧
        ∀ a ∈ arrivals, a.answer.raw.happened = true) := by
  rcases receive_cases deadline accept arrivals m with ⟨hall, heq⟩ | ⟨w, heq, -⟩ | ⟨m'', heq, -⟩
  · refine ⟨hall, fun hinc => ?_⟩
    cases heq.symm.trans h
    rw [heard_incomplete, Bool.or_eq_false_iff, List.any_eq_false] at hinc
    refine ⟨hinc.1, fun a ha => ?_⟩
    simpa using hinc.2 a.answer (List.mem_map_of_mem ha)
  · cases heq.symm.trans h
  · cases heq.symm.trans h

/-- A round in which everybody's answer was handed on, nobody's with an accepted value. -/
def Quiet (deadline : Option Instant) (accept : Bytes → Option Bytes) (r : SearchRound) : Prop :=
  ∀ a ∈ r.arrivals, Passed deadline accept a ∧ a.answer.raw.happened = true

/-- **Nothing found means that everybody asked was heard.** -/
theorem search_notFound : ∀ {fuel : Nat} {s : SpiderCrawl} {incomplete : Bool}
    {rs : List SearchRound} {e : SearchEnd},
    search env deadline accept fuel s incomplete rs = some e → e.outcome = .notFound →
      incomplete = false ∧ ∃ later, e.rounds = rs ++ later ∧
        ∀ r ∈ later, Quiet deadline accept r ∧
          (r.arrivals.map fun a => a.answer.peer).Perm (r.asked.map Node.id)
  | 0, _, _, _, _, h, _ => by cases h
  | fuel + 1, s, incomplete, rs, e, h, he => by
    simp only [search] at h
    split at h
    · cases h
      refine ⟨?_, [], by simp, by simp⟩
      by_contra hne
      simp only [Bool.not_eq_false] at hne
      rw [hne, if_pos rfl] at he
      cases he
    · split at h
      · cases h; cases he
      · split at h
        · cases h; cases he
        · cases h; cases he
        · rename_i m hm
          obtain ⟨hinc, later, heq, hlater⟩ := search_notFound h he
          obtain ⟨hpass, hall⟩ := receive_finished hm
          obtain ⟨hinc₀, hheard⟩ := hall hinc
          refine ⟨hinc₀, _ :: later, by rw [heq, List.append_assoc]; rfl, ?_⟩
          rw [List.forall_mem_cons]
          exact ⟨⟨fun a ha => ⟨hpass a ha, hheard a ha⟩, env.perm _ _⟩, hlater⟩

theorem search_first_round {e : SearchEnd} (h : search env deadline accept fuel s false [] = some e)
    (he : e.outcome = .notFound) (hs : s.nearest.haveContactedAll = false) :
    ∃ first later, e.rounds = first :: later ∧ first.asked = (s.nextPeers none).1 := by
  cases fuel with
  | zero => cases h
  | succ fuel =>
    simp only [search, hs, Bool.false_eq_true, if_false] at h
    split at h
    · cases h; cases he
    · split at h
      · cases h; cases he
      · cases h; cases he
      · obtain ⟨-, later, heq, -⟩ := search_notFound h he
        exact ⟨_, later, by rw [heq]; rfl, rfl⟩

end AuthKademlia.Crawling.ValueSearch
