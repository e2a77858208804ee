import AuthKademlia.Crawling.QuorumRead
import AuthKademlia.Crawling.ValueSearch

/-! # Runs of the value search

What a turn of `search` does to the lookup, how a search can end, and that it does.
`replay` is the state of the lookup after rounds that were heard to their end; a
search ends with an accepted value, at its deadline, or in a state in which every
node of the shortlist was asked (`search_ended`). -/
namespace AuthKademlia.Crawling.ValueSearch
open AuthKademlia.Crawling.QuorumRead AuthKademlia.Utils

/-- The round as the other loops see it. -/
def SearchRound.toRound (r : SearchRound) : Round := ⟨r.asked, r.answers⟩

/-- The lookup after a round that was heard to its end. -/
def afterRound (s : SpiderCrawl) (r : SearchRound) : SpiderCrawl :=
  ((s.nextPeers none).2.mergeAll (referrals r.answers)).removeFailed (silent r.answers)

def replay (s : SpiderCrawl) (rs : List SearchRound) : SpiderCrawl := rs.foldl afterRound s

/-- Somebody asked in the round did not answer. -/
def SearchRound.unanswered (r : SearchRound) : Bool :=
  r.arrivals.any fun a => !a.answer.raw.happened

/-- The round that a search takes next. -/
def nextRound (env : SearchPeers) (s : SpiderCrawl) (rs : List SearchRound) : SearchRound :=
  ⟨(s.nextPeers none).1, env.arrivals rs (s.nextPeers none).1⟩

variable {env : SearchPeers} {deadline : Option Instant} {accept : Bytes → Option Bytes}
  {s s₀ : SpiderCrawl} {rs : List SearchRound} {incomplete : Bool} {fuel k : Nat} {target : Node}

/-! ## One turn -/

theorem heard_base (answers : List Answer) (m : Merge) :
    (answers.foldl Merge.heard m).base = m.base.mergeAll (referrals answers) ∧
      (answers.foldl Merge.heard m).toRemove = m.toRemove ++ silent answers := by
  induction answers generalizing m with
  | nil => simp [referrals, silent, SpiderCrawl.mergeAll]
  | cons a answers ih =>
    rw [List.foldl_cons]
    obtain ⟨hbase, hremove⟩ := ih (m.heard a)
    rw [hbase, hremove, Merge.heard]
    cases hh : a.raw.happened with
    | false => simp [hh, referrals, silent]
    | true =>
      cases hv : a.raw.getValue with
      | none => simp [hh, hv, referrals, silent]
      | some value => simp [hh, hv, referrals, silent]

/-- **A turn of the loop.** Nobody is left to ask; or the deadline is reached before or
in the round; or the round brings an accepted value; or it is heard to its end. -/
theorem search_succ (env : SearchPeers) (deadline : Option Instant)
    (accept : Bytes → Option Bytes) (s : SpiderCrawl) (incomplete : Bool)
    (rs : List SearchRound) :
    (s.nearest.haveContactedAll = true ∧ ∀ fuel,
      search env deadline accept (fuel + 1) s incomplete rs =
        some ⟨if incomplete then .incomplete else .notFound, [], rs⟩) ∨
    (s.nearest.haveContactedAll = false ∧
      ((reached deadline (env.now rs) = true ∧ ∀ fuel,
        search env deadline accept (fuel + 1) s incomplete rs = some ⟨.incomplete, [], rs⟩) ∨
      (∃ w, (∃ a ∈ (nextRound env s rs).arrivals, Accepted deadline accept w a) ∧ ∀ fuel,
        search env deadline accept (fuel + 1) s incomplete rs =
          some ⟨.found w, [], rs ++ [nextRound env s rs]⟩) ∨
      ((∃ a ∈ (nextRound env s rs).arrivals, a.late deadline = true) ∧
        ∃ noted, ∀ fuel, search env deadline accept (fuel + 1) s incomplete rs =
          some ⟨.incomplete, noted, rs ++ [nextRound env s rs]⟩) ∨
      ((∀ a ∈ (nextRound env s rs).arrivals, Passed deadline accept a) ∧ ∀ fuel,
        search env deadline accept (fuel + 1) s incomplete rs =
          search env deadline accept fuel (afterRound s (nextRound env s rs))
            (incomplete || (nextRound env s rs).unanswered) (rs ++ [nextRound env s rs])))) := by
  simp only [search]
  cases hall : s.nearest.haveContactedAll with
  | true => exact Or.inl ⟨rfl, fun _ => rfl⟩
  | false =>
    refine Or.inr ⟨rfl, ?_⟩
    cases hnow : reached deadline (env.now rs) with
    | true => exact Or.inl ⟨rfl, fun _ => rfl⟩
    | false =>
      refine Or.inr ?_
      simp only [Bool.false_eq_true, if_false]
      rcases receive_cases deadline accept (nextRound env s rs).arrivals
        ⟨(s.nextPeers none).2, (s.nextPeers none).1, [], incomplete⟩ with
        ⟨hpass, heq⟩ | ⟨w, heq, hacc⟩ | ⟨m, heq, hlate⟩
      · refine Or.inr (Or.inr ⟨hpass, fun fuel => ?_⟩)
        obtain ⟨hbase, hremove⟩ := heard_base (nextRound env s rs).answers
          ⟨(s.nextPeers none).2, (s.nextPeers none).1, [], incomplete⟩
        have hinc := heard_incomplete (nextRound env s rs).answers
          ⟨(s.nextPeers none).2, (s.nextPeers none).1, [], incomplete⟩
        rw [show env.arrivals rs (s.nextPeers none).1 = (nextRound env s rs).arrivals from rfl, heq]
        simp only [SearchRound.answers] at hbase hremove hinc
        simp only [hbase, hremove, hinc, List.nil_append, List.any_map]
        rfl
      · refine Or.inl ⟨w, hacc, fun _ => ?_⟩
        rw [show env.arrivals rs (s.nextPeers none).1 = (nextRound env s rs).arrivals from rfl, heq]
        rfl
      · refine Or.inr (Or.inl ⟨hlate, ?_⟩)
        rw [show env.arrivals rs (s.nextPeers none).1 = (nextRound env s rs).arrivals from rfl, heq]
        exact ⟨_, fun _ => rfl⟩

/-! ## Whole searches -/

/-- A search from `s₀` that goes on: its rounds were heard to their end. -/
structure Going (target : Node) (k : Nat) (deadline : Option Instant)
    (accept : Bytes → Option Bytes) (s₀ s : SpiderCrawl) (incomplete : Bool)
    (rs : List SearchRound) : Prop where
  state : s = replay s₀ rs
  tracks : s.Tracks target k (rs.map SearchRound.toRound)
  pace : s.Pace (rs.map SearchRound.toRound)
  passed : ∀ r ∈ rs, ∀ a ∈ r.arrivals, Passed deadline accept a
  perm : ∀ r ∈ rs, (r.arrivals.map fun a => a.answer.peer).Perm (r.asked.map Node.id)
  unanswered : incomplete = rs.any SearchRound.unanswered

theorem going_new (ht : s₀.Tracks target k []) : Going target k deadline accept s₀ s₀ false [] :=
  ⟨rfl, ht, s₀.pace_new, by simp, by simp, rfl⟩

theorem perm_nextRound (env : SearchPeers) (s : SpiderCrawl) (rs : List SearchRound) :
    ((nextRound env s rs).answers.map Answer.peer).Perm ((s.nextPeers none).1.map Node.id) := by
  unfold SearchRound.answers
  rw [List.map_map]
  exact env.perm rs _

/-- **A round heard to its end keeps the search going.** -/
theorem Going.round (h : Going target k deadline accept s₀ s incomplete rs) (env : SearchPeers)
    (hall : s.nearest.haveContactedAll = false)
    (hpass : ∀ a ∈ (nextRound env s rs).arrivals, Passed deadline accept a) :
    Going target k deadline accept s₀ (afterRound s (nextRound env s rs))
      (incomplete || (nextRound env s rs).unanswered) (rs ++ [nextRound env s rs]) where
  state := by
    have hs : s = rs.foldl afterRound s₀ := h.state
    rw [replay, List.foldl_append, ← hs]
    rfl
  tracks := by
    rw [List.map_append]
    exact h.tracks.round none _
  pace := by
    rw [List.map_append]
    exact h.pace.round h.tracks.wf (by simp) (perm_nextRound env s rs)
      (fun _ ha => List.mem_of_mem_filter ha) fun _ => hall
  passed := by
    intro r hr
    rcases List.mem_append.mp hr with hr | hr
    · exact h.passed r hr
    · rw [List.mem_singleton.mp hr]
      exact hpass
  perm := by
    intro r hr
    rcases List.mem_append.mp hr with hr | hr
    · exact h.perm r hr
    · rw [List.mem_singleton.mp hr]
      exact env.perm rs _
  unanswered := by
    rw [List.any_append, ← h.unanswered]
    simp

/-- The deadline was reached, by the clock or while a round waited. -/
def DeadlinePassed (env : SearchPeers) (deadline : Option Instant) (rs : List SearchRound) : Prop :=
  reached deadline (env.now rs) = true ∨
    ∃ r ∈ rs, ∃ a ∈ r.arrivals, a.late deadline = true

/-- **How a search ends**: with an accepted value, at the deadline, or when everybody
in the shortlist was asked. -/
theorem search_ended {e : SearchEnd} (h : Going target k deadline accept s₀ s incomplete rs)
    (hsearch : search env deadline accept fuel s incomplete rs = some e) :
    (∃ w, e.outcome = .found w ∧ ∃ r ∈ e.rounds,
      (r.arrivals.map fun a => a.answer.peer).Perm (r.asked.map Node.id) ∧
      ∃ a ∈ r.arrivals, Accepted deadline accept w a) ∨
    (e.outcome = .incomplete ∧ DeadlinePassed env deadline e.rounds) ∨
    ∃ s' incomplete', Going target k deadline accept s₀ s' incomplete' e.rounds ∧
      s'.nearest.haveContactedAll = true ∧
      e.outcome = if incomplete' then .incomplete else .notFound := by
  induction fuel generalizing s incomplete rs with
  | zero => cases hsearch
  | succ fuel ih =>
    rcases search_succ env deadline accept s incomplete rs with
      ⟨hall, heq⟩ | ⟨hall, ⟨hnow, heq⟩ | ⟨w, hacc, heq⟩ | ⟨hlate, noted, heq⟩ | ⟨hpass, heq⟩⟩
    · cases (heq fuel).symm.trans hsearch
      exact Or.inr (Or.inr ⟨s, incomplete, h, hall, rfl⟩)
    · cases (heq fuel).symm.trans hsearch
      exact Or.inr (Or.inl ⟨rfl, Or.inl hnow⟩)
    · cases (heq fuel).symm.trans hsearch
      exact Or.inl ⟨w, rfl, _, List.mem_append_right _ (List.mem_singleton_self _),
        env.perm rs _, hacc⟩
    · cases (heq fuel).symm.trans hsearch
      exact Or.inr (Or.inl ⟨rfl,
        Or.inr ⟨_, List.mem_append_right _ (List.mem_singleton_self _), hlate⟩⟩)
    · exact ih (h.round env hall hpass) ((heq fuel).symm.trans hsearch)

/-- **Every search ends**, whatever the peers answer and with or without a deadline. -/
theorem search_returns (h : Going target k deadline accept s₀ s incomplete rs)
    (env : SearchPeers) : ∃ fuel e, search env deadline accept fuel s incomplete rs = some e := by
  induction hb : s.budget (rs.map SearchRound.toRound) using Nat.strong_induction_on
    generalizing s incomplete rs with
  | _ b ih =>
    rcases search_succ env deadline accept s incomplete rs with
      ⟨-, heq⟩ | ⟨hall, ⟨-, heq⟩ | ⟨w, -, heq⟩ | ⟨-, noted, heq⟩ | ⟨hpass, heq⟩⟩
    · exact ⟨1, _, heq 0⟩
    · exact ⟨1, _, heq 0⟩
    · exact ⟨1, _, heq 0⟩
    · exact ⟨1, _, heq 0⟩
    · have hlt : (afterRound s (nextRound env s rs)).budget
          ((rs ++ [nextRound env s rs]).map SearchRound.toRound) <
          s.budget (rs.map SearchRound.toRound) := by
        rw [List.map_append]
        exact h.tracks.budget_round (by simp) (perm_nextRound env s rs)
          (fun _ ha => List.mem_of_mem_filter ha) fun _ => hall
      obtain ⟨fuel, e, hrest⟩ := ih _ (hb ▸ hlt) (h.round env hall hpass) rfl
      exact ⟨fuel + 1, e, (heq fuel).trans hrest⟩

theorem search_rounds {e : SearchEnd} (h : Going target k deadline accept s₀ s incomplete rs)
    (hsearch : search env deadline accept fuel s incomplete rs = some e) :
    (askedIds (e.rounds.map SearchRound.toRound)).Nodup ∧
      Paced (e.rounds.map SearchRound.toRound) := by
  induction fuel generalizing s incomplete rs with
  | zero => cases hsearch
  | succ fuel ih =>
    have hlast : s.nearest.haveContactedAll = false →
        (askedIds ((rs ++ [nextRound env s rs]).map SearchRound.toRound)).Nodup ∧
          Paced ((rs ++ [nextRound env s rs]).map SearchRound.toRound) := by
      intro hall
      rw [List.map_append]
      have htracks : SpiderCrawl.Tracks target k _ (rs.map SearchRound.toRound ++
          [⟨(s.nextPeers none).1, (nextRound env s rs).answers⟩]) := h.tracks.round none []
      refine ⟨htracks.once, ?_⟩
      exact (h.pace.round h.tracks.wf (by simp) (perm_nextRound env s rs)
        (fun _ ha => absurd ha List.not_mem_nil) fun _ => hall).paced
    rcases search_succ env deadline accept s incomplete rs with
      ⟨-, heq⟩ | ⟨hall, ⟨-, heq⟩ | ⟨w, -, heq⟩ | ⟨-, noted, heq⟩ | ⟨hpass, heq⟩⟩
    · cases (heq fuel).symm.trans hsearch
      exact ⟨h.tracks.once, h.pace.paced⟩
    · cases (heq fuel).symm.trans hsearch
      exact ⟨h.tracks.once, h.pace.paced⟩
    · cases (heq fuel).symm.trans hsearch
      exact hlast hall
    · cases (heq fuel).symm.trans hsearch
      exact hlast hall
    · exact ih (h.round env hall hpass) ((heq fuel).symm.trans hsearch)

end AuthKademlia.Crawling.ValueSearch
