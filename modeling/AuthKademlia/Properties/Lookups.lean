import AuthKademlia.Crawling.NodeLookup
import AuthKademlia.Crawling.SearchRuns
import AuthKademlia.Crawling.ValueFind

/-! # Lookups over whole runs

What the outcomes of a value search mean, and that every lookup ends. The peers are
arbitrary in both: whatever they answer, in whatever order, the nodes they report may
be different at every answer. -/
namespace AuthKademlia.Properties
open AuthKademlia.Crawling AuthKademlia.Crawling.ValueSearch AuthKademlia.Utils

/-- A lookup as it starts, asking `alpha` peers in each round or everyone. -/
def startOf (target : Node) (seeds : List Node) (k alpha : Nat) (everyone : Bool) : SpiderCrawl :=
  { SpiderCrawl.new target seeds k alpha with askEveryone := everyone }

theorem tracks_startOf (target : Node) (seeds : List Node) (k alpha : Nat) (everyone : Bool) :
    (startOf target seeds k alpha everyone).Tracks target k [] := by
  obtain ⟨hw, hnode, hmax, hcon, hfail, hlive, honce⟩ :=
    SpiderCrawl.tracks_new target seeds k alpha
  exact ⟨hw, hnode, hmax, hcon, hfail, hlive, honce⟩

/-- Every node of the shortlist after the rounds was asked in them. -/
def EveryoneAsked (s : SpiderCrawl) (rs : List SearchRound) : Prop :=
  ∀ id ∈ (replay s rs).nearest.getIds, id ∈ askedIds (rs.map SearchRound.toRound)

/-- Every value received in the rounds was rejected. -/
def AllRejected (accept : Bytes → Option Bytes) (rs : List SearchRound) : Prop :=
  ∀ r ∈ rs, ∀ a ∈ r.arrivals, a.answer.raw.happened = true →
    ∀ v, a.answer.raw.getValue = some v → accept v = none

section Ended

variable {target : Node} {k : Nat} {deadline : Option Instant} {accept : Bytes → Option Bytes}
  {s₀ s : SpiderCrawl} {incomplete : Bool} {rs : List SearchRound}

theorem everyoneAsked_of_going (h : Going target k deadline accept s₀ s incomplete rs)
    (hall : s.nearest.haveContactedAll = true) : EveryoneAsked s₀ rs := by
  intro id hid
  rw [← h.state] at hid
  exact (h.tracks.contacted id).mp ((NodeHeap.haveContactedAll_iff _).mp hall id hid)

theorem allRejected_of_going (h : Going target k deadline accept s₀ s incomplete rs) :
    AllRejected accept rs :=
  fun r hr a ha => (h.passed r hr a ha).rejected

theorem asked_of_arrival {r : SearchRound} {a : ValueSearch.Arrival}
    (hperm : (r.arrivals.map fun a => a.answer.peer).Perm (r.asked.map Node.id))
    (ha : a ∈ r.arrivals) : a.answer.peer ∈ r.asked.map Node.id :=
  hperm.mem_iff.mp (List.mem_map_of_mem (f := fun a => a.answer.peer) ha)

end Ended

/-- **What the outcomes of a value search mean.** A value is found only if a peer that
was asked answered with one that is accepted as it. Nothing is found only if every peer
asked answered, every value was rejected and every node left in the shortlist was asked.
Without a deadline, a search is incomplete only if a peer asked did not answer and no
value was accepted. And unless a value is accepted or the deadline passes, a search goes
on until every node in its shortlist was asked. -/
theorem search_outcomes (target : Node) (seeds : List Node) (k alpha : Nat) (everyone : Bool)
    (env : SearchPeers) (deadline : Option Instant) (accept : Bytes → Option Bytes) (fuel : Nat)
    (e : SearchEnd)
    (h : search env deadline accept fuel (startOf target seeds k alpha everyone) false [] =
      some e) :
    (∀ w, e.outcome = .found w → ∃ r ∈ e.rounds, ∃ a ∈ r.arrivals,
      a.answer.peer ∈ r.asked.map Node.id ∧ Accepted deadline accept w a) ∧
    (e.outcome = .notFound →
      (∀ r ∈ e.rounds, ∀ n ∈ r.asked, ∃ a ∈ r.arrivals, a.answer.peer = n.id ∧
        a.answer.raw.happened = true) ∧
      AllRejected accept e.rounds ∧
      EveryoneAsked (startOf target seeds k alpha everyone) e.rounds) ∧
    (deadline = none → e.outcome = .incomplete →
      (∃ r ∈ e.rounds, ∃ a ∈ r.arrivals, a.answer.peer ∈ r.asked.map Node.id ∧
        a.answer.raw.happened = false) ∧
      AllRejected accept e.rounds) ∧
    ((∃ w, e.outcome = .found w) ∨ DeadlinePassed env deadline e.rounds ∨
      EveryoneAsked (startOf target seeds k alpha everyone) e.rounds) := by
  have hstart : Going target k deadline accept (startOf target seeds k alpha everyone)
      (startOf target seeds k alpha everyone) false [] :=
    going_new (tracks_startOf target seeds k alpha everyone)
  rcases search_ended hstart h with
    ⟨w, hout, r, hr, hperm, a, ha, hacc⟩ | ⟨hout, hpassed⟩ | ⟨s, incomplete, hgo, hall, hout⟩
  · rw [hout]
    refine ⟨fun w' hw' => ?_, fun hno => (by cases hno), fun _ hno => (by cases hno),
      Or.inl ⟨w, rfl⟩⟩
    cases hw'
    exact ⟨r, hr, a, ha, asked_of_arrival hperm ha, hacc⟩
  · rw [hout]
    refine ⟨fun w hw => (by cases hw), fun hno => (by cases hno), ?_, Or.inr (Or.inl hpassed)⟩
    rintro rfl -
    rcases hpassed with hno | ⟨r, -, a, -, hno⟩
    · cases hno
    · cases hno
  · have hasked := everyoneAsked_of_going hgo hall
    have hrej := allRejected_of_going hgo
    have hun := hgo.unanswered
    cases incomplete with
    | true =>
      rw [hout]
      refine ⟨fun w hw => (by cases hw), fun hno => (by cases hno), ?_, Or.inr (Or.inr hasked)⟩
      intro _ _
      obtain ⟨r, hr, hsome⟩ := List.any_eq_true.mp hun.symm
      obtain ⟨a, ha, hsilent⟩ := List.any_eq_true.mp hsome
      exact ⟨⟨r, hr, a, ha, asked_of_arrival (hgo.perm r hr) ha, by simpa using hsilent⟩, hrej⟩
    | false =>
      rw [hout]
      refine ⟨fun w hw => (by cases hw), ?_, fun _ hno => (by cases hno), Or.inr (Or.inr hasked)⟩
      refine fun _ => ⟨fun r hr n hn => ?_, hrej, hasked⟩
      have hmem := (hgo.perm r hr).mem_iff.mpr (List.mem_map_of_mem (f := Node.id) hn)
      obtain ⟨a, ha, hpeer⟩ := List.mem_map.mp hmem
      have hnone : r.unanswered = false := by simpa using List.any_eq_false.mp hun.symm r hr
      exact ⟨a, ha, hpeer, by simpa using List.any_eq_false.mp hnone a ha⟩

/-- One peer has a value that is rejected, another reports a third, which is asked in the
second round. -/
theorem search_outcomes_rejected :
    let target := Node.fromId (filledId 1)
    let reported := [((filledId 4).bytes, some "10.0.0.4", some 7004)]
    let env := SearchPeers.prompt fun id => ⟨true,
      if id = filledId 2 then .value [9] else .nodes (if id = filledId 3 then reported else [])⟩
    let accept : Bytes → Option Bytes := fun v => if v = [9] then none else some v
    let seeds : List Node :=
      [⟨filledId 2, some "10.0.0.2", some 7002⟩, ⟨filledId 3, some "10.0.0.3", some 7003⟩]
    let start := startOf target seeds 20 3 false
    ∃ e, search env none accept 5 start false [] = some e ∧ e.outcome = .notFound ∧
      e.rounds.map (fun r => r.asked.map Node.id) = [[filledId 3, filledId 2], [filledId 4]] ∧
      AllRejected accept e.rounds ∧ EveryoneAsked start e.rounds := by
  intro target reported env accept seeds start
  have hend : (search env none accept 5 start false []).map (fun e =>
      (e.outcome, e.rounds.map fun r => r.asked.map Node.id)) =
        some (.notFound, [[filledId 3, filledId 2], [filledId 4]]) := by decide +kernel
  obtain ⟨e, he, hend⟩ := Option.map_eq_some_iff.mp hend
  obtain ⟨hout, hasked⟩ := Prod.mk.inj hend
  obtain ⟨-, hrejected, heveryone⟩ :=
    (search_outcomes target seeds 20 3 false env none accept 5 e he).2.1 hout
  exact ⟨e, he, hout, hasked, hrejected, heveryone⟩

/-! ## Every lookup ends -/

/-- **Every lookup ends.** For any shortlist, `k` and `alpha`, zero included, and any
peers: the node lookup, the value lookup, the value search and the quorum read return;
no id is asked twice, and no two rounds in a row ask nobody. -/
theorem lookups_end (target : Node) (seeds : List Node) (k alpha : Nat) (everyone : Bool)
    (peers : Peers) (env : SearchPeers) (accept : Bytes → Option Bytes) (initial : List Bytes)
    (minimumVotes maximumVotes : Nat) :
    let s := startOf target seeds k alpha everyone
    (∃ fuel L out, NodeLookup.findLookupNodes peers fuel s [] = some (L, out) ∧
      (askedIds out).Nodup ∧ Paced out) ∧
    (∃ fuel result, ValueFind.find peers fuel ⟨s, NodeHeap.new target 1⟩ [] = some result ∧
      (askedIds result.rounds).Nodup ∧ Paced result.rounds) ∧
    (∃ fuel e, search env none accept fuel s false [] = some e ∧
      (askedIds (e.rounds.map SearchRound.toRound)).Nodup ∧
      Paced (e.rounds.map SearchRound.toRound)) ∧
    ∃ fuel r out, QuorumRead.findQuorum peers minimumVotes maximumVotes fuel s initial [] =
        some (r, out) ∧ (askedIds out).Nodup ∧ Paced out := by
  intro s
  have ht : s.Tracks target k [] := tracks_startOf target seeds k alpha everyone
  have hp := s.pace_new
  refine ⟨?_, ?_, ?_, ?_⟩
  · obtain ⟨fuel, L, out, h⟩ := NodeLookup.findLookupNodes_returns peers ht
    exact ⟨fuel, L, out, h, NodeLookup.findLookupNodes_rounds ht hp (absurd rfl) h⟩
  · obtain ⟨fuel, result, h⟩ := ValueFind.find_returns peers (c := ⟨s, NodeHeap.new target 1⟩) ht
    exact ⟨fuel, result, h, ValueFind.find_rounds ht hp (absurd rfl) h⟩
  · have hstart : Going target k none accept s s false [] := going_new ht
    obtain ⟨fuel, e, h⟩ := search_returns hstart env
    exact ⟨fuel, e, h, search_rounds hstart h⟩
  · obtain ⟨fuel, r, out, h⟩ :=
      QuorumRead.findQuorum_returns peers minimumVotes maximumVotes initial ht
    exact ⟨fuel, r, out, h, QuorumRead.findQuorum_rounds ht hp h⟩

end AuthKademlia.Properties
