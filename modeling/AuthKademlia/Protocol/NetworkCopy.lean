import AuthKademlia.Crawling.ValueSearch
import AuthKademlia.Routing.Table

/-! # The network check of an empty replica

A replica that does not hold a key asks the nodes closest to it for the hash of
their record before it stores one (`FindHash`). It asks all of them at once when
it is among the closest itself, so that no answer can push a contact out of the
shortlist before it was asked. -/
namespace AuthKademlia.Protocol
open AuthKademlia.Lib.Shortlist AuthKademlia.Utils AuthKademlia.Routing AuthKademlia.Crawling
open AuthKademlia.Crawling.ValueSearch

/-- `STORE_LOOKUP_TIMEOUT`: two seconds. -/
def storeLookupTimeout : Nat := 2000000000

/-- What an empty replica learns from the network about a record it was sent. -/
inductive NetworkCopy where
  /-- Every node asked answered: none holds the record, or they hold the same one. -/
  | noneOrSame
  /-- A node answered with another hash. -/
  | other
  /-- Some node did not answer, or there was nobody to ask. -/
  | unknown
  deriving DecidableEq

/-- The contacts a check can ask: the neighbours of the key without failures. -/
def checkContacts (router : RoutingTable) (target : Node) : List Node :=
  (router.findNeighbors target none).filter fun n => !router.hasFailures n.id

/-- By its own table, this node is among the `k` closest to the key. -/
def amongClosest (router : RoutingTable) (target : Node) : Bool :=
  ((router.findNeighbors target none).filter fun n =>
    n.distanceTo target < router.node.distanceTo target).length < router.ksize

/-- `network_copy`, with the rounds of its search. `start` is the instant from
which the deadline is counted. -/
def networkCopy (hashes : Hashes) (router : RoutingTable) (alpha : Nat) (env : SearchPeers)
    (start : Instant) (fuel : Nat) (key : NodeId) (value : Bytes) :
    Option (NetworkCopy × List SearchRound) :=
  let target := Node.fromId key
  let nearest := checkContacts router target
  if nearest.isEmpty then some (.unknown, [])
  else
    let own := hashes.sha256 value
    let crawl := { SpiderCrawl.new target nearest router.ksize alpha with
      askEveryone := amongClosest router target }
    (search env (some (start + storeLookupTimeout))
      (fun found => if found ≠ own then some found else none) fuel crawl false []).map fun e =>
        match e.outcome with
        | .found _ => (.other, e.rounds)
        | .notFound => (.noneOrSame, e.rounds)
        | .incomplete => (.unknown, e.rounds)

theorem length_closest_le (router : RoutingTable) (target : Node) (exclude : Option Node)
    (keep : Node → Bool) : (router.closest target exclude keep).length ≤ router.ksize := by
  simp [RoutingTable.closest, List.length_take]

theorem length_findNeighbors_le (router : RoutingTable) (target : Node) (exclude : Option Node) :
    (router.findNeighbors target exclude).length ≤ router.ksize := by
  simp only [RoutingTable.findNeighbors]
  split
  · exact length_closest_le _ _ _ _
  · split <;> exact length_closest_le _ _ _ _

theorem mem_new_getIds {target n : Node} {seeds : List Node} {k : Nat} (alpha : Nat)
    (hlen : seeds.length ≤ k) (hn : n ∈ seeds) :
    n.id ∈ (SpiderCrawl.new target seeds k alpha).nearest.getIds := by
  have hw := NodeHeap.wf_new target k
  have hnear := NodeHeap.push_nearest hw seeds
  rw [← (hw.push seeds).getIds_eq] at hnear
  refine hnear.all_of_card_le (F := (seeds.map Node.id).toFinset) (fun x => ?_) ?_ n.id ?_
  · simp [NodeHeap.new, NodeHeap.getIds, NodeHeap.toVec]
  · refine (List.toFinset_card_le _).trans ?_
    rw [List.length_map]; exact hlen
  · exact Or.inr (List.mem_map_of_mem hn)

theorem nextPeers_everyone {target : Node} {seeds : List Node} {k alpha : Nat} :
    ({ SpiderCrawl.new target seeds k alpha with askEveryone := true }.nextPeers none).1 =
      (SpiderCrawl.new target seeds k alpha).nearest.toVec := by
  have hw := (NodeHeap.wf_new target k).push seeds
  have hun : (SpiderCrawl.new target seeds k alpha).nearest.getUncontacted =
      (SpiderCrawl.new target seeds k alpha).nearest.toVec := by
    simp [NodeHeap.getUncontacted, SpiderCrawl.new, NodeHeap.new]
  have hlen : (SpiderCrawl.new target seeds k alpha).nearest.toVec.length =
      (SpiderCrawl.new target seeds k alpha).nearest.len := by
    change ((NodeHeap.new target k).push seeds).toVec.length = _
    rw [hw.toVec_eq, List.length_map, ← hw.len_eq]; rfl
  simp only [SpiderCrawl.nextPeers, SpiderCrawl.count, Bool.true_or, if_true]
  rw [hun, List.take_of_length_le (Nat.le_of_eq hlen)]

/-- What a check has heard: it knew contacts without failures, its first round asked all
of them, and everybody asked in any round answered, nobody with a hash other than the
record's. -/
structure Heard (hashes : Hashes) (router : RoutingTable) (key : NodeId) (value : Bytes)
    (rounds : List SearchRound) : Prop where
  contacts : checkContacts router (.fromId key) ≠ []
  asked : ∃ first later, rounds = first :: later ∧
    ∀ n ∈ checkContacts router (.fromId key), n.id ∈ first.asked.map Node.id
  answered : ∀ r ∈ rounds, ∀ n ∈ r.asked, ∃ a ∈ r.arrivals, a.answer.peer = n.id
  happened : ∀ r ∈ rounds, ∀ a ∈ r.arrivals, a.answer.raw.happened = true
  same : ∀ r ∈ rounds, ∀ a ∈ r.arrivals, ∀ hash, a.answer.raw.getValue = some hash →
    hash = hashes.sha256 value

/-- It has heard all this before the deadline. -/
structure FailSafe (hashes : Hashes) (router : RoutingTable) (key : NodeId) (value : Bytes)
    (deadline : Instant) (rounds : List SearchRound) : Prop
    extends Heard hashes router key value rounds where
  inTime : ∀ r ∈ rounds, ∀ a ∈ r.arrivals, a.time < deadline

section
variable {hashes : Hashes} {router : RoutingTable} {alpha fuel : Nat} {env : SearchPeers}
  {start : Instant} {key : NodeId} {value : Bytes} {rounds : List SearchRound}

theorem check_opens (alpha : Nat) (hne : checkContacts router (.fromId key) ≠ []) :
    ({ SpiderCrawl.new (.fromId key) (checkContacts router (.fromId key))
      router.ksize alpha with askEveryone := true } : SpiderCrawl).nearest.haveContactedAll =
      false := by
  have hlen : (checkContacts router (.fromId key)).length ≤ router.ksize :=
    (List.length_filter_le _ _).trans (length_findNeighbors_le _ _ _)
  rw [Bool.eq_false_iff, Ne, NodeHeap.haveContactedAll_iff]
  obtain ⟨n, hn⟩ := List.exists_mem_of_ne_nil _ hne
  intro hall
  have hcon := hall n.id (mem_new_getIds alpha hlen hn)
  simp [SpiderCrawl.new, NodeHeap.new] at hcon

/-- **Inversion of `NoneOrSame`**: the search that asked everyone found nothing. -/
theorem networkCopy_noneOrSame (hamong : amongClosest router (.fromId key) = true)
    (h : networkCopy hashes router alpha env start fuel key value = some (.noneOrSame, rounds)) :
    checkContacts router (.fromId key) ≠ [] ∧ ∃ e,
      search env (some (start + storeLookupTimeout))
        (fun found => if found ≠ hashes.sha256 value then some found else none) fuel
        { SpiderCrawl.new (.fromId key) (checkContacts router (.fromId key)) router.ksize alpha with
          askEveryone := true } false [] = some e ∧
      e.outcome = .notFound ∧ e.rounds = rounds := by
  simp only [networkCopy, hamong] at h
  split at h
  · cases h
  · rename_i hsome
    obtain ⟨e, he, hcopy⟩ := Option.map_eq_some_iff.mp h
    refine ⟨by simpa using hsome, e, he, ?_⟩
    cases ho : e.outcome with
    | notFound => rw [ho] at hcopy; cases hcopy; exact ⟨rfl, rfl⟩
    | found v => rw [ho] at hcopy; cases hcopy
    | incomplete => rw [ho] at hcopy; cases hcopy

theorem networkCopy_heard (hamong : amongClosest router (.fromId key) = true)
    (h : networkCopy hashes router alpha env start fuel key value = some (.noneOrSame, rounds)) :
    Heard hashes router key value rounds ∧
      ∀ r ∈ rounds, ∀ a ∈ r.arrivals, a.late (some (start + storeLookupTimeout)) = false := by
  obtain ⟨hne, e, he, hnf, rfl⟩ := networkCopy_noneOrSame hamong h
  have hlen : (checkContacts router (.fromId key)).length ≤ router.ksize :=
    (List.length_filter_le _ _).trans (length_findNeighbors_le _ _ _)
  obtain ⟨first, later, hrounds, hfirst⟩ := search_first_round he hnf (check_opens alpha hne)
  obtain ⟨-, all, hall, hquiet⟩ := search_notFound he hnf
  rw [List.nil_append] at hall
  refine ⟨⟨hne, ⟨first, later, hrounds, fun n hn => ?_⟩, fun r hr n hn => ?_, fun r hr a ha =>
    ((hquiet r (hall ▸ hr)).1 a ha).2, fun r hr a ha hash hv => ?_⟩, fun r hr a ha =>
    ((hquiet r (hall ▸ hr)).1 a ha).1.handed⟩
  · rw [hfirst, nextPeers_everyone]
    exact mem_new_getIds alpha hlen hn
  · have hperm := (hquiet r (hall ▸ hr)).2
    obtain ⟨a, ha, hpeer⟩ := List.mem_map.mp (hperm.mem_iff.mpr (List.mem_map_of_mem hn))
    exact ⟨a, ha, hpeer⟩
  · obtain ⟨hpass, hheard⟩ := (hquiet r (hall ▸ hr)).1 a ha
    have hrej := hpass.rejected hheard hash hv
    by_contra hdiff
    simp [hdiff] at hrej

end

def oneContact : RoutingTable :=
  ((RoutingTable.new 0 (.fromId (filledId 0)) 2).addContact 0 (.fromId (filledId 1))).1

/-- The table with a second contact. -/
def twoContacts : RoutingTable := (oneContact.addContact 0 (.fromId (filledId 2))).1

/-- Both contacts answer that they have no record and know nobody else: 01 after 1.9
seconds, and 02 after `second`. The loop is busy with the first answer until `done`. -/
def twoAnswers (second done : Instant) : SearchPeers where
  now := fun _ => 0
  askedAt := fun _ => 0
  gaveUpAt := fun _ => done
  arrivals := fun _ asked => asked.map fun n =>
    ⟨if n.id = filledId 1 then 1900000000 else second, done, n.id, ⟨true, .nodes []⟩, ∅⟩
  perm := fun _ asked => by simp [Function.comp_def]

/-- The requests of the rounds: who answered, when, and when the loop looked. -/
def looks (rounds : List SearchRound) : List (NodeId × Instant × Instant) :=
  rounds.flatMap fun r => r.arrivals.map fun a => (a.answer.peer, a.time, a.looked)

theorem mem_looks {rounds : List SearchRound} {x : NodeId × Instant × Instant} :
    x ∈ looks rounds ↔
      ∃ r ∈ rounds, ∃ a ∈ r.arrivals, (a.answer.peer, a.time, a.looked) = x := by
  simp [looks]

end AuthKademlia.Protocol
