import AuthKademlia.Properties.StatusList
import AuthKademlia.Routing.Runs
import AuthKademlia.Runtime.Deeds

/-! # The own copy of the Status List

A GET of the Status List counts the copy in the own store, and then the copies that the
nodes it asks answer with. The own node is not in its routing table, so the lookup does
not start from it; but nothing keeps it out of the lists that other nodes report, under
its own id or under another. As long as it is cut from the shortlist before its turn, it is
not asked, and the copies counted are of different nodes. Otherwise the own copy is counted
twice. -/
namespace AuthKademlia.Properties
open AuthKademlia.Lib.Async AuthKademlia.Lib.Trace AuthKademlia.Utils AuthKademlia.Storage
open AuthKademlia.Routing AuthKademlia.Crawling AuthKademlia.Crawling.StableNetwork
open AuthKademlia.Protocol AuthKademlia.Network AuthKademlia.Runtime AuthKademlia.AuthHandler

/-! ## What a poll starts from -/

/-- The operations of a GET that lead to a poll, and the poll. -/
def Op.polls : Op → Bool
  | .storageGet _ | .findNeighbors _ | .findQuorum .. => true
  | _ => false

/-- A poll starts from the neighbours in the routing table, and with the copy in the own
store. -/
def Prepared (srv : Server) (ds : List (Deed effects)) : Op → Prop
  | .findQuorum key nearest initial minimumVotes maximumVotes => ∃ found,
      (⟨.storageGet key, found⟩ : Deed effects) ∈ ds ∧
      (⟨.findNeighbors key, nearest⟩ : Deed effects) ∈ ds ∧
      initial = found.toList ∧ minimumVotes = readQuorum srv.alpha ∧
      maximumVotes = max srv.alpha 1
  | _ => True

/-- Is the task a GET, or one that begins with a GET? -/
def Job.gets : Job → Bool
  | .get _ | .update .. => true
  | _ => false

def pollWatch (cl : Cluster) (a : Agent) : Watch effects where
  matters := fun o => Job.gets a.job && Op.polls o
  answers := fun _ _ => True
  rule := fun ds o => ∀ srv, cl.server a.loc = some srv → Prepared srv ds o

section
variable {cl : Cluster} {a : Agent} {srv : Server} {name : String} {ds : List (Deed effects)}
  {α : Type}

theorem aside_of_noPoll {p : Routine α} (h : p.Within fun o => Op.polls o = false) :
    p.Within fun o => (pollWatch cl a).matters o = false :=
  h.imp fun _ ho => Bool.and_eq_false_iff.mpr (Or.inr ho)

theorem checks_noPoll {p : Routine α} (h : Checks p) :
    p.Within fun o => (pollWatch cl a).matters o = false :=
  aside_of_noPoll (h.imp fun o ho => by cases o <;> first | rfl | cases ho)

section
variable (hjob : Job.gets a.job = true)
include hjob

theorem matters_of_polls {o : Op} (ho : Op.polls o = true) :
    (pollWatch cl a).matters o = true := Bool.and_eq_true_iff.mpr ⟨hjob, ho⟩

theorem tells_ownCopy {key : NodeId} {Q : List (Deed effects) → Option Bytes → Prop}
    (h : ∀ found, Q (ds ++ [⟨.storageGet key, found⟩]) found) :
    (pollWatch cl a).Tells (storageGet key) Q ds :=
  Watch.tells_noted (matters_of_polls hjob rfl) (fun _ _ => trivial) fun found _ => h found

theorem tells_findNeighbors {key : NodeId} {Q : List (Deed effects) → List Node → Prop}
    (h : ∀ nearest, Q (ds ++ [⟨.findNeighbors key, nearest⟩]) nearest) :
    (pollWatch cl a).Tells (findNeighbors key) Q ds :=
  Watch.tells_noted (matters_of_polls hjob rfl) (fun _ _ => trivial) fun nearest _ => h nearest

variable (hsrv : cl.server a.loc = some srv)
include hsrv

theorem tells_findQuorum {key : NodeId} {nearest : List Node} {found : Option Bytes}
    {Q : List (Deed effects) → Option Bytes → Prop}
    (hfound : (⟨.storageGet key, found⟩ : Deed effects) ∈ ds)
    (hnearest : (⟨.findNeighbors key, nearest⟩ : Deed effects) ∈ ds)
    (h : ∀ ds answer, Q ds answer) :
    (pollWatch cl a).Tells
      (findQuorum key nearest found.toList (readQuorum srv.alpha) (max srv.alpha 1)) Q ds := by
  refine Watch.tells_noted (matters_of_polls hjob rfl) (fun srv' hsrv' => ?_) fun answer _ => h ..
  obtain rfl := Option.some.inj (hsrv.symm.trans hsrv')
  exact ⟨found, hfound, hnearest, rfl, rfl, rfl⟩

theorem tells_getRemote {found : Option Bytes}
    (hfound : (⟨.storageGet (srv.digest name), found⟩ : Deed effects) ∈ ds) :
    (pollWatch cl a).Tells (getRemote srv name found) (fun _ _ => True) ds := by
  unfold getRemote
  split
  · trivial
  refine (tells_findNeighbors hjob fun nearest => ?_).bind
  split
  · trivial
  split
  · exact Watch.Tells.after (.perform (Bool.and_false _)) fun values =>
      Watch.tells_aside (checks_noPoll (findFirstValid_checks srv name values)) fun _ => trivial
  refine (tells_findQuorum hjob hsrv (List.mem_append_left _ hfound)
    (List.mem_append_right _ (List.mem_singleton_self _)) fun ds' answer => ?_).bind
  cases answer with
  | none => trivial
  | some value =>
    exact Watch.tells_aside (checks_noPoll (verified_checks srv name value)) fun _ => trivial

theorem tells_polling_get :
    (pollWatch cl a).Tells (Network.get srv name) (fun _ _ => True) [] := by
  refine (tells_ownCopy hjob fun found => ?_).bind
  have hfound : (⟨.storageGet (srv.digest name), found⟩ : Deed effects) ∈
      [] ++ [⟨.storageGet (srv.digest name), found⟩] := List.mem_singleton_self _
  cases found with
  | none => exact tells_getRemote hjob hsrv hfound
  | some v =>
    dsimp only
    split
    · exact Watch.tells_aside (checks_noPoll (verified_checks srv name v)) fun _ => trivial
    · exact tells_getRemote hjob hsrv hfound

theorem tells_polling_update {value : Bytes} {auth : Option Bytes} :
    (pollWatch cl a).Tells (Network.update srv name value auth) (fun _ _ => True) [] := by
  refine ((tells_polling_get hjob hsrv).imp fun ds found _ => ?_).bind
  cases found with
  | none => trivial
  | some old =>
    refine Watch.Tells.after (.perform (Bool.and_false _)) fun _ => ?_
    refine Watch.Tells.after (checks_noPoll (updateAuthorised_checks ..)) fun ok => ?_
    split
    · trivial
    have hdigest : (pollWatch cl a).Tells (updateDigest srv name value auth)
        (fun _ _ => True) ds := by
      unfold updateDigest
      dsimp only
      split
      · trivial
      refine (tells_findNeighbors hjob fun nearest => ?_).bind
      split
      · trivial
      refine Watch.Tells.after (.perform (Bool.and_false _)) fun lookup => ?_
      refine Watch.Tells.after (.perform (Bool.and_false _)) fun _ => ?_
      refine Watch.Tells.after (.joinAll fun n _ => aside_of_noPoll (updateReplica_within
        (fun _ => rfl) (fun _ => rfl) (fun _ => rfl) fun _ => rfl)) fun results => ?_
      split
      · split
        · exact Watch.Tells.after (.perform (Bool.and_false _)) fun _ => trivial
        · trivial
      · trivial
    exact (hdigest.imp fun _ _ _ => trivial).bind

end

/-- **Every poll of a run is prepared**: its task has read the own copy and the neighbours
before. -/
theorem run_prepared {w₀ : World} (h₀ : w₀.log = []) {c : (system cl).Config}
    (h : (system cl).Run w₀ c) {p : (system cl).Proc} (hp : p ∈ c.procs)
    (hjob : Job.gets (Agent.job p.agent) = true)
    (hsrv : cl.server (Agent.loc p.agent) = some srv) {key : NodeId} {nearest : List Node}
    {initial : List Bytes} {minimumVotes maximumVotes : Nat} {r : Option Bytes}
    (hpoll : Did c.world.log p.agent
      (.findQuorum key nearest initial minimumVotes maximumVotes) r) :
    ∃ found, Did c.world.log p.agent (.storageGet key) found ∧
      Did c.world.log p.agent (.findNeighbors key) nearest ∧ initial = found.toList ∧
      minimumVotes = readQuorum srv.alpha ∧ maximumVotes = max srv.alpha 1 := by
  have hstart : ∀ {loc srv} n job, cl.server loc = some srv →
      (pollWatch cl ⟨n, loc, job⟩).Tells (Job.prog srv job) (fun _ _ => True) [] := by
    intro loc srv n job hsrv
    cases job with
    | handle id src msg =>
      exact Watch.tells_aside ((Prog.Within.any _).imp fun _ _ => rfl) fun _ => trivial
    | set name value =>
      exact Watch.tells_aside ((Prog.Within.any _).imp fun _ _ => rfl) fun _ => trivial
    | update name value auth => exact ((tells_polling_update rfl hsrv).imp fun _ _ h => h).bind
    | get name => exact ((tells_polling_get rfl hsrv).imp fun _ _ h => h).bind
  obtain ⟨hobeyed, -⟩ := run_deeds h₀ (pollWatch cl) (fun _ _ _ => True) (fun _ => trivial)
    hstart h p hp
  obtain ⟨live, hmem⟩ := hpoll
  have hdeed : (⟨.findQuorum key nearest initial minimumVotes maximumVotes, r⟩ : Deed effects) ∈
      (pollWatch cl p.agent).relevant (deeds c.world p.agent) :=
    List.mem_filter.mpr ⟨mem_deeds hmem, matters_of_polls hjob rfl⟩
  obtain ⟨pre, post, hsplit⟩ := List.append_of_mem hdeed
  obtain ⟨found, hfound, hnearest, hrest⟩ := hobeyed pre _ post hsplit srv hsrv
  have hdid : ∀ d ∈ pre, Did c.world.log p.agent d.1 d.2 := fun d hd =>
    did_of_mem_deeds (List.mem_of_mem_filter (hsplit ▸ List.mem_append_left _ hd))
  exact ⟨found, hdid _ hfound, hdid _ hnearest, hrest⟩

end

/-! ## Whom a poll asks, and what it counts -/

/-- The node itself: its id, or its address under any id. -/
def IsSelf (own : NodeId) (loc : Addr) (n : Node) : Prop := n.id = own ∨ n.address = some loc

/-- Whenever a round begins, no node heard of so far that is the node itself is among those
whose turn it is: it was not listed, or it has been cut, or it stands too far back. -/
def SelfCut (own : NodeId) (loc : Addr) (seeds : List Node) (maximumVotes : Nat)
    (s₀ : SpiderCrawl) (initial : List Bytes) (rs : List Round) : Prop :=
  ∀ pre rd post, rs = pre ++ rd :: post → ∀ n ∈ SpiderCrawl.heardOf seeds pre,
    IsSelf own loc n → n ∉ QuorumRead.nextAsked maximumVotes s₀ initial pre

/-- The value is backed by `quorum` different nodes: the own node, if it read this copy
from its store, and nodes other than itself that answered with it. -/
def Backed (own : NodeId) (loc : Addr) (copy : Option Bytes) (rs : List Round) (quorum : Nat)
    (v : Bytes) : Prop :=
  ∃ holders : List NodeId, holders.Nodup ∧ quorum ≤ holders.length ∧
    ∀ x ∈ holders, (x = own ∧ copy = some v) ∨ ((x, v) ∈ QuorumRead.ballots rs ∧
      ∃ rd ∈ rs, ∃ n ∈ rd.asked, n.id = x ∧ ¬ IsSelf own loc n)

section
variable {own : NodeId} {loc : Addr} {target : Node}
  {k alpha fuel minimumVotes maximumVotes : Nat} {peers : Peers}
  {seeds : List Node} {rs : List Round} {r copy : Option Bytes} {v : Bytes}

theorem never_asked_iff {initial : List Bytes} (hroom : initial.length ≤ maximumVotes)
    (h : QuorumRead.findQuorum peers minimumVotes maximumVotes fuel (.new target seeds k alpha)
      initial [] = some (r, rs)) :
    (∀ rd ∈ rs, ∀ n ∈ rd.asked, ¬ IsSelf own loc n) ↔
      SelfCut own loc seeds maximumVotes (.new target seeds k alpha) initial rs := by
  have hturns := QuorumRead.findQuorum_turns hroom h
  constructor
  · rintro hnever pre rd post rfl n - hself hn
    rw [← hturns.asked pre rd post rfl] at hn
    exact hnever rd (by simp) n hn hself
  · intro hcut rd hrd n hn hself
    obtain ⟨pre, post, rfl⟩ := List.append_of_mem hrd
    refine hcut pre rd post rfl n (hturns.heard pre rd post rfl n hn) hself ?_
    rwa [← hturns.asked pre rd post rfl]

/-- What wins a poll that does not ask the node itself is backed by different nodes. -/
theorem backed_of_never_asked (hroom : copy.toList.length ≤ maximumVotes)
    (h : QuorumRead.findQuorum peers minimumVotes maximumVotes fuel (.new target seeds k alpha)
      copy.toList [] = some (some v, rs))
    (hnever : ∀ rd ∈ rs, ∀ n ∈ rd.asked, ¬ IsSelf own loc n) :
    Backed own loc copy rs minimumVotes v := by
  obtain ⟨s, found, hread, hwin, -⟩ := QuorumRead.reading_ended (QuorumRead.reading_new
    (SpiderCrawl.tracks_new target seeds k alpha) hroom) h
  have hother : ∀ x ∈ QuorumRead.voters rs v,
      ∃ rd ∈ rs, ∃ n ∈ rd.asked, n.id = x ∧ ¬ IsSelf own loc n := by
    intro x hx
    obtain ⟨rd, hrd, hmem⟩ :=
      List.mem_flatMap.mp (hread.asked_of_ballot (QuorumRead.mem_voters.mp hx))
    obtain ⟨n, hn, hid⟩ := List.mem_map.mp hmem
    exact ⟨rd, hrd, n, hn, hid, hnever rd hrd n hn⟩
  have hcount : minimumVotes ≤ copy.toList.count v + (QuorumRead.voters rs v).length := by
    rw [QuorumRead.length_voters, ← List.count_append, ← hread.copies]
    exact (Nat.le_max_left _ _).trans (QuorumRead.strictQuorumValue_some hwin)
  have hnodup : (QuorumRead.voters rs v).Nodup :=
    hread.voters_nodup.sublist (List.filter_sublist.map Prod.fst)
  by_cases hcopy : copy = some v
  · refine ⟨own :: QuorumRead.voters rs v, ?_, ?_, ?_⟩
    · refine List.nodup_cons.mpr ⟨fun hx => ?_, hnodup⟩
      obtain ⟨-, -, n, -, hid, hself⟩ := hother _ hx
      exact hself (Or.inl hid)
    · rw [hcopy] at hcount
      simpa [Nat.add_comm] using hcount
    · intro x hx
      rcases List.mem_cons.mp hx with rfl | hx
      · exact Or.inl ⟨rfl, hcopy⟩
      · exact Or.inr ⟨QuorumRead.mem_voters.mp hx, hother x hx⟩
  · refine ⟨QuorumRead.voters rs v, hnodup, ?_, fun x hx =>
      Or.inr ⟨QuorumRead.mem_voters.mp hx, hother x hx⟩⟩
    have hnone : copy.toList.count v = 0 := List.count_eq_zero.mpr fun hmem =>
      hcopy (Option.mem_toList.mp hmem)
    omega

end

/-- Only the node 15 holds the first list. -/
def soleHolder : World :=
  (toyWorld emptyStore).setStorage (toyAddr 15)
    (emptyStore.set 0 fourKey.bytes (toyStatusList 1)).2

theorem fresh_soleHolder : Fresh soleHolder := ⟨fun _ _ => rfl, rfl, rfl, rfl⟩

/-- The table of the node 15 after it has heard of the node 9. -/
def tableOf15 : RoutingTable := .after 0 (toyNode 15) 4 [.addContact 0 (toyNode 9)]

/-- The read of the node 15, in which its own list wins. -/
def readAt15 : List (system (toyClusterOf 4 3)).Move :=
  [.start (.get (toyAddr 15) statusListKey), go 0 {},
    go 0 { nodes := tableOf15.findNeighbors (.fromId fourKey) none },
    go 0 { value := some (toyStatusList 1) }, go 0 {}, go 0 {}, go 0 {}]

theorem tableOf15_neighbours :
    tableOf15.findNeighbors (.fromId fourKey) none = [toyNode 9] := by decide +kernel

theorem poll_did {log : List Event} {a : Agent} {key : NodeId} {seeds : List Node}
    {initial : List Bytes} {minimumVotes maximumVotes : Nat} {winner : Option Bytes}
    (h : .poll seeds initial minimumVotes maximumVotes winner ∈ log.filterMap (askedBy a key)) :
    Did log a (.findQuorum key seeds initial minimumVotes maximumVotes) winner := by
  obtain ⟨e, he, hpoll⟩ := List.mem_filterMap.mp h
  clear h
  unfold askedBy at hpoll
  split at hpoll
  · split at hpoll <;> cases hpoll
  · split at hpoll <;> cases hpoll
  · split at hpoll
    · rename_i hsame
      obtain ⟨rfl, rfl⟩ := hsame
      cases hpoll
      exact ⟨_, he⟩
    · cases hpoll
  · cases hpoll

theorem readAt15_returns : ∃ (c : (system (toyClusterOf 4 3)).Config)
    (p : (system (toyClusterOf 4 3)).Proc),
    (system (toyClusterOf 4 3)).Run soleHolder c ∧ p ∈ c.procs ∧
    Agent.job p.agent = .get statusListKey ∧ Agent.loc p.agent = toyAddr 15 ∧
    p.prog.value? = some (.get (some (toyStatusList 1))) ∧
    (∀ nearest, Did c.world.log p.agent (.findNeighbors fourKey) nearest →
      nearest = tableOf15.findNeighbors (.fromId fourKey) none) ∧
    Did c.world.log p.agent (.findQuorum fourKey [toyNode 9] [toyStatusList 1] 2 3)
      (some (toyStatusList 1)) := by
  obtain ⟨c, hc, p, hp, hjob, hloc, hres, hasked⟩ :
      ∃ c ∈ toyRun soleHolder readAt15, ∃ p ∈ c.procs[0]?,
        Agent.job p.agent = .get statusListKey ∧ Agent.loc p.agent = toyAddr 15 ∧
        p.prog.value? = some (.get (some (toyStatusList 1))) ∧
        (World.log c.world).filterMap (askedBy p.agent fourKey) = [.nearest [toyNode 9],
          .poll [toyNode 9] [toyStatusList 1] 2 3 (some (toyStatusList 1))] := by
    decide +kernel
  refine ⟨c, p, run_of_toyRun hc, List.mem_of_getElem? hp, hjob, hloc, hres,
    fun nearest h => ?_, poll_did ?_⟩
  · have hmem := nearest_asked h
    rw [hasked] at hmem
    have heq : Asked.nearest nearest = .nearest [toyNode 9] := by simpa using hmem
    exact (Asked.nearest.inj heq).trans tableOf15_neighbours.symm
  · rw [hasked]
    simp

/-- What the node 9 answers: nothing but the node `n`. Whoever is asked at the address of
the reader is the reader, which serves its own copy. -/
def listsReader (n : Node) (id : NodeId) : RawResponse :=
  if id = n.id then
    rpcFindValue ⟨toyPlatform, toyNode 15, 4, 3, true, true⟩
      ((soleHolder.storage (toyAddr 15)).get 0 fourKey.bytes) tableOf15 (toyNode 15) fourKey
  else foundNodes [n]

/-- The reader, and a made-up id at its address. -/
def guises : List Node := [toyNode 15, ⟨filledId 7, some "h", some 15⟩]

theorem guise_is_reader : ∀ n ∈ guises, IsSelf (toyNode 15).id (toyAddr 15) n := by
  unfold IsSelf
  decide

theorem guises_poll : ∀ n ∈ guises, ∃ rs,
    QuorumRead.findQuorum (.scripted (listsReader n)) 2 3 5
      (.new (.fromId fourKey) [toyNode 9] 4 3) [toyStatusList 1] [] =
        some (some (toyStatusList 1), rs) ∧
    rs.flatMap Round.asked = [toyNode 9, n] ∧
    QuorumRead.ballots rs = [(n.id, toyStatusList 1)] := by
  intro n hn
  have hlookup : ∀ n ∈ guises, (QuorumRead.findQuorum (.scripted (listsReader n)) 2 3 5
      (.new (.fromId fourKey) [toyNode 9] 4 3) [toyStatusList 1] []).map
      (fun x => (x.1, x.2.flatMap Round.asked, QuorumRead.ballots x.2)) =
        some (some (toyStatusList 1), [toyNode 9, n], [(n.id, toyStatusList 1)]) := by
    decide +kernel
  obtain ⟨⟨r, rs⟩, hend, hfacts⟩ := Option.map_eq_some_iff.mp (hlookup n hn)
  obtain ⟨rfl, hfacts⟩ := Prod.mk.inj hfacts
  exact ⟨rs, hend, Prod.mk.inj hfacts⟩

end AuthKademlia.Properties
