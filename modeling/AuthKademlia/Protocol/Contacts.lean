import Mathlib.Data.Finset.Card
import AuthKademlia.Routing.Runs

/-! # Nodes met through messages

`scheduleWelcomeIfNew` is what every message does with the node it claims to come
from: a failing contact may be heard of again, an unknown node enters the routing
table, and the records it should hold are queued. The tasks that are spawned on
the way are returned. -/
namespace AuthKademlia.Protocol
open AuthKademlia.Routing AuthKademlia.Storage AuthKademlia.Utils

/-- `RPC_TIMEOUT`, 2.5 s. -/
def rpcTimeout : Nat := 2500000000

/-- `RETURNED_AFTER`: a contact silent for this long may have missed records. -/
def returnedAfter : Nat := rpcTimeout

def maxWelcomeQueue : Nat := 256

/-- The part of `KademliaProtocol` that keeps track of other nodes. -/
structure Contacts where
  router : RoutingTable
  /-- Contacts pinged because a newcomer wants their place. -/
  oldestPingsInFlight : Finset NodeId
  /-- Nodes that wait for their records. -/
  welcomeInFlight : Finset NodeId

inductive Spawned
  | ping (oldest : Node)
  | replicate (node : Node)
  deriving DecidableEq

/-- For how long the contact had been failing, if it was and the message is believed:
only the registered endpoint can vouch for a failing contact, or any if it is stale. -/
def noteAlive (t : RoutingTable) (now : Nat) (node : Node) : Option Nat × RoutingTable :=
  if !t.hasFailures node.id then (none, t)
  else
    let fromRegisteredEndpoint :=
      (t.getContact node.id).any fun contact => contact.sameHomeAs node
    if !fromRegisteredEndpoint && !t.isStale node.id then (none, t)
    else t.recordSuccess now node.id

/-- `failing_among`: those of `nodes` that this node knows are not responding. -/
def failingAmong (t : RoutingTable) (nodes : List Node) : Finset NodeId :=
  ((nodes.filter fun n => t.hasFailures n.id).map Node.id).toFinset

theorem mem_failingAmong {t : RoutingTable} {nodes : List Node} {id : NodeId} :
    id ∈ failingAmong t nodes ↔ id ∈ nodes.map Node.id ∧ t.hasFailures id = true := by
  unfold failingAmong
  simp only [List.mem_toFinset, List.mem_map, List.mem_filter]
  constructor
  · rintro ⟨n, ⟨hn, hf⟩, rfl⟩
    exact ⟨⟨n, hn, rfl⟩, hf⟩
  · rintro ⟨⟨n, hn, rfl⟩, hf⟩
    exact ⟨n, ⟨hn, hf⟩, rfl⟩

namespace Contacts

/-- Add a node to the routing table. The oldest contact of a full bucket is pinged,
once at a time. -/
def addContact (s : Contacts) (now : Nat) (node : Node) : Contacts × List Spawned :=
  let (router, oldest) := s.router.addContact now node
  let s := { s with router := router }
  match oldest with
  | none => (s, [])
  | some oldest =>
    if oldest.id ∈ s.oldestPingsInFlight then (s, [])
    else ({ s with oldestPingsInFlight := insert oldest.id s.oldestPingsInFlight },
      [.ping oldest])

/-- The end of `schedule_welcome_if_new`: queue the records of a node. -/
def queueWelcome (s : Contacts) (node : Node) : Contacts × List Spawned :=
  if node.id ∈ s.welcomeInFlight then (s, [])
  else if maxWelcomeQueue ≤ s.welcomeInFlight.card then (s, [])
  else ({ s with welcomeInFlight := insert node.id s.welcomeInFlight }, [.replicate node])

def scheduleWelcomeIfNew (s : Contacts) (now : Nat) (node : Node) : Contacts × List Spawned :=
  let (silentFor, router) := noteAlive s.router now node
  let s := { s with router := router }
  let returned := silentFor.any fun d => returnedAfter ≤ d
  if !returned && !s.router.isNewNode node then (s, [])
  else
    let (s, pings) := s.addContact now node
    let (s, welcome) := s.queueWelcome node
    (s, pings ++ welcome)

variable {s : Contacts} {now : Nat} {node : Node}

@[simp] theorem addContact_router (s : Contacts) (now : Nat) (node : Node) :
    (s.addContact now node).1.router = (s.router.addContact now node).1 := by
  unfold addContact
  split
  rename_i router oldest heq
  rw [heq]
  cases oldest with
  | none => rfl
  | some oldest =>
    simp only
    split <;> rfl

@[simp] theorem queueWelcome_router (s : Contacts) (node : Node) :
    (s.queueWelcome node).1.router = s.router := by
  unfold queueWelcome
  split
  · rfl
  · split <;> rfl

/-- A message that is not believed to show a failing contact alive: the node enters
the table if it is no primary contact. -/
theorem scheduleWelcomeIfNew_router (h : noteAlive s.router now node = (none, s.router)) :
    (s.scheduleWelcomeIfNew now node).1.router =
      if s.router.isNewNode node then (s.router.addContact now node).1 else s.router := by
  unfold scheduleWelcomeIfNew
  simp only [h, Option.any_none, Bool.not_false, Bool.true_and]
  cases hnew : s.router.isNewNode node with
  | false => rfl
  | true =>
    simp only [Bool.not_true, Bool.false_eq_true, if_false, if_true, queueWelcome_router,
      addContact_router]

end Contacts

/-- A message from another endpoint says nothing about a contact that is not stale. -/
theorem noteAlive_forged {t : RoutingTable} {registered node : Node}
    (hreg : t.getContact node.id = some registered) (hother : registered.sameHomeAs node = false)
    (hstale : t.isStale node.id = false) (now : Nat) : noteAlive t now node = (none, t) := by
  unfold noteAlive
  cases hf : t.hasFailures node.id with
  | false => rfl
  | true => simp [hreg, hother, hstale]

end AuthKademlia.Protocol
