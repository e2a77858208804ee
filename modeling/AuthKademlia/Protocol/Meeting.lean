import AuthKademlia.Lib.Holdings
import AuthKademlia.Protocol.Contacts

/-! # Meeting nodes, step by step

`schedule_welcome_if_new` takes the routing table and the two sets of nodes in flight one
after the other, and other tasks take them in between: further messages, the pings of oldest
contacts and the replications it has spawned, failures and departures. Here each of these is
a task that moves on by one access at a time. `Contacts.scheduleWelcomeIfNew` is a task that
nobody interrupts (`alone_met`).

The sets are accounted for task by task: a node is in one of them as long as one task for it
is not over. -/
namespace AuthKademlia.Protocol.Meeting
open AuthKademlia.Lib.Holdings AuthKademlia.Routing AuthKademlia.Utils AuthKademlia.Protocol

def welcomeConcurrency : Nat := 1

/-- Where a task is: what it does next. -/
inductive Task where
  /-- `note_alive` reads the table. -/
  | met (node : Node)
  /-- `note_alive` believes the message and clears the failures. -/
  | heard (node : Node)
  /-- `is_new_node`, unless the node has returned. -/
  | noted (node : Node) (returned : Bool)
  | joining (node : Node)
  /-- The oldest contact of a full bucket is marked, to be pinged. -/
  | overfull (node oldest : Node)
  /-- `welcome_in_flight.contains_key`. -/
  | joined (node : Node)
  /-- `welcome_in_flight.len`. -/
  | unqueued (node : Node)
  /-- `welcome_in_flight.insert`. -/
  | queueing (node : Node)
  /-- `call_ping_node`, in a task of its own. -/
  | pinging (oldest : Node)
  | unanswered (oldest : Node)
  | pinged (oldest : Node)
  /-- A replication, in a task of its own, waits for its permit. -/
  | waiting (node : Node)
  | replicating (node : Node)
  | replicated (node : Node)
  /-- `rpc_leave` reads the table. -/
  | parting (source : Node)
  | removing (contact : Node)
  /-- `note_failure`, after a call without answer. -/
  | failed (node : Node)
  | finished
  deriving DecidableEq

structure Shared where
  contacts : Contacts
  /-- Permits that are left. -/
  permits : Nat

namespace Shared

def setRouter (s : Shared) (router : RoutingTable) : Shared :=
  { s with contacts := { s.contacts with router } }

def setPings (s : Shared) (pings : Finset NodeId) : Shared :=
  { s with contacts := { s.contacts with oldestPingsInFlight := pings } }

def setWelcome (s : Shared) (welcome : Finset NodeId) : Shared :=
  { s with contacts := { s.contacts with welcomeInFlight := welcome } }

end Shared

/-- What a step finds outside: the clock, the random part of a backoff, and whether a ping
is answered. -/
structure Turn where
  now : Nat
  jitter : Nat
  answered : Bool

/-- The next step of a task and the tasks it spawns, unless it waits or is over. -/
def step (s : Shared) (turn : Turn) : Task → Option (Shared × Task × List Task)
  | .met node =>
    let t := s.contacts.router
    if !t.hasFailures node.id then some (s, .noted node false, [])
    else
      let fromRegisteredEndpoint :=
        (t.getContact node.id).any fun contact => contact.sameHomeAs node
      if !fromRegisteredEndpoint && !t.isStale node.id then some (s, .noted node false, [])
      else some (s, .heard node, [])
  | .heard node =>
    let (silentFor, router) := s.contacts.router.recordSuccess turn.now node.id
    some (s.setRouter router, .noted node (silentFor.any fun d => returnedAfter ≤ d), [])
  | .noted node returned =>
    if !returned && !s.contacts.router.isNewNode node then some (s, .finished, [])
    else some (s, .joining node, [])
  | .joining node =>
    match s.contacts.router.addContact turn.now node with
    | (router, none) => some (s.setRouter router, .joined node, [])
    | (router, some oldest) => some (s.setRouter router, .overfull node oldest, [])
  | .overfull node oldest =>
    if oldest.id ∈ s.contacts.oldestPingsInFlight then some (s, .joined node, [])
    else some (s.setPings (insert oldest.id s.contacts.oldestPingsInFlight), .joined node,
      [.pinging oldest])
  | .joined node =>
    if node.id ∈ s.contacts.welcomeInFlight then some (s, .finished, [])
    else some (s, .unqueued node, [])
  | .unqueued node =>
    if maxWelcomeQueue ≤ s.contacts.welcomeInFlight.card then some (s, .finished, [])
    else some (s, .queueing node, [])
  | .queueing node =>
    if node.id ∈ s.contacts.welcomeInFlight then some (s, .finished, [])
    else some (s.setWelcome (insert node.id s.contacts.welcomeInFlight), .finished, [.waiting node])
  | .pinging oldest =>
    if oldest.address.isNone || turn.answered then some (s, .pinged oldest, [])
    else some (s, .unanswered oldest, [])
  | .unanswered oldest =>
    some (s.setRouter (s.contacts.router.recordFailureAt oldest turn.now turn.jitter),
      .pinged oldest, [])
  | .pinged oldest =>
    some (s.setPings (s.contacts.oldestPingsInFlight.erase oldest.id), .finished, [])
  | .waiting node =>
    if s.permits = 0 then none
    else some ({ s with permits := s.permits - 1 }, .replicating node, [])
  | .replicating node => some ({ s with permits := s.permits + 1 }, .replicated node, [])
  | .replicated node =>
    some (s.setWelcome (s.contacts.welcomeInFlight.erase node.id), .finished, [])
  | .parting source =>
    match s.contacts.router.getContact source.id with
    | some contact =>
      if contact.sameHomeAs source then some (s, .removing contact, []) else some (s, .finished, [])
    | none => some (s, .finished, [])
  | .removing contact => some (s.setRouter (s.contacts.router.removeContact contact), .finished, [])
  | .failed node =>
    some (s.setRouter (s.contacts.router.recordFailureAt node turn.now turn.jitter), .finished, [])
  | .finished => none

/-- The node's contacts and all tasks so far. -/
structure Meetings where
  shared : Shared
  tasks : List Task

inductive Move where
  /-- A message that names its sender. -/
  | message (node : Node)
  | leave (source : Node)
  /-- A call to the node was not answered. -/
  | failure (node : Node)
  /-- A lookup starts. -/
  | touch (now : Nat) (target : Node)
  | step (i : Nat) (turn : Turn)

namespace Meetings

def new (start : Nat) (own : Node) (k : Nat) : Meetings :=
  ⟨⟨⟨.new start own k, ∅, ∅⟩, welcomeConcurrency⟩, []⟩

/-- A move that is not possible changes nothing. -/
def move (m : Meetings) : Move → Meetings
  | .message node => { m with tasks := m.tasks ++ [.met node] }
  | .leave source => { m with tasks := m.tasks ++ [.parting source] }
  | .failure node => { m with tasks := m.tasks ++ [.failed node] }
  | .touch now target =>
    { m with shared := m.shared.setRouter (m.shared.contacts.router.touchTarget now target) }
  | .step i turn =>
    match m.tasks[i]? with
    | some task =>
      match step m.shared turn task with
      | some (s, task', spawned) => ⟨s, m.tasks.set i task' ++ spawned⟩
      | none => m
    | none => m

def run (m : Meetings) (moves : List Move) : Meetings := moves.foldl move m

end Meetings

variable {s s' : Shared} {turn : Turn} {task task' : Task} {spawned : List Task} {m : Meetings}

/-- What a move does: a task arrives, a lookup touches the table, a task takes a step, or
nothing. -/
theorem move_cases (m : Meetings) (mv : Move) :
    m.move mv = m ∨
    (∃ node task, (mv = .message node ∧ task = .met node ∨ mv = .leave node ∧
        task = .parting node ∨ mv = .failure node ∧ task = .failed node) ∧
      m.move mv = { m with tasks := m.tasks ++ [task] }) ∨
    (∃ now target, mv = .touch now target ∧ m.move mv =
      { m with
        shared := m.shared.setRouter (m.shared.contacts.router.touchTarget now target) }) ∨
    ∃ i turn task s' task' spawned, mv = .step i turn ∧ m.tasks[i]? = some task ∧
      step m.shared turn task = some (s', task', spawned) ∧
      m.move mv = ⟨s', m.tasks.set i task' ++ spawned⟩ := by
  cases mv with
  | message node => exact Or.inr (Or.inl ⟨node, _, Or.inl ⟨rfl, rfl⟩, rfl⟩)
  | leave source => exact Or.inr (Or.inl ⟨source, _, Or.inr (Or.inl ⟨rfl, rfl⟩), rfl⟩)
  | failure node => exact Or.inr (Or.inl ⟨node, _, Or.inr (Or.inr ⟨rfl, rfl⟩), rfl⟩)
  | touch now target => exact Or.inr (Or.inr (Or.inl ⟨now, target, rfl, rfl⟩))
  | step i turn =>
    simp only [Meetings.move]
    split
    · rename_i task htask
      split
      · rename_i s' task' spawned hstep
        exact Or.inr (Or.inr (Or.inr ⟨i, turn, task, s', task', spawned, rfl, htask, hstep, rfl⟩))
      · exact Or.inl rfl
    · exact Or.inl rfl

/-! ## What tasks hold -/

namespace Task

/-- The contact that the task has marked as pinged. -/
def ping? : Task → Option NodeId
  | .pinging oldest | .unanswered oldest | .pinged oldest => some oldest.id
  | _ => none

/-- The node that the task has queued. -/
def welcome? : Task → Option NodeId
  | .waiting node | .replicating node | .replicated node => some node.id
  | _ => none

def permits : Task → Nat
  | .replicating _ => 1
  | _ => 0

/-- Has the task found room in the queue, and not entered it yet? -/
def queues : Task → Nat
  | .queueing _ => 1
  | _ => 0

/-- Is the task a call of `schedule_welcome_if_new` that has not returned? -/
def active : Task → Nat
  | .met _ | .heard _ | .noted _ _ | .joining _ | .overfull _ _ | .joined _ | .unqueued _
  | .queueing _ => 1
  | _ => 0

end Task

/-- What a step does to what is held. -/
inductive Effect (s : Shared) : Task → Shared → Task → List Task → Prop
  /-- Only the table may change, and the task finds room in the queue only if there is. -/
  | onwards {task task' : Task} (router : RoutingTable) (ping : task'.ping? = task.ping?)
      (welcome : task'.welcome? = task.welcome?) (permits : task'.permits = task.permits)
      (queues : task'.queues ≤ task.queues ∨
        s.contacts.welcomeInFlight.card < maxWelcomeQueue) :
      Effect s task (s.setRouter router) task' []
  | ping (node oldest : Node) (free : oldest.id ∉ s.contacts.oldestPingsInFlight) :
      Effect s (.overfull node oldest)
        (s.setPings (insert oldest.id s.contacts.oldestPingsInFlight)) (.joined node)
        [.pinging oldest]
  | pinged (oldest : Node) :
      Effect s (.pinged oldest) (s.setPings (s.contacts.oldestPingsInFlight.erase oldest.id))
        .finished []
  | queue (node : Node) (free : node.id ∉ s.contacts.welcomeInFlight) :
      Effect s (.queueing node) (s.setWelcome (insert node.id s.contacts.welcomeInFlight)) .finished
        [.waiting node]
  | acquire (node : Node) (left : s.permits ≠ 0) :
      Effect s (.waiting node) { s with permits := s.permits - 1 } (.replicating node) []
  | release (node : Node) :
      Effect s (.replicating node) { s with permits := s.permits + 1 } (.replicated node) []
  | unqueue (node : Node) :
      Effect s (.replicated node) (s.setWelcome (s.contacts.welcomeInFlight.erase node.id))
        .finished []

/-- **What a step does.** -/
theorem step_effect (h : step s turn task = some (s', task', spawned)) :
    Effect s task s' task' spawned := by
  have same : ∀ {task task' : Task}, task'.ping? = task.ping? → task'.welcome? = task.welcome? →
      task'.permits = task.permits → task'.queues ≤ task.queues → Effect s task s task' [] :=
    fun hp hw hpermits hq => .onwards s.contacts.router hp hw hpermits (Or.inl hq)
  cases task with
  | met node =>
    simp only [step] at h
    split at h
    · cases h
      exact same rfl rfl rfl (Nat.le_refl 0)
    · split at h <;> cases h <;> exact same rfl rfl rfl (Nat.le_refl 0)
  | heard node =>
    cases h
    exact .onwards _ rfl rfl rfl (Or.inl (Nat.le_refl 0))
  | noted node returned =>
    simp only [step] at h
    split at h <;> cases h <;> exact same rfl rfl rfl (Nat.le_refl 0)
  | joining node =>
    simp only [step] at h
    split at h <;> cases h <;> exact .onwards _ rfl rfl rfl (Or.inl (Nat.le_refl 0))
  | overfull node oldest =>
    simp only [step] at h
    split at h
    · cases h
      exact same rfl rfl rfl (Nat.le_refl 0)
    · rename_i hfree
      cases h
      exact .ping node oldest hfree
  | joined node =>
    simp only [step] at h
    split at h <;> cases h <;> exact same rfl rfl rfl (Nat.le_refl 0)
  | unqueued node =>
    simp only [step] at h
    split at h
    · cases h
      exact same rfl rfl rfl (Nat.le_refl 0)
    · rename_i hroom
      cases h
      exact .onwards s.contacts.router rfl rfl rfl (Or.inr (Nat.not_le.mp hroom))
  | queueing node =>
    simp only [step] at h
    split at h
    · cases h
      exact same rfl rfl rfl (Nat.zero_le 1)
    · rename_i hfree
      cases h
      exact .queue node hfree
  | pinging oldest =>
    simp only [step] at h
    split at h <;> cases h <;> exact same rfl rfl rfl (Nat.le_refl 0)
  | unanswered oldest =>
    cases h
    exact .onwards _ rfl rfl rfl (Or.inl (Nat.le_refl 0))
  | pinged oldest =>
    cases h
    exact .pinged oldest
  | waiting node =>
    simp only [step] at h
    split at h
    · cases h
    · rename_i hleft
      cases h
      exact .acquire node hleft
  | replicating node =>
    cases h
    exact .release node
  | replicated node =>
    cases h
    exact .unqueue node
  | parting source =>
    simp only [step] at h
    split at h
    · split at h <;> cases h <;> exact same rfl rfl rfl (Nat.le_refl 0)
    · cases h
      exact same rfl rfl rfl (Nat.le_refl 0)
  | removing contact =>
    cases h
    exact .onwards _ rfl rfl rfl (Or.inl (Nat.le_refl 0))
  | failed node =>
    cases h
    exact .onwards _ rfl rfl rfl (Or.inl (Nat.le_refl 0))
  | finished => cases h

/-- **Everything in flight is accounted for.** -/
structure Accounted (s : Shared) (tasks : List Task) : Prop where
  pings : Marked Task.ping? tasks s.contacts.oldestPingsInFlight
  welcome : Marked Task.welcome? tasks s.contacts.welcomeInFlight
  permits : held Task.permits tasks + s.permits = welcomeConcurrency

variable {tasks : List Task}

theorem Accounted.arrive (h : Accounted s tasks) (hping : task.ping? = none)
    (hwelcome : task.welcome? = none) (hpermits : task.permits = 0) :
    Accounted s (tasks ++ [task]) where
  pings := h.pings.append_none hping
  welcome := h.welcome.append_none hwelcome
  permits := by
    rw [held_append, held_cons, held_nil, hpermits]
    exact h.permits

theorem Accounted.step (h : Accounted s tasks) {i : Nat} (hi : tasks[i]? = some task)
    (heffect : Effect s task s' task' spawned) :
    Accounted s' (tasks.set i task' ++ spawned) := by
  have hpermits := h.permits
  have hset := held_set (w := Task.permits) hi task'
  cases heffect with
  | onwards router ping welcome permits queues =>
    rw [permits] at hset
    rw [List.append_nil]
    exact ⟨h.pings.set_same hi ping, h.welcome.set_same hi welcome, by
      rw [Nat.add_right_cancel hset]
      exact hpermits⟩
  | ping node oldest free =>
    have hpings := h.pings.set_same (b := .joined node) hi rfl
    have hwelcome := h.welcome.set_same (b := .joined node) hi rfl
    refine ⟨hpings.append_insert rfl free, hwelcome.append_none rfl, ?_⟩
    rw [held_append, Nat.add_right_cancel hset]
    exact hpermits
  | pinged oldest =>
    rw [List.append_nil]
    refine ⟨h.pings.set_erase hi rfl rfl, h.welcome.set_same hi rfl, ?_⟩
    rw [Nat.add_right_cancel hset]
    exact hpermits
  | queue node free =>
    have hpings := h.pings.set_same (b := .finished) hi rfl
    have hwelcome := h.welcome.set_same (b := .finished) hi rfl
    refine ⟨hpings.append_none rfl, hwelcome.append_insert rfl free, ?_⟩
    rw [held_append, Nat.add_right_cancel hset]
    exact hpermits
  | acquire node left =>
    rw [List.append_nil]
    refine ⟨h.pings.set_same hi rfl, h.welcome.set_same hi rfl, ?_⟩
    simp only [Task.permits] at hset ⊢
    omega
  | release node =>
    rw [List.append_nil]
    refine ⟨h.pings.set_same hi rfl, h.welcome.set_same hi rfl, ?_⟩
    simp only [Task.permits] at hset ⊢
    omega
  | unqueue node =>
    rw [List.append_nil]
    refine ⟨h.pings.set_same hi rfl, h.welcome.set_erase hi rfl rfl, ?_⟩
    rw [Nat.add_right_cancel hset]
    exact hpermits

/-- **The accounts stay right**, whatever happens. -/
theorem Accounted.move (h : Accounted m.shared m.tasks) (mv : Move) :
    Accounted (m.move mv).shared (m.move mv).tasks := by
  rcases move_cases m mv with heq | ⟨node, task, htask, heq⟩ | ⟨now, target, -, heq⟩ |
    ⟨i, turn, task, s', task', spawned, -, hi, hstep, heq⟩
  · rwa [heq]
  · rw [heq]
    obtain ⟨-, rfl⟩ | ⟨-, rfl⟩ | ⟨-, rfl⟩ := htask <;> exact h.arrive rfl rfl rfl
  · rw [heq]
    exact ⟨h.pings, h.welcome, h.permits⟩
  · rw [heq]
    exact h.step hi (step_effect hstep)

theorem run_append (m : Meetings) (moves : List Move) (mv : Move) :
    m.run (moves ++ [mv]) = (m.run moves).move mv := by
  simp [Meetings.run]

theorem accounted_run (start : Nat) (own : Node) (k : Nat) (moves : List Move) :
    Accounted ((Meetings.new start own k).run moves).shared
      ((Meetings.new start own k).run moves).tasks := by
  induction moves using List.reverseRecOn with
  | nil => exact ⟨marked_nil, marked_nil, rfl⟩
  | append_singleton moves mv ih =>
    rw [run_append]
    exact ih.move mv

/-! ## How long the queue gets -/

theorem queues_le_active (task : Task) : task.queues ≤ task.active := by
  cases task with
  | queueing => exact Nat.le_refl 1
  | met | heard | noted | joining | overfull | joined | unqueued => exact Nat.zero_le 1
  | pinging | unanswered | pinged | waiting | replicating | replicated | parting | removing
  | failed | finished => exact Nat.le_refl 0

/-- The nodes in the queue and the tasks that have found room in it. -/
def demand (s : Shared) (tasks : List Task) : Nat :=
  s.contacts.welcomeInFlight.card + held Task.queues tasks

/-- **A task finds room when it looks**, so that the demand grows only as far as tasks look
at the same time. -/
theorem demand_step {w i : Nat} (hi : tasks[i]? = some task)
    (heffect : Effect s task s' task' spawned)
    (hactive : held Task.active (tasks.set i task' ++ spawned) ≤ w)
    (h : demand s tasks ≤ maxWelcomeQueue - 1 + w) :
    demand s' (tasks.set i task' ++ spawned) ≤ maxWelcomeQueue - 1 + w := by
  have hset := held_set (w := Task.queues) hi task'
  unfold demand at h ⊢
  cases heffect with
  | onwards router ping welcome permits queues =>
    rw [List.append_nil] at hactive ⊢
    rcases queues with hle | hroom
    · refine Nat.le_trans (Nat.add_le_add_left ?_ _) h
      omega
    · have hfew := (held_mono queues_le_active (tasks.set i task')).trans hactive
      exact Nat.add_le_add (Nat.le_pred_of_lt hroom) hfew
  | ping node oldest free =>
    rw [held_append, Nat.add_right_cancel hset]
    exact h
  | pinged oldest =>
    rw [List.append_nil, Nat.add_right_cancel hset]
    exact h
  | queue node free =>
    have hcard : (insert node.id s.contacts.welcomeInFlight).card =
        s.contacts.welcomeInFlight.card + 1 := Finset.card_insert_of_notMem free
    have hspawned : held Task.queues [.waiting node] = 0 := rfl
    simp only [Task.queues] at hset
    simp only [Shared.setWelcome]
    rw [held_append, hcard, hspawned]
    omega
  | acquire node left =>
    rw [List.append_nil, Nat.add_right_cancel hset]
    exact h
  | release node =>
    rw [List.append_nil, Nat.add_right_cancel hset]
    exact h
  | unqueue node =>
    have hcard : (s.contacts.welcomeInFlight.erase node.id).card ≤
        s.contacts.welcomeInFlight.card := Finset.card_le_card (Finset.erase_subset ..)
    rw [List.append_nil, Nat.add_right_cancel hset]
    exact (Nat.add_le_add_right hcard _).trans h

/-- **In every run**, with `w` calls of `schedule_welcome_if_new` at a time at most. -/
theorem demand_run (start : Nat) (own : Node) (k : Nat) {w : Nat} {moves : List Move}
    (hactive : ∀ pre, pre <+: moves →
      held Task.active ((Meetings.new start own k).run pre).tasks ≤ w) :
    demand ((Meetings.new start own k).run moves).shared
      ((Meetings.new start own k).run moves).tasks ≤ maxWelcomeQueue - 1 + w := by
  induction moves using List.reverseRecOn with
  | nil => exact Nat.zero_le _
  | append_singleton moves mv ih =>
    have ih := ih fun pre hpre => hactive pre (hpre.trans (List.prefix_append _ _))
    have hlast := hactive _ (List.prefix_refl _)
    rw [run_append] at hlast ⊢
    generalize (Meetings.new start own k).run moves = m at ih hlast
    rcases move_cases m mv with heq | ⟨node, task, htask, heq⟩ | ⟨now, target, -, heq⟩ |
      ⟨i, turn, task, s', task', spawned, -, hi, hstep, heq⟩
    · rwa [heq]
    · rw [heq]
      unfold demand at ih ⊢
      rw [held_append]
      obtain ⟨-, rfl⟩ | ⟨-, rfl⟩ | ⟨-, rfl⟩ := htask <;> exact ih
    · rw [heq]
      exact ih
    · rw [heq] at hlast ⊢
      exact demand_step hi (step_effect hstep) hlast ih

/-! ## Every task ends -/

/-- The steps that are left of a task and of what it spawns, at most. -/
def Task.rank : Task → Nat
  | .met _ => 14
  | .heard _ => 13
  | .noted _ _ => 12
  | .joining _ => 11
  | .overfull _ _ => 10
  | .joined _ => 6
  | .unqueued _ => 5
  | .queueing _ => 4
  | .pinging _ | .waiting _ => 3
  | .unanswered _ | .replicating _ | .parting _ => 2
  | .pinged _ | .replicated _ | .removing _ | .failed _ => 1
  | .finished => 0

theorem step_rank (h : step s turn task = some (s', task', spawned)) :
    task'.rank + held Task.rank spawned < task.rank := by
  cases task with
  | met node =>
    simp only [step] at h
    split at h
    · cases h
      simp [Task.rank]
    · split at h <;> cases h <;> simp [Task.rank]
  | heard | unanswered | pinged | replicating | replicated | removing | failed =>
    cases h
    simp [Task.rank]
  | joining | noted | overfull | joined | unqueued | queueing | pinging | waiting =>
    simp only [step] at h
    split at h <;> cases h <;> simp [Task.rank]
  | parting source =>
    simp only [step] at h
    split at h
    · split at h <;> cases h <;> simp [Task.rank]
    · cases h
      simp [Task.rank]
  | finished => cases h

def Able (m : Meetings) (i : Nat) (turn : Turn) : Prop :=
  ∃ task, m.tasks[i]? = some task ∧ (step m.shared turn task).isSome

theorem Able.rank {i : Nat} (h : Able m i turn) :
    held Task.rank (m.move (.step i turn)).tasks < held Task.rank m.tasks := by
  obtain ⟨task, hi, hsome⟩ := h
  obtain ⟨⟨s', task', spawned⟩, hstep⟩ := Option.isSome_iff_exists.mp hsome
  have hmove : m.move (.step i turn) = ⟨s', m.tasks.set i task' ++ spawned⟩ := by
    simp only [Meetings.move, hi, hstep]
  have hset := held_set (w := Task.rank) hi task'
  have hlt := step_rank hstep
  rw [hmove, held_append]
  omega

theorem stuck_cases (h : step s turn task = none) :
    task = .finished ∨ s.permits = 0 ∧ ∃ node, task = .waiting node := by
  cases task with
  | met node =>
    simp only [step] at h
    split at h
    · cases h
    · split at h <;> cases h
  | heard | unanswered | pinged | replicating | replicated | removing | failed => cases h
  | joining | noted | overfull | joined | unqueued | queueing | pinging =>
    simp only [step] at h
    split at h <;> cases h
  | waiting node =>
    simp only [step] at h
    split at h
    · rename_i hnone
      exact Or.inr ⟨hnone, node, rfl⟩
    · cases h
  | parting source =>
    simp only [step] at h
    split at h
    · split at h <;> cases h
    · cases h
  | finished => exact Or.inl rfl

theorem permits_pos (h : 0 < task.permits) : ∃ node, task = .replicating node := by
  cases task with
  | replicating node => exact ⟨node, rfl⟩
  | met | heard | noted | joining | overfull | joined | unqueued | queueing | pinging | unanswered
  | pinged | waiting | replicated | parting | removing | failed | finished =>
    exact absurd h (Nat.lt_irrefl 0)

theorem Accounted.replicating_of_none (h : Accounted s tasks) (hnone : s.permits = 0) :
    ∃ node, Task.replicating node ∈ tasks := by
  have hall := h.permits
  have hheld : 0 < held Task.permits tasks := by
    rw [hnone, Nat.add_zero] at hall
    rw [hall]
    exact Nat.one_pos
  obtain ⟨holder, hmem, hpos⟩ := exists_of_held_pos hheld
  obtain ⟨node, rfl⟩ := permits_pos hpos
  exact ⟨node, hmem⟩

/-- **No deadlock**: where no task can go on, all tasks are over. -/
theorem Accounted.all_over (h : Accounted m.shared m.tasks) (hstuck : ∀ i, ¬ Able m i turn) :
    ∀ task ∈ m.tasks, task = .finished := by
  have hnone : ∀ task ∈ m.tasks, Meeting.step m.shared turn task = none := by
    intro task htask
    obtain ⟨i, hi⟩ := List.mem_iff_getElem?.mp htask
    by_contra hsome
    exact hstuck i ⟨task, hi, Option.isSome_iff_ne_none.mpr hsome⟩
  intro task htask
  refine (stuck_cases (hnone task htask)).resolve_right ?_
  rintro ⟨hpermits, -⟩
  -- The task that replicates goes on.
  obtain ⟨node, hmem⟩ := h.replicating_of_none hpermits
  cases hnone _ hmem

theorem Accounted.nothing_left (h : Accounted s tasks) (hover : ∀ task ∈ tasks, task = .finished) :
    s.contacts.oldestPingsInFlight = ∅ ∧ s.contacts.welcomeInFlight = ∅ ∧
      s.permits = welcomeConcurrency := by
  refine ⟨?_, ?_, ?_⟩
  · refine Finset.eq_empty_of_forall_notMem fun id hid => ?_
    obtain ⟨task, htask, hping⟩ := h.pings.mem_iff.mp hid
    rw [hover task htask] at hping
    cases hping
  · refine Finset.eq_empty_of_forall_notMem fun id hid => ?_
    obtain ⟨task, htask, hwelcome⟩ := h.welcome.mem_iff.mp hid
    rw [hover task htask] at hwelcome
    cases hwelcome
  · have hnone : held Task.permits tasks = 0 := held_eq_zero fun task htask => by
      rw [hover task htask]
      rfl
    rw [← h.permits, hnone, Nat.zero_add]

theorem rank_run (start : Nat) (own : Node) (k : Nat) (moves : List Move) :
    held Task.rank ((Meetings.new start own k).run moves).tasks ≤ 14 * moves.length := by
  induction moves using List.reverseRecOn with
  | nil => exact Nat.le_refl 0
  | append_singleton moves mv ih =>
    rw [run_append, List.length_append, List.length_singleton, Nat.mul_add]
    generalize (Meetings.new start own k).run moves = m at ih
    rcases move_cases m mv with heq | ⟨node, task, htask, heq⟩ | ⟨now, target, -, heq⟩ |
      ⟨i, turn, task, s', task', spawned, rfl, hi, hstep, heq⟩
    · rw [heq]
      omega
    · have hrank : task.rank ≤ 14 := by
        obtain ⟨-, rfl⟩ | ⟨-, rfl⟩ | ⟨-, rfl⟩ := htask <;> simp [Task.rank]
      rw [heq, held_append, held_cons, held_nil]
      omega
    · rw [heq]
      exact ih.trans (Nat.le_add_right _ _)
    · have hlt := Able.rank ⟨task, hi, Option.isSome_iff_exists.mpr ⟨_, hstep⟩⟩
      omega

/-! ## The table -/

/-- What the next step of a task does to the table. -/
def action (turn : Turn) : Task → Option RoutingTable.Action
  | .heard node => some (.recordSuccess turn.now node.id)
  | .joining node => some (.addContact turn.now node)
  | .unanswered node | .failed node => some (.recordFailureAt node turn.now turn.jitter)
  | .removing contact => some (.removeContact contact)
  | _ => none

theorem step_router (h : step s turn task = some (s', task', spawned)) :
    s'.contacts.router =
      (action turn task).elim s.contacts.router s.contacts.router.act := by
  cases task with
  | met node =>
    simp only [step] at h
    split at h
    · cases h
      rfl
    · split at h <;> cases h <;> rfl
  | heard | unanswered | removing | failed =>
    cases h
    rfl
  | joining node =>
    simp only [step] at h
    split at h <;> rename_i heq <;> cases h <;> exact (congrArg Prod.fst heq).symm
  | noted | overfull | joined | unqueued | queueing | pinging | waiting =>
    simp only [step] at h
    split at h <;> cases h <;> rfl
  | pinged | replicating | replicated =>
    cases h
    rfl
  | parting source =>
    simp only [step] at h
    split at h
    · split at h <;> cases h <;> rfl
    · cases h
      rfl
  | finished => cases h

/-! ## A task that nobody interrupts -/

def ofSpawned : Spawned → Task
  | .ping oldest => .pinging oldest
  | .replicate node => .waiting node

/-- Up to so many steps of one task, and what it spawns. -/
def alone (turn : Turn) : Nat → Shared → Task → Shared × Task × List Task
  | 0, s, task => (s, task, [])
  | fuel + 1, s, task =>
    match step s turn task with
    | none => (s, task, [])
    | some (s, task, spawned) =>
      let (s, task, more) := alone turn fuel s task
      (s, task, spawned ++ more)

theorem alone_finished (fuel : Nat) : alone turn fuel s .finished = (s, .finished, []) := by
  cases fuel <;> rfl

theorem alone_step (h : step s turn task = some (s', task', spawned)) (fuel : Nat) :
    alone turn (fuel + 1) s task =
      ((alone turn fuel s' task').1, (alone turn fuel s' task').2.1,
        spawned ++ (alone turn fuel s' task').2.2) := by
  rw [alone, h]

theorem alone_joined (fuel : Nat) (s : Shared) (node : Node) :
    alone turn (fuel + 3) s (.joined node) =
      ({ s with contacts := (s.contacts.queueWelcome node).1 }, .finished,
        (s.contacts.queueWelcome node).2.map ofSpawned) := by
  unfold Contacts.queueWelcome
  by_cases hin : node.id ∈ s.contacts.welcomeInFlight
  · rw [alone_step (by rw [step, if_pos hin]), alone_finished, if_pos hin]
    rfl
  · rw [alone_step (by rw [step, if_neg hin]), if_neg hin]
    by_cases hfull : maxWelcomeQueue ≤ s.contacts.welcomeInFlight.card
    · rw [alone_step (by rw [step, if_pos hfull]), alone_finished, if_pos hfull]
      rfl
    · rw [alone_step (by rw [step, if_neg hfull]), alone_step (by rw [step, if_neg hin]),
        alone_finished, if_neg hfull]
      rfl

theorem alone_joining (fuel : Nat) (s : Shared) (node : Node) :
    alone turn (fuel + 5) s (.joining node) =
      ({ s with
          contacts := ((s.contacts.addContact turn.now node).1.queueWelcome node).1 }, .finished,
        ((s.contacts.addContact turn.now node).2 ++
          ((s.contacts.addContact turn.now node).1.queueWelcome node).2).map ofSpawned) := by
  unfold Contacts.addContact
  cases hadd : s.contacts.router.addContact turn.now node with
  | mk router oldest? =>
    cases oldest? with
    | none =>
      rw [alone_step (by rw [step, hadd]), alone_joined (fuel + 1)]
      rfl
    | some oldest =>
      rw [alone_step (by rw [step, hadd])]
      by_cases hin : oldest.id ∈ s.contacts.oldestPingsInFlight
      · rw [alone_step (by rw [step]; exact if_pos hin), alone_joined fuel]
        simp only [if_pos hin]
        rfl
      · rw [alone_step (by rw [step]; exact if_neg hin), alone_joined fuel]
        simp only [if_neg hin]
        rfl

/-- The rest of a task, once `note_alive` has answered. -/
theorem alone_noted (fuel : Nat) (s : Shared) (node : Node) {silentFor : Option Nat}
    {router : RoutingTable}
    (h : noteAlive s.contacts.router turn.now node = (silentFor, router)) :
    alone turn (fuel + 6) (s.setRouter router)
        (.noted node (silentFor.any fun d => returnedAfter ≤ d)) =
      ({ s with contacts := (s.contacts.scheduleWelcomeIfNew turn.now node).1 }, .finished,
        (s.contacts.scheduleWelcomeIfNew turn.now node).2.map ofSpawned) := by
  unfold Contacts.scheduleWelcomeIfNew
  rw [h]
  generalize hreturned : (silentFor.any fun d => decide (returnedAfter ≤ d)) = returned
  simp only [hreturned]
  by_cases hold : !returned && !router.isNewNode node
  · rw [alone_step (by rw [step]; exact if_pos hold), alone_finished, if_pos hold]
    rfl
  · rw [alone_step (by rw [step]; exact if_neg hold), alone_joining fuel, if_neg hold]
    rfl

/-- **A task that nobody interrupts** does what `Contacts.scheduleWelcomeIfNew` says. -/
theorem alone_met (s : Shared) (turn : Turn) (node : Node) :
    alone turn 8 s (.met node) =
      ({ s with contacts := (s.contacts.scheduleWelcomeIfNew turn.now node).1 }, .finished,
        (s.contacts.scheduleWelcomeIfNew turn.now node).2.map ofSpawned) := by
  by_cases hhealthy : !s.contacts.router.hasFailures node.id
  · have hnote : noteAlive s.contacts.router turn.now node = (none, s.contacts.router) :=
      if_pos hhealthy
    rw [alone_step (by rw [step]; exact if_pos hhealthy)]
    exact alone_noted 1 s node hnote
  · by_cases hdoubt : !((s.contacts.router.getContact node.id).any fun contact =>
        contact.sameHomeAs node) && !s.contacts.router.isStale node.id
    · have hnote : noteAlive s.contacts.router turn.now node = (none, s.contacts.router) :=
        (if_neg hhealthy).trans (if_pos hdoubt)
      rw [alone_step (by rw [step]; exact (if_neg hhealthy).trans (if_pos hdoubt))]
      exact alone_noted 1 s node hnote
    · have hnote : noteAlive s.contacts.router turn.now node =
          s.contacts.router.recordSuccess turn.now node.id :=
        (if_neg hhealthy).trans (if_neg hdoubt)
      rw [alone_step (by rw [step]; exact (if_neg hhealthy).trans (if_neg hdoubt)),
        alone_step rfl, alone_noted 0 s node hnote]
      rfl

end AuthKademlia.Protocol.Meeting
