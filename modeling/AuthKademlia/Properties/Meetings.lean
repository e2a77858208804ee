import AuthKademlia.Properties.RoutingTable
import AuthKademlia.Protocol.Meeting
import AuthKademlia.Routing.Failures

/-! # Nodes met in any order of steps

What holds of the contacts, the pings of oldest contacts and the queue of nodes that wait for
their records, while any number of tasks take their steps in any order. -/
namespace AuthKademlia.Properties
open AuthKademlia.Lib.Holdings AuthKademlia.Routing AuthKademlia.Utils
open AuthKademlia.Protocol AuthKademlia.Protocol.Meeting

/-! ## What is in flight -/

/-- **What is in flight is accounted for**, in every order of steps. A contact is marked as
pinged, or a node as queued, as long as exactly one task for it is not over; one task at
most replicates, and a task waits for it only as long as there is one; once all tasks are
over nothing is left. With `w` messages handled at a time at most, the queue holds
`MAX_WELCOME_QUEUE - 1 + w` nodes at most: it is looked at before it is entered. -/
theorem meetings_accounted (start : Nat) (own : Node) (k : Nat) (moves : List Meeting.Move) :
    let m := (Meetings.new start own k).run moves
    let pings := m.shared.contacts.oldestPingsInFlight
    let welcome := m.shared.contacts.welcomeInFlight
    (∀ id, (id ∈ pings ↔ ∃ task ∈ m.tasks, task.ping? = some id) ∧
      (id ∈ welcome ↔ ∃ task ∈ m.tasks, task.welcome? = some id)) ∧
    (∀ (i j : Nat) (a b : Task) (id : NodeId), m.tasks[i]? = some a → m.tasks[j]? = some b →
      (a.ping? = some id ∧ b.ping? = some id ∨ a.welcome? = some id ∧ b.welcome? = some id) →
      i = j) ∧
    (∀ (i j : Nat) (x y : Node), m.tasks[i]? = some (.replicating x) →
      m.tasks[j]? = some (.replicating y) → i = j) ∧
    (∀ x turn, step m.shared turn (.waiting x) = none → ∃ y, Task.replicating y ∈ m.tasks) ∧
    ((∀ task ∈ m.tasks, task = .finished) →
      pings = ∅ ∧ welcome = ∅ ∧ m.shared.permits = welcomeConcurrency) ∧
    ∀ w, (∀ pre, pre <+: moves →
        held Task.active ((Meetings.new start own k).run pre).tasks ≤ w) →
      welcome.card ≤ maxWelcomeQueue - 1 + w := by
  intro m pings welcome
  have h : Accounted m.shared m.tasks := accounted_run start own k moves
  refine ⟨fun id => ⟨h.pings.mem_iff, h.welcome.mem_iff⟩, ?_, ?_, ?_, h.nothing_left, ?_⟩
  · intro i j a b id hi hj hmarks
    rcases hmarks with ⟨ha, hb⟩ | ⟨ha, hb⟩
    · exact h.pings.unique hi hj ha hb
    · exact h.welcome.unique hi hj ha hb
  · intro i j x y hi hj
    by_contra hne
    have htwo := add_le_held (w := Task.permits) hi hj hne
    have hall := h.permits
    simp only [Task.permits, welcomeConcurrency] at htwo hall
    omega
  · intro x turn hstuck
    obtain hover | ⟨hnone, -⟩ := stuck_cases hstuck
    · cases hover
    · exact h.replicating_of_none hnone
  · intro w hactive
    exact (Nat.le_add_right _ _).trans (demand_run start own k hactive)

/-! ## The end of all tasks -/

/-- Steps that can be taken, one after the other. -/
def Taken (m : Meetings) : List (Nat × Turn) → Prop
  | [] => True
  | (i, turn) :: rest => Able m i turn ∧ Taken (m.move (.step i turn)) rest

def asMoves (steps : List (Nat × Turn)) : List Meeting.Move :=
  steps.map fun (i, turn) => .step i turn

instance (m : Meetings) (i : Nat) (turn : Turn) : Decidable (Able m i turn) :=
  decidable_of_iff ((m.tasks[i]?.bind (step m.shared turn)).isSome = true) <| by
    unfold Able
    cases m.tasks[i]? <;> simp

instance Taken.decidable : ∀ (m : Meetings) (steps : List (Nat × Turn)), Decidable (Taken m steps)
  | _, [] => isTrue trivial
  | m, (i, turn) :: rest =>
    have := Taken.decidable (m.move (.step i turn)) rest
    inferInstanceAs (Decidable (Able m i turn ∧ _))

theorem taken_rank {m : Meetings} {steps : List (Nat × Turn)} (h : Taken m steps) :
    steps.length + held Task.rank (m.run (asMoves steps)).tasks ≤ held Task.rank m.tasks := by
  induction steps generalizing m with
  | nil => exact Nat.le_of_eq (Nat.zero_add _)
  | cons step rest ih =>
    have hlt := h.1.rank
    have hrest := ih h.2
    have hrun : m.run (asMoves (step :: rest)) =
        (m.move (.step step.1 step.2)).run (asMoves rest) := rfl
    rw [hrun, List.length_cons]
    omega

/-- **All tasks come to an end.** When nothing arrives any more, no order of steps takes more
than fourteen of them for each thing that happened before; and where no task can go on, every
task is over, so that no contact stays marked as pinged, no node stays queued and the permit
is back. -/
theorem meetings_end (start : Nat) (own : Node) (k : Nat) (moves : List Meeting.Move)
    (steps : List (Nat × Turn)) (htaken : Taken ((Meetings.new start own k).run moves) steps) :
    let m := (Meetings.new start own k).run (moves ++ asMoves steps)
    steps.length ≤ 14 * moves.length ∧
    ∀ turn, (∀ i, ¬ Able m i turn) → (∀ task ∈ m.tasks, task = .finished) ∧
      m.shared.contacts.oldestPingsInFlight = ∅ ∧ m.shared.contacts.welcomeInFlight = ∅ ∧
      m.shared.permits = welcomeConcurrency := by
  intro m
  have h : Accounted m.shared m.tasks := accounted_run start own k _
  constructor
  · have hsteps := taken_rank htaken
    have hall := rank_run start own k moves
    omega
  · intro turn hstuck
    have hover := h.all_over hstuck
    exact ⟨hover, h.nothing_left hover⟩

/-- The steps of a message from a new node, and of the replication to it. -/
def welcomeSteps : List (Nat × Turn) :=
  List.replicate 6 (0, ⟨1, 0, true⟩) ++ List.replicate 3 (1, ⟨2, 0, true⟩)

theorem meetings_end_welcomeSteps :
    let m := (Meetings.new 0 (nodeAt 0 6999) 1).run
      ([.message (nodeAt 0x80 7000)] ++ asMoves welcomeSteps)
    welcomeSteps.length ≤ 14 ∧ m.shared.contacts.welcomeInFlight = ∅ ∧ m.shared.permits = 1 := by
  intro m
  have htasks : m.tasks = [.finished, .finished] := by decide +kernel
  obtain ⟨hsteps, hend⟩ := meetings_end 0 (nodeAt 0 6999) 1 [.message (nodeAt 0x80 7000)]
    welcomeSteps (by decide +kernel)
  obtain ⟨-, -, hwelcome, hpermits⟩ := hend ⟨3, 0, true⟩ <| by
    rintro i ⟨task, hi, hable⟩
    have htask : task ∈ m.tasks := List.mem_of_getElem? hi
    rw [htasks] at htask
    rcases List.mem_pair.mp htask with rfl | rfl <;> cases hable
  exact ⟨hsteps, hwelcome, hpermits⟩

/-! ## A contact keeps its place -/

/-- What is left of the task does nothing to the contact. -/
def Harmless (x : Node) : Task → Prop
  | .noted node returned => node.id = x.id → node = x ∨ returned = false
  | .joining node => node.id = x.id → node = x
  | .unanswered node | .removing node | .failed node => node.id ≠ x.id
  | .parting source => source.id = x.id → x.sameHomeAs source = false
  | _ => True

/-- The contact does not leave, no call to it fails, and it answers when it is pinged. -/
def LeavesAlone (x : Node) (m : Meetings) : Meeting.Move → Prop
  | .message _ | .touch _ _ => True
  | .leave source => source.id = x.id → x.sameHomeAs source = false
  | .failure node => node.id ≠ x.id
  | .step i turn =>
    ∀ oldest, m.tasks[i]? = some (.pinging oldest) → oldest.id = x.id → turn.answered = true

def LeavesAloneAlong (x : Node) (m : Meetings) : List Meeting.Move → Prop
  | [] => True
  | mv :: rest => LeavesAlone x m mv ∧ LeavesAloneAlong x (m.move mv) rest

/-- The contact is in the table at its endpoint, and nothing counts against it. -/
structure Placed (own : Node) (k : Nat) (x : Node) (m : Meetings) : Prop where
  ok : m.shared.contacts.router.Ok own k
  place : x ∈ m.shared.contacts.router.primaries
  healthy : m.shared.contacts.router.health x.id = none
  pending : ∀ task ∈ m.tasks, Harmless x task

section Placed

variable {own x : Node} {k : Nat} {m : Meetings} {task : Task} {turn : Turn}

theorem action_spares (h : Harmless x task) {a : RoutingTable.Action}
    (ha : action turn task = some a) : a.Spares x := by
  cases task with
  | heard =>
    cases ha
    exact trivial
  | joining | unanswered | removing | failed =>
    cases ha
    exact h
  | met | noted | overfull | joined | unqueued | queueing | pinging | pinged | waiting | replicating
  | replicated | parting | finished => cases ha

theorem Placed.getContact (h : Placed own k x m) {id : NodeId} (hid : id = x.id) :
    m.shared.contacts.router.getContact id = some x := by
  rw [hid]
  exact h.ok.getContact_eq (RoutingTable.primary_contact h.place)

/-- **A step leads to nothing that harms the contact**: a message in its name is read by
`is_new_node`, a departure in its name by the endpoint, and its pings are answered. -/
theorem Placed.harmless_step (h : Placed own k x m) (htask : Harmless x task)
    (hping : ∀ oldest, task = .pinging oldest → oldest.id = x.id → turn.answered = true)
    {s' : Shared} {task' : Task} {spawned : List Task}
    (hstep : step m.shared turn task = some (s', task', spawned)) :
    ∀ t ∈ task' :: spawned, Harmless x t := by
  have one : ∀ {t : Task}, Harmless x t → ∀ t' ∈ [t], Harmless x t' := fun ht t' ht' => by
    rw [List.mem_singleton.mp ht']
    exact ht
  cases task with
  | met node =>
    simp only [step] at hstep
    split at hstep
    · cases hstep
      exact one fun _ => Or.inr rfl
    · split at hstep
      · cases hstep
        exact one fun _ => Or.inr rfl
      · cases hstep
        exact one trivial
  | heard node =>
    cases hstep
    refine one fun hid => Or.inr ?_
    rw [hid, h.healthy]
    rfl
  | noted node returned =>
    simp only [step] at hstep
    split at hstep
    · cases hstep
      exact one trivial
    · rename_i hnew
      cases hstep
      refine one fun hid => (htask hid).resolve_right ?_
      rintro rfl
      have hknown : m.shared.contacts.router.isNewNode node = false := by
        rw [Bool.eq_false_iff, Ne, isNewNode_eq h.ok, not_not, hid]
        exact List.mem_map_of_mem h.place
      rw [hknown] at hnew
      exact hnew rfl
  | joining node =>
    simp only [step] at hstep
    split at hstep <;> cases hstep <;> exact one trivial
  | overfull node oldest =>
    simp only [step] at hstep
    split at hstep
    · cases hstep
      exact one trivial
    · cases hstep
      intro t ht
      rcases List.mem_pair.mp ht with rfl | rfl
      · exact trivial
      · exact trivial
  | joined node | unqueued node | waiting node =>
    simp only [step] at hstep
    split at hstep <;> cases hstep <;> exact one trivial
  | queueing node =>
    simp only [step] at hstep
    split at hstep
    · cases hstep
      exact one trivial
    · cases hstep
      intro t ht
      rcases List.mem_pair.mp ht with rfl | rfl
      · exact trivial
      · exact trivial
  | pinging oldest =>
    simp only [step] at hstep
    split at hstep
    · cases hstep
      exact one trivial
    · rename_i hno
      cases hstep
      refine one fun hid => hno ?_
      rw [hping oldest rfl hid, Bool.or_true]
  | unanswered | pinged | replicating | replicated | removing | failed =>
    cases hstep
    exact one trivial
  | parting source =>
    simp only [step] at hstep
    split at hstep
    · rename_i contact hcontact
      split at hstep
      · rename_i hhome
        cases hstep
        refine one fun hid => ?_
        have hsource : source.id = x.id := by
          have hfound := List.find?_some (p := fun n : Node => decide (n.id = source.id)) hcontact
          rw [← hid, of_decide_eq_true hfound]
        rw [h.getContact hsource] at hcontact
        obtain rfl := Option.some.inj hcontact
        rw [htask hsource] at hhome
        cases hhome
      · cases hstep
        exact one trivial
    · cases hstep
      exact one trivial
  | finished => cases hstep

theorem Placed.arrive (h : Placed own k x m) (htask : Harmless x task) :
    Placed own k x { m with tasks := m.tasks ++ [task] } := by
  refine ⟨h.ok, h.place, h.healthy, fun t ht => ?_⟩
  rcases List.mem_append.mp ht with hold | hnew
  · exact h.pending t hold
  · rw [List.mem_singleton.mp hnew]
    exact htask

theorem Placed.move (h : Placed own k x m) (hk : 1 ≤ k) {mv : Meeting.Move}
    (hspares : LeavesAlone x m mv) : Placed own k x (m.move mv) := by
  rcases move_cases m mv with heq | ⟨node, task, htask, heq⟩ | ⟨now, target, -, heq⟩ |
    ⟨i, turn, task, s', task', spawned, rfl, hi, hstep, heq⟩
  · rwa [heq]
  · rw [heq]
    obtain ⟨rfl, rfl⟩ | ⟨rfl, rfl⟩ | ⟨rfl, rfl⟩ := htask
    · exact h.arrive trivial
    · exact h.arrive hspares
    · exact h.arrive hspares
  · rw [heq]
    obtain ⟨hplace, hhealthy⟩ :=
      h.ok.place_act hk (a := .touchTarget now target) h.place h.healthy trivial
    exact ⟨h.ok.touchTarget now target, hplace, hhealthy, h.pending⟩
  · rw [heq]
    have htask := h.pending task (List.mem_of_getElem? hi)
    have hnext := h.harmless_step htask (fun oldest he => hspares oldest (he ▸ hi)) hstep
    have hpending : ∀ t ∈ m.tasks.set i task' ++ spawned, Harmless x t := by
      intro t ht
      rcases List.mem_append.mp ht with hset | hspawned
      · rcases List.mem_or_eq_of_mem_set hset with hold | rfl
        · exact h.pending t hold
        · exact hnext t List.mem_cons_self
      · exact hnext t (List.mem_cons_of_mem _ hspawned)
    have hrouter := step_router hstep
    cases ha : action turn task with
    | none =>
      rw [ha] at hrouter
      exact ⟨hrouter ▸ h.ok, hrouter ▸ h.place, hrouter ▸ h.healthy, hpending⟩
    | some a =>
      rw [ha] at hrouter
      obtain ⟨hplace, hhealthy⟩ := h.ok.place_act hk h.place h.healthy (action_spares htask ha)
      exact ⟨hrouter ▸ h.ok.act hk a, hrouter ▸ hplace, hrouter ▸ hhealthy, hpending⟩

theorem Placed.run (h : Placed own k x m) (hk : 1 ≤ k) {moves : List Meeting.Move}
    (hspares : LeavesAloneAlong x m moves) : Placed own k x (m.run moves) := by
  induction moves generalizing m with
  | nil => exact h
  | cons mv rest ih => exact ih (h.move hk hspares.1) hspares.2

end Placed

theorem ok_meetings (start : Nat) (own : Node) {k : Nat} (hk : 1 ≤ k)
    (moves : List Meeting.Move) :
    ((Meetings.new start own k).run moves).shared.contacts.router.Ok own k := by
  induction moves using List.reverseRecOn with
  | nil => exact RoutingTable.ok_after hk start own []
  | append_singleton moves mv ih =>
    rw [run_append]
    generalize (Meetings.new start own k).run moves = m at ih
    rcases move_cases m mv with heq | ⟨node, task, -, heq⟩ | ⟨now, target, -, heq⟩ |
      ⟨i, turn, task, s', task', spawned, -, -, hstep, heq⟩
    · rwa [heq]
    · rwa [heq]
    · rw [heq]
      exact ih.touchTarget now target
    · rw [heq, step_router hstep]
      cases action turn task with
      | none => exact ih
      | some a => exact ih.act hk a

/-- **A contact that answers keeps its place and its endpoint**, in every order of steps:
whatever messages arrive, from wherever and in whoever's name, the contact's included;
however many newcomers want its place; whoever leaves, in its name from another endpoint
included. -/
theorem contact_keeps_its_place (start : Nat) (own : Node) {k : Nat} (hk : 1 ≤ k) (x : Node)
    (before moves : List Meeting.Move) :
    let m := (Meetings.new start own k).run before
    x ∈ m.shared.contacts.router.primaries → m.shared.contacts.router.health x.id = none →
    (∀ task ∈ m.tasks, Harmless x task) → LeavesAloneAlong x m moves →
    let t := (m.run moves).shared.contacts.router
    x ∈ t.primaries ∧ t.getContact x.id = some x ∧ t.hasFailures x.id = false := by
  intro m hplace hhealthy hpending hspares t
  have h : Placed own k x m := ⟨ok_meetings start own hk before, hplace, hhealthy, hpending⟩
  have hend := h.run hk hspares
  refine ⟨hend.place, hend.getContact rfl, ?_⟩
  rw [RoutingTable.hasFailures, hend.healthy]
  rfl

/-- A step with which a ping is answered. -/
def stepOf (i now : Nat) : Meeting.Move := .step i ⟨now, 0, true⟩

/-- A contact joins, with all steps of its task. -/
def contactJoins : List Meeting.Move := .message (nodeAt 0x80 7000) :: List.replicate 6 (stepOf 0 1)

/-- Another endpoint sends in the contact's name, leaves in its name, and a newcomer finds
its bucket full; the contact answers the ping. -/
def contactTried : List Meeting.Move :=
  [.message (nodeAt 0x80 7001), .leave (nodeAt 0x80 7001), .message (nodeAt 0x81 7002),
    stepOf 2 2, stepOf 2 2, stepOf 3 3, stepOf 4 4, stepOf 4 4, stepOf 4 4, stepOf 4 5,
    stepOf 5 6, stepOf 5 6]

theorem contact_keeps_its_place_tried :
    let m := (Meetings.new 0 (nodeAt 0 6999) 1).run contactJoins
    let t := (m.run contactTried).shared.contacts.router
    nodeAt 0x80 7000 ∈ t.primaries ∧
      t.getContact (nodeAt 0x80 7000).id = some (nodeAt 0x80 7000) ∧
      t.hasFailures (nodeAt 0x80 7000).id = false := by
  have hleave : (nodeAt 0x80 7000).sameHomeAs (nodeAt 0x80 7001) = false := by decide
  have htasks : ((Meetings.new 0 (nodeAt 0 6999) 1).run contactJoins).tasks =
      [.finished, .waiting (nodeAt 0x80 7000)] := by decide +kernel
  refine contact_keeps_its_place 0 (nodeAt 0 6999) Nat.one_pos (nodeAt 0x80 7000) contactJoins
    contactTried (by decide +kernel) (by decide +kernel) ?_ ?_
  · rw [htasks]
    intro task htask
    rcases List.mem_pair.mp htask with rfl | rfl
    · exact trivial
    · exact trivial
  · exact ⟨trivial, fun _ => hleave, trivial, fun _ _ _ => rfl, fun _ _ _ => rfl,
      fun _ _ _ => rfl, fun _ _ _ => rfl, fun _ _ _ => rfl, fun _ _ _ => rfl, fun _ _ _ => rfl,
      fun _ _ _ => rfl, fun _ _ _ => rfl, trivial⟩

-- What is pending matters: a message in the contact's name that `is_new_node` has read before
-- the contact joined takes its place afterwards.
example :
    ((Meetings.new 0 (nodeAt 0 6999) 1).run
      ([.message (nodeAt 0x80 7001), .message (nodeAt 0x80 7000), stepOf 0 1, stepOf 0 1,
        stepOf 1 2, stepOf 1 2, stepOf 1 2, stepOf 0 3])).shared.contacts.router.getContact
      (nodeAt 0x80 7000).id = some (nodeAt 0x80 7001) := by
  decide +kernel

end AuthKademlia.Properties
