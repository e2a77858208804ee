import AuthKademlia.Network.Dispatch

/-! # Datagrams on their way to the handlers

What the receive loop and its workers make of the datagrams that arrive, in every order in
which they take their steps. -/
namespace AuthKademlia.Properties
open AuthKademlia.Lib.Holdings AuthKademlia.Network AuthKademlia.Network.Dispatch

section Dispatch

variable {n : Nat} {d d' : Dispatcher} {mv : Dispatch.Move}

theorem count_flatMap_given (job : Job) (workers : List Worker) :
    (workers.flatMap Worker.given).count job = held (fun w => w.given.count job) workers := by
  induction workers with
  | nil => rfl
  | cons w workers ih => rw [List.flatMap_cons, List.count_append, ih, held_cons]

theorem received_perm (h : Inv n d) :
    d.received.Perm (d.workers.flatMap Worker.given ++ (d.phase.jobs ++ d.lost)) := by
  rw [List.perm_iff_count]
  intro job
  rw [List.count_append, count_flatMap_given]
  exact h.counted job

/-! ## What is lost -/

/-- What a step loses: all that a worker has left when its handler panics, or a datagram
that the loop sends to a worker which is gone. -/
inductive Loses (d : Dispatcher) : Dispatch.Move → List Job → Prop
  | panic {w : Nat} {job : Job} {queue handled : List Job}
      (found : d.workers[w]? = some ⟨queue, some job, handled, false⟩) :
      Loses d (.crash w) (job :: queue)
  | gone {job : Job} {base : Nat} {worker : Worker} (sending : d.phase = .sending job base)
      (found : d.workers[base % d.workers.length]? = some worker)
      (closed : worker.closed = true) : Loses d .send [job]

def LostWithWorkers (n : Nat) (moves : List Dispatch.Move) : Prop :=
  ∀ pre mv, pre ++ [mv] <+: moves →
    let d := (Dispatcher.new n).run pre
    (d.move mv).lost = d.lost ∨ ∃ jobs, Loses d mv jobs ∧ (d.move mv).lost = d.lost ++ jobs

theorem lost_effect (heffect : Effect d mv d') :
    d'.lost = d.lost ∨ ∃ jobs, Loses d mv jobs ∧ d'.lost = d.lost ++ jobs := by
  cases heffect with
  | dropped sending found closed => exact Or.inr ⟨_, .gone sending found closed, rfl⟩
  | crashed found => exact Or.inr ⟨_, .panic found, rfl⟩
  | none | datagram | refused | allRefused | given | taken | finished => exact Or.inl rfl

theorem lostWithWorkers (n : Nat) (moves : List Dispatch.Move) : LostWithWorkers n moves :=
  fun _ mv _ => lost_effect (move_effect _ mv)

/-! ## One worker after the other -/

/-- The jobs whose turn is worker `w`'s. -/
def turnsOf (n w : Nat) (jobs : List Job) : List Job :=
  (jobs.zipIdx.filter fun p => p.2 % n = w).map Prod.fst

theorem turnsOf_snoc (n w : Nat) (jobs : List Job) (job : Job) :
    turnsOf n w (jobs ++ [job]) =
      turnsOf n w jobs ++ if jobs.length % n = w then [job] else [] := by
  unfold turnsOf
  rw [List.zipIdx_append, List.filter_append, List.map_append]
  congr 1
  by_cases h : jobs.length % n = w
  · simp [h]
  · simp [h]

/-- Each worker has been given what was its turn. -/
structure InTurn (n : Nat) (d : Dispatcher) (sent : List Job) : Prop where
  received : d.received = sent ++ d.phase.jobs
  idx : d.idx = sent.length % n
  phase : d.phase = .receiving ∨ ∃ job, d.phase = .offering job d.idx 0
  given : ∀ (w : Nat) (worker : Worker), d.workers[w]? = some worker →
    worker.given = turnsOf n w sent

theorem inTurn_new (n : Nat) : InTurn n (.new n) [] where
  received := rfl
  idx := (Nat.zero_mod n).symm
  phase := Or.inl rfl
  given := by
    intro w worker hw
    rw [List.eq_of_mem_replicate (List.mem_of_getElem? hw)]
    rfl

theorem InTurn.setWorker {sent : List Job} (h : InTurn n d sent) {w : Nat}
    {worker worker' : Worker} (found : d.workers[w]? = some worker)
    (hgiven : worker'.given = worker.given) :
    InTurn n { d with workers := d.workers.set w worker' } sent := by
  refine ⟨h.received, h.idx, h.phase, fun v x hx => ?_⟩
  by_cases hv : w = v
  · subst hv
    rw [List.getElem?_set_self (List.getElem?_eq_some_iff.mp found).1] at hx
    obtain rfl := Option.some.inj hx
    exact hgiven.trans (h.given w worker found)
  · rw [List.getElem?_set_ne hv] at hx
    exact h.given v x hx

theorem InTurn.give {sent : List Job} (h : InTurn n d sent) (hinv : Inv n d) {job : Job}
    {worker : Worker} (hphase : d.phase = .offering job d.idx 0)
    (found : d.workers[d.idx]? = some worker) :
    InTurn n (d.give d.idx worker job) (sent ++ [job]) := by
  refine ⟨?_, ?_, Or.inl rfl, fun v x hx => ?_⟩
  · show d.received = sent ++ [job] ++ []
    rw [List.append_nil, h.received, hphase]
    rfl
  · show (d.idx + 1) % d.workers.length = (sent ++ [job]).length % n
    rw [hinv.size, h.idx, List.length_append, List.length_singleton, Nat.mod_add_mod]
  · rw [turnsOf_snoc, ← h.idx]
    have hx : (d.workers.set d.idx (worker.push job))[v]? = some x := hx
    by_cases hv : d.idx = v
    · subst hv
      rw [List.getElem?_set_self (List.getElem?_eq_some_iff.mp found).1] at hx
      obtain rfl := Option.some.inj hx
      rw [if_pos rfl, given_push, h.given d.idx worker found]
    · rw [List.getElem?_set_ne hv] at hx
      rw [if_neg hv, List.append_nil]
      exact h.given v x hx

theorem InTurn.effect {sent : List Job} (h : InTurn n d sent) (hinv : Inv n d)
    (heffect : Effect d mv d') (hroom : ∀ w ∈ d.workers, w.refuses = false)
    (hroom' : ∀ w ∈ d'.workers, w.refuses = false) : ∃ sent', InTurn n d' sent' := by
  cases heffect with
  | none => exact ⟨sent, h⟩
  | datagram job free =>
    refine ⟨sent, ?_, h.idx, Or.inr ⟨job, rfl⟩, h.given⟩
    rw [h.received, free]
    exact congrArg (· ++ [job]) (List.append_nil sent)
  | refused _ found refuses | allRefused _ found refuses =>
    rw [hroom _ (List.mem_of_getElem? found)] at refuses
    cases refuses
  | given _ holds found room first =>
    rename_i w worker job
    rcases h.phase with hphase | ⟨job', hphase⟩
    · rw [hphase] at holds
      cases holds
    · rw [hphase] at holds
      obtain rfl : job' = job := List.cons.inj holds |>.1
      have hw := first d.idx hphase
      rw [hinv.size, Nat.mod_eq_of_lt hinv.idx] at hw
      subst hw
      exact ⟨_, h.give hinv hphase found⟩
  | dropped sending =>
    rcases h.phase with hphase | ⟨job', hphase⟩
    · rw [hphase] at sending
      cases sending
    · rw [hphase] at sending
      cases sending
  | taken found => exact ⟨sent, h.setWorker found (by simp [Worker.given])⟩
  | finished found => exact ⟨sent, h.setWorker found (by simp [Worker.given])⟩
  | crashed found =>
    have hmem := List.mem_set (List.getElem?_eq_some_iff.mp found).1
    cases hroom' _ (hmem _)

theorem inTurn_run (hn : 0 < n) {moves : List Dispatch.Move}
    (hroom : ∀ pre, pre <+: moves →
      ∀ w ∈ ((Dispatcher.new n).run pre).workers, w.refuses = false) :
    ∃ sent, InTurn n ((Dispatcher.new n).run moves) sent := by
  induction moves using List.reverseRecOn with
  | nil => exact ⟨[], inTurn_new n⟩
  | append_singleton moves mv ih =>
    obtain ⟨sent, h⟩ := ih fun pre hpre => hroom pre (hpre.trans (List.prefix_append _ _))
    rw [run_snoc]
    refine h.effect (inv_run hn moves) (move_effect _ mv)
      (hroom moves (List.prefix_append _ _)) ?_
    rw [← run_snoc]
    exact hroom _ (List.prefix_refl _)

/-- **No datagram is lost, doubled or overtaken in a queue**, in any order of steps: each one
received is with a worker that was given it, with the loop, or was lost with a worker whose
handler panicked, as one that it had left or that was sent to it afterwards. A worker gets
its datagrams in the order in which they arrived, and 256 of them wait at most. While no
worker refuses, the workers take turns. -/
theorem datagrams_dispatched {n : Nat} (hn : 0 < n) (moves : List Dispatch.Move) :
    let d := (Dispatcher.new n).run moves
    d.received.Perm (d.workers.flatMap Worker.given ++ (d.phase.jobs ++ d.lost)) ∧
    (d.lost ≠ [] → ∃ w ∈ d.workers, w.closed = true) ∧ LostWithWorkers n moves ∧
    (∀ w ∈ d.workers, w.queue.length ≤ workerQueueDepth ∧ w.given.Sublist d.received) ∧
    ((∀ pre, pre <+: moves → ∀ w ∈ ((Dispatcher.new n).run pre).workers, w.refuses = false) →
      ∃ sent, d.received = sent ++ d.phase.jobs ∧ ∀ (w : Nat) (worker : Worker),
        d.workers[w]? = some worker → worker.given = turnsOf n w sent) := by
  intro d
  have h : Inv n d := inv_run hn moves
  refine ⟨received_perm h, ?_, lostWithWorkers n moves, ?_, ?_⟩
  · intro hlost
    obtain ⟨w, hw, hgone⟩ := exists_of_held_pos (h.lost hlost)
    refine ⟨w, hw, ?_⟩
    by_contra hopen
    rw [Worker.gone, if_neg hopen] at hgone
    exact absurd hgone (Nat.lt_irrefl 0)
  · intro w hw
    have hok := h.each w hw
    exact ⟨hok.room, (List.sublist_append_left _ _).trans hok.order⟩
  · intro hroom
    obtain ⟨sent, hturn⟩ := inTurn_run hn hroom
    exact ⟨sent, hturn.received, hturn.given⟩

def jobFrom (port : UInt16) : Job := ([], ("10.0.0.1", port))

/-- Three datagrams for two workers, of which the first panics. -/
def threeDatagrams : List Dispatch.Move :=
  [.datagram (jobFrom 1), .offer, .datagram (jobFrom 2), .offer, .take 0, .crash 0,
    .datagram (jobFrom 3), .offer, .offer]

theorem datagrams_dispatched_threeDatagrams :
    let d := (Dispatcher.new 2).run threeDatagrams
    d.workers.map Worker.given = [[], [jobFrom 2, jobFrom 3]] ∧ d.lost = [jobFrom 1] ∧
      ∀ w ∈ d.workers, w.given.Sublist d.received := by
  refine ⟨by decide +kernel, by decide +kernel, fun w hw => ?_⟩
  exact ((datagrams_dispatched (by decide) threeDatagrams).2.2.2.1 w hw).2

/-! ## All of them are handled -/

def phaseRank (n : Nat) : Phase → Nat
  | .receiving => 0
  | .offering _ _ i => n - i + 3
  | .sending _ _ => 3

def workerRank (w : Worker) : Nat := 2 * w.queue.length + w.handling.toList.length

/-- The steps that are left for the datagrams received so far, at most. -/
def stepsLeft (n : Nat) (d : Dispatcher) : Nat := phaseRank n d.phase + held workerRank d.workers

theorem stepsLeft_give {w : Nat} {worker : Worker} {job : Job}
    (holds : d.phase.jobs = [job]) (found : d.workers[w]? = some worker) :
    stepsLeft n (d.give w worker job) < stepsLeft n d := by
  have hset := held_set (w := workerRank) found (worker.push job)
  have hpush : workerRank (worker.push job) = workerRank worker + 2 := by
    simp only [workerRank, Worker.push, List.length_append, List.length_singleton]
    omega
  have hphase : 3 ≤ phaseRank n d.phase := by
    cases hp : d.phase with
    | receiving =>
      rw [hp] at holds
      cases holds
    | offering job base i => exact Nat.le_add_left 3 _
    | sending job base => exact Nat.le_refl 3
  show 0 + held workerRank (d.workers.set w (worker.push job)) < stepsLeft n d
  unfold stepsLeft
  omega

/-- **A step that does something leaves fewer**, unless it receives a datagram. -/
theorem stepsLeft_effect (hinv : Inv n d) (heffect : Effect d mv d') :
    d' = d ∨ (d'.received = d.received ∧ stepsLeft n d' < stepsLeft n d) ∨
      ∃ job, mv = .datagram job ∧ d'.received = d.received ++ [job] ∧
        stepsLeft n d' = stepsLeft n d + (n + 3) := by
  cases heffect with
  | none => exact Or.inl rfl
  | datagram job free =>
    refine Or.inr (Or.inr ⟨job, rfl, rfl, ?_⟩)
    simp only [stepsLeft, free, phaseRank]
    omega
  | refused offering found refuses more =>
    refine Or.inr (Or.inl ⟨rfl, ?_⟩)
    rw [hinv.size] at more
    simp only [stepsLeft, offering, phaseRank]
    omega
  | allRefused offering found refuses =>
    refine Or.inr (Or.inl ⟨rfl, ?_⟩)
    have hlt := hinv.offering _ _ _ offering
    simp only [stepsLeft, offering, phaseRank]
    omega
  | given _ holds found => exact Or.inr (Or.inl ⟨rfl, stepsLeft_give holds found⟩)
  | dropped sending =>
    refine Or.inr (Or.inl ⟨rfl, ?_⟩)
    simp only [stepsLeft, sending, phaseRank]
    omega
  | taken found =>
    rename_i w job queue handled
    refine Or.inr (Or.inl ⟨rfl, ?_⟩)
    have hset := held_set (w := workerRank) found ⟨queue, some job, handled, false⟩
    simp only [workerRank, List.length_cons, Option.toList] at hset
    simp only [stepsLeft]
    omega
  | finished found =>
    rename_i w job queue handled
    refine Or.inr (Or.inl ⟨rfl, ?_⟩)
    have hset := held_set (w := workerRank) found ⟨queue, none, handled ++ [job], false⟩
    simp only [workerRank, Option.toList, List.length_cons, List.length_nil] at hset
    simp only [stepsLeft]
    omega
  | crashed found =>
    rename_i w job queue handled
    refine Or.inr (Or.inl ⟨rfl, ?_⟩)
    have hset := held_set (w := workerRank) found ⟨[], none, handled, true⟩
    simp only [workerRank, Option.toList, List.length_cons, List.length_nil] at hset
    simp only [stepsLeft]
    omega

theorem stepsLeft_run (hn : 0 < n) (moves : List Dispatch.Move) :
    stepsLeft n ((Dispatcher.new n).run moves) ≤
      (n + 3) * ((Dispatcher.new n).run moves).received.length := by
  induction moves using List.reverseRecOn with
  | nil =>
    have hnone : held workerRank (List.replicate n Worker.new) = 0 := held_eq_zero fun w hw => by
      rw [List.eq_of_mem_replicate hw]
      rfl
    show 0 + held workerRank (List.replicate n Worker.new) ≤ (n + 3) * 0
    rw [hnone]
    exact Nat.zero_le _
  | append_singleton moves mv ih =>
    rw [run_snoc]
    rcases stepsLeft_effect (inv_run hn moves) (move_effect _ mv) with
      heq | ⟨hreceived, hlt⟩ | ⟨job, -, hreceived, heq⟩
    · rw [heq]
      exact ih
    · rw [hreceived]
      exact (Nat.le_of_lt hlt).trans ih
    · rw [hreceived, heq, List.length_append, List.length_singleton, Nat.mul_add]
      omega

/-- Steps that do something, one after the other, without a datagram that arrives. -/
def Working (d : Dispatcher) : List Dispatch.Move → Prop
  | [] => True
  | mv :: rest => (∀ job, mv ≠ .datagram job) ∧ d.move mv ≠ d ∧ Working (d.move mv) rest

theorem working_length (hinv : Inv n d) {steps : List Dispatch.Move} (h : Working d steps) :
    steps.length ≤ stepsLeft n d ∧ (d.run steps).received = d.received := by
  induction steps generalizing d with
  | nil => exact ⟨Nat.zero_le _, rfl⟩
  | cons mv rest ih =>
    obtain ⟨hother, hmoved, hrest⟩ := h
    have heffect := move_effect d mv
    obtain ⟨hlen, hreceived⟩ := ih (hinv.effect heffect) hrest
    rcases stepsLeft_effect hinv heffect with heq | ⟨hsame, hlt⟩ | ⟨job, hmv, -⟩
    · exact absurd heq hmoved
    · refine ⟨?_, hreceived.trans hsame⟩
      rw [List.length_cons]
      omega
    · exact absurd hmv (hother job)

/-- **Where nothing is left to do**, the loop receives, and the workers are idle. -/
theorem idle_of_stuck (hinv : Inv n d) (hoffer : d.move .offer = d) (hsend : d.move .send = d)
    (htake : ∀ w, d.move (.take w) = d) (hfinish : ∀ w, d.move (.finish w) = d) :
    d.phase = .receiving ∧ ∀ w ∈ d.workers, w.queue = [] ∧ w.handling = none := by
  have hidle : ∀ w ∈ d.workers, w.queue = [] ∧ w.handling = none := by
    intro worker hworker
    obtain ⟨w, hw⟩ := List.mem_iff_getElem?.mp hworker
    obtain ⟨queue, handling, handled, closed⟩ := worker
    cases closed with
    | true => exact (hinv.each _ hworker).closed rfl
    | false =>
      cases handling with
      | some job =>
        have hsame := hfinish w
        simp only [Dispatcher.move, hw] at hsame
        have hset := congrArg (fun d => d.workers[w]?) hsame
        simp [List.getElem?_set_self (List.getElem?_eq_some_iff.mp hw).1, hw] at hset
      | none =>
        cases queue with
        | nil => exact ⟨rfl, rfl⟩
        | cons job queue =>
          have hsame := htake w
          simp only [Dispatcher.move, hw] at hsame
          have hset := congrArg (fun d => d.workers[w]?) hsame
          simp [List.getElem?_set_self (List.getElem?_eq_some_iff.mp hw).1, hw] at hset
  refine ⟨?_, hidle⟩
  have hpos : 0 < d.workers.length := by
    rw [hinv.size]
    exact Nat.lt_of_le_of_lt (Nat.zero_le _) hinv.idx
  have hfound : ∀ i, ∃ worker, d.workers[i % d.workers.length]? = some worker :=
    fun i => ⟨_, List.getElem?_eq_getElem (Nat.mod_lt i hpos)⟩
  cases hphase : d.phase with
  | receiving => rfl
  | offering job base i =>
    obtain ⟨worker, hw⟩ := hfound (base + i)
    simp only [Dispatcher.move, hphase, hw] at hoffer
    split at hoffer
    · cases (congrArg Dispatcher.phase hoffer).trans hphase
    · split at hoffer
      · have hnext := (congrArg Dispatcher.phase hoffer).trans hphase
        simp at hnext
      · cases (congrArg Dispatcher.phase hoffer).trans hphase
  | sending job base =>
    obtain ⟨worker, hw⟩ := hfound base
    simp only [Dispatcher.move, hphase, hw] at hsend
    split at hsend
    · cases (congrArg Dispatcher.phase hsend).trans hphase
    · rename_i hopen
      split at hsend
      · -- A full queue is not empty.
        rename_i hfull
        have hempty := (hidle worker (List.mem_of_getElem? hw)).1
        simp [Worker.refuses, hopen, hempty, workerQueueDepth] at hfull
      · cases (congrArg Dispatcher.phase hsend).trans hphase

/-- **Every datagram is handled.** When nothing arrives any more, no order of steps takes more
than `n + 3` of them for each datagram received; and where the loop and the workers have nothing
left to do, what was received has been handled, but for what a worker lost that is gone. -/
theorem datagrams_handled {n : Nat} (hn : 0 < n) (moves steps : List Dispatch.Move)
    (hworking : Working ((Dispatcher.new n).run moves) steps) :
    let d := (Dispatcher.new n).run (moves ++ steps)
    steps.length ≤ (n + 3) * d.received.length ∧ LostWithWorkers n (moves ++ steps) ∧
    (d.move .offer = d → d.move .send = d → (∀ w, d.move (.take w) = d) →
      (∀ w, d.move (.finish w) = d) →
      d.received.Perm (d.workers.flatMap Worker.handled ++ d.lost)) := by
  intro d
  have hrun : d = ((Dispatcher.new n).run moves).run steps := Dispatcher.run_append _ moves steps
  have hinv : Inv n d := inv_run hn _
  refine ⟨?_, lostWithWorkers n _, ?_⟩
  · obtain ⟨hlen, hreceived⟩ := working_length (inv_run hn moves) hworking
    rw [hrun, hreceived]
    exact hlen.trans (stepsLeft_run hn moves)
  · intro hoffer hsend htake hfinish
    obtain ⟨hphase, hidle⟩ := idle_of_stuck hinv hoffer hsend htake hfinish
    have hperm := received_perm hinv
    have hgiven : d.workers.flatMap Worker.given = d.workers.flatMap Worker.handled := by
      rw [List.flatMap_def, List.flatMap_def]
      congr 1
      refine List.map_congr_left fun w hw => ?_
      obtain ⟨hqueue, hhandling⟩ := hidle w hw
      rw [Worker.given, hqueue, hhandling, Option.toList_none, List.append_nil, List.append_nil]
    rw [hgiven, hphase] at hperm
    exact hperm

/-- Datagrams for two workers that take none of them. -/
def filling : Nat → List Dispatch.Move
  | 0 => []
  | k + 1 => filling k ++ [.datagram (jobFrom (.ofNat (2 * k))), .offer,
      .datagram (jobFrom (.ofNat (2 * k + 1))), .offer]

def evens (k : Nat) : List Job := (List.range k).map fun i => jobFrom (.ofNat (2 * i))

def odds (k : Nat) : List Job := (List.range k).map fun i => jobFrom (.ofNat (2 * i + 1))

def both (k : Nat) : List Job :=
  (List.range k).flatMap fun i => [jobFrom (.ofNat (2 * i)), jobFrom (.ofNat (2 * i + 1))]

theorem run_filling {k : Nat} (hk : k ≤ workerQueueDepth) :
    (Dispatcher.new 2).run (filling k) =
      ⟨[⟨evens k, none, [], false⟩, ⟨odds k, none, [], false⟩], 0, .receiving, both k, []⟩ := by
  induction k with
  | zero => rfl
  | succ k ih =>
    rw [filling, Dispatcher.run_append, ih (Nat.le_of_succ_le hk)]
    simp [Dispatcher.run, Dispatcher.move, Dispatcher.give, Worker.refuses, Worker.push, evens,
      odds, both, List.range_succ, Nat.not_le.mpr hk]

/-- The second worker handles all it has. -/
def draining (queue : List Job) : List Dispatch.Move := queue.flatMap fun _ => [.take 1, .finish 1]

theorem run_draining (w₀ : Worker) (idx : Nat) (received lost queue : List Job) :
    ∀ handled,
      let d : Dispatcher :=
        ⟨[w₀, ⟨queue, none, handled, false⟩], idx, .receiving, received, lost⟩
      Working d (draining queue) ∧ d.run (draining queue) =
        ⟨[w₀, ⟨[], none, handled ++ queue, false⟩], idx, .receiving, received, lost⟩ := by
  induction queue with
  | nil => exact fun handled => ⟨trivial, by simp [draining, Dispatcher.run]⟩
  | cons job queue ih =>
    intro handled
    obtain ⟨hworking, hrun⟩ := ih (handled ++ [job])
    refine ⟨⟨fun _ h => Dispatch.Move.noConfusion h, by simp [Dispatcher.move],
      fun _ h => Dispatch.Move.noConfusion h, by simp [Dispatcher.move], hworking⟩, ?_⟩
    exact hrun.trans (by rw [List.append_assoc]; rfl)

/-- Both queues are full, and one more datagram has to wait until the first worker takes one.
The handler of this worker panics. -/
def overflow (job : Job) : List Dispatch.Move :=
  [.datagram job, .offer, .offer, .send, .take 0, .send, .crash 0]

theorem run_overflow {job last : Job} {queue queue' received : List Job}
    (hfull : (job :: queue).length = workerQueueDepth) (hfull' : queue'.length = workerQueueDepth) :
    Dispatcher.run ⟨[⟨job :: queue, none, [], false⟩, ⟨queue', none, [], false⟩], 0, .receiving,
        received, []⟩ (overflow last) =
      ⟨[⟨[], none, [], true⟩, ⟨queue', none, [], false⟩], 1, .receiving, received ++ [last],
        job :: queue ++ [last]⟩ := by
  have hroom : ¬ workerQueueDepth ≤ queue.length := by
    rw [← hfull, List.length_cons]
    omega
  rw [List.length_cons] at hfull
  simp [overflow, Dispatcher.run, Dispatcher.move, Dispatcher.give, Worker.refuses, Worker.push,
    hfull, hfull', hroom]

theorem evens_eq : evens workerQueueDepth = jobFrom 0 :: (evens workerQueueDepth).tail := by
  rfl

theorem datagrams_handled_backlog :
    (both workerQueueDepth ++ [jobFrom 512]).Perm
      (odds workerQueueDepth ++ (evens workerQueueDepth ++ [jobFrom 512])) := by
  have hrun : (Dispatcher.new 2).run (filling workerQueueDepth ++ overflow (jobFrom 512)) =
      ⟨[⟨[], none, [], true⟩, ⟨odds workerQueueDepth, none, [], false⟩], 1, .receiving,
        both workerQueueDepth ++ [jobFrom 512], evens workerQueueDepth ++ [jobFrom 512]⟩ := by
    rw [Dispatcher.run_append, run_filling (Nat.le_refl _), evens_eq]
    exact run_overflow (by simp [evens, workerQueueDepth]) (by simp [odds])
  obtain ⟨hworking, hdrained⟩ := run_draining ⟨[], none, [], true⟩ 1
    (both workerQueueDepth ++ [jobFrom 512]) (evens workerQueueDepth ++ [jobFrom 512])
    (odds workerQueueDepth) []
  obtain ⟨-, -, hdone⟩ := datagrams_handled Nat.two_pos
    (filling workerQueueDepth ++ overflow (jobFrom 512)) (draining (odds workerQueueDepth))
    (by rw [hrun]; exact hworking)
  rw [Dispatcher.run_append, hrun, hdrained] at hdone
  have hperm := hdone rfl rfl ?_ ?_
  · simpa using hperm
  · intro w
    rcases w with _ | _ | w <;> rfl
  · intro w
    rcases w with _ | _ | w <;> rfl

end Dispatch

end AuthKademlia.Properties
