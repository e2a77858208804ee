import AuthKademlia.Lib.Holdings
import AuthKademlia.Protocol.Effects

/-! # The receive loop and its workers

`listen` starts a task that receives datagrams and a number of workers that handle them, each
with a queue of its own. The loop offers a datagram to the workers in turn, beginning after the
one that took the last, and waits for the first of them if no queue has room. The workers take
datagrams from their queues in between. A worker whose handler panics is gone, and its queue
with it. -/
namespace AuthKademlia.Network.Dispatch
open AuthKademlia.Lib.Holdings AuthKademlia.Protocol AuthKademlia.Utils

def workerQueueDepth : Nat := 256

/-- A datagram and where it came from. -/
abbrev Job := Bytes × Addr

structure Worker where
  queue : List Job
  handling : Option Job
  /-- What it has handled so far. -/
  handled : List Job
  closed : Bool
  deriving DecidableEq

namespace Worker

def new : Worker := ⟨[], none, [], false⟩

/-- Does `try_send` return the datagram? -/
def refuses (w : Worker) : Bool := w.closed || workerQueueDepth ≤ w.queue.length

def push (w : Worker) (job : Job) : Worker := { w with queue := w.queue ++ [job] }

/-- Everything the worker has been given, the oldest first. -/
def given (w : Worker) : List Job := w.handled ++ w.handling.toList ++ w.queue

end Worker

inductive Phase where
  | receiving
  /-- `try_send` to the `i`-th worker from `base` on. -/
  | offering (job : Job) (base i : Nat)
  /-- `send` to the worker `base`, which waits for room. -/
  | sending (job : Job) (base : Nat)
  deriving DecidableEq

/-- The datagram that the loop holds. -/
def Phase.jobs : Phase → List Job
  | .receiving => []
  | .offering job _ _ | .sending job _ => [job]

structure Dispatcher where
  workers : List Worker
  idx : Nat
  phase : Phase
  received : List Job
  lost : List Job
  deriving DecidableEq

inductive Move where
  /-- `recv_from` returns. -/
  | datagram (job : Job)
  | offer
  | send
  /-- A worker takes the next datagram of its queue, and has handled it. -/
  | take (w : Nat)
  | finish (w : Nat)
  /-- The handler panics. -/
  | crash (w : Nat)

namespace Dispatcher

def new (numWorkers : Nat) : Dispatcher := ⟨List.replicate numWorkers .new, 0, .receiving, [], []⟩

/-- Worker `w` takes the datagram from the loop. -/
def give (d : Dispatcher) (w : Nat) (worker : Worker) (job : Job) : Dispatcher :=
  { d with
    workers := d.workers.set w (worker.push job), idx := (w + 1) % d.workers.length
    phase := .receiving }

/-- A move that is not possible changes nothing. -/
def move (d : Dispatcher) : Move → Dispatcher
  | .datagram job =>
    match d.phase with
    | .receiving => { d with phase := .offering job d.idx 0, received := d.received ++ [job] }
    | _ => d
  | .offer =>
    match d.phase with
    | .offering job base i =>
      let w := (base + i) % d.workers.length
      match d.workers[w]? with
      | none => d
      | some worker =>
        if !worker.refuses then d.give w worker job
        else if i + 1 < d.workers.length then { d with phase := .offering job base (i + 1) }
        else { d with phase := .sending job base }
    | _ => d
  | .send =>
    match d.phase with
    | .sending job base =>
      let w := base % d.workers.length
      match d.workers[w]? with
      | none => d
      | some worker =>
        if worker.closed then
          { d with
            idx := (w + 1) % d.workers.length, phase := .receiving, lost := d.lost ++ [job] }
        else if worker.refuses then d
        else d.give w worker job
    | _ => d
  | .take w =>
    match d.workers[w]? with
    | some ⟨job :: queue, none, handled, false⟩ =>
      { d with workers := d.workers.set w ⟨queue, some job, handled, false⟩ }
    | _ => d
  | .finish w =>
    match d.workers[w]? with
    | some ⟨queue, some job, handled, false⟩ =>
      { d with workers := d.workers.set w ⟨queue, none, handled ++ [job], false⟩ }
    | _ => d
  | .crash w =>
    match d.workers[w]? with
    | some ⟨queue, some job, handled, false⟩ =>
      { d with
        workers := d.workers.set w ⟨[], none, handled, true⟩, lost := d.lost ++ job :: queue }
    | _ => d

def run (d : Dispatcher) (moves : List Move) : Dispatcher := moves.foldl move d

theorem run_append (d : Dispatcher) (moves steps : List Move) :
    d.run (moves ++ steps) = (d.run moves).run steps := List.foldl_append

end Dispatcher

/-! ## What a move does -/

variable {d d' : Dispatcher} {mv : Move}

inductive Effect (d : Dispatcher) : Move → Dispatcher → Prop
  | none (mv : Move) : Effect d mv d
  | datagram (job : Job) (free : d.phase = .receiving) :
      Effect d (.datagram job)
        { d with phase := .offering job d.idx 0, received := d.received ++ [job] }
  | refused {job : Job} {base i : Nat} {worker : Worker} (offering : d.phase = .offering job base i)
      (found : d.workers[(base + i) % d.workers.length]? = some worker)
      (refuses : worker.refuses = true) (more : i + 1 < d.workers.length) :
      Effect d .offer { d with phase := .offering job base (i + 1) }
  | allRefused {job : Job} {base i : Nat} {worker : Worker}
      (offering : d.phase = .offering job base i)
      (found : d.workers[(base + i) % d.workers.length]? = some worker)
      (refuses : worker.refuses = true) :
      Effect d .offer { d with phase := .sending job base }
  | given {w : Nat} {worker : Worker} {job : Job} (mv : Move) (holds : d.phase.jobs = [job])
      (found : d.workers[w]? = some worker) (room : worker.refuses = false)
      (first : ∀ base, d.phase = .offering job base 0 → w = base % d.workers.length) :
      Effect d mv (d.give w worker job)
  | dropped {job : Job} {base : Nat} {worker : Worker} (sending : d.phase = .sending job base)
      (found : d.workers[base % d.workers.length]? = some worker) (closed : worker.closed = true) :
      Effect d .send
        { d with
          idx := (base % d.workers.length + 1) % d.workers.length, phase := .receiving
          lost := d.lost ++ [job] }
  | taken {w : Nat} {job : Job} {queue handled : List Job}
      (found : d.workers[w]? = some ⟨job :: queue, .none, handled, false⟩) :
      Effect d (.take w) { d with workers := d.workers.set w ⟨queue, some job, handled, false⟩ }
  | finished {w : Nat} {job : Job} {queue handled : List Job}
      (found : d.workers[w]? = some ⟨queue, some job, handled, false⟩) :
      Effect d (.finish w)
        { d with workers := d.workers.set w ⟨queue, .none, handled ++ [job], false⟩ }
  | crashed {w : Nat} {job : Job} {queue handled : List Job}
      (found : d.workers[w]? = some ⟨queue, some job, handled, false⟩) :
      Effect d (.crash w)
        { d with
          workers := d.workers.set w ⟨[], .none, handled, true⟩, lost := d.lost ++ job :: queue }

theorem move_effect (d : Dispatcher) (mv : Move) : Effect d mv (d.move mv) := by
  cases mv with
  | datagram job =>
    simp only [Dispatcher.move]
    split
    · rename_i hphase
      exact .datagram job hphase
    · exact .none _
  | offer =>
    simp only [Dispatcher.move]
    split
    · rename_i job base i hphase
      split
      · exact .none _
      · rename_i worker hworker
        split
        · rename_i hroom
          refine .given _ (by rw [hphase]; rfl) hworker (by simpa using hroom) ?_
          intro base' hbase
          rw [hphase] at hbase
          cases hbase
          rfl
        · rename_i hrefuses
          have hrefuses : worker.refuses = true := by simpa using hrefuses
          split
          · rename_i hmore
            exact .refused hphase hworker hrefuses hmore
          · exact .allRefused hphase hworker hrefuses
    · exact .none _
  | send =>
    simp only [Dispatcher.move]
    split
    · rename_i job base hphase
      split
      · exact .none _
      · rename_i worker hworker
        split
        · rename_i hclosed
          exact .dropped hphase hworker hclosed
        · split
          · exact .none _
          · rename_i hroom
            refine .given _ (by rw [hphase]; rfl) hworker (by simpa using hroom) ?_
            intro base' hbase
            rw [hphase] at hbase
            cases hbase
    · exact .none _
  | take w =>
    simp only [Dispatcher.move]
    split
    · rename_i hworker
      exact .taken hworker
    · exact .none _
  | finish w =>
    simp only [Dispatcher.move]
    split
    · rename_i hworker
      exact .finished hworker
    · exact .none _
  | crash w =>
    simp only [Dispatcher.move]
    split
    · rename_i hworker
      exact .crashed hworker
    · exact .none _

/-! ## No datagram goes astray -/

/-- Whether the worker is gone, as a number. -/
def Worker.gone (w : Worker) : Nat := if w.closed then 1 else 0

structure Worker.Ok (w : Worker) (received held : List Job) : Prop where
  room : w.queue.length ≤ workerQueueDepth
  order : (w.given ++ held).Sublist received
  closed : w.closed = true → w.queue = [] ∧ w.handling = none

/-- **Every datagram is with one worker, with the loop or lost**, as often as it was received. -/
structure Inv (n : Nat) (d : Dispatcher) : Prop where
  size : d.workers.length = n
  idx : d.idx < n
  offering : ∀ job base i, d.phase = .offering job base i → i < n
  each : ∀ w ∈ d.workers, w.Ok d.received d.phase.jobs
  counted : ∀ job, d.received.count job =
    held (fun w => w.given.count job) d.workers + (d.phase.jobs ++ d.lost).count job
  lost : d.lost ≠ [] → 0 < held Worker.gone d.workers

section Inv

variable {n w : Nat} {worker worker' : Worker} {job : Job} {queue handled : List Job}

theorem inv_new (hn : 0 < n) : Inv n (.new n) where
  size := List.length_replicate
  idx := hn
  offering := fun _ _ _ h => Phase.noConfusion h
  each := by
    intro w hw
    rw [List.eq_of_mem_replicate hw]
    exact ⟨Nat.zero_le _, List.Sublist.refl _, fun h => Bool.noConfusion h⟩
  counted := by
    intro job
    rw [held_eq_zero]
    · rfl
    · intro w hw
      rw [List.eq_of_mem_replicate hw]
      rfl
  lost := fun h => absurd rfl h

theorem each_set {received held held' : List Job} {workers : List Worker}
    (h : ∀ w ∈ workers, w.Ok received held) (hsub : held'.Sublist held)
    (hw : worker'.Ok received held') : ∀ w ∈ workers.set i worker', w.Ok received held' := by
  intro x hx
  rcases List.mem_or_eq_of_mem_set hx with hold | rfl
  · have hok := h x hold
    exact ⟨hok.room, (hsub.append_left x.given).trans hok.order, hok.closed⟩
  · exact hw

theorem given_push (worker : Worker) (job : Job) :
    (worker.push job).given = worker.given ++ [job] := by
  simp only [Worker.given, Worker.push, List.append_assoc]

theorem refuses_false (h : worker.refuses = false) :
    worker.closed = false ∧ worker.queue.length < workerQueueDepth := by
  simpa [Worker.refuses] using h

theorem Inv.give (h : Inv n d) (holds : d.phase.jobs = [job]) (found : d.workers[w]? = some worker)
    (room : worker.refuses = false) : Inv n (d.give w worker job) := by
  obtain ⟨hopen, hroom⟩ := refuses_false room
  have hok := h.each worker (List.mem_of_getElem? found)
  have horder := hok.order
  rw [holds] at horder
  refine ⟨?_, ?_, fun _ _ _ he => Phase.noConfusion he, ?_, ?_, ?_⟩
  · show (d.workers.set w _).length = n
    rw [List.length_set]
    exact h.size
  · show (w + 1) % d.workers.length < n
    rw [h.size]
    exact Nat.mod_lt _ (Nat.lt_of_le_of_lt (Nat.zero_le _) h.idx)
  · refine each_set h.each (List.nil_sublist _) ⟨?_, ?_, ?_⟩
    · simp only [Worker.push, List.length_append, List.length_singleton]
      exact hroom
    · rw [given_push]
      exact (List.append_nil _).symm ▸ horder
    · intro hclosed
      rw [show (worker.push job).closed = worker.closed from rfl, hopen] at hclosed
      cases hclosed
  · intro job'
    have hset := held_set (w := fun w => w.given.count job') found (worker.push job)
    have hall := h.counted job'
    rw [holds] at hall
    simp only [given_push, List.count_append] at hset hall
    simp only [Dispatcher.give, Phase.jobs, List.nil_append]
    omega
  · intro hlost
    have hgone := h.lost hlost
    have hset := held_set (w := Worker.gone) found (worker.push job)
    rw [show (worker.push job).gone = worker.gone from rfl] at hset
    exact Nat.add_right_cancel hset ▸ hgone

theorem Inv.setWorker (h : Inv n d) (found : d.workers[w]? = some worker)
    (hok : worker'.Ok d.received d.phase.jobs) {rest : List Job}
    (hgiven : worker.given = worker'.given ++ rest) (hgone : worker.gone ≤ worker'.gone)
    (hrest : rest ≠ [] → worker'.gone = 1) :
    Inv n { d with workers := d.workers.set w worker', lost := d.lost ++ rest } := by
  have hgone' := held_set (w := Worker.gone) found worker'
  refine ⟨(List.length_set ..).trans h.size, h.idx, h.offering,
    each_set h.each (List.Sublist.refl _) hok, ?_, ?_⟩
  · intro job
    have hset := held_set (w := fun w => w.given.count job) found worker'
    have hall := h.counted job
    simp only [hgiven, List.count_append] at hset hall ⊢
    omega
  · intro hlost
    by_cases hnil : d.lost = []
    · have hone := hrest fun hr => hlost (by rw [hnil, hr]; rfl)
      have hle := le_held (w := Worker.gone) found
      show 0 < held Worker.gone (d.workers.set w worker')
      omega
    · have hpos := h.lost hnil
      show 0 < held Worker.gone (d.workers.set w worker')
      omega

theorem Inv.goOn (h : Inv n d) (found : d.workers[w]? = some worker)
    (hok : worker'.Ok d.received d.phase.jobs) (hgiven : worker.given = worker'.given)
    (hgone : worker.gone ≤ worker'.gone) :
    Inv n { d with workers := d.workers.set w worker' } := by
  have hinv := h.setWorker found hok (hgiven.trans (List.append_nil _).symm) hgone
    fun hne => absurd rfl hne
  rwa [List.append_nil] at hinv

theorem Inv.rephase (h : Inv n d) {phase : Phase} (hjobs : phase.jobs = d.phase.jobs)
    (hoffering : ∀ job base i, phase = .offering job base i → i < n) :
    Inv n { d with phase } := by
  refine ⟨h.size, h.idx, hoffering, ?_, ?_, h.lost⟩
  · simp only [hjobs]
    exact h.each
  · simp only [hjobs]
    exact h.counted

/-- **Every move keeps the invariant.** -/
theorem Inv.effect (h : Inv n d) (heffect : Effect d mv d') : Inv n d' := by
  have hn : 0 < n := Nat.lt_of_le_of_lt (Nat.zero_le _) h.idx
  cases heffect with
  | none => exact h
  | datagram job free =>
    refine ⟨h.size, h.idx, ?_, ?_, ?_, h.lost⟩
    · intro job' base i he
      cases he
      exact hn
    · intro w hw
      have hok := h.each w hw
      have horder := hok.order
      rw [free] at horder
      exact ⟨hok.room, (List.append_nil w.given ▸ horder).append_right [job], hok.closed⟩
    · intro job'
      have hall := h.counted job'
      rw [free] at hall
      simp only [Phase.jobs, List.count_append, List.nil_append] at hall ⊢
      omega
  | refused offering found refuses more =>
    refine h.rephase (by rw [offering]; rfl) ?_
    intro job' base' i' he
    cases he
    rw [← h.size]
    exact more
  | allRefused offering found refuses =>
    exact h.rephase (by rw [offering]; rfl) fun _ _ _ he => Phase.noConfusion he
  | given _ holds found room => exact h.give holds found room
  | dropped sending found closed =>
    have hle := le_held (w := Worker.gone) found
    rw [Worker.gone, if_pos closed] at hle
    refine ⟨h.size, ?_, fun _ _ _ he => Phase.noConfusion he, ?_, ?_, fun _ => hle⟩
    · show (_ + 1) % d.workers.length < n
      rw [h.size]
      exact Nat.mod_lt _ hn
    · intro w hw
      have hok := h.each w hw
      exact ⟨hok.room, ((List.nil_sublist _).append_left w.given).trans hok.order, hok.closed⟩
    · intro job'
      have hall := h.counted job'
      rw [sending] at hall
      simp only [Phase.jobs, List.count_append, List.nil_append] at hall ⊢
      omega
  | taken found =>
    rename_i w job queue handled
    have hok := h.each _ (List.mem_of_getElem? found)
    have hgiven : Worker.given ⟨job :: queue, .none, handled, false⟩ =
        Worker.given ⟨queue, some job, handled, false⟩ := by simp [Worker.given]
    exact h.goOn found
      ⟨Nat.le_of_succ_le hok.room, hgiven ▸ hok.order, fun hc => Bool.noConfusion hc⟩ hgiven
      (Nat.le_refl _)
  | finished found =>
    rename_i w job queue handled
    have hok := h.each _ (List.mem_of_getElem? found)
    have hgiven : Worker.given ⟨queue, some job, handled, false⟩ =
        Worker.given ⟨queue, .none, handled ++ [job], false⟩ := by simp [Worker.given]
    exact h.goOn found ⟨hok.room, hgiven ▸ hok.order, fun hc => Bool.noConfusion hc⟩ hgiven
      (Nat.le_refl _)
  | crashed found =>
    rename_i w job queue handled
    have hok := h.each _ (List.mem_of_getElem? found)
    have hgiven : Worker.given ⟨queue, some job, handled, false⟩ =
        Worker.given ⟨[], .none, handled, true⟩ ++ (job :: queue) := by simp [Worker.given]
    refine h.setWorker found ⟨Nat.zero_le _, ?_, fun _ => ⟨rfl, rfl⟩⟩ hgiven (Nat.zero_le 1)
      fun _ => rfl
    refine List.Sublist.trans ?_ hok.order
    rw [hgiven]
    exact (List.sublist_append_left _ _).append_right _

theorem run_snoc (d : Dispatcher) (moves : List Move) (mv : Move) :
    d.run (moves ++ [mv]) = (d.run moves).move mv := by
  rw [Dispatcher.run, List.foldl_append]
  rfl

theorem inv_run (hn : 0 < n) (moves : List Move) : Inv n ((Dispatcher.new n).run moves) := by
  induction moves using List.reverseRecOn with
  | nil => exact inv_new hn
  | append_singleton moves mv ih =>
    rw [run_snoc]
    exact ih.effect (move_effect _ mv)

end Inv

end AuthKademlia.Network.Dispatch
