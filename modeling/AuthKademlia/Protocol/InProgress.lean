import AuthKademlia.Lib.Holdings
import AuthKademlia.Protocol.Messages

/-! # Requests being handled

A request that carries a record is marked from when a worker takes it up until its
handler is over, and a STORE that waits for a lookup holds one of a fixed number of
places meanwhile. Both are given back by guards that are dropped on every way out. The
workers share a set and a counter, and take turns between any two accesses to them.

The invariant counts: every mark in the set belongs to one request, and the counter is
the number of places held and of attempts that are about to be taken back. -/
namespace AuthKademlia.Protocol.InProgress
open AuthKademlia.Lib.Holdings AuthKademlia.Utils AuthKademlia.Protocol

def maxStoreLookups : Nat := 256

structure Frame where
  msgId : Nat
  isRequest : Bool
  message : Message
  deriving DecidableEq

/-- `RequestKey`: the sender and the hash of the whole request. -/
abbrev RequestKey : Type := Addr × Bytes

inductive Exit where
  | copied
  | refused
  /-- The task was dropped before it ran. -/
  | neverRun
  | cancelled
  | finished
  deriving DecidableEq

/-- The guards that are still to be dropped on the way out. -/
inductive Guards where
  | mark
  | slot
  | both
  deriving DecidableEq

/-- All guards of a request, with the place if it has one. -/
def Guards.all (slot : Bool) : Guards := if slot then .both else .mark

/-- Where the processing of a request is. From `marked` on it has the guard `in_progress`,
and a STORE that needs a lookup has a `StoreLookupSlot` if `slot` says so. -/
inductive Stage where
  /-- Before `InProgress::start`. -/
  | arrived
  /-- A copy, for which the receipt is sent again. -/
  | copy
  | marked
  /-- In `StoreLookupSlot::take`, before `fetch_add`. -/
  | taking
  /-- `fetch_add` found no place; `fetch_sub` comes next. -/
  | overshot
  | receipt (slot : Bool)
  | acknowledged (slot : Bool)
  /-- The task is spawned and has not run yet. -/
  | queued
  /-- In `dispatch_request`. -/
  | handling (slot : Bool)
  | answering (slot : Bool) (response : Option Message)
  /-- The guards are dropped, one after the other. -/
  | leaving (guards : Guards) (exit : Exit)
  /-- No worker and no task has anything to do with the request any more. -/
  | ended (exit : Exit)
  deriving DecidableEq

namespace Stage

/-- Is the guard `in_progress` there? -/
def marks : Stage → Bool
  | .arrived | .copy | .leaving .slot _ | .ended _ => false
  | _ => true

def slots : Stage → Nat
  | .receipt slot | .acknowledged slot | .handling slot | .answering slot _ => slot.toNat
  | .queued | .leaving .slot _ | .leaving .both _ => 1
  | _ => 0

/-- What the request has added to the counter. -/
def counts : Stage → Nat
  | .overshot => 1
  | stage => stage.slots

def running : Stage → Bool
  | .handling _ | .answering _ _ => true
  | _ => false

/-- A worker or a task has the request. -/
def processed : Stage → Bool
  | .ended _ => false
  | _ => true

variable {slot : Bool} {exit : Exit}

@[simp] theorem marks_leaving_all : marks (.leaving (.all slot) exit) = true := by
  cases slot <;> rfl

@[simp] theorem slots_leaving_all : slots (.leaving (.all slot) exit) = slot.toNat := by
  cases slot <;> rfl

@[simp] theorem counts_leaving_all : counts (.leaving (.all slot) exit) = slot.toNat :=
  slots_leaving_all

end Stage

/-- A request that a worker took up, and the task it may be handed to. -/
structure Processing where
  peer : Addr
  payload : Bytes
  frame : Frame
  stage : Stage
  /-- What was sent back. -/
  sent : List Message
  /-- Was `dispatch_request` called? -/
  started : Bool
  deriving DecidableEq

/-- What all workers share: `requests_in_progress` and `store_lookups`. -/
structure Shared where
  requestsInProgress : Finset RequestKey
  storeLookups : Nat

/-- The steps of one request. Nothing else comes between the parts of one step. -/
inductive Step where
  /-- `InProgress::start`. -/
  | start
  /-- `store_needs_lookup`, which depends on the storage. -/
  | check (needsLookup : Bool)
  | fetchAdd
  | fetchSub
  /-- A datagram leaves. -/
  | send
  /-- `spawn_task`, which drops the task if the node was stopped. -/
  | spawn (accepted : Bool)
  | begin
  | finish (response : Option Message)
  /-- The future is dropped at an `await`. -/
  | cancel
  | dropMark
  | dropSlot

/-- The steps that drop the guards. -/
def Guards.drops : Guards → List Step
  | .mark => [.dropMark]
  | .slot => [.dropSlot]
  | .both => [.dropMark, .dropSlot]

def isStore : Message → Bool
  | .record (.store _ _ _) => true
  | _ => false

section Model

variable (hashes : Hashes)

def Processing.key (p : Processing) : RequestKey := (p.peer, hashes.sha256 p.payload)

def start (s : Shared) (p : Processing) : Shared × Processing :=
  if p.key hashes ∈ s.requestsInProgress then (s, { p with stage := .copy })
  else ({ s with requestsInProgress := insert (p.key hashes) s.requestsInProgress },
    { p with stage := .marked })

/-- The `fetch_add` of `StoreLookupSlot::take`. -/
def fetchAdd (s : Shared) (p : Processing) : Shared × Processing :=
  ({ s with storeLookups := s.storeLookups + 1 },
    { p with stage := if maxStoreLookups ≤ s.storeLookups then .overshot else .receipt true })

/-- One step of `handle_datagram` for a request that carries a record, if it is possible. -/
def step (s : Shared) (p : Processing) : Step → Option (Shared × Processing)
  | .start => if p.stage = .arrived then some (start hashes s p) else none
  | .check needsLookup =>
    if p.stage = .marked then
      if isStore p.frame.message ∧ needsLookup then some (s, { p with stage := .taking })
      else some (s, { p with stage := .receipt false })
    else none
  | .fetchAdd => if p.stage = .taking then some (fetchAdd s p) else none
  | .fetchSub =>
    if p.stage = .overshot then
      some ({ s with storeLookups := s.storeLookups - 1 },
        { p with stage := .leaving .mark .refused })
    else none
  | .send =>
    match p.stage with
    | .copy =>
      some (s, { p with stage := .ended .copied, sent := p.sent ++ [.received] })
    | .receipt slot =>
      some (s, { p with stage := .acknowledged slot, sent := p.sent ++ [.received] })
    | .answering slot response =>
      some (s, { p with
        stage := .leaving (.all slot) .finished, sent := p.sent ++ response.toList })
    | _ => none
  | .spawn accepted =>
    if p.stage = .acknowledged true then
      if accepted then some (s, { p with stage := .queued })
      else some (s, { p with stage := .leaving .both .neverRun })
    else none
  | .begin =>
    match p.stage with
    | .acknowledged false => some (s, { p with stage := .handling false, started := true })
    | .queued => some (s, { p with stage := .handling true, started := true })
    | _ => none
  | .finish response =>
    match p.stage with
    | .handling slot => some (s, { p with stage := .answering slot response })
    | _ => none
  | .cancel =>
    match p.stage with
    | .copy => some (s, { p with stage := .ended .cancelled })
    -- the await may also end after the receipt has left
    | .receipt slot | .acknowledged slot | .handling slot | .answering slot _ =>
      some (s, { p with stage := .leaving (.all slot) .cancelled })
    | .queued => some (s, { p with stage := .leaving .both .neverRun })
    | _ => none
  | .dropMark =>
    match p.stage with
    | .leaving .both exit =>
      some ({ s with requestsInProgress := s.requestsInProgress.erase (p.key hashes) },
        { p with stage := .leaving .slot exit })
    | .leaving .mark exit =>
      some ({ s with requestsInProgress := s.requestsInProgress.erase (p.key hashes) },
        { p with stage := .ended exit })
    | _ => none
  | .dropSlot =>
    match p.stage with
    | .leaving .both exit =>
      some ({ s with storeLookups := s.storeLookups - 1 }, { p with stage := .leaving .mark exit })
    | .leaving .slot exit =>
      some ({ s with storeLookups := s.storeLookups - 1 }, { p with stage := .ended exit })
    | _ => none

structure Receiver where
  shared : Shared
  /-- All requests so far. -/
  requests : List Processing

def Receiver.new : Receiver := ⟨⟨∅, 0⟩, []⟩

inductive Move where
  /-- A worker has put a message together. -/
  | arrive (peer : Addr) (payload : Bytes)
  | step (i : Nat) (st : Step)

/-- What can happen; a move that is not possible changes nothing. The messages come from
`bincode`, and other messages than requests with a record are handled elsewhere. -/
def Receiver.move (deserialize : Bytes → Option Frame) (r : Receiver) : Move → Receiver
  | .arrive peer payload =>
    match deserialize payload with
    | some frame =>
      if frame.isRequest ∧ (carriedRecord frame.message).isSome then
        { r with requests := r.requests ++ [⟨peer, payload, frame, .arrived, [], false⟩] }
      else r
    | none => r
  | .step i st =>
    match r.requests[i]? with
    | some p =>
      match step hashes r.shared p st with
      | some (s, p') => ⟨s, r.requests.set i p'⟩
      | none => r
    | none => r

def Receiver.after (deserialize : Bytes → Option Frame) (moves : List Move) : Receiver :=
  moves.foldl (Receiver.move hashes deserialize) .new

end Model

variable {hashes : Hashes} {deserialize : Bytes → Option Frame} {s s' : Shared}
  {p p' : Processing} {st : Step} {r : Receiver}

/-! ## What a step changes -/

/-- What a step may do to the request and to what is shared. -/
structure Effect (hashes : Hashes) (s s' : Shared) (p p' : Processing) : Prop where
  past : p'.stage ≠ .arrived
  peer : p'.peer = p.peer
  payload : p'.payload = p.payload
  marks : (p'.stage.marks = p.stage.marks ∧ s'.requestsInProgress = s.requestsInProgress) ∨
    (p.stage.marks = false ∧ p'.stage.marks = true ∧ p.key hashes ∉ s.requestsInProgress ∧
      s'.requestsInProgress = insert (p.key hashes) s.requestsInProgress) ∨
    (p.stage.marks = true ∧ p'.stage.marks = false ∧
      s'.requestsInProgress = s.requestsInProgress.erase (p.key hashes))
  counts : p.stage.counts ≤ s.storeLookups →
    s'.storeLookups + p.stage.counts = s.storeLookups + p'.stage.counts
  slots : p'.stage.slots ≤ p.stage.slots ∨
    s.storeLookups < maxStoreLookups ∧ p'.stage.slots ≤ p.stage.slots + 1

theorem Effect.onwards {stage : Stage} {sent : List Message} {started : Bool} (before : Stage)
    (hstage : p.stage = before) (hmarks : stage.marks = before.marks)
    (hcounts : stage.counts = before.counts) (hslots : stage.slots ≤ before.slots)
    (hpast : stage ≠ .arrived) :
    Effect hashes s s p { p with stage := stage, sent := sent, started := started } := by
  subst hstage
  exact ⟨hpast, rfl, rfl, Or.inl ⟨hmarks, rfl⟩, fun _ => by rw [hcounts], Or.inl hslots⟩

theorem Effect.givesBack {stage : Stage} (before : Stage) (hstage : p.stage = before)
    (hmarks : stage.marks = before.marks) (hcounts : stage.counts + 1 = before.counts)
    (hslots : stage.slots ≤ before.slots) (hpast : stage ≠ .arrived) :
    Effect hashes s { s with storeLookups := s.storeLookups - 1 } p { p with stage := stage } := by
  subst hstage
  refine ⟨hpast, rfl, rfl, Or.inl ⟨hmarks, rfl⟩, fun hle => ?_, Or.inl hslots⟩
  rw [← hcounts] at hle ⊢
  dsimp only
  omega

theorem Effect.leaves {slot : Bool} {exit : Exit} {sent : List Message} (before : Stage)
    (hstage : p.stage = before) (hmarks : before.marks = true)
    (hcounts : before.counts = slot.toNat) (hslots : before.slots = slot.toNat) :
    Effect hashes s s p { p with stage := .leaving (.all slot) exit, sent := sent } :=
  .onwards before hstage (by rw [hmarks, Stage.marks_leaving_all])
    (by rw [hcounts, Stage.counts_leaving_all]) (by rw [hslots, Stage.slots_leaving_all])
    Stage.noConfusion

theorem Effect.unmarks {stage : Stage} (before : Stage) (hstage : p.stage = before)
    (hmarks : before.marks = true) (hunmarked : stage.marks = false)
    (hcounts : stage.counts = before.counts) (hslots : stage.slots = before.slots)
    (hpast : stage ≠ .arrived) :
    Effect hashes s { s with requestsInProgress := s.requestsInProgress.erase (p.key hashes) } p
      { p with stage := stage } := by
  subst hstage
  exact ⟨hpast, rfl, rfl, Or.inr (Or.inr ⟨hmarks, hunmarked, rfl⟩), fun _ => by rw [hcounts],
    Or.inl hslots.le⟩

theorem effect_start (h : p.stage = .arrived) (heq : start hashes s p = (s', p')) :
    Effect hashes s s' p p' := by
  unfold start at heq
  split at heq
  · cases heq
    exact .onwards .arrived h rfl rfl (Nat.le_refl 0) Stage.noConfusion
  · rename_i hnew
    cases heq
    refine ⟨Stage.noConfusion, rfl, rfl, Or.inr (Or.inl ⟨by rw [h]; rfl, rfl, hnew, rfl⟩),
      fun _ => by rw [h]; rfl, Or.inl (Nat.zero_le _)⟩

theorem effect_fetchAdd (h : p.stage = .taking) (heq : fetchAdd s p = (s', p')) :
    Effect hashes s s' p p' := by
  unfold fetchAdd at heq
  split at heq
  · cases heq
    exact ⟨Stage.noConfusion, rfl, rfl, Or.inl ⟨by rw [h]; rfl, rfl⟩, fun _ => by rw [h]; rfl,
      Or.inl (Nat.zero_le _)⟩
  · rename_i hroom
    cases heq
    refine ⟨Stage.noConfusion, rfl, rfl, Or.inl ⟨by rw [h]; rfl, rfl⟩, fun _ => by rw [h]; rfl,
      Or.inr ⟨?_, ?_⟩⟩
    · exact Nat.lt_of_not_le hroom
    · rw [h]
      exact Nat.le_refl 1

/-- **What a step changes.** -/
theorem step_effect (h : step hashes s p st = some (s', p')) : Effect hashes s s' p p' := by
  cases st with
  | start =>
    obtain ⟨hstage, h⟩ := Option.ite_none_right_eq_some.mp h
    exact effect_start hstage (Option.some.inj h)
  | check needsLookup =>
    obtain ⟨hstage, h⟩ := Option.ite_none_right_eq_some.mp h
    split at h
    all_goals
      cases h
      exact .onwards .marked hstage rfl rfl (Nat.le_refl 0) Stage.noConfusion
  | fetchAdd =>
    obtain ⟨hstage, h⟩ := Option.ite_none_right_eq_some.mp h
    exact effect_fetchAdd hstage (Option.some.inj h)
  | fetchSub =>
    obtain ⟨hstage, h⟩ := Option.ite_none_right_eq_some.mp h
    cases h
    exact .givesBack .overshot hstage rfl rfl (Nat.le_refl 0) Stage.noConfusion
  | send =>
    unfold step at h
    dsimp only at h
    split at h
    · cases h
      exact .onwards .copy ‹_› rfl rfl (Nat.le_refl 0) Stage.noConfusion
    · cases h
      exact .onwards (.receipt _) ‹_› rfl rfl (Nat.le_refl _) Stage.noConfusion
    · cases h
      exact .leaves (.answering _ _) ‹_› rfl rfl rfl
    · cases h
  | spawn accepted =>
    obtain ⟨hstage, h⟩ := Option.ite_none_right_eq_some.mp h
    split at h
    all_goals
      cases h
      exact .onwards (.acknowledged true) hstage rfl rfl (Nat.le_refl 1) Stage.noConfusion
  | begin =>
    unfold step at h
    dsimp only at h
    split at h
    · cases h
      exact .onwards (.acknowledged false) ‹_› rfl rfl (Nat.le_refl 0) Stage.noConfusion
    · cases h
      exact .onwards .queued ‹_› rfl rfl (Nat.le_refl 1) Stage.noConfusion
    · cases h
  | finish response =>
    unfold step at h
    dsimp only at h
    split at h
    · cases h
      exact .onwards (.handling _) ‹_› rfl rfl (Nat.le_refl _) Stage.noConfusion
    · cases h
  | cancel =>
    unfold step at h
    dsimp only at h
    split at h
    · cases h
      exact .onwards .copy ‹_› rfl rfl (Nat.le_refl 0) Stage.noConfusion
    · cases h
      exact .leaves (.receipt _) ‹_› rfl rfl rfl
    · cases h
      exact .leaves (.acknowledged _) ‹_› rfl rfl rfl
    · cases h
      exact .leaves (.handling _) ‹_› rfl rfl rfl
    · cases h
      exact .leaves (.answering _ _) ‹_› rfl rfl rfl
    · cases h
      exact .onwards .queued ‹_› rfl rfl (Nat.le_refl 1) Stage.noConfusion
    · cases h
  | dropMark =>
    unfold step at h
    dsimp only at h
    split at h
    · cases h
      exact .unmarks (.leaving .both _) ‹_› rfl rfl rfl rfl Stage.noConfusion
    · cases h
      exact .unmarks (.leaving .mark _) ‹_› rfl rfl rfl rfl Stage.noConfusion
    · cases h
  | dropSlot =>
    unfold step at h
    dsimp only at h
    split at h
    · cases h
      exact .givesBack (.leaving .both _) ‹_› rfl rfl (Nat.zero_le 1) Stage.noConfusion
    · cases h
      exact .givesBack (.leaving .slot _) ‹_› rfl rfl (Nat.zero_le 1) Stage.noConfusion
    · cases h

theorem dropMark_leaving {exit : Exit} (s : Shared) (h : p.stage = .leaving .mark exit) :
    step hashes s p .dropMark = some
      ({ s with requestsInProgress := s.requestsInProgress.erase (p.key hashes) },
        { p with stage := .ended exit }) := by
  simp only [step, h]

theorem dropMark_both {exit : Exit} (s : Shared) (h : p.stage = .leaving .both exit) :
    step hashes s p .dropMark = some
      ({ s with requestsInProgress := s.requestsInProgress.erase (p.key hashes) },
        { p with stage := .leaving .slot exit }) := by
  simp only [step, h]

theorem dropSlot_leaving {exit : Exit} (s : Shared) (h : p.stage = .leaving .slot exit) :
    step hashes s p .dropSlot =
      some ({ s with storeLookups := s.storeLookups - 1 }, { p with stage := .ended exit }) := by
  simp only [step, h]

theorem exists_step (hashes : Hashes) (s : Shared) (h : p.stage.processed = true) :
    ∃ st, (step hashes s p st).isSome = true := by
  cases hstage : p.stage with
  | arrived => exact ⟨.start, by simp [step, hstage]⟩
  | marked => exact ⟨.check false, by simp [step, hstage]⟩
  | taking => exact ⟨.fetchAdd, by simp [step, hstage]⟩
  | overshot => exact ⟨.fetchSub, by simp [step, hstage]⟩
  | copy | receipt | answering => exact ⟨.send, by simp [step, hstage]⟩
  | acknowledged slot =>
    cases slot with
    | false => exact ⟨.begin, by simp [step, hstage]⟩
    | true => exact ⟨.spawn true, by simp [step, hstage]⟩
  | queued => exact ⟨.begin, by simp [step, hstage]⟩
  | handling slot => exact ⟨.finish none, by simp [step, hstage]⟩
  | leaving guards exit =>
    cases guards with
    | mark | both => exact ⟨.dropMark, by simp [step, hstage]⟩
    | slot => exact ⟨.dropSlot, by simp [step, hstage]⟩
  | ended exit =>
    rw [hstage] at h
    cases h

/-! ## The invariant -/

/-- The marks that a request has under a key. -/
def markOf (hashes : Hashes) (key : RequestKey) (p : Processing) : Nat :=
  if p.key hashes = key then p.stage.marks.toNat else 0

/-- The marks in the set under a key. -/
def markIn (key : RequestKey) (s : Shared) : Nat := if key ∈ s.requestsInProgress then 1 else 0

/-- **Everything that is taken is accounted for.** -/
structure Accounted (hashes : Hashes) (r : Receiver) : Prop where
  marks : ∀ key, held (markOf hashes key) r.requests = markIn key r.shared
  lookups : held (fun p => p.stage.counts) r.requests = r.shared.storeLookups
  slots : held (fun p => p.stage.slots) r.requests ≤ maxStoreLookups

theorem slots_le_counts (stage : Stage) : stage.slots ≤ stage.counts := by
  cases stage with
  | overshot => exact Nat.zero_le 1
  | arrived | copy | marked | taking | receipt | acknowledged | queued | handling | answering
  | leaving | ended => exact Nat.le_refl _

theorem held_slots_le (requests : List Processing) :
    held (fun p => p.stage.slots) requests ≤ held (fun p => p.stage.counts) requests := by
  induction requests with
  | nil => exact Nat.le_refl 0
  | cons p requests ih =>
    rw [held_cons, held_cons]
    exact Nat.add_le_add (slots_le_counts p.stage) ih

theorem markIn_of_mem {key : RequestKey} (h : key ∈ s.requestsInProgress) : markIn key s = 1 :=
  if_pos h

theorem markIn_of_not_mem {key : RequestKey} (h : key ∉ s.requestsInProgress) : markIn key s = 0 :=
  if_neg h

theorem Effect.markIn_step (h : Effect hashes s s' p p') (key : RequestKey)
    (hle : markOf hashes key p ≤ markIn key s) :
    markIn key s' + markOf hashes key p = markIn key s + markOf hashes key p' := by
  have hkey : p'.key hashes = p.key hashes := by
    unfold Processing.key
    rw [h.peer, h.payload]
  unfold markOf at hle ⊢
  rw [hkey]
  by_cases heq : p.key hashes = key
  · subst heq
    rw [if_pos rfl] at hle ⊢
    rw [if_pos rfl]
    rcases h.marks with ⟨hsame, hset⟩ | ⟨hno, hyes, hnew, hset⟩ | ⟨hyes, hno, hset⟩
    · rw [hsame, markIn, markIn, hset]
    · rw [hno, hyes, markIn_of_not_mem hnew, markIn_of_mem]
      · rfl
      · rw [hset]
        exact Finset.mem_insert_self (p.key hashes) s.requestsInProgress
    · have hin : p.key hashes ∈ s.requestsInProgress := by
        by_contra hout
        rw [hyes, markIn_of_not_mem hout] at hle
        exact absurd hle (by decide)
      rw [hno, hyes, markIn_of_mem hin, markIn_of_not_mem]
      · rfl
      · rw [hset]
        exact Finset.notMem_erase (p.key hashes) s.requestsInProgress
  · -- other keys are left alone
    have hset : key ∈ s'.requestsInProgress ↔ key ∈ s.requestsInProgress := by
      rcases h.marks with ⟨-, hset⟩ | ⟨-, -, -, hset⟩ | ⟨-, -, hset⟩
      · rw [hset]
      · rw [hset, Finset.mem_insert, or_iff_right (Ne.symm heq)]
      · rw [hset, Finset.mem_erase, and_iff_right (Ne.symm heq)]
    rw [if_neg heq, if_neg heq, markIn, markIn]
    simp only [hset]

theorem accounted_new (hashes : Hashes) : Accounted hashes .new :=
  ⟨fun _ => rfl, rfl, Nat.zero_le _⟩

theorem Accounted.step (h : Accounted hashes r) {i : Nat} (hi : r.requests[i]? = some p)
    (heffect : Effect hashes r.shared s' p p') : Accounted hashes ⟨s', r.requests.set i p'⟩ where
  marks := by
    intro key
    have hle := le_held (w := markOf hashes key) hi
    have hset := held_set (w := markOf hashes key) hi p'
    rw [h.marks] at hle hset
    have hmarks := heffect.markIn_step key hle
    show held (markOf hashes key) (r.requests.set i p') = markIn key s'
    omega
  lookups := by
    have hle := le_held (w := fun p => p.stage.counts) hi
    have hset := held_set (w := fun p => p.stage.counts) hi p'
    rw [h.lookups] at hle hset
    have hcounts := heffect.counts hle
    show held (fun p => p.stage.counts) (r.requests.set i p') = s'.storeLookups
    omega
  slots := by
    have hset := held_set (w := fun p => p.stage.slots) hi p'
    have hslots := h.slots
    have hfew := held_slots_le r.requests
    rw [h.lookups] at hfew
    show held (fun p => p.stage.slots) (r.requests.set i p') ≤ maxStoreLookups
    rcases heffect.slots with hle | ⟨hroom, hle⟩
    · omega
    · omega

theorem Accounted.arrive (h : Accounted hashes r) (hstage : p.stage = .arrived) :
    Accounted hashes { r with requests := r.requests ++ [p] } where
  marks := by
    intro key
    have hnone : markOf hashes key p = 0 := by
      rw [markOf, hstage]
      exact ite_self 0
    rw [held_append, held_cons, held_nil, h.marks key, hnone]
    rfl
  lookups := by
    rw [held_append, held_cons, held_nil, h.lookups, hstage]
    rfl
  slots := by
    rw [held_append, held_cons, held_nil, hstage]
    exact h.slots

theorem move_cases (hashes : Hashes) (deserialize : Bytes → Option Frame) (r : Receiver)
    (m : Move) :
    r.move hashes deserialize m = r ∨
    (∃ peer payload frame, m = .arrive peer payload ∧ r.move hashes deserialize m =
      { r with requests := r.requests ++ [⟨peer, payload, frame, .arrived, [], false⟩] }) ∨
    ∃ i st p s' p', m = .step i st ∧ r.requests[i]? = some p ∧
      InProgress.step hashes r.shared p st = some (s', p') ∧
      r.move hashes deserialize m = ⟨s', r.requests.set i p'⟩ := by
  cases m with
  | arrive peer payload =>
    unfold Receiver.move
    dsimp only
    split
    · split
      · exact Or.inr (Or.inl ⟨peer, payload, _, rfl, rfl⟩)
      · exact Or.inl rfl
    · exact Or.inl rfl
  | step i st =>
    unfold Receiver.move
    dsimp only
    split
    · rename_i p hp
      split
      · rename_i s' p' hstep
        exact Or.inr (Or.inr ⟨i, st, p, s', p', rfl, hp, hstep, rfl⟩)
      · exact Or.inl rfl
    · exact Or.inl rfl

/-- **The accounts stay right**, whatever happens. -/
theorem Accounted.move (h : Accounted hashes r) (m : Move) :
    Accounted hashes (r.move hashes deserialize m) := by
  rcases move_cases hashes deserialize r m with heq | ⟨peer, payload, frame, -, heq⟩ |
    ⟨i, st, p, s', p', -, hi, hstep, heq⟩
  · rwa [heq]
  · rw [heq]
    exact h.arrive rfl
  · rw [heq]
    exact h.step hi (step_effect hstep)

theorem after_snoc (moves : List Move) (m : Move) :
    Receiver.after hashes deserialize (moves ++ [m]) =
      (Receiver.after hashes deserialize moves).move hashes deserialize m := by
  rw [Receiver.after, List.foldl_append]
  rfl

theorem accounted_after (hashes : Hashes) (deserialize : Bytes → Option Frame)
    (moves : List Move) : Accounted hashes (.after hashes deserialize moves) := by
  induction moves using List.reverseRecOn with
  | nil => exact accounted_new hashes
  | append_singleton moves m ih =>
    rw [after_snoc]
    exact ih.move m

/-! ## What the accounts say -/

variable {q : Processing}

theorem markOf_pos (hmarks : p.stage.marks = true) : markOf hashes (p.key hashes) p = 1 := by
  rw [markOf, if_pos rfl, hmarks]
  rfl

theorem Accounted.marked (h : Accounted hashes r) (hp : p ∈ r.requests)
    (hmarks : p.stage.marks = true) : p.key hashes ∈ r.shared.requestsInProgress := by
  obtain ⟨i, hi⟩ := List.mem_iff_getElem?.mp hp
  have hle := le_held (w := markOf hashes (p.key hashes)) hi
  rw [markOf_pos hmarks, h.marks] at hle
  by_contra hout
  rw [markIn_of_not_mem hout] at hle
  exact absurd hle (by decide)

theorem Accounted.of_mem (h : Accounted hashes r) {key : RequestKey}
    (hkey : key ∈ r.shared.requestsInProgress) :
    ∃ q ∈ r.requests, q.stage.marks = true ∧ q.key hashes = key := by
  have hheld := h.marks key
  rw [markIn_of_mem hkey] at hheld
  obtain ⟨q, hq, hpos⟩ := exists_of_held_pos (Nat.lt_of_lt_of_eq Nat.zero_lt_one hheld.symm)
  unfold markOf at hpos
  split at hpos
  · rename_i heq
    refine ⟨q, hq, ?_, heq⟩
    by_contra hno
    rw [Bool.not_eq_true] at hno
    rw [hno] at hpos
    exact absurd hpos (Nat.lt_irrefl 0)
  · exact absurd hpos (Nat.lt_irrefl 0)

theorem Accounted.unique (h : Accounted hashes r) {i j : Nat} (hi : r.requests[i]? = some p)
    (hj : r.requests[j]? = some q) (hp : p.stage.marks = true) (hq : q.stage.marks = true)
    (hkey : p.key hashes = q.key hashes) : i = j := by
  by_contra hne
  have hle := add_le_held (w := markOf hashes (p.key hashes)) hi hj hne
  rw [h.marks, markOf_pos hp, hkey, markOf_pos hq, markIn] at hle
  split at hle
  · exact absurd hle (by decide)
  · exact absurd hle (by decide)

theorem marks_of_running {stage : Stage} (h : stage.running = true) : stage.marks = true := by
  cases stage with
  | handling | answering => rfl
  | arrived | copy | marked | taking | overshot | receipt | acknowledged | queued | leaving
  | ended => cases h

theorem Accounted.given_back (h : Accounted hashes r)
    (hover : ∀ p ∈ r.requests, p.stage.processed = false) :
    r.shared.requestsInProgress = ∅ ∧ r.shared.storeLookups = 0 := by
  have hexit : ∀ p ∈ r.requests, ∃ exit, p.stage = .ended exit := by
    intro p hp
    have hstage := hover p hp
    cases heq : p.stage with
    | ended exit => exact ⟨exit, rfl⟩
    | arrived | copy | marked | taking | overshot | receipt | acknowledged | queued | handling
    | answering | leaving =>
      rw [heq] at hstage
      cases hstage
  constructor
  · rw [Finset.eq_empty_iff_forall_notMem]
    intro key hkey
    obtain ⟨q, hq, hmarks, -⟩ := h.of_mem hkey
    obtain ⟨exit, hstage⟩ := hexit q hq
    rw [hstage] at hmarks
    cases hmarks
  · rw [← h.lookups]
    refine held_eq_zero fun p hp => ?_
    obtain ⟨exit, hstage⟩ := hexit p hp
    rw [hstage]
    rfl

/-! ## Rules for single requests -/

theorem request_induct {P : Processing → Prop} {i : Nat}
    (hstep : ∀ s p st s' p', P p → step hashes s p st = some (s', p') → P p')
    (hi : ∃ p, r.requests[i]? = some p ∧ P p) (moves : List Move) :
    ∃ p, (moves.foldl (Receiver.move hashes deserialize) r).requests[i]? = some p ∧ P p := by
  induction moves using List.reverseRecOn with
  | nil => exact hi
  | append_singleton moves m ih =>
    rw [List.foldl_append, List.foldl_cons, List.foldl_nil]
    obtain ⟨p, hp, hP⟩ := ih
    rcases move_cases hashes deserialize (moves.foldl (Receiver.move hashes deserialize) r) m with
      heq | ⟨peer, payload, frame, -, heq⟩ | ⟨j, st, q, s', q', -, hq, hsteps, heq⟩
    · rw [heq]
      exact ⟨p, hp, hP⟩
    · rw [heq]
      exact ⟨p, (List.getElem?_append_left (List.getElem?_eq_some_iff.mp hp).1).trans hp, hP⟩
    · rw [heq]
      by_cases hij : j = i
      · subst hij
        obtain rfl : q = p := Option.some.inj (hq.symm.trans hp)
        exact ⟨q', List.getElem?_set_self (List.getElem?_eq_some_iff.mp hp).1,
          hstep _ _ _ _ _ hP hsteps⟩
      · exact ⟨p, (List.getElem?_set_ne hij).trans hp, hP⟩

/-- What holds of requests when they arrive, and is kept by their steps, holds of all. -/
theorem forall_after {P : Processing → Prop} (moves : List Move)
    (harrive : ∀ peer payload frame, .arrive peer payload ∈ moves →
      P ⟨peer, payload, frame, .arrived, [], false⟩)
    (hstep : ∀ s p st s' p', P p → step hashes s p st = some (s', p') → P p') :
    ∀ p ∈ (Receiver.after hashes deserialize moves).requests, P p := by
  induction moves using List.reverseRecOn with
  | nil => exact fun p hp => absurd hp List.not_mem_nil
  | append_singleton moves m ih =>
    have ih := ih fun peer payload frame hm =>
      harrive peer payload frame (List.mem_append_left _ hm)
    rw [after_snoc]
    rcases move_cases hashes deserialize (.after hashes deserialize moves) m with
      heq | ⟨peer, payload, frame, rfl, heq⟩ | ⟨j, st, q, s', q', -, hq, hsteps, heq⟩
    · rwa [heq]
    · rw [heq]
      intro p hp
      rcases List.mem_append.mp hp with hold | hnew
      · exact ih p hold
      · rw [List.mem_singleton.mp hnew]
        exact harrive peer payload frame (by simp)
    · rw [heq]
      intro p hp
      rcases List.mem_or_eq_of_mem_set hp with hold | rfl
      · exact ih p hold
      · exact hstep _ _ _ _ _ (ih q (List.mem_of_getElem? hq)) hsteps

end AuthKademlia.Protocol.InProgress
