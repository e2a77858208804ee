import AuthKademlia.Protocol.InProgress

/-! # Requests are handled once

While a request that carries a record is being handled, a copy of it gets a receipt and
nothing else. The marks by which copies are recognised and the places for network checks
are given back on every way out. -/
namespace AuthKademlia.Properties
open AuthKademlia.Lib.Holdings AuthKademlia.Protocol AuthKademlia.Protocol.InProgress
open AuthKademlia.Utils

variable {hashes : Hashes} {deserialize : Bytes → Option Frame} {p q : Processing}
  {r : Receiver}

/-- A copy: the receipt is all that is sent for it, and no handler is started. -/
def TurnedAway (p : Processing) : Prop :=
  p.started = false ∧
    (p.stage = .copy ∧ p.sent = [] ∨
      p.stage = .ended .copied ∧ p.sent = [.received] ∨ p.stage = .ended .cancelled ∧ p.sent = [])

/-- The same request of the same sender. -/
def SameRequest (p q : Processing) : Prop := p.peer = q.peer ∧ p.payload = q.payload

def payloads (moves : List Move) : Set Bytes := {payload | ∃ peer, .arrive peer payload ∈ moves}

theorem SameRequest.key (h : SameRequest p q) : p.key hashes = q.key hashes := by
  unfold Processing.key
  rw [h.1, h.2]

/-! ## Copies -/

theorem start_copy {s : Shared} (hstage : p.stage = .arrived) (hsent : p.sent = [])
    (hstarted : p.started = false) (hkey : p.key hashes ∈ s.requestsInProgress) :
    ∃ p', InProgress.step hashes s p .start = some (s, p') ∧ TurnedAway p' := by
  refine ⟨{ p with stage := .copy }, ?_, hstarted, Or.inl ⟨rfl, hsent⟩⟩
  rw [InProgress.step, if_pos hstage, start, if_pos hkey]

theorem TurnedAway.step {s s' : Shared} {p' : Processing} {st : Step} (h : TurnedAway p)
    (hstep : InProgress.step hashes s p st = some (s', p')) : TurnedAway p' := by
  obtain ⟨hstarted, ⟨hstage, hsent⟩ | ⟨hstage, hsent⟩ | ⟨hstage, hsent⟩⟩ := h
  · cases st <;> simp [InProgress.step, hstage] at hstep
    · obtain ⟨-, rfl⟩ := hstep
      exact ⟨hstarted, Or.inr (Or.inl ⟨rfl, by rw [hsent]; rfl⟩)⟩
    · obtain ⟨-, rfl⟩ := hstep
      exact ⟨hstarted, Or.inr (Or.inr ⟨rfl, hsent⟩)⟩
  · cases st <;> simp [InProgress.step, hstage] at hstep
  · cases st <;> simp [InProgress.step, hstage] at hstep

theorem untouched (moves : List Move) :
    ∀ p ∈ (Receiver.after hashes deserialize moves).requests,
      p.stage = .arrived → p.sent = [] ∧ p.started = false :=
  forall_after moves (fun _ _ _ _ _ => ⟨rfl, rfl⟩) fun _ _ _ _ _ _ hstep hstage =>
    absurd hstage (step_effect hstep).past

theorem arrived_payload (moves : List Move) :
    ∀ p ∈ (Receiver.after hashes deserialize moves).requests, p.payload ∈ payloads moves :=
  forall_after moves (fun peer _ _ hm => ⟨peer, hm⟩) fun _ _ _ _ _ hp hstep => by
    rw [(step_effect hstep).payload]
    exact hp

/-! ## The way out -/

variable (deserialize) in
theorem move_step {i : Nat} {st : Step} {s' : Shared} {p' : Processing}
    (hi : r.requests[i]? = some p) (h : InProgress.step hashes r.shared p st = some (s', p')) :
    (r.move hashes deserialize (.step i st)).requests[i]? = some p' := by
  simp only [Receiver.move, hi, h]
  exact List.getElem?_set_self (List.getElem?_eq_some_iff.mp hi).1

theorem ended_of_drops {i : Nat} {guards : Guards} {exit : Exit} (hi : r.requests[i]? = some p)
    (hstage : p.stage = .leaving guards exit) :
    ∃ p', ((guards.drops.map (Move.step i)).foldl (Receiver.move hashes deserialize)
      r).requests[i]? = some p' ∧ p'.stage = .ended exit := by
  cases guards with
  | mark => exact ⟨_, move_step deserialize hi (dropMark_leaving r.shared hstage), rfl⟩
  | slot => exact ⟨_, move_step deserialize hi (dropSlot_leaving r.shared hstage), rfl⟩
  | both =>
    have hdrop : step hashes r.shared p .dropMark = _ := dropMark_both r.shared hstage
    exact ⟨_, move_step deserialize (move_step deserialize hi hdrop) (dropSlot_leaving _ rfl), rfl⟩

/-- What a node does for the requests that reached it: handlers, copies and places. -/
structure HandledOnce (hashes : Hashes) (deserialize : Bytes → Option Frame) (moves : List Move)
    (r : Receiver) : Prop where
  /-- Two handlers that run at a time do not handle the same request. -/
  once : ∀ (i j : Nat) (p q : Processing), r.requests[i]? = some p → r.requests[j]? = some q →
    p.stage.running = true → q.stage.running = true → SameRequest p q → i = j
  /-- A copy that gets to `InProgress::start` meanwhile is turned away for good. -/
  copies : ∀ (i : Nat) (p : Processing), r.requests[i]? = some p → p.stage = .arrived →
    (∃ q ∈ r.requests, q.stage.marks = true ∧ SameRequest p q) →
    ∀ later, ∃ p', (Receiver.after hashes deserialize
      (moves ++ .step i .start :: later)).requests[i]? = some p' ∧ TurnedAway p'
  /-- Nothing else is taken for a copy, unless the hashes of two requests collide. -/
  others : Set.InjOn hashes.sha256 (payloads moves) → ∀ p ∈ r.requests,
    p.key hashes ∈ r.shared.requestsInProgress →
    ∃ q ∈ r.requests, q.stage.marks = true ∧ SameRequest p q
  places : held (fun p => p.stage.slots) r.requests ≤ maxStoreLookups
  /-- A request that a worker or a task still has can go on, and on its way out it drops its
  guards, whichever way that is. -/
  goesOn : ∀ p ∈ r.requests, p.stage.processed = true →
    ∃ st, (InProgress.step hashes r.shared p st).isSome = true
  exits : ∀ (i : Nat) (p : Processing) guards exit, r.requests[i]? = some p →
    p.stage = .leaving guards exit → ∃ p', (Receiver.after hashes deserialize
      (moves ++ guards.drops.map (Move.step i))).requests[i]? = some p' ∧ p'.stage = .ended exit
  /-- When no handler runs and no datagram is processed, nothing is marked or counted. -/
  givenBack : (∀ p ∈ r.requests, p.stage.processed = false) →
    r.shared.requestsInProgress = ∅ ∧ r.shared.storeLookups = 0

/-- **A request being handled is handled once, and its places are given back.** -/
theorem handled_once (hashes : Hashes) (deserialize : Bytes → Option Frame) (moves : List Move) :
    HandledOnce hashes deserialize moves (.after hashes deserialize moves) := by
  have h := accounted_after hashes deserialize moves
  refine ⟨fun i j p q hi hj hp hq hsame => ?_, fun i p hi hstage hcopy later => ?_,
    fun hinj p hp hkey => ?_, h.slots, fun p _ hp => exists_step hashes _ hp,
    fun i p guards exit hi hstage => ?_, h.given_back⟩
  · exact h.unique hi hj (marks_of_running hp) (marks_of_running hq) hsame.key
  · obtain ⟨q, hq, hmarks, hsame⟩ := hcopy
    obtain ⟨hsent, hstarted⟩ := untouched moves p (List.mem_of_getElem? hi) hstage
    obtain ⟨p', hstart, haway⟩ := start_copy hstage hsent hstarted
      (hsame.key ▸ h.marked hq hmarks)
    rw [Receiver.after, List.foldl_append, List.foldl_cons]
    exact request_induct (fun _ _ _ _ _ => TurnedAway.step) ⟨p', move_step _ hi hstart, haway⟩ later
  · obtain ⟨q, hq, hmarks, hsame⟩ := h.of_mem hkey
    obtain ⟨hpeer, hhash⟩ := Prod.mk.inj hsame
    refine ⟨q, hq, hmarks, hpeer.symm, ?_⟩
    exact (hinj (arrived_payload moves q hq) (arrived_payload moves p hp) hhash).symm
  · rw [Receiver.after, List.foldl_append]
    exact ended_of_drops hi hstage

/-- A STORE waits for its lookup when a copy of it arrives. -/
example : ((Receiver.after toyHashes
    (fun _ => some ⟨5, true, .record (.store (filledId 9) (filledId 7) [1])⟩)
    [.arrive ("h", 1) [5], .step 0 .start, .step 0 (.check true), .step 0 .fetchAdd,
      .step 0 .send, .step 0 (.spawn true), .arrive ("h", 1) [5], .step 1 .start,
      .step 1 .send]).requests.map fun p => (p.stage, p.sent)) =
    [(.queued, [.received]), (.ended .copied, [.received])] := by
  decide

end AuthKademlia.Properties
