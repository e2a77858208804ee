import AuthKademlia.Protocol.Pending

/-! # Answers reach only the call they answer

What holds of the calls of a node in any run, and of a frame that answers none of
them. The map of pending calls may still know a call that has ended, when its
removal is outstanding; a late answer to such a call is taken for an answer. -/
namespace AuthKademlia.Properties
open AuthKademlia.Utils AuthKademlia.Routing AuthKademlia.Protocol AuthKademlia.Protocol.Pending

variable {moves : List Move} {s : Endpoint} {peer : Addr} {msgId : Nat} {message : Message}

/-- A call that waits and for which no frame has been accepted. -/
def Unanswered (s : Endpoint) (i : Nat) (c : CallState) : Prop :=
  s.calls[i]? = some c ∧ c.phase = .waiting ∧ c.answers = [] ∧ s.acceptedFor i = []

/-- The frame answers a waiting call. -/
def Matches (s : Endpoint) (peer : Addr) (msgId : Nat) (message : Message) : Prop :=
  ∃ i c, Unanswered s i c ∧ c.msgId = msgId ∧ c.peer = peer ∧
    (ExpectedResponse.forRequest c.request).accepts message = true

/-- The frame is a receipt from the peer of a waiting call whose request carries a
record. -/
def ReceiptFor (s : Endpoint) (peer : Addr) (msgId : Nat) (message : Message) : Prop :=
  message = .received ∧ ∃ i c, Unanswered s i c ∧ c.msgId = msgId ∧ c.peer = peer ∧
    (carriedRecord c.request).isSome = true

theorem unanswered_pending (h : InOrder moves s) (hfew : s.calls.length ≤ 2 ^ 32) {i : Nat}
    {c : CallState} (hc : Unanswered s i c) :
    s.pending c.msgId = some ⟨c.peer, .forRequest c.request, i⟩ := by
  obtain ⟨hget, hphase, hanswers, hnone⟩ := hc
  rw [h.msgId_eq hfew hget]
  cases h.stage i c hget with
  | opening phase => rw [hphase] at phase; cases phase
  | expecting _ pending => exact pending
  | accepted _ _ a accepted => rw [accepted] at hnone; cases hnone
  | settled _ _ _ _ _ answered => exact absurd hanswers (answered hphase)

theorem answers_fit (h : InOrder moves s) {i : Nat} {c : CallState} (hc : s.calls[i]? = some c) :
    c.answers.length ≤ 1 ∧ ∀ message ∈ c.answers, Answers moves c message := by
  cases h.stage i c hc with
  | opening _ _ _ answers | expecting _ _ _ answers | accepted _ _ _ _ answers =>
    rw [answers]
    exact ⟨Nat.zero_le _, fun message hm => by cases hm⟩
  | settled _ _ _ length_le fits => exact ⟨length_le, fits⟩

/-- The call that the map has under an id waits, or its removal is outstanding. -/
theorem mapped_cases (h : InOrder moves s) (hfew : s.calls.length ≤ 2 ^ 32) {pc : PendingCall}
    (hp : s.pending msgId = some pc) :
    ∃ c, pc = ⟨c.peer, .forRequest c.request, msgId⟩ ∧ c.msgId = msgId ∧
      s.calls[msgId]? = some c ∧
      (Unanswered s msgId c ∨ c.phase ≠ .waiting ∧ msgId ∈ s.removals) := by
  obtain ⟨c, hc, hpc, haccepted, hanswers, hphase⟩ := h.mapped hp
  refine ⟨c, hpc, h.msgId_eq hfew hc, hc, ?_⟩
  rcases hphase with hw | ⟨⟨r, hr⟩, hmem⟩
  · exact Or.inl ⟨hc, hw, hanswers, haccepted⟩
  · exact Or.inr ⟨by rw [hr]; simp, hmem⟩

/-- **A frame for nobody changes nothing.** -/
theorem handleResponse_unmatched (h : InOrder moves s) (hfew : s.calls.length ≤ 2 ^ 32)
    (hmatch : ¬ Matches s peer msgId message) (hreceipt : ¬ ReceiptFor s peer msgId message)
    (hremoved : msgId ∉ s.removals) : s.handleResponse peer msgId message = s := by
  unfold Endpoint.handleResponse
  cases hp : s.pending msgId with
  | none => simp
  | some pc =>
    obtain ⟨c, rfl, hid, -, hun | ⟨-, hmem⟩⟩ := mapped_cases h hfew hp
    · simp only
      split
      · rename_i hrec
        rw [if_neg]
        rintro ⟨hpeer, hafter⟩
        rw [afterReceipt_iff] at hafter
        exact hreceipt ⟨hrec, msgId, c, hun, hid, hpeer, hafter⟩
      · rw [if_neg]
        rintro ⟨hpeer, haccepts⟩
        exact hmatch ⟨msgId, c, hun, hid, hpeer, haccepts⟩
    · exact absurd hmem hremoved

/-- A frame for nobody leaves the waiting calls alone, also if it answers one that has
ended. -/
theorem handleResponse_waiting (h : InOrder moves s) (hfew : s.calls.length ≤ 2 ^ 32)
    (hreceipt : ¬ ReceiptFor s peer msgId message) {i : Nat} {c : CallState}
    (hc : s.calls[i]? = some c) (hw : c.phase = .waiting) :
    (s.handleResponse peer msgId message).calls[i]? = some c := by
  unfold Endpoint.handleResponse
  cases hp : s.pending msgId with
  | none => simpa using hc
  | some pc =>
    obtain ⟨d, rfl, hid, hd, hun | ⟨hended, -⟩⟩ := mapped_cases h hfew hp
    · simp only
      split
      · rename_i hrec
        rw [if_neg]
        · exact hc
        · rintro ⟨hpeer, hafter⟩
          rw [afterReceipt_iff] at hafter
          exact hreceipt ⟨hrec, msgId, d, hun, hid, hpeer, hafter⟩
      · split <;> exact hc
    · have hne : msgId ≠ i := by
        rintro rfl
        rw [hc] at hd
        obtain rfl := Option.some.inj hd
        exact hended hw
      simp only
      split
      · split
        · simpa [hne] using hc
        · exact hc
      · split <;> exact hc

/-- **Answers reach only the call they answer.** In every run with fewer than `2 ^ 32`
calls: a waiting call for which no frame was accepted is in the map under its id; a
call gets at most one answer, and only one that a frame from its peer under its id
brought and its request expects; a frame that matches no waiting call, and is no
receipt for one, changes no waiting call, and nothing at all unless it is for a call
that has ended and whose removal from the map is outstanding; and what handlers
answer is expected. -/
theorem answers_reach_only_their_call (contacts : Contacts) (moves : List Move)
    (hfew : (Endpoint.after contacts moves).calls.length < 2 ^ 32) :
    let s := Endpoint.after contacts moves
    (∀ i c, Unanswered s i c → s.pending c.msgId = some ⟨c.peer, .forRequest c.request, i⟩) ∧
    (∀ (i : Nat) c, s.calls[i]? = some c → c.answers.length ≤ 1 ∧
      ∀ message, message ∈ c.answers ∨ c.phase = .ended (some message) →
        (ExpectedResponse.forRequest c.request).accepts message = true ∧
          Move.response c.peer c.msgId message ∈ moves) ∧
    (∀ peer msgId message, ¬ Matches s peer msgId message → ¬ ReceiptFor s peer msgId message →
      (msgId ∉ s.removals → s.handleResponse peer msgId message = s) ∧
      ∀ (i : Nat) c, s.calls[i]? = some c → c.phase = .waiting →
        (s.handleResponse peer msgId message).calls[i]? = some c) ∧
    ∀ srv t peer request answer, (dispatchMessage srv t peer request).Returns (some answer) →
      (ExpectedResponse.forRequest request).accepts answer = true := by
  intro s
  have hle := Nat.le_of_lt hfew
  have h : InOrder moves s := inOrder_after contacts moves hle
  refine ⟨fun i c hc => unanswered_pending h hle hc, ?_, ?_,
    fun srv t peer request answer => dispatch_accepted srv t peer request⟩
  · intro i c hc
    obtain ⟨hlen, hfits⟩ := answers_fit h hc
    refine ⟨hlen, ?_⟩
    rintro message (hm | hended)
    · exact hfits message hm
    · exact hfits message (h.results i c message hc hended)
  · intro peer msgId message hmatch hreceipt
    exact ⟨handleResponse_unmatched h hle hmatch hreceipt,
      fun i c hc hw => handleResponse_waiting h hle hreceipt hc hw⟩

/-- A node alone, and a ping to another that times out while the map is locked. -/
def aloneNode : Contacts :=
  ⟨.new 0 ⟨filledId 0, some "10.0.0.1", some 7000⟩ 20, ∅, ∅⟩

def pinged : Addr := ("10.0.0.9", 7009)

def timedOutLocked : List Move :=
  [.call pinged (.ping (filledId 0)), .insert 0, .giveUp 0 true]

/-- The late Pong matches no waiting call, and still it is removed from the map and its
sender enters the routing table. -/
theorem late_pong_changes_table :
    let s := Endpoint.after aloneNode timedOutLocked
    let s' := s.handleResponse pinged 0 (.pong (filledId 9))
    (∀ c ∈ s.calls, c.phase = .ended none) ∧
    s.pending 0 = some ⟨pinged, .pong, 0⟩ ∧ s'.pending 0 = none ∧
    s.contacts.router.getContact (filledId 9) = none ∧
    (s'.welcome 0 1).contacts.router.getContact (filledId 9) =
      some ⟨filledId 9, some "10.0.0.9", some 7009⟩ := by
  decide +kernel

/-- A ping that is answered in time. -/
def answeredPing : List Move :=
  [.call pinged (.ping (filledId 0)), .insert 0, .response pinged 0 (.pong (filledId 9)),
    .welcome 0 1, .deliver 0, .finish 0 false]

theorem answers_reach_only_their_call_answeredPing :
    (Endpoint.after aloneNode answeredPing).calls =
      [⟨0, pinged, .ping (filledId 0), .ended (some (.pong (filledId 9))),
        [.pong (filledId 9)], 0⟩] ∧
    Move.response pinged 0 (.pong (filledId 9)) ∈ answeredPing := by
  have hcalls : (Endpoint.after aloneNode answeredPing).calls =
      [⟨0, pinged, .ping (filledId 0), .ended (some (.pong (filledId 9))),
        [.pong (filledId 9)], 0⟩] := by
    decide +kernel
  refine ⟨hcalls, ?_⟩
  have hfew : (Endpoint.after aloneNode answeredPing).calls.length < 2 ^ 32 := by
    rw [hcalls]
    decide
  obtain ⟨-, hfits, -⟩ := answers_reach_only_their_call aloneNode answeredPing hfew
  exact ((hfits 0 _ (by rw [hcalls]; rfl)).2 _ (Or.inr rfl)).2

end AuthKademlia.Properties
