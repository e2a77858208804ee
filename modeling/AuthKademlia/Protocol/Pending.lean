import AuthKademlia.Protocol.Contacts
import AuthKademlia.Protocol.Messages

/-! # Calls and the frames that answer them

The calls a node makes share one map of pending calls, in which the receive path
looks up what a response frame answers. A call is in the map from when it has sent
its request until a frame is accepted for it, or it ends. When it ends while the
map is locked, its removal is left to a task, so that the map may keep a call that
has ended for a while. An accepted answer leaves the map at once and reaches the
call later; a Pong first shows the contact alive.

The invariant follows each call through its stages. Every move concerns the stage
of one call, because the calls have different ids. -/
namespace AuthKademlia.Protocol.Pending
open AuthKademlia.Utils AuthKademlia.Protocol

inductive Phase where
  /-- It has its id and is not in the map yet. -/
  | opening
  | waiting
  | ended (result : Option Message)
  deriving DecidableEq

/-- A call, from `next_id` on. -/
structure CallState where
  msgId : Nat
  peer : Addr
  request : Message
  phase : Phase
  /-- What was sent through its reply channel. -/
  answers : List Message
  /-- How often it was notified of a receipt. -/
  receipts : Nat
  deriving DecidableEq

/-- `tx.send`: lost if the call has ended. -/
def CallState.send (c : CallState) (message : Message) : CallState :=
  if c.phase = .waiting then { c with answers := c.answers ++ [message] } else c

/-- `PendingCall`; `reply` is the call at the other end of the channel. -/
structure PendingCall where
  peer : Addr
  expected : ExpectedResponse
  reply : Nat
  deriving DecidableEq

/-- A frame that was accepted, until its message is sent through the channel. -/
structure Accepted where
  reply : Nat
  peer : Addr
  message : Message
  welcomed : Bool
  deriving DecidableEq

structure Endpoint where
  nextMsgId : Nat
  pending : Nat → Option PendingCall
  /-- All calls made so far. -/
  calls : List CallState
  /-- Removals from the map that were left to a task. -/
  removals : List Nat
  accepted : List Accepted
  contacts : Contacts

namespace Endpoint

def new (contacts : Contacts) : Endpoint := ⟨0, fun _ => none, [], [], [], contacts⟩

/-- Dropping the `PendingGuard` of a call. -/
def dropGuard (s : Endpoint) (msgId : Nat) (locked : Bool) : Endpoint :=
  if locked then { s with removals := s.removals ++ [msgId] }
  else { s with pending := Function.update s.pending msgId none }

/-- The part of `handle_datagram` for responses. -/
def handleResponse (s : Endpoint) (peer : Addr) (msgId : Nat) (message : Message) : Endpoint :=
  if message = .received then
    match s.pending msgId with
    | some call =>
      if call.peer = peer ∧ call.expected.afterReceipt then
        { s with calls := s.calls.modify call.reply fun c => { c with receipts := c.receipts + 1 } }
      else s
    | none => s
  else
    match s.pending msgId with
    | some call =>
      if call.peer = peer ∧ call.expected.accepts message then
        { s with
          pending := Function.update s.pending msgId none
          accepted := s.accepted ++ [⟨call.reply, peer, message, false⟩] }
      else s
    | none => s

/-- A Pong shows its sender alive before it is sent on. -/
def welcome (s : Endpoint) (j now : Nat) : Endpoint :=
  match s.accepted[j]? with
  | some ⟨reply, peer, .pong senderId, false⟩ =>
    { s with
      accepted := s.accepted.set j ⟨reply, peer, .pong senderId, true⟩
      contacts :=
        (s.contacts.scheduleWelcomeIfNew now ⟨senderId, some peer.1, some peer.2⟩).1 }
  | _ => s

def deliver (s : Endpoint) (j : Nat) : Endpoint :=
  match s.accepted[j]? with
  | some ⟨_, _, .pong _, false⟩ => s
  | some a =>
    { s with
      accepted := s.accepted.eraseIdx j
      calls := s.calls.modify a.reply fun c => c.send a.message }
  | none => s

/-- A call ends with `result`. -/
def endCall (s : Endpoint) (i : Nat) (c : CallState) (result : Option Message) (locked : Bool) :
    Endpoint :=
  { s with calls := s.calls.set i { c with phase := .ended result } }.dropGuard c.msgId locked

end Endpoint

inductive Move
  | call (peer : Addr) (request : Message)
  /-- The call enters the map. -/
  | insert (i : Nat)
  /-- The call ends before: it cannot be encoded, or is cancelled. -/
  | abandon (i : Nat)
  | response (peer : Addr) (msgId : Nat) (message : Message)
  | welcome (j now : Nat)
  | deliver (j : Nat)
  /-- The call takes its answer. -/
  | finish (i : Nat) (locked : Bool)
  /-- The call times out, cannot send, or is cancelled. -/
  | giveUp (i : Nat) (locked : Bool)
  | removal (j : Nat)
  /-- Anything else changes the contacts. -/
  | meet (contacts : Contacts)

/-- A move that is not possible changes nothing. -/
def Endpoint.move (s : Endpoint) : Move → Endpoint
  | .call peer request =>
    { s with
      nextMsgId := (s.nextMsgId + 1) % 2 ^ 32
      calls := s.calls ++ [⟨s.nextMsgId, peer, request, .opening, [], 0⟩] }
  | .insert i =>
    match s.calls[i]? with
    | some c =>
      if c.phase = .opening then
        { s with
          pending := Function.update s.pending c.msgId
            (some ⟨c.peer, .forRequest c.request, i⟩)
          calls := s.calls.set i { c with phase := .waiting } }
      else s
    | none => s
  | .abandon i =>
    match s.calls[i]? with
    | some c =>
      if c.phase = .opening then { s with calls := s.calls.set i { c with phase := .ended none } }
      else s
    | none => s
  | .response peer msgId message => s.handleResponse peer msgId message
  | .welcome j now => s.welcome j now
  | .deliver j => s.deliver j
  | .finish i locked =>
    match s.calls[i]? with
    | some c =>
      match c.phase, c.answers with
      | .waiting, message :: _ => s.endCall i c (some message) locked
      | _, _ => s
    | none => s
  | .giveUp i locked =>
    match s.calls[i]? with
    | some c => if c.phase = .waiting then s.endCall i c none locked else s
    | none => s
  | .removal j =>
    match s.removals[j]? with
    | some msgId =>
      { s with
        pending := Function.update s.pending msgId none
        removals := s.removals.eraseIdx j }
    | none => s
  | .meet contacts => { s with contacts := contacts }

def Endpoint.after (contacts : Contacts) (moves : List Move) : Endpoint :=
  moves.foldl Endpoint.move (.new contacts)

/-! ## Stages of a call -/

namespace Endpoint

/-- The frames accepted for a call whose messages have not been sent on yet. -/
def acceptedFor (s : Endpoint) (i : Nat) : List Accepted := s.accepted.filter fun a => a.reply = i

end Endpoint

/-- The message answers the call: a frame from its peer under its id brought it, and it
is of the type that is expected. -/
def Answers (moves : List Move) (c : CallState) (message : Message) : Prop :=
  (ExpectedResponse.forRequest c.request).accepts message = true ∧
    Move.response c.peer c.msgId message ∈ moves

/-- Where the call number `i` is. -/
inductive Stage (moves : List Move) (s : Endpoint) (i : Nat) (c : CallState) : Prop
  | opening (phase : c.phase = .opening) (pending : s.pending i = none)
      (accepted : s.acceptedFor i = []) (answers : c.answers = [])
  /-- It is in the map, and has ended only if its removal is outstanding. -/
  | expecting (phase : c.phase = .waiting ∨ (∃ r, c.phase = .ended r) ∧ i ∈ s.removals)
      (pending : s.pending i = some ⟨c.peer, .forRequest c.request, i⟩)
      (accepted : s.acceptedFor i = []) (answers : c.answers = [])
  | accepted (phase : c.phase ≠ .opening) (pending : s.pending i = none) (a : Accepted)
      (accepted : s.acceptedFor i = [a]) (answers : c.answers = [])
      (fits : Answers moves c a.message)
  /-- Nothing more will reach it. -/
  | settled (phase : c.phase ≠ .opening) (pending : s.pending i = none)
      (accepted : s.acceptedFor i = []) (length_le : c.answers.length ≤ 1)
      (fits : ∀ message ∈ c.answers, Answers moves c message)
      (answered : c.phase = .waiting → c.answers ≠ [])

/-- **The invariant of all calls of a node.** -/
structure InOrder (moves : List Move) (s : Endpoint) : Prop where
  next : s.nextMsgId = s.calls.length % 2 ^ 32
  ids : ∀ (i : Nat) (c : CallState), s.calls[i]? = some c → c.msgId = i % 2 ^ 32
  stage : ∀ (i : Nat) (c : CallState), s.calls[i]? = some c → Stage moves s i c
  pending : ∀ i, s.calls.length ≤ i → s.pending i = none
  accepted : ∀ i, s.calls.length ≤ i → s.acceptedFor i = []
  ended : ∀ i ∈ s.removals, ∃ c r, s.calls[i]? = some c ∧ c.phase = .ended r
  results : ∀ (i : Nat) (c : CallState) (message : Message), s.calls[i]? = some c →
    c.phase = .ended (some message) → message ∈ c.answers

variable {moves : List Move} {s s' : Endpoint} {i : Nat} {c : CallState} {m : Move}

theorem Answers.mono {message : Message} (h : Answers moves c message) (m : Move) :
    Answers (moves ++ [m]) c message := ⟨h.1, List.mem_append_left _ h.2⟩

theorem Stage.frame (h : Stage moves s i c) (hpending : s'.pending i = s.pending i)
    (haccepted : s'.acceptedFor i = s.acceptedFor i)
    (hremovals : i ∈ s.removals → i ∈ s'.removals) (m : Move) : Stage (moves ++ [m]) s' i c := by
  cases h with
  | opening phase pending accepted answers =>
    exact .opening phase (hpending.trans pending) (haccepted.trans accepted) answers
  | expecting phase pending accepted answers =>
    exact .expecting (phase.imp_right fun h => ⟨h.1, hremovals h.2⟩) (hpending.trans pending)
      (haccepted.trans accepted) answers
  | accepted phase pending a accepted answers fits =>
    exact .accepted phase (hpending.trans pending) a (haccepted.trans accepted) answers
      (fits.mono m)
  | settled phase pending accepted length_le fits answered =>
    exact .settled phase (hpending.trans pending) (haccepted.trans accepted) length_le
      (fun message hm => (fits message hm).mono m) answered

/-- What a move of the call `i` leaves to be shown: that call and its results are in
order, and nothing else changed. -/
theorem InOrder.update (h : InOrder moves s) (m : Move) (hnext : s'.nextMsgId = s.nextMsgId)
    (hlen : s'.calls.length = s.calls.length)
    (hcalls : ∀ j, j ≠ i → s'.calls[j]? = s.calls[j]?)
    (hpending : ∀ j, j ≠ i → s'.pending j = s.pending j)
    (haccepted : ∀ j, j ≠ i → s'.acceptedFor j = s.acceptedFor j)
    (hremovals : ∀ j, j ≠ i → (j ∈ s'.removals ↔ j ∈ s.removals))
    (hi : i < s.calls.length)
    (hcall : ∀ c, s'.calls[i]? = some c → c.msgId = i % 2 ^ 32 ∧ Stage (moves ++ [m]) s' i c ∧
      (i ∈ s'.removals → ∃ r, c.phase = .ended r) ∧
      ∀ message, c.phase = .ended (some message) → message ∈ c.answers) :
    InOrder (moves ++ [m]) s' where
  next := by rw [hnext, hlen, h.next]
  ids := by
    intro j c hc
    by_cases hj : j = i
    · subst hj
      exact (hcall c hc).1
    · rw [hcalls j hj] at hc
      exact h.ids j c hc
  stage := by
    intro j c hc
    by_cases hj : j = i
    · subst hj
      exact (hcall c hc).2.1
    · rw [hcalls j hj] at hc
      exact (h.stage j c hc).frame (hpending j hj) (haccepted j hj) (hremovals j hj).mpr m
  pending := by
    intro j hj
    rw [hlen] at hj
    rw [hpending j (by omega)]
    exact h.pending j hj
  accepted := by
    intro j hj
    rw [hlen] at hj
    rw [haccepted j (by omega)]
    exact h.accepted j hj
  ended := by
    intro j hj
    by_cases he : j = i
    · subst he
      obtain ⟨c, hc⟩ : ∃ c, s'.calls[j]? = some c :=
        ⟨_, List.getElem?_eq_getElem (hlen ▸ hi)⟩
      obtain ⟨r, hr⟩ := (hcall c hc).2.2.1 hj
      exact ⟨c, r, hc, hr⟩
    · rw [hcalls j he]
      exact h.ended j ((hremovals j he).mp hj)
  results := by
    intro j c message hc hr
    by_cases hj : j = i
    · subst hj
      exact (hcall c hc).2.2.2 message hr
    · rw [hcalls j hj] at hc
      exact h.results j c message hc hr

theorem InOrder.ended_of_removal (h : InOrder moves s) (hc : s.calls[i]? = some c)
    (hi : i ∈ s.removals) : ∃ r, c.phase = .ended r := by
  obtain ⟨d, r, hd, hr⟩ := h.ended i hi
  obtain rfl := Option.some.inj (hc.symm.trans hd)
  exact ⟨r, hr⟩

theorem InOrder.mapped (h : InOrder moves s) {pc : PendingCall} (hp : s.pending i = some pc) :
    ∃ c, s.calls[i]? = some c ∧ pc = ⟨c.peer, .forRequest c.request, i⟩ ∧
      s.acceptedFor i = [] ∧ c.answers = [] ∧
      (c.phase = .waiting ∨ (∃ r, c.phase = .ended r) ∧ i ∈ s.removals) := by
  have hi : i < s.calls.length := by
    by_contra hge
    rw [h.pending i (Nat.not_lt.mp hge)] at hp
    cases hp
  have hc : s.calls[i]? = some s.calls[i] := List.getElem?_eq_getElem hi
  refine ⟨_, hc, ?_⟩
  cases h.stage i _ hc with
  | opening _ pending | accepted _ pending | settled _ pending =>
    rw [pending] at hp
    cases hp
  | expecting phase pending accepted answers =>
    rw [pending] at hp
    exact ⟨(Option.some.inj hp).symm, accepted, answers, phase⟩

theorem InOrder.acceptedFor_eq (h : InOrder moves s) {a : Accepted} (ha : a ∈ s.accepted) :
    ∃ c, s.calls[a.reply]? = some c ∧ c.phase ≠ .opening ∧ s.pending a.reply = none ∧
      s.acceptedFor a.reply = [a] ∧ c.answers = [] ∧ Answers moves c a.message := by
  have hmem : a ∈ s.acceptedFor a.reply := List.mem_filter.mpr ⟨ha, by simp⟩
  have hi : a.reply < s.calls.length := by
    by_contra hge
    rw [h.accepted _ (Nat.not_lt.mp hge)] at hmem
    cases hmem
  have hc : s.calls[a.reply]? = some s.calls[a.reply] := List.getElem?_eq_getElem hi
  refine ⟨_, hc, ?_⟩
  cases h.stage _ _ hc with
  | opening _ _ accepted | expecting _ _ accepted | settled _ _ accepted =>
    rw [accepted] at hmem
    cases hmem
  | accepted phase pending b accepted answers fits =>
    rw [accepted, List.mem_singleton] at hmem
    subst hmem
    exact ⟨phase, pending, accepted, answers, fits⟩

/-! ## Each move keeps the invariant -/

theorem inOrder_new (contacts : Contacts) : InOrder [] (.new contacts) where
  next := rfl
  ids := by simp [Endpoint.new]
  stage := by simp [Endpoint.new]
  pending := fun _ _ => rfl
  accepted := fun _ _ => rfl
  ended := by simp [Endpoint.new]
  results := by simp [Endpoint.new]

theorem InOrder.idle (h : InOrder moves s) (m : Move) (contacts : Contacts) :
    InOrder (moves ++ [m]) { s with contacts := contacts } where
  next := h.next
  ids := h.ids
  stage := fun i c hc => (h.stage i c hc).frame (by rfl) (by rfl) (by exact id) m
  pending := h.pending
  accepted := h.accepted
  ended := h.ended
  results := h.results

theorem InOrder.call (h : InOrder moves s) (peer : Addr) (request : Message) :
    InOrder (moves ++ [.call peer request]) (s.move (.call peer request)) := by
  have hsplit : ∀ (i : Nat) (c : CallState), (s.move (.call peer request)).calls[i]? = some c →
      s.calls[i]? = some c ∨
        i = s.calls.length ∧ c = ⟨s.nextMsgId, peer, request, .opening, [], 0⟩ := by
    intro i c hc
    have hc' : (s.calls ++ [⟨s.nextMsgId, peer, request, .opening, [], 0⟩])[i]? = some c := hc
    rw [List.getElem?_append] at hc'
    split at hc'
    · exact Or.inl hc'
    · rw [List.getElem?_singleton] at hc'
      split at hc'
      · exact Or.inr ⟨by omega, (Option.some.inj hc').symm⟩
      · cases hc'
  have hlen : (s.move (.call peer request)).calls.length = s.calls.length + 1 := by
    simp [Endpoint.move]
  refine ⟨?_, ?_, ?_, ?_, ?_, ?_, ?_⟩
  · have hnext := h.next
    show (s.nextMsgId + 1) % 2 ^ 32 = _
    omega
  · intro i c hc
    rcases hsplit i c hc with hc | ⟨rfl, rfl⟩
    · exact h.ids i c hc
    · exact h.next
  · intro i c hc
    rcases hsplit i c hc with hc | ⟨rfl, rfl⟩
    · exact (h.stage i c hc).frame (by rfl) (by rfl) (by exact id) _
    · exact .opening rfl (h.pending _ (Nat.le_refl _)) (h.accepted _ (Nat.le_refl _)) rfl
  · intro i hi
    exact h.pending i (by omega)
  · intro i hi
    exact h.accepted i (by omega)
  · intro i hi
    obtain ⟨c, r, hc, hr⟩ := h.ended i hi
    exact ⟨c, r, List.getElem?_append_left (List.getElem?_eq_some_iff.mp hc).1 ▸ hc, hr⟩
  · intro i c message hc hr
    rcases hsplit i c hc with hc | ⟨rfl, rfl⟩
    · exact h.results i c message hc hr
    · cases hr

/-- With fewer than `2 ^ 32` calls, the id of a call is its number. -/
theorem InOrder.msgId_eq (h : InOrder moves s) (hfew : s.calls.length ≤ 2 ^ 32)
    (hc : s.calls[i]? = some c) : c.msgId = i := by
  have hi := (List.getElem?_eq_some_iff.mp hc).1
  rw [h.ids i c hc]
  exact Nat.mod_eq_of_lt (by omega)

private theorem getElem?_set_self (hc : s.calls[i]? = some c) (c' : CallState) :
    (s.calls.set i c')[i]? = some c' :=
  List.getElem?_set_self (List.getElem?_eq_some_iff.mp hc).1

theorem InOrder.insert (h : InOrder moves s) (hfew : s.calls.length ≤ 2 ^ 32) (i : Nat) :
    InOrder (moves ++ [.insert i]) (s.move (.insert i)) := by
  simp only [Endpoint.move]
  split
  · rename_i c hc
    split
    · rename_i hphase
      have hid := h.msgId_eq hfew hc
      refine h.update (i := i) _ rfl (by simp) (fun j hj => by simp [Ne.symm hj]) ?_
        (fun j hj => rfl) (fun j hj => Iff.rfl) (List.getElem?_eq_some_iff.mp hc).1 ?_
      · intro j hj
        exact Function.update_of_ne (by rw [hid]; exact hj) ..
      · intro c' hc'
        obtain rfl := Option.some.inj ((getElem?_set_self hc _).symm.trans hc')
        refine ⟨h.ids i c hc, ?_, ?_, by simp⟩
        · cases h.stage i c hc with
          | opening _ pending accepted answers =>
            refine .expecting (Or.inl rfl) ?_ accepted answers
            show Function.update s.pending c.msgId _ i = _
            rw [hid, Function.update_self]
          | expecting phase => simp [hphase] at phase
          | accepted phase | settled phase => exact absurd hphase phase
        · intro hi
          obtain ⟨r, hr⟩ := h.ended_of_removal hc hi
          rw [hphase] at hr
          cases hr
    · exact h.idle _ s.contacts
  · exact h.idle _ s.contacts

theorem InOrder.abandon (h : InOrder moves s) (i : Nat) :
    InOrder (moves ++ [.abandon i]) (s.move (.abandon i)) := by
  simp only [Endpoint.move]
  split
  · rename_i c hc
    split
    · rename_i hphase
      refine h.update (i := i) _ rfl (by simp) (fun j hj => by simp [Ne.symm hj])
        (fun j hj => rfl) (fun j hj => rfl) (fun j hj => Iff.rfl)
        (List.getElem?_eq_some_iff.mp hc).1 ?_
      intro c' hc'
      obtain rfl := Option.some.inj ((getElem?_set_self hc _).symm.trans hc')
      refine ⟨h.ids i c hc, ?_, fun _ => ⟨none, rfl⟩, by simp⟩
      cases h.stage i c hc with
      | opening _ pending accepted answers =>
        refine .settled (by simp) pending accepted ?_ ?_ (by simp)
        · show c.answers.length ≤ 1
          simp [answers]
        · intro message hm
          have hm' : message ∈ c.answers := hm
          simp [answers] at hm'
      | expecting phase => simp [hphase] at phase
      | accepted phase | settled phase => exact absurd hphase phase
    · exact h.idle _ s.contacts
  · exact h.idle _ s.contacts

/-! ### Frames -/

theorem Stage.receipts (h : Stage moves s i c) (n : Nat) :
    Stage moves s i { c with receipts := n } := by
  cases h with
  | opening phase pending accepted answers => exact .opening phase pending accepted answers
  | expecting phase pending accepted answers => exact .expecting phase pending accepted answers
  | accepted phase pending a accepted answers fits =>
    exact .accepted phase pending a accepted answers fits
  | settled phase pending accepted length_le fits answered =>
    exact .settled phase pending accepted length_le fits answered

theorem InOrder.receipt (h : InOrder moves s) (m : Move) (hc : s.calls[i]? = some c) :
    InOrder (moves ++ [m]) { s with
      calls := s.calls.modify i fun c => { c with receipts := c.receipts + 1 } } := by
  refine h.update (i := i) m rfl (by simp) (fun j hj => by simp [Ne.symm hj])
    (fun j hj => rfl) (fun j hj => rfl) (fun j hj => Iff.rfl)
    (List.getElem?_eq_some_iff.mp hc).1 ?_
  intro c' hc'
  have hc'' : (s.calls.modify i fun c => { c with receipts := c.receipts + 1 })[i]? = some c' := hc'
  rw [List.getElem?_modify_eq, hc] at hc''
  obtain rfl := Option.some.inj hc''
  refine ⟨h.ids i c hc, ((h.stage i c hc).receipts _).frame (by rfl) (by rfl) (by exact id) m,
    ?_, fun message => h.results i c message hc⟩
  intro hi
  obtain ⟨r, hr⟩ := h.ended_of_removal hc hi
  exact ⟨r, hr⟩

theorem InOrder.accept (h : InOrder moves s) (hfew : s.calls.length ≤ 2 ^ 32) {peer : Addr}
    {msgId : Nat} {message : Message} {pc : PendingCall} (hp : s.pending msgId = some pc)
    (hpeer : pc.peer = peer) (haccepts : pc.expected.accepts message = true) :
    InOrder (moves ++ [.response peer msgId message]) { s with
      pending := Function.update s.pending msgId none
      accepted := s.accepted ++ [⟨pc.reply, peer, message, false⟩] } := by
  obtain ⟨c, hc, rfl, haccepted, hanswers, hphase⟩ := h.mapped hp
  have hfor : ∀ j, ({ s with
      pending := Function.update s.pending msgId none
      accepted := s.accepted ++ [⟨msgId, peer, message, false⟩] } : Endpoint).acceptedFor j =
      s.acceptedFor j ++ if j = msgId then [⟨msgId, peer, message, false⟩] else [] := by
    intro j
    unfold Endpoint.acceptedFor
    rw [List.filter_append]
    by_cases hj : j = msgId
    · simp [hj]
    · simp [hj, Ne.symm hj]
  refine h.update (i := msgId) _ rfl rfl (fun j hj => rfl)
    (fun j hj => Function.update_of_ne hj ..) (fun j hj => by rw [hfor, if_neg hj, List.append_nil])
    (fun j hj => Iff.rfl) (List.getElem?_eq_some_iff.mp hc).1 ?_
  intro c' hc'
  obtain rfl := Option.some.inj (hc.symm.trans hc')
  refine ⟨h.ids _ c hc, ?_, ?_, fun message => h.results _ c message hc⟩
  · refine .accepted ?_ (Function.update_self ..) ⟨msgId, peer, message, false⟩ ?_ hanswers
      ⟨haccepts, ?_⟩
    · rcases hphase with hw | ⟨⟨r, hr⟩, -⟩
      · rw [hw]
        simp
      · rw [hr]
        simp
    · rw [hfor, haccepted, if_pos rfl]
      rfl
    · rw [h.msgId_eq hfew hc, show c.peer = peer from hpeer]
      exact List.mem_append_right _ (List.mem_singleton_self _)
  · exact h.ended_of_removal hc

theorem InOrder.response (h : InOrder moves s) (hfew : s.calls.length ≤ 2 ^ 32) (peer : Addr)
    (msgId : Nat) (message : Message) :
    InOrder (moves ++ [.response peer msgId message]) (s.move (.response peer msgId message)) := by
  simp only [Endpoint.move, Endpoint.handleResponse]
  split
  · split
    · rename_i pc hp
      split
      · obtain ⟨c, hc, rfl, -⟩ := h.mapped hp
        exact h.receipt _ hc
      · exact h.idle _ s.contacts
    · exact h.idle _ s.contacts
  · split
    · rename_i pc hp
      split
      · rename_i hmatch
        exact h.accept hfew hp hmatch.1 hmatch.2
      · exact h.idle _ s.contacts
    · exact h.idle _ s.contacts

/-! ### Answers on their way -/

/-- The accepted frame at position `j`, and what else was accepted. It is the only one
for its call. -/
theorem InOrder.split_accepted (h : InOrder moves s) {j : Nat} {a : Accepted}
    (ha : s.accepted[j]? = some a) :
    ∃ pre post, (∀ a', s.accepted.set j a' = pre ++ a' :: post) ∧
      s.accepted.eraseIdx j = pre ++ post ∧
      (∀ k, k ≠ a.reply → s.acceptedFor k = (pre ++ post).filter fun b => b.reply = k) ∧
      (pre ++ post).filter (fun b => b.reply = a.reply) = [] := by
  obtain ⟨hj, hget⟩ := List.getElem?_eq_some_iff.mp ha
  have heq : s.accepted = s.accepted.take j ++ a :: s.accepted.drop (j + 1) := by simp [← hget]
  refine ⟨s.accepted.take j, s.accepted.drop (j + 1), ?_, List.eraseIdx_eq_take_drop_succ ..,
    ?_, ?_⟩
  · intro a'
    rw [List.set_eq_take_append_cons_drop, if_pos hj]
  · intro k hk
    unfold Endpoint.acceptedFor
    conv_lhs => rw [heq]
    rw [List.filter_append, List.filter_cons_of_neg (by simpa using Ne.symm hk),
      ← List.filter_append]
  · obtain ⟨-, -, -, -, hone, -⟩ := h.acceptedFor_eq (List.mem_of_getElem? ha)
    unfold Endpoint.acceptedFor at hone
    rw [heq, List.filter_append, List.filter_cons_of_pos (by simp)] at hone
    have hlen := congrArg List.length hone
    rw [List.length_append, List.length_cons, List.length_singleton] at hlen
    refine List.length_eq_zero_iff.mp ?_
    rw [List.filter_append, List.length_append]
    omega

theorem InOrder.welcome (h : InOrder moves s) (j now : Nat) :
    InOrder (moves ++ [.welcome j now]) (s.move (.welcome j now)) := by
  simp only [Endpoint.move, Endpoint.welcome]
  split
  · rename_i reply peer senderId ha
    obtain ⟨c, hc, hphase, hpending, -, hanswers, hfits⟩ :=
      h.acceptedFor_eq (List.mem_of_getElem? ha)
    obtain ⟨pre, post, hset, -, hother, hself⟩ := h.split_accepted ha
    refine h.update (i := reply) _ rfl rfl (fun k hk => rfl) (fun k hk => rfl) ?_
      (fun k hk => Iff.rfl) (List.getElem?_eq_some_iff.mp hc).1 ?_
    · intro k hk
      rw [hother k hk]
      unfold Endpoint.acceptedFor
      rw [hset, List.filter_append, List.filter_cons_of_neg (by simpa using Ne.symm hk),
        ← List.filter_append]
    · intro c' hc'
      obtain rfl := Option.some.inj (hc.symm.trans hc')
      refine ⟨h.ids _ c hc, ?_, ?_, fun message => h.results _ c message hc⟩
      · refine .accepted hphase hpending ⟨reply, peer, .pong senderId, true⟩ ?_ hanswers
          (hfits.mono _)
        rw [List.filter_append, List.append_eq_nil_iff] at hself
        unfold Endpoint.acceptedFor
        rw [hset, List.filter_append, List.filter_cons_of_pos (by simp), hself.1, hself.2,
          List.nil_append]
      · exact h.ended_of_removal hc
  · exact h.idle _ s.contacts

theorem InOrder.send (h : InOrder moves s) (m : Move) {j : Nat} {a : Accepted}
    (ha : s.accepted[j]? = some a) :
    InOrder (moves ++ [m]) { s with
      accepted := s.accepted.eraseIdx j
      calls := s.calls.modify a.reply fun c => c.send a.message } := by
  obtain ⟨c, hc, hphase, hpending, -, hanswers, hfits⟩ :=
    h.acceptedFor_eq (List.mem_of_getElem? ha)
  obtain ⟨pre, post, -, herase, hother, hself⟩ := h.split_accepted ha
  refine h.update (i := a.reply) m rfl (by simp) (fun k hk => by simp [Ne.symm hk])
    (fun k hk => rfl) ?_ (fun k hk => Iff.rfl) (List.getElem?_eq_some_iff.mp hc).1 ?_
  · intro k hk
    rw [hother k hk]
    unfold Endpoint.acceptedFor
    rw [herase]
  · intro c' hc'
    have hc'' : (s.calls.modify a.reply fun c => c.send a.message)[a.reply]? = some c' := hc'
    rw [List.getElem?_modify_eq, hc] at hc''
    have hsent : c.send a.message = c' := Option.some.inj hc''
    have hnone : ({ s with
        accepted := s.accepted.eraseIdx j
        calls := s.calls.modify a.reply fun c => c.send a.message } : Endpoint).acceptedFor
          a.reply = [] := by
      unfold Endpoint.acceptedFor
      rw [herase]
      exact hself
    have hended : a.reply ∈ s.removals → ∃ r, c.phase = .ended r := h.ended_of_removal hc
    rw [CallState.send] at hsent
    by_cases hw : c.phase = .waiting
    · rw [if_pos hw, hanswers] at hsent
      subst hsent
      refine ⟨h.ids _ c hc, .settled hphase hpending hnone (by simp) ?_ (by simp), hended, ?_⟩
      · intro message hm
        obtain rfl : message = a.message := by simpa using hm
        exact hfits.mono m
      · intro message hr
        rw [show c.phase = _ from hr] at hw
        cases hw
    · rw [if_neg hw] at hsent
      subst hsent
      exact ⟨h.ids _ c hc, .settled hphase hpending hnone (by simp [hanswers]) (by simp [hanswers])
        (fun hwait => absurd hwait hw), hended, fun message => h.results _ c message hc⟩

theorem InOrder.deliver (h : InOrder moves s) (j : Nat) :
    InOrder (moves ++ [.deliver j]) (s.move (.deliver j)) := by
  simp only [Endpoint.move, Endpoint.deliver]
  split
  · exact h.idle _ s.contacts
  · rename_i ha
    exact h.send _ ha
  · exact h.idle _ s.contacts

/-! ### Calls that end -/

theorem InOrder.endCall (h : InOrder moves s) (hfew : s.calls.length ≤ 2 ^ 32) (m : Move)
    (hc : s.calls[i]? = some c) (hw : c.phase = .waiting) {result : Option Message}
    (hresult : ∀ message, result = some message → message ∈ c.answers) (locked : Bool) :
    InOrder (moves ++ [m]) (s.endCall i c result locked) := by
  have hid := h.msgId_eq hfew hc
  have hi := (List.getElem?_eq_some_iff.mp hc).1
  have hnot : i ∉ s.removals := by
    intro hmem
    obtain ⟨r, hr⟩ := h.ended_of_removal hc hmem
    rw [hw] at hr
    cases hr
  have hself : Function.update s.pending c.msgId none i = none := by
    rw [hid, Function.update_self]
  unfold Endpoint.endCall Endpoint.dropGuard
  cases locked with
  | true =>
    refine h.update (i := i) m rfl (by simp) (fun k hk => by simp [Ne.symm hk]) (fun k hk => rfl)
      (fun k hk => rfl) (fun k hk => by simp [hk, hid]) hi ?_
    intro c' hc'
    obtain rfl := Option.some.inj ((getElem?_set_self hc _).symm.trans hc')
    refine ⟨h.ids i c hc, ?_, fun _ => ⟨result, rfl⟩, ?_⟩
    · cases h.stage i c hc with
      | opening phase => rw [hw] at phase; cases phase
      | expecting _ pending accepted answers =>
        exact .expecting (Or.inr ⟨⟨result, rfl⟩, by simp [hid]⟩) pending accepted answers
      | accepted _ pending a accepted answers fits =>
        exact .accepted (by simp) pending a accepted answers (fits.mono m)
      | settled _ pending accepted length_le fits answered =>
        exact .settled (by simp) pending accepted length_le
          (fun message hm => (fits message hm).mono m) (by simp)
    · intro message hr
      exact hresult message (Phase.ended.inj hr)
  | false =>
    refine h.update (i := i) m rfl (by simp) (fun k hk => by simp [Ne.symm hk])
      (fun k hk => Function.update_of_ne (by rw [hid]; exact hk) ..) (fun k hk => rfl)
      (fun k hk => Iff.rfl) hi ?_
    intro c' hc'
    obtain rfl := Option.some.inj ((getElem?_set_self hc _).symm.trans hc')
    refine ⟨h.ids i c hc, ?_, fun hmem => absurd hmem hnot, ?_⟩
    · cases h.stage i c hc with
      | opening phase => rw [hw] at phase; cases phase
      | expecting _ pending accepted answers =>
        exact .settled (by simp) hself accepted (by simp [answers]) (by simp [answers]) (by simp)
      | accepted _ pending a accepted answers fits =>
        exact .accepted (by simp) hself a accepted answers (fits.mono m)
      | settled _ pending accepted length_le fits answered =>
        exact .settled (by simp) hself accepted length_le
          (fun message hm => (fits message hm).mono m) (by simp)
    · intro message hr
      exact hresult message (Phase.ended.inj hr)

theorem InOrder.finish (h : InOrder moves s) (hfew : s.calls.length ≤ 2 ^ 32) (i : Nat)
    (locked : Bool) : InOrder (moves ++ [.finish i locked]) (s.move (.finish i locked)) := by
  simp only [Endpoint.move]
  split
  · rename_i c hc
    split
    · rename_i message rest hw hans
      refine h.endCall hfew _ hc hw ?_ locked
      intro message' he
      obtain rfl := Option.some.inj he
      rw [hans]
      exact List.mem_cons_self ..
    · exact h.idle _ s.contacts
  · exact h.idle _ s.contacts

theorem InOrder.giveUp (h : InOrder moves s) (hfew : s.calls.length ≤ 2 ^ 32) (i : Nat)
    (locked : Bool) : InOrder (moves ++ [.giveUp i locked]) (s.move (.giveUp i locked)) := by
  simp only [Endpoint.move]
  split
  · rename_i c hc
    split
    · rename_i hw
      exact h.endCall hfew _ hc hw (by simp) locked
    · exact h.idle _ s.contacts
  · exact h.idle _ s.contacts

theorem InOrder.removal (h : InOrder moves s) (j : Nat) :
    InOrder (moves ++ [.removal j]) (s.move (.removal j)) := by
  simp only [Endpoint.move]
  split
  · rename_i i hj
    obtain ⟨c, r, hc, hr⟩ := h.ended i (List.mem_of_getElem? hj)
    obtain ⟨hlt, hget⟩ := List.getElem?_eq_some_iff.mp hj
    refine h.update (i := i) _ rfl rfl (fun k hk => rfl) (fun k hk => Function.update_of_ne hk ..)
      (fun k hk => rfl) ?_ (List.getElem?_eq_some_iff.mp hc).1 ?_
    · intro k hk
      refine ⟨List.mem_of_mem_eraseIdx, ?_⟩
      intro hmem
      obtain ⟨n, hn, hkn⟩ := List.getElem_of_mem hmem
      refine List.mem_eraseIdx_iff_getElem.mpr ⟨n, hn, ?_, hkn⟩
      rintro rfl
      exact hk (hkn.symm.trans hget)
    · intro c' hc'
      obtain rfl := Option.some.inj (hc.symm.trans hc')
      refine ⟨h.ids i c hc, ?_, fun _ => ⟨r, hr⟩, fun message => h.results i c message hc⟩
      cases h.stage i c hc with
      | opening phase => rw [hr] at phase; cases phase
      | expecting _ pending accepted answers =>
        exact .settled (by simp [hr]) (Function.update_self ..) accepted (by simp [answers])
          (by simp [answers]) (by simp [hr])
      | accepted phase pending a accepted answers fits =>
        exact .accepted phase (Function.update_self ..) a accepted answers (fits.mono _)
      | settled phase pending accepted length_le fits answered =>
        exact .settled phase (Function.update_self ..) accepted length_le
          (fun message hm => (fits message hm).mono _) answered
  · exact h.idle _ s.contacts

/-! ## Runs -/

theorem InOrder.move (h : InOrder moves s) (hfew : s.calls.length ≤ 2 ^ 32) (m : Move) :
    InOrder (moves ++ [m]) (s.move m) := by
  cases m with
  | call peer request => exact h.call peer request
  | insert i => exact h.insert hfew i
  | abandon i => exact h.abandon i
  | response peer msgId message => exact h.response hfew peer msgId message
  | welcome j now => exact h.welcome j now
  | deliver j => exact h.deliver j
  | finish i locked => exact h.finish hfew i locked
  | giveUp i locked => exact h.giveUp hfew i locked
  | removal j => exact h.removal j
  | meet contacts => exact h.idle _ contacts

theorem length_calls_move (s : Endpoint) (m : Move) : s.calls.length ≤ (s.move m).calls.length := by
  have hend : ∀ i c result locked, (s.endCall i c result locked).calls.length = s.calls.length := by
    intro i c result locked
    unfold Endpoint.endCall Endpoint.dropGuard
    split <;> simp
  cases m with
  | call peer request => simp [Endpoint.move]
  | insert i | abandon i =>
    simp only [Endpoint.move]
    split
    · split <;> simp
    · exact Nat.le_refl _
  | response peer msgId message =>
    simp only [Endpoint.move, Endpoint.handleResponse]
    split <;> split <;> (try split) <;> simp
  | welcome j now =>
    simp only [Endpoint.move, Endpoint.welcome]
    split <;> simp
  | deliver j =>
    simp only [Endpoint.move, Endpoint.deliver]
    split <;> simp
  | finish i locked =>
    simp only [Endpoint.move]
    split
    · split <;> simp [hend]
    · exact Nat.le_refl _
  | giveUp i locked =>
    simp only [Endpoint.move]
    split
    · split <;> simp [hend]
    · exact Nat.le_refl _
  | removal j =>
    simp only [Endpoint.move]
    split <;> simp
  | meet contacts => exact Nat.le_refl _

/-- **The invariant holds in every run with fewer than `2 ^ 32` calls.** -/
theorem inOrder_after (contacts : Contacts) (moves : List Move)
    (hfew : (Endpoint.after contacts moves).calls.length ≤ 2 ^ 32) :
    InOrder moves (.after contacts moves) := by
  induction moves using List.reverseRecOn with
  | nil => exact inOrder_new contacts
  | append_singleton moves m ih =>
    have hafter :
        Endpoint.after contacts (moves ++ [m]) = (Endpoint.after contacts moves).move m := by
      simp [Endpoint.after]
    rw [hafter] at hfew ⊢
    have hle := (length_calls_move (.after contacts moves) m).trans hfew
    exact (ih hle).move hle m

end AuthKademlia.Protocol.Pending
