import AuthKademlia.Protocol.Messages
import AuthKademlia.Protocol.Contacts
import AuthKademlia.Protocol.Retransmit

/-! # The loop of one call

`call` sends a request and waits for its answer until a deadline. Receipts and the
timer make it wait longer or send the request again, and some events measure the
round trip to the peer. The moves of a run are what happens to the call, in any
order and at any time: time passes, other calls measure the same peers, frames
arrive. `takeAnswer`, `takeReceipt` and `takeTimer` are the branches of the select,
of which any one that is ready may be taken. Sending takes no time.

The state keeps a record of what the call did: when it sent the request, what it
measured, and every duration and instant that it computed. -/
namespace AuthKademlia.Protocol.CallLoop
open AuthKademlia.Storage AuthKademlia.Utils AuthKademlia.Protocol

structure Call where
  peer : Addr
  message : Message
  firstSent : Instant

namespace Call

def deadline (c : Call) : Instant := c.firstSent + rpcTimeout

def expected (c : Call) : ExpectedResponse := .forRequest c.message

/-- The answer to a request that carries a record comes after the record is handled. -/
def answerMeasures (c : Call) : Bool := (carriedRecord c.message).isNone

end Call

/-- The event that a round trip was measured by. -/
inductive Event where
  | answer
  | receipt (nth : Nat)
  deriving DecidableEq

/-- A measurement, and how often the request had been sent when it was made. -/
structure Sample where
  event : Event
  sends : Nat
  deriving DecidableEq

structure State where
  now : Instant
  roundTrips : RoundTrips Addr
  /-- What the reply channel holds; `some none` if it was closed. -/
  answer : Option (Option Message)
  /-- The permit of `received`. -/
  notified : Bool
  wait : Nat
  nextSend : Instant
  resends : Nat
  receipts : Nat
  /-- When the call ended, and with what. -/
  ended : Option (Instant × Option Message)
  sent : List Instant
  samples : List Sample
  /-- When the answer was handed to the call. -/
  answeredAt : Option Instant
  durations : List Nat
  instants : List Instant

inductive Move where
  | pass (d : Nat)
  /-- Other calls change the estimates. -/
  | others (roundTrips : RoundTrips Addr)
  | receipt
  | reply (message : Message)
  /-- The other end of the reply channel is dropped. -/
  | close
  | takeAnswer
  | takeReceipt
  /-- The request is sent again, if it is: does that succeed? -/
  | takeTimer (delivered : Bool)

namespace State

def finish (s : State) (result : Option Message) : State := { s with ended := some (s.now, result) }

/-- `self.round_trips.record(addr, first_sent.elapsed())`. -/
def measure (s : State) (c : Call) (event : Event) : State :=
  { s with
    roundTrips := s.roundTrips.record s.now c.peer (s.now - c.firstSent)
    samples := s.samples ++ [⟨event, s.sent.length⟩]
    durations := s.durations ++ s.roundTrips.recordComputes c.peer (s.now - c.firstSent) }

/-- The next copy waits for twice `base` from now. -/
def backOff (s : State) (base : Nat) : State :=
  { s with
    wait := base * 2
    nextSend := s.now + base * 2
    durations := s.durations ++ [base * 2]
    instants := s.instants ++ [s.now + base * 2] }

def due (s : State) (c : Call) : Instant := min s.nextSend c.deadline

def takeAnswer (s : State) (c : Call) : State :=
  match s.answer with
  | none => s
  | some none => s.finish none
  | some (some response) =>
    if c.answerMeasures ∧ s.resends = 0 then (s.measure c .answer).finish (some response)
    else s.finish (some response)

def notice (s : State) : State := { s with notified := false, receipts := s.receipts + 1 }

/-- The wait starts anew from the estimate of the peer. -/
def restart (s : State) (c : Call) : State :=
  { s with durations := s.durations ++ s.roundTrips.resendAfterComputes c.peer }.backOff
    (s.roundTrips.resendAfter c.peer)

def takeReceipt (s : State) (c : Call) : State :=
  if s.notified then
    if s.notice.receipts = 1 then
      if s.resends = 0 then (s.notice.measure c (.receipt s.notice.receipts)).restart c
      else s.notice.restart c
    else s.notice.backOff s.wait
  else s

def resend (s : State) : State := { s with resends := s.resends + 1, sent := s.sent ++ [s.now] }

def takeTimer (s : State) (c : Call) (delivered : Bool) : State :=
  if s.due c ≤ s.now then
    if c.deadline ≤ s.now then s.finish none
    else if s.resends = maxResends then { s with nextSend := c.deadline }
    else if delivered then s.resend.backOff s.wait
    else s.resend.finish none
  else s

/-- What a move does to a call that has not ended. A branch that is not ready is not taken, and
frames that the receive path would refuse are not handed to the call. -/
def act (c : Call) (s : State) : Move → State
  | .pass d => { s with now := s.now + d }
  | .others roundTrips => { s with roundTrips }
  | .receipt =>
    if c.expected.afterReceipt ∧ s.answer = none then { s with notified := true } else s
  | .reply message =>
    if c.expected.accepts message ∧ s.answer = none then
      { s with answer := some (some message), answeredAt := some s.now }
    else s
  | .close => if s.answer = none then { s with answer := some none } else s
  | .takeAnswer => s.takeAnswer c
  | .takeReceipt => s.takeReceipt c
  | .takeTimer delivered => s.takeTimer c delivered

def step (c : Call) (s : State) (m : Move) : State := if s.ended = none then s.act c m else s

def run (c : Call) (s : State) (moves : List Move) : State := moves.foldl (step c) s

end State

/-- How the first copy of the request fares. -/
inductive FirstSend where
  /-- `encode_frame` refuses the frame. -/
  | refused
  | failed
  | sent

def begin (c : Call) (roundTrips : RoundTrips Addr) (first : FirstSend) : State :=
  let s : State :=
    { now := c.firstSent, roundTrips, answer := none, notified := false, wait := 0
      nextSend := c.firstSent, resends := 0, receipts := 0, ended := none, sent := []
      samples := [], answeredAt := none, durations := [], instants := [] }
  match first with
  | .refused => s.finish none
  | .failed => { s with sent := [c.firstSent], instants := [c.deadline] }.finish none
  | .sent =>
    { s with
      wait := roundTrips.resendAfter c.peer
      nextSend := c.firstSent + roundTrips.resendAfter c.peer
      sent := [c.firstSent]
      durations := roundTrips.resendAfterComputes c.peer
      instants := [c.deadline, c.firstSent + roundTrips.resendAfter c.peer] }

/-! ## What a branch of the select can do -/

/-- The states that one turn of the loop can lead to. -/
inductive Turn (c : Call) (s : State) : State → Prop
  | idle : Turn c s s
  | finished (result : Option Message) : Turn c s (s.finish result)
  | answered (response : Message) (hm : c.answerMeasures) (h0 : s.resends = 0) :
    Turn c s ((s.measure c .answer).finish (some response))
  | measured (hn : s.notified) (hr : s.receipts = 0) (h0 : s.resends = 0) :
    Turn c s ((s.notice.measure c (.receipt 1)).restart c)
  | restarted (hn : s.notified) (hr : s.receipts = 0) : Turn c s (s.notice.restart c)
  | postponed (hn : s.notified) (hr : 0 < s.receipts) : Turn c s (s.notice.backOff s.wait)
  | parked (hmax : s.resends = maxResends) : Turn c s { s with nextSend := c.deadline }
  | resent (hdue : s.nextSend ≤ s.now) (htime : s.now < c.deadline)
    (hmax : s.resends ≠ maxResends) : Turn c s (s.resend.backOff s.wait)
  | unsent (htime : s.now < c.deadline) (hmax : s.resends ≠ maxResends) :
    Turn c s (s.resend.finish none)

namespace State

variable (s : State) (c : Call)

theorem takeAnswer_turn : Turn c s (s.takeAnswer c) := by
  unfold takeAnswer
  split
  · exact .idle
  · exact .finished none
  · rename_i response _
    split
    · rename_i h
      exact .answered response h.1 h.2
    · exact .finished (some response)

theorem takeReceipt_turn : Turn c s (s.takeReceipt c) := by
  unfold takeReceipt
  split
  · rename_i hn
    split
    · rename_i hr
      have h0 : s.receipts = 0 := Nat.succ.inj hr
      split
      · rename_i hresends
        rw [hr]
        exact .measured hn h0 hresends
      · exact .restarted hn h0
    · rename_i hr
      exact .postponed hn (Nat.pos_of_ne_zero fun h0 => hr (congrArg Nat.succ h0))
  · exact .idle

theorem takeTimer_turn (delivered : Bool) : Turn c s (s.takeTimer c delivered) := by
  unfold takeTimer
  split
  · rename_i hdue
    split
    · exact .finished none
    · rename_i htime
      have hnext : s.nextSend ≤ s.now := (min_le_iff.mp hdue).resolve_right htime
      split
      · exact .parked (by assumption)
      · rename_i hmax
        split
        · exact .resent hnext (Nat.lt_of_not_le htime) hmax
        · exact .unsent (Nat.lt_of_not_le htime) hmax
  · exact .idle

end State

/-! ## Every run

No copy more than `maxResends`, none after the deadline, and at most one measurement. -/

/-- The event that measures the round trip of a call. -/
def Call.measuredBy (c : Call) : Event := if c.answerMeasures then .answer else .receipt 1

/-- What the loop goes by, while the call has not ended. -/
structure Going (c : Call) (s : State) : Prop where
  sends : s.sent.length = s.resends + 1
  resends : s.resends ≤ maxResends
  receipts : s.notified ∨ 0 < s.receipts → c.answerMeasures = false
  samples : s.receipts = 0 → s.samples = []

structure Bounded (c : Call) (s : State) : Prop where
  sends : s.sent.length ≤ 1 + maxResends
  inTime : ∀ t ∈ s.sent, t < c.deadline
  samples : s.samples = [] ∨ s.samples = [⟨c.measuredBy, 1⟩]
  going : s.ended = none → Going c s

variable {c : Call} {s s' : State}

/-- The states differ in the clock and in what the call is waiting for. -/
structure Alike (s s' : State) : Prop where
  sent : s'.sent = s.sent
  resends : s'.resends = s.resends
  receipts : s'.receipts = s.receipts
  notified : s'.notified = s.notified
  samples : s'.samples = s.samples
  ended : s'.ended = s.ended

theorem Bounded.alike (h : Bounded c s) (ha : Alike s s') : Bounded c s' := by
  obtain ⟨hsent, hresends, hreceipts, hnotified, hsamples, hended⟩ := ha
  refine ⟨hsent ▸ h.sends, hsent ▸ h.inTime, hsamples ▸ h.samples, ?_⟩
  intro hend
  have hg := h.going (hended ▸ hend)
  refine ⟨?_, hresends ▸ hg.resends, ?_, ?_⟩
  · rw [hsent, hresends, hg.sends]
  · rw [hnotified, hreceipts]
    exact hg.receipts
  · rw [hreceipts, hsamples]
    exact hg.samples

theorem Bounded.finish (h : Bounded c s) (result : Option Message) :
    Bounded c (s.finish result) :=
  ⟨h.sends, h.inTime, h.samples, fun hend => by cases hend⟩

theorem Going.measure_samples (hg : Going c s) (hnone : s.samples = []) (h0 : s.resends = 0)
    (event : Event) : (s.measure c event).samples = [⟨event, 1⟩] := by
  show s.samples ++ [⟨event, s.sent.length⟩] = _
  rw [hnone, hg.sends, h0]
  rfl

theorem Bounded.notice (h : Bounded c s) (hg : Going c s) (hn : s.notified) :
    Bounded c s.notice :=
  ⟨h.sends, h.inTime, h.samples, fun _ =>
    ⟨hg.sends, hg.resends, fun _ => hg.receipts (Or.inl hn), fun hr => by cases hr⟩⟩

theorem Bounded.measureReceipt (h : Bounded c s) (hg : Going c s) (hn : s.notified)
    (hr : s.receipts = 0) (h0 : s.resends = 0) :
    Bounded c (s.notice.measure c (.receipt 1)) := by
  have hcarries : c.answerMeasures = false := hg.receipts (Or.inl hn)
  have hby : c.measuredBy = .receipt 1 := by
    unfold Call.measuredBy
    rw [hcarries]
    rfl
  refine ⟨h.sends, h.inTime, Or.inr ?_, fun _ => ?_⟩
  · rw [hby]
    exact hg.measure_samples (hg.samples hr) h0 (.receipt 1)
  · exact ⟨hg.sends, hg.resends, fun _ => hcarries, fun hr => by cases hr⟩

theorem Bounded.measureAnswer (h : Bounded c s) (hg : Going c s) (hm : c.answerMeasures)
    (h0 : s.resends = 0) (result : Option Message) :
    Bounded c ((s.measure c .answer).finish result) := by
  have hr : s.receipts = 0 := by
    by_contra hr
    rw [hg.receipts (Or.inr (Nat.pos_of_ne_zero hr))] at hm
    cases hm
  refine ⟨h.sends, h.inTime, Or.inr ?_, fun hend => by cases hend⟩
  rw [show c.measuredBy = .answer from if_pos hm]
  exact hg.measure_samples (hg.samples hr) h0 .answer

theorem Bounded.resend (h : Bounded c s) (hg : Going c s) (htime : s.now < c.deadline)
    (hmax : s.resends ≠ maxResends) : Bounded c s.resend := by
  have hlen : s.resend.sent.length = s.resends + 1 + 1 := by
    rw [← hg.sends]
    exact List.length_append
  have hlt : s.resends < maxResends := lt_of_le_of_ne hg.resends hmax
  refine ⟨by omega, ?_, h.samples, fun _ => ⟨hlen, hlt, hg.receipts, hg.samples⟩⟩
  intro t ht
  rcases List.mem_append.mp ht with ht | ht
  · exact h.inTime t ht
  · rwa [List.mem_singleton.mp ht]

theorem Bounded.turn (h : Bounded c s) (hg : Going c s) (ht : Turn c s s') : Bounded c s' := by
  cases ht with
  | idle => exact h
  | finished result => exact h.finish result
  | answered response hm h0 => exact h.measureAnswer hg hm h0 _
  | measured hn hr h0 => exact (h.measureReceipt hg hn hr h0).alike ⟨rfl, rfl, rfl, rfl, rfl, rfl⟩
  | restarted hn hr => exact (h.notice hg hn).alike ⟨rfl, rfl, rfl, rfl, rfl, rfl⟩
  | postponed hn hr => exact (h.notice hg hn).alike ⟨rfl, rfl, rfl, rfl, rfl, rfl⟩
  | parked hmax => exact h.alike ⟨rfl, rfl, rfl, rfl, rfl, rfl⟩
  | resent hdue htime hmax =>
    exact (h.resend hg htime hmax).alike ⟨rfl, rfl, rfl, rfl, rfl, rfl⟩
  | unsent htime hmax => exact (h.resend hg htime hmax).finish none

theorem Call.receipted (c : Call) : c.expected.afterReceipt = !c.answerMeasures := by
  unfold Call.expected Call.answerMeasures
  rw [afterReceipt_iff, Option.not_isNone]

theorem Bounded.act (h : Bounded c s) (hgo : s.ended = none) (m : Move) :
    Bounded c (s.act c m) := by
  have hg := h.going hgo
  cases m with
  | pass d => exact h.alike ⟨rfl, rfl, rfl, rfl, rfl, rfl⟩
  | others roundTrips => exact h.alike ⟨rfl, rfl, rfl, rfl, rfl, rfl⟩
  | receipt =>
    dsimp only [State.act]
    split
    · rename_i hreceipt
      have hcarries : c.answerMeasures = false := by
        rw [c.receipted, Bool.not_eq_true'] at hreceipt
        exact hreceipt.1
      exact ⟨h.sends, h.inTime, h.samples, fun _ =>
        ⟨hg.sends, hg.resends, fun _ => hcarries, hg.samples⟩⟩
    · exact h
  | reply message =>
    dsimp only [State.act]
    split
    · exact h.alike ⟨rfl, rfl, rfl, rfl, rfl, rfl⟩
    · exact h
  | close =>
    dsimp only [State.act]
    split
    · exact h.alike ⟨rfl, rfl, rfl, rfl, rfl, rfl⟩
    · exact h
  | takeAnswer => exact h.turn hg (s.takeAnswer_turn c)
  | takeReceipt => exact h.turn hg (s.takeReceipt_turn c)
  | takeTimer delivered => exact h.turn hg (s.takeTimer_turn c delivered)

theorem Bounded.step (h : Bounded c s) (m : Move) : Bounded c (s.step c m) := by
  unfold State.step
  split
  · rename_i hgo
    exact h.act hgo m
  · exact h

theorem bounded_begin (c : Call) (roundTrips : RoundTrips Addr) (first : FirstSend) :
    Bounded c (begin c roundTrips first) := by
  have htime : ∀ t ∈ [c.firstSent], t < c.deadline := by
    intro t ht
    rw [List.mem_singleton.mp ht]
    exact Nat.lt_add_of_pos_right (by decide)
  cases first with
  | refused => exact ⟨Nat.zero_le _, fun t ht => (nomatch ht), Or.inl rfl, fun hend => nomatch hend⟩
  | failed => exact ⟨Nat.le_add_right 1 _, htime, Or.inl rfl, fun hend => nomatch hend⟩
  | sent =>
    refine ⟨Nat.le_add_right 1 _, htime, Or.inl rfl, fun _ =>
      ⟨rfl, Nat.zero_le _, fun hreceipt => ?_, fun _ => rfl⟩⟩
    rcases hreceipt with hreceipt | hreceipt <;> cases hreceipt

theorem bounded_run (c : Call) (roundTrips : RoundTrips Addr) (first : FirstSend)
    (moves : List Move) : Bounded c ((begin c roundTrips first).run c moves) := by
  unfold State.run
  induction moves using List.reverseRecOn with
  | nil => exact bounded_begin c roundTrips first
  | append_singleton moves m ih =>
    rw [List.foldl_append]
    exact ih.step m

/-! ## Prompt runs

A loop that is served late may end late. In a prompt run time passes only while no
branch is ready, and no further than to when the timer fires. -/

/-- A branch of the select can be taken. -/
def Ready (c : Call) (s : State) : Prop :=
  s.answer.isSome ∨ s.notified ∨ s.due c ≤ s.now

instance (c : Call) (s : State) : Decidable (Ready c s) :=
  inferInstanceAs (Decidable (_ ∨ _ ∨ _))

def Timely (c : Call) (s : State) : Move → Prop
  | .pass d => ¬ Ready c s ∧ s.now + d ≤ s.due c
  | _ => True

instance (c : Call) (s : State) : (m : Move) → Decidable (Timely c s m)
  | .pass _ => inferInstanceAs (Decidable (_ ∧ _))
  | .others _ | .receipt | .reply _ | .close | .takeAnswer | .takeReceipt | .takeTimer _ =>
    .isTrue trivial

def Prompt (c : Call) : State → List Move → Prop
  | _, [] => True
  | s, m :: moves => (s.ended = none → Timely c s m) ∧ Prompt c (s.step c m) moves

instance Prompt.decidable (c : Call) : (s : State) → (moves : List Move) →
    Decidable (Prompt c s moves)
  | _, [] => .isTrue trivial
  | s, m :: moves =>
    have := Prompt.decidable c (s.step c m) moves
    inferInstanceAs (Decidable ((s.ended = none → Timely c s m) ∧ Prompt c (s.step c m) moves))

structure OnTime (c : Call) (s : State) : Prop where
  now : s.now ≤ c.deadline
  /-- The clock stands still from when the answer is there. -/
  answered : ∀ t, s.answeredAt = some t → s.answer.isSome ∧ s.now ≤ t
  /-- And from when the call has ended. -/
  ended : ∀ e, s.ended = some e → e.1 = s.now

theorem Turn.same_time (ht : Turn c s s') :
    s'.now = s.now ∧ s'.answer = s.answer ∧ s'.answeredAt = s.answeredAt := by
  cases ht <;> exact ⟨rfl, rfl, rfl⟩

theorem Turn.ended_now (ht : Turn c s s') (hgo : s.ended = none) :
    ∀ e, s'.ended = some e → e.1 = s'.now := by
  intro e he
  cases ht with
  | idle | restarted | postponed | parked | resent | measured => cases hgo.symm.trans he
  | finished | answered | unsent => exact (congrArg Prod.fst (Option.some.inj he)).symm

theorem OnTime.turn (h : OnTime c s) (hgo : s.ended = none) (ht : Turn c s s') : OnTime c s' := by
  obtain ⟨hnow, hanswer, hat⟩ := ht.same_time
  refine ⟨hnow ▸ h.now, ?_, ht.ended_now hgo⟩
  rw [hanswer, hat, hnow]
  exact h.answered

theorem OnTime.act (h : OnTime c s) (hgo : s.ended = none) {m : Move} (htimely : Timely c s m) :
    OnTime c (s.act c m) := by
  cases m with
  | pass d =>
    obtain ⟨hready, hdue⟩ := htimely
    refine ⟨le_trans hdue (min_le_right _ _), ?_, fun e he => nomatch hgo.symm.trans he⟩
    intro t ht
    exact absurd (Or.inl (h.answered t ht).1) hready
  | others roundTrips => exact ⟨h.now, h.answered, h.ended⟩
  | receipt =>
    dsimp only [State.act]
    split
    · exact ⟨h.now, h.answered, h.ended⟩
    · exact h
  | reply message =>
    dsimp only [State.act]
    split
    · refine ⟨h.now, ?_, h.ended⟩
      intro t ht
      exact ⟨rfl, le_of_eq (Option.some.inj ht)⟩
    · exact h
  | close =>
    dsimp only [State.act]
    split
    · exact ⟨h.now, fun t ht => ⟨rfl, (h.answered t ht).2⟩, h.ended⟩
    · exact h
  | takeAnswer => exact h.turn hgo (s.takeAnswer_turn c)
  | takeReceipt => exact h.turn hgo (s.takeReceipt_turn c)
  | takeTimer delivered => exact h.turn hgo (s.takeTimer_turn c delivered)

theorem OnTime.run (h : OnTime c s) {moves : List Move} (hprompt : Prompt c s moves) :
    OnTime c (s.run c moves) := by
  induction moves generalizing s with
  | nil => exact h
  | cons m moves ih =>
    obtain ⟨htimely, hprompt⟩ := hprompt
    refine ih ?_ hprompt
    unfold State.step
    split
    · rename_i hgo
      exact h.act hgo (htimely hgo)
    · exact h

theorem onTime_begin (c : Call) (roundTrips : RoundTrips Addr) (first : FirstSend) :
    OnTime c (begin c roundTrips first) := by
  have hnow : c.firstSent ≤ c.deadline := Nat.le_add_right _ _
  cases first with
  | refused | failed =>
    refine ⟨hnow, fun t ht => (nomatch ht), ?_⟩
    intro e he
    exact (congrArg Prod.fst (Option.some.inj he)).symm
  | sent => exact ⟨hnow, fun t ht => (nomatch ht), fun e he => nomatch he⟩

theorem State.takeTimer_deadline (hgo : s.ended = none) (hdue : c.deadline ≤ s.now)
    (delivered : Bool) : (s.step c (.takeTimer delivered)).ended = some (s.now, none) := by
  have hfires : s.due c ≤ s.now := le_trans (min_le_right _ _) hdue
  simp only [step, hgo, act, takeTimer, hfires, hdue, if_true, finish]

theorem State.wait_deadline (hgo : s.ended = none) (hnow : s.now ≤ c.deadline)
    (delivered : Bool) :
    ((s.step c (.pass (c.deadline - s.now))).step c (.takeTimer delivered)).ended =
      some (c.deadline, none) := by
  have hstep : s.step c (.pass (c.deadline - s.now)) = { s with now := c.deadline } := by
    unfold step
    rw [if_pos hgo]
    dsimp only [act]
    rw [Nat.add_sub_cancel' hnow]
  rw [hstep]
  exact takeTimer_deadline (s := { s with now := c.deadline }) hgo le_rfl delivered

theorem State.takeAnswer_answer (hgo : s.ended = none) {result : Option Message}
    (hanswer : s.answer = some result) :
    (s.step c .takeAnswer).ended = some (s.now, result) := by
  simp only [step, hgo, act, takeAnswer, hanswer, if_true]
  cases result with
  | none => rfl
  | some response =>
    dsimp only
    split <;> rfl

/-! ## What the loop computes -/

def Move.duration : Move → Nat
  | .pass d => d
  | _ => 0

def Move.notices : Move → Nat
  | .takeReceipt => 1
  | _ => 0

def elapsed (moves : List Move) : Nat := (moves.map Move.duration).sum

/-- The receipts that a run notices. -/
def noticed (moves : List Move) : Nat := (moves.map Move.notices).sum

/-- The longest wait after so many receipts. -/
def longestWait (receipts : Nat) : Nat := rpcTimeout * 2 ^ max receipts 1

/-- What a call has computed, given that the estimates of the peer are at most `bound`. -/
structure Ranged (bound : Nat) (c : Call) (s : State) : Prop where
  began : c.firstSent ≤ s.now
  estimates : s.roundTrips.Within bound c.peer
  wait : s.wait ≤ longestWait s.receipts
  /-- While copies remain, the next one is not due before so long after the first. -/
  spaced : s.resends ≠ maxResends → c.firstSent + s.wait ≤ s.nextSend
  durations : ∀ d ∈ s.durations, d ≤ max (bound * 7) (longestWait s.receipts)
  instants : ∀ t ∈ s.instants, t ≤ c.deadline + longestWait s.receipts

theorem longestWait_mono {m n : Nat} (h : m ≤ n) : longestWait m ≤ longestWait n :=
  Nat.mul_le_mul_left _ (Nat.pow_le_pow_right (by decide) (max_le_max_right 1 h))

theorem longestWait_min (n : Nat) : rpcTimeout * 2 ≤ longestWait n :=
  Nat.mul_le_mul_left _ (Nat.le_self_pow (by omega) 2)

theorem longestWait_succ {n : Nat} (h : 0 < n) : longestWait (n + 1) = longestWait n * 2 := by
  unfold longestWait
  rw [max_eq_left (by omega), max_eq_left (by omega), Nat.pow_succ, Nat.mul_assoc]

variable {bound : Nat}

theorem Ranged.backOff (h : Ranged bound c s) (hnow : s.now ≤ c.deadline) {base : Nat}
    (hbase : base * 2 ≤ longestWait s.receipts) : Ranged bound c (s.backOff base) := by
  refine ⟨h.began, h.estimates, hbase, fun _ => Nat.add_le_add_right h.began _, ?_, ?_⟩
  · intro d hd
    rcases List.mem_append.mp hd with hd | hd
    · exact h.durations d hd
    · rw [List.mem_singleton.mp hd]
      exact le_max_of_le_right hbase
  · intro t ht
    rcases List.mem_append.mp ht with ht | ht
    · exact h.instants t ht
    · rw [List.mem_singleton.mp ht]
      exact Nat.add_le_add hnow hbase

theorem Ranged.notice (h : Ranged bound c s) : Ranged bound c s.notice := by
  have hmore : longestWait s.receipts ≤ longestWait s.notice.receipts :=
    longestWait_mono (Nat.le_succ _)
  refine ⟨h.began, h.estimates, le_trans h.wait hmore, h.spaced, ?_, ?_⟩
  · intro d hd
    exact le_trans (h.durations d hd) (max_le_max_left _ hmore)
  · intro t ht
    exact le_trans (h.instants t ht) (Nat.add_le_add_left hmore _)

theorem Ranged.measure (h : Ranged bound c s) (hnow : s.now ≤ c.deadline)
    (hbound : rpcTimeout ≤ bound) (event : Event) : Ranged bound c (s.measure c event) := by
  have hsample : s.now - c.firstSent ≤ bound :=
    le_trans (Nat.sub_le_iff_le_add'.mpr hnow) hbound
  refine ⟨h.began, h.estimates.record s.now hsample, h.wait, h.spaced, ?_, h.instants⟩
  intro d hd
  rcases List.mem_append.mp hd with hd | hd
  · exact h.durations d hd
  · exact le_max_of_le_left (h.estimates.recordComputes_le hsample hd)

theorem Ranged.restart (h : Ranged bound c s) (hnow : s.now ≤ c.deadline) :
    Ranged bound c (s.restart c) := by
  have hestimated : Ranged bound c
      { s with durations := s.durations ++ s.roundTrips.resendAfterComputes c.peer } := by
    refine ⟨h.began, h.estimates, h.wait, h.spaced, ?_, h.instants⟩
    intro d hd
    rcases List.mem_append.mp hd with hd | hd
    · exact h.durations d hd
    · exact le_max_of_le_left (h.estimates.resendAfterComputes_le hd)
  refine hestimated.backOff hnow ?_
  calc s.roundTrips.resendAfter c.peer * 2
      ≤ maxResendAfter * 2 := Nat.mul_le_mul_right 2 (RoundTrips.resendAfter_le _ _)
    _ ≤ rpcTimeout * 2 := by decide
    _ ≤ longestWait s.receipts := longestWait_min _

/-- **A copy is sent before the deadline**, so that the wait before it was shorter than the
timeout. -/
theorem Ranged.resend (h : Ranged bound c s) (hdue : s.nextSend ≤ s.now)
    (htime : s.now < c.deadline) (hmax : s.resends ≠ maxResends) :
    Ranged bound c (s.resend.backOff s.wait) := by
  have hspaced := h.spaced hmax
  have hwait : s.wait ≤ rpcTimeout :=
    Nat.le_of_add_le_add_left (le_trans hspaced (le_trans hdue (le_of_lt htime)))
  have hr : Ranged bound c s.resend :=
    ⟨h.began, h.estimates, h.wait, fun _ => hspaced, h.durations, h.instants⟩
  exact hr.backOff (le_of_lt htime)
    (le_trans (Nat.mul_le_mul_right 2 hwait) (longestWait_min _))

theorem Ranged.finish (h : Ranged bound c s) (result : Option Message) :
    Ranged bound c (s.finish result) :=
  ⟨h.began, h.estimates, h.wait, h.spaced, h.durations, h.instants⟩

theorem Ranged.turn (h : Ranged bound c s) (hnow : s.now ≤ c.deadline)
    (hbound : rpcTimeout ≤ bound) (ht : Turn c s s') : Ranged bound c s' := by
  cases ht with
  | idle => exact h
  | finished result => exact h.finish result
  | answered response hm h0 => exact (h.measure hnow hbound .answer).finish _
  | measured hn hr h0 => exact (h.notice.measure hnow hbound (.receipt 1)).restart hnow
  | restarted hn hr => exact h.notice.restart hnow
  | postponed hn hr =>
    refine h.notice.backOff hnow ?_
    show s.wait * 2 ≤ longestWait (s.receipts + 1)
    rw [longestWait_succ hr]
    exact Nat.mul_le_mul_right 2 h.wait
  | parked hmax =>
    exact ⟨h.began, h.estimates, h.wait, fun hne => absurd hmax hne, h.durations, h.instants⟩
  | resent hdue htime hmax => exact h.resend hdue htime hmax
  | unsent htime hmax =>
    exact Ranged.finish (s := s.resend)
      ⟨h.began, h.estimates, h.wait, fun _ => h.spaced hmax, h.durations, h.instants⟩ none

/-- What other calls measure is at most `bound`. -/
def Moderate (bound : Nat) (c : Call) : Move → Prop
  | .others roundTrips => roundTrips.Within bound c.peer
  | _ => True

theorem Ranged.act (h : Ranged bound c s) (hnow : s.now ≤ c.deadline)
    (hbound : rpcTimeout ≤ bound) {m : Move} (hm : Moderate bound c m) :
    Ranged bound c (s.act c m) := by
  cases m with
  | pass d =>
    exact ⟨le_trans h.began (Nat.le_add_right _ _), h.estimates, h.wait, h.spaced, h.durations,
      h.instants⟩
  | others roundTrips => exact ⟨h.began, hm, h.wait, h.spaced, h.durations, h.instants⟩
  | receipt | reply | close =>
    dsimp only [State.act]
    split
    · exact ⟨h.began, h.estimates, h.wait, h.spaced, h.durations, h.instants⟩
    · exact h
  | takeAnswer => exact h.turn hnow hbound (s.takeAnswer_turn c)
  | takeReceipt => exact h.turn hnow hbound (s.takeReceipt_turn c)
  | takeTimer delivered => exact h.turn hnow hbound (s.takeTimer_turn c delivered)

theorem State.act_now (c : Call) (s : State) (m : Move) : (s.act c m).now = s.now + m.duration := by
  cases m with
  | pass d => rfl
  | others roundTrips => rfl
  | receipt | reply | close =>
    dsimp only [act]
    split <;> rfl
  | takeAnswer => exact (s.takeAnswer_turn c).same_time.1
  | takeReceipt => exact (s.takeReceipt_turn c).same_time.1
  | takeTimer delivered => exact (s.takeTimer_turn c delivered).same_time.1

theorem Turn.receipts_le (ht : Turn c s s') : s'.receipts ≤ s.receipts + 1 := by
  cases ht with
  | measured | restarted | postponed => exact le_rfl
  | idle | finished | answered | parked | resent | unsent => exact Nat.le_succ _

theorem State.act_receipts (c : Call) (s : State) (m : Move) :
    (s.act c m).receipts ≤ s.receipts + m.notices := by
  cases m with
  | pass d => exact le_rfl
  | others roundTrips => exact le_rfl
  | receipt | reply | close =>
    dsimp only [act]
    split <;> exact le_rfl
  | takeAnswer =>
    dsimp only [act, takeAnswer]
    repeat' split
    all_goals exact le_rfl
  | takeReceipt => exact (s.takeReceipt_turn c).receipts_le
  | takeTimer delivered =>
    dsimp only [act, takeTimer]
    repeat' split
    all_goals exact le_rfl

theorem State.step_le (c : Call) (s : State) (m : Move) :
    (s.step c m).now ≤ s.now + m.duration ∧
      (s.step c m).receipts ≤ s.receipts + m.notices := by
  unfold step
  split
  · exact ⟨le_of_eq (s.act_now c m), s.act_receipts c m⟩
  · exact ⟨Nat.le_add_right _ _, Nat.le_add_right _ _⟩

theorem elapsed_cons (m : Move) (moves : List Move) :
    elapsed (m :: moves) = m.duration + elapsed moves := List.sum_cons

theorem noticed_cons (m : Move) (moves : List Move) :
    noticed (m :: moves) = m.notices + noticed moves := List.sum_cons

theorem Ranged.run (hbound : rpcTimeout ≤ bound) {moves : List Move}
    (h : Ranged bound c s) (htime : s.now + elapsed moves ≤ c.deadline)
    (hm : ∀ m ∈ moves, Moderate bound c m) : Ranged bound c (s.run c moves) := by
  induction moves generalizing s with
  | nil => exact h
  | cons m moves ih =>
    rw [elapsed_cons, ← Nat.add_assoc] at htime
    have hnow : s.now ≤ c.deadline :=
      le_trans (Nat.le_add_right _ _) (le_trans (Nat.le_add_right _ _) htime)
    refine ih ?_ (le_trans (Nat.add_le_add_right (s.step_le c m).1 _) htime)
      fun m' hm' => hm m' (List.mem_cons_of_mem m hm')
    unfold State.step
    split
    · exact h.act hnow hbound (hm m List.mem_cons_self)
    · exact h

theorem State.run_le (c : Call) (s : State) (moves : List Move) :
    (s.run c moves).now ≤ s.now + elapsed moves ∧
      (s.run c moves).receipts ≤ s.receipts + noticed moves := by
  induction moves generalizing s with
  | nil => exact ⟨le_rfl, le_rfl⟩
  | cons m moves ih =>
    obtain ⟨hnow, hreceipts⟩ := s.step_le c m
    rw [elapsed_cons, noticed_cons, ← Nat.add_assoc, ← Nat.add_assoc]
    exact ⟨le_trans (ih (s.step c m)).1 (Nat.add_le_add_right hnow _),
      le_trans (ih (s.step c m)).2 (Nat.add_le_add_right hreceipts _)⟩

@[simp] theorem begin_now (c : Call) (roundTrips : RoundTrips Addr) (first : FirstSend) :
    (begin c roundTrips first).now = c.firstSent := by
  cases first <;> rfl

@[simp] theorem begin_receipts (c : Call) (roundTrips : RoundTrips Addr) (first : FirstSend) :
    (begin c roundTrips first).receipts = 0 := by
  cases first <;> rfl

theorem ranged_begin {roundTrips : RoundTrips Addr} (h : roundTrips.Within bound c.peer)
    (first : FirstSend) : Ranged bound c (begin c roundTrips first) := by
  have hwait : roundTrips.resendAfter c.peer ≤ longestWait 0 :=
    le_trans (RoundTrips.resendAfter_le _ _) (by decide)
  cases first with
  | refused =>
    exact ⟨le_rfl, h, Nat.zero_le _, fun _ => le_rfl, fun d hd => (nomatch hd),
      fun t ht => nomatch ht⟩
  | failed =>
    refine ⟨le_rfl, h, Nat.zero_le _, fun _ => le_rfl, fun d hd => (nomatch hd), ?_⟩
    intro t ht
    rw [List.mem_singleton.mp ht]
    exact Nat.le_add_right _ _
  | sent =>
    refine ⟨le_rfl, h, hwait, fun _ => le_rfl, ?_, ?_⟩
    · intro d hd
      exact le_max_of_le_left (h.resendAfterComputes_le hd)
    · intro t ht
      rcases List.mem_cons.mp ht with rfl | ht
      · exact Nat.le_add_right _ _
      · rw [List.mem_singleton.mp ht]
        exact Nat.add_le_add (Nat.le_add_right _ _) hwait

end AuthKademlia.Protocol.CallLoop
