import AuthKademlia.Protocol.CallLoop

/-! # Copies of a request

What a call does in every run, and what it computes in the runs in which the peer
sends few receipts. Each receipt doubles the wait, and nothing bounds the receipts
that a peer sends: the sixty-second one of a call can put the next copy beyond the
last instant there is. -/
namespace AuthKademlia.Properties
open AuthKademlia.Storage AuthKademlia.Utils AuthKademlia.Protocol
open AuthKademlia.Protocol.CallLoop hiding Move

/-- **Resends are bounded, and only a request sent once is measured**: in every run of a call, it
sends its request at most `1 + maxResends` times and never at or after the deadline, and measures
the round trip at most once, when it has sent the request once. A request without a record is
measured by its answer and one with a record by its first receipt. A loop that is served promptly
ends by the deadline, and no later than the answer is there: until it has ended the clock stays
within both, and at either the loop can end the call. -/
theorem copies_bounded_and_measured_once (c : Call) (roundTrips : RoundTrips Addr)
    (first : FirstSend) (moves : List CallLoop.Move) :
    let s := (begin c roundTrips first).run c moves
    s.sent.length ≤ 1 + maxResends ∧ (∀ t ∈ s.sent, t < c.deadline) ∧
    s.samples.length ≤ 1 ∧
    (∀ sample ∈ s.samples, sample.sends = 1 ∧
      sample.event = if (carriedRecord c.message).isNone then .answer else .receipt 1) ∧
    (Prompt c (begin c roundTrips first) moves →
      (s.ended = none → s.now ≤ c.deadline ∧ ∀ t, s.answeredAt = some t → s.now ≤ t) ∧
      ∀ ended result, s.ended = some (ended, result) →
        ended ≤ c.deadline ∧ ∀ t, s.answeredAt = some t → ended ≤ t) ∧
    (s.ended = none →
      (c.deadline ≤ s.now → ∀ delivered,
        (s.step c (.takeTimer delivered)).ended = some (s.now, none)) ∧
      ∀ result, s.answer = some result →
        (s.step c .takeAnswer).ended = some (s.now, result)) := by
  intro s
  have h : Bounded c s := bounded_run c roundTrips first moves
  refine ⟨h.sends, h.inTime, ?_, ?_, ?_, ?_⟩
  · rcases h.samples with hnone | hone
    · rw [hnone]
      exact Nat.zero_le 1
    · rw [hone]
      exact le_rfl
  · intro sample hsample
    rcases h.samples with hnone | hone
    · rw [hnone] at hsample
      cases hsample
    · rw [hone] at hsample
      obtain rfl := List.mem_singleton.mp hsample
      exact ⟨rfl, rfl⟩
  · intro hprompt
    have htime : OnTime c s := (onTime_begin c roundTrips first).run hprompt
    refine ⟨fun _ => ⟨htime.now, fun t ht => (htime.answered t ht).2⟩, ?_⟩
    intro ended result hended
    obtain rfl : ended = s.now := htime.ended _ hended
    exact ⟨htime.now, fun t ht => (htime.answered t ht).2⟩
  · intro hgo
    exact ⟨fun hdue => State.takeTimer_deadline hgo hdue,
      fun result hanswer => State.takeAnswer_answer hgo hanswer⟩

/-- A ping to a peer never measured ends with its answer, which is measured. -/
example :
    let c : Call := ⟨("10.0.0.9", 7009), .ping (filledId 0), nanosPerSec⟩
    let moves : List CallLoop.Move :=
      [.pass 30000000, .reply (.pong (filledId 9)), .takeAnswer]
    let s := (begin c ⟨[], maxPeers⟩ .sent).run c moves
    Prompt c (begin c ⟨[], maxPeers⟩ .sent) moves ∧
    s.ended = some (nanosPerSec + 30000000, some (.pong (filledId 9))) ∧
    s.samples = [⟨.answer, 1⟩] ∧ s.roundTrips.resendAfter c.peer = 90000000 := by
  decide +kernel

/-! ## The range of the timer -/

/-- A `Duration` has at most `2^64 - 1` seconds. -/
def durationLimit : Nat := 2 ^ 64 * nanosPerSec

/-- An `Instant` has at most `2^63 - 1` seconds. -/
def instantLimit : Nat := 2 ^ 63 * nanosPerSec

/-- Estimates up to this can be computed with. -/
def estimateLimit : Nat := 2 ^ 61 * nanosPerSec

/-- **With at most 61 receipts the timer stays in range**, before the deadline, for a peer whose
estimate is at most `2^61` seconds: every duration and every instant that the call computes, and
the number of receipts, an `i32`. Whatever has happened, the timer then ends the call at the
deadline if nothing has ended it before. -/
theorem resend_timer_in_range (c : Call) (roundTrips : RoundTrips Addr) (first : FirstSend)
    (moves : List CallLoop.Move) (hclock : c.firstSent < 2 ^ 61 * nanosPerSec)
    (hestimate : roundTrips.Within estimateLimit c.peer)
    (hothers : ∀ m ∈ moves, Moderate estimateLimit c m)
    (htime : elapsed moves ≤ rpcTimeout) (hfew : noticed moves ≤ 61) :
    let s := (begin c roundTrips first).run c moves
    (∀ d ∈ s.durations, d < durationLimit) ∧ (∀ t ∈ s.instants, t < instantLimit) ∧
    s.receipts < 2 ^ 31 ∧
    (s.ended = none → ∀ delivered,
      ((s.step c (.pass (c.deadline - s.now))).step c (.takeTimer delivered)).ended =
        some (c.deadline, none)) := by
  intro s
  obtain ⟨hnow, hreceipts⟩ := (begin c roundTrips first).run_le c moves
  rw [begin_now] at hnow
  rw [begin_receipts, Nat.zero_add] at hreceipts
  have hend : c.firstSent + elapsed moves ≤ c.deadline := Nat.add_le_add_left htime _
  have h : Ranged estimateLimit c s :=
    (ranged_begin hestimate first).run (by decide) (by rwa [begin_now]) hothers
  have hwait : longestWait s.receipts ≤ longestWait 61 :=
    longestWait_mono (le_trans hreceipts hfew)
  refine ⟨?_, ?_, ?_, fun hgo => State.wait_deadline hgo (le_trans hnow hend)⟩
  · intro d hd
    exact lt_of_le_of_lt (le_trans (h.durations d hd) (max_le_max_left _ hwait)) (by decide)
  · intro t ht
    calc t ≤ c.deadline + longestWait 61 := le_trans (h.instants t ht) (Nat.add_le_add_left hwait _)
      _ < 2 ^ 61 * nanosPerSec + rpcTimeout + longestWait 61 :=
        Nat.add_lt_add_right (Nat.add_lt_add_right hclock _) _
      _ ≤ instantLimit := by decide
  · exact lt_of_le_of_lt (le_trans hreceipts hfew) (by decide)

/-- A STORE to a peer whose round trip is estimated at 400 ms, sent 1 s after boot. -/
def storeCall : Call :=
  ⟨("10.0.0.9", 7009), .record (.store (filledId 0) (filledId 1) [1]), nanosPerSec⟩

def slowPeer : RoundTrips Addr :=
  ⟨[(("10.0.0.9", 7009), ⟨400000000, 0, 0⟩)], maxPeers⟩

/-- The peer sends a receipt after 1 ms and, when the request has been sent again after
another 2 s, more of them at once. -/
def manyReceipts (more : Nat) : List CallLoop.Move :=
  [.pass 1000000, .receipt, .takeReceipt, .pass (2 * nanosPerSec), .takeTimer true] ++
    (List.replicate more [.receipt, .takeReceipt]).flatten

theorem moderate_manyReceipts (more : Nat) :
    ∀ m ∈ manyReceipts more, Moderate estimateLimit storeCall m := by
  intro m hm
  rcases List.mem_append.mp hm with hm | hm
  · simp only [List.mem_cons, List.not_mem_nil, or_false] at hm
    rcases hm with rfl | rfl | rfl | rfl | rfl <;> trivial
  · obtain ⟨pair, hpair, hm⟩ := List.mem_flatten.mp hm
    rw [List.eq_of_mem_replicate hpair] at hm
    simp only [List.mem_cons, List.not_mem_nil, or_false] at hm
    rcases hm with rfl | rfl <;> trivial

theorem slowPeer_within : slowPeer.Within estimateLimit storeCall.peer := by
  intro r hr
  obtain rfl : ⟨400000000, 0, 0⟩ = r := Option.some.inj hr
  decide

/-- One receipt less than overflows the timer. -/
theorem resend_timer_in_range_manyReceipts :
    let s := (begin storeCall slowPeer .sent).run storeCall (manyReceipts 60)
    noticed (manyReceipts 60) = 61 ∧ s.instants.length = 64 ∧
      ∀ t ∈ s.instants, t < instantLimit := by
  have hin := resend_timer_in_range storeCall slowPeer .sent (manyReceipts 60) (by decide)
    slowPeer_within (moderate_manyReceipts 60) (by decide +kernel) (by decide +kernel)
  exact ⟨by decide +kernel, by decide +kernel, hin.2.1⟩

/-- The sixty-second receipt overflows the timer, 2.001 s into a prompt run. -/
theorem receipts_overflow_timer :
    let s := (begin storeCall slowPeer .sent).run storeCall (manyReceipts 61)
    Prompt storeCall (begin storeCall slowPeer .sent) (manyReceipts 61) ∧
    elapsed (manyReceipts 61) = 2001000000 ∧ noticed (manyReceipts 61) = 62 ∧
    s.ended = none ∧ s.nextSend ∈ s.instants ∧ instantLimit ≤ s.nextSend := by
  decide +kernel

end AuthKademlia.Properties
