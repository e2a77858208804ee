import Mathlib.Order.Lattice
import AuthKademlia.Storage

/-! # Round trips

The estimate that a node keeps of the round trip to each peer, and how long it waits
for an answer before it sends a request again. Durations are counted in nanoseconds
and have no bound here; `resendAfterComputes` and `recordComputes` are the durations
that the code computes on the way, all of which have to fit. -/
namespace AuthKademlia.Protocol
open AuthKademlia.Storage

def maxResends : Nat := 2

/-- `INITIAL_RESEND_AFTER`, 500 ms. -/
def initialResendAfter : Nat := 500000000

/-- `MIN_RESEND_AFTER`, 20 ms, and `MAX_RESEND_AFTER`, 1 s. -/
def minResendAfter : Nat := 20000000

def maxResendAfter : Nat := nanosPerSec

def maxPeers : Nat := 4096

/-- `FORGET_AFTER`, 600 s. -/
def forgetAfter : Nat := 600 * nanosPerSec

structure RoundTrip where
  smoothed : Nat
  variation : Nat
  updated : Instant

namespace RoundTrip

/-- The wait of `resend_after`, before it is bounded. -/
def wait (r : RoundTrip) : Nat := max (r.smoothed * 3) (r.smoothed + r.variation * 4)

/-- `Duration::abs_diff`. -/
def deviation (r : RoundTrip) (sample : Nat) : Nat := (r.smoothed - sample) + (sample - r.smoothed)

def update (r : RoundTrip) (now : Instant) (sample : Nat) : RoundTrip where
  smoothed := r.smoothed * 7 / 8 + sample / 8
  variation := r.variation * 3 / 4 + r.deviation sample / 4
  updated := now

def first (now : Instant) (sample : Nat) : RoundTrip := ⟨sample, sample / 2, now⟩

end RoundTrip

/-- Round-trip estimates of the peers this node sends requests to. -/
structure RoundTrips (Peer : Type) where
  peers : List (Peer × RoundTrip)
  capacity : Nat

namespace RoundTrips

variable {Peer : Type} [DecidableEq Peer]

def get (t : RoundTrips Peer) (peer : Peer) : Option RoundTrip :=
  (t.peers.find? fun entry => entry.1 = peer).map Prod.snd

/-- How long to wait for an answer before the request is sent again. -/
def resendAfter (t : RoundTrips Peer) (peer : Peer) : Nat :=
  match t.get peer with
  | none => initialResendAfter
  | some r => min (max r.wait minResendAfter) maxResendAfter

/-- What a full table keeps when a further peer is measured. -/
def kept (t : RoundTrips Peer) (now : Instant) : List (Peer × RoundTrip) :=
  if t.capacity ≤ t.peers.length then
    t.peers.filter fun entry => now - entry.2.updated < forgetAfter
  else t.peers

/-- `peer` answered a request sent once after `sample`. -/
def record (t : RoundTrips Peer) (now : Instant) (peer : Peer) (sample : Nat) : RoundTrips Peer :=
  match t.get peer with
  | some _ =>
    { t with
      peers := t.peers.map fun entry =>
        if entry.1 = peer then (entry.1, entry.2.update now sample) else entry }
  | none =>
    if t.capacity ≤ (t.kept now).length then { t with peers := t.kept now }
    else { t with peers := (peer, .first now sample) :: t.kept now }

/-- The durations that `resend_after` computes. -/
def resendAfterComputes (t : RoundTrips Peer) (peer : Peer) : List Nat :=
  match t.get peer with
  | none => []
  | some r => [r.smoothed * 3, r.variation * 4, r.smoothed + r.variation * 4]

/-- The durations that `record` computes. -/
def recordComputes (t : RoundTrips Peer) (peer : Peer) (sample : Nat) : List Nat :=
  match t.get peer with
  | none => []
  | some r =>
    [r.variation * 3, r.variation * 3 / 4 + r.deviation sample / 4, r.smoothed * 7,
      r.smoothed * 7 / 8 + sample / 8]

variable {t : RoundTrips Peer} {peer : Peer}

theorem resendAfter_le (t : RoundTrips Peer) (peer : Peer) :
    t.resendAfter peer ≤ maxResendAfter := by
  unfold resendAfter
  split
  · decide
  · exact min_le_right _ _

/-! ## Estimates of moderate size -/

/-- The estimate of the peer, if there is one, is at most `bound`. -/
def Within (bound : Nat) (t : RoundTrips Peer) (peer : Peer) : Prop :=
  ∀ r, t.get peer = some r → r.smoothed ≤ bound ∧ r.variation ≤ bound

theorem get_eq_none : t.get peer = none ↔ ∀ entry ∈ t.peers, entry.1 ≠ peer := by
  unfold get
  rw [Option.map_eq_none_iff, List.find?_eq_none]
  simp only [decide_eq_true_eq]

omit [DecidableEq Peer] in
theorem kept_subset (t : RoundTrips Peer) (now : Instant) : t.kept now ⊆ t.peers := by
  unfold kept
  split
  · exact List.filter_subset_self _
  · exact List.Subset.refl _

theorem get_update (now : Instant) (sample : Nat) (peers : List (Peer × RoundTrip)) (peer : Peer) :
    (peers.map fun entry =>
        if entry.1 = peer then (entry.1, entry.2.update now sample) else entry).find?
      (fun entry => entry.1 = peer) =
    (peers.find? fun entry => entry.1 = peer).map fun entry =>
      (entry.1, entry.2.update now sample) := by
  induction peers with
  | nil => rfl
  | cons entry peers ih =>
    by_cases he : entry.1 = peer
    · simp [he]
    · rw [List.map_cons, if_neg he, List.find?_cons_of_neg (by simpa using he),
        List.find?_cons_of_neg (by simpa using he), ih]

/-- The estimate after a measurement: updated, or the first one, or still none. -/
theorem get_record {now : Instant} {sample : Nat} {r : RoundTrip}
    (h : (t.record now peer sample).get peer = some r) :
    (∃ old, t.get peer = some old ∧ r = old.update now sample) ∨
      t.get peer = none ∧ r = .first now sample := by
  unfold record at h
  split at h
  · rename_i old hold
    unfold get at h hold
    obtain ⟨entry, hfind, rfl⟩ := Option.map_eq_some_iff.mp hold
    dsimp only at h
    rw [get_update, hfind, Option.map_some, Option.map_some, Option.some_inj] at h
    exact Or.inl ⟨_, hold, h.symm⟩
  · rename_i hnone
    refine Or.inr ⟨hnone, ?_⟩
    split at h
    · -- the table is full, and what it keeps does not have the peer either
      rw [get_eq_none.mpr fun entry hentry => get_eq_none.mp hnone entry
        (kept_subset t now hentry)] at h
      cases h
    · unfold get at h
      rw [List.find?_cons_of_pos (by simp)] at h
      exact (Option.some.inj h).symm

/-- **Measurements keep an estimate within the bound** that they keep themselves. -/
theorem Within.record {bound sample : Nat} (h : Within bound t peer) (now : Instant)
    (hsample : sample ≤ bound) : Within bound (t.record now peer sample) peer := by
  intro r hr
  rcases get_record hr with ⟨old, hold, rfl⟩ | ⟨-, rfl⟩
  · obtain ⟨hs, hv⟩ := h old hold
    unfold RoundTrip.update RoundTrip.deviation
    dsimp only
    omega
  · unfold RoundTrip.first
    dsimp only
    omega

theorem Within.recordComputes_le {bound sample d : Nat} (h : Within bound t peer)
    (hsample : sample ≤ bound) (hd : d ∈ t.recordComputes peer sample) : d ≤ bound * 7 := by
  unfold recordComputes at hd
  split at hd
  · cases hd
  · rename_i r hr
    obtain ⟨hs, hv⟩ := h r hr
    have hdeviation : r.deviation sample ≤ bound := by
      unfold RoundTrip.deviation
      omega
    simp only [List.mem_cons, List.not_mem_nil, or_false] at hd
    rcases hd with rfl | rfl | rfl | rfl <;> omega

theorem Within.resendAfterComputes_le {bound d : Nat} (h : Within bound t peer)
    (hd : d ∈ t.resendAfterComputes peer) : d ≤ bound * 7 := by
  unfold resendAfterComputes at hd
  split at hd
  · cases hd
  · rename_i r hr
    obtain ⟨hs, hv⟩ := h r hr
    simp only [List.mem_cons, List.not_mem_nil, or_false] at hd
    rcases hd with rfl | rfl | rfl <;> omega

end RoundTrips

end AuthKademlia.Protocol
