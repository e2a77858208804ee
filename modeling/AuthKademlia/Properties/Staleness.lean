import Mathlib.Algebra.BigOperators.Intervals
import Mathlib.Algebra.Order.BigOperators.Group.Finset
import AuthKademlia.Properties.Neighbours
import AuthKademlia.Routing.Failures

/-! # Stale contacts

Failures within the backoff of the last one do not count, and the backoff doubles. So
the failures that make a contact stale lie far apart, however many calls fail at once,
and the contact did not answer in between. -/
namespace AuthKademlia.Properties
open AuthKademlia.Lib.Shortlist AuthKademlia.Routing AuthKademlia.Storage AuthKademlia.Utils
open AuthKademlia.Routing.RoutingTable

/-! ## Backoff -/

/-- The shortest time in which `count` failures can be counted. -/
def shortestStreak (count : Nat) : Nat :=
  (∑ i ∈ Finset.Icc 1 (count - 1), min (5 * 2 ^ (i - 1)) 300) * nanosPerSec

theorem backoff_eq (failures jitter : Nat) :
    backoff failures jitter = min (5 * 2 ^ (failures - 1)) 300 * nanosPerSec + jitter := by
  have hcap : min (5 * 2 ^ min (failures - 1) 16) 300 = min (5 * 2 ^ (failures - 1)) 300 := by
    rcases Nat.le_total (failures - 1) 16 with hle | hle
    · rw [Nat.min_eq_left hle]
    · have hpow : 2 ^ 16 ≤ 2 ^ (failures - 1) := Nat.pow_le_pow_right (by omega) hle
      rw [Nat.min_eq_right hle]
      omega
  unfold backoff backoffBase backoffMax
  dsimp only
  rw [Nat.mul_right_comm, Nat.mul_min_mul_right, hcap]

theorem backoff_jitter (failures jitter : Nat) : backoff failures 0 ≤ backoff failures jitter := by
  rw [backoff_eq, backoff_eq]
  exact Nat.add_le_add_left (Nat.zero_le jitter) _

theorem shortestStreak_one : shortestStreak 1 = 0 := by simp [shortestStreak]

theorem shortestStreak_mono {a b : Nat} (h : a ≤ b) : shortestStreak a ≤ shortestStreak b := by
  refine Nat.mul_le_mul_right _ (Finset.sum_le_sum_of_subset ?_)
  exact Finset.Icc_subset_Icc_right (Nat.sub_le_sub_right h 1)

theorem shortestStreak_succ (count : Nat) :
    shortestStreak (count + 1) ≤ shortestStreak count + backoff count 0 := by
  cases count with
  | zero =>
    rw [shortestStreak_one]
    exact Nat.zero_le _
  | succ count =>
    rw [backoff_eq]
    unfold shortestStreak
    rw [show count + 1 + 1 - 1 = count + 1 from rfl, Finset.sum_Icc_succ_top (by omega),
      Nat.add_mul, Nat.add_sub_cancel, Nat.add_zero]

theorem shortestStreak_next (count : Nat) :
    shortestStreak ((count + 1) % 2 ^ 32) ≤ shortestStreak count + backoff count 0 :=
  (shortestStreak_mono (Nat.mod_le _ _)).trans (shortestStreak_succ count)

/-! ## Streaks -/

/-- The contact did not answer in the last of the actions, and its failures that counted
among them happened at `times`. -/
def Streak (start : Nat) (own : Node) (k : Nat) (actions : List Action) (id : NodeId)
    (times : List Nat) : Prop :=
  ∃ before since, actions = before ++ since ∧ (∀ a ∈ since, ¬ a.Answers id) ∧
    failureTimes id (after start own k before) since = times

/-- Enough failures to be stale, far enough apart. -/
def LongStreak (start : Nat) (own : Node) (k : Nat) (actions : List Action) (id : NodeId) : Prop :=
  ∃ times first last, Streak start own k actions id times ∧ 5 ≤ times.length ∧
    times.head? = some first ∧ times.getLast? = some last ∧ first + 75 * nanosPerSec ≤ last

/-- `times` are the failures behind what is known of the contact. -/
structure Explains (times : List Nat) (health : ContactHealth) (final : Nat) :
    Prop where
  count : times.length % 2 ^ 32 = health.failures
  first : times.head? = some health.firstFailure
  last : times.getLast? = some final
  apart : health.firstFailure + shortestStreak health.failures ≤ final
  backoff : final + Routing.backoff health.failures 0 ≤ health.retryAfter

section Run

variable {start k : Nat} {own : Node} {actions : List Action} {id : NodeId} {times : List Nat}

theorem streak_nil (start : Nat) (own : Node) (k : Nat) (actions : List Action) (id : NodeId) :
    Streak start own k actions id [] :=
  ⟨actions, [], (List.append_nil _).symm, fun _ h => absurd h List.not_mem_nil, rfl⟩

theorem Streak.snoc {a : Action} (h : Streak start own k actions id times)
    (ha : ¬ a.Answers id) :
    Streak start own k (actions ++ [a]) id
      (times ++ (a.failureTime (after start own k actions) id).toList) := by
  obtain ⟨before, since, rfl, hquiet, rfl⟩ := h
  refine ⟨before, since ++ [a], List.append_assoc .., ?_, ?_⟩
  · intro b hb
    rcases List.mem_append.mp hb with hb | hb
    · exact hquiet b hb
    · rwa [List.mem_singleton.mp hb]
  · rw [failureTimes_append, failureTimes, failureTimes, List.append_nil]
    congr 3
    exact (List.foldl_append ..).symm

theorem explains_first (now jitter : Nat) :
    Explains [now] ⟨1, now, now + backoff 1 jitter⟩ now where
  count := Nat.mod_eq_of_lt (show 1 < 2 ^ 32 by omega)
  first := rfl
  last := rfl
  apart := by rw [shortestStreak_one, Nat.add_zero]
  backoff := Nat.add_le_add_left (backoff_jitter ..) now

theorem Explains.next {health : ContactHealth} {last now : Nat} (h : Explains times health last)
    (hnow : health.retryAfter ≤ now) (jitter : Nat) :
    Explains (times ++ [now]) ⟨(health.failures + 1) % 2 ^ 32, health.firstFailure,
      now + Routing.backoff ((health.failures + 1) % 2 ^ 32) jitter⟩ now where
  count := by
    rw [List.length_append, List.length_singleton, ← h.count, Nat.mod_add_mod]
  first := by
    rw [List.head?_append, h.first, Option.some_or]
  last := List.getLast?_concat
  apart := by
    have hnext := shortestStreak_next health.failures
    have hapart := h.apart
    have hback := h.backoff
    dsimp only
    omega
  backoff := Nat.add_le_add_left (backoff_jitter ..) now

theorem Streak.quiet {a : Action} (h : Streak start own k actions id times)
    (ha : ¬ a.Answers id) (htime : a.failureTime (after start own k actions) id = none) :
    Streak start own k (actions ++ [a]) id times := by
  have hsnoc := h.snoc ha
  rwa [htime, Option.toList_none, List.append_nil] at hsnoc

/-- What is known after one more failure comes from a streak if what was known did. -/
theorem explained_counted {n : Node} {now : Nat}
    (ih : ∀ health, (after start own k actions).health id = some health →
      ∃ times last, Streak start own k actions id times ∧ Explains times health last)
    (hn : n.id = id) (hcounts : (after start own k actions).Counts id now) (jitter : Nat) :
    ∃ times last, Streak start own k (actions ++ [.recordFailureAt n now jitter]) id times ∧
      Explains times ((after start own k actions).counted id now jitter) last := by
  have hsnoc : ∀ {times}, Streak start own k actions id times →
      Streak start own k (actions ++ [.recordFailureAt n now jitter]) id (times ++ [now]) := by
    intro times hstreak
    have hsnoc := hstreak.snoc (a := .recordFailureAt n now jitter) not_false
    rwa [Action.failureTime, if_pos ⟨hn, hcounts⟩] at hsnoc
  unfold counted
  cases hprev : (after start own k actions).health id with
  | none => exact ⟨[now], now, hsnoc (streak_nil start own k actions id), explains_first now jitter⟩
  | some prev =>
    obtain ⟨times, last, hstreak, hexp⟩ := ih prev hprev
    exact ⟨times ++ [now], now, hsnoc hstreak, hexp.next (hcounts.2 prev hprev) jitter⟩

/-- **What is known of a contact** comes from a streak of failures. -/
theorem explained (hk : 1 ≤ k) (start : Nat) (own : Node) (id : NodeId) (actions : List Action) :
    ∀ health, (after start own k actions).health id = some health →
      ∃ times last, Streak start own k actions id times ∧ Explains times health last := by
  induction actions using List.reverseRecOn with
  | nil => exact fun _ h => absurd h (by simp [after, new])
  | append_singleton actions a ih =>
    intro health hid
    rw [after, List.foldl_append] at hid
    rcases (ok_after hk start own actions).health_act_cases hid with ⟨hold, hquiet, htime⟩ |
      ⟨n, now, jitter, rfl, hn, hcounts, rfl⟩
    · obtain ⟨times, last, hstreak, hexp⟩ := ih health hold
      exact ⟨times, last, hstreak.quiet hquiet htime, hexp⟩
    · exact explained_counted ih hn hcounts jitter

theorem Explains.long {health : ContactHealth} {last : Nat} (h : Explains times health last)
    (hstreak : Streak start own k actions id times)
    (hstale : staleAfterFailures ≤ health.failures) : LongStreak start own k actions id := by
  refine ⟨times, _, last, hstreak, ?_, h.first, h.last, ?_⟩
  · exact (hstale.trans_eq h.count.symm).trans (Nat.mod_le _ _)
  · have hlong : shortestStreak 5 = 75 * nanosPerSec := by decide
    have hmono := shortestStreak_mono hstale
    have hapart := h.apart
    unfold staleAfterFailures at hmono
    omega

end Run

/-! ## What becomes of a stale contact -/

theorem stale_streak (start : Nat) (own : Node) (k : Nat) (actions : List Action) {id : NodeId}
    (hstale : (after start own k actions).isStale id = true) :
    LongStreak start own k actions id := by
  obtain ⟨health, hid, hfailures⟩ := (Option.any_eq_true _ _).mp hstale
  rcases Nat.eq_zero_or_pos k with rfl | hk
  · rw [(bare_after start own actions).unfailed] at hid
    cases hid
  · obtain ⟨times, last, hstreak, hexp⟩ := explained hk start own id actions health hid
    exact hexp.long hstreak (of_decide_eq_true hfailures)

theorem advertised_of_closest {t : RoutingTable} (hnd : (t.primaries.map Node.id).Nodup)
    {target n : Node} {exclude : Option Node} (hn : n ∈ t.closest target exclude fun _ => true)
    (hfresh : t.isStale n.id = false) : n ∈ t.findNeighborsToAdvertise target exclude := by
  have hall := closest_shortlist hnd target exclude fun _ => true
  have hkept := closest_shortlist hnd target exclude fun n => !t.isStale n.id
  have hmem : n ∈ t.eligible target exclude fun n => !t.isStale n.id :=
    mem_eligible.mpr ⟨mem_eligible_of_mem_closest hn, by rw [hfresh]; rfl⟩
  refine (hkept.mem_iff_countP (nodup_eligible hnd ..).of_map hmem).mpr ?_
  refine lt_of_le_of_lt (List.Sublist.countP_le ?_)
    ((hall.mem_iff_countP (nodup_eligible hnd ..).of_map (mem_eligible_of_mem_closest hn)).mp hn)
  refine List.monotone_filter_right _ fun m hm => ?_
  rw [Bool.and_eq_true] at hm
  rw [hm.1, Bool.and_true]

/-- **A burst of failures makes nobody stale.** -/
theorem burst_of_failures (start : Nat) (own : Node) (k : Nat) (actions : List Action)
    (id : NodeId) :
    (∀ health, (after start own k actions).health id = some health →
      ∃ times first last, Streak start own k actions id times ∧
        times.length % 2 ^ 32 = health.failures ∧ times.head? = some first ∧
        times.getLast? = some last ∧ first + shortestStreak health.failures ≤ last) ∧
    ((after start own k actions).isStale id = true → LongStreak start own k actions id) ∧
    (∀ target exclude, ∀ n ∈ (after start own k actions).closest target exclude fun _ => true,
      n.id = id → n ∉ (after start own k actions).findNeighborsToAdvertise target exclude →
        LongStreak start own k actions id) ∧
    ∀ a, id ∈ (after start own k actions).primaries.map Node.id →
      id ∉ (after start own k (actions ++ [a])).primaries.map Node.id →
      (∃ n, a = .removeContact n ∧ n.id = id) ∨ LongStreak start own k (actions ++ [a]) id := by
  refine ⟨fun health hid => ?_, stale_streak start own k actions, ?_, fun a hin hout => ?_⟩
  · rcases Nat.eq_zero_or_pos k with rfl | hk
    · rw [(bare_after start own actions).unfailed] at hid
      cases hid
    · obtain ⟨times, last, hstreak, hexp⟩ := explained hk start own id actions health hid
      exact ⟨times, _, last, hstreak, hexp.count, hexp.first, hexp.last, hexp.apart⟩
  · rintro target exclude n hn rfl hwithheld
    refine stale_streak start own k actions (Bool.of_not_eq_false fun hfresh => hwithheld ?_)
    exact advertised_of_closest (nodup_primaries_after start own k actions) hn hfresh
  · rcases Nat.eq_zero_or_pos k with rfl | hk
    · rw [(bare_after start own actions).primaries] at hin
      exact absurd hin List.not_mem_nil
    · have hok := ok_after hk start own actions
      rw [after, List.foldl_append] at hout
      rcases hok.primary_act_cases hk hin hout with hremoved | ⟨now, n, rfl, hstale⟩ |
        ⟨n, now, jitter, rfl, hn, hcounts, hstale⟩
      · exact Or.inl hremoved
      · obtain ⟨times, first, last, hstreak, hlong⟩ := stale_streak start own k actions hstale
        exact Or.inr ⟨times, first, last, hstreak.quiet not_false rfl, hlong⟩
      · obtain ⟨times, last, hstreak, hexp⟩ :=
          explained_counted (explained hk start own id actions) hn hcounts jitter
        exact Or.inr (hexp.long hstreak hstale)

end AuthKademlia.Properties
