import AuthKademlia.Runtime.Retry

/-! # A rotation can be retried until it is complete

A rotation may reach some replicas only. Whatever it left behind, the same call
once more brings the new record to every responsible node: a replica that has it
acknowledges it, one that has the old record checks the same authorisation. -/
namespace AuthKademlia.Properties
open AuthKademlia.Lib.Async AuthKademlia.Utils AuthKademlia.Storage AuthKademlia.AuthHandler
open AuthKademlia.Protocol AuthKademlia.Network AuthKademlia.Runtime

variable {cl : Cluster} {R : Retry cl}

/-- The update has returned `r`. -/
def Returned (R : Retry cl) (c : R.system.Config) (r : Option Bool) : Prop :=
  ∃ p ∈ c.procs, Agent.job p.agent = .update R.key R.new (some R.auth) ∧
    p.prog.value? = some (.update r)

/-- Nothing runs yet, or the update was started first. -/
def Started (c : R.system.Config) : Prop :=
  c.procs = [] ∧ c.world.requests = [] ∨
    ∃ p, c.procs[0]? = some p ∧ Agent.job p.agent = .update R.key R.new (some R.auth)

theorem run_started {w₀ : World} (hreq : w₀.requests = []) {c : R.system.Config}
    (h : R.system.Run w₀ c) : Started c := by
  induction h with
  | init => exact Or.inl ⟨rfl, hreq⟩
  | @move c c' m _ hm ih =>
    cases m with
    | step i path pick =>
      obtain ⟨p, hp, hm⟩ := Option.bind_eq_some_iff.mp hm
      obtain ⟨r, -, rfl⟩ := Option.map_eq_some_iff.mp hm
      rcases ih with ⟨hnil, -⟩ | ⟨q, hq, hjob⟩
      · rw [hnil] at hp
        cases hp
      · right
        by_cases hi : i = 0
        · subst hi
          obtain rfl := Option.some.inj (hp.symm.trans hq)
          exact ⟨_, List.getElem?_set_self (List.getElem?_eq_some_iff.mp hp).1, hjob⟩
        · exact ⟨q, by rw [List.getElem?_set_ne hi]; exact hq, hjob⟩
    | env nanos =>
      obtain ⟨w', hw, rfl⟩ := Option.map_eq_some_iff.mp hm
      obtain ⟨rfl, -⟩ := R.elapse_eq hw
      exact ih
    | start call =>
      obtain ⟨⟨a, p⟩, hstart, rfl⟩ := Option.map_eq_some_iff.mp hm
      right
      rcases ih with ⟨hnil, hnone⟩ | ⟨q, hq, hjob⟩
      · cases call with
        | update =>
          obtain ⟨-, rfl, rfl⟩ := Retry.start_update hstart
          exact ⟨_, by rw [hnil]; rfl, rfl⟩
        | handle id =>
          obtain ⟨req, s, hreq, -⟩ := Retry.start_handle (R := R) hstart
          rw [hnone] at hreq
          cases hreq
      · refine ⟨q, ?_, hjob⟩
        rw [List.getElem?_append_left (List.getElem?_eq_some_iff.mp hq).1]
        exact hq

theorem leads_started {c : R.system.Config} (hnil : c.procs = []) :
    ∃ c', R.system.Leads c c' ∧ ∃ p, c'.procs[0]? = some p ∧
      Agent.job p.agent = .update R.key R.new (some R.auth) := by
  have hstart : R.start .update c.procs.length c.world =
      some (⟨0, R.loc, .update R.key R.new (some R.auth)⟩,
        Job.prog R.srv (.update R.key R.new (some R.auth))) := by
    rw [hnil]
    simp only [Retry.start, List.length_nil, if_true, Runtime.start, Call.job, Option.bind_some,
      R.here, Option.map_some]
  have hmove : R.system.move c (.start .update) = some _ :=
    Option.map_eq_some_iff.mpr ⟨_, hstart, rfl⟩
  exact ⟨_, .move hmove, _, by rw [hnil]; rfl, rfl⟩

/-- **A retried rotation completes.** Each responsible node has the old or the new
record; then from wherever a run has come the update can be brought to its end,
and in every run in which it has returned, it has returned success and every
responsible node serves the new record. -/
theorem retried_rotation_completes {cl : Cluster} (R : Retry cl) {w₀ : World} (h₀ : R.Mixed w₀)
    (hreq : w₀.requests = []) (hans : w₀.answers = []) {c : R.system.Config}
    (hrun : R.system.Run w₀ c) :
    (∃ c', R.system.Leads c c' ∧ Returned R c' (some true)) ∧
      ∀ r, Returned R c r → r = some true ∧
        ∀ addr, R.Responsible addr → c.world.live addr R.dkey = some R.new := by
  have hgoing : R.Going w₀ :=
    ⟨h₀, fun req h => absurd h (hreq ▸ List.not_mem_nil),
      fun x h => absurd h (hans ▸ List.not_mem_nil)⟩
  have hdone : ∀ {c : R.system.Config} {r}, R.system.Run w₀ c → Returned R c r →
      r = some true ∧ R.Complete c.world := by
    intro c r hrun h
    obtain ⟨p, hp, hjob, hres⟩ := h
    have hd := Retry.done_of_ended hgoing hrun hp hres
    simp only [Retry.Done, hjob, Res.update.injEq] at hd
    exact hd
  refine ⟨?_, fun r h => hdone hrun h⟩
  have hstarted : ∃ d, R.system.Leads c d ∧ ∃ p, d.procs[0]? = some p ∧
      Agent.job p.agent = .update R.key R.new (some R.auth) := by
    rcases run_started hreq hrun with ⟨hnil, -⟩ | h
    · exact leads_started hnil
    · exact ⟨c, .refl c, h⟩
  obtain ⟨d, hlead, p, hp, hjob⟩ := hstarted
  have hrun_d := hlead.run hrun
  obtain ⟨c', res, hlead', hend⟩ := Retry.run_finishes hgoing hrun_d hp
  refine ⟨c', hlead.trans hlead', ?_⟩
  have hd := Retry.done_of_ended hgoing (hlead'.run hrun_d) (List.mem_of_getElem? hend) rfl
  simp only [Retry.Done, hjob] at hd
  obtain ⟨rfl, -⟩ := hd
  exact ⟨_, List.mem_of_getElem? hend, hjob, rfl⟩

/-! ## A rotation whose first try reached one of two replicas -/

/-- The owner's node 3 rotates `toyRecord 1` to `toyRecord 2`. -/
def halfDone : Retry toyCluster where
  loc := toyAddr 3
  srv := ⟨toyPlatform, toyNode 3, 2, 2, true, true⟩
  here := server_toy 2 2 3
  key := "abc"
  old := toyRecord 1
  new := toyRecord 2
  auth := [1]
  found := [toyNode 2]
  listening := rfl
  ksize_pos := by decide
  alpha_pos := by decide
  did := by decide
  old_bound := boundTo_of_verified (orFalse_eq_true.mp (by decide +kernel))
  old_signed := selfSigned_of_verified (orFalse_eq_true.mp (by decide +kernel))
  new_bound := boundTo_of_verified (orFalse_eq_true.mp (by decide +kernel))
  new_signed := selfSigned_of_verified (orFalse_eq_true.mp (by decide +kernel))
  authorised := ⟨_, _, rfl, rfl, rfl⟩
  served := by
    have hselection : (selectResponsibleNodes (toyNode 3) (.fromId toyKey) [toyNode 2] 2).2 =
        [toyNode 2] := by decide +kernel
    intro n hn
    obtain rfl : n = toyNode 2 := List.mem_singleton.mp (hselection ▸ hn)
    exact ⟨toyAddr 2, _, rfl, server_toy 2 2 2⟩

/-- Node 2 has the new record, the others have the old one. -/
def afterLoss : World :=
  { toyWorld (.withMaxStorageBytes (-1) 1000) with
    storage := fun loc => ((ForgetfulStorage.withMaxStorageBytes (-1) 1000).set 0 toyKey.bytes
      (toyRecord (if loc = toyAddr 2 then 2 else 1))).2 }

theorem members_halfDone : halfDone.members = [toyAddr 3, toyAddr 2] := by decide +kernel

theorem mixed_afterLoss : halfDone.Mixed afterLoss where
  holds := by
    have h₃ : afterLoss.live (toyAddr 3) toyKey = some (toyRecord 1) := by decide +kernel
    have h₂ : afterLoss.live (toyAddr 2) toyKey = some (toyRecord 2) := by decide +kernel
    intro addr haddr
    rw [Retry.Responsible, members_halfDone, List.mem_pair] at haddr
    rcases haddr with rfl | rfl
    · exact ⟨_, h₃, Or.inl rfl⟩
    · exact ⟨_, h₂, Or.inr rfl⟩
  own := by
    have h₃ : afterLoss.live (toyAddr 3) toyKey = some (toyRecord 1) := by decide +kernel
    intro v hv
    exact Or.inl (Option.some.inj (hv.symm.trans h₃))
  room := by
    have hroom : ∀ addr ∈ halfDone.members,
        ((afterLoss.storage addr).set 0 toyKey.bytes (toyRecord 2)).1 ≠ .capacityExceeded := by
      decide +kernel
    exact hroom
  cache := fun _ _ h => by cases h

theorem retried_rotation_completes_halfDone :
    afterLoss.live (toyAddr 3) toyKey = some (toyRecord 1) ∧
    ∃ c, halfDone.system.Run afterLoss c ∧ Returned halfDone c (some true) ∧
      ∀ addr ∈ [toyAddr 3, toyAddr 2], c.world.live addr toyKey = some (toyRecord 2) := by
  refine ⟨by decide +kernel, ?_⟩
  obtain ⟨⟨c, hlead, hret⟩, -⟩ :=
    retried_rotation_completes halfDone mixed_afterLoss rfl rfl .init
  obtain ⟨-, hafter⟩ :=
    retried_rotation_completes halfDone mixed_afterLoss rfl rfl (hlead.run .init)
  refine ⟨c, hlead.run .init, hret, fun addr haddr => ?_⟩
  rw [← members_halfDone] at haddr
  exact (hafter _ hret).2 addr haddr

end AuthKademlia.Properties
