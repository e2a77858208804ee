import AuthKademlia.Crawling.Base

/-! # Rounds come to an end

A round that asks nobody settles the ids that the next one compares with, so that
the next one asks somebody if anybody is left to ask: no two rounds in a row ask
nobody. Loops that look for unasked nodes before a round and loops that look after
it both use up the budget of `Crawling.Base`. -/
namespace AuthKademlia.Crawling

/-- No two rounds in a row ask nobody. -/
def Paced (rs : List Round) : Prop := rs.IsChain fun r r' => r.asked = [] → r'.asked ≠ []

namespace SpiderCrawl

variable {target : Node} {k : Nat} {s : SpiderCrawl} {rs : List Round} {limit : Option Nat}
  {answers merged : List Answer}

theorem nobody_answers (hperm : (answers.map Answer.peer).Perm ((s.nextPeers limit).1.map Node.id))
    (hsub : ∀ a ∈ merged, a ∈ answers) (hask : (s.nextPeers limit).1 = []) :
    answers = [] ∧ merged = [] := by
  rw [hask, List.map_nil] at hperm
  have hnone : answers = [] := List.map_eq_nil_iff.mp hperm.eq_nil
  refine ⟨hnone, List.eq_nil_iff_forall_not_mem.mpr ?_⟩
  intro a ha
  have := hsub a ha
  rw [hnone] at this
  cases this

theorem haveContactedAll_idle (hw : s.nearest.Wf) (hask : (s.nextPeers limit).1 = []) :
    (((s.nextPeers limit).2.mergeAll []).removeFailed (silent [])).nearest.haveContactedAll =
      s.nearest.haveContactedAll := by
  obtain ⟨hids, hcon, -⟩ := round_idle hw hask
  rw [Bool.eq_iff_iff, NodeHeap.haveContactedAll_iff, NodeHeap.haveContactedAll_iff,
    show silent [] = [] from rfl, hids, hcon]

/-- A round uses up budget, unless everybody was asked after it. -/
theorem Tracks.budget_before (ht : Tracks target k s rs) (hlimit : ∀ m ∈ limit, 0 < m)
    (hperm : (answers.map Answer.peer).Perm ((s.nextPeers limit).1.map Node.id))
    (hsub : ∀ a ∈ merged, a ∈ answers)
    (hall : (((s.nextPeers limit).2.mergeAll merged).removeFailed
      (silent answers)).nearest.haveContactedAll = false) :
    budget (((s.nextPeers limit).2.mergeAll merged).removeFailed (silent answers))
      (rs ++ [⟨(s.nextPeers limit).1, answers⟩]) < budget s rs := by
  refine ht.budget_round hlimit hperm hsub fun hask => ?_
  obtain ⟨rfl, rfl⟩ := nobody_answers hperm hsub hask
  rwa [haveContactedAll_idle ht.wf hask] at hall

/-! ## Nobody asked twice in a row -/

/-- The rounds so far, and whether the last one showed that nothing changes. -/
structure Pace (s : SpiderCrawl) (rs : List Round) : Prop where
  paced : Paced rs
  settled : ∀ r ∈ rs.getLast?, r.asked = [] → s.nearest.getIds = s.lastIdsCrawled

theorem pace_new (s : SpiderCrawl) : Pace s [] :=
  ⟨List.IsChain.nil, fun _ hr => by cases hr⟩

/-- **A round keeps the pace**, if after the rounds so far somebody is left to ask. -/
theorem Pace.round (hp : Pace s rs) (hw : s.nearest.Wf) (hlimit : ∀ m ∈ limit, 0 < m)
    (hperm : (answers.map Answer.peer).Perm ((s.nextPeers limit).1.map Node.id))
    (hsub : ∀ a ∈ merged, a ∈ answers) (hall : rs ≠ [] → s.nearest.haveContactedAll = false) :
    Pace (((s.nextPeers limit).2.mergeAll merged).removeFailed (silent answers))
      (rs ++ [⟨(s.nextPeers limit).1, answers⟩]) where
  paced := by
    refine List.IsChain.append hp.paced (List.IsChain.singleton _) ?_
    intro r hr r' hr' hidle
    obtain rfl : ⟨(s.nextPeers limit).1, answers⟩ = r' := by simpa using hr'
    have hne : rs ≠ [] := by
      rintro rfl
      cases hr
    exact nextPeers_nonempty hw (hall hne) (hp.settled r hr hidle) hlimit
  settled := by
    intro r hr hidle
    rw [List.getLast?_append, List.getLast?_singleton, Option.some_or, Option.mem_some_iff] at hr
    subst hr
    obtain ⟨rfl, rfl⟩ := nobody_answers hperm hsub hidle
    obtain ⟨hids, -, hlast⟩ := round_idle hw hidle
    exact hids.trans hlast.symm

end SpiderCrawl

end AuthKademlia.Crawling
