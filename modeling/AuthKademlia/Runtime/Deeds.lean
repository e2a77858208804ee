import AuthKademlia.Lib.Footprint
import AuthKademlia.Lib.Progress
import AuthKademlia.Runtime.History

/-! # The log, one task at a time

Tasks interleave in the log, but what one of them did stands there in its order. So what
its program says about its operations and their answers holds of every run (`run_deeds`),
and each line of the log is a step that the run can be cut at (`cut_log`). -/
namespace AuthKademlia.Runtime
open AuthKademlia.Lib.Async AuthKademlia.Lib.Trace AuthKademlia.Protocol

def Event.deed (e : Event) : Deed effects := ⟨e.op, e.ans⟩

def deeds (w : World) (a : Agent) : List (Deed effects) :=
  (w.log.filter fun e => e.agent = a).map Event.deed

theorem mem_deeds {w : World} {e : Event} (he : e ∈ w.log) : e.deed ∈ deeds w e.agent :=
  List.mem_map.mpr ⟨e, List.mem_filter.mpr ⟨he, decide_eq_true rfl⟩, rfl⟩

theorem did_of_mem_deeds {w : World} {a : Agent} {d : Deed effects} (hd : d ∈ deeds w a) :
    Did w.log a d.1 d.2 := by
  obtain ⟨e, he, rfl⟩ := List.mem_map.mp hd
  obtain ⟨hmem, ha⟩ := List.mem_filter.mp he
  obtain rfl := of_decide_eq_true ha
  exact ⟨e.live, hmem⟩

theorem deeds_of_log {w w' : World} {e : Event} (h : w'.log = w.log ++ [e]) (a : Agent) :
    deeds w' a = if e.agent = a then deeds w a ++ [e.deed] else deeds w a := by
  rw [deeds, h, List.filter_append, List.map_append, List.filter_singleton]
  by_cases ha : e.agent = a
  · rw [if_pos ha, decide_eq_true ha]
    rfl
  · rw [if_neg ha, decide_eq_false ha]
    exact List.append_nil _

/-- The log as a record of all tasks. -/
def logbook (cl : Cluster) : Logbook (system cl) where
  deeds := deeds
  exec_self := fun h => by
    obtain ⟨w₁, -, rfl⟩ := exec_effect h
    exact (deeds_of_log rfl _).trans (if_pos rfl)
  exec_other := fun h hne => by
    obtain ⟨w₁, -, rfl⟩ := exec_effect h
    exact (deeds_of_log rfl _).trans (if_neg (Ne.symm hne))
  env := fun {e w w'} a h => by
    have hlog : World.log w' = World.log w := env_log h
    show deeds w' a = deeds w a
    unfold deeds
    rw [hlog]

section
variable {cl : Cluster} {c : (system cl).Config} {w₀ : World}

/-- **The rule for runs of a cluster.** -/
theorem run_deeds (h₀ : w₀.log = []) (W : Agent → Watch effects)
    (Q : Agent → List (Deed effects) → Res → Prop)
    (hanswers : ∀ {a o pick w r w'}, effect cl a o pick w = some (r, w') → (W a).answers o r)
    (hstart : ∀ {loc srv} n job, cl.server loc = some srv →
      (W ⟨n, loc, job⟩).Tells (Job.prog srv job) (Q ⟨n, loc, job⟩) [])
    (h : (system cl).Run w₀ c) : ∀ p ∈ c.procs,
      (W p.agent).Obeyed ((W p.agent).relevant (deeds c.world p.agent)) ∧
      (W p.agent).Tells p.prog (Q p.agent) ((W p.agent).relevant (deeds c.world p.agent)) := by
  refine ((logbook cl).run_tells W Q (fun hx => ?_) (fun {c call a p} hc hst => ?_)
    (fun {call n w a p} hst => ?_) h).2
  · obtain ⟨w₁, he, -⟩ := exec_effect hx
    exact hanswers he
  · -- a new task has a number that no task had before
    obtain ⟨⟨loc, job⟩, -, hst⟩ := Option.bind_eq_some_iff.mp hst
    obtain ⟨srv, -, hst⟩ := Option.map_eq_some_iff.mp hst
    obtain ⟨rfl, rfl⟩ := Prod.mk.inj hst
    have hnum := run_numbered h₀ hc
    constructor
    · have hnone : (World.log c.world).filter
          (fun e => e.agent = ⟨c.procs.length, loc, job⟩) = [] := by
        refine List.filter_eq_nil_iff.mpr fun e he heq => ?_
        have hlt := hnum.events e he
        rw [of_decide_eq_true heq] at hlt
        exact Nat.lt_irrefl _ hlt
      exact congrArg (List.map Event.deed) hnone
    · intro q hq heq
      obtain ⟨⟨i, hi⟩, rfl⟩ := List.get_of_mem hq
      have hpid := hnum.procs i hi
      rw [heq] at hpid
      exact Nat.lt_irrefl _ (hpid ▸ hi)
  · obtain ⟨⟨loc, job⟩, -, hst⟩ := Option.bind_eq_some_iff.mp hst
    obtain ⟨srv, hsrv, hst⟩ := Option.map_eq_some_iff.mp hst
    obtain ⟨rfl, rfl⟩ := Prod.mk.inj hst
    exact hstart n job hsrv

end

/-! ## Moments of a run -/

section
variable {cl : Cluster} {w₀ : World} {ms : List (system cl).Move} {c : (system cl).Config}
  {i : Nat} {p : (system cl).Proc}

/-- Each step of task `i` in the run moves the world along `rel`. -/
def EachStep (cl : Cluster) (w₀ : World) (ms : List (system cl).Move) (i : Nat)
    (rel : World → World → Prop) : Prop :=
  ∀ before path pick after d d', ms = before ++ .step i path pick :: after →
    (system cl).replay before ⟨w₀, []⟩ = some d →
    (system cl).move d (.step i path pick) = some d' → rel d.world d'.world

theorem eachStep_of_log (h : (system cl).replay ms ⟨w₀, []⟩ = some c)
    (hp : c.procs[i]? = some p) {rel : World → World → Prop} (hrefl : ∀ w, rel w w)
    (hexec : ∀ {o pick r w w'}, exec cl p.agent o pick w = some (r, w') →
      (⟨p.agent, o, r, w.liveFor (Agent.loc p.agent) o⟩ : Event) ∈ World.log c.world → rel w w') :
    EachStep cl w₀ ms i rel := by
  rintro before path pick after d d' rfl hd hd'
  rw [System.replay_append, hd, Option.bind_some, System.replay, hd', Option.bind_some] at h
  obtain ⟨q, hq, hm⟩ := Option.bind_eq_some_iff.mp hd'
  obtain ⟨⟨t, w₂⟩, ht, rfl⟩ := Option.map_eq_some_iff.mp hm
  -- the process at this place is the task's
  obtain ⟨p', hp', hagent⟩ := (system cl).replay_agent h
    (List.getElem?_set_self (List.getElem?_eq_some_iff.mp hq).1)
  obtain rfl := Option.some.inj (hp.symm.trans hp')
  have hagent : p.agent = q.agent := hagent
  rcases (system cl).step_exec ht with rfl | ⟨o, pick, r, hx⟩
  · exact hrefl _
  · rw [← hagent] at hx
    obtain ⟨w₁, -, hw⟩ := exec_effect hx
    have hlog : World.log w₂ = World.log d.world ++
        [⟨p.agent, o, r, World.liveFor d.world (Agent.loc p.agent) o⟩] := by rw [hw]
    refine hexec hx ((replay_log h).subset ?_)
    show _ ∈ World.log w₂
    rw [hlog]
    exact List.mem_append_right _ List.mem_cons_self

theorem step_logged {d d' : (system cl).Config} {j : Nat} {path : List Nat} {pick : Pick}
    (hm : (system cl).move d (.step j path pick) = some d') :
    World.log d'.world = World.log d.world ∨ ∃ q o pick' r, d.procs[j]? = some q ∧
      exec cl q.agent o pick' d.world = some (r, d'.world) ∧
      World.log d'.world = World.log d.world ++
        [⟨q.agent, o, r, World.liveFor d.world (Agent.loc q.agent) o⟩] := by
  obtain ⟨q, hq, hm⟩ := Option.bind_eq_some_iff.mp hm
  obtain ⟨⟨t, w₂⟩, ht, rfl⟩ := Option.map_eq_some_iff.mp hm
  rcases (system cl).step_exec ht with rfl | ⟨o, pick', r, hx⟩
  · exact Or.inl rfl
  · obtain ⟨w₁, -, hw⟩ := exec_effect hx
    exact Or.inr ⟨q, o, pick', r, hq, hx, by rw [hw]⟩

theorem exec_of_logged {d d' : (system cl).Config} {j : Nat} {path : List Nat} {pick : Pick}
    {e : Event} (hm : (system cl).move d (.step j path pick) = some d')
    (hlog : World.log d'.world = World.log d.world ++ [e]) :
    ∃ q pick', d.procs[j]? = some q ∧ q.agent = e.agent ∧
      exec cl e.agent e.op pick' d.world = some (e.ans, d'.world) ∧
      e.live = World.liveFor d.world e.agent.loc e.op := by
  rcases step_logged hm with hsame | ⟨q, o, pick', r, hq, hx, hsnoc⟩
  · have hlen := congrArg List.length (hlog.symm.trans hsame)
    simp at hlen
  · obtain rfl := List.singleton_inj.mp (List.append_cancel_left (hsnoc.symm.trans hlog))
    exact ⟨q, pick', hq, rfl, hx, rfl⟩

/-- **The step behind a line of the log.** -/
theorem cut_log (h₀ : w₀.log = []) (h : (system cl).replay ms ⟨w₀, []⟩ = some c)
    {pre post : List Event} {e : Event} (hlog : World.log c.world = pre ++ e :: post) :
    ∃ before path pick after d d' pick', ms = before ++ .step e.agent.pid path pick :: after ∧
      (system cl).replay before ⟨w₀, []⟩ = some d ∧
      (system cl).move d (.step e.agent.pid path pick) = some d' ∧
      (system cl).replay after d' = some c ∧
      exec cl e.agent e.op pick' d.world = some (e.ans, d'.world) ∧ World.log d.world = pre ∧
      e.live = World.liveFor d.world e.agent.loc e.op ∧
      ∃ q, d.procs[e.agent.pid]? = some q ∧ q.agent = e.agent := by
  obtain ⟨before, m, after, d, d', rfl, hd, hm, hafter, hpre, hnew⟩ :=
    (system cl).cut (fun c => World.log c.world) (fun {c m c'} hm => by
      cases m with
      | step j path pick => exact (step_logged hm).imp id fun ⟨_, _, _, _, _, _, h⟩ => ⟨_, h⟩
      | env e =>
        obtain ⟨w₂, hw, rfl⟩ := Option.map_eq_some_iff.mp hm
        exact Or.inl (env_log hw)
      | start call =>
        obtain ⟨r, -, rfl⟩ := Option.map_eq_some_iff.mp hm
        exact Or.inl rfl) h (by exact h₀ ▸ List.nil_prefix) hlog
  have hne : World.log d'.world ≠ World.log d.world := fun heq => by
    have hlen := congrArg List.length (hnew.symm.trans (heq.trans hpre))
    simp at hlen
  cases m with
  | env e =>
    obtain ⟨w₂, hw, rfl⟩ := Option.map_eq_some_iff.mp hm
    exact absurd (env_log hw) hne
  | start call =>
    obtain ⟨r, -, rfl⟩ := Option.map_eq_some_iff.mp hm
    exact absurd rfl hne
  | step j path pick =>
    obtain ⟨q, pick', hq, hagent, hx, hlive⟩ := exec_of_logged hm (by rw [hnew, hpre])
    obtain rfl : e.agent.pid = j := by
      obtain ⟨hj, rfl⟩ := List.getElem?_eq_some_iff.mp hq
      rw [← hagent]
      exact (run_numbered h₀ (System.Run.replay _ before .init hd)).procs j hj
    exact ⟨before, path, pick, after, d, d', pick', rfl, hd, hm, hafter, hx, hpre, hlive, q, hq,
      hagent⟩

end

end AuthKademlia.Runtime
