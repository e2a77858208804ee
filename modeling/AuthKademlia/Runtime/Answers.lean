import AuthKademlia.Runtime.Accesses

/-! # Where an answer comes from

An answer that a call hears from an honest node was sent by a handler of that node, for
the request of the call. The handler had settled the request by then: if it acknowledges
a record, its store served the record at the handler's last access before the answer. -/
namespace AuthKademlia.Runtime
open AuthKademlia.Lib.Async AuthKademlia.Lib.Trace AuthKademlia.Utils AuthKademlia.Storage
open AuthKademlia.Protocol

variable {cl : Cluster} {c c' : (system cl).Config} {w₀ : World} {ms : List (system cl).Move}

/-! ## Requests and answers -/

theorem exec_grows {a : Agent} {o : Op} {pick : Pick} {w w' : World} {r : Ans o}
    (h : exec cl a o pick w = some (r, w')) : Grows w w' := by
  obtain ⟨w₁, he, rfl⟩ := exec_effect h
  have hrequests := effect_requests he
  exact ⟨List.prefix_append _ _, hrequests⟩

theorem env_grows {e : Env} {w w' : World} (h : env cl e w = some w') : Grows w w' := by
  refine ⟨(env_log h).symm ▸ List.prefix_rfl, ?_⟩
  cases e with
  | inject req =>
    cases h
    exact List.prefix_append _ _
  | forge id msg =>
    simp only [env] at h
    split at h
    · split at h
      · cases h
        exact List.prefix_rfl
      · cases h
    · cases h
  | _ =>
    cases h
    exact List.prefix_rfl

theorem move_grows {m : (system cl).Move} (h : (system cl).move c m = some c') :
    Grows c.world c'.world := by
  cases m with
  | step i path pick =>
    obtain ⟨p, -, h⟩ := Option.bind_eq_some_iff.mp h
    obtain ⟨⟨t, w₂⟩, ht, rfl⟩ := Option.map_eq_some_iff.mp h
    exact (system cl).step_rel Grows Grows.refl (fun hx => exec_grows hx) ht
  | env e =>
    obtain ⟨w₂, hw, rfl⟩ := Option.map_eq_some_iff.mp h
    exact env_grows hw
  | start call =>
    obtain ⟨r, -, rfl⟩ := Option.map_eq_some_iff.mp h
    exact Grows.refl _

theorem replay_grows (h : (system cl).replay ms c = some c') : Grows c.world c'.world :=
  System.replay_rel (system cl) (fun c c' => Grows c.world c'.world) (fun c => Grows.refl c.world)
    (fun h h' => Grows.trans h h') (fun h => move_grows h) h

/-- The answer to the call `id` was given by a handler of the node that was asked. -/
def FromHandler (cl : Cluster) (w : World) (id : Nat) (msg : RpcMessage) : Prop :=
  ∃ req, w.requests[id]? = some req ∧ ((cl.server req.dst).isSome → ∃ b : Agent,
    b.loc = req.dst ∧ b.job = .handle id req.src req.msg ∧ Did w.log b (.respond msg) ())

theorem FromHandler.mono {w w' : World} {id : Nat} {msg : RpcMessage} (hg : Grows w w')
    (h : FromHandler cl w id msg) : FromHandler cl w' id msg := by
  obtain ⟨req, hreq, hb⟩ := h
  refine ⟨req, hg.request hreq, fun hin => ?_⟩
  obtain ⟨b, hloc, hjob, hdid⟩ := hb hin
  exact ⟨b, hloc, hjob, hdid.mono hg.log⟩

/-- Handlers work on requests that were sent to their node, and answers come from them. -/
structure Posted (c : (system cl).Config) : Prop where
  jobs : ∀ p ∈ c.procs, ∀ id src msg, Agent.job p.agent = .handle id src msg →
    (World.requests c.world)[id]? = some ⟨src, Agent.loc p.agent, msg⟩
  answers : ∀ id msg, (id, msg) ∈ World.answers c.world → FromHandler cl c.world id msg

theorem Posted.step {i : Nat} {path : List Nat} {pick : Pick} (h : Posted c)
    (hm : (system cl).move c (.step i path pick) = some c') : Posted c' := by
  have hg := move_grows hm
  obtain ⟨p, hp, hm⟩ := Option.bind_eq_some_iff.mp hm
  obtain ⟨⟨t, w₂⟩, ht, rfl⟩ := Option.map_eq_some_iff.mp hm
  have hpmem : p ∈ c.procs := List.mem_of_getElem? hp
  refine ⟨fun q hq id src msg hjob => ?_, fun id msg hmem => ?_⟩
  · rcases List.mem_or_eq_of_mem_set hq with hq | rfl
    · exact hg.request (h.jobs q hq id src msg hjob)
    · exact hg.request (h.jobs p hpmem id src msg hjob)
  · have hmem : (id, msg) ∈ World.answers w₂ := hmem
    rcases (system cl).step_exec ht with rfl | ⟨o, pick', r, hx⟩
    · exact h.answers id msg hmem
    obtain ⟨w₁, heff, rfl⟩ := exec_effect hx
    rcases effect_answers heff hmem with hmem | ⟨rfl, src, req, hjob⟩
    · exact (h.answers id msg hmem).mono hg
    · refine ⟨_, hg.request (h.jobs p hpmem id src req hjob), fun _ => ?_⟩
      exact ⟨p.agent, rfl, hjob, did_snoc⟩

theorem Posted.env {e : Env} (h : Posted c)
    (hm : (system cl).move c (.env e) = some c') : Posted c' := by
  have hg := move_grows hm
  obtain ⟨w₂, hw, rfl⟩ := Option.map_eq_some_iff.mp hm
  refine ⟨fun q hq id src msg hjob => hg.request (h.jobs q hq id src msg hjob),
    fun id msg hmem => ?_⟩
  have hold : (id, msg) ∈ World.answers c.world → FromHandler cl w₂ id msg := fun hmem =>
    (h.answers id msg hmem).mono hg
  cases e with
  | forge id' msg' =>
    have hw : env cl (.forge id' msg') c.world = some w₂ := hw
    simp only [env] at hw
    split at hw
    · rename_i req hreq
      split at hw
      · rename_i hout
        cases hw
        rcases List.mem_append.mp hmem with hmem | hmem
        · exact hold hmem
        · -- a forged answer is one to a request that left the cluster
          obtain ⟨rfl, rfl⟩ := Prod.mk.inj (List.mem_singleton.mp hmem)
          refine ⟨req, hreq, fun hin => ?_⟩
          rw [Option.isNone_iff_eq_none.mp hout] at hin
          cases hin
      · cases hw
    · cases hw
  | _ =>
    cases hw
    exact hold hmem

theorem Posted.start {call : Call} (h : Posted c)
    (hm : (system cl).move c (.start call) = some c') : Posted c' := by
  obtain ⟨⟨a, t⟩, hst, rfl⟩ := Option.map_eq_some_iff.mp hm
  refine ⟨fun q hq id src msg hjob => ?_, h.answers⟩
  rcases List.mem_append.mp hq with hq | hq
  · exact h.jobs q hq id src msg hjob
  · rw [List.mem_singleton] at hq
    subst hq
    obtain ⟨⟨loc, job⟩, hcall, hst⟩ := Option.bind_eq_some_iff.mp hst
    obtain ⟨srv, -, hst⟩ := Option.map_eq_some_iff.mp hst
    obtain ⟨rfl, rfl⟩ := Prod.mk.inj hst
    obtain rfl : job = .handle id src msg := hjob
    cases call with
    | handle id' =>
      obtain ⟨req, hreq, hj⟩ := Option.map_eq_some_iff.mp hcall
      cases hj
      exact hreq
    | _ => cases hcall

theorem run_posted (h₀ : w₀.answers = []) (h : (system cl).Run w₀ c) : Posted c := by
  induction h with
  | init => exact ⟨fun p hp => by (cases hp), fun id msg hmem => by rw [h₀] at hmem; cases hmem⟩
  | move m _ hm ih =>
    cases m with
    | step i path pick => exact ih.step hm
    | env e => exact ih.env hm
    | start call => exact ih.start hm

/-! ## From the call to the handler -/

theorem request_of_send (h₀ : w₀.log = []) (h : (system cl).replay ms ⟨w₀, []⟩ = some c)
    {a : Agent} {peer : Addr} {msg : RpcMessage} {call : Nat}
    (hdid : Did (World.log c.world) a (.send peer msg) call) :
    (World.requests c.world)[call]? = some ⟨a.loc, peer, msg⟩ := by
  obtain ⟨live, he⟩ := hdid
  obtain ⟨pre, post, hlog⟩ := List.append_of_mem he
  obtain ⟨before, path, pick, after, d, d', pick', -, -, -, hafter, hx, -⟩ := cut_log h₀ h hlog
  refine (replay_grows hafter).request ?_
  obtain ⟨w₁, heff, hw⟩ := exec_effect hx
  cases heff
  rw [hw]
  simp

/-- **An answer that was heard** came from a handler. -/
theorem handler_of_receive (h₀ : Fresh w₀) (h : (system cl).replay ms ⟨w₀, []⟩ = some c)
    {a : Agent} {call : Nat} {msg : RpcMessage}
    (hdid : Did (World.log c.world) a (.receive call) (some msg)) :
    FromHandler cl c.world call msg := by
  obtain ⟨live, he⟩ := hdid
  obtain ⟨pre, post, hlog⟩ := List.append_of_mem he
  obtain ⟨before, path, pick, after, d, d', pick', -, hd, hm, hafter, hx, -⟩ :=
    cut_log h₀.log h hlog
  have hposted : Posted d := run_posted h₀.answers (System.Run.replay _ before .init hd)
  obtain ⟨w₁, heff, -⟩ := exec_effect hx
  have hmem := (effect_receive heff).2 msg rfl
  exact ((hposted.answers call msg hmem).mono (move_grows hm)).mono (replay_grows hafter)

/-- `b` answered `msg`, and at its last access before that its store served `value`. -/
def AnsweredHolding (cl : Cluster) (w₀ : World) (ms : List (system cl).Move) (b : Agent)
    (msg : RpcMessage) (key : NodeId) (value : Bytes) : Prop :=
  ∃ before path pick after d d' e, ms = before ++ .step b.pid path pick :: after ∧
    (system cl).replay before ⟨w₀, []⟩ = some d ∧
    (system cl).move d (.step b.pid path pick) = some d' ∧
    World.log d'.world = World.log d.world ++ [⟨b, .respond msg, (), none⟩] ∧
    LastAccess cl w₀ before b e d ∧ World.live e.world b.loc key = some value

/-- **A handler that acknowledges holds the record.** -/
theorem answeredHolding_of_respond (h₀ : w₀.log = [])
    (h : (system cl).replay ms ⟨w₀, []⟩ = some c) {b : Agent} {msg : RpcMessage}
    (hdid : Did (World.log c.world) b (.respond msg) ()) {key : NodeId} {value : Bytes}
    (hack : b.job.acknowledged msg = some (key, value)) :
    AnsweredHolding cl w₀ ms b msg key value := by
  obtain ⟨live, he⟩ := hdid
  obtain ⟨pre, post, hlog⟩ := List.append_of_mem he
  obtain ⟨before, path, pick, after, d, d', pick', hms, hd, hm, -, hx, -, hlive, q, hq, hagent⟩ :=
    cut_log h₀ h hlog
  obtain rfl : live = none := hlive
  have hlog' : World.log d'.world = World.log d.world ++ [⟨b, .respond msg, (), none⟩] := by
    obtain ⟨w₁, -, hw⟩ := exec_effect hx
    rw [hw]
    rfl
  -- the handler obeyed the rule for its answer
  have hrun : (system cl).Run w₀ d := System.Run.replay _ before .init hd
  have hone : (system cl).replay [.step b.pid path pick] d = some d' := by
    rw [System.replay, hm]
    rfl
  obtain ⟨q', hq', hagent'⟩ := (system cl).replay_agent hone hq
  have hrule := (run_told h₀ (.move _ hrun hm) (List.mem_of_getElem? hq')).1
  rw [hagent', hagent] at hrule
  have htouched : touched d'.world b = touched d.world b ++ [⟨.respond msg, ()⟩] := by
    have hself : deeds d'.world b = deeds d.world b ++ [⟨.respond msg, ()⟩] :=
      (deeds_of_log hlog' b).trans (if_pos rfl)
    show (deeds d'.world b).filter _ = (deeds d.world b).filter _ ++ _
    rw [hself, List.filter_append]
    rfl
  rw [htouched, every_snoc] at hrule
  have hsettled : Settled b.job (touched d.world b) (some msg) := hrule.2
  have hbind : (some msg).bind b.job.acknowledged = some (key, value) := hack
  rw [Settled, hbind] at hsettled
  obtain ⟨e, hlast, hserves⟩ := lastAccess_of_leaves h₀ hd (List.append_nil _).symm hsettled
    (fun x hx => by cases hx)
  exact ⟨before, path, pick, after, d, d', e, hms, hd, hm, hlog', hlast, hserves⟩

end AuthKademlia.Runtime
