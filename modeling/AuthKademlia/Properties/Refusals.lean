import AuthKademlia.Properties.Publication
import AuthKademlia.Runtime.Answers
import AuthKademlia.Storage.Interleaved

/-! # A refusal changes nothing

STORE, UPDATE and UpdateStatusList at a replica, and the update call at the node that
makes it: a task that refuses leaves every store as the other tasks have it, entries,
ages and byte counter. A handler that acknowledges had the record in its store when it
last looked there or wrote. -/
namespace AuthKademlia.Properties
open AuthKademlia.Lib.Async AuthKademlia.Lib.Trace AuthKademlia.Utils AuthKademlia.Storage
open AuthKademlia.AuthHandler AuthKademlia.Protocol AuthKademlia.Network AuthKademlia.Runtime

/-- The task refused: a STORE without an acknowledgement, an update that a replica did not
take, or `update` with `None` or `Some(false)`. -/
def Refused : Res → Prop
  | .reply none => True
  | .reply (some (.storeResult status)) =>
    status = .conflict ∨ status = .capacityExceeded ∨ status = .invalidRecord
  | .reply (some (.updateResult ok)) | .reply (some (.updateStatusListResult ok)) => ok = false
  | .update r => r = none ∨ r = some false
  | _ => False

theorem unchanged_of_not_access {ds : List (Deed effects)} (h : ∀ d ∈ ds, isAccess d = false) :
    Unchanged ds := by
  rintro ⟨o, r⟩ hd
  have ho := h _ hd
  cases o <;> first | rfl | cases ho

theorem not_acknowledged {r : Option RpcMessage} (h : Refused (.reply r)) (job : Job) :
    r.bind job.acknowledged = none := by
  rcases r with _ | answer
  · rfl
  show job.acknowledged answer = none
  unfold Job.acknowledged
  split
  · rcases h with h | h | h <;> cases h
  · rcases h with h | h | h <;> cases h
  · cases h
  · cases h
  · rfl

/-- **A task that refused wrote nothing.** -/
theorem unchanged_of_refused {cl : Cluster} {a : Agent} {ds : List (Deed effects)} {res : Res}
    (htold : Told cl a ds res) (h : Refused res) : Unchanged ds := by
  cases res with
  | reply r =>
    obtain ⟨pre, post, rfl, hpost, hsettled⟩ := htold
    rw [Settled, not_acknowledged h a.job] at hsettled
    intro d hd
    rcases List.mem_append.mp hd with hd | hd
    · exact hsettled d hd
    · exact unchanged_of_not_access hpost d hd
  | update r => exact htold (by rcases h with rfl | rfl <;> simp)
  | set outcome => exact h.elim
  | get value => exact h.elim

section
variable {cl : Cluster} {w₀ : World} {ms : List (system cl).Move} {c : (system cl).Config}
  {i : Nat} {p : (system cl).Proc}

theorem keeps_stores_of_unchanged (h : (system cl).replay ms ⟨w₀, []⟩ = some c)
    (hp : c.procs[i]? = some p) (hquiet : Unchanged (touched c.world p.agent)) :
    EachStep cl w₀ ms i fun w w' => w'.storage = w.storage := by
  refine eachStep_of_log h hp (fun _ => rfl) fun {o pick r w w'} hx he => ?_
  obtain ⟨w₁, heff, rfl⟩ := exec_effect hx
  have hsame : w₁.storage = w.storage :=
    effect_storage heff (changes_of_unchanged hquiet he)
  exact hsame

/-- **Refusals change nothing, and acknowledgements are true.** In any run, from any
state: (1) no step of a task that refused changed any store; (2) right after the last
access of a handler to the store, the store serves the record that the handler
acknowledged; (3) inside the store, no step of a refused call changes anything, whatever
other calls do in between. -/
theorem refusals_change_nothing (h₀ : w₀.log = []) (h : (system cl).replay ms ⟨w₀, []⟩ = some c)
    (hp : c.procs[i]? = some p) {res : Res} (hres : p.prog.value? = some res) :
    (Refused res → EachStep cl w₀ ms i fun w w' => w'.storage = w.storage) ∧
    (∀ answer key value, res = .reply (some answer) →
      (Agent.job p.agent).acknowledged answer = some (key, value) →
      ∃ e, LastAccess cl w₀ ms p.agent e c ∧
        World.live e.world (Agent.loc p.agent) key = some value) ∧
    ∀ (s : Interleaved.Config) before j now after status,
      status = .conflict ∨ status = .capacityExceeded →
      ((before ++ .step j now :: after).foldl Interleaved.Config.move s).calls[j]? =
        some (.finished (.written status)) →
      ((before.foldl Interleaved.Config.move s).move (.step j now)).store =
        (before.foldl Interleaved.Config.move s).store := by
  have hrun : (system cl).Run w₀ c := System.Run.replay _ ms .init h
  have htold := (run_told h₀ hrun (List.mem_of_getElem? hp)).2 res hres
  refine ⟨fun hrefused => ?_, fun answer key value hreply hack => ?_,
    fun s before j now after status hst hend => Interleaved.refused_keeps_store hst hend⟩
  · exact keeps_stores_of_unchanged h hp (unchanged_of_refused htold hrefused)
  · subst hreply
    obtain ⟨pre, post, htouched, hpost, hsettled⟩ := htold
    have hbind : (some answer).bind (Agent.job p.agent).acknowledged = some (key, value) := hack
    rw [Settled, hbind] at hsettled
    exact lastAccess_of_leaves h₀ h htouched hsettled hpost

end

/-- After the first STORE of `oneStore`, another record arrives for the same key. -/
def twoStores : List (system toyCluster).Move :=
  oneStore ++ [.env (.inject ⟨toyAddr 7, toyAddr 1, .store (filledId 7) toyKey (toyRecord 2)⟩),
    .start (.handle 1)] ++ List.replicate 6 (go 1 {})

theorem refusals_change_nothing_twoStores : ∃ (c : (system toyCluster).Config)
    (p q : (system toyCluster).Proc),
    toyRun (toyWorld emptyStore) twoStores = some c ∧
    p.prog.value? = some (.reply (some (.storeResult .stored))) ∧
    q.prog.value? = some (.reply (some (.storeResult .conflict))) ∧
    (EachStep toyCluster (toyWorld emptyStore) twoStores 1 fun w w' => w'.storage = w.storage) ∧
    ∃ e, LastAccess toyCluster (toyWorld emptyStore) twoStores p.agent e c ∧
      World.live e.world (toyAddr 1) toyKey = some (toyRecord 1) := by
  obtain ⟨c, hc, p, hpi, q, hqi, hp, hq, hjob, hloc⟩ :
      ∃ c ∈ toyRun (toyWorld emptyStore) twoStores, ∃ p ∈ c.procs[0]?, ∃ q ∈ c.procs[1]?,
        p.prog.value? = some (.reply (some (.storeResult .stored))) ∧
        q.prog.value? = some (.reply (some (.storeResult .conflict))) ∧
        Agent.job p.agent = .handle 0 (toyAddr 7) (.store (filledId 7) toyKey (toyRecord 1)) ∧
        Agent.loc p.agent = toyAddr 1 := by
    decide +kernel
  have hstored := (refusals_change_nothing rfl hc hpi hp).2.1
  have hconflict := (refusals_change_nothing rfl hc hqi hq).1 (Or.inl rfl)
  refine ⟨c, p, q, hc, hp, hq, hconflict, ?_⟩
  rw [← hloc]
  exact hstored _ toyKey (toyRecord 1) rfl (by rw [hjob]; rfl)

end AuthKademlia.Properties
