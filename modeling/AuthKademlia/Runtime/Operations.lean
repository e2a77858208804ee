import AuthKademlia.Runtime.History

/-! # What a task knows after each operation

One rule for each operation of `Protocol.Effects`. Programs are proved with these
rules and with sequencing, and never look at the world. -/
namespace AuthKademlia.Runtime
open AuthKademlia.Lib.Async AuthKademlia.Lib.Trace AuthKademlia.Utils AuthKademlia.Storage
open AuthKademlia.AuthHandler AuthKademlia.Protocol AuthKademlia.Crawling

variable {cl : Cluster} {init : Addr → ForgetfulStorage} {a : Agent} {w : World}
  {key : NodeId} {value : Bytes}

/-- The programs of a task that keep the invariant and establish `Q`. -/
abbrev Safe (cl : Cluster) (init : Addr → ForgetfulStorage) (a : Agent) {α : Type}
    (p : Routine α) (Q : α → World → Prop) (w : World) : Prop :=
  (logic cl init).Safe a p Q w

/-- A task may do `o` when it is justified; afterwards the log has a truthful
line about it. -/
theorem safe_justified {o : Op} {Q : Ans o → World → Prop}
    (hj : ∀ {w₁}, Grows w w₁ → Justified cl w₁.log a o)
    (hm : ∀ {w₁}, Grows w w₁ → ∀ msg, o = .respond msg → MayRespond init w₁ a msg)
    (hQ : ∀ {w₁ r w₂ live}, Inv cl init w₁ → w₂.log = w₁.log ++ [⟨a, o, r, live⟩] →
      Truthful cl init w₁.log ⟨a, o, r, live⟩ → Q r w₂) :
    Safe cl init a (perform o) Q w := by
  refine Logic.safe_perform fun w₁ hle hi pick r w₂ hx => ?_
  obtain ⟨hi', hg, live, hlog, ht⟩ := exec_inv hi (hj hle) (hm hle) hx
  exact ⟨hi', hg, hQ hi hlog ht⟩

/-- Operations that need no justification. -/
def Op.plain : Op → Bool
  | .storageSet _ _ | .insertIfAbsent _ _ | .cacheInsert _ _ _ | .respond _ => false
  | _ => true

theorem safe_plain {o : Op} {Q : Ans o → World → Prop} (ho : Op.plain o = true)
    (hQ : ∀ {w₁ r w₂ live}, Inv cl init w₁ → w₂.log = w₁.log ++ [⟨a, o, r, live⟩] →
      Truthful cl init w₁.log ⟨a, o, r, live⟩ → Q r w₂) :
    Safe cl init a (perform o) Q w := by
  refine safe_justified (fun _ => ?_) (fun _ msg hmsg => ?_) hQ
  · cases o <;> trivial
  · rw [hmsg] at ho; cases ho

theorem safe_any {o : Op} (ho : Op.plain o = true) :
    Safe cl init a (perform o) (fun r w' => Did w'.log a o r) w :=
  safe_plain ho fun _ hlog _ => hlog ▸ did_snoc

theorem safe_joinAll {γ β : Type} {l : List γ} {f : γ → Routine β} {R : γ → β → World → Prop}
    (hR : ∀ x y {w w'}, Grows w w' → R x y w → R x y w')
    (hf : ∀ x ∈ l, Safe cl init a (f x) (R x) w) :
    Safe cl init a (Prog.joinAll l f) (fun rs w' => List.Forall₂ (R · · w') l rs) w :=
  Logic.safe_joinAll (L := logic cl init) (fun x y _ _ hg => hR x y hg) hf fun _ _ h => h

/-! ## The store -/

theorem wasHeld_of_wrote {w₁ w₂ : World} {e : Event} (hlog : w₂.log = w₁.log ++ [e])
    (h : e.wrote e.agent.loc key = some value) : WasHeld init w₂.log e.agent.loc key value := by
  refine ⟨w₂.log, List.prefix_rfl, ?_⟩
  rw [hlog, lastWritten, latest_snoc, h, Option.some_or]

theorem safe_storageGet : Safe cl init a (storageGet key) (fun found w' =>
    Did w'.log a (.storageGet key) found ∧
    ∀ v, found = some v → WasHeld init w'.log a.loc key v) w := by
  refine safe_plain rfl fun {w₁ found w₂ live} _ hlog ht => ⟨hlog ▸ did_snoc, fun v hv => ?_⟩
  exact ⟨w₁.log, hlog ▸ List.prefix_append _ _, ht.2 v (ht.1 ▸ hv)⟩

/-- **A write needs its justification.** -/
theorem safe_storageSet (hj : ∀ {w₁}, Grows w w₁ → Justified cl w₁.log a (.storageSet key value)) :
    Safe cl init a (storageSet key value) (fun st w' =>
      st ≠ .capacityExceeded → WasHeld init w'.log a.loc key value) w := by
  refine safe_justified hj (fun _ _ h => by cases h) fun {w₁ st w₂ live} _ hlog ht hst => ?_
  refine wasHeld_of_wrote hlog ?_
  have hne := ht.1
  cases st <;> first | exact absurd rfl hne | exact absurd rfl hst | simp [Event.wrote, isWrite]

theorem safe_insertIfAbsent
    (hj : ∀ {w₁}, Grows w w₁ → Justified cl w₁.log a (.insertIfAbsent key value)) :
    Safe cl init a (insertIfAbsent key value) (fun st w' =>
      Did w'.log a (.insertIfAbsent key value) st ∧
      (st = .stored ∨ st = .alreadyStored → WasHeld init w'.log a.loc key value)) w := by
  refine safe_justified hj (fun _ _ h => by cases h) fun {w₁ st w₂ live} _ hlog _ => ?_
  refine ⟨hlog ▸ did_snoc, fun hst => wasHeld_of_wrote hlog ?_⟩
  rcases hst with rfl | rfl <;> simp [Event.wrote, isWrite]

/-! ## Verification -/

/-- A verdict from the cache is a verdict about this record, if hashes do not
collide. -/
theorem safe_cacheGet {domain : VerificationDomain} : Safe cl init a (cacheGet domain value)
    (fun found w' => found = some true → NoCollision cl.platform w'.log →
      Verified cl.platform domain value) w := by
  refine safe_plain rfl fun {w₁ found w₂ live} hi hlog ht hf hc => ?_
  obtain ⟨a', d, v, ⟨live', hmem⟩, hkey⟩ := ht true hf
  have hpre : w₁.log <+: w₂.log := hlog ▸ List.prefix_append _ _
  obtain ⟨rfl, rfl⟩ := hc d v domain value (Or.inr ⟨a', true, live', hpre.subset hmem⟩)
    (Or.inl ⟨a, found, hlog ▸ did_snoc⟩) hkey
  obtain ⟨pre, post, heq⟩ := List.append_of_mem hmem
  exact hi.justified pre _ post heq rfl

theorem safe_cacheInsert {domain : VerificationDomain} {result : Bool}
    (h : result = true → Verified cl.platform domain value) :
    Safe cl init a (cacheInsert domain value result) (fun _ _ => True) w :=
  safe_justified (fun _ => h) (fun _ _ h => by cases h) fun _ _ _ => trivial

theorem safe_blocking {result : Bool} :
    Safe cl init a (blocking result) (fun r _ => r = true → result = true) w :=
  safe_plain rfl fun _ _ ht => ht

/-! ## Messages -/

theorem safe_send {peer : Addr} {msg : RpcMessage} : Safe cl init a (send peer msg)
    (fun call w' => w'.requests[call]? = some ⟨a.loc, peer, msg⟩) w := by
  refine Logic.safe_perform fun w₁ hle hi pick r w₂ hx => ?_
  have hx : exec cl a (.send peer msg) pick w₁ = some (r, w₂) := hx
  obtain ⟨hi', hg, -⟩ := exec_inv hi (o := .send peer msg) trivial (fun _ h => by cases h) hx
  refine ⟨hi', hg, ?_⟩
  obtain ⟨w₃, he, rfl⟩ := exec_effect hx
  cases he
  simp

theorem safe_receive {call : Nat} : Safe cl init a (receive call) (fun r w' =>
    ∀ msg, r = some msg → ∃ req, w'.requests[call]? = some req ∧
      ((cl.server req.dst).isSome → AnswerOk init w'.log req.dst req.msg msg)) w := by
  refine Logic.safe_perform fun w₁ hle hi pick r w₂ hx => ?_
  have hx : exec cl a (.receive call) pick w₁ = some (r, w₂) := hx
  obtain ⟨hi', hg, -⟩ := exec_inv hi (o := .receive call) trivial (fun _ h => by cases h) hx
  refine ⟨hi', hg, fun msg hmsg => ?_⟩
  obtain ⟨w₃, he, rfl⟩ := exec_effect hx
  obtain ⟨rfl, hmem⟩ := effect_receive he
  exact hi'.answers call msg (hmem msg hmsg)

theorem safe_respond {msg : RpcMessage} (h : ∀ {w₁}, Grows w w₁ → MayRespond init w₁ a msg) :
    Safe cl init a (respond msg) (fun _ _ => True) w :=
  safe_justified (fun _ => trivial) (fun hg msg' hm => by cases hm; exact h hg)
    fun _ _ _ => trivial

end AuthKademlia.Runtime
