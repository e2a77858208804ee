import AuthKademlia.Runtime.Operations

/-! # Every task of a node keeps the invariant

One spec lemma for each handler and each API call: what the task needs, and what
its result says about the history. -/
namespace AuthKademlia.Runtime
open AuthKademlia.Lib.Async AuthKademlia.Lib.Trace AuthKademlia.Utils AuthKademlia.Storage
open AuthKademlia.AuthHandler AuthKademlia.Protocol AuthKademlia.Crawling AuthKademlia.Network

variable {cl : Cluster} {init : Addr → ForgetfulStorage} {a : Agent} {w : World}
  {srv : Server} {key : NodeId} {value : Bytes}

/-! ## Verification -/

theorem statusKey_eq (hs : srv.platform = cl.platform) :
    srv.statusKey = cl.platform.hashes.digest statusListKey := by
  rw [Server.statusKey, Server.digest, hs]

theorem validFor_of_verified (hs : srv.platform = cl.platform)
    (hb : isBoundToKey srv key value = true)
    (hv : Verified cl.platform (verificationDomain srv key) value) :
    ValidFor cl.platform key value := by
  rw [verificationDomain, statusKey_eq hs] at hv
  rw [ValidFor]
  split at hv
  · rw [if_pos ‹_›]
    exact hv
  · rename_i hne
    rw [isBoundToKey, Bool.or_eq_true_iff, decide_eq_true_eq, statusKey_eq hs,
      orFalse_eq_true] at hb
    rw [if_neg hne]
    exact ⟨boundTo_of_verified (hs ▸ hb.resolve_left hne), hv⟩

theorem safe_verifySignature (hs : srv.platform = cl.platform) :
    Safe cl init a (verifySignature srv key value)
      (fun r _ => r = true → Verified cl.platform (verificationDomain srv key) value) w := by
  refine safe_blocking.imp fun r _ h hr => ?_
  have h := h hr
  rw [verificationDomain]
  split at h
  · rw [if_pos ‹_›]
    exact issuerSigned_of_verified (hs ▸ orFalse_eq_true.mp h)
  · rw [if_neg ‹_›]
    exact selfSigned_of_verified (hs ▸ orFalse_eq_true.mp h)

/-- **A record that passed `verify_record` is valid for its key**, cached verdicts
included. -/
theorem safe_verifyRecord (hs : srv.platform = cl.platform) (hi : Inv cl init w) :
    Safe cl init a (verifyRecord srv key value)
      (fun r w' => r = true → ValidIn cl.platform w'.log key value) w := by
  rw [verifyRecord]
  split
  · exact fun h => by cases h
  rename_i hb
  have hb : isBoundToKey srv key value = true := by simpa using hb
  split
  · refine safe_cacheGet.seq hi fun found w₁ _ hi₁ hfound => ?_
    cases found with
    | some cached =>
      exact fun hc _ hcol => validFor_of_verified hs hb (hfound (congrArg some hc) hcol)
    | none =>
      refine (safe_verifySignature hs).seq hi₁ fun r w₂ _ hi₂ hr => ?_
      refine (safe_cacheInsert hr).seq hi₂ fun _ w₃ _ _ _ => ?_
      exact fun hrt _ _ => validFor_of_verified hs hb (hr hrt)
  · exact (safe_verifySignature hs).imp fun r _ hr hrt _ _ => validFor_of_verified hs hb (hr hrt)

/-- A verified rotation is authorised by the old record, and valid for its key. -/
theorem safe_verifyRotation (hs : srv.platform = cl.platform) {old auth : Bytes} :
    Safe cl init a (verifyRotation srv key value old auth) (fun r w' => r = true →
      Authorises cl.platform old value auth ∧ ValidIn cl.platform w'.log key value) w := by
  refine safe_blocking.imp fun r w' h hr => ?_
  have h := h hr
  simp only [Bool.and_eq_true, orFalse_eq_true] at h
  obtain ⟨⟨-, hb⟩, hu⟩ := h
  have hu : verifyKeyRotation srv.platform value old auth = .ok true := hu
  obtain ⟨hauth, hself⟩ := authorises_of_verified (hs ▸ hu)
  exact ⟨hauth, fun hP _ => validFor_of_bound (boundTo_of_verified (hs ▸ hb)) hself hP⟩

theorem safe_verifyIssuerSigned (hs : srv.platform = cl.platform) :
    Safe cl init a (verifyIssuerSigned srv value)
      (fun r _ => r = true → IssuerSigned cl.platform value) w :=
  safe_blocking.imp fun _ _ h hr => issuerSigned_of_verified (hs ▸ orFalse_eq_true.mp (h hr))

/-! ## Handlers -/

/-- What a STORE handler must know before its write. -/
def StoreChecked (cl : Cluster) (log : List Event) (a : Agent) (key : NodeId) (value : Bytes) :
    Prop :=
  key ≠ cl.platform.hashes.digest statusListKey → ∃ found, Did log a (.storageGet key) found ∧
    (found = none → Did log a (.networkCopy key value) .noneOrSame)

theorem StoreChecked.mono {log log' : List Event} (hp : log <+: log')
    (h : StoreChecked cl log a key value) : StoreChecked cl log' a key value := by
  intro hne
  obtain ⟨found, hd, hc⟩ := h hne
  exact ⟨found, hd.mono hp, fun hf => (hc hf).mono hp⟩

/-- What an acknowledged STORE says. -/
def Stored (init : Addr → ForgetfulStorage) (a : Agent) (key : NodeId) (value : Bytes)
    (r : Option StoreStatus) (w : World) : Prop :=
  (r = some .stored ∨ r = some .alreadyStored → WasHeld init w.log a.loc key value) ∧
  (r = some .stored → Did w.log a (.insertIfAbsent key value) .stored)

theorem Stored.mono {r : Option StoreStatus} {w w' : World} (hg : Grows w w')
    (h : Stored init a key value r w) : Stored init a key value r w' :=
  ⟨fun hr => (h.1 hr).mono hg.log, fun hr => (h.2 hr).mono hg.log⟩

theorem stored_of_ne {s : Option StoreStatus} (h₁ : s ≠ some .stored)
    (h₂ : s ≠ some .alreadyStored) : Stored init a key value s w :=
  ⟨fun h => h.elim (absurd · h₁) (absurd · h₂), fun h => absurd h h₁⟩

theorem safe_storeVerified (hs : srv.platform = cl.platform) (hi : Inv cl init w) {source : Node}
    (hc : StoreChecked cl w.log a key value) :
    Safe cl init a (storeVerified srv source key value) (Stored init a key value) w := by
  rw [storeVerified]
  refine (safe_verifyRecord hs hi).seq hi fun ok w₁ hg₁ hi₁ hok => ?_
  split
  · exact stored_of_ne (by simp) (by simp)
  rename_i hneg
  have hvalid := hok (by simpa using hneg)
  refine (safe_insertIfAbsent fun {w₂} hg₂ => ⟨hvalid.mono hg₂.log, fun hne _ =>
    hc.mono (hg₁.log.trans hg₂.log) hne⟩).seq hi₁ fun st w₂ _ hi₂ hst => ?_
  have hstored : Stored init a key value (some (StoreStatus.ofWrite st)) w₂ := by
    obtain ⟨hdid, hheld⟩ := hst
    cases st
    · exact ⟨fun _ => hheld (Or.inl rfl), fun _ => hdid⟩
    · exact ⟨fun _ => hheld (Or.inr rfl), fun h => by cases h⟩
    · exact stored_of_ne (by simp [StoreStatus.ofWrite]) (by simp [StoreStatus.ofWrite])
    · exact stored_of_ne (by simp [StoreStatus.ofWrite]) (by simp [StoreStatus.ofWrite])
  dsimp only
  split
  · exact (safe_any rfl).seq hi₂ fun _ w₃ hg₃ _ _ => hstored.mono hg₃
  · exact hstored

theorem safe_storeNeedsLookup (hs : srv.platform = cl.platform) (hi : Inv cl init w) :
    Safe cl init a (storeNeedsLookup srv key) (fun r w' =>
      key ≠ cl.platform.hashes.digest statusListKey →
        ∃ found, Did w'.log a (.storageGet key) found ∧ (r = false → found ≠ none)) w := by
  rw [storeNeedsLookup, statusKey_eq hs]
  split
  · exact fun hne => absurd ‹_› hne
  · refine safe_storageGet.seq hi fun found w₁ _ _ hfound => ?_
    exact fun _ => ⟨found, hfound.1, fun hr hn => by simp [hn] at hr⟩

theorem safe_rpcStore (hs : srv.platform = cl.platform) (hi : Inv cl init w) {sender : NodeId}
    {peer : Addr} :
    Safe cl init a (rpcStore srv sender peer key value) (Stored init a key value) w := by
  refine (safe_storeNeedsLookup hs hi).seq hi fun needs w₁ _ hi₁ hneeds => ?_
  cases needs with
  | true =>
    rw [if_pos rfl]
    split
    · exact stored_of_ne (by simp) (by simp)
    refine (safe_any rfl).seq hi₁ fun copy w₂ hg₂ hi₂ hcopy => ?_
    cases copy with
    | noneOrSame =>
      refine safe_storeVerified hs hi₂ fun hne => ?_
      obtain ⟨found, hdid, -⟩ := hneeds hne
      exact ⟨found, hdid.mono hg₂.log, fun _ => hcopy⟩
    | other => exact stored_of_ne (by simp) (by simp)
    | unknown => exact stored_of_ne (by simp) (by simp)
  | false =>
    rw [if_neg (by simp)]
    refine safe_storeVerified hs hi₁ fun hne => ?_
    obtain ⟨found, hdid, hfound⟩ := hneeds hne
    exact ⟨found, hdid, fun hn => absurd hn (hfound rfl)⟩

theorem safe_rpcUpdate (hs : srv.platform = cl.platform) (hi : Inv cl init w) {sender : NodeId}
    {peer : Addr} {auth : Bytes} (hauth : a.job.auth = auth) :
    Safe cl init a (rpcUpdate srv sender peer key value auth)
      (fun r w' => r = true → WasHeld init w'.log a.loc key value) w := by
  rw [rpcUpdate]
  split
  · exact fun h => by cases h
  refine safe_storageGet.seq hi fun found w₁ _ hi₁ hfound => ?_
  cases found with
  | none => exact fun h => by cases h
  | some old =>
    refine (safe_any rfl).seq hi₁ fun _ w₂ hg₂ hi₂ hagainst => ?_
    split
    · rename_i heq
      exact fun _ => (hfound.2 value (congrArg some heq)).mono hg₂.log
    refine (safe_verifyRotation hs).seq hi₂ fun ok w₃ hg₃ hi₃ hok => ?_
    split
    · exact fun h => by cases h
    rename_i hneg
    obtain ⟨hau, hvalid⟩ := hok (by simpa using hneg)
    refine (safe_any rfl).seq hi₃ fun _ w₄ hg₄ hi₄ _ => ?_
    refine (safe_storageSet fun {w₅} hg₅ => ⟨hvalid.mono (hg₄.log.trans hg₅.log), fun _ =>
      ⟨old, hagainst.mono (hg₃.log.trans (hg₄.log.trans hg₅.log)), Or.inr (hauth ▸ hau)⟩⟩).seq
      hi₄ fun st w₅ _ _ hst => ?_
    exact fun h => hst (by simpa using h)

theorem safe_rpcUpdateStatusList (hs : srv.platform = cl.platform) (hi : Inv cl init w)
    {sender : NodeId} {peer : Addr} :
    Safe cl init a (rpcUpdateStatusList srv sender peer key value)
      (fun r w' => r = true → WasHeld init w'.log a.loc key value) w := by
  rw [rpcUpdateStatusList, statusKey_eq hs]
  split
  · exact fun h => by cases h
  rename_i hkey
  have hkey : key = cl.platform.hashes.digest statusListKey := by simpa using hkey
  refine safe_storageGet.seq hi fun found w₁ _ hi₁ _ => ?_
  split
  · exact fun h => by cases h
  refine (safe_verifyIssuerSigned hs).seq hi₁ fun ok w₂ _ hi₂ hok => ?_
  split
  · exact fun h => by cases h
  rename_i hneg
  have hissuer := hok (by simpa using hneg)
  have hvalid : ∀ log, ValidIn cl.platform log key value := fun log _ _ => by
    rw [ValidFor, if_pos hkey]
    exact hissuer
  refine (safe_any rfl).seq hi₂ fun _ w₃ _ hi₃ _ => ?_
  refine (safe_storageSet fun _ => ⟨hvalid _, fun hne => absurd hkey hne⟩).seq hi₃
    fun st w₄ _ _ hst => ?_
  exact fun h => hst (by simpa using h)

/-- What a handler's answer to `msg` says. -/
def Handled (init : Addr → ForgetfulStorage) (a : Agent) (msg : RpcMessage)
    (r : Option RpcMessage) (w : World) : Prop :=
  (∀ answer, r = some answer → AnswerOk init w.log a.loc msg answer) ∧
  ∀ sender key value, msg = .store sender key value → r = some (.storeResult .stored) →
    Did w.log a (.insertIfAbsent key value) .stored

theorem Handled.mono {msg : RpcMessage} {r : Option RpcMessage} {w w' : World} (hg : Grows w w')
    (h : Handled init a msg r w) : Handled init a msg r w' :=
  ⟨fun ans hr => (h.1 ans hr).mono hg.log, fun s k v hm hr => (h.2 s k v hm hr).mono hg.log⟩

theorem safe_dispatchRequest (hs : srv.platform = cl.platform) (hi : Inv cl init w) {id : Nat}
    {peer : Addr} {msg : RpcMessage} (hjob : a.job = .handle id peer msg) :
    Safe cl init a (dispatchRequest srv peer msg) (Handled init a msg) w := by
  cases msg with
  | store sender key value =>
    refine (safe_rpcStore hs hi).seq hi fun r w₁ _ _ hr => ⟨fun answer ha => ?_, ?_⟩
    · obtain ⟨status, rfl, rfl⟩ := Option.map_eq_some_iff.mp ha
      exact fun hst => hr.1 (hst.imp (congrArg some) (congrArg some))
    · rintro _ _ _ ⟨⟩ hstored
      obtain ⟨status, rfl, hst⟩ := Option.map_eq_some_iff.mp hstored
      cases hst
      exact hr.2 rfl
  | update sender key value auth =>
    refine (safe_rpcUpdate hs hi (by rw [hjob]; rfl)).seq hi fun r w₁ _ _ hr => ⟨?_, ?_⟩
    · rintro _ ⟨⟩
      exact hr
    · rintro _ _ _ ⟨⟩
  | updateStatusList sender key value =>
    refine (safe_rpcUpdateStatusList hs hi).seq hi fun r w₁ _ _ hr => ⟨?_, ?_⟩
    · rintro _ ⟨⟩
      exact hr
    · rintro _ _ _ ⟨⟩
  | storeResult _ => exact ⟨fun _ h => by (cases h), fun _ _ _ h => by cases h⟩
  | updateResult _ => exact ⟨fun _ h => by (cases h), fun _ _ _ h => by cases h⟩
  | updateStatusListResult _ => exact ⟨fun _ h => by (cases h), fun _ _ _ h => by cases h⟩

/-- **A handler answers for what its node has held.** -/
theorem safe_handleRequest (hs : srv.platform = cl.platform) (hi : Inv cl init w) {id : Nat}
    {peer : Addr} {msg : RpcMessage} (hjob : a.job = .handle id peer msg)
    (hreq : w.requests[id]? = some ⟨peer, a.loc, msg⟩) :
    Safe cl init a (handleRequest srv peer msg) (Handled init a msg) w := by
  refine (safe_dispatchRequest hs hi hjob).seq hi fun r w₁ hg₁ hi₁ hr => ?_
  cases r with
  | none => exact hr
  | some answer =>
    refine (safe_respond fun {w₂} hg₂ id' src req hjob' => ?_).seq hi₁ fun _ w₂ hg₂ _ _ => ?_
    · rw [hjob] at hjob'
      cases hjob'
      exact ⟨(hg₁.trans hg₂).request hreq, (hr.1 answer rfl).mono hg₂.log⟩
    · exact hr.mono hg₂

/-! ## Calls to other nodes -/

/-- An acknowledgement of the node `n`: if it is honest, it has held the record. -/
def Acks (cl : Cluster) (init : Addr → ForgetfulStorage) (log : List Event) (key : NodeId)
    (value : Bytes) (n : Node) : Prop :=
  ∃ addr, n.address = some addr ∧ ((cl.server addr).isSome → WasHeld init log addr key value)

theorem Acks.mono {log log' : List Event} {n : Node} (hp : log <+: log')
    (h : Acks cl init log key value n) : Acks cl init log' key value n := by
  obtain ⟨addr, haddr, hh⟩ := h
  exact ⟨addr, haddr, fun hs => (hh hs).mono hp⟩

theorem safe_call (hi : Inv cl init w) {n : Node} {msg : RpcMessage} :
    Safe cl init a (call n msg) (fun r w' => ∀ answer, r = some answer →
      ∃ addr, n.address = some addr ∧
        ((cl.server addr).isSome → AnswerOk init w'.log addr msg answer)) w := by
  rw [call]
  split
  · exact fun _ h => by cases h
  · rename_i addr haddr
    refine safe_send.seq hi fun id w₁ _ hi₁ hid => ?_
    refine (safe_receive.frame hi₁).imp fun r w₂ ⟨hg₂, _, hr⟩ answer hans => ?_
    obtain ⟨req, hreq, hok⟩ := hr answer hans
    have heq := (hg₂.request hid).symm.trans hreq
    cases heq
    exact ⟨addr, haddr, hok⟩

theorem safe_callStoreRpc (hi : Inv cl init w) {n : Node} :
    Safe cl init a (callStoreRpc srv n key value) (fun r w' =>
      r = some .stored ∨ r = some .alreadyStored → Acks cl init w'.log key value n) w := by
  refine (safe_call hi).seq hi fun r w₁ _ _ hr => ?_
  split
  · rename_i status
    intro hst
    obtain ⟨addr, haddr, hok⟩ := hr _ rfl
    exact ⟨addr, haddr, fun hh => hok hh (hst.imp Option.some.inj Option.some.inj)⟩
  · exact fun h => by rcases h with h | h <;> cases h

theorem safe_callUpdateRpcAnswer (hi : Inv cl init w) {n : Node} {auth : Bytes} :
    Safe cl init a (callUpdateRpcAnswer srv n key value auth) (fun r w' =>
      r = some true → Acks cl init w'.log key value n) w := by
  refine (safe_call hi).seq hi fun r w₁ _ _ hr => ?_
  split
  · rename_i ok
    intro hok
    obtain ⟨addr, haddr, h⟩ := hr _ rfl
    exact ⟨addr, haddr, fun hh => h hh (Option.some.inj hok)⟩
  · exact fun h => by cases h

theorem safe_callStatusListUpdateRpc (hi : Inv cl init w) {n : Node} :
    Safe cl init a (callStatusListUpdateRpc srv n key value) (fun r w' =>
      r = true → Acks cl init w'.log key value n) w := by
  refine (safe_call hi).seq hi fun r w₁ _ _ hr => ?_
  split
  · rename_i ok
    intro hok
    obtain ⟨addr, haddr, h⟩ := hr _ rfl
    exact ⟨addr, haddr, fun hh => h hh hok⟩
  · exact fun h => by cases h

end AuthKademlia.Runtime
