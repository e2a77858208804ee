import AuthKademlia.Runtime.World

/-! # A request handled alone

When nothing else runs meanwhile, a handler is a function on the node's store.
`rpcUpdate` and `rpcUpdateStatusList` depend on the store and on whether the
verification ended; `rpcStore` also on the signature cache and on what the
network check found. -/
namespace AuthKademlia.Runtime
open AuthKademlia.Lib.Async AuthKademlia.Utils AuthKademlia.Storage AuthKademlia.AuthHandler
open AuthKademlia.Protocol

/-- A request as it reaches a node, and what the environment decides meanwhile. -/
structure Arrival where
  src : Addr
  msg : RpcMessage
  now : Instant
  pick : Pick

/-- The node at `loc` handles a request from beginning to end. -/
def handleAlone (cl : Cluster) (loc : Addr) (srv : Server) (x : Arrival) (w : World) :
    Option (Option RpcMessage × World) :=
  (system cl).alone ⟨0, loc, .handle 0 x.src x.msg⟩ x.pick (dispatchRequest srv x.src x.msg)
    { w with now := x.now }

/-- The key of a request that carries a record. -/
def requestKey : RpcMessage → Option NodeId
  | .store _ key _ | .update _ key _ _ | .updateStatusList _ key _ => some key
  | .storeResult _ | .updateResult _ | .updateStatusListResult _ => none

/-- Does the answer say that the replica has the record? -/
def isSuccess : Option RpcMessage → Bool
  | some (.storeResult .stored) | some (.storeResult .alreadyStored) => true
  | some (.updateResult ok) | some (.updateStatusListResult ok) => ok
  | _ => false

/-! ## The handlers on a store -/

/-- The checks of `verify_rotation`. -/
def rotationChecks (srv : Server) (key : NodeId) (new old authSignature : Bytes) : Bool :=
  orFalse (srv.handler.handleKeyBindingVerification key old) &&
    orFalse (srv.handler.handleKeyBindingVerification key new) &&
    orFalse (srv.handler.handleUpdateVerification new old authSignature)

def overwrite (s : ForgetfulStorage) (now : Instant) (key : NodeId) (value : Bytes) :
    Bool × ForgetfulStorage :=
  ((s.set now key.bytes value).1 ≠ .capacityExceeded, (s.set now key.bytes value).2)

def updateStore (srv : Server) (finished : Bool) (now : Instant) (key : NodeId)
    (value authSignature : Bytes) (s : ForgetfulStorage) : Bool × ForgetfulStorage :=
  if key = srv.statusKey then (false, s)
  else match s.get now key.bytes with
    | none => (false, s)
    | some old =>
      if old = value then (true, s)
      else if finished && rotationChecks srv key value old authSignature then
        overwrite s now key value
      else (false, s)

def updateListStore (srv : Server) (finished : Bool) (now : Instant) (key : NodeId)
    (value : Bytes) (s : ForgetfulStorage) : Bool × ForgetfulStorage :=
  if key ≠ srv.statusKey then (false, s)
  else if (s.get now key.bytes).isNone then (false, s)
  else if finished && orFalse (srv.handler.handleIssuerNodeSignatureVerification value) then
    overwrite s now key value
  else (false, s)

/-- What a STORE can do: leave the store, without success, or what
`insert_if_absent` does. -/
def StoredStore (now : Instant) (key : NodeId) (value : Bytes) (s : ForgetfulStorage)
    (st : Option StoreStatus) (s' : ForgetfulStorage) : Prop :=
  (s' = s ∧ st ≠ some .stored ∧ st ≠ some .alreadyStored) ∨
    s' = (s.insertIfAbsent now key.bytes value).2 ∧
      st = some (.ofWrite (s.insertIfAbsent now key.bytes value).1)

section
variable {now : Instant} {key : NodeId} {value : Bytes} {s s' : ForgetfulStorage}
  {st : Option StoreStatus} (h : StoredStore now key value s st s')
include h

theorem StoredStore.ttl : s'.ttl = s.ttl := by
  rcases h with ⟨rfl, -⟩ | ⟨rfl, -⟩
  · rfl
  · exact (s.insertIfAbsent_stamped now key.bytes value).ttl

theorem StoredStore.alike (hforever : s.ttl = -1) (hheld : s.held key.bytes ≠ none) :
    s'.Alike s := by
  rcases h with ⟨rfl, -⟩ | ⟨rfl, -⟩
  · exact .refl hforever
  · exact .insertIfAbsent_same hforever hheld now value

theorem StoredStore.held (hst : isSuccess (st.map .storeResult) = true) :
    s'.held key.bytes = some value := by
  rcases h with ⟨-, hne, hne'⟩ | ⟨rfl, rfl⟩
  · rcases st with _ | (_ | _ | _ | _ | _)
    case some.stored => exact absurd rfl hne
    case some.alreadyStored => exact absurd rfl hne'
    all_goals cases hst
  · have hwrote := s.insertIfAbsent_wrote now key.bytes value
    generalize s.insertIfAbsent now key.bytes value = r at hst hwrote ⊢
    cases hwrote with
    | refused st hno => rcases hno with rfl | rfl <;> cases hst
    | wrote st s' _ hkey _ => exact hkey

end

theorem overwrite_cases (s : ForgetfulStorage) (now : Instant) (key : NodeId) (value : Bytes) :
    overwrite s now key value = (false, s) ∨
      (overwrite s now key value).2.held key.bytes = some value := by
  have hwrote := s.set_wrote now key.bytes value
  unfold overwrite
  generalize hr : s.set now key.bytes value = r at hwrote
  cases hwrote with
  | refused st hst =>
    rcases hst with rfl | rfl
    · exact absurd (congrArg Prod.fst hr) ForgetfulStorage.set_ne_conflict
    · exact Or.inl (by simp)
  | wrote st s' hst hkey hrest => exact Or.inr hkey

/-- What an UPDATE can do: leave the store, with success if the record is there
already; or write a record that the one there authorises. -/
inductive UpdatedStore (srv : Server) (now : Instant) (key : NodeId)
    (value authSignature : Bytes) (s : ForgetfulStorage) : Bool × ForgetfulStorage → Prop
  | refused : UpdatedStore srv now key value authSignature s (false, s)
  | repeated (hkey : key ≠ srv.statusKey) (h : s.get now key.bytes = some value) :
      UpdatedStore srv now key value authSignature s (true, s)
  | written (old : Bytes) (s' : ForgetfulStorage) (hkey : key ≠ srv.statusKey)
      (h : s.get now key.bytes = some old) (hauth : Authorises srv.platform old value authSignature)
      (hs : s'.held key.bytes = some value) :
      UpdatedStore srv now key value authSignature s
        ((overwrite s now key value).1, s')

theorem updateStore_cases (srv : Server) (finished : Bool) (now : Instant) (key : NodeId)
    (value authSignature : Bytes) (s : ForgetfulStorage) :
    UpdatedStore srv now key value authSignature s
      (updateStore srv finished now key value authSignature s) := by
  unfold updateStore
  split
  · exact .refused
  rename_i hkey
  split
  · exact .refused
  rename_i old hold
  split
  · rename_i heq
    exact .repeated hkey (heq ▸ hold)
  split
  · rename_i hchecks
    rw [rotationChecks, Bool.and_eq_true, Bool.and_eq_true] at hchecks
    rcases overwrite_cases s now key value with hno | hyes
    · rw [hno]
      exact .refused
    · exact .written old _ hkey hold
        (authorises_of_verified (orFalse_eq_true.mp hchecks.2.2)).1 hyes
  · exact .refused

/-- UpdateStatusList leaves the store, without success, or leaves its record
under the key of the status list. -/
theorem updateListStore_cases (srv : Server) (finished : Bool) (now : Instant) (key : NodeId)
    (value : Bytes) (s : ForgetfulStorage) :
    updateListStore srv finished now key value s = (false, s) ∨ key = srv.statusKey ∧
      updateListStore srv finished now key value s = overwrite s now key value ∧
      (overwrite s now key value).2.held key.bytes = some value := by
  unfold updateListStore
  split
  · exact Or.inl rfl
  rename_i hkey
  split
  · exact Or.inl rfl
  split
  · rcases overwrite_cases s now key value with hno | hyes
    · exact Or.inl hno
    · exact Or.inr ⟨not_not.mp hkey, rfl, hyes⟩
  · exact Or.inl rfl

section
variable {s t : ForgetfulStorage} (h : s.Alike t)
include h

theorem updateStore_alike (srv : Server) (finished : Bool) (now : Instant) (key : NodeId)
    (value authSignature : Bytes) :
    (updateStore srv finished now key value authSignature s).2.Alike
      (updateStore srv finished now key value authSignature t).2 := by
  unfold updateStore
  rw [h.get]
  repeat' split
  all_goals first | exact h | exact (h.set now key.bytes value).2

theorem updateListStore_alike (srv : Server) (finished : Bool) (now : Instant) (key : NodeId)
    (value : Bytes) :
    (updateListStore srv finished now key value s).2.Alike
      (updateListStore srv finished now key value t).2 := by
  unfold updateListStore
  rw [h.get]
  repeat' split
  all_goals first | exact h | exact (h.set now key.bytes value).2

end

/-! ## The programs do just that -/

section
variable {cl : Cluster} {a : Agent} {pick : Pick} {srv : Server} {sender : NodeId} {src : Addr}
  {key : NodeId} {value authSignature : Bytes} {w w₀ : World}

/-- The programs of a task that runs alone and ends with `Q`. -/
abbrev Ends (cl : Cluster) (a : Agent) (pick : Pick) {α : Type} (p : Routine α)
    (Q : α → World → Prop) (w : World) : Prop :=
  (system cl).Ends a pick p Q w

/-- The stores and the clock are as they were. -/
def Quiet (w w' : World) : Prop := w'.storage = w.storage ∧ w'.now = w.now

theorem ends_quiet {o : Op} {r : Ans o} {w₁ : World} {Q : Ans o → World → Prop}
    (h : effect cl a o pick w = some (r, w₁)) (hq : Quiet w w₁)
    (hQ : ∀ w', Quiet w w' → Q r w') : Ends cl a pick (perform o) Q w := by
  have hexec : exec cl a o pick w =
      some (r, { w₁ with log := w.log ++ [⟨a, o, r, w.liveFor a.loc o⟩] }) := by
    rw [exec, h]
    rfl
  exact System.Ends.perform hexec (hQ _ ⟨hq.1, hq.2⟩)

theorem ends_storageGet {Q : Option Bytes → World → Prop}
    (h : ∀ w', Quiet w w' → Q ((w.storage a.loc).get w.now key.bytes) w') :
    Ends cl a pick (storageGet key) Q w :=
  ends_quiet (o := .storageGet key) rfl ⟨rfl, rfl⟩ h

theorem ends_blocking {result : Bool} {Q : Bool → World → Prop}
    (h : ∀ w', Quiet w w' → Q (pick.finished && result) w') :
    Ends cl a pick (blocking result) Q w :=
  ends_quiet (o := .blocking result) rfl ⟨rfl, rfl⟩ h

theorem ends_storageSet {Q : StorageWriteStatus → World → Prop}
    (h : ∀ w', w'.storage a.loc = ((w.storage a.loc).set w.now key.bytes value).2 →
      Q ((w.storage a.loc).set w.now key.bytes value).1 w') :
    Ends cl a pick (storageSet key value) Q w :=
  System.Ends.perform rfl (h _ (w.setStorage_self a.loc _))

theorem ends_insertIfAbsent {Q : StorageWriteStatus → World → Prop}
    (h : ∀ w', w'.storage a.loc = ((w.storage a.loc).insertIfAbsent w.now key.bytes value).2 →
      Q ((w.storage a.loc).insertIfAbsent w.now key.bytes value).1 w') :
    Ends cl a pick (insertIfAbsent key value) Q w :=
  System.Ends.perform rfl (h _ (w.setStorage_self a.loc _))

theorem ends_scheduleWelcome {source : Node} {Q : Unit → World → Prop}
    (h : ∀ w', Quiet w w' → Q () w') : Ends cl a pick (scheduleWelcome source) Q w :=
  ends_quiet (o := .scheduleWelcome source) rfl ⟨rfl, rfl⟩ h

theorem ends_overwrite {source : Node} (hq : Quiet w₀ w) : Ends cl a pick (do
      scheduleWelcome source
      return (← storageSet key value) ≠ .capacityExceeded : Routine Bool)
    (fun ok w' => (ok, w'.storage a.loc) = overwrite (w₀.storage a.loc) w₀.now key value) w := by
  refine .bind (ends_scheduleWelcome fun w₁ h₁ => .bind (ends_storageSet fun w₂ h₂ => .pure ?_))
  rw [h₂, h₁.1, h₁.2, hq.1, hq.2]
  rfl

theorem ends_rpcUpdate : Ends cl a pick (rpcUpdate srv sender src key value authSignature)
    (fun ok w' => (ok, w'.storage a.loc) =
      updateStore srv pick.finished w.now key value authSignature (w.storage a.loc)) w := by
  unfold rpcUpdate updateStore
  split
  · exact .pure rfl
  refine .bind (ends_storageGet fun w₁ h₁ => ?_)
  cases (w.storage a.loc).get w.now key.bytes with
  | none => exact .pure (by rw [h₁.1])
  | some old =>
    refine .bind (ends_quiet (o := .against key old) rfl ⟨rfl, rfl⟩ fun w₂ h₂ => ?_)
    have hq : Quiet w w₂ := ⟨h₂.1.trans h₁.1, h₂.2.trans h₁.2⟩
    by_cases hold : old = value
    · simp only [if_pos hold]
      exact .pure (by rw [hq.1])
    simp only [if_neg hold]
    refine .bind (ends_blocking fun w₃ h₃ => ?_)
    have hq' : Quiet w w₃ := ⟨h₃.1.trans hq.1, h₃.2.trans hq.2⟩
    change System.Ends _ _ _ (if (!(pick.finished && rotationChecks srv key value old
      authSignature)) = true then _ else _) _ _
    cases pick.finished && rotationChecks srv key value old authSignature with
    | false => exact .pure (by rw [hq'.1]; rfl)
    | true => exact ends_overwrite hq'

theorem ends_rpcUpdateStatusList :
    Ends cl a pick (rpcUpdateStatusList srv sender src key value)
      (fun ok w' => (ok, w'.storage a.loc) =
        updateListStore srv pick.finished w.now key value (w.storage a.loc)) w := by
  unfold rpcUpdateStatusList updateListStore
  split
  · exact .pure rfl
  refine .bind (ends_storageGet fun w₁ h₁ => ?_)
  cases (w.storage a.loc).get w.now key.bytes with
  | none => exact .pure (by rw [h₁.1]; rfl)
  | some old =>
    simp only [Option.isNone_some, Bool.false_eq_true, if_false]
    refine .bind (ends_blocking fun w₂ h₂ => ?_)
    have hq : Quiet w w₂ := ⟨h₂.1.trans h₁.1, h₂.2.trans h₁.2⟩
    cases pick.finished && orFalse (srv.handler.handleIssuerNodeSignatureVerification value) with
    | false => exact .pure (by rw [hq.1]; rfl)
    | true => exact ends_overwrite hq

theorem ends_verifyRecord {Q : Bool → World → Prop} (h : ∀ ok w', Quiet w w' → Q ok w') :
    Ends cl a pick (verifyRecord srv key value) Q w := by
  unfold verifyRecord
  split
  · exact .pure (h _ _ ⟨rfl, rfl⟩)
  split
  · refine .bind (ends_quiet (o := .cacheGet (verificationDomain srv key) value) rfl
      ⟨rfl, rfl⟩ fun w₁ h₁ => ?_)
    split
    · exact .pure (h _ _ h₁)
    · refine .bind (ends_blocking fun w₂ h₂ => ?_)
      refine .bind (ends_quiet (o := .cacheInsert (verificationDomain srv key) value _) rfl
        ⟨rfl, rfl⟩ fun w₃ h₃ => ?_)
      exact .pure (h _ _ ⟨(h₃.1.trans h₂.1).trans h₁.1, (h₃.2.trans h₂.2).trans h₁.2⟩)
  · exact ends_blocking fun w₁ h₁ => h _ _ h₁

theorem ends_storeVerified {source : Node} (hq : Quiet w₀ w) :
    Ends cl a pick (storeVerified srv source key value) (fun st w' =>
      StoredStore w₀.now key value (w₀.storage a.loc) st (w'.storage a.loc)) w := by
  refine .bind (ends_verifyRecord fun ok w₁ h₁ => ?_)
  have hq₁ : Quiet w₀ w₁ := ⟨h₁.1.trans hq.1, h₁.2.trans hq.2⟩
  cases ok with
  | false => exact .pure (Or.inl ⟨by rw [hq₁.1], by simp, by simp⟩)
  | true =>
    refine .bind (ends_insertIfAbsent fun w₂ h₂ => ?_)
    rw [hq₁.1, hq₁.2] at h₂ ⊢
    simp only
    split
    · refine .bind (ends_scheduleWelcome fun w₃ h₃ => .pure (Or.inr ⟨?_, rfl⟩))
      rw [h₃.1, h₂]
    · exact .pure (Or.inr ⟨h₂, rfl⟩)

theorem ends_rpcStore : Ends cl a pick (rpcStore srv sender src key value)
    (fun st w' => StoredStore w.now key value (w.storage a.loc) st (w'.storage a.loc)) w := by
  have hrefused : ∀ {st : Option StoreStatus} {w' : World}, Quiet w w' →
      st ≠ some .stored → st ≠ some .alreadyStored →
      StoredStore w.now key value (w.storage a.loc) st (w'.storage a.loc) :=
    fun hq h₁ h₂ => Or.inl ⟨by rw [hq.1], h₁, h₂⟩
  have hlookup : Ends cl a pick (storeNeedsLookup srv key) (fun _ w' => Quiet w w') w := by
    unfold storeNeedsLookup
    split
    · exact .pure ⟨rfl, rfl⟩
    · exact .bind (ends_storageGet fun w₁ h₁ => .pure h₁)
  refine .bind (hlookup.imp fun needed w₁ hq => ?_)
  cases needed with
  | false => exact ends_storeVerified hq
  | true =>
    simp only [if_true]
    split
    · exact .pure (hrefused hq (by simp) (by simp))
    refine .bind (ends_quiet (o := .networkCopy key value) rfl ⟨rfl, rfl⟩ fun w₂ h₂ => ?_)
    have hq₂ : Quiet w w₂ := ⟨h₂.1.trans hq.1, h₂.2.trans hq.2⟩
    cases pick.copy with
    | noneOrSame => exact ends_storeVerified hq₂
    | other => exact .pure (hrefused hq₂ (by simp) (by simp))
    | unknown => exact .pure (hrefused hq₂ (by simp) (by simp))

end

/-- What the answer and the store say when a request was handled alone. -/
def HandledAlone (loc : Addr) (srv : Server) (x : Arrival) (w : World) (ans : Option RpcMessage)
    (w' : World) : Prop :=
  match x.msg with
  | .store _ key value => ∃ st, ans = st.map .storeResult ∧
    StoredStore x.now key value (w.storage loc) st (w'.storage loc)
  | .update _ key value authSignature => ∃ ok, ans = some (.updateResult ok) ∧
    (ok, w'.storage loc) =
      updateStore srv x.pick.finished x.now key value authSignature (w.storage loc)
  | .updateStatusList _ key value => ∃ ok, ans = some (.updateStatusListResult ok) ∧
    (ok, w'.storage loc) = updateListStore srv x.pick.finished x.now key value (w.storage loc)
  | .storeResult _ | .updateResult _ | .updateStatusListResult _ =>
    ans = none ∧ w'.storage loc = w.storage loc

theorem handleAlone_ends (cl : Cluster) (loc : Addr) (srv : Server) (x : Arrival) (w : World) :
    Ends cl ⟨0, loc, .handle 0 x.src x.msg⟩ x.pick (dispatchRequest srv x.src x.msg)
      (HandledAlone loc srv x w) { w with now := x.now } := by
  obtain ⟨src, msg, now, pick⟩ := x
  cases msg with
  | store sender key value =>
    exact .bind (ends_rpcStore.imp fun st w' h => .pure ⟨st, rfl, h⟩)
  | update sender key value auth =>
    exact .bind (ends_rpcUpdate.imp fun ok w' h => .pure ⟨ok, rfl, h⟩)
  | updateStatusList sender key value =>
    exact .bind (ends_rpcUpdateStatusList.imp fun ok w' h => .pure ⟨ok, rfl, h⟩)
  | storeResult status => exact .pure ⟨rfl, rfl⟩
  | updateResult ok => exact .pure ⟨rfl, rfl⟩
  | updateStatusListResult ok => exact .pure ⟨rfl, rfl⟩

theorem handleAlone_spec {cl : Cluster} {loc : Addr} {srv : Server} {x : Arrival} {w w' : World}
    {ans : Option RpcMessage} (h : handleAlone cl loc srv x w = some (ans, w')) :
    HandledAlone loc srv x w ans w' :=
  (handleAlone_ends cl loc srv x w).of_alone h

/-- The answer, and the world it leaves. -/
def outcome (cl : Cluster) (loc : Addr) (srv : Server) (x : Arrival) (w : World) :
    Option RpcMessage × World :=
  (handleAlone cl loc srv x w).getD (none, w)

theorem handleAlone_eq (cl : Cluster) (loc : Addr) (srv : Server) (x : Arrival) (w : World) :
    handleAlone cl loc srv x w =
      some ((outcome cl loc srv x w).1, (outcome cl loc srv x w).2) := by
  obtain ⟨ans, w', h, -⟩ := handleAlone_ends cl loc srv x w
  have hrun : handleAlone cl loc srv x w = some (ans, w') := h
  rw [outcome, hrun]
  rfl

end AuthKademlia.Runtime
