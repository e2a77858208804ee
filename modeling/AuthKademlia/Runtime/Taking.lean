import AuthKademlia.Runtime.Alone

/-! # A STORE that is taken

`HandledAlone` says what a STORE can lead to. Here are the conditions under which it
leads to the record being held: the record passes the checks, the replica holds no other
one and has room, and its network check, if it makes one, finds nothing against it. -/
namespace AuthKademlia.Runtime
open AuthKademlia.Lib.Async AuthKademlia.Utils AuthKademlia.Storage AuthKademlia.AuthHandler
open AuthKademlia.Protocol

/-- The replica at `loc` has no reason to refuse the record, apart from what the network
says. The signature cache may hold a verdict on it already. -/
structure Willing (cl : Cluster) (loc : Addr) (srv : Server) (key : NodeId) (value : Bytes)
    (x : Arrival) (w : World) : Prop where
  bound : isBoundToKey srv key value = true
  signed : (if key = srv.statusKey then
    orFalse (srv.handler.handleIssuerNodeSignatureVerification value)
    else orFalse (srv.handler.handleSignatureVerification value)) = true
  cache : w.cache loc (computeKey cl.platform.hashes (verificationDomain srv key) value) ≠
    some false
  finished : x.pick.finished = true
  vacant : ∀ v, (w.storage loc).get x.now key.bytes = some v → v = value
  room : ((w.storage loc).insertIfAbsent x.now key.bytes value).1 ≠ .capacityExceeded

/-- The request is answered with success, and then the replica serves the record. -/
def Takes (cl : Cluster) (loc : Addr) (srv : Server) (key : NodeId) (value : Bytes)
    (x : Arrival) (w : World) : Prop :=
  ∃ ans w', handleAlone cl loc srv x w = some (ans, w') ∧ isSuccess ans = true ∧
    (w'.storage loc).get x.now key.bytes = some value

theorem insertIfAbsent_ne_conflict {s : ForgetfulStorage} {now : Instant} {key value : Bytes}
    (h : ∀ v, s.get now key = some v → v = value) :
    (s.insertIfAbsent now key value).1 ≠ .conflict := by
  intro hconflict
  cases hget : s.get now key with
  | some v =>
    rw [ForgetfulStorage.insertIfAbsent_live hget, if_pos (h v hget)] at hconflict
    cases hconflict
  | none =>
    -- the entry, if there is one, is expired: both ways out write or find no room
    unfold ForgetfulStorage.get at hget
    unfold ForgetfulStorage.insertIfAbsent at hconflict
    cases he : s.data.lookup key with
    | none =>
      simp only [he, ForgetfulStorage.insertNew] at hconflict
      split at hconflict <;> cases hconflict
    | some e =>
      simp only [he] at hget hconflict
      split at hget
      · rename_i hexp
        rw [if_pos hexp, ForgetfulStorage.replaceValue] at hconflict
        split at hconflict
        · cases hconflict
        · split at hconflict <;> cases hconflict
      · cases hget

section
variable {cl : Cluster} {a : Agent} {pick : Pick} {srv : Server} {key : NodeId} {value : Bytes}
  {w : World}

theorem ends_read {o : Op} {r : Ans o} {Q : Ans o → World → Prop}
    (h : effect cl a o pick w = some (r, w)) (hQ : ∀ log, Q r { w with log := log }) :
    Ends cl a pick (perform o) Q w := by
  have hexec : exec cl a o pick w =
      some (r, { w with log := w.log ++ [⟨a, o, r, w.liveFor a.loc o⟩] }) := by
    rw [exec, h]
    rfl
  exact System.Ends.perform hexec (hQ _)

theorem ends_verifyRecord_true {Q : Bool → World → Prop} {x : Arrival}
    (h : Willing cl a.loc srv key value x w) (hpick : pick.finished = true)
    (hQ : ∀ w', Quiet w w' → Q true w') : Ends cl a pick (verifyRecord srv key value) Q w := by
  have hblocking : ∀ {w₀ : World} {R : Bool → World → Prop}, (∀ w', Quiet w₀ w' → R true w') →
      Ends cl a pick (verifySignature srv key value) R w₀ := by
    intro w₀ R hR
    refine ends_blocking fun w' hw' => ?_
    rw [hpick, h.signed]
    exact hR w' hw'
  unfold verifyRecord
  rw [h.bound]
  simp only [Bool.not_true, Bool.false_eq_true, if_false]
  split
  · refine .bind (ends_read (o := .cacheGet (verificationDomain srv key) value) rfl fun log => ?_)
    split
    · rename_i cached hcached
      cases cached with
      | false => exact absurd hcached h.cache
      | true => exact .pure (hQ _ ⟨rfl, rfl⟩)
    · refine .bind (hblocking fun w₁ h₁ => ?_)
      refine .bind (ends_quiet (o := .cacheInsert (verificationDomain srv key) value true) rfl
        ⟨rfl, rfl⟩ fun w₂ h₂ => ?_)
      exact .pure (hQ _ ⟨h₂.1.trans h₁.1, h₂.2.trans h₁.2⟩)
  · exact hblocking fun w₁ h₁ => hQ _ h₁

theorem ends_storeVerified_true {source : Node} {x : Arrival}
    (h : Willing cl a.loc srv key value x w) (hpick : pick.finished = true) :
    Ends cl a pick (storeVerified srv source key value) (fun st w' =>
      st = some (.ofWrite ((w.storage a.loc).insertIfAbsent w.now key.bytes value).1) ∧
        w'.storage a.loc = ((w.storage a.loc).insertIfAbsent w.now key.bytes value).2) w := by
  refine .bind (ends_verifyRecord_true h hpick fun w₁ h₁ => ?_)
  refine .bind (ends_insertIfAbsent fun w₂ h₂ => ?_)
  rw [h₁.1, h₁.2] at h₂ ⊢
  simp only
  split
  · refine .bind (ends_scheduleWelcome fun w₃ h₃ => .pure ⟨rfl, ?_⟩)
    rw [h₃.1, h₂]
  · exact .pure ⟨rfl, h₂⟩

end

/-- **A willing replica takes the record**, if the network does not speak against it. -/
theorem Willing.takes {cl : Cluster} {loc : Addr} {srv : Server} {key sender : NodeId}
    {value : Bytes} {x : Arrival} {w : World} (h : Willing cl loc srv key value x w)
    (hmsg : x.msg = .store sender key value)
    (hcopy : (w.storage loc).get x.now key.bytes = none → x.pick.copy = .noneOrSame) :
    Takes cl loc srv key value x w := by
  obtain ⟨src, msg, now, pick⟩ := x
  obtain rfl : msg = .store sender key value := hmsg
  let a : Agent := ⟨0, loc, .handle 0 src (.store sender key value)⟩
  let w₀ : World := { w with now := now }
  let r := (w.storage loc).insertIfAbsent now key.bytes value
  -- the log is all that may differ when the record is verified
  have hverified : ∀ log, Ends cl a pick (storeVerified srv ⟨sender, some src.1, some src.2⟩ key
      value) (fun st w' => st = some (.ofWrite r.1) ∧ w'.storage loc = r.2)
      { w₀ with log := log } := by
    intro log
    have hwill : Willing cl a.loc srv key value ⟨src, .store sender key value, now, pick⟩
        { w₀ with log := log } := ⟨h.bound, h.signed, h.cache, h.finished, h.vacant, h.room⟩
    exact ends_storeVerified_true hwill h.finished
  have hstore : Ends cl a pick (rpcStore srv sender src key value)
      (fun st w' => st = some (.ofWrite r.1) ∧ w'.storage loc = r.2) w₀ := by
    unfold rpcStore storeNeedsLookup
    split
    · exact .bind (.pure (hverified w₀.log))
    · refine .bind (.bind (ends_read (o := .storageGet key) rfl fun log => .pure ?_))
      cases hlive : w₀.live a.loc key with
      | some v => exact hverified log
      | none =>
        simp only [Option.isNone_none, if_true, h.bound, Bool.not_true, Bool.false_eq_true,
          if_false]
        refine .bind (ends_read (o := .networkCopy key value) rfl fun log' => ?_)
        have hnone : pick.copy = .noneOrSame := hcopy hlive
        simp only [hnone]
        exact hverified log'
  have hends : Ends cl a pick (dispatchRequest srv src (.store sender key value))
      (fun ans w' => ans = some (.storeResult (.ofWrite r.1)) ∧ w'.storage loc = r.2) w₀ := by
    refine .bind (hstore.imp fun st w' hst => .pure ⟨?_, hst.2⟩)
    rw [hst.1]
    rfl
  obtain ⟨ans, w', halone, rfl, hstorage⟩ := hends
  have hstatus : r.1 = .stored ∨ r.1 = .alreadyStored := by
    have hconflict := insertIfAbsent_ne_conflict h.vacant
    have hroom := h.room
    change r.1 ≠ .conflict at hconflict
    change r.1 ≠ .capacityExceeded at hroom
    cases hr : r.1 with
    | stored => exact Or.inl rfl
    | alreadyStored => exact Or.inr rfl
    | conflict => exact absurd hr hconflict
    | capacityExceeded => exact absurd hr hroom
  refine ⟨_, w', halone, ?_, ?_⟩
  · rcases hstatus with hr | hr <;> rw [hr] <;> rfl
  · rw [hstorage]
    exact ((w.storage loc).insertIfAbsent_stamped now key.bytes value).get hstatus

end AuthKademlia.Runtime
