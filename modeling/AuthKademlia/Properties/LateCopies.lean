import AuthKademlia.Properties.Rotation
import AuthKademlia.Runtime.Alone

/-! # Late copies of requests

Requests are sent again and may be duplicated on their way, and a replica knows
a copy only while the request is being handled. So each handler must cope with a
copy that arrives after newer requests. STORE does, since a record is there by
then, and so does UPDATE, since with fresh keys no newer record authorises an
older one. UpdateStatusList does not: it writes any list the issuer ever signed,
and a late copy brings an older list back. -/
namespace AuthKademlia.Properties
open AuthKademlia.Utils AuthKademlia.Storage AuthKademlia.AuthHandler AuthKademlia.Protocol
open AuthKademlia.Runtime

/-- Records can be numbered so that the authorisation sent with the UPDATE goes
up: so it is when every rotation uses a fresh key, and a signature verifies only
under the key that made it. -/
def FreshKey (P : Platform) (version : Bytes → Nat) : RpcMessage → Prop
  | .update _ _ new auth => ∀ old, Authorises P old new auth → version old < version new
  | _ => True

/-- Two sequential runs of the replica at `loc`, from the same world. Both handle
the same requests for `key`, with the same outcomes of everything that is left
open; the second one also handles late copies of requests that the first one had
answered with success, which are listed. A copy arrives when `allowed`, with any
outcomes. -/
inductive Doubled (cl : Cluster) (loc : Addr) (srv : Server) (key : NodeId)
    (version : Bytes → Nat) (allowed : World → Runtime.Arrival → Prop) (w₀ : World) :
    World → World → List (Addr × RpcMessage) → Prop
  | start : Doubled cl loc srv key version allowed w₀ w₀ w₀ []
  | handle {w w' w₁ w₁' : World} {done : List (Addr × RpcMessage)} {ans ans' : Option RpcMessage}
      (x : Runtime.Arrival) (hrun : Doubled cl loc srv key version allowed w₀ w w' done)
      (hkey : requestKey x.msg = some key) (hfresh : FreshKey cl.platform version x.msg)
      (h : handleAlone cl loc srv x w = some (ans, w₁))
      (h' : handleAlone cl loc srv x w' = some (ans', w₁')) :
      Doubled cl loc srv key version allowed w₀ w₁ w₁'
        (if isSuccess ans then (x.src, x.msg) :: done else done)
  | copy {w w' w₁' : World} {done : List (Addr × RpcMessage)} {ans' : Option RpcMessage}
      (x : Runtime.Arrival) (hrun : Doubled cl loc srv key version allowed w₀ w w' done)
      (hdone : (x.src, x.msg) ∈ done) (hallowed : allowed w' x)
      (h' : handleAlone cl loc srv x w' = some (ans', w₁')) :
      Doubled cl loc srv key version allowed w₀ w w₁' done

/-- A copy of an UpdateStatusList carries the list that is stored. -/
def RepeatsList (loc : Addr) (w : World) (x : Runtime.Arrival) : Prop :=
  match x.msg with
  | .updateStatusList _ key value => (w.storage loc).get x.now key.bytes = some value
  | _ => True

/-- What the two runs have in common. -/
structure Lockstep (loc : Addr) (srv : Server) (key : NodeId) (version : Bytes → Nat)
    (w w' : World) (done : List (Addr × RpcMessage)) : Prop where
  alike : (w.storage loc).Alike (w'.storage loc)
  together : done = [] → w' = w
  there : done ≠ [] → (w.storage loc).held key.bytes ≠ none
  keys : ∀ x ∈ done, requestKey x.2 = some key
  fresh : ∀ x ∈ done, FreshKey srv.platform version x.2
  /-- The record of a successful UPDATE is stored, or a later one. -/
  overtaken : ∀ x ∈ done, ∀ sender new auth, x.2 = .update sender key new auth →
    key ≠ srv.statusKey ∧ ∃ cur, (w.storage loc).held key.bytes = some cur ∧ Later version new cur

section
variable {cl : Cluster} {loc : Addr} {srv : Server} {key : NodeId} {version : Bytes → Nat}
  {w w' w₁ w₁' : World} {done : List (Addr × RpcMessage)} {x : Runtime.Arrival}
  {ans ans' : Option RpcMessage}

/-- **One request.** After a success the record it carried is there; and under
the key of a DID, a record stays or is replaced by a later one. -/
theorem record_advances (hs : srv.platform = cl.platform) (hkey : requestKey x.msg = some key)
    (hfresh : FreshKey cl.platform version x.msg) (hforever : (w.storage loc).ttl = -1)
    (h : HandledAlone loc srv x w ans w₁) :
    (isSuccess ans = true → ∃ v, (w₁.storage loc).held key.bytes = some v ∧
      ∀ sender new auth, x.msg = .update sender key new auth → v = new ∧ key ≠ srv.statusKey) ∧
    ∀ cur, (w.storage loc).held key.bytes = some cur →
      ∃ cur', (w₁.storage loc).held key.bytes = some cur' ∧
        (key ≠ srv.statusKey → Later version cur cur') := by
  obtain ⟨src, msg, now, pick⟩ := x
  cases msg with
  | store sender k value =>
    obtain rfl : k = key := Option.some.inj hkey
    obtain ⟨st, rfl, hst⟩ := h
    refine ⟨fun hok => ⟨value, hst.held hok, fun _ _ _ hm => by cases hm⟩, fun cur hcur => ?_⟩
    have halike := hst.alike hforever (by rw [hcur]; exact Option.some_ne_none _)
    exact ⟨cur, (halike.held _).trans hcur, fun _ => Or.inl rfl⟩
  | update sender k value auth =>
    obtain rfl : k = key := Option.some.inj hkey
    obtain ⟨ok, rfl, hok⟩ := h
    have hcases := updateStore_cases srv pick.finished now k value auth (w.storage loc)
    have hget := ForgetfulStorage.get_forever hforever now k.bytes
    rw [← hok] at hcases
    generalize w₁.storage loc = s at hcases ⊢
    cases hcases with
    | refused =>
      exact ⟨(fun hno => by cases hno), fun cur hcur => ⟨cur, hcur, fun _ => Or.inl rfl⟩⟩
    | repeated hk hheld =>
      refine ⟨fun _ => ⟨value, hget.symm.trans hheld, fun _ _ _ hm => ?_⟩,
        fun cur hcur => ⟨cur, hcur, fun _ => Or.inl rfl⟩⟩
      cases hm
      exact ⟨rfl, hk⟩
    | written old _ hk hold hauth hnew =>
      refine ⟨fun _ => ⟨value, hnew, fun _ _ _ hm => ?_⟩,
        fun cur hcur => ⟨value, hnew, fun _ => ?_⟩⟩
      · cases hm
        exact ⟨rfl, hk⟩
      · obtain rfl := Option.some.inj (hcur.symm.trans (hget.symm.trans hold))
        exact Or.inr (hfresh cur (hs ▸ hauth))
  | updateStatusList sender k value =>
    obtain rfl : k = key := Option.some.inj hkey
    obtain ⟨ok, rfl, hok⟩ := h
    rcases updateListStore_cases srv pick.finished now k value (w.storage loc) with
      hsame | ⟨hk, hover, hnew⟩
    · obtain ⟨rfl, hstore⟩ := Prod.mk.inj (hok.trans hsame)
      rw [hstore]
      exact ⟨(fun hno => by cases hno), fun cur hcur => ⟨cur, hcur, fun _ => Or.inl rfl⟩⟩
    · rw [← hover, ← hok] at hnew
      exact ⟨fun _ => ⟨value, hnew, fun _ _ _ hm => by cases hm⟩,
        fun cur _ => ⟨value, hnew, fun hne => absurd hk hne⟩⟩
  | storeResult status => cases hkey
  | updateResult ok => cases hkey
  | updateStatusListResult ok => cases hkey

theorem Lockstep.alike_handle (hl : Lockstep loc srv key version w w' done)
    (hkey : requestKey x.msg = some key)
    (h : handleAlone cl loc srv x w = some (ans, w₁))
    (h' : handleAlone cl loc srv x w' = some (ans', w₁')) :
    (w₁.storage loc).Alike (w₁'.storage loc) := by
  have hspec := handleAlone_spec h
  have hspec' := handleAlone_spec h'
  obtain ⟨src, msg, now, pick⟩ := x
  cases msg with
  | store sender k value =>
    obtain rfl : k = key := Option.some.inj hkey
    obtain ⟨st, -, hst⟩ := hspec
    obtain ⟨st', -, hst'⟩ := hspec'
    by_cases hdone : done = []
    -- before the first success there were no copies: the two runs are one
    · have hw : w' = w := hl.together hdone
      obtain ⟨-, rfl⟩ := Prod.mk.inj (Option.some.inj (h.symm.trans (hw ▸ h')))
      exact .refl (hst.ttl.trans hl.alike.forever)
    · have hthere := hl.there hdone
      have hthere' : (w'.storage loc).held k.bytes ≠ none := hl.alike.held _ ▸ hthere
      exact ((hst.alike hl.alike.forever hthere).trans hl.alike).trans
        (hst'.alike hl.alike.forever' hthere').symm
  | update sender k value auth =>
    obtain ⟨ok, -, hok⟩ := hspec
    obtain ⟨ok', -, hok'⟩ := hspec'
    have halike := updateStore_alike hl.alike srv pick.finished now k value auth
    rwa [← hok, ← hok'] at halike
  | updateStatusList sender k value =>
    obtain ⟨ok, -, hok⟩ := hspec
    obtain ⟨ok', -, hok'⟩ := hspec'
    have halike := updateListStore_alike hl.alike srv pick.finished now k value
    rwa [← hok, ← hok'] at halike
  | storeResult status => cases hkey
  | updateResult ok => cases hkey
  | updateStatusListResult ok => cases hkey

theorem Lockstep.handle (hs : srv.platform = cl.platform)
    (hl : Lockstep loc srv key version w w' done)
    (hkey : requestKey x.msg = some key) (hfresh : FreshKey cl.platform version x.msg)
    (h : handleAlone cl loc srv x w = some (ans, w₁))
    (h' : handleAlone cl loc srv x w' = some (ans', w₁')) :
    Lockstep loc srv key version w₁ w₁'
      (if isSuccess ans then (x.src, x.msg) :: done else done) := by
  obtain ⟨hsuccess, hlater⟩ := record_advances hs hkey hfresh hl.alike.forever (handleAlone_spec h)
  have hold : Lockstep loc srv key version w₁ w₁' done := by
    refine ⟨hl.alike_handle hkey h h', fun hnil => ?_, fun hne => ?_, hl.keys, hl.fresh,
      fun y hy sender new auth hm => ?_⟩
    · have hw : w' = w := hl.together hnil
      exact (Prod.mk.inj (Option.some.inj ((hw ▸ h').symm.trans h))).2
    · obtain ⟨cur, hcur⟩ := Option.ne_none_iff_exists'.mp (hl.there hne)
      obtain ⟨cur', hcur', -⟩ := hlater cur hcur
      rw [hcur']
      exact Option.some_ne_none _
    · obtain ⟨hk, cur, hcur, hle⟩ := hl.overtaken y hy sender new auth hm
      obtain ⟨cur', hcur', hle'⟩ := hlater cur hcur
      exact ⟨hk, cur', hcur', IsTrans.trans _ _ _ hle (hle' hk)⟩
  split
  · rename_i hok
    obtain ⟨v, hv, hnew⟩ := hsuccess hok
    refine ⟨hold.alike, (fun hnil => by cases hnil), (fun _ => hv ▸ Option.some_ne_none v),
      fun y hy => ?_, fun y hy => ?_, fun y hy sender new auth hm => ?_⟩
    · rcases List.mem_cons.mp hy with rfl | hy
      · exact hkey
      · exact hold.keys y hy
    · rcases List.mem_cons.mp hy with rfl | hy
      · exact hs ▸ hfresh
      · exact hold.fresh y hy
    · rcases List.mem_cons.mp hy with rfl | hy
      · obtain ⟨rfl, hk⟩ := hnew sender new auth hm
        exact ⟨hk, v, hv, Or.inl rfl⟩
      · exact hold.overtaken y hy sender new auth hm
  · exact hold

theorem Lockstep.copy (hl : Lockstep loc srv key version w w' done)
    (hdone : (x.src, x.msg) ∈ done) (hallowed : RepeatsList loc w' x)
    (h' : handleAlone cl loc srv x w' = some (ans', w₁')) :
    Lockstep loc srv key version w w₁' done := by
  have hne : done ≠ [] := List.ne_nil_of_mem hdone
  suffices halike : (w₁'.storage loc).Alike (w'.storage loc) from
    ⟨hl.alike.trans halike.symm, fun hnil => absurd hnil hne, hl.there, hl.keys, hl.fresh,
      hl.overtaken⟩
  have hkey := hl.keys _ hdone
  have hfresh := hl.fresh _ hdone
  have hover := hl.overtaken _ hdone
  have hforever := hl.alike.forever'
  have hspec := handleAlone_spec h'
  obtain ⟨src, msg, now, pick⟩ := x
  cases msg with
  | store sender k value =>
    obtain rfl : k = key := Option.some.inj hkey
    obtain ⟨st, -, hst⟩ := hspec
    exact hst.alike hforever (hl.alike.held _ ▸ hl.there hne)
  | update sender k new auth =>
    obtain rfl : k = key := Option.some.inj hkey
    obtain ⟨ok, -, hok⟩ := hspec
    obtain ⟨-, cur, hcur, hlater⟩ := hover sender new auth rfl
    rw [hl.alike.held] at hcur
    have hget : (w'.storage loc).get now k.bytes = some cur :=
      (ForgetfulStorage.get_forever hforever now _).trans hcur
    have hcases := updateStore_cases srv pick.finished now k new auth (w'.storage loc)
    rw [← hok] at hcases
    generalize hs : w₁'.storage loc = s at hcases ⊢
    cases hcases with
    | refused => exact .refl hforever
    | repeated _ _ => exact .refl hforever
    | written old _ _ hold hauth hs =>
      -- the record there is `new` itself or a later one, which cannot authorise it
      obtain rfl := Option.some.inj (hget.symm.trans hold)
      have hup := hfresh cur hauth
      rcases hlater with rfl | hlt
      · exact absurd hup (lt_irrefl _)
      · exact absurd hup (by omega)
  | updateStatusList sender k value =>
    obtain rfl : k = key := Option.some.inj hkey
    obtain ⟨ok, -, hok⟩ := hspec
    have hlist : (w'.storage loc).held k.bytes = some value :=
      (ForgetfulStorage.get_forever hforever now _).symm.trans hallowed
    have hstore := congrArg Prod.snd hok
    rcases updateListStore_cases srv pick.finished now k value (w'.storage loc) with
      hsame | ⟨-, hover, -⟩
    · rw [hsame] at hstore
      change w₁'.storage loc = w'.storage loc at hstore
      rw [hstore]
      exact .refl hforever
    · rw [hover] at hstore
      change w₁'.storage loc = ((w'.storage loc).set now k.bytes value).2 at hstore
      rw [hstore]
      exact .set_same hforever hlist now
  | storeResult status => cases hkey
  | updateResult ok => cases hkey
  | updateStatusListResult ok => cases hkey

/-- **Late copies have no effect**, where a copy of an UpdateStatusList carries
the list that is stored when it arrives: the two runs end with the same record. -/
theorem late_copies_harmless (cl : Cluster) (loc : Addr) (srv : Server)
    (hsrv : cl.server loc = some srv) (key : NodeId) (version : Bytes → Nat) (w₀ : World)
    (hforever : (w₀.storage loc).ttl = -1) {w w' : World} {done : List (Addr × RpcMessage)}
    (h : Doubled cl loc srv key version (RepeatsList loc) w₀ w w' done) (now : Instant) :
    (w'.storage loc).get now key.bytes = (w.storage loc).get now key.bytes := by
  have hs : srv.platform = cl.platform := cl.same loc srv hsrv
  suffices hl : Lockstep loc srv key version w w' done from (hl.alike.get now _).symm
  induction h with
  | start =>
    refine ⟨.refl hforever, fun _ => rfl, fun hne => absurd rfl hne, ?_, ?_, ?_⟩
    all_goals exact fun y hy => absurd hy List.not_mem_nil
  | handle x _ hkey hfresh h h' ih => exact ih.handle hs hkey hfresh h h'
  | copy x _ hdone hallowed h' ih => exact ih.copy hdone hallowed h'

end

/-! ## Two runs with a late copy -/

def replicaAddr : Addr := toyAddr 1

def replicaServer : Server := ⟨toyPlatform, toyNode 1, 2, 2, true, true⟩

def handled (x : Runtime.Arrival) (w : World) : Option RpcMessage × World :=
  outcome toyCluster replicaAddr replicaServer x w

theorem handleAlone_handled (x : Runtime.Arrival) (w : World) :
    handleAlone toyCluster replicaAddr replicaServer x w =
      some ((handled x w).1, (handled x w).2) := handleAlone_eq ..

def listKey : NodeId := toyHashes.digest statusListKey

def listArrives (k : UInt8) : Runtime.Arrival :=
  ⟨toyAddr 7, .updateStatusList (filledId 7) listKey (toyStatusList k), k.toNat, {}⟩

def holdingListZero : World := toyWorld (emptyStore.set 0 listKey.bytes (toyStatusList 0)).2

/-- After the first list, and after the second one. -/
def afterList : Option RpcMessage × World := handled (listArrives 1) holdingListZero

def afterLists : Option RpcMessage × World := handled (listArrives 2) afterList.2

/-- **The list comes back.** The issuer's first and second list are stored one
after the other; then a late copy of the first request arrives. -/
theorem late_list_returns : ∃ w w' done,
    toyCluster.server replicaAddr = some replicaServer ∧
    (holdingListZero.storage replicaAddr).ttl = -1 ∧
    Doubled toyCluster replicaAddr replicaServer listKey (fun _ => 0) (fun _ _ => True)
      holdingListZero w w' done ∧
    (w.storage replicaAddr).get 9 listKey.bytes = some (toyStatusList 2) ∧
    (w'.storage replicaAddr).get 9 listKey.bytes = some (toyStatusList 1) := by
  have hok₁ : isSuccess afterList.1 = true := by decide +kernel
  have hok₂ : isSuccess afterLists.1 = true := by decide +kernel
  have hone : Doubled toyCluster replicaAddr replicaServer listKey (fun _ => 0) (fun _ _ => True)
      holdingListZero afterList.2 afterList.2 _ :=
    .handle (listArrives 1) .start rfl trivial (handleAlone_handled _ _) (handleAlone_handled _ _)
  rw [← afterList, if_pos hok₁] at hone
  have htwo := hone.handle (listArrives 2) rfl trivial (handleAlone_handled _ _)
    (handleAlone_handled _ _)
  rw [← afterLists, if_pos hok₂] at htwo
  refine ⟨_, _, _, rfl, rfl,
    htwo.copy (listArrives 1) (by simp) trivial (handleAlone_handled _ _), ?_, ?_⟩
  · decide +kernel
  · decide +kernel

/-- The rotation from the key `k` to the next one arrives. -/
def rotationArrives (k : UInt8) : Runtime.Arrival :=
  ⟨toyAddr 7, .update (filledId 7) toyKey (toyRecord (k + 1)) [k], k.toNat, {}⟩

theorem freshKey_toy {sender key : NodeId} {new auth : Bytes}
    (h : toySigner auth < toyVersion new) :
    FreshKey toyPlatform toyVersion (.update sender key new auth) := by
  intro old hau
  obtain ⟨record, pubKey, hr, hk, hhead⟩ := authorises_toy hau
  have hold : toyVersion old = toySigner auth := by
    simp only [toyVersion, hr, Except.bind, bind, hk, toySigner, hhead]
  rw [hold]
  exact h

def afterRotation : Option RpcMessage × World := handled (rotationArrives 1) holdingOne

def afterRotations : Option RpcMessage × World := handled (rotationArrives 2) afterRotation.2

/-- Two rotations, and a late copy of the first. -/
theorem late_copies_harmless_rotations :
    Doubled toyCluster replicaAddr replicaServer toyKey toyVersion (RepeatsList replicaAddr)
      holdingOne afterRotations.2 (handled (rotationArrives 1) afterRotations.2).2
      [((rotationArrives 2).src, (rotationArrives 2).msg),
        ((rotationArrives 1).src, (rotationArrives 1).msg)] ∧
    (afterRotations.2.storage replicaAddr).get 9 toyKey.bytes = some (toyRecord 3) ∧
    ((handled (rotationArrives 1) afterRotations.2).2.storage replicaAddr).get 9 toyKey.bytes =
      (afterRotations.2.storage replicaAddr).get 9 toyKey.bytes := by
  have hok₁ : isSuccess afterRotation.1 = true := by decide +kernel
  have hok₂ : isSuccess afterRotations.1 = true := by decide +kernel
  have hone : Doubled toyCluster replicaAddr replicaServer toyKey toyVersion
      (RepeatsList replicaAddr) holdingOne afterRotation.2 afterRotation.2 _ :=
    .handle (rotationArrives 1) .start rfl (freshKey_toy (by decide +kernel))
      (handleAlone_handled _ _) (handleAlone_handled _ _)
  rw [← afterRotation, if_pos hok₁] at hone
  have htwo := hone.handle (rotationArrives 2) rfl (freshKey_toy (by decide +kernel))
    (handleAlone_handled _ _) (handleAlone_handled _ _)
  rw [← afterRotations, if_pos hok₂] at htwo
  have hcopy := htwo.copy (rotationArrives 1) (by simp) trivial (handleAlone_handled _ _)
  refine ⟨hcopy, by decide +kernel, ?_⟩
  exact late_copies_harmless toyCluster replicaAddr replicaServer rfl toyKey toyVersion holdingOne
    rfl hcopy 9

end AuthKademlia.Properties
