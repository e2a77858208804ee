import AuthKademlia.Lib.Trace
import AuthKademlia.Runtime.World

/-! # What the log of a run says

The log is read as a history of registers, one for each key of each store. The
invariant of all runs has two halves. What an operation answered is true of the
history before it (`Truthful`). What a task wrote, cached or answered rests on
what it had done before (`Justified`, `AnswerOk`); that half is each program's
own obligation, and this file shows that nothing else can break it. -/
namespace AuthKademlia.Runtime
open AuthKademlia.Lib.Async AuthKademlia.Lib.Trace AuthKademlia.Utils AuthKademlia.Storage
open AuthKademlia.AuthHandler AuthKademlia.Protocol

/-- The task `a` did `o` and got `r`. -/
def Did (log : List Event) (a : Agent) (o : Op) (r : Ans o) : Prop :=
  ∃ live, (⟨a, o, r, live⟩ : Event) ∈ log

def isWrite : StorageWriteStatus → Bool
  | .stored | .alreadyStored => true
  | .conflict | .capacityExceeded => false

/-- The record that an event leaves under `key` at `loc`. -/
def Event.wrote (loc : Addr) (key : NodeId) : Event → Option Bytes
  | ⟨a, .storageSet k v, st, _⟩ => if a.loc = loc ∧ k = key ∧ isWrite st then some v else none
  | ⟨a, .insertIfAbsent k v, st, _⟩ => if a.loc = loc ∧ k = key ∧ isWrite st then some v else none
  | _ => none

/-- A write is an effective `set` or an effective `insert_if_absent`. -/
theorem wrote_cases {loc : Addr} {key : NodeId} {v : Bytes} {e : Event}
    (h : e.wrote loc key = some v) : e.agent.loc = loc ∧ ∃ st, isWrite st = true ∧
      (e = ⟨e.agent, .storageSet key v, st, e.live⟩ ∨
        e = ⟨e.agent, .insertIfAbsent key v, st, e.live⟩) := by
  obtain ⟨a, o, r, live⟩ := e
  cases o with
  | storageSet k value =>
    simp only [Event.wrote] at h
    split at h
    · rename_i hk
      obtain ⟨hloc, rfl, hst⟩ := hk
      cases h
      exact ⟨hloc, r, hst, Or.inl rfl⟩
    · cases h
  | insertIfAbsent k value =>
    simp only [Event.wrote] at h
    split at h
    · rename_i hk
      obtain ⟨hloc, rfl, hst⟩ := hk
      cases h
      exact ⟨hloc, r, hst, Or.inr rfl⟩
    · cases h
  | _ => cases h

/-- The last record written under `key` at `loc`. -/
def lastWritten (init : Addr → ForgetfulStorage) (log : List Event) (loc : Addr) (key : NodeId) :
    Option Bytes :=
  latest (Event.wrote loc key) ((init loc).held key.bytes) log

/-- At some time `v` was the record under `key` at `loc`. -/
def WasHeld (init : Addr → ForgetfulStorage) (log : List Event) (loc : Addr) (key : NodeId)
    (v : Bytes) : Prop :=
  ∃ pre, pre <+: log ∧ lastWritten init pre loc key = some v

/-- What a positive verdict of a domain means. -/
def Verified (P : Platform) : VerificationDomain → Bytes → Prop
  | .selfSigned, value => SelfSigned P value
  | .issuerSigned, value => IssuerSigned P value

/-- The cache was asked about a record, or was given one. -/
def Cached (log : List Event) (domain : VerificationDomain) (value : Bytes) : Prop :=
  (∃ a r, Did log a (.cacheGet domain value) r) ∨ ∃ a b, Did log a (.cacheInsert domain value b) ()

/-- No two of the records that went through the caches share a SHA-256 hash. -/
def NoCollision (P : Platform) (log : List Event) : Prop :=
  ∀ d v d' v', Cached log d v → Cached log d' v' →
    computeKey P.hashes d v = computeKey P.hashes d' v' → d = d' ∧ v = v'

/-- The record is valid for the key, as far as the assumptions of `ValidFor` go. -/
def ValidIn (P : Platform) (log : List Event) (key : NodeId) (value : Bytes) : Prop :=
  StatusKeyApart P → NoCollision P log → ValidFor P key value

/-- The authorisation signature that came with an update. -/
def Job.auth : Job → Bytes
  | .handle _ _ (.update _ _ _ authSignature) => authSignature
  | .update _ _ authSignature => authSignature.getD []
  | _ => []

def Job.isStore : Job → Bool
  | .handle _ _ (.store _ _ _) => true
  | _ => false

section
variable (cl : Cluster) (init : Addr → ForgetfulStorage)

/-- What a live record and an answer say about the history before them. -/
def Truthful (pre : List Event) : Event → Prop
  | ⟨a, .storageGet key, found, live⟩ =>
    found = live ∧ ∀ x, live = some x → lastWritten init pre a.loc key = some x
  | ⟨a, .storageSet key _, st, live⟩ =>
    st ≠ StorageWriteStatus.conflict ∧ ∀ x, live = some x → lastWritten init pre a.loc key = some x
  | ⟨a, .insertIfAbsent key value, st, live⟩ =>
    (st = StorageWriteStatus.stored → live = none) ∧
    (st = StorageWriteStatus.alreadyStored → lastWritten init pre a.loc key = some value) ∧
    ∀ x, live = some x → lastWritten init pre a.loc key = some x
  | ⟨_, .cacheGet domain value, found, _⟩ =>
    ∀ b, found = some b → ∃ a d v, Did pre a (.cacheInsert d v b) () ∧
      computeKey cl.platform.hashes d v = computeKey cl.platform.hashes domain value
  | ⟨_, .blocking result, r, _⟩ => r = true → result = true
  | _ => True

/-- What a task must have done before it writes a store or a cache. -/
def Justified (pre : List Event) (a : Agent) : Op → Prop
  | .storageSet key value => ValidIn cl.platform pre key value ∧
    (key ≠ cl.platform.hashes.digest statusListKey →
      ∃ old, Did pre a (.against key old) () ∧
        (old = value ∨ Authorises cl.platform old value a.job.auth))
  | .insertIfAbsent key value => ValidIn cl.platform pre key value ∧
    (key ≠ cl.platform.hashes.digest statusListKey → a.job.isStore = true →
      ∃ found, Did pre a (.storageGet key) found ∧
        (found = none → Did pre a (.networkCopy key value) .noneOrSame))
  | .cacheInsert domain value result => result = true → Verified cl.platform domain value
  | _ => True

/-- An acknowledgement says that the replica has held the record. -/
def AnswerOk (log : List Event) (loc : Addr) : RpcMessage → RpcMessage → Prop
  | .store _ key value, .storeResult status =>
    status = .stored ∨ status = .alreadyStored → WasHeld init log loc key value
  | .update _ key value _, .updateResult ok => ok = true → WasHeld init log loc key value
  | .updateStatusList _ key value, .updateStatusListResult ok =>
    ok = true → WasHeld init log loc key value
  | _, _ => True

structure Inv (w : World) : Prop where
  entries : ∀ loc key v, (w.storage loc).held key.bytes = some v →
    lastWritten init w.log loc key = some v
  keys : ∀ loc k v, (w.storage loc).held k = some v → (init loc).held k = some v ∨ k.length = idLen
  truthful : Every (Truthful cl init) w.log
  justified : Every (fun pre e => Justified cl pre e.agent e.op) w.log
  cache : ∀ loc slot b, w.cache loc slot = some b → ∃ a d v,
    Did w.log a (.cacheInsert d v b) () ∧ computeKey cl.platform.hashes d v = slot
  answers : ∀ id msg, (id, msg) ∈ w.answers → ∃ req, w.requests[id]? = some req ∧
    ((cl.server req.dst).isSome → AnswerOk init w.log req.dst req.msg msg)

end

/-- The log and the requests only grow. -/
structure Grows (w w' : World) : Prop where
  log : w.log <+: w'.log
  requests : w.requests <+: w'.requests

theorem Grows.refl (w : World) : Grows w w := ⟨List.prefix_rfl, List.prefix_rfl⟩

theorem Grows.trans {u v w : World} (h : Grows u v) (h' : Grows v w) : Grows u w :=
  ⟨h.log.trans h'.log, h.requests.trans h'.requests⟩

theorem Grows.request {w w' : World} (h : Grows w w') {id : Nat} {req : Request}
    (hr : w.requests[id]? = some req) : w'.requests[id]? = some req := by
  obtain ⟨post, hp⟩ := h.requests
  rw [← hp, List.getElem?_append_left (List.getElem?_eq_some_iff.mp hr).1, hr]

/-- The logic in which the programs of the nodes are proved. -/
def logic (cl : Cluster) (init : Addr → ForgetfulStorage) : Logic (system cl) where
  inv := Inv cl init
  le := Grows
  refl := Grows.refl
  trans := Grows.trans

/-! ## Assertions that stay true -/

section
variable {log log' : List Event} {a : Agent} {o : Op} {r : Ans o} {P : Platform}
  {init : Addr → ForgetfulStorage} {loc : Addr} {key : NodeId} {v : Bytes}

theorem Did.mono (h : log <+: log') : Did log a o r → Did log' a o r := by
  rintro ⟨live, hm⟩
  exact ⟨live, h.subset hm⟩

theorem did_snoc {live : Option Bytes} : Did (log ++ [⟨a, o, r, live⟩]) a o r :=
  ⟨live, by simp⟩

theorem WasHeld.mono (h : log <+: log') :
    WasHeld init log loc key v → WasHeld init log' loc key v := by
  rintro ⟨pre, hp, hv⟩
  exact ⟨pre, hp.trans h, hv⟩

theorem NoCollision.of_prefix (h : NoCollision P log') (hp : log <+: log') : NoCollision P log := by
  have hmono : ∀ {d v}, Cached log d v → Cached log' d v := by
    rintro d v (⟨a, r, hd⟩ | ⟨a, b, hd⟩)
    · exact Or.inl ⟨a, r, hd.mono hp⟩
    · exact Or.inr ⟨a, b, hd.mono hp⟩
  intro d v d' v' hc hc'
  exact h d v d' v' (hmono hc) (hmono hc')

theorem ValidIn.mono (hp : log <+: log') (h : ValidIn P log key v) : ValidIn P log' key v :=
  fun hs hc => h hs (hc.of_prefix hp)

theorem AnswerOk.mono (hp : log <+: log') {req msg : RpcMessage}
    (h : AnswerOk init log loc req msg) : AnswerOk init log' loc req msg := by
  unfold AnswerOk at h ⊢
  split
  · exact fun hs => (h hs).mono hp
  · exact fun hs => (h hs).mono hp
  · exact fun hs => (h hs).mono hp
  · trivial

end

/-! ## Operations keep the invariant -/

section
variable {cl : Cluster} {init : Addr → ForgetfulStorage} {a : Agent} {o : Op} {r : Ans o}
  {p : Pick} {w w' : World}

theorem exec_effect (h : exec cl a o p w = some (r, w')) : ∃ w₁,
    effect cl a o p w = some (r, w₁) ∧
      w' = { w₁ with log := w.log ++ [⟨a, o, r, w.liveFor a.loc o⟩] } := by
  obtain ⟨⟨r₁, w₁⟩, he, heq⟩ := Option.map_eq_some_iff.mp h
  obtain ⟨rfl, rfl⟩ := Prod.mk.inj heq
  exact ⟨w₁, he, rfl⟩

theorem effect_receive {call : Nat} {r : Option RpcMessage}
    (h : effect cl a (.receive call) p w = some (r, w')) :
    w' = w ∧ ∀ msg, r = some msg → (call, msg) ∈ w.answers := by
  simp only [effect] at h
  split at h
  · cases h
    exact ⟨rfl, fun msg hm => by cases hm⟩
  · split at h
    · rename_i hmem
      cases h
      exact ⟨rfl, fun msg hm => Option.some.inj hm ▸ hmem⟩
    · cases h

theorem effect_receive_answer {call : Nat} {r : Option RpcMessage}
    (h : effect cl a (.receive call) p w = some (r, w')) : r = p.answer := by
  simp only [effect] at h
  split at h
  · rename_i hnone
    cases h
    exact hnone.symm
  · rename_i msg hsome
    split at h
    · cases h
      exact hsome.symm
    · cases h

theorem effect_respond {msg : RpcMessage} {r : Unit}
    (h : effect cl a (.respond msg) p w = some (r, w')) : ∃ id src req,
      a.job = .handle id src req ∧ w' = { w with answers := w.answers ++ [(id, msg)] } := by
  simp only [effect] at h
  split at h
  · rename_i id src req hjob
    cases h
    exact ⟨id, src, req, hjob, rfl⟩
  · cases h

theorem held_of_wrote {s : ForgetfulStorage} {k : NodeId} {v : Bytes}
    {res : StorageWriteStatus × ForgetfulStorage} (h : ForgetfulStorage.Wrote s k.bytes v res)
    (storage : Addr → ForgetfulStorage) (at' loc : Addr) (hs : storage at' = s) (key : NodeId) :
    (Function.update storage at' res.2 loc).held key.bytes =
      (if at' = loc ∧ k = key ∧ isWrite res.1 then some v else none).or
        ((storage loc).held key.bytes) := by
  by_cases hloc : at' = loc
  · subst hloc
    rw [Function.update_self, hs]
    cases h with
    | refused st hst => rcases hst with rfl | rfl <;> simp [isWrite]
    | wrote st s' hst hkey hrest =>
      have hw : isWrite st = true := by rcases hst with rfl | ⟨rfl, -⟩ <;> rfl
      by_cases hk : k = key
      · subst hk; simp [hw, hkey]
      · have hne : key.bytes ≠ k.bytes := fun h => hk (NodeId.ext h.symm)
        simp [hk, hrest _ hne]
  · rw [Function.update_of_ne (Ne.symm hloc)]
    simp [hloc]

theorem effect_held (h : effect cl a o p w = some (r, w')) (live : Option Bytes) (loc : Addr)
    (key : NodeId) : (w'.storage loc).held key.bytes =
      (Event.wrote loc key ⟨a, o, r, live⟩).or ((w.storage loc).held key.bytes) := by
  cases o with
  | storageSet k v =>
    obtain ⟨rfl, rfl⟩ := Prod.mk.inj (Option.some.inj h)
    exact held_of_wrote (ForgetfulStorage.set_wrote _ w.now k.bytes v) w.storage a.loc loc rfl key
  | insertIfAbsent k v =>
    obtain ⟨rfl, rfl⟩ := Prod.mk.inj (Option.some.inj h)
    exact held_of_wrote (ForgetfulStorage.insertIfAbsent_wrote _ w.now k.bytes v) w.storage a.loc
      loc rfl key
  | receive call =>
    obtain ⟨rfl, -⟩ := effect_receive h
    rfl
  | respond msg =>
    obtain ⟨_, _, _, _, rfl⟩ := effect_respond h
    rfl
  | _ => cases h; rfl

theorem effect_keys (h : effect cl a o p w = some (r, w')) {loc : Addr} {k v : Bytes}
    (hv : (w'.storage loc).held k = some v) :
    (w.storage loc).held k = some v ∨ k.length = idLen := by
  have hset : ∀ {key : NodeId} {value : Bytes} {res : StorageWriteStatus × ForgetfulStorage},
      ForgetfulStorage.Wrote (w.storage a.loc) key.bytes value res →
      ((w.setStorage a.loc res.2).storage loc).held k = some v →
      (w.storage loc).held k = some v ∨ k.length = idLen := by
    intro key value res hwr hv
    by_cases hloc : loc = a.loc
    · subst hloc
      rw [World.setStorage_self] at hv
      cases hwr with
      | refused => exact Or.inl hv
      | wrote st s' _ _ hrest =>
        by_cases hk : k = key.bytes
        · exact Or.inr (hk ▸ key.length_eq)
        · exact Or.inl (hrest k hk ▸ hv)
    · rw [World.setStorage_of_ne w hloc] at hv
      exact Or.inl hv
  cases o with
  | storageSet key value => cases h; exact hset (ForgetfulStorage.set_wrote ..) hv
  | insertIfAbsent key value => cases h; exact hset (ForgetfulStorage.insertIfAbsent_wrote ..) hv
  | receive call =>
    obtain ⟨rfl, -⟩ := effect_receive h
    exact Or.inl hv
  | respond msg =>
    obtain ⟨_, _, _, _, rfl⟩ := effect_respond h
    exact Or.inl hv
  | _ => cases h; exact Or.inl hv

theorem Inv.live (hw : Inv cl init w) {loc : Addr} {key : NodeId} {x : Bytes}
    (h : w.live loc key = some x) : lastWritten init w.log loc key = some x :=
  hw.entries loc key x (ForgetfulStorage.held_of_get h)

theorem effect_truthful (hw : Inv cl init w) (h : effect cl a o p w = some (r, w')) :
    Truthful cl init w.log ⟨a, o, r, w.liveFor a.loc o⟩ := by
  cases o with
  | storageGet key =>
    cases h
    exact ⟨rfl, fun x hx => hw.live hx⟩
  | storageSet key value =>
    cases h
    exact ⟨ForgetfulStorage.set_ne_conflict, fun x hx => hw.live hx⟩
  | insertIfAbsent key value =>
    cases h
    refine ⟨fun hst => ?_, fun hst => ?_, fun x hx => hw.live hx⟩
    · -- a live record would have made the answer another one
      cases hl : w.liveFor a.loc (.insertIfAbsent key value) with
      | none => rfl
      | some x =>
        have hlive : ((w.storage a.loc).insertIfAbsent w.now key.bytes value).1 = _ :=
          ForgetfulStorage.insertIfAbsent_live hl
        rw [hst] at hlive
        split at hlive <;> cases hlive
    · have hwr := ForgetfulStorage.insertIfAbsent_wrote (w.storage a.loc) w.now key.bytes value
      generalize hres : (w.storage a.loc).insertIfAbsent w.now key.bytes value = res at hwr hst
      cases hwr with
      | refused st hcr => rcases hcr with rfl | rfl <;> cases hst
      | wrote st s' hs _ _ =>
        rcases hs with rfl | ⟨-, hheld⟩
        · cases hst
        · exact hw.entries _ _ _ hheld
  | cacheGet domain value =>
    cases h
    exact fun b hb => hw.cache _ _ b hb
  | blocking result =>
    cases h
    exact fun hr => (Bool.and_eq_true_iff.mp hr).2
  | _ => trivial

theorem effect_requests (h : effect cl a o p w = some (r, w')) : w.requests <+: w'.requests := by
  cases o with
  | send peer msg => cases h; exact List.prefix_append _ _
  | receive call =>
    obtain ⟨rfl, -⟩ := effect_receive h
    exact List.prefix_rfl
  | respond msg =>
    obtain ⟨_, _, _, _, rfl⟩ := effect_respond h
    exact List.prefix_rfl
  | _ => cases h; exact List.prefix_rfl

theorem effect_cache (h : effect cl a o p w = some (r, w')) {loc : Addr} {slot : Bytes} {b : Bool}
    (hb : w'.cache loc slot = some b) : w.cache loc slot = some b ∨
      ∃ d v, o = .cacheInsert d v b ∧ computeKey cl.platform.hashes d v = slot := by
  cases o with
  | cacheInsert d v b' =>
    cases h
    dsimp only at hb
    by_cases hloc : loc = a.loc
    · subst hloc
      rw [Function.update_self] at hb
      by_cases hs : slot = computeKey cl.platform.hashes d v
      · subst hs
        rw [Function.update_self] at hb
        obtain rfl := Option.some.inj hb
        exact Or.inr ⟨d, v, rfl, rfl⟩
      · rw [Function.update_of_ne hs] at hb
        exact Or.inl hb
    · rw [Function.update_of_ne hloc] at hb
      exact Or.inl hb
  | receive call =>
    obtain ⟨rfl, -⟩ := effect_receive h
    exact Or.inl hb
  | respond msg =>
    obtain ⟨_, _, _, _, rfl⟩ := effect_respond h
    exact Or.inl hb
  | _ => cases h; exact Or.inl hb

theorem effect_answers (h : effect cl a o p w = some (r, w')) {id : Nat} {msg : RpcMessage}
    (hm : (id, msg) ∈ w'.answers) : (id, msg) ∈ w.answers ∨
      o = .respond msg ∧ ∃ src req, a.job = .handle id src req := by
  cases o with
  | respond m =>
    obtain ⟨id', src, req, hjob, rfl⟩ := effect_respond h
    rcases List.mem_append.mp hm with hm | hm
    · exact Or.inl hm
    · obtain ⟨rfl, rfl⟩ := Prod.mk.inj (List.mem_singleton.mp hm)
      exact Or.inr ⟨rfl, src, req, hjob⟩
  | receive call =>
    obtain ⟨rfl, -⟩ := effect_receive h
    exact Or.inl hm
  | _ => cases h; exact Or.inl hm

/-- What a task must know before it answers a request. -/
def MayRespond (init : Addr → ForgetfulStorage) (w : World) (a : Agent) (msg : RpcMessage) : Prop :=
  ∀ id src req, a.job = .handle id src req →
    w.requests[id]? = some ⟨src, a.loc, req⟩ ∧ AnswerOk init w.log a.loc req msg

/-- **An operation keeps the invariant**, if the task may do it. -/
theorem exec_inv (hw : Inv cl init w) (hj : Justified cl w.log a o)
    (hm : ∀ msg, o = .respond msg → MayRespond init w a msg)
    (hx : exec cl a o p w = some (r, w')) :
    Inv cl init w' ∧ Grows w w' ∧ ∃ live, w'.log = w.log ++ [⟨a, o, r, live⟩] ∧
      Truthful cl init w.log ⟨a, o, r, live⟩ := by
  obtain ⟨w₁, h, rfl⟩ := exec_effect hx
  have htruth := effect_truthful hw h
  have hlog : w.log <+: w.log ++ [⟨a, o, r, w.liveFor a.loc o⟩] := List.prefix_append _ _
  have hrequests := effect_requests h
  have hgrows : Grows w { w₁ with log := w.log ++ [⟨a, o, r, w.liveFor a.loc o⟩] } :=
    ⟨hlog, hrequests⟩
  refine ⟨⟨?_, fun loc k v hv => (effect_keys h hv).elim (hw.keys loc k v) Or.inr,
    every_snoc.mpr ⟨hw.truthful, htruth⟩, every_snoc.mpr ⟨hw.justified, hj⟩, ?_, ?_⟩,
    hgrows, _, rfl, htruth⟩
  · intro loc key v hv
    rw [effect_held h (w.liveFor a.loc o)] at hv
    rw [lastWritten, latest_snoc]
    rcases Option.or_eq_some_iff.mp hv with hv | ⟨hn, hv⟩
    · rw [hv, Option.some_or]
    · rw [hn, Option.none_or]
      exact hw.entries loc key v hv
  · intro loc slot b hb
    rcases effect_cache h hb with hb | ⟨d, v, rfl, hs⟩
    · obtain ⟨a', d, v, hd, hs⟩ := hw.cache loc slot b hb
      exact ⟨a', d, v, hd.mono hlog, hs⟩
    · exact ⟨a, d, v, did_snoc, hs⟩
  · intro id msg hmem
    rcases effect_answers h hmem with hmem | ⟨rfl, src, req, hjob⟩
    · obtain ⟨req, hreq, hok⟩ := hw.answers id msg hmem
      exact ⟨req, hgrows.request hreq, fun hh => (hok hh).mono hlog⟩
    · obtain ⟨hreq, hok⟩ := hm msg rfl id src req hjob
      exact ⟨_, hgrows.request hreq, fun _ => hok.mono hlog⟩

/-- **The environment keeps the invariant.** -/
theorem env_inv {e : Env} (hw : Inv cl init w) (h : env cl e w = some w') :
    Inv cl init w' ∧ Grows w w' := by
  cases e with
  | advance nanos =>
    cases h
    exact ⟨⟨hw.entries, hw.keys, hw.truthful, hw.justified, hw.cache, hw.answers⟩,
      ⟨List.prefix_rfl, List.prefix_rfl⟩⟩
  | prune loc =>
    cases h
    have hheld : ∀ {l k v}, ((w.setStorage loc ((w.storage loc).pruneExpired w.now)).storage
        l).held k = some v → (w.storage l).held k = some v := by
      intro l k v hv
      by_cases hl : l = loc
      · subst hl
        rw [World.setStorage_self] at hv
        exact ForgetfulStorage.pruneExpired_held hv
      · rwa [World.setStorage_of_ne w hl] at hv
    exact ⟨⟨fun l key v hv => hw.entries l key v (hheld hv),
      fun l k v hv => hw.keys l k v (hheld hv), hw.truthful, hw.justified, hw.cache, hw.answers⟩,
      ⟨List.prefix_rfl, List.prefix_rfl⟩⟩
  | evict loc slot =>
    cases h
    refine ⟨⟨hw.entries, hw.keys, hw.truthful, hw.justified, fun l s b hb => hw.cache l s b ?_,
      hw.answers⟩, ⟨List.prefix_rfl, List.prefix_rfl⟩⟩
    dsimp only at hb
    by_cases hl : l = loc
    · subst hl
      rw [Function.update_self] at hb
      by_cases hs : s = slot
      · subst hs
        rw [Function.update_self] at hb
        cases hb
      · rwa [Function.update_of_ne hs] at hb
    · rwa [Function.update_of_ne hl] at hb
  | inject req =>
    cases h
    have hgrows : Grows w { w with requests := w.requests ++ [req] } :=
      ⟨List.prefix_rfl, List.prefix_append _ _⟩
    refine ⟨⟨hw.entries, hw.keys, hw.truthful, hw.justified, hw.cache, fun id msg hmem => ?_⟩,
    hgrows⟩
    obtain ⟨req, hreq, hok⟩ := hw.answers id msg hmem
    exact ⟨req, hgrows.request hreq, hok⟩
  | forge id msg =>
    simp only [env] at h
    split at h
    · rename_i req hreq
      split at h
      · rename_i hout
        cases h
        refine ⟨⟨hw.entries, hw.keys, hw.truthful, hw.justified, hw.cache, fun id' msg' hmem => ?_⟩,
          ⟨List.prefix_rfl, List.prefix_rfl⟩⟩
        rcases List.mem_append.mp hmem with hmem | hmem
        · exact hw.answers id' msg' hmem
        · obtain ⟨rfl, rfl⟩ := Prod.mk.inj (List.mem_singleton.mp hmem)
          refine ⟨req, hreq, fun hin => ?_⟩
          rw [Option.isNone_iff_eq_none.mp hout] at hin
          cases hin
      · cases h
    · cases h

/-- **A write over a live record** leaves it as it is, or is an update. -/
theorem write_over_live (hw : Inv cl init w) {pre post : List Event} {e : Event}
    (hlog : w.log = pre ++ e :: post) {loc : Addr} {key : NodeId} {cur new : Bytes}
    (hwrote : e.wrote loc key = some new) (hlive : e.live = some cur) :
    lastWritten init pre loc key = some cur ∧ (cur = new ∨ e.agent.loc = loc ∧
      ∃ st, isWrite st = true ∧ e = ⟨e.agent, .storageSet key new, st, e.live⟩) := by
  have ht := hw.truthful pre e post hlog
  obtain ⟨rfl, st, hst, he | he⟩ := wrote_cases hwrote
  · rw [he] at ht
    exact ⟨ht.2 cur hlive, Or.inr ⟨rfl, st, hst, he⟩⟩
  · -- an insert that finds a live record can only find its own value
    rw [he] at ht
    refine ⟨ht.2.2 cur hlive, Or.inl ?_⟩
    cases st with
    | stored => rw [ht.1 rfl] at hlive; cases hlive
    | alreadyStored => exact Option.some.inj ((ht.2.2 cur hlive).symm.trans (ht.2.1 rfl))
    | conflict => cases hst
    | capacityExceeded => cases hst

theorem Fresh.inv (h : Fresh w) : Inv cl w.storage w where
  entries := fun loc key v hv => by rw [h.log]; exact hv
  keys := fun loc k v hv => Or.inl hv
  truthful := h.log ▸ every_nil
  justified := h.log ▸ every_nil
  cache := fun loc slot b hb => by rw [h.cache] at hb; cases hb
  answers := fun id msg hm => by rw [h.answers] at hm; cases hm

end

/-! ## Who wrote the log -/

section
variable {cl : Cluster} {a : Agent} {w w' : World} {c c' : (system cl).Config}

theorem step_log {α : Type} {t t' : Routine α} {path : List Nat} {pick : Pick}
    (h : (system cl).step a pick t path w = some (t', w')) :
    ∃ es, w'.log = w.log ++ es ∧ ∀ e ∈ es, e.agent = a := by
  refine System.step_rel (system cl) (fun w w' => ∃ es, World.log w' = World.log w ++ es ∧
    ∀ e ∈ es, e.agent = a) (fun w => ⟨[], by simp, by simp⟩) (fun {o pick w r w'} h => ?_) h
  obtain ⟨w₁, -, rfl⟩ := exec_effect h
  exact ⟨_, rfl, by simp⟩

theorem env_log {e : Env} (h : env cl e w = some w') : w'.log = w.log := by
  cases e with
  | forge id msg =>
    simp only [env] at h
    split at h
    · split at h
      · cases h; rfl
      · cases h
    · cases h
  | _ => cases h; rfl

theorem move_log {m : (system cl).Move} (h : (system cl).move c m = some c') :
    c.world.log <+: c'.world.log := by
  cases m with
  | step i path pick =>
    obtain ⟨p, -, h⟩ := Option.bind_eq_some_iff.mp h
    obtain ⟨⟨t, w₂⟩, ht, rfl⟩ := Option.map_eq_some_iff.mp h
    obtain ⟨es, hes, -⟩ := step_log ht
    exact ⟨es, hes.symm⟩
  | env e =>
    obtain ⟨w₂, hw, rfl⟩ := Option.map_eq_some_iff.mp h
    exact (env_log hw).symm ▸ List.prefix_rfl
  | start call =>
    obtain ⟨r, -, rfl⟩ := Option.map_eq_some_iff.mp h
    exact List.prefix_rfl

theorem replay_log {ms : List (system cl).Move} (h : (system cl).replay ms c = some c') :
    c.world.log <+: c'.world.log :=
  System.replay_rel (system cl) (fun c c' => World.log c.world <+: World.log c'.world)
    (fun _ => List.prefix_rfl) (fun h h' => h.trans h') (fun h => move_log h) h

/-- Tasks are numbered in the order they were started, and the log holds
operations of started tasks only. -/
structure Numbered (c : (system cl).Config) : Prop where
  procs : ∀ i (h : i < c.procs.length), Agent.pid (c.procs.get ⟨i, h⟩).agent = i
  events : ∀ e ∈ World.log c.world, e.agent.pid < c.procs.length

theorem Numbered.move {m : (system cl).Move} (hc : Numbered c)
    (h : (system cl).move c m = some c') : Numbered c' := by
  cases m with
  | step i path pick =>
    obtain ⟨p, hp, h⟩ := Option.bind_eq_some_iff.mp h
    obtain ⟨⟨t, w₂⟩, ht, rfl⟩ := Option.map_eq_some_iff.mp h
    obtain ⟨hi, rfl⟩ := List.getElem?_eq_some_iff.mp hp
    refine ⟨fun j hj => ?_, fun e he => ?_⟩
    · rw [List.length_set] at hj
      by_cases hij : i = j
      · subst hij
        simpa using hc.procs i hj
      · simpa [List.getElem_set_ne hij] using hc.procs j hj
    · obtain ⟨es, hes, hall⟩ := step_log ht
      rw [List.length_set]
      rw [hes] at he
      rcases List.mem_append.mp he with he | he
      · exact hc.events e he
      · rw [hall e he]
        exact (hc.procs i hi).trans_lt hi
  | env e =>
    obtain ⟨w₂, hw, rfl⟩ := Option.map_eq_some_iff.mp h
    exact ⟨hc.procs, fun e he => hc.events e (env_log hw ▸ he)⟩
  | start call =>
    obtain ⟨⟨ag, t⟩, hst, rfl⟩ := Option.map_eq_some_iff.mp h
    obtain ⟨⟨loc, job⟩, -, hst⟩ := Option.bind_eq_some_iff.mp hst
    obtain ⟨srv, -, hst⟩ := Option.map_eq_some_iff.mp hst
    obtain ⟨rfl, rfl⟩ := Prod.mk.inj hst
    refine ⟨fun j hj => ?_, fun e he => ?_⟩
    · by_cases hlt : j < c.procs.length
      · simpa [List.getElem_append_left hlt] using hc.procs j hlt
      · rw [List.length_append, List.length_singleton] at hj
        obtain rfl : j = c.procs.length := by omega
        simp
    · rw [List.length_append, List.length_singleton]
      exact Nat.lt_succ_of_lt (hc.events e he)

theorem run_numbered {w₀ : World} (h₀ : w₀.log = []) (h : (system cl).Run w₀ c) : Numbered c := by
  induction h with
  | init => exact ⟨fun i hi => absurd hi (Nat.not_lt_zero i), fun e he => by simp [h₀] at he⟩
  | move m _ hm ih => exact ih.move hm

end

end AuthKademlia.Runtime
