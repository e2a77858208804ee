import AuthKademlia.Runtime.Background
import AuthKademlia.Runtime.History

/-! # Expiry

A record is meant to expire when its owner does not publish or update it any
more. But republication and the records sent to new nodes are STOREs like any
other: `insert_if_absent` stamps a record anew that is there already, and a node
whose copy has expired takes it as a new one. So the nodes keep a record alive
among themselves. It expires in the runs where every STORE of its key finds
another live record. -/
namespace AuthKademlia.Properties
open AuthKademlia.Lib.Async AuthKademlia.Utils AuthKademlia.Storage AuthKademlia.AuthHandler
open AuthKademlia.Protocol AuthKademlia.Network AuthKademlia.Runtime

/-- A STORE of `key` finds another live record. -/
def FindsAnother (key : NodeId) : Event → Prop
  | ⟨_, .insertIfAbsent k value, _, live⟩ => k = key → live ≠ none ∧ live ≠ some value
  | _ => True

instance (key : NodeId) : (e : Event) → Decidable (FindsAnother key e)
  | ⟨_, .insertIfAbsent _ _, _, _⟩ => inferInstanceAs (Decidable (_ → _))
  | ⟨_, .storageGet _, _, _⟩ | ⟨_, .storageSet _ _, _, _⟩ | ⟨_, .cacheGet _ _, _, _⟩
  | ⟨_, .cacheInsert _ _ _, _, _⟩ | ⟨_, .blocking _, _, _⟩ | ⟨_, .networkCopy _ _, _, _⟩
  | ⟨_, .findNeighbors _, _, _⟩ | ⟨_, .lookupNodes _ _, _, _⟩ | ⟨_, .lookupValue _ _, _, _⟩
  | ⟨_, .arrivals _ _, _, _⟩ | ⟨_, .findQuorum _ _ _ _ _, _, _⟩ | ⟨_, .knowsOthers, _, _⟩
  | ⟨_, .scheduleWelcome _, _, _⟩ | ⟨_, .send _ _, _, _⟩ | ⟨_, .receive _, _, _⟩
  | ⟨_, .respond _, _, _⟩ | ⟨_, .select _ _ _ _, _, _⟩ | ⟨_, .against _ _, _, _⟩ =>
    .isTrue trivial

/-- Nobody updates `key`, and while STOREs find other records, every entry of it
is from `t₀` or before. -/
structure Aging (key : NodeId) (ttl : Nat) (t₀ : Instant) (w : World) : Prop where
  requests : ∀ req ∈ w.requests, SparesMsg key req.msg
  ttl_eq : ∀ loc, (w.storage loc).ttl = ttl
  old : (∀ e ∈ w.log, FindsAnother key e) → ∀ loc entry,
    (w.storage loc).data.lookup key.bytes = some entry → entry.insertedAt ≤ t₀

variable {cl : Cluster} {key : NodeId} {ttl : Nat} {t₀ : Instant} {a : Agent} {w w' : World}

/-- The entry of `key` is as it was. -/
def SameEntry (key : NodeId) (s t : ForgetfulStorage) : Prop :=
  t.data.lookup key.bytes = s.data.lookup key.bytes

theorem setStorage_entry {P : Prop} {s : ForgetfulStorage} (httl : s.ttl = (w.storage a.loc).ttl)
    (hentry : P → SameEntry key (w.storage a.loc) s) (loc : Addr) :
    ((w.setStorage a.loc s).storage loc).ttl = (w.storage loc).ttl ∧
      (P → SameEntry key (w.storage loc) ((w.setStorage a.loc s).storage loc)) := by
  by_cases hloc : loc = a.loc
  · subst hloc
    rw [World.setStorage_self]
    exact ⟨httl, hentry⟩
  · rw [World.setStorage_of_ne w hloc]
    exact ⟨rfl, fun _ => rfl⟩

/-- An operation that does not update the key keeps its entries, if it is not a
STORE that restarts one. -/
theorem effect_entry {o : Op} {pick : Pick} {r : Ans o} (ho : Spares key o)
    (h : effect cl a o pick w = some (r, w')) (loc : Addr) :
    (w'.storage loc).ttl = (w.storage loc).ttl ∧
      (FindsAnother key ⟨a, o, r, w.liveFor a.loc o⟩ →
        SameEntry key (w.storage loc) (w'.storage loc)) := by
  cases o with
  | storageSet k v =>
    obtain ⟨rfl, rfl⟩ := Prod.mk.inj (Option.some.inj h)
    have hstamped := (w.storage a.loc).set_stamped w.now k.bytes v
    exact setStorage_entry hstamped.ttl
      (fun _ => hstamped.lookup_of_ne fun he => ho (NodeId.ext he.symm)) loc
  | insertIfAbsent k v =>
    obtain ⟨rfl, rfl⟩ := Prod.mk.inj (Option.some.inj h)
    have hstamped := (w.storage a.loc).insertIfAbsent_stamped w.now k.bytes v
    refine setStorage_entry hstamped.ttl (fun hfinds => ?_) loc
    by_cases hk : k = key
    · subst hk
      obtain ⟨hsome, hne⟩ := hfinds rfl
      obtain ⟨x, hx⟩ := Option.ne_none_iff_exists'.mp hsome
      have hget : (w.storage a.loc).get w.now k.bytes = some x := hx
      have hx' : x ≠ v := fun he => hne (he ▸ hx)
      rw [SameEntry, ForgetfulStorage.insertIfAbsent_refused hget hx']
    · exact hstamped.lookup_of_ne fun he => hk (NodeId.ext he.symm)
  | receive call =>
    obtain ⟨rfl, -⟩ := effect_receive h
    exact ⟨rfl, fun _ => rfl⟩
  | respond msg =>
    obtain ⟨_, _, _, _, rfl⟩ := effect_respond h
    exact ⟨rfl, fun _ => rfl⟩
  | _ => cases h; exact ⟨rfl, fun _ => rfl⟩

theorem effect_spares {o : Op} {pick : Pick} {r : Ans o} (ho : Spares key o)
    (hw : ∀ req ∈ w.requests, SparesMsg key req.msg)
    (h : effect cl a o pick w = some (r, w')) : ∀ req ∈ w'.requests, SparesMsg key req.msg := by
  cases o with
  | send peer msg =>
    obtain ⟨rfl, rfl⟩ := Prod.mk.inj (Option.some.inj h)
    intro req hreq
    rcases List.mem_append.mp hreq with hreq | hreq
    · exact hw req hreq
    · obtain rfl := List.mem_singleton.mp hreq
      exact ho
  | receive call =>
    obtain ⟨rfl, -⟩ := effect_receive h
    exact hw
  | respond msg =>
    obtain ⟨_, _, _, _, rfl⟩ := effect_respond h
    exact hw
  | _ => cases h; exact hw

theorem Aging.exec {o : Op} {pick : Pick} {r : Ans o} (hw : Aging key ttl t₀ w)
    (ho : Spares key o) (h : exec cl a o pick w = some (r, w')) : Aging key ttl t₀ w' := by
  obtain ⟨w₁, he, rfl⟩ := exec_effect h
  have hreqs := effect_spares ho hw.requests he
  refine ⟨hreqs, fun loc => ?_, fun hlog loc entry hentry => ?_⟩
  · exact (effect_entry ho he loc).1.trans (hw.ttl_eq loc)
  · have hlast : FindsAnother key ⟨a, o, r, w.liveFor a.loc o⟩ := hlog _ (by simp)
    have hsame := (effect_entry ho he loc).2 hlast
    rw [SameEntry] at hsame
    exact hw.old (fun e hm => hlog e (List.mem_append_left _ hm)) loc entry (hsame ▸ hentry)

theorem Aging.work {e : Work} (hw : Aging key ttl t₀ w) (h : work cl e w = some w') :
    Aging key ttl t₀ w' := by
  have hsend : ∀ loc srv l, Aging key ttl t₀ (w.sendAll (storeRequests loc srv l)) := by
    intro loc srv l
    refine ⟨fun req hreq => ?_, hw.ttl_eq, hw.old⟩
    rcases List.mem_append.mp hreq with hreq | hreq
    · exact hw.requests req hreq
    · obtain ⟨⟨n, k, v⟩, -, hreq⟩ := List.mem_filterMap.mp hreq
      obtain ⟨addr, -, rfl⟩ := Option.map_eq_some_iff.mp hreq
      trivial
  cases e with
  | advance nanos =>
    cases h
    exact ⟨hw.requests, hw.ttl_eq, hw.old⟩
  | evict loc slot =>
    cases h
    exact ⟨hw.requests, hw.ttl_eq, hw.old⟩
  | prune at' =>
    cases h
    refine ⟨hw.requests, fun loc => ?_, fun hlog loc entry hentry => ?_⟩
    · by_cases hloc : loc = at'
      · rw [hloc, World.setStorage_self, ForgetfulStorage.pruneExpired_ttl]
        exact hw.ttl_eq at'
      · rw [World.setStorage_of_ne w hloc]
        exact hw.ttl_eq loc
    · by_cases hloc : loc = at'
      · rw [hloc, World.setStorage_self, ForgetfulStorage.pruneExpired_lookup] at hentry
        exact hw.old hlog at' entry (Option.filter_eq_some_iff.mp hentry).1
      · rw [World.setStorage_of_ne w hloc] at hentry
        exact hw.old hlog loc entry hentry
  | refresh loc found =>
    obtain ⟨srv, -, rfl⟩ := Option.map_eq_some_iff.mp h
    exact hsend _ _ _
  | welcome loc router node =>
    obtain ⟨srv, -, rfl⟩ := Option.map_eq_some_iff.mp h
    exact hsend _ _ _

theorem Aging.live (hw : Aging key ttl t₀ w) (hfinite : ttl < wordSize)
    (hlog : ∀ e ∈ w.log, FindsAnother key e) (hlate : t₀ + ttl * nanosPerSec < w.now)
    (loc : Addr) : w.live loc key = none := by
  unfold World.live ForgetfulStorage.get
  split
  · rename_i entry hentry
    have hold : entry.insertedAt ≤ t₀ := hw.old hlog loc entry hentry
    have hage : ttl * nanosPerSec < w.now - entry.insertedAt :=
      Nat.lt_sub_of_add_lt
        (by rw [Nat.add_comm]; exact (Nat.add_le_add_right hold _).trans_lt hlate)
    have hexpired : (w.storage loc).isExpired w.now entry.insertedAt = true := by
      have hmod : ((ttl : Int) % (wordSize : Int)).toNat = ttl := by
        rw [← Int.natCast_emod, Int.toNat_natCast, Nat.mod_eq_of_lt hfinite]
      rw [ForgetfulStorage.isExpired, hw.ttl_eq, if_neg (by omega), hmod]
      exact decide_eq_true hage
    rw [if_pos hexpired]
  · rfl

/-- **Records expire**, in every run of background work in which each STORE of
the key finds another live record: later than `ttl` seconds after its beginning,
no node serves a record of the key. -/
theorem record_expires_unless_stored (cl : Cluster) (key : NodeId) (ttl : Nat)
    (hfinite : ttl < wordSize) (w₀ : World) (httl : ∀ loc, (w₀.storage loc).ttl = ttl)
    (hstamps : ∀ loc entry, (w₀.storage loc).data.lookup key.bytes = some entry →
      entry.insertedAt ≤ w₀.now)
    (hpending : ∀ req ∈ w₀.requests, SparesMsg key req.msg)
    {c : (background cl key).Config} (hrun : (background cl key).Run w₀ c)
    (hstores : ∀ e ∈ c.world.log, FindsAnother key e)
    (hlate : w₀.now + ttl * nanosPerSec < c.world.now) (loc : Addr) :
    c.world.live loc key = none := by
  have hinit : Aging key ttl w₀.now w₀ := ⟨hpending, httl, fun _ => hstamps⟩
  obtain ⟨hw, -⟩ := System.run_within (background cl key) (Aging key ttl w₀.now) hinit
    (fun hw h => hw.work h) (fun hw h => sparing_start hw.requests h)
    (fun hw ho h => hw.exec ho h) hrun
  exact Aging.live hw hfinite hstores hlate loc

/-! ## Two runs -/

/-- A time to live of an hour and a half. -/
def shortTtl : Nat := 5400

/-- A store with the record of the key `k`, written at the beginning. -/
def storedAtStart (k : UInt8) : ForgetfulStorage :=
  ((ForgetfulStorage.withMaxStorageBytes shortTtl 1000).set 0 toyKey.bytes (toyRecord k)).2

/-- The first node has the record of the key 1, every other one that of `k`. -/
def holders (k : UInt8) : World :=
  { toyWorld (storedAtStart k) with
    storage := fun loc => if loc = toyAddr 1 then storedAtStart 1 else storedAtStart k }

/-- The first node refreshes after an hour, and the second one handles the STORE
in so many steps. Half an hour and a second later the time to live is over. -/
def refreshOnce (steps : Nat) : List (background toyCluster toyKey).Move :=
  [.env (.advance (refreshInterval * nanosPerSec)),
    .env (.refresh (toyAddr 1) fun _ => [toyNode 2]), .start (.handle 0)] ++
    List.replicate steps (.step 0 [] {}) ++ [.env (.advance (1801 * nanosPerSec))]

theorem holders_ttl {k : UInt8} (hk : (storedAtStart k).ttl = shortTtl) (loc : Addr) :
    ((holders k).storage loc).ttl = shortTtl := by
  change (if loc = toyAddr 1 then storedAtStart 1 else storedAtStart k).ttl = _
  split
  · decide +kernel
  · exact hk

theorem holders_stamps {k : UInt8}
    (hk : ((storedAtStart k).data.lookup toyKey.bytes).map Entry.insertedAt = some 0) (loc : Addr)
    (entry : Entry) (he : ((holders k).storage loc).data.lookup toyKey.bytes = some entry) :
    entry.insertedAt ≤ (holders k).now := by
  have hzero : entry.insertedAt = 0 := by
    change (if loc = toyAddr 1 then storedAtStart 1 else storedAtStart k).data.lookup _ = _ at he
    split at he
    · have hone : ((storedAtStart 1).data.lookup toyKey.bytes).map Entry.insertedAt = some 0 := by
        decide +kernel
      rw [he] at hone
      exact Option.some.inj hone
    · rw [he] at hk
      exact Option.some.inj hk
  rw [hzero]
  exact Nat.zero_le _

/-- **A record that does not expire.** Both nodes hold it, nobody publishes or
updates it, and after its time to live the second node still serves it, since
the first one sent it again. -/
theorem republished_record_stays : ∃ c,
    (background toyCluster toyKey).Run (holders 1) c ∧
    (∀ loc, ((holders 1).storage loc).ttl = shortTtl) ∧ (holders 1).requests = [] ∧
    (∀ loc entry, ((holders 1).storage loc).data.lookup toyKey.bytes = some entry →
      entry.insertedAt ≤ (holders 1).now) ∧
    (holders 1).now + shortTtl * nanosPerSec < c.world.now ∧
    c.world.live (toyAddr 2) toyKey = some (toyRecord 1) := by
  let c := ((background toyCluster toyKey).replay (refreshOnce 7) ⟨holders 1, []⟩).get
    (by decide +kernel)
  have hc : (background toyCluster toyKey).replay (refreshOnce 7) ⟨holders 1, []⟩ = some c :=
    (Option.some_get _).symm
  refine ⟨c, System.Run.replay _ _ .init hc, holders_ttl (by decide +kernel), rfl,
    holders_stamps (by decide +kernel), ?_, ?_⟩
  · decide +kernel
  · decide +kernel

/-- The second node holds another record and refuses the STORE: both expire. -/
theorem record_expires_unless_stored_conflict : ∃ c,
    (background toyCluster toyKey).Run (holders 2) c ∧
    (holders 2).live (toyAddr 2) toyKey = some (toyRecord 2) ∧
    c.world.answers = [(0, .storeResult .conflict)] ∧
    ∀ loc, c.world.live loc toyKey = none := by
  let c := ((background toyCluster toyKey).replay (refreshOnce 6) ⟨holders 2, []⟩).get
    (by decide +kernel)
  have hc : (background toyCluster toyKey).replay (refreshOnce 6) ⟨holders 2, []⟩ = some c :=
    (Option.some_get _).symm
  have hrun := System.Run.replay _ _ .init hc
  refine ⟨c, hrun, by decide +kernel, ?_, ?_⟩
  · decide +kernel
  · exact record_expires_unless_stored toyCluster toyKey shortTtl (by decide) (holders 2)
      (holders_ttl (by decide +kernel)) (holders_stamps (by decide +kernel))
      (fun req hreq => absurd hreq List.not_mem_nil) hrun (by decide +kernel) (by decide +kernel)

end AuthKademlia.Properties
