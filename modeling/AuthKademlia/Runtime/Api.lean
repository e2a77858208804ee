import AuthKademlia.Runtime.Programs

/-! # The API calls, and whole runs

The specs of GET, SET and UPDATE, and from all specs what holds in every
configuration of every run. -/
namespace AuthKademlia.Runtime
open AuthKademlia.Lib.Async AuthKademlia.Lib.Trace AuthKademlia.Utils AuthKademlia.Storage
open AuthKademlia.AuthHandler AuthKademlia.Protocol AuthKademlia.Crawling AuthKademlia.Network

variable {cl : Cluster} {init : Addr → ForgetfulStorage} {a : Agent} {w : World}
  {srv : Server} {name : String} {key : NodeId} {value : Bytes}

theorem digest_eq (hs : srv.platform = cl.platform) :
    srv.digest name = cl.platform.hashes.digest name := by rw [Server.digest, hs]

/-! ## GET -/

def Got (cl : Cluster) (key : NodeId) (r : Option Bytes) (w : World) : Prop :=
  ∀ v, r = some v → ValidIn cl.platform w.log key v

theorem got_none : Got cl key none w := fun _ h => by cases h

/-- `verify_value`, and the value if it is valid. -/
theorem safe_verifyValue (hs : srv.platform = cl.platform) (hi : Inv cl init w) :
    Safe cl init a (do if ← verifyValue srv name value then return some value else return none)
      (Got cl (srv.digest name)) w := by
  refine (safe_verifyRecord hs hi).seq hi fun ok w₁ _ _ hok => ?_
  split
  · rintro v ⟨⟩
    exact hok ‹_›
  · exact got_none

theorem safe_findFirstValid (hs : srv.platform = cl.platform) (values : List Bytes) :
    ∀ {w : World}, Inv cl init w →
      Safe cl init a (findFirstValid srv name values) (Got cl (srv.digest name)) w := by
  induction values with
  | nil => exact fun _ => got_none
  | cons v vs ih =>
    intro w hi
    refine (safe_verifyRecord hs hi).seq hi fun ok w₁ _ hi₁ hok => ?_
    split
    · rintro v ⟨⟩
      exact hok ‹_›
    · exact ih hi₁

theorem safe_getRemote (hs : srv.platform = cl.platform) (hi : Inv cl init w)
    {found : Option Bytes} :
    Safe cl init a (getRemote srv name found) (Got cl (srv.digest name)) w := by
  rw [getRemote]
  split
  · exact got_none
  refine (safe_any rfl).seq hi fun nearest w₁ _ hi₁ _ => ?_
  split
  · exact got_none
  split
  · exact (safe_any rfl).seq hi₁ fun values w₂ _ hi₂ _ => safe_findFirstValid hs values hi₂
  · refine (safe_any rfl).seq hi₁ fun r w₂ _ hi₂ _ => ?_
    cases r with
    | none => exact got_none
    | some v => exact safe_verifyValue hs hi₂

theorem safe_get (hs : srv.platform = cl.platform) (hi : Inv cl init w) :
    Safe cl init a (Network.get srv name) (Got cl (srv.digest name)) w := by
  refine safe_storageGet.seq hi fun found w₁ _ hi₁ _ => ?_
  cases found with
  | none => exact safe_getRemote hs hi₁
  | some v =>
    dsimp only
    split
    · exact safe_verifyValue hs hi₁
    · exact safe_getRemote hs hi₁

/-- What a GET of the Status List returns won a poll that the call's own copy took
part in. -/
def Polled (srv : Server) (log : List Event) (a : Agent) (key : NodeId) (r : Option Bytes) : Prop :=
  ∀ v, r = some v → ∃ found nearest, Did log a (.storageGet key) found ∧
    Did log a (.findNeighbors key) nearest ∧
    Did log a (.findQuorum key nearest found.toList (readQuorum srv.alpha) (max srv.alpha 1))
      (some v)

theorem polled_none {log : List Event} : Polled srv log a key none := fun _ h => by cases h

theorem Polled.mono {log log' : List Event} {r : Option Bytes} (hp : log <+: log')
    (h : Polled srv log a key r) : Polled srv log' a key r := by
  intro v hv
  obtain ⟨found, nearest, hf, hn, hq⟩ := h v hv
  exact ⟨found, nearest, hf.mono hp, hn.mono hp, hq.mono hp⟩

theorem safe_pollRemote (hs : srv.platform = cl.platform) (hi : Inv cl init w)
    {found : Option Bytes} (hf : Did w.log a (.storageGet (srv.digest statusListKey)) found) :
    Safe cl init a (getRemote srv statusListKey found)
      (fun r w' => Polled srv w'.log a (srv.digest statusListKey) r) w := by
  rw [getRemote]
  split
  · exact polled_none
  refine (safe_any rfl).seq hi fun nearest w₁ hg₁ hi₁ hn => ?_
  split
  · exact polled_none
  rw [if_neg (by simp)]
  refine (safe_any rfl).seq hi₁ fun r w₂ hg₂ hi₂ hq => ?_
  cases r with
  | none => exact polled_none
  | some v =>
    refine (safe_verifyRecord hs hi₂).seq hi₂ fun ok w₃ hg₃ _ _ => ?_
    split
    · rintro v ⟨⟩
      exact ⟨found, nearest, hf.mono (hg₁.log.trans (hg₂.log.trans hg₃.log)),
        hn.mono (hg₂.log.trans hg₃.log), hq.mono hg₃.log⟩
    · exact polled_none

/-- **A GET of the Status List returns what a quorum decided for.** -/
theorem safe_getStatusList (hs : srv.platform = cl.platform) (hi : Inv cl init w) :
    Safe cl init a (Network.get srv statusListKey)
      (fun r w' => Polled srv w'.log a (srv.digest statusListKey) r) w := by
  refine (safe_any rfl).seq hi fun found w₁ _ hi₁ hf => ?_
  cases found with
  | none => exact safe_pollRemote hs hi₁ hf
  | some v =>
    dsimp only
    rw [if_neg (by simp)]
    exact safe_pollRemote hs hi₁ hf

/-! ## SET -/

/-- The addresses of a selected set of replicas. -/
def replicas (a : Agent) (storeLocal : Bool) (remotes : List Node) : List (Option Addr) :=
  (if storeLocal then [some a.loc] else []) ++ remotes.map Node.address

/-- The call selected a set of replicas, and each of them that is honest has held
the record. -/
def Published (cl : Cluster) (init : Addr → ForgetfulStorage) (log : List Event) (a : Agent)
    (key : NodeId) (value : Bytes) : Prop :=
  ∃ lookup storeLocal remotes, Did log a (.select key lookup storeLocal remotes) () ∧
    ∀ addr, some addr ∈ replicas a storeLocal remotes → (cl.server addr).isSome →
      WasHeld init log addr key value

theorem published_of {log : List Event} {lookup : LookupNodes} {storeLocal : Bool}
    {remotes : List Node} (hd : Did log a (.select key lookup storeLocal remotes) ())
    (hl : storeLocal = true → WasHeld init log a.loc key value)
    (hr : ∀ n ∈ remotes, Acks cl init log key value n) : Published cl init log a key value := by
  refine ⟨lookup, storeLocal, remotes, hd, fun addr hmem hh => ?_⟩
  rcases List.mem_append.mp hmem with hmem | hmem
  · split at hmem
    · obtain rfl := Option.some.inj (List.mem_singleton.mp hmem)
      exact hl ‹_›
    · cases hmem
  · obtain ⟨n, hn, haddr⟩ := List.mem_map.mp hmem
    obtain ⟨addr', haddr', hheld⟩ := hr n hn
    obtain rfl := Option.some.inj (haddr'.symm.trans haddr)
    exact hheld hh

theorem safe_discoverPublishNodes (hi : Inv cl init w) :
    Safe cl init a (discoverPublishNodes srv key) (fun _ _ => True) w := by
  rw [discoverPublishNodes]
  split
  · trivial
  refine (safe_any rfl).seq hi fun nearest w₁ _ _ _ => ?_
  split
  · trivial
  · exact (safe_any rfl).imp fun _ _ _ => trivial

theorem safe_checkPublishState (hs : srv.platform = cl.platform) (hi : Inv cl init w) :
    Safe cl init a (checkPublishState srv name value) (fun _ _ => True) w := by
  refine safe_storageGet.seq hi fun found w₁ _ hi₁ _ => ?_
  cases found with
  | some v => trivial
  | none =>
    dsimp only
    split
    · trivial
    refine (safe_any rfl).seq hi₁ fun nearest w₂ _ hi₂ _ => ?_
    split
    · trivial
    refine (safe_any rfl).seq hi₂ fun r w₃ _ hi₃ _ => ?_
    split
    · refine (safe_verifyRecord hs hi₃).seq hi₃ fun ok w₄ _ hi₄ _ => ?_
      split
      · trivial
      · exact (safe_discoverPublishNodes hi₄).seq hi₄ fun _ _ _ _ _ => trivial
    · trivial

/-- The local insert adds at most one acknowledgement, and that only for a record
the node has held. -/
theorem safe_storeLocally (hi : Inv cl init w) (hjob : a.job.isStore = false)
    (hv : ValidIn cl.platform w.log key value) {storeLocal : Bool} {report : SetReport} :
    Safe cl init a (storeLocally storeLocal key value report) (fun r w' =>
      r.expectedReplicas = report.expectedReplicas ∧ ∃ acked : Bool,
        r.acknowledgedReplicas = report.acknowledgedReplicas + acked.toNat ∧
        acked ≤ storeLocal ∧ (acked = true → WasHeld init w'.log a.loc key value)) w := by
  rw [storeLocally]
  split
  · rename_i hlocal
    refine (safe_insertIfAbsent fun {w₁} hg => ⟨hv.mono hg.log, fun _ hst => ?_⟩).seq hi
      fun st w₁ _ _ hst => ⟨by simp, SetReport.isAck (some (StoreStatus.ofWrite st)), by simp,
        by rw [hlocal]; exact Bool.le_true _, fun hack => hst.2 ?_⟩
    · rw [hjob] at hst; cases hst
    · cases st <;> first | exact Or.inl rfl | exact Or.inr rfl | cases hack
  · exact ⟨rfl, false, rfl, Bool.false_le _, fun h => by cases h⟩

/-- **A complete publication reached every selected replica.** -/
theorem safe_setDigestDetailed (hi : Inv cl init w) (hjob : a.job.isStore = false)
    (hv : ValidIn cl.platform w.log key value) {lookup : LookupNodes} :
    Safe cl init a (setDigestDetailed srv key value lookup) (fun out w' => ∀ report,
      out = .complete report → Published cl init w'.log a key value) w := by
  rw [setDigestDetailed]
  split
  · exact fun _ h => by cases h
  obtain ⟨storeLocal, remotes⟩ :=
    selectResponsibleNodes srv.node (.fromId key) lookup.nodes srv.ksize
  refine (safe_any rfl).seq hi fun _ w₁ hg₁ hi₁ hsel => ?_
  have hcut : Safe cl init a (isCutOff remotes) (fun _ _ => True) w₁ := by
    rw [isCutOff]
    split
    · exact (safe_any rfl).imp fun _ _ _ => trivial
    · trivial
  refine hcut.seq hi₁ fun cutOff w₂ hg₂ hi₂ _ => ?_
  refine (safe_storeLocally hi₂ hjob (hv.mono (hg₁.log.trans hg₂.log))).seq hi₂
    fun report w₃ hg₃ hi₃ ⟨hexp, acked, hack, hle, hheld⟩ => ?_
  refine (safe_joinAll (R := fun n r w' => SetReport.isAck r = true →
    Acks cl init w'.log key value n) (fun n r _ _ hg h hr => (h hr).mono hg.log)
    fun n _ => ?_).seq hi₃ fun statuses w₄ hg₄ _ hall => ?_
  · refine (safe_callStoreRpc hi₃).imp fun r _ h hr => h ?_
    rcases r with _ | (_ | _ | _ | _ | _) <;> first | exact Or.inl rfl | exact Or.inr rfl | cases hr
  intro final hfinal
  -- every expected replica is counted, so each of them acknowledged
  have hcount := classifySetReport_complete hfinal
  rw [SetReport.foldl_acknowledged, SetReport.foldl_expected, hexp, hack] at hcount
  have hlen := hall.length_eq
  have hbound : statuses.countP SetReport.isAck ≤ statuses.length := List.countP_le_length
  have hlocal : acked.toNat ≤ storeLocal.toNat := Bool.toNat_le_toNat hle
  have hzero : SetReport.acknowledgedReplicas
      { expectedReplicas := remotes.length + storeLocal.toNat + cutOff.toNat
        unavailableNodes := max lookup.unresponsive cutOff.toNat } = 0 := rfl
  rw [hzero] at hcount
  dsimp only at hcount
  have hfull : statuses.countP SetReport.isAck = statuses.length := by omega
  have hown : acked.toNat = storeLocal.toNat := by omega
  refine published_of (hsel.mono (hg₂.log.trans (hg₃.log.trans hg₄.log))) (fun hl => ?_) ?_
  · refine (hheld ?_).mono hg₄.log
    rw [hl] at hown
    cases acked <;> simp at hown ⊢
  · intro n hn
    obtain ⟨⟨i, hi⟩, rfl⟩ := List.get_of_mem hn
    exact hall.get hi (hlen ▸ hi) (List.countP_eq_length.mp hfull _ (List.get_mem _ _))

theorem safe_setDetailed (hs : srv.platform = cl.platform) (hi : Inv cl init w)
    (hjob : a.job.isStore = false) :
    Safe cl init a (setDetailed srv name value) (fun out w' => ∀ report,
      out = .complete report → Published cl init w'.log a (srv.digest name) value) w := by
  refine (safe_verifyRecord hs hi).seq hi fun ok w₁ _ hi₁ hok => ?_
  split
  · exact fun _ h => by cases h
  rename_i hneg
  have hv := hok (by simpa using hneg)
  split
  · exact fun _ h => by cases h
  refine (safe_checkPublishState hs hi₁).seq hi₁ fun state w₂ hg₂ hi₂ _ => ?_
  have hv₂ := hv.mono hg₂.log
  cases state with
  | missing lookup => exact safe_setDigestDetailed hi₂ hjob hv₂
  | identical =>
    exact (safe_discoverPublishNodes hi₂).seq hi₂ fun lookup w₃ hg₃ hi₃ _ =>
      safe_setDigestDetailed hi₃ hjob (hv₂.mono hg₃.log)
  | conflict => exact fun _ h => by cases h

/-! ## UPDATE -/

theorem safe_updateReplica (hi : Inv cl init w) {isStatusList : Bool} {auth : Option Bytes}
    {n : Node} : Safe cl init a (updateReplica srv isStatusList key value auth n)
      (fun ok w' => ok = true → Acks cl init w'.log key value n) w := by
  rw [updateReplica]
  split
  · exact safe_callStatusListUpdateRpc hi
  refine (safe_callUpdateRpcAnswer hi).seq hi fun r w₁ _ hi₁ hr => ?_
  split
  · exact fun _ => hr rfl
  · refine (safe_callStoreRpc hi₁).seq hi₁ fun status w₂ _ _ hst => ?_
    split
    · exact fun _ => hst (Or.inl rfl)
    · exact fun _ => hst (Or.inr rfl)
    · exact fun h => by cases h
  · exact fun h => by cases h

/-- The call selected its replicas from the nodes its lookup found. -/
def Located (srv : Server) (log : List Event) (a : Agent) (key : NodeId) (storeLocal : Bool)
    (remotes : List Node) : Prop :=
  ∃ nearest lookup, Did log a (.findNeighbors key) nearest ∧
    Did log a (.lookupNodes key nearest) lookup ∧
    Did log a (.select key lookup storeLocal remotes) () ∧
    selectResponsibleNodes srv.node (.fromId key) lookup.nodes srv.ksize = (storeLocal, remotes)

theorem Located.mono {log log' : List Event} {storeLocal : Bool} {remotes : List Node}
    (hp : log <+: log') (h : Located srv log a key storeLocal remotes) :
    Located srv log' a key storeLocal remotes := by
  obtain ⟨nearest, lookup, hn, hl, hs, hchosen⟩ := h
  exact ⟨nearest, lookup, hn.mono hp, hl.mono hp, hs.mono hp, hchosen⟩

/-- The call selected a set of replicas, and a quorum of its consistency group
acknowledged, the own node included if it is in the set. -/
structure Updated (cl : Cluster) (init : Addr → ForgetfulStorage) (srv : Server)
    (log : List Event) (a : Agent) (key : NodeId) (value : Bytes) (storeLocal : Bool)
    (remotes : List Node) (results : List Bool) : Prop where
  located : Located srv log a key storeLocal remotes
  acks : List.Forall₂ (fun n ok => ok = true → Acks cl init log key value n) remotes results
  quorum : quorumMet srv.alpha storeLocal results = true
  own : storeLocal = true → WasHeld init log a.loc key value

theorem Updated.mono {log log' : List Event} {storeLocal : Bool} {remotes : List Node}
    {results : List Bool} (hp : log <+: log')
    (h : Updated cl init srv log a key value storeLocal remotes results) :
    Updated cl init srv log' a key value storeLocal remotes results :=
  ⟨h.located.mono hp, h.acks.imp fun _ _ h hr => (h hr).mono hp, h.quorum,
    fun hl => (h.own hl).mono hp⟩

/-- What an UPDATE must know before it publishes. -/
structure Authorised (cl : Cluster) (log : List Event) (a : Agent) (key : NodeId)
    (value : Bytes) : Prop where
  valid : ValidIn cl.platform log key value
  rotation : key ≠ cl.platform.hashes.digest statusListKey →
    ∃ old, Did log a (.against key old) () ∧
      (old = value ∨ Authorises cl.platform old value a.job.auth)

theorem Authorised.mono {log log' : List Event} (hp : log <+: log')
    (h : Authorised cl log a key value) : Authorised cl log' a key value := by
  refine ⟨h.valid.mono hp, fun hne => ?_⟩
  obtain ⟨old, hd, ho⟩ := h.rotation hne
  exact ⟨old, hd.mono hp, ho⟩

theorem safe_updateDigest (hi : Inv cl init w) {auth : Option Bytes}
    (hau : Authorised cl w.log a (srv.digest name) value) :
    Safe cl init a (updateDigest srv name value auth) (fun ok w' => ok = true →
      ∃ storeLocal remotes results,
        Updated cl init srv w'.log a (srv.digest name) value storeLocal remotes results) w := by
  rw [updateDigest]
  dsimp only
  split
  · exact fun h => by cases h
  refine (safe_any rfl).seq hi fun nearest w₁ hg₁ hi₁ hnear => ?_
  split
  · exact fun h => by cases h
  refine (safe_any rfl).seq hi₁ fun lookup w₂ hg₂ hi₂ hlook => ?_
  rcases hchosen : selectResponsibleNodes srv.node (.fromId (srv.digest name))
    (LookupNodes.nodes lookup) srv.ksize with ⟨storeLocal, remotes⟩
  refine (safe_any rfl).seq hi₂ fun _ w₃ hg₃ hi₃ hsel => ?_
  have hloc : Located srv w₃.log a (srv.digest name) storeLocal remotes :=
    ⟨nearest, lookup, hnear.mono (hg₂.log.trans hg₃.log), hlook.mono hg₃.log, hsel, hchosen⟩
  refine (safe_joinAll (R := fun n ok w' => ok = true →
    Acks cl init w'.log (srv.digest name) value n) (fun n ok _ _ hg h hr => (h hr).mono hg.log)
    fun n _ => safe_updateReplica hi₃).seq hi₃ fun results w₄ hg₄ hi₄ hall => ?_
  split
  · rename_i hquorum
    have hau₄ := hau.mono (hg₁.log.trans (hg₂.log.trans (hg₃.log.trans hg₄.log)))
    have hloc₄ := hloc.mono hg₄.log
    split
    · refine (safe_storageSet fun {w₅} hg₅ => ?_).seq hi₄ fun st w₅ hg₅ _ hst hok => ?_
      · exact ⟨(hau₄.mono hg₅.log).valid, (hau₄.mono hg₅.log).rotation⟩
      · exact ⟨storeLocal, remotes, results, hloc₄.mono hg₅.log,
          hall.imp fun n ok h hr => (h hr).mono hg₅.log, hquorum, fun _ => hst (by simpa using hok)⟩
    · exact fun _ => ⟨storeLocal, remotes, results, hloc₄, hall, hquorum,
        fun hl => absurd hl ‹_›⟩
  · exact fun h => by cases h

/-- The check of `update` against the record that was read. -/
theorem safe_updateAuthorised (hs : srv.platform = cl.platform) {old : Bytes}
    {auth : Option Bytes} (hold : ValidIn cl.platform w.log (srv.digest name) old)
    (hauth : a.job.auth = auth.getD []) :
    Safe cl init a (updateAuthorised srv name value old auth) (fun ok w' => ok = true →
      ValidIn cl.platform w'.log (srv.digest name) value ∧
      (srv.digest name ≠ cl.platform.hashes.digest statusListKey →
        old = value ∨ Authorises cl.platform old value a.job.auth)) w := by
  rw [updateAuthorised]
  split
  · rename_i h
    exact fun _ => ⟨h.2 ▸ hold, fun _ => Or.inl h.2⟩
  split
  · rename_i h
    have hkey : srv.digest name = cl.platform.hashes.digest statusListKey := by
      rw [h.1, digest_eq hs]
    refine (safe_verifyIssuerSigned hs).imp fun ok w' hok hr => ⟨fun _ _ => ?_, fun hne =>
      absurd hkey hne⟩
    rw [ValidFor, if_pos hkey]
    exact hok hr
  · refine (safe_verifyRotation hs).imp fun ok w' hok hr => ?_
    obtain ⟨hau, hv⟩ := hok hr
    exact ⟨hv, fun _ => Or.inr (hauth ▸ hau)⟩

/-- **A successful UPDATE reached a quorum.** -/
theorem safe_update (hs : srv.platform = cl.platform) (hi : Inv cl init w) {auth : Option Bytes}
    (hauth : a.job.auth = auth.getD []) :
    Safe cl init a (Network.update srv name value auth) (fun r w' => r = some true →
      ∃ storeLocal remotes results,
        Updated cl init srv w'.log a (srv.digest name) value storeLocal remotes results) w := by
  refine (safe_get hs hi).seq hi fun found w₁ _ hi₁ hfound => ?_
  cases found with
  | none => exact fun h => by cases h
  | some old =>
    refine (safe_any rfl).seq hi₁ fun _ w₂ hg₂ hi₂ hagainst => ?_
    refine (safe_updateAuthorised hs ((hfound old rfl).mono hg₂.log) hauth).seq hi₂
      fun ok w₃ hg₃ hi₃ hok => ?_
    split
    · exact fun h => by cases h
    rename_i hneg
    obtain ⟨hv, hau⟩ := hok (by simpa using hneg)
    refine (safe_updateDigest hi₃ ⟨hv, fun hne => ⟨old, hagainst.mono hg₃.log, hau hne⟩⟩).seq hi₃
      fun r w₄ _ _ hr h => hr (Option.some.inj h)

/-! ## Runs -/

/-- What the result of a finished task says. -/
structure ResOk (cl : Cluster) (init : Addr → ForgetfulStorage) (a : Agent) (res : Res)
    (w : World) : Prop where
  handled : ∀ {id src msg r}, a.job = .handle id src msg → res = .reply r → Handled init a msg r w
  published : ∀ {name value report}, a.job = .set name value → res = .set (.complete report) →
    Published cl init w.log a (cl.platform.hashes.digest name) value
  updated : ∀ {name value auth srv}, a.job = .update name value auth →
    res = .update (some true) → cl.server a.loc = some srv →
    ∃ storeLocal remotes results,
      Updated cl init srv w.log a (cl.platform.hashes.digest name) value storeLocal remotes results
  polled : ∀ {r srv}, a.job = .get statusListKey → res = .get r → cl.server a.loc = some srv →
    Polled srv w.log a (cl.platform.hashes.digest statusListKey) r

theorem ResOk.mono {res : Res} {w w' : World} (hg : Grows w w') (h : ResOk cl init a res w) :
    ResOk cl init a res w' where
  handled := fun hj hr => (h.handled hj hr).mono hg
  published := fun hj hr => by
    obtain ⟨lookup, sl, rs, hd, hall⟩ := h.published hj hr
    exact ⟨lookup, sl, rs, hd.mono hg.log, fun addr hm hh => (hall addr hm hh).mono hg.log⟩
  updated := fun hj hr hs => by
    obtain ⟨sl, rs, results, hu⟩ := h.updated hj hr hs
    exact ⟨sl, rs, results, hu.mono hg.log⟩
  polled := fun hj hr hs => (h.polled hj hr hs).mono hg.log

theorem safe_start {call : Call} {n : Nat} {p : Routine Res} (hi : Inv cl init w)
    (h : start cl call n w = some (a, p)) : Safe cl init a p (ResOk cl init a) w := by
  obtain ⟨⟨loc, job⟩, hcall, h⟩ := Option.bind_eq_some_iff.mp h
  obtain ⟨srv, hsrv, h⟩ := Option.map_eq_some_iff.mp h
  obtain ⟨rfl, rfl⟩ := Prod.mk.inj h
  have hs := cl.same loc srv hsrv
  cases call with
  | handle id =>
    obtain ⟨req, hreq, hj⟩ := Option.map_eq_some_iff.mp hcall
    obtain ⟨rfl, rfl⟩ := Prod.mk.inj hj
    refine (safe_handleRequest hs hi rfl hreq).seq hi fun r w₁ _ _ hr =>
      ⟨fun hj hr' => ?_, fun hj => by (cases hj), fun hj => by (cases hj), fun hj => by (cases hj)⟩
    cases hj; cases hr'
    exact hr
  | set loc' name value =>
    cases hcall
    refine (safe_setDetailed hs hi rfl).seq hi fun out w₁ _ _ hout =>
      ⟨fun hj => by (cases hj), fun hj hr => ?_, fun hj => by (cases hj), fun hj => by (cases hj)⟩
    cases hj; cases hr
    exact digest_eq hs ▸ hout _ rfl
  | update loc' name value auth =>
    cases hcall
    refine (safe_update hs hi rfl).seq hi fun r w₁ _ _ hr =>
      ⟨fun hj => by (cases hj), fun hj => by (cases hj), fun hj hr' hs' => ?_,
        fun hj => by (cases hj)⟩
    cases hj; cases hr'
    obtain rfl := Option.some.inj (hsrv.symm.trans hs')
    exact digest_eq hs ▸ hr rfl
  | get loc' name =>
    cases hcall
    by_cases hname : name = statusListKey
    · subst hname
      refine (safe_getStatusList hs hi).seq hi fun r w₁ _ _ hr =>
        ⟨fun hj => by (cases hj), fun hj => by (cases hj), fun hj => by (cases hj),
          fun _ hr' hs' => ?_⟩
      cases hr'
      obtain rfl := Option.some.inj (hsrv.symm.trans hs')
      exact digest_eq hs ▸ hr
    · exact (safe_get hs hi).seq hi fun r w₁ _ _ _ =>
        ⟨fun hj => by (cases hj), fun hj => by (cases hj), fun hj => by (cases hj),
          fun hj => by cases hj; exact absurd rfl hname⟩

/-- **Every run** from a fresh world keeps the invariant, and what finished tasks
returned is true of the history. -/
theorem run_inv {w₀ : World} (h₀ : Fresh w₀) {c : (system cl).Config} (h : (system cl).Run w₀ c) :
    Inv cl w₀.storage c.world ∧ ∀ p ∈ c.procs, ∀ res, p.prog.value? = some res →
      ResOk cl w₀.storage p.agent res c.world := by
  obtain ⟨hinv, hsafe⟩ := Logic.run_safe (L := logic cl w₀.storage)
    (Q := fun a res w => ResOk cl w₀.storage a res w) (fun a res _ _ hg h => h.mono hg) h₀.inv
    (fun hi he => env_inv hi he) (fun hi hst => safe_start hi hst) h
  refine ⟨hinv, fun p hp res hres => ?_⟩
  have hs := hsafe p hp
  rw [Prog.eq_ret_of_value? hres] at hs
  exact hs

end AuthKademlia.Runtime
