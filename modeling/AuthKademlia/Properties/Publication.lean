import AuthKademlia.Properties.Rotation

/-! # Publication

Two properties of STORE. A replica takes a new DID record only after the network
check; that fails when the record it held at its first read expires before its
write. And two different records of one key are not both published completely:
every replica keeps the first one. -/
namespace AuthKademlia.Properties
open AuthKademlia.Lib.Async AuthKademlia.Lib.Trace AuthKademlia.Utils AuthKademlia.Storage
open AuthKademlia.AuthHandler AuthKademlia.Protocol AuthKademlia.Network AuthKademlia.Runtime

/-! ## The check of an empty slot -/

/-- What the reads of `key` by a task found. -/
def readsOf (pre : List Event) (a : Agent) (key : NodeId) : List (Option Bytes) :=
  pre.filterMap fun
    | ⟨b, .storageGet k, found, _⟩ => if b = a ∧ k = key then some found else none
    | _ => none

theorem mem_readsOf {pre : List Event} {a : Agent} {key : NodeId} {found : Option Bytes}
    (h : Did pre a (.storageGet key) found) : found ∈ readsOf pre a key := by
  obtain ⟨live, hmem⟩ := h
  exact List.mem_filterMap.mpr ⟨_, hmem, if_pos ⟨rfl, rfl⟩⟩

/-- The key of an `insert_if_absent`. -/
def insertKey? : Op → Option NodeId
  | .insertIfAbsent key _ => some key
  | _ => none

/-- A STORE handler that found a live record still has one when it writes. -/
def StillLive (pre : List Event) (e : Event) : Prop :=
  ∀ key ∈ insertKey? e.op, e.agent.job.isStore = true →
    ∀ found ∈ readsOf pre e.agent key, found ≠ none → e.live ≠ none

instance (pre : List Event) (e : Event) : Decidable (StillLive pre e) :=
  inferInstanceAs (Decidable (∀ key ∈ insertKey? e.op, _))

/-- **No DID record enters an empty slot unchecked**, in every run in which no
handler loses the record it found: a STORE answered with `Stored` ran the network
check for this key and value before its write, and it found no other record. -/
theorem stored_after_check (cl : Cluster) {w₀ : World} (h₀ : Fresh w₀) {c : (system cl).Config}
    (hrun : (system cl).Run w₀ c) (hlive : Every StillLive c.world.log)
    {p : (system cl).Proc} (hp : p ∈ c.procs) {id : Nat} {src : Addr} {sender key : NodeId}
    {value : Bytes} (hjob : Agent.job p.agent = .handle id src (.store sender key value))
    (hkey : key ≠ cl.platform.hashes.digest statusListKey)
    (hres : p.prog.value? = some (.reply (some (.storeResult .stored)))) :
    ∃ pre live post,
      c.world.log = pre ++ ⟨p.agent, .insertIfAbsent key value, .stored, live⟩ :: post ∧
      Did pre p.agent (.networkCopy key value) .noneOrSame := by
  obtain ⟨hinv, hdone⟩ := run_inv h₀ hrun
  obtain ⟨live, hmem⟩ := ((hdone p hp _ hres).handled hjob rfl).2 sender key value rfl rfl
  obtain ⟨pre, post, hlog⟩ := List.append_of_mem hmem
  refine ⟨pre, live, post, hlog, ?_⟩
  have hstore : Job.isStore (Agent.job p.agent) = true := by rw [hjob]; rfl
  obtain ⟨found, hread, hcheck⟩ := (hinv.justified _ _ _ hlog).2 hkey hstore
  have hnone : live = none := (hinv.truthful _ _ _ hlog).1 rfl
  -- a record found at the read would still be live, but the slot was empty
  refine hcheck ?_
  by_contra hfound
  exact hlive _ _ _ hlog key rfl hstore found (mem_readsOf hread) hfound hnone

/-- A STORE for another key of the DID arrives while `toyRecord 1` is live; it
expires between the read and the write. -/
def expiryRace : List (system toyCluster).Move :=
  [.env (.inject ⟨toyAddr 7, toyAddr 1, .store (filledId 7) toyKey (toyRecord 2)⟩),
    .start (.handle 0), go 0 {}, go 0 {}, go 0 {}, go 0 {}, .env (.advance 2000000000)] ++
    List.replicate 3 (go 0 {})

/-- All nodes hold `toyRecord 1`, for one second. -/
def holdingForASecond : World :=
  toyWorld ((ForgetfulStorage.withMaxStorageBytes 1 1000).set 0 toyKey.bytes (toyRecord 1)).2

def asksNetwork (e : Event) : Bool :=
  match e.op with
  | .networkCopy _ _ => true
  | _ => false

/-- **The expiry race.** The handler answers `Stored`, and no check was ever run. -/
theorem stored_without_check : ∃ c p, toyRun holdingForASecond expiryRace = some c ∧
    p ∈ c.procs ∧
    Agent.job p.agent = .handle 0 (toyAddr 7) (.store (filledId 7) toyKey (toyRecord 2)) ∧
    p.prog.value? = some (.reply (some (.storeResult .stored))) ∧
    toyKey ≠ toyPlatform.hashes.digest statusListKey ∧
    ∀ a key value copy, ¬ Did c.world.log a (.networkCopy key value) copy := by
  obtain ⟨c, hc, p, hp, hjob, hres, hnone⟩ :
      ∃ c ∈ toyRun holdingForASecond expiryRace, ∃ p ∈ c.procs[0]?,
        Agent.job p.agent = .handle 0 (toyAddr 7) (.store (filledId 7) toyKey (toyRecord 2)) ∧
        p.prog.value? = some (.reply (some (.storeResult .stored))) ∧
        c.world.log.any asksNetwork = false := by
    decide +kernel
  refine ⟨c, p, hc, List.mem_of_getElem? hp, hjob, hres, by decide +kernel, ?_⟩
  rintro a key value copy ⟨live, hmem⟩
  exact absurd (List.any_eq_false.mp hnone _ hmem) (by simp [asksNetwork])

theorem stored_after_check_oneStore : ∃ c p, toyRun (toyWorld emptyStore) oneStore = some c ∧
    p ∈ c.procs ∧ p.prog.value? = some (.reply (some (.storeResult .stored))) ∧
    ∃ pre live post,
      c.world.log = pre ++ ⟨p.agent, .insertIfAbsent toyKey (toyRecord 1), .stored, live⟩ :: post ∧
      Did pre p.agent (.networkCopy toyKey (toyRecord 1)) .noneOrSame := by
  obtain ⟨c, hc, p, hp, hres, hjob, hlive⟩ :
      ∃ c ∈ toyRun (toyWorld emptyStore) oneStore, ∃ p ∈ c.procs[0]?,
        p.prog.value? = some (.reply (some (.storeResult .stored))) ∧
        Agent.job p.agent = .handle 0 (toyAddr 7) (.store (filledId 7) toyKey (toyRecord 1)) ∧
        Every StillLive c.world.log := by
    decide +kernel
  have hp := List.mem_of_getElem? hp
  exact ⟨c, p, hc, hp, hres, stored_after_check toyCluster (fresh_toyWorld _) (run_of_toyRun hc)
    hlive hp hjob (by decide +kernel) hres⟩

/-! ## Two publications of one key -/

/-- The sets of replicas a task selected for `key`. -/
def selections (log : List Event) (a : Agent) (key : NodeId) : List (Bool × List Node) :=
  log.filterMap fun e => match e.op with
    | .select k _ storeLocal remotes =>
      if e.agent = a ∧ k = key then some (storeLocal, remotes) else none
    | _ => none

theorem mem_selections {log : List Event} {a : Agent} {key : NodeId} {lookup : Crawling.LookupNodes}
    {storeLocal : Bool} {remotes : List Node}
    (h : Did log a (.select key lookup storeLocal remotes) ()) :
    (storeLocal, remotes) ∈ selections log a key := by
  obtain ⟨live, hmem⟩ := h
  exact List.mem_filterMap.mpr ⟨_, hmem, by simp⟩

/-- The entry of `key` at `loc` does not expire: every operation on it finds the
record last written there. -/
def NoExpiry (init : Addr → ForgetfulStorage) (loc : Addr) (key : NodeId) (log : List Event) :
    Prop :=
  Every (fun pre e => e.agent.loc = loc → e.op.key? = some key →
    lastWritten init pre loc key = none ∨ e.live = lastWritten init pre loc key) log

instance (init : Addr → ForgetfulStorage) (loc : Addr) (key : NodeId) (log : List Event) :
    Decidable (NoExpiry init loc key log) := inferInstanceAs (Decidable (Every _ log))

/-- The event updates `key` at `loc`. -/
def updates (loc : Addr) (key : NodeId) (e : Event) : Bool :=
  match e.op with
  | .storageSet k _ => e.agent.loc = loc ∧ k = key
  | _ => false

variable {cl : Cluster} {init : Addr → ForgetfulStorage} {w : World} {loc : Addr} {key : NodeId}

theorem live_of_noExpiry (hexp : NoExpiry init loc key w.log) {pre post : List Event} {e : Event}
    (hlog : w.log = pre ++ e :: post) {x y : Bytes} (hx : lastWritten init pre loc key = some x)
    (hy : e.wrote loc key = some y) : e.live = some x := by
  obtain ⟨hloc, st, -, he⟩ := wrote_cases hy
  have hk : e.op.key? = some key := by rcases he with he | he <;> rw [he] <;> rfl
  rcases hexp pre e post hlog hloc hk with h | h
  · rw [hx] at h; cases h
  · rw [h, hx]

theorem write_of_noExpiry (hw : Inv cl init w) (hexp : NoExpiry init loc key w.log)
    {pre post : List Event} {e : Event} (hlog : w.log = pre ++ e :: post) {x y : Bytes}
    (hx : lastWritten init pre loc key = some x) (hy : e.wrote loc key = some y) :
    e.agent.loc = loc ∧ e.op = .storageSet key y ∨ x = y := by
  have hlive := live_of_noExpiry hexp hlog hx hy
  rcases (write_over_live hw hlog hy hlive).2 with h | ⟨hloc, st, -, he⟩
  · exact Or.inr h
  · exact Or.inl ⟨hloc, by rw [he]⟩

theorem moves_eq (hw : Inv cl init w) (hexp : NoExpiry init loc key w.log)
    (hup : ∀ e ∈ w.log, updates loc key e = false) :
    Moves (Event.wrote loc key) ((init loc).held key.bytes) Eq w.log := by
  intro pre e post hlog x y hx hy
  rcases write_of_noExpiry hw hexp hlog hx hy with ⟨hloc, hop⟩ | h
  · have hno := hup e (by simp [hlog])
    rw [updates, hop] at hno
    simp [hloc] at hno
  · exact h

/-- **Two different records of one key are never both published completely**, if
the sets of replicas that the two publications selected share an honest one whose
entry of the key does not expire and is not updated. -/
theorem publications_exclusive (cl : Cluster) {w₀ : World} (h₀ : Fresh w₀)
    {c : (system cl).Config} (hrun : (system cl).Run w₀ c) {p q : (system cl).Proc}
    (hp : p ∈ c.procs) (hq : q ∈ c.procs) {name : String} {v v' : Bytes} (hne : v ≠ v')
    (hpjob : Agent.job p.agent = .set name v) (hqjob : Agent.job q.agent = .set name v')
    {out out' : SetOutcome} (hpres : p.prog.value? = some (.set out))
    (hqres : q.prog.value? = some (.set out')) {R : Addr} (hhonest : (cl.server R).isSome)
    (hpR : ∀ s ∈ selections c.world.log p.agent (cl.platform.hashes.digest name),
      some R ∈ replicas p.agent s.1 s.2)
    (hqR : ∀ s ∈ selections c.world.log q.agent (cl.platform.hashes.digest name),
      some R ∈ replicas q.agent s.1 s.2)
    (hexp : NoExpiry w₀.storage R (cl.platform.hashes.digest name) c.world.log)
    (hup : ∀ e ∈ c.world.log, updates R (cl.platform.hashes.digest name) e = false) :
    ¬ ((∃ report, out = .complete report) ∧ ∃ report', out' = .complete report') := by
  rintro ⟨⟨report, rfl⟩, report', rfl⟩
  obtain ⟨hinv, hdone⟩ := run_inv h₀ hrun
  obtain ⟨_, sl, rs, hsel, hall⟩ := (hdone p hp _ hpres).published hpjob rfl
  obtain ⟨_, sl', rs', hsel', hall'⟩ := (hdone q hq _ hqres).published hqjob rfl
  obtain ⟨pre, hpre, hv⟩ := hall R (hpR _ (mem_selections hsel)) hhonest
  obtain ⟨pre', hpre', hv'⟩ := hall' R (hqR _ (mem_selections hsel')) hhonest
  -- the shared replica has held both records, and it keeps the first one
  rcases (moves_eq hinv hexp hup).comparable hpre hpre' hv hv' with h | h
  · exact hne h
  · exact hne h.symm

/-- A publication at the node `port`, up to the messages to the replicas 3 and 2.
The lookup finds no record. -/
def publish (i : Nat) (port : UInt16) (value : Bytes) : List (system toyCluster).Move :=
  [.start (.set (toyAddr port) "abc" value), go i {}, go i {}, go i {}, go i {},
    go i { nodes := [toyNode 3] }, go i { lookup := ⟨[toyNode 2, toyNode 3], 0⟩ }, go i {},
    .step i [0] {}, .step i [1] {}]

/-- The node at position `k` in the set answers, the call hears it. -/
def answered (i k : Nat) (status : StoreStatus) : (system toyCluster).Move :=
  .step i [k] { answer := some (.storeResult status) }

/-- The nodes 5 and 7 publish different records. The replicas take the first one
and refuse the second one. -/
def twoPublications : List (system toyCluster).Move :=
  publish 0 5 (toyRecord 1) ++ publish 1 7 (toyRecord 2) ++
    [.start (.handle 0), .start (.handle 1), .start (.handle 2), .start (.handle 3)] ++
    [go 2 {}, go 2 { copy := .noneOrSame }] ++ List.replicate 6 (go 2 {}) ++
    [go 3 {}, go 3 { copy := .noneOrSame }] ++ List.replicate 6 (go 3 {}) ++
    List.replicate 6 (go 4 {}) ++ List.replicate 6 (go 5 {}) ++
    [answered 0 0 .stored, answered 0 1 .stored, go 0 {}] ++
    [answered 1 0 .conflict, answered 1 1 .conflict, go 1 {}]

def published (res : Option Res) : Option SetOutcome :=
  match res with
  | some (.set out) => some out
  | _ => none

theorem value_of_published {res : Option Res} {out : SetOutcome} (h : published res = some out) :
    res = some (.set out) := by
  unfold published at h
  split at h
  · rw [Option.some.inj h]
  · cases h

theorem publications_exclusive_twoPublications : ∃ c p q out out',
    toyRun (toyWorld emptyStore) twoPublications = some c ∧ p ∈ c.procs ∧ q ∈ c.procs ∧
    p.prog.value? = some (.set out) ∧ q.prog.value? = some (.set out') ∧
    (∃ report, out = .complete report) ∧ ¬ ∃ report, out' = .complete report := by
  let out : SetOutcome := .complete { expectedReplicas := 2, storedReplicas := 2 }
  let out' : SetOutcome :=
    .rejected .replicaConflict { expectedReplicas := 2, conflictRejections := 2 }
  obtain ⟨c, hc, p, hp, q, hq, hpout, hqout, hpjob, hqjob, hR, hexp, hup⟩ :
      ∃ c ∈ toyRun (toyWorld emptyStore) twoPublications, ∃ p ∈ c.procs[0]?, ∃ q ∈ c.procs[1]?,
        published p.prog.value? =
          some (.complete { expectedReplicas := 2, storedReplicas := 2 }) ∧
        published q.prog.value? = some
          (.rejected .replicaConflict { expectedReplicas := 2, conflictRejections := 2 }) ∧
        Agent.job p.agent = .set "abc" (toyRecord 1) ∧
        Agent.job q.agent = .set "abc" (toyRecord 2) ∧
        (∀ a ∈ [p.agent, q.agent], ∀ s ∈ selections c.world.log a toyKey,
          some (toyAddr 3) ∈ replicas a s.1 s.2) ∧
        NoExpiry (toyWorld emptyStore).storage (toyAddr 3) toyKey c.world.log ∧
        ∀ e ∈ c.world.log, updates (toyAddr 3) toyKey e = false := by
    decide +kernel
  have hp := List.mem_of_getElem? hp
  have hq := List.mem_of_getElem? hq
  have hpres : p.prog.value? = some (.set out) := value_of_published hpout
  have hqres : q.prog.value? = some (.set out') := value_of_published hqout
  have hexcl := publications_exclusive toyCluster (fresh_toyWorld emptyStore) (run_of_toyRun hc)
    hp hq (by simp [toyRecord]) hpjob hqjob hpres hqres rfl
    (hR _ List.mem_cons_self) (hR _ (List.mem_cons_of_mem _ List.mem_cons_self)) hexp hup
  exact ⟨c, p, q, out, out', hc, hp, hq, hpres, hqres, ⟨_, rfl⟩, fun h => hexcl ⟨⟨_, rfl⟩, h⟩⟩

end AuthKademlia.Properties
