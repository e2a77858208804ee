import AuthKademlia.Lib.Quorum
import AuthKademlia.Properties.Publication

/-! # Conflicting rotations

An UPDATE succeeds when a majority of its consistency group acknowledged it. Two
majorities of one group share a replica, but that replica may acknowledge both:
its local commit does not look at what it replaces. With writes that still find
the record they were checked against, and fresh keys, it acknowledges one only. -/
namespace AuthKademlia.Properties
open AuthKademlia.Lib.Async AuthKademlia.Lib.Trace AuthKademlia.Lib.Quorum AuthKademlia.Utils
open AuthKademlia.Storage AuthKademlia.AuthHandler AuthKademlia.Protocol AuthKademlia.Network
open AuthKademlia.Runtime

/-- The consistency group of an update: the own replica if it is in the set, and
the closest remote ones, up to `alpha`. -/
def consistencyGroup (alpha : Nat) (a : Agent) (storeLocal : Bool) (remotes : List Node) :
    List (Option Addr) :=
  replicas a storeLocal (remotes.take (alpha - storeLocal.toNat))

variable {cl : Cluster} {init : Addr → ForgetfulStorage} {w : World} {a : Agent} {loc : Addr}
  {key : NodeId} {value : Bytes}

theorem majority_of_quorumMet {alpha : Nat} {storeLocal : Bool} {remotes : List Node}
    {results : List Bool} {p : Option Addr → Bool}
    (hlocal : storeLocal = true → p (some a.loc) = true)
    (hacks : List.Forall₂ (fun n ok => ok = true → p n.address = true) remotes results)
    (h : quorumMet alpha storeLocal results = true) :
    (consistencyGroup alpha a storeLocal remotes).length / 2 + 1 ≤
      (consistencyGroup alpha a storeLocal remotes).countP p := by
  have hlen := hacks.length_eq
  have hcount := count_true_le_countP
    (List.forall₂_map_left_iff.mpr (List.forall₂_take (alpha - storeLocal.toNat) hacks))
  have hmaj := of_decide_eq_true (Bool.and_eq_true_iff.mp h).2
  have htake : results.take (min (alpha - storeLocal.toNat) results.length) =
      results.take (alpha - storeLocal.toNat) := by
    rw [← List.take_take, List.take_length]
  rw [primaryRemoteCount, htake] at hmaj
  rw [consistencyGroup, replicas, List.length_append, List.countP_append, List.length_map,
    List.length_take, hlen]
  cases storeLocal with
  | true => simp [hlocal rfl] at hmaj hcount ⊢; omega
  | false => simp at hmaj hcount ⊢; omega

open Classical in
/-- The replica has held the record, if it is honest. -/
noncomputable def hasHeld (cl : Cluster) (init : Addr → ForgetfulStorage) (log : List Event)
    (key : NodeId) (value : Bytes) (x : Option Addr) : Bool :=
  decide (∀ R, x = some R → (cl.server R).isSome → WasHeld init log R key value)

open Classical in
theorem hasHeld_iff {log : List Event} {x : Option Addr} :
    hasHeld cl init log key value x = true ↔
      ∀ R, x = some R → (cl.server R).isSome → WasHeld init log R key value := by
  rw [hasHeld, decide_eq_true_iff]

/-- A successful update was held by a majority of its consistency group, as far
as the group is honest. -/
theorem majority_of_updated {srv : Server} {log : List Event} {storeLocal : Bool}
    {remotes : List Node} {results : List Bool}
    (h : Updated cl init srv log a key value storeLocal remotes results) :
    (consistencyGroup srv.alpha a storeLocal remotes).length / 2 + 1 ≤
      (consistencyGroup srv.alpha a storeLocal remotes).countP
        (hasHeld cl init log key value) := by
  refine majority_of_quorumMet (fun hl => ?_) (h.acks.imp fun n ok hn hok => ?_) h.quorum
  · refine hasHeld_iff.mpr fun R hR _ => ?_
    cases hR
    exact h.own hl
  · obtain ⟨addr, haddr, hheld⟩ := hn hok
    refine hasHeld_iff.mpr fun R hR hh => ?_
    rw [haddr] at hR
    cases hR
    exact hheld hh

theorem moves_of_noExpiry (hw : Inv cl init w)
    (hkey : key ≠ cl.platform.hashes.digest statusListKey) {version : Bytes → Nat}
    (hrank : Ranked cl.platform version w.log) (hfresh : Every (FreshWrite cl) w.log)
    (hexp : NoExpiry init loc key w.log) :
    Moves (Event.wrote loc key) ((init loc).held key.bytes) (Later version) w.log := by
  intro pre e post hlog x y hx hy
  exact write_later hw hkey hrank hlog (hfresh _ _ _ hlog) hy (live_of_noExpiry hexp hlog hx hy)

/-- **Conflicting rotations do not both succeed**, in every run in which each
UPDATE write finds the record it was checked against and keys are fresh, so that
the two records are one version: two updates with the same consistency group of
honest replicas, whose entries do not expire. -/
theorem updates_exclusive (cl : Cluster) {w₀ : World} (h₀ : Fresh w₀) {c : (system cl).Config}
    (hrun : (system cl).Run w₀ c) (hfresh : Every (FreshWrite cl) c.world.log)
    {version : Bytes → Nat} (hrank : Ranked cl.platform version c.world.log)
    {p q : (system cl).Proc} (hp : p ∈ c.procs) (hq : q ∈ c.procs) {name : String} {v v' : Bytes}
    {auth auth' : Option Bytes} (hne : v ≠ v') (hversion : version v = version v')
    (hkey : cl.platform.hashes.digest name ≠ cl.platform.hashes.digest statusListKey)
    (hpjob : Agent.job p.agent = .update name v auth)
    (hqjob : Agent.job q.agent = .update name v' auth') {r r' : Option Bool}
    (hpres : p.prog.value? = some (.update r)) (hqres : q.prog.value? = some (.update r'))
    {srv srv' : Server} (hpsrv : cl.server (Agent.loc p.agent) = some srv)
    (hqsrv : cl.server (Agent.loc q.agent) = some srv')
    (hgroup : ∀ s ∈ selections c.world.log p.agent (cl.platform.hashes.digest name),
      ∀ s' ∈ selections c.world.log q.agent (cl.platform.hashes.digest name),
      (consistencyGroup srv.alpha p.agent s.1 s.2).Perm
        (consistencyGroup srv'.alpha q.agent s'.1 s'.2))
    (hhonest : ∀ s ∈ selections c.world.log p.agent (cl.platform.hashes.digest name),
      ∀ x ∈ consistencyGroup srv.alpha p.agent s.1 s.2, ∃ R, x = some R ∧ (cl.server R).isSome ∧
        NoExpiry w₀.storage R (cl.platform.hashes.digest name) c.world.log) :
    ¬ (r = some true ∧ r' = some true) := by
  rintro ⟨rfl, rfl⟩
  obtain ⟨hinv, hdone⟩ := run_inv h₀ hrun
  obtain ⟨_, _, _, hu⟩ := (hdone p hp _ hpres).updated hpjob rfl hpsrv
  obtain ⟨_, _, _, hu'⟩ := (hdone q hq _ hqres).updated hqjob rfl hqsrv
  obtain ⟨_, _, -, -, hsel, -⟩ := hu.located
  obtain ⟨_, _, -, -, hsel', -⟩ := hu'.located
  have hs := mem_selections hsel
  -- the replica where the majorities meet has held both records
  obtain ⟨x, hx, hv, hv'⟩ := majorities_meet (hgroup _ hs _ (mem_selections hsel'))
    (majority_of_updated hu) (majority_of_updated hu')
  obtain ⟨R, rfl, hR, hexp⟩ := hhonest _ hs x hx
  obtain ⟨pre, hpre, hv⟩ := hasHeld_iff.mp hv R rfl hR
  obtain ⟨pre', hpre', hv'⟩ := hasHeld_iff.mp hv' R rfl hR
  have hmoves := moves_of_noExpiry hinv hkey hrank hfresh hexp
  rcases hmoves.comparable hpre hpre' hv hv' with (h | h) | (h | h)
  · exact hne h
  · omega
  · exact hne h.symm
  · omega

/-! ## Two runs -/

/-- An update at the node `port`, up to its message to the other replica. -/
def rotate (i : Nat) (port other : UInt16) (value : Bytes) : List (system toyCluster).Move :=
  .start (.update (toyAddr port) "abc" value (some [1])) :: List.replicate 6 (go i {}) ++
    [go i { nodes := [toyNode other] }, go i { lookup := ⟨[toyNode other], 0⟩ }, go i {},
      .step i [0] {}]

/-- The call hears an answer of its only remote replica. -/
def hears (i : Nat) (msg : RpcMessage) : (system toyCluster).Move :=
  .step i [0] { answer := some msg }

/-- The replicas 3 and 2 rotate `toyRecord 1` at the same time, to the keys 2 and
3. Each acknowledges the other's update before it commits its own. -/
def crossedUpdates : List (system toyCluster).Move :=
  rotate 0 3 2 (toyRecord 2) ++ rotate 1 2 3 (toyRecord 3) ++
    [.start (.handle 0), .start (.handle 1)] ++ List.replicate 6 (go 2 {}) ++
    List.replicate 6 (go 3 {}) ++ [hears 0 (.updateResult true), go 0 {}, go 0 {}] ++
    [hears 1 (.updateResult true), go 1 {}, go 1 {}]

/-- The same updates; the first one commits before the second one arrives, which
is refused as an update and then as a STORE. -/
def orderedUpdates : List (system toyCluster).Move :=
  rotate 0 3 2 (toyRecord 2) ++ rotate 1 2 3 (toyRecord 3) ++
    [.start (.handle 0), .start (.handle 1)] ++ List.replicate 6 (go 2 {}) ++
    [hears 0 (.updateResult true), go 0 {}, go 0 {}] ++ List.replicate 4 (go 3 {}) ++
    [hears 1 (.updateResult false), .step 1 [0] {}, .start (.handle 2)] ++
    List.replicate 6 (go 4 {}) ++ [hears 1 (.storeResult .conflict), go 1 {}]

def updateResult (res : Option Res) : Option (Option Bool) :=
  match res with
  | some (.update r) => some r
  | _ => none

theorem value_of_updateResult {res : Option Res} {r : Option Bool}
    (h : updateResult res = some r) : res = some (.update r) := by
  unfold updateResult at h
  split at h
  · rw [Option.some.inj h]
  · cases h

theorem authorises_one (new : Bytes) : Authorises toyPlatform (toyRecord 1) new [1] :=
  ⟨_, _, rfl, rfl, rfl⟩

/-- **The crossed updates.** Both replicas hold `toyRecord 1`, which authorises
both records; nothing expires; the consistency groups are the same two honest
replicas; and both calls succeed. -/
theorem crossed_updates_both_succeed : ∃ c p q,
    toyRun holdingOne crossedUpdates = some c ∧ p ∈ c.procs ∧ q ∈ c.procs ∧
    Agent.job p.agent = .update "abc" (toyRecord 2) (some [1]) ∧
    Agent.job q.agent = .update "abc" (toyRecord 3) (some [1]) ∧
    Authorises toyPlatform (toyRecord 1) (toyRecord 2) [1] ∧
    Authorises toyPlatform (toyRecord 1) (toyRecord 3) [1] ∧ toyRecord 2 ≠ toyRecord 3 ∧
    (∀ s ∈ selections c.world.log p.agent toyKey, ∀ s' ∈ selections c.world.log q.agent toyKey,
      (consistencyGroup 2 p.agent s.1 s.2).Perm (consistencyGroup 2 q.agent s'.1 s'.2)) ∧
    (∀ R ∈ [toyAddr 2, toyAddr 3], (toyCluster.server R).isSome ∧
      (holdingOne.storage R).held toyKey.bytes = some (toyRecord 1) ∧
      NoExpiry holdingOne.storage R toyKey c.world.log) ∧
    p.prog.value? = some (.update (some true)) ∧ q.prog.value? = some (.update (some true)) := by
  obtain ⟨c, hc, p, hp, q, hq, hpjob, hqjob, hgroup, hheld, hpres, hqres⟩ :
      ∃ c ∈ toyRun holdingOne crossedUpdates, ∃ p ∈ c.procs[0]?, ∃ q ∈ c.procs[1]?,
        Agent.job p.agent = .update "abc" (toyRecord 2) (some [1]) ∧
        Agent.job q.agent = .update "abc" (toyRecord 3) (some [1]) ∧
        (∀ s ∈ selections c.world.log p.agent toyKey, ∀ s' ∈ selections c.world.log q.agent toyKey,
          (consistencyGroup 2 p.agent s.1 s.2).Perm (consistencyGroup 2 q.agent s'.1 s'.2)) ∧
        (∀ R ∈ [toyAddr 2, toyAddr 3], (toyCluster.server R).isSome ∧
          (holdingOne.storage R).held toyKey.bytes = some (toyRecord 1) ∧
          NoExpiry holdingOne.storage R toyKey c.world.log) ∧
        p.prog.value? = some (.update (some true)) ∧
        q.prog.value? = some (.update (some true)) := by
    decide +kernel
  exact ⟨c, p, q, hc, List.mem_of_getElem? hp, List.mem_of_getElem? hq, hpjob, hqjob,
    authorises_one _, authorises_one _, by simp [toyRecord], hgroup, hheld, hpres, hqres⟩

theorem updates_exclusive_orderedUpdates : ∃ c p q,
    toyRun holdingOne orderedUpdates = some c ∧ p ∈ c.procs ∧ q ∈ c.procs ∧
    p.prog.value? = some (.update (some true)) ∧ q.prog.value? = some (.update (some false)) ∧
    ¬ (some true = some true ∧ some false = some true) := by
  obtain ⟨c, hc, p, hp, q, hq, hpres, hqres, hpjob, hqjob, hploc, hqloc, hfresh, hup, hgroup,
      hhonest, hexp⟩ :
      ∃ c ∈ toyRun holdingOne orderedUpdates, ∃ p ∈ c.procs[0]?, ∃ q ∈ c.procs[1]?,
        p.prog.value? = some (.update (some true)) ∧
        q.prog.value? = some (.update (some false)) ∧
        Agent.job p.agent = .update "abc" (toyRecord 2) (some [1]) ∧
        Agent.job q.agent = .update "abc" (toyRecord 3) (some [1]) ∧
        Agent.loc p.agent = toyAddr 3 ∧ Agent.loc q.agent = toyAddr 2 ∧
        Every (FreshWrite toyCluster) c.world.log ∧
        c.world.log.all (goesUp fun n => min n 2) = true ∧
        (∀ s ∈ selections c.world.log p.agent toyKey, ∀ s' ∈ selections c.world.log q.agent toyKey,
          (consistencyGroup 2 p.agent s.1 s.2).Perm (consistencyGroup 2 q.agent s'.1 s'.2)) ∧
        (∀ s ∈ selections c.world.log p.agent toyKey, ∀ x ∈ consistencyGroup 2 p.agent s.1 s.2,
          x = some (toyAddr 2) ∨ x = some (toyAddr 3)) ∧
        ∀ R ∈ [toyAddr 2, toyAddr 3], NoExpiry holdingOne.storage R toyKey c.world.log := by
    decide +kernel
  have hp := List.mem_of_getElem? hp
  have hq := List.mem_of_getElem? hq
  have hpsrv : toyCluster.server (Agent.loc p.agent) = toyCluster.server (toyAddr 3) := by
    rw [hploc]
  have hqsrv : toyCluster.server (Agent.loc q.agent) = toyCluster.server (toyAddr 2) := by
    rw [hqloc]
  -- the keys 2 and 3 are one version, both follow the key 1
  refine ⟨c, p, q, hc, hp, hq, hpres, hqres, updates_exclusive toyCluster (fresh_toyWorld _)
    (run_of_toyRun hc) hfresh (ranked_toy (f := fun n => min n 2) hup)
    hp hq (by decide) (by decide +kernel) (by decide) hpjob hqjob hpres hqres hpsrv hqsrv
    hgroup fun s hs x hx => ?_⟩
  rcases hhonest s hs x hx with rfl | rfl
  · exact ⟨_, rfl, rfl, hexp _ (by simp)⟩
  · exact ⟨_, rfl, rfl, hexp _ (by simp)⟩

end AuthKademlia.Properties
