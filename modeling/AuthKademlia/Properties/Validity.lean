import AuthKademlia.Runtime.Api

/-! # Stores hold valid records only

Every write of every task is justified by a verification the task did before, so
whatever a store holds in a run from empty stores is valid for its key. -/
namespace AuthKademlia.Properties
open AuthKademlia.Lib.Async AuthKademlia.Lib.Trace AuthKademlia.Utils AuthKademlia.Storage
open AuthKademlia.AuthHandler AuthKademlia.Protocol AuthKademlia.Runtime

variable {cl : Cluster} {init : Addr → ForgetfulStorage} {w : World}

theorem validIn_of_wrote (hw : Inv cl init w) {pre post : List Event} {e : Event} {loc : Addr}
    {key : NodeId} {v : Bytes} (hlog : w.log = pre ++ e :: post) (h : e.wrote loc key = some v) :
    ValidIn cl.platform w.log key v := by
  have hj := hw.justified pre e post hlog
  have hpre : pre <+: w.log := hlog ▸ List.prefix_append _ _
  obtain ⟨-, st, -, he | he⟩ := wrote_cases h <;>
  · rw [he] at hj
    exact hj.1.mono hpre

/-- **Stored records are valid.** In every configuration of a run from empty
stores, each entry of each honest node's store is under a key of the key space
and valid for it. -/
theorem stored_records_valid (cl : Cluster) (hP : StatusKeyApart cl.platform) {w₀ : World}
    (hfresh : Fresh w₀) (hempty : ∀ loc, (w₀.storage loc).data = ∅) {c : (system cl).Config}
    (hrun : (system cl).Run w₀ c) (hcol : NoCollision cl.platform c.world.log) {loc : Addr}
    {k : Bytes} {e : Entry} (he : (c.world.storage loc).data.lookup k = some e) :
    ∃ key : NodeId, key.bytes = k ∧ ValidFor cl.platform key e.value := by
  obtain ⟨hinv, -⟩ := run_inv hfresh hrun
  have hinit : ∀ loc k, (w₀.storage loc).held k = none := by
    intro loc k
    simp [ForgetfulStorage.held, hempty]
  have hheld : (c.world.storage loc).held k = some e.value := by
    rw [ForgetfulStorage.held, he, Option.map_some]
  have hlen : k.length = idLen := by
    refine (hinv.keys loc k _ hheld).resolve_left ?_
    rw [hinit]
    simp
  refine ⟨⟨k, hlen⟩, rfl, ?_⟩
  -- the store was empty, so some event of the run wrote the entry
  rcases latest_cases (hinv.entries loc ⟨k, hlen⟩ _ hheld) with h | ⟨pre, ev, post, hlog, hwrote⟩
  · rw [hinit] at h
    cases h
  · exact validIn_of_wrote hinv hlog hwrote hP hcol

/-- A STORE arrives at an empty replica, passes the check, and is stored. -/
def oneStore : List (system toyCluster).Move :=
  [.env (.inject ⟨toyAddr 7, toyAddr 1, .store (filledId 7) toyKey (toyRecord 1)⟩),
    .start (.handle 0), go 0 {}, go 0 { copy := .noneOrSame }, go 0 {}, go 0 {}, go 0 {}, go 0 {},
    go 0 {}, go 0 {}]

def emptyStore : ForgetfulStorage := .withMaxStorageBytes (-1) 1000

theorem noCollision_toy (log : List Event) : NoCollision toyPlatform log := by
  intro d v d' v' _ _ h
  obtain ⟨hd, hv⟩ := List.cons_eq_cons.mp h
  refine ⟨?_, hv⟩
  cases d <;> cases d' <;> first | rfl | cases hd

theorem stored_records_valid_oneStore : ∃ c, toyRun (toyWorld emptyStore) oneStore = some c ∧
    (c.world.storage (toyAddr 1)).data.lookup toyKey.bytes = some ⟨toyRecord 1, 0⟩ ∧
    ∃ key : NodeId, key.bytes = toyKey.bytes ∧ ValidFor toyPlatform key (toyRecord 1) := by
  have h : ((toyRun (toyWorld emptyStore) oneStore).bind fun c =>
      (c.world.storage (toyAddr 1)).data.lookup toyKey.bytes) = some ⟨toyRecord 1, 0⟩ := by
    decide +kernel
  obtain ⟨c, hc, hl⟩ := Option.bind_eq_some_iff.mp h
  exact ⟨c, hc, hl, stored_records_valid toyCluster statusKeyApart_toy (fresh_toyWorld emptyStore)
    (fun _ => rfl) (run_of_toyRun hc) (noCollision_toy _) hl⟩

end AuthKademlia.Properties
