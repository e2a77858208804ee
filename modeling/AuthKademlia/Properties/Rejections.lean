import AuthKademlia.Properties.PublicationReport

/-! # What a rejected publication leaves behind

`set_digest_detailed` inserts the copy of its own node before it has heard from the other
replicas. When one of them objects, the publication is rejected, and the copy stays where
it is. So a rejection leaves the entries of the publisher alone unless three things come
together: the node is one of the replicas, its store takes a record it does not serve yet,
and another replica objects. -/
namespace AuthKademlia.Properties
open AuthKademlia.Lib.Async AuthKademlia.Lib.Trace AuthKademlia.Utils AuthKademlia.Storage
open AuthKademlia.AuthHandler AuthKademlia.Protocol AuthKademlia.Network AuthKademlia.Runtime

/-- All stores hold and serve the same values; an entry may have been refreshed. -/
def SameEntries (w w' : World) : Prop :=
  ∀ loc key, (w'.storage loc).held key = (w.storage loc).held key ∧
    (w'.storage loc).get w'.now key = (w.storage loc).get w.now key

/-- The store serves nothing under the key, and has room for the record. -/
def Vacant (loc : Addr) (key : NodeId) (value : Bytes) (w : World) : Prop :=
  w.live loc key = none ∧ (w.storage loc).hasRoom key.bytes value = true

/-- A replica objects: it has another record, or finds this one invalid. -/
def Objects (status : Option StoreStatus) : Prop :=
  status = some .conflict ∨ status = some .invalidRecord

section
variable {cl : Cluster} {w₀ : World} {ms : List (system cl).Move} {c : (system cl).Config}
  {i : Nat} {p : (system cl).Proc} {a : Agent} {key : NodeId} {value : Bytes} {P : Publication}

/-! ## Outcomes -/

theorem result_none_iff (r : SetReport) : (classifySetReport r).result = none ↔
    r.conflictRejections ≠ 0 ∨ r.invalidRejections ≠ 0 := by
  unfold classifySetReport
  repeat' split
  all_goals
    simp only [SetOutcome.result, reduceCtorEq, true_iff, false_iff]
    omega

theorem mem_answers {s : Option StoreStatus} : s ∈ P.answers ↔
    (∃ st, P.own = some st ∧ s = some (StoreStatus.ofWrite st)) ∨ s ∈ P.statuses := by
  rw [Publication.answers, List.mem_append, Option.mem_toList, Option.map_eq_some_iff]
  simp only [eq_comm]

/-- `set` returns `None` after it has chosen its replicas if one of them objects. -/
theorem rejected_iff_objects :
    (classifySetReport P.report).result = none ↔ ∃ s ∈ P.answers, Objects s := by
  rw [result_none_iff, ← not_iff_not, not_or, not_not, not_not, report_conflict, report_invalid]
  constructor
  · rintro ⟨hconflict, hinvalid⟩ ⟨s, hs, hs' | hs'⟩
    · exact hconflict s hs hs'
    · exact hinvalid s hs hs'
  · exact fun h => ⟨fun s hs hs' => h ⟨s, hs, Or.inl hs'⟩, fun s hs hs' => h ⟨s, hs, Or.inr hs'⟩⟩

theorem not_objects_of_write {st : StorageWriteStatus} (h : isWrite st = true) :
    ¬ Objects (some (StoreStatus.ofWrite st)) := by
  cases st with
  | stored | alreadyStored => rintro (h | h) <;> cases h
  | conflict | capacityExceeded => cases h

/-! ## Steps -/

theorem sameEntries_of_unchanged {o : Op} {pick : Pick} {r : Ans o} {w w' : World}
    (hx : exec cl a o pick w = some (r, w')) (hr : changes o r = false) : SameEntries w w' := by
  obtain ⟨w₁, heff, rfl⟩ := exec_effect hx
  intro loc key
  show (w₁.storage loc).held key = _ ∧ (w₁.storage loc).get w₁.now key = _
  rw [effect_storage heff hr, effect_now heff]
  exact ⟨rfl, rfl⟩

theorem sameEntries_of_served {pick : Pick} {st : StorageWriteStatus} {w w' : World}
    (hx : exec cl a (.insertIfAbsent key value) pick w = some (st, w'))
    (hserved : w.live a.loc key = some value) : SameEntries w w' := by
  obtain ⟨w₁, heff, rfl⟩ := exec_effect hx
  obtain ⟨rfl, rfl⟩ := Prod.mk.inj (Option.some.inj heff)
  intro loc k
  show ((w.setStorage _ _).storage loc).held k = _ ∧ ((w.setStorage _ _).storage loc).get _ k = _
  by_cases hloc : loc = a.loc
  · subst hloc
    rw [World.setStorage_self]
    exact ForgetfulStorage.insertIfAbsent_again hserved k
  · rw [World.setStorage_of_ne w hloc]
    exact ⟨rfl, rfl⟩

theorem write_iff_room {pick : Pick} {st : StorageWriteStatus} {w w' : World}
    (hx : exec cl a (.insertIfAbsent key value) pick w = some (st, w'))
    (hnone : w.live a.loc key = none) :
    isWrite st = true ↔ (w.storage a.loc).hasRoom key.bytes value = true := by
  obtain ⟨w₁, heff, -⟩ := exec_effect hx
  obtain ⟨rfl, -⟩ := Prod.mk.inj (Option.some.inj heff)
  rw [isWrite_iff]
  exact ForgetfulStorage.insertIfAbsent_vacant hnone

theorem vacant_of_write {pick : Pick} {st : StorageWriteStatus} {w w' : World}
    (hx : exec cl a (.insertIfAbsent key value) pick w = some (st, w'))
    (hwrite : isWrite st = true) (hother : w.live a.loc key ≠ some value) :
    Vacant a.loc key value w := by
  have hnone : w.live a.loc key = none := by
    cases hlive : w.live a.loc key with
    | none => rfl
    | some v =>
      have hne : v ≠ value := fun heq => hother (by rw [hlive, heq])
      obtain ⟨w₁, heff, -⟩ := exec_effect hx
      obtain ⟨rfl, -⟩ := Prod.mk.inj (Option.some.inj heff)
      rw [ForgetfulStorage.insertIfAbsent_live hlive, if_neg hne] at hwrite
      cases hwrite
  exact ⟨hnone, (write_iff_room hx hnone).mp hwrite⟩

theorem write_of_set (hproper : Every (fun pre d => Proper cl (Agent.job p.agent) pre d.1)
      (touched c.world p.agent)) {name : String}
    (hjob : Agent.job p.agent = .set name value) {o : Op} {r : Ans o} {live : Option Bytes}
    (he : (⟨p.agent, o, r, live⟩ : Event) ∈ World.log c.world) (hr : changes o r = true) :
    o = .insertIfAbsent (cl.platform.hashes.digest name) value := by
  have htouches : Op.touches o = true := by cases o <;> first | rfl | cases hr
  obtain ⟨pre, post, hsplit⟩ := List.append_of_mem (mem_touched he htouches)
  have hrule := hproper _ _ _ hsplit
  cases o with
  | insertIfAbsent k v =>
    obtain ⟨rfl, rfl⟩ := hrule name value hjob
    rfl
  | storageSet k v => exact absurd hjob (hrule name value)
  | _ => cases hr

theorem own_of_insert {lookup : Crawling.LookupNodes} {storeLocal : Bool} {remotes : List Node}
    {own : Option StorageWriteStatus} {ds : List (Deed effects)} {st : StorageWriteStatus}
    (h : Ordered key value lookup storeLocal remotes own ds)
    (hmem : (⟨.insertIfAbsent key value, st⟩ : Deed effects) ∈ ds) : own = some st := by
  obtain ⟨search, hsearch, -, rfl⟩ := h
  rcases List.mem_append.mp hmem with hmem | hmem
  · exact absurd (hsearch _ hmem) Bool.false_ne_true
  rcases List.mem_cons.mp hmem with heq | hmem
  · cases heq
  · obtain ⟨st', hst', heq⟩ := Option.map_eq_some_iff.mp (Option.mem_toList.mp hmem)
    cases heq
    exact hst'

/-! ## Rejected publications -/

/-- The publisher is a replica, its store takes a record that it does not serve yet, and
another replica objects. -/
structure LeavesCopy (cl : Cluster) (w₀ : World) (ms : List (system cl).Move) (a : Agent)
    (key : NodeId) (value : Bytes) (P : Publication) : Prop where
  responsible : P.storeLocal = true
  vacant : AtInsert cl w₀ ms a key value fun w _ => Vacant a.loc key value w
  objection : ∃ s ∈ P.statuses, Objects s

theorem changed_of_leavesCopy (h₀ : w₀.log = []) (h : (system cl).replay ms ⟨w₀, []⟩ = some c)
    (hp : c.procs[i]? = some p) (hcopy : LeavesCopy cl w₀ ms p.agent key value P) :
    (classifySetReport P.report).result = none ∧ ¬ EachStep cl w₀ ms i SameEntries := by
  have hpid : Agent.pid p.agent = i := by
    obtain ⟨hi, rfl⟩ := List.getElem?_eq_some_iff.mp hp
    exact (run_numbered h₀ (System.Run.replay _ ms .init h)).procs i hi
  constructor
  · obtain ⟨s, hs, hobjects⟩ := hcopy.objection
    exact rejected_iff_objects.mpr ⟨s, mem_answers.mpr (Or.inr hs), hobjects⟩
  · intro heach
    obtain ⟨before, path, pick, after, d, d', st, live, hms, hd, hm, hlog, hnone, hroom⟩ :=
      hcopy.vacant
    obtain ⟨q, pick', -, -, hx, -⟩ := exec_of_logged hm hlog
    -- the store serves the record after the insert, and nothing before
    have hserves := serves_of_insert ((write_iff_room hx hnone).mpr hroom) hx
    subst hpid
    have hsame := (heach _ _ _ _ _ _ hms hd hm (Agent.loc p.agent) key.bytes).2
    exact absurd (hserves.symm.trans (hsame.trans hnone)) (by simp)

theorem keeps_entries_of_not_leavesCopy (h₀ : w₀.log = [])
    (h : (system cl).replay ms ⟨w₀, []⟩ = some c) (hp : c.procs[i]? = some p) {name : String}
    (hjob : Agent.job p.agent = .set name value) {srv : Server}
    (hP : P.Happened srv (World.log c.world) p.agent (cl.platform.hashes.digest name) value)
    (hcoursed : Coursed (cl.platform.hashes.digest name) value (course c.world p.agent))
    (hnone : (classifySetReport P.report).result = none)
    (hnot : ¬ LeavesCopy cl w₀ ms p.agent (cl.platform.hashes.digest name) value P) :
    EachStep cl w₀ ms i SameEntries := by
  have hrun : (system cl).Run w₀ c := System.Run.replay _ ms .init h
  obtain ⟨hproper, -⟩ := run_told h₀ hrun (List.mem_of_getElem? hp)
  refine eachStep_of_log h hp (fun _ _ _ => ⟨rfl, rfl⟩) fun {o pick r w w'} hx he => ?_
  cases hr : changes o r with
  | false => exact sameEntries_of_unchanged hx hr
  | true =>
    obtain rfl := write_of_set hproper hjob he hr
    by_cases hserved : w.live (Agent.loc p.agent) (cl.platform.hashes.digest name) = some value
    · exact sameEntries_of_served hx hserved
    -- a new entry: the publisher is a replica, and did not object itself
    have hwrite : isWrite r = true := hr
    have hown : P.own = some r := own_of_insert (hP.ordered hcoursed) (mem_course ⟨_, he⟩ rfl)
    refine absurd ⟨?_, ?_, ?_⟩ hnot
    · rw [← hP.member, hown]
      rfl
    · refine (atInsert_of_event h₀ h he).imp fun w₁ w₂ hinsert => ?_
      obtain ⟨hlive, pick₁, hx₁⟩ := hinsert
      exact vacant_of_write hx₁ hwrite fun hlive₁ => hserved (hlive.trans hlive₁)
    · obtain ⟨s, hs, hobjects⟩ := rejected_iff_objects.mp hnone
      rcases mem_answers.mp hs with ⟨st, hst, rfl⟩ | hs
      · obtain rfl := Option.some.inj (hst.symm.trans hown)
        exact absurd hobjects (not_objects_of_write hwrite)
      · exact ⟨s, hs, hobjects⟩

end

/-- Node 2 publishes and is one of the two replicas itself. After its lookup another record
reaches the other replica, node 3, which then refuses the STORE. -/
def overtaken : List (system toyCluster).Move :=
  [.start (.set (toyAddr 2) "abc" (toyRecord 1)), go 0 {}, go 0 {}, go 0 {}, go 0 {},
    go 0 { nodes := [toyNode 3] }, go 0 { lookup := ⟨[toyNode 3], 0⟩ }, go 0 {}, go 0 {},
    .step 0 [0] {},
    .env (.inject ⟨toyAddr 7, toyAddr 3, .store (filledId 7) toyKey (toyRecord 2)⟩),
    .start (.handle 1), go 1 {}, go 1 { copy := .noneOrSame }] ++ List.replicate 6 (go 1 {}) ++
    [.start (.handle 0)] ++ List.replicate 6 (go 2 {}) ++ [answered 0 0 .conflict, go 0 {}]

end AuthKademlia.Properties
