import AuthKademlia.Properties.Publication
import AuthKademlia.Runtime.Answers
import AuthKademlia.Runtime.Reports

/-! # The report of a publication is exact

The counters of the report mix the answers of the replicas, nodes that the lookup knows to
be silent, and one phantom replica for a node that is cut off. The outcome is nevertheless
what the answers alone say. A replica that acknowledges had the record when it last looked
at its store; between that and the answer another task may replace it. -/
namespace AuthKademlia.Properties
open AuthKademlia.Lib.Async AuthKademlia.Lib.Trace AuthKademlia.Utils AuthKademlia.Storage
open AuthKademlia.AuthHandler AuthKademlia.Protocol AuthKademlia.Network AuthKademlia.Runtime

/-! ## The numbers of the report -/

section
variable {P : Publication} {srv : Server} {log : List Event} {a : Agent} {key : NodeId}
  {value : Bytes}

theorem length_answers (h : P.Happened srv log a key value) :
    P.answers.length = P.remotes.length + P.storeLocal.toNat := by
  have hown : (P.own.map fun st => some (StoreStatus.ofWrite st)).toList.length =
      P.storeLocal.toNat := by
    rw [← h.member]
    cases P.own <;> rfl
  rw [Publication.answers, List.length_append, hown, ← h.replied.length_eq, Nat.add_comm]

theorem answers_ne_nil (h : P.Happened srv log a key value) (hk : 1 ≤ srv.ksize) :
    P.answers ≠ [] := by
  have hsome := selectResponsibleNodes_nonempty srv.node (.fromId key) P.lookup.nodes hk
  rw [h.chosen] at hsome
  have hlen := length_answers h
  intro hnil
  rw [hnil] at hlen
  rcases hsome with hlocal | hremote
  · have hlocal : P.storeLocal = true := hlocal
    rw [hlocal] at hlen
    simp at hlen
  · have hpos : 0 < P.remotes.length := List.length_pos_of_ne_nil hremote
    rw [List.length_nil] at hlen
    omega

theorem report_expected (h : P.Happened srv log a key value) :
    P.report.expectedReplicas = P.answers.length + P.cutOff.toNat := by
  rw [Publication.report, SetReport.foldl_expected, length_answers h]

theorem report_acknowledged (P : Publication) :
    P.report.acknowledgedReplicas = P.answers.countP SetReport.isAck := by
  rw [Publication.report, SetReport.foldl_acknowledged]
  exact Nat.zero_add _

theorem report_conflict (P : Publication) :
    P.report.conflictRejections = 0 ↔ ∀ s ∈ P.answers, s ≠ some .conflict := by
  rw [Publication.report, SetReport.foldl_conflict, Nat.zero_add, List.countP_eq_zero]
  simp

theorem report_invalid (P : Publication) :
    P.report.invalidRejections = 0 ↔ ∀ s ∈ P.answers, s ≠ some .invalidRecord := by
  rw [Publication.report, SetReport.foldl_invalid, Nat.zero_add, List.countP_eq_zero]
  simp

/-- **Everything is counted once.** -/
theorem report_total (P : Publication) : P.report.total =
    P.answers.length + max P.lookup.unresponsive P.cutOff.toNat := by
  rw [Publication.report, SetReport.foldl_total, Nat.add_comm]
  simp [SetReport.total]

theorem complete_iff (h : P.Happened srv log a key value) (hk : 1 ≤ srv.ksize) :
    classifySetReport P.report = .complete P.report ↔
      (∀ s ∈ P.answers, SetReport.isAck s = true) ∧ P.cutOff = false := by
  have hpos := List.length_pos_of_ne_nil (answers_ne_nil h hk)
  have hle : P.answers.countP SetReport.isAck ≤ P.answers.length := List.countP_le_length
  rw [classifySetReport_complete_iff, report_conflict, report_invalid, report_expected h,
    report_acknowledged, ← List.countP_eq_length]
  constructor
  · rintro ⟨-, -, -, hcount⟩
    cases hcut : P.cutOff with
    | false => exact ⟨by rw [hcut] at hcount; exact hcount, rfl⟩
    | true =>
      rw [hcut, Bool.toNat_true] at hcount
      omega
  · rintro ⟨hall, hcut⟩
    have hack := List.countP_eq_length.mp hall
    refine ⟨fun s hs he => ?_, fun s hs he => ?_, by omega, by rw [hall, hcut]; rfl⟩
    · exact absurd (hack s hs) (by rw [he]; exact Bool.false_ne_true)
    · exact absurd (hack s hs) (by rw [he]; exact Bool.false_ne_true)

theorem degraded_iff (h : P.Happened srv log a key value) (hk : 1 ≤ srv.ksize) :
    classifySetReport P.report = .degraded P.report ↔
      classifySetReport P.report ≠ .complete P.report ∧
      (∀ s ∈ P.answers, s ≠ some .conflict ∧ s ≠ some .invalidRecord) ∧
      ∃ s ∈ P.answers, SetReport.isAck s = true := by
  have hpos := List.length_pos_of_ne_nil (answers_ne_nil h hk)
  have hne : P.report.expectedReplicas ≠ 0 := by
    rw [report_expected h]
    omega
  have hack : 0 < P.report.acknowledgedReplicas ↔ ∃ s ∈ P.answers, SetReport.isAck s = true := by
    rw [report_acknowledged]
    exact List.countP_pos_iff
  rw [Ne, classifySetReport_degraded_iff, classifySetReport_complete_iff, report_conflict,
    report_invalid, hack]
  constructor
  · rintro ⟨hconflict, hinvalid, -, hpart, hsome⟩
    exact ⟨fun hcomplete => hpart hcomplete.2.2.2,
      fun s hs => ⟨hconflict s hs, hinvalid s hs⟩, hsome⟩
  · rintro ⟨hcomplete, hclean, hsome⟩
    refine ⟨fun s hs => (hclean s hs).1, fun s hs => (hclean s hs).2, hne, fun hfull => ?_, hsome⟩
    exact hcomplete ⟨fun s hs => (hclean s hs).1, fun s hs => (hclean s hs).2, hne, hfull⟩

theorem rejected_iff (r : SetReport) : (∃ reason, classifySetReport r = .rejected reason r) ↔
    classifySetReport r ≠ .complete r ∧ classifySetReport r ≠ .degraded r := by
  have hreport := classifySetReport_report r
  cases hc : classifySetReport r with
  | complete r' =>
    rw [hc] at hreport
    obtain rfl : r' = r := hreport
    simp
  | degraded r' =>
    rw [hc] at hreport
    obtain rfl : r' = r := hreport
    simp
  | rejected reason r' =>
    rw [hc] at hreport
    obtain rfl : r' = r := hreport
    simp

end

/-! ## The replicas -/

/-- The task inserted the record, and that took the world along `rel`. -/
def AtInsert (cl : Cluster) (w₀ : World) (ms : List (system cl).Move) (a : Agent)
    (key : NodeId) (value : Bytes) (rel : World → World → Prop) : Prop :=
  ∃ before path pick after d d' st live, ms = before ++ .step a.pid path pick :: after ∧
    (system cl).replay before ⟨w₀, []⟩ = some d ∧
    (system cl).move d (.step a.pid path pick) = some d' ∧
    World.log d'.world = World.log d.world ++ [⟨a, .insertIfAbsent key value, st, live⟩] ∧
    rel d.world d'.world

/-- The own store served the record right after the task's insert. -/
def InsertedHolding (cl : Cluster) (w₀ : World) (ms : List (system cl).Move) (a : Agent)
    (key : NodeId) (value : Bytes) : Prop :=
  AtInsert cl w₀ ms a key value fun _ w' => World.live w' a.loc key = some value

/-- The node `n` acknowledged the record of `a`. If it is honest, a handler of the node did
so, and the store of the node served the record at the handler's last access before. -/
def AcknowledgedHolding (cl : Cluster) (w₀ : World) (ms : List (system cl).Move) (srv : Server)
    (a : Agent) (key : NodeId) (value : Bytes) (n : Node) : Prop :=
  ∃ addr, n.address = some addr ∧ ((cl.server addr).isSome → ∃ (b : Agent) (call : Nat)
    (status : StoreStatus), b.loc = addr ∧
      b.job = .handle call a.loc (.store srv.node.id key value) ∧
      (status = .stored ∨ status = .alreadyStored) ∧
      AnsweredHolding cl w₀ ms b (.storeResult status) key value)

section
variable {cl : Cluster} {w₀ : World} {ms : List (system cl).Move} {c : (system cl).Config}
  {a : Agent} {srv : Server} {key : NodeId} {value : Bytes}

theorem atInsert_of_event (h₀ : w₀.log = []) (h : (system cl).replay ms ⟨w₀, []⟩ = some c)
    {st : StorageWriteStatus} {live : Option Bytes}
    (he : (⟨a, .insertIfAbsent key value, st, live⟩ : Event) ∈ World.log c.world) :
    AtInsert cl w₀ ms a key value fun w w' => live = w.live a.loc key ∧
      ∃ pick, exec cl a (.insertIfAbsent key value) pick w = some (st, w') := by
  obtain ⟨pre, post, hlog⟩ := List.append_of_mem he
  obtain ⟨before, path, pick, after, d, d', pick', hms, hd, hm, -, hx, -, hlive, -⟩ :=
    cut_log h₀ h hlog
  obtain ⟨w₁, -, hw⟩ := exec_effect hx
  exact ⟨before, path, pick, after, d, d', st, _, hms, hd, hm, by rw [hw], hlive, pick', hx⟩

theorem AtInsert.imp {rel rel' : World → World → Prop} (himp : ∀ w w', rel w w' → rel' w w')
    (h : AtInsert cl w₀ ms a key value rel) : AtInsert cl w₀ ms a key value rel' := by
  obtain ⟨before, path, pick, after, d, d', st, live, hms, hd, hm, hlog, hrel⟩ := h
  exact ⟨before, path, pick, after, d, d', st, live, hms, hd, hm, hlog, himp _ _ hrel⟩

theorem serves_of_insert {st : StorageWriteStatus} {pick : Pick} {w w' : World}
    (hst : isWrite st = true)
    (hx : exec cl a (.insertIfAbsent key value) pick w = some (st, w')) :
    w'.live a.loc key = some value := by
  obtain ⟨w₁, heff, rfl⟩ := exec_effect hx
  have hserves : w₁.live a.loc key = some value := effect_leaves heff ⟨rfl, rfl, hst⟩
  exact hserves

theorem ack_of_storeStatus {answer : Option RpcMessage}
    (h : SetReport.isAck (storeStatus answer) = true) :
    ∃ status, answer = some (.storeResult status) ∧
      (status = .stored ∨ status = .alreadyStored) := by
  unfold storeStatus at h
  split at h
  · rename_i status
    refine ⟨status, rfl, ?_⟩
    cases status with
    | stored => exact Or.inl rfl
    | alreadyStored => exact Or.inr rfl
    | conflict | capacityExceeded | invalidRecord => cases h
  · cases h

theorem acknowledgedHolding_of_replied (h₀ : Fresh w₀)
    (h : (system cl).replay ms ⟨w₀, []⟩ = some c) {n : Node} {status : Option StoreStatus}
    (hack : SetReport.isAck status = true)
    (hreplied : Replied srv (World.log c.world) a key value n status) :
    AcknowledgedHolding cl w₀ ms srv a key value n := by
  unfold Replied at hreplied
  split at hreplied
  · rw [hreplied] at hack
    cases hack
  · rename_i addr haddr
    obtain ⟨call, answer, hsend, hreceive, rfl⟩ := hreplied
    obtain ⟨status, rfl, hstatus⟩ := ack_of_storeStatus hack
    refine ⟨addr, haddr, fun hin => ?_⟩
    -- the handler that answered had this very request
    obtain ⟨req, hreq, hhandler⟩ := handler_of_receive h₀ h hreceive
    obtain rfl := Option.some.inj ((request_of_send h₀.log h hsend).symm.trans hreq)
    obtain ⟨b, hloc, hjob, hdid⟩ := hhandler hin
    refine ⟨b, call, status, hloc, hjob, hstatus, answeredHolding_of_respond h₀.log h hdid ?_⟩
    rw [hjob]
    rcases hstatus with rfl | rfl <;> rfl

/-- **The report is exact.** For a publication that got to choose its replicas, there is a
course that the log tells, with the lookup the call did last before its choice, and the
outcome is read off it: complete if every replica acknowledged and the node is not cut
off, degraded if not, but nobody objected and somebody acknowledged, and rejected
otherwise. The counters add up, and if the outcome is complete then each replica held the
record when it last accessed its store before the answer. -/
theorem publication_report_exact {p : (system cl).Proc} {name : String} {outcome : SetOutcome}
    (h₀ : Fresh w₀) (h : (system cl).replay ms ⟨w₀, []⟩ = some c) (hp : p ∈ c.procs)
    (hjob : Agent.job p.agent = .set name value) (hsrv : cl.server (Agent.loc p.agent) = some srv)
    (hk : 1 ≤ srv.ksize) (hkey : cl.platform.hashes.digest name = key)
    (hres : p.prog.value? = some (.set outcome))
    (hsel : ∃ lookup storeLocal remotes,
      Did (World.log c.world) p.agent (.select key lookup storeLocal remotes) ()) :
    ∃ P : Publication, P.Happened srv (World.log c.world) p.agent key value ∧
      Ordered key value P.lookup P.storeLocal P.remotes P.own (course c.world p.agent) ∧
      outcome.report = P.report ∧
      (outcome = .complete P.report ↔
        (∀ s ∈ P.answers, SetReport.isAck s = true) ∧ P.cutOff = false) ∧
      (outcome = .degraded P.report ↔ outcome ≠ .complete P.report ∧
        (∀ s ∈ P.answers, s ≠ some .conflict ∧ s ≠ some .invalidRecord) ∧
        ∃ s ∈ P.answers, SetReport.isAck s = true) ∧
      ((∃ reason, outcome = .rejected reason P.report) ↔
        outcome ≠ .complete P.report ∧ outcome ≠ .degraded P.report) ∧
      P.report.total = P.remotes.length + P.storeLocal.toNat +
        max P.lookup.unresponsive P.cutOff.toNat ∧
      (outcome = .complete P.report →
        (P.storeLocal = true → InsertedHolding cl w₀ ms p.agent key value) ∧
        ∀ n ∈ P.remotes, AcknowledgedHolding cl w₀ ms srv p.agent key value n) := by
  subst hkey
  have hrun : (system cl).Run w₀ c := System.Run.replay _ ms .init h
  -- a publication that chose its replicas expects some
  obtain hearly | ⟨P, hP, rfl⟩ := run_reported h₀ hrun hp hres name value outcome srv hjob rfl hsrv
  · obtain ⟨lookup, storeLocal, remotes, live, he⟩ := hsel
    obtain ⟨srv', hsrv', hcounted⟩ := (run_told h₀.log hrun hp).2 _ hres
    obtain rfl := Option.some.inj (hsrv.symm.trans hsrv')
    have hzero : outcome.report.expectedReplicas = 0 := by rw [hearly]
    exact absurd (mem_touched he rfl) (hcounted.chose hk hzero _ lookup storeLocal remotes)
  have htotal : P.report.total = P.remotes.length + P.storeLocal.toNat +
      max P.lookup.unresponsive P.cutOff.toNat := by rw [report_total, length_answers hP]
  refine ⟨P, hP, hP.ordered (run_coursed h₀.log hrun hp hres hjob), classifySetReport_report _,
    complete_iff hP hk, degraded_iff hP hk, rejected_iff _, htotal, fun hcomplete => ?_⟩
  have hall := ((complete_iff hP hk).mp hcomplete).1
  constructor
  · intro hlocal
    have hsome := hP.member.trans hlocal
    obtain ⟨st, hst⟩ := Option.isSome_iff_exists.mp hsome
    have hack := hall (some (StoreStatus.ofWrite st)) (by simp [Publication.answers, hst])
    have hwrite : isWrite st = true := by
      cases st with
      | stored | alreadyStored => rfl
      | conflict | capacityExceeded => cases hack
    obtain ⟨live, he⟩ := hP.stored st hst
    refine (atInsert_of_event h₀.log h he).imp fun w w' hinsert => ?_
    obtain ⟨-, pick, hx⟩ := hinsert
    exact serves_of_insert hwrite hx
  · intro n hn
    obtain ⟨i, hi, rfl⟩ := List.mem_iff_getElem.mp hn
    have hlen := hP.replied.length_eq
    have hreplied := hP.replied.get hi (hlen ▸ hi)
    refine acknowledgedHolding_of_replied h₀ h ?_ hreplied
    exact hall _ (List.mem_append_right _ (List.get_mem _ _))

end

/-- The choice that a task made for a key, if the event is one. -/
def choice (a : Agent) (key : NodeId) :
    Event → Option (Crawling.LookupNodes × Bool × List Node)
  | ⟨b, .select k lookup storeLocal remotes, _, _⟩ =>
    if b = a ∧ k = key then some (lookup, storeLocal, remotes) else none
  | _ => none

theorem did_of_choice {log : List Event} {i : Nat} {a : Agent} {key : NodeId}
    {lookup : Crawling.LookupNodes} {storeLocal : Bool} {remotes : List Node}
    (h : log[i]?.bind (choice a key) = some (lookup, storeLocal, remotes)) :
    Did log a (.select key lookup storeLocal remotes) () := by
  obtain ⟨e, he, hchoice⟩ := Option.bind_eq_some_iff.mp h
  refine ⟨e.live, List.mem_of_getElem? (he.trans ?_)⟩
  unfold choice at hchoice
  split at hchoice
  · split at hchoice
    · rename_i hwho
      obtain ⟨rfl, rfl⟩ := hwho
      cases hchoice
      rfl
    · cases hchoice
  · cases hchoice

theorem twoPublications_first : ∃ (c : (system toyCluster).Config) (p : (system toyCluster).Proc),
    toyRun (toyWorld emptyStore) twoPublications = some c ∧ p ∈ c.procs ∧
    p.prog.value? = some (.set (.complete { expectedReplicas := 2, storedReplicas := 2 })) ∧
    Agent.job p.agent = .set "abc" (toyRecord 1) ∧ Agent.loc p.agent = toyAddr 5 ∧
    Did (World.log c.world) p.agent
      (.select toyKey ⟨[toyNode 2, toyNode 3], 0⟩ false [toyNode 3, toyNode 2]) () := by
  obtain ⟨c, hc, p, hp, hres, hjob, hloc, hsel⟩ :
      ∃ c ∈ toyRun (toyWorld emptyStore) twoPublications, ∃ p ∈ c.procs[0]?,
        p.prog.value? = some (.set (.complete { expectedReplicas := 2, storedReplicas := 2 })) ∧
        Agent.job p.agent = .set "abc" (toyRecord 1) ∧ Agent.loc p.agent = toyAddr 5 ∧
        (World.log c.world)[6]?.bind (choice p.agent toyKey) =
          some (⟨[toyNode 2, toyNode 3], 0⟩, false, [toyNode 3, toyNode 2]) := by
    decide +kernel
  exact ⟨c, p, hc, List.mem_of_getElem? hp, hres, hjob, hloc, did_of_choice hsel⟩

theorem publication_report_exact_twoPublications : ∃ (c : (system toyCluster).Config)
    (p : (system toyCluster).Proc) (srv : Server) (report : SetReport),
    toyRun (toyWorld emptyStore) twoPublications = some c ∧
    p.prog.value? = some (.set (.complete report)) ∧ report.storedReplicas = 2 ∧
    ∃ P : Publication, P.Happened srv (World.log c.world) p.agent toyKey (toyRecord 1) ∧
      P.report = report ∧ P.cutOff = false ∧ ∀ n ∈ P.remotes, AcknowledgedHolding toyCluster
        (toyWorld emptyStore) twoPublications srv p.agent toyKey (toyRecord 1) n := by
  obtain ⟨c, p, hc, hp, hres, hjob, hloc, hsel⟩ := twoPublications_first
  obtain ⟨P, hP, -, hreport, hcomplete, -, -, -, hheld⟩ := publication_report_exact
    (fresh_toyWorld emptyStore) hc hp hjob (by rw [hloc]; exact server_toy 2 2 5)
    (Nat.le_succ 1) rfl hres ⟨_, _, _, hsel⟩
  have hreport : P.report = _ := hreport.symm
  rw [hreport] at hcomplete hheld
  exact ⟨c, p, _, _, hc, hres, rfl, P, hP, hreport, (hcomplete.mp rfl).2, (hheld rfl).2⟩

/-- Node 5 publishes. Node 3 takes the record, and before its handler answers, an update
replaces it there. -/
def replacedMeanwhile : List (system toyCluster).Move :=
  publish 0 5 (toyRecord 1) ++ [.start (.handle 0), .start (.handle 1), go 1 {},
    go 1 { copy := .noneOrSame }] ++ List.replicate 4 (go 1 {}) ++
    [.env (.inject ⟨toyAddr 7, toyAddr 3, .update (filledId 7) toyKey (toyRecord 2) [1]⟩),
    .start (.handle 2)] ++ List.replicate 6 (go 3 {}) ++ [go 1 {}]

/-- From the answer of node 3 to the end. -/
def toTheEnd : List (system toyCluster).Move :=
  [go 2 {}, go 2 { copy := .noneOrSame }] ++ List.replicate 6 (go 2 {}) ++
    [answered 0 0 .stored, answered 0 1 .stored, go 0 {}]

/-- What a handler answered, if the event is that. -/
def response : Event → Option (Agent × RpcMessage)
  | ⟨b, .respond msg, _, _⟩ => some (b, msg)
  | _ => none

theorem replacedMeanwhile_answer : ∃ (d d' : (system toyCluster).Config) (e : Event) (b : Agent),
    toyRun (toyWorld emptyStore) replacedMeanwhile = some d ∧
    (system toyCluster).move d (go 1 {}) = some d' ∧
    World.log d'.world = World.log d.world ++ [e] ∧
    response e = some (b, .storeResult .stored) ∧ b.loc = toyAddr 3 ∧
    b.job = .handle 0 (toyAddr 5) (.store (filledId 5) toyKey (toyRecord 1)) ∧
    World.live d'.world (toyAddr 3) toyKey = some (toyRecord 2) := by
  obtain ⟨d, hd, d', hm, b, hresponse, hmsg, hloc, hjob, hlive, hlonger⟩ :
      ∃ d ∈ toyRun (toyWorld emptyStore) replacedMeanwhile,
        ∃ d' ∈ (system toyCluster).move d (go 1 {}),
        ∃ b ∈ (World.log d'.world).getLast?.bind response,
        b.2 = .storeResult .stored ∧ b.1.loc = toyAddr 3 ∧
        b.1.job = .handle 0 (toyAddr 5) (.store (filledId 5) toyKey (toyRecord 1)) ∧
        World.live d'.world (toyAddr 3) toyKey = some (toyRecord 2) ∧
        (World.log d'.world).length ≠ (World.log d.world).length := by
    decide +kernel
  rcases step_logged hm with hsame | ⟨q, o, pick, r, -, -, hsnoc⟩
  · exact absurd (congrArg List.length hsame) hlonger
  rw [hsnoc, List.getLast?_concat] at hresponse
  obtain ⟨b, msg⟩ := b
  obtain rfl : msg = _ := hmsg
  exact ⟨d, d', _, b, hd, hm, hsnoc, hresponse, hloc, hjob, hlive⟩

/-- **A replica answers without the record.** The publication is complete, and node 3, one of
its replicas, serves another record when it answers `Stored`. -/
theorem acknowledged_without_record : ∃ (d d' c : (system toyCluster).Config) (e : Event)
    (b : Agent) (p : (system toyCluster).Proc),
    toyRun (toyWorld emptyStore) replacedMeanwhile = some d ∧
    (system toyCluster).move d (go 1 {}) = some d' ∧
    World.log d'.world = World.log d.world ++ [e] ∧
    response e = some (b, .storeResult .stored) ∧ b.loc = toyAddr 3 ∧
    b.job = .handle 0 (toyAddr 5) (.store (filledId 5) toyKey (toyRecord 1)) ∧
    World.live d'.world (toyAddr 3) toyKey = some (toyRecord 2) ∧
    toyRun (toyWorld emptyStore) (replacedMeanwhile ++ go 1 {} :: toTheEnd) = some c ∧
    p ∈ c.procs ∧ Agent.job p.agent = .set "abc" (toyRecord 1) ∧ Agent.loc p.agent = toyAddr 5 ∧
    p.prog.value? = some (.set (.complete { expectedReplicas := 2, storedReplicas := 2 })) ∧
    Did (World.log c.world) p.agent
      (.select toyKey ⟨[toyNode 2, toyNode 3], 0⟩ false [toyNode 3, toyNode 2]) () := by
  obtain ⟨d, d', e, b, hd, hm, hlog, hresponse, hloc, hjob, hlive⟩ := replacedMeanwhile_answer
  obtain ⟨c, hc, p, hp, hpjob, hploc, hres, hsel⟩ :
      ∃ c ∈ toyRun (toyWorld emptyStore) (replacedMeanwhile ++ go 1 {} :: toTheEnd),
        ∃ p ∈ c.procs[0]?, Agent.job p.agent = .set "abc" (toyRecord 1) ∧
        Agent.loc p.agent = toyAddr 5 ∧
        p.prog.value? = some (.set (.complete { expectedReplicas := 2, storedReplicas := 2 })) ∧
        (World.log c.world)[6]?.bind (choice p.agent toyKey) =
          some (⟨[toyNode 2, toyNode 3], 0⟩, false, [toyNode 3, toyNode 2]) := by
    decide +kernel
  exact ⟨d, d', c, e, b, p, hd, hm, hlog, hresponse, hloc, hjob, hlive, hc,
    List.mem_of_getElem? hp, hpjob, hploc, hres, did_of_choice hsel⟩

end AuthKademlia.Properties
