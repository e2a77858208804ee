import AuthKademlia.Runtime.Api
import AuthKademlia.Runtime.Deeds

/-! # What a publication went through

The specs of `set_digest_detailed` and `set_detailed` that say where each number of the
report comes from: the lookup, the replicas chosen, the own insert and the answer of
every other replica. The answers come in any order. What the publication does itself has
one: it looks for nodes, chooses its replicas by what it found last, and then inserts
the record into its own store if its node is one of them. -/
namespace AuthKademlia.Runtime
open AuthKademlia.Lib.Async AuthKademlia.Lib.Trace AuthKademlia.Utils AuthKademlia.Storage
open AuthKademlia.Protocol AuthKademlia.Crawling AuthKademlia.Network

/-- The course of a publication, from the nodes its lookup found on. -/
structure Publication where
  lookup : LookupNodes
  storeLocal : Bool
  remotes : List Node
  cutOff : Bool
  /-- What the own store said, if the node is a replica. -/
  own : Option StorageWriteStatus
  /-- What the other replicas answered, in their order. -/
  statuses : List (Option StoreStatus)

namespace Publication

/-- The answers of all replicas, the own one first. Silence is `none`. -/
def answers (P : Publication) : List (Option StoreStatus) :=
  (P.own.map fun st => some (StoreStatus.ofWrite st)).toList ++ P.statuses

def report (P : Publication) : SetReport :=
  P.answers.foldl SetReport.recordStatus
    { expectedReplicas := P.remotes.length + P.storeLocal.toNat + P.cutOff.toNat
      unavailableNodes := max P.lookup.unresponsive P.cutOff.toNat }

end Publication

/-- What `call_store_rpc` makes of an answer. -/
def storeStatus : Option RpcMessage → Option StoreStatus
  | some (.storeResult status) => some status
  | _ => none

/-- The task sent its record to `n` and heard `status`, or `n` cannot be asked. -/
def Replied (srv : Server) (log : List Event) (a : Agent) (key : NodeId) (value : Bytes)
    (n : Node) (status : Option StoreStatus) : Prop :=
  match n.address with
  | none => status = none
  | some addr => ∃ call answer, Did log a (.send addr (.store srv.node.id key value)) call ∧
      Did log a (.receive call) answer ∧ status = storeStatus answer

/-- The log tells this course of a publication. -/
structure Publication.Happened (P : Publication) (srv : Server) (log : List Event) (a : Agent)
    (key : NodeId) (value : Bytes) : Prop where
  chosen : selectResponsibleNodes srv.node (.fromId key) P.lookup.nodes srv.ksize =
    (P.storeLocal, P.remotes)
  selected : Did log a (.select key P.lookup P.storeLocal P.remotes) ()
  reachable : P.remotes ≠ [] → P.cutOff = false
  alone : P.remotes = [] → Did log a .knowsOthers P.cutOff
  member : P.own.isSome = P.storeLocal
  stored : ∀ st, P.own = some st → Did log a (.insertIfAbsent key value) st
  replied : List.Forall₂ (Replied srv log a key value) P.remotes P.statuses

section
variable {cl : Cluster} {init : Addr → ForgetfulStorage} {a : Agent} {w : World}
  {srv : Server} {name : String} {key : NodeId} {value : Bytes} {log log' : List Event}

theorem Replied.mono {n : Node} {status : Option StoreStatus} (hp : log <+: log')
    (h : Replied srv log a key value n status) : Replied srv log' a key value n status := by
  unfold Replied at h ⊢
  split at h
  · exact h
  · obtain ⟨call, answer, hs, hr, he⟩ := h
    exact ⟨call, answer, hs.mono hp, hr.mono hp, he⟩

theorem Publication.Happened.mono {P : Publication} (hp : log <+: log')
    (h : P.Happened srv log a key value) : P.Happened srv log' a key value where
  chosen := h.chosen
  selected := h.selected.mono hp
  reachable := h.reachable
  alone := fun hnil => (h.alone hnil).mono hp
  member := h.member
  stored := fun st hst => (h.stored st hst).mono hp
  replied := h.replied.imp fun _ _ hr => hr.mono hp

/-! ## The specs -/

theorem safe_replied (hi : Inv cl init w) {n : Node} :
    Safe cl init a (callStoreRpc srv n key value)
      (fun status w' => Replied srv w'.log a key value n status) w := by
  have hcall : Safe cl init a (call n (.store srv.node.id key value))
      (fun answer w' => Replied srv w'.log a key value n (storeStatus answer)) w := by
    cases haddr : n.address with
    | none =>
      rw [call, haddr]
      show Replied srv w.log a key value n none
      rw [Replied, haddr]
    | some addr =>
      rw [call, haddr]
      refine (safe_any rfl).seq hi fun id w₁ _ hi₁ hid => ?_
      refine ((safe_any rfl).frame hi₁).imp fun answer w₂ hframe => ?_
      obtain ⟨hg, -, hr⟩ := hframe
      rw [Replied, haddr]
      exact ⟨id, answer, hid.mono hg.log, hr, rfl⟩
  refine hcall.seq hi fun answer w₁ _ _ hr => ?_
  split
  · exact hr
  · rename_i hno
    have hnone : storeStatus answer = none := by
      unfold storeStatus
      split
      · exact absurd rfl (hno _)
      · rfl
    rwa [hnone] at hr

/-- **The report of a publication**: what `set_digest_detailed` returns is the
classification of what it went through. -/
theorem safe_report (hi : Inv cl init w) (hjob : a.job.isStore = false)
    (hv : ValidIn cl.platform w.log key value) (hlisten : srv.listening = true)
    {lookup : LookupNodes} :
    Safe cl init a (setDigestDetailed srv key value lookup) (fun out w' => ∃ P : Publication,
      P.Happened srv w'.log a key value ∧ out = classifySetReport P.report) w := by
  rw [setDigestDetailed, if_neg (by simp [hlisten])]
  rcases hchosen : selectResponsibleNodes srv.node (.fromId key) lookup.nodes srv.ksize with
    ⟨storeLocal, remotes⟩
  refine (safe_any rfl).seq hi fun _ w₁ hg₁ hi₁ hsel => ?_
  have hcut : Safe cl init a (isCutOff remotes) (fun cutOff w' =>
      (remotes ≠ [] → cutOff = false) ∧ (remotes = [] → Did w'.log a .knowsOthers cutOff)) w₁ := by
    rw [isCutOff]
    split
    · rename_i hempty
      have hnil : remotes = [] := List.isEmpty_iff.mp hempty
      exact (safe_any rfl).imp fun _ _ h => ⟨fun hne => absurd hnil hne, fun _ => h⟩
    · rename_i hempty
      exact ⟨fun _ => rfl, fun hnil => absurd (List.isEmpty_iff.mpr hnil) hempty⟩
  refine hcut.seq hi₁ fun cutOff w₂ hg₂ hi₂ hcutOff => ?_
  have hown : ∀ report : SetReport, Safe cl init a (storeLocally storeLocal key value report)
      (fun r w' => ∃ own : Option StorageWriteStatus, own.isSome = storeLocal ∧
        (∀ st, own = some st → Did w'.log a (.insertIfAbsent key value) st) ∧
        r = (own.map fun st => some (StoreStatus.ofWrite st)).toList.foldl SetReport.recordStatus
          report) w₂ := by
    intro report
    rw [storeLocally]
    split
    · rename_i hlocal
      refine (safe_insertIfAbsent fun {w₃} hg =>
        ⟨hv.mono (hg₁.log.trans (hg₂.log.trans hg.log)), fun _ hst => ?_⟩).seq hi₂
        fun st w₃ _ _ hst => ⟨some st, hlocal.symm, fun st' h => Option.some.inj h ▸ hst.1, rfl⟩
      rw [hjob] at hst
      cases hst
    · rename_i hlocal
      exact ⟨none, (Bool.eq_false_iff.mpr hlocal).symm, fun _ h => by (cases h), rfl⟩
  refine (hown _).seq hi₂ fun report w₃ hg₃ hi₃ howned => ?_
  obtain ⟨own, hmember, hstored, hreport⟩ := howned
  refine (safe_joinAll (R := fun n status w' => Replied srv w'.log a key value n status)
    (fun n status _ _ hg h => h.mono hg.log) fun n _ => safe_replied hi₃).seq hi₃
    fun statuses w₄ hg₄ _ hall => ?_
  refine ⟨⟨lookup, storeLocal, remotes, cutOff, own, statuses⟩, ⟨hchosen,
    hsel.mono (hg₂.log.trans (hg₃.log.trans hg₄.log)), hcutOff.1,
    fun hnil => (hcutOff.2 hnil).mono (hg₃.log.trans hg₄.log), hmember,
    fun st hst => (hstored st hst).mono hg₄.log, hall⟩, ?_⟩
  rw [hreport, ← List.foldl_append]
  rfl

/-- A publication ends early, with an empty report, or with the report of its course. -/
theorem safe_setReport (hs : srv.platform = cl.platform) (hi : Inv cl init w)
    (hjob : a.job.isStore = false) :
    Safe cl init a (setDetailed srv name value) (fun out w' => out.report = {} ∨
      ∃ P : Publication, P.Happened srv w'.log a (srv.digest name) value ∧
        out = classifySetReport P.report) w := by
  refine (safe_verifyRecord hs hi).seq hi fun ok w₁ _ hi₁ hok => ?_
  split
  · exact Or.inl rfl
  rename_i hneg
  have hv := hok (by simpa using hneg)
  split
  · exact Or.inl rfl
  rename_i hlisten
  have hlisten : srv.listening = true := by simpa using hlisten
  refine (safe_checkPublishState hs hi₁).seq hi₁ fun state w₂ hg₂ hi₂ _ => ?_
  have hv₂ := hv.mono hg₂.log
  cases state with
  | missing lookup => exact (safe_report hi₂ hjob hv₂ hlisten).imp fun _ _ => Or.inr
  | identical =>
    refine (safe_discoverPublishNodes hi₂).seq hi₂ fun lookup w₃ hg₃ hi₃ _ => ?_
    exact (safe_report hi₃ hjob (hv₂.mono hg₃.log) hlisten).imp fun _ _ => Or.inr
  | conflict => exact Or.inl rfl

end

/-! ## In order -/

/-- Operations that look for nodes. -/
def Op.searches : Op → Bool
  | .findNeighbors _ | .lookupNodes _ _ | .lookupValue _ _ => true
  | _ => false

/-- These, the choice of the replicas, and the own insert. -/
def Op.steers : Op → Bool
  | .select _ _ _ _ | .insertIfAbsent _ _ => true
  | o => Op.searches o

def Job.isSet : Job → Bool
  | .set _ _ => true
  | _ => false

def courseWatch (job : Job) : Watch effects where
  matters o := job.isSet && Op.steers o
  answers _ _ := True
  rule _ _ := True

/-- What a task did towards its replicas, in order. -/
def course (w : World) (a : Agent) : List (Deed effects) :=
  (deeds w a).filter fun d => Op.steers d.1

/-- The lookup a search ended with: there was nobody to ask, or the last thing it did was to
look for the nodes, or for the value, which nobody had. -/
inductive Found (key : NodeId) : List (Deed effects) → LookupNodes → Prop
  | nobody (ds : List (Deed effects)) : Found key (ds ++ [⟨.findNeighbors key, []⟩]) noNodes
  | nodes (ds : List (Deed effects)) (seeds : List Node) (lookup : LookupNodes) :
      Found key (ds ++ [⟨.findNeighbors key, seeds⟩, ⟨.lookupNodes key seeds, lookup⟩]) lookup
  | value (ds : List (Deed effects)) (seeds : List Node) (lookup : LookupNodes) :
      Found key (ds ++ [⟨.findNeighbors key, seeds⟩, ⟨.lookupValue key seeds, (none, lookup)⟩])
        lookup

/-- A task that did `ds` was still searching. -/
def Searching (ds : List (Deed effects)) : Prop := ∀ d ∈ ds, Op.searches d.1 = true

/-- It searched, chose its replicas by the lookup that the search ended with, and made the
insert `own` if its node is one of them. -/
def Ordered (key : NodeId) (value : Bytes) (lookup : LookupNodes) (storeLocal : Bool)
    (remotes : List Node) (own : Option StorageWriteStatus) (ds : List (Deed effects)) : Prop :=
  ∃ search, Searching search ∧ Found key search lookup ∧
    ds = search ++ ⟨.select key lookup storeLocal remotes, ()⟩ ::
      (own.map fun st => (⟨.insertIfAbsent key value, st⟩ : Deed effects)).toList

/-- The deeds of a publication that ended. -/
def Coursed (key : NodeId) (value : Bytes) (ds : List (Deed effects)) : Prop :=
  Searching ds ∨ ∃ lookup storeLocal remotes own, own.isSome = storeLocal ∧
    Ordered key value lookup storeLocal remotes own ds

section
variable {job : Job} {srv : Server} {name : String} {key : NodeId} {value : Bytes}
  {ds : List (Deed effects)} {lookup : LookupNodes} {α : Type}

theorem searching_nil : Searching [] := fun _ h => by cases h

theorem Searching.snoc {d : Deed effects} (h : Searching ds) (hd : Op.searches d.1 = true) :
    Searching (ds ++ [d]) := by
  intro x hx
  rcases List.mem_append.mp hx with hx | hx
  · exact h x hx
  · rwa [List.mem_singleton.mp hx]

variable (hjob : job.isSet = true)
include hjob

theorem tells_steering {o : Op} (ho : Op.steers o = true)
    {Q : List (Deed effects) → Ans o → Prop} (h : ∀ r, Q (ds ++ [⟨o, r⟩]) r) :
    (courseWatch job).Tells (perform o) Q ds :=
  Watch.tells_noted (Bool.and_eq_true_iff.mpr ⟨hjob, ho⟩) trivial fun r _ => h r

omit hjob in
theorem astray_of {p : Routine α} (h : Prog.Within (fun o : Op => Op.steers o = false) p) :
    Prog.Within (fun o => (courseWatch job).matters o = false) p :=
  h.imp fun o ho => by
    show (job.isSet && Op.steers o) = false
    rw [ho, Bool.and_false]

omit hjob in
theorem checks_astray {p : Routine α} (h : Checks p) :
    Prog.Within (fun o => (courseWatch job).matters o = false) p :=
  astray_of (h.imp fun o ho => by cases o <;> first | rfl | cases ho)

theorem tells_discoverPublishNodes (hlisten : srv.listening = true) (hds : Searching ds) :
    (courseWatch job).Tells (discoverPublishNodes srv key)
      (fun ds' lookup => Searching ds' ∧ Found key ds' lookup) ds := by
  rw [discoverPublishNodes, if_neg (by simp [hlisten])]
  refine (tells_steering hjob (o := .findNeighbors key) rfl fun nearest => ?_).bind
  have hasked := hds.snoc (d := ⟨.findNeighbors key, nearest⟩) rfl
  split
  · rename_i hempty
    obtain rfl : nearest = [] := List.isEmpty_iff.mp hempty
    exact ⟨hasked, .nobody ds⟩
  · refine tells_steering hjob (o := .lookupNodes key nearest) rfl fun lookup =>
      ⟨hasked.snoc rfl, ?_⟩
    rw [List.append_assoc]
    exact .nodes ds nearest lookup

/-- The state that `check_publish_state` finds comes with the lookup that found it. -/
theorem tells_missing (hlisten : srv.listening = true) :
    (courseWatch job).Tells (checkPublishState srv name value) (fun ds state => Searching ds ∧
      ∀ lookup, state = .missing lookup → Found (srv.digest name) ds lookup) [] := by
  refine Watch.Tells.after (astray_of (.perform rfl)) fun found => ?_
  cases found with
  | some v =>
    refine ⟨searching_nil, fun lookup h => ?_⟩
    split at h <;> cases h
  | none =>
    dsimp only
    rw [if_neg (by simp [hlisten])]
    refine (tells_steering hjob (o := .findNeighbors (srv.digest name)) rfl fun nearest => ?_).bind
    have hasked := searching_nil.snoc (d := ⟨.findNeighbors (srv.digest name), nearest⟩) rfl
    split
    · rename_i hempty
      obtain rfl : nearest = [] := List.isEmpty_iff.mp hempty
      refine ⟨hasked, ?_⟩
      rintro _ ⟨⟩
      exact .nobody []
    refine (tells_steering hjob (o := .lookupValue (srv.digest name) nearest) rfl fun r => ?_).bind
    have hlooked := hasked.snoc (d := ⟨.lookupValue (srv.digest name) nearest, r⟩) rfl
    obtain ⟨found, lookup⟩ := r
    cases found with
    | some v =>
      refine Watch.Tells.after (checks_astray (verifyRecord_checks ..)) fun ok => ?_
      split
      · refine ⟨hlooked, fun lookup h => ?_⟩
        split at h <;> cases h
      · refine ((tells_discoverPublishNodes hjob hlisten hlooked).imp fun ds' lookup h => ?_).bind
        refine ⟨h.1, ?_⟩
        rintro _ ⟨⟩
        exact h.2
    | none =>
      refine ⟨hlooked, ?_⟩
      rintro _ ⟨⟩
      exact .value [] nearest lookup

theorem tells_ordered (hds : Searching ds) (hfound : Found key ds lookup) :
    (courseWatch job).Tells (setDigestDetailed srv key value lookup)
      (fun ds' _ => Coursed key value ds') ds := by
  unfold setDigestDetailed
  split
  · exact Or.inl hds
  obtain ⟨storeLocal, remotes⟩ :=
    selectResponsibleNodes srv.node (.fromId key) lookup.nodes srv.ksize
  refine (tells_steering hjob (o := .select key lookup storeLocal remotes) rfl fun _ => ?_).bind
  have hcut : Prog.Within (fun o : Op => Op.steers o = false) (isCutOff remotes) := by
    unfold isCutOff
    split
    · exact .perform rfl
    · exact .pure _
  refine Watch.Tells.after (astray_of hcut) fun cutOff => ?_
  have hown : ∀ report : SetReport, (courseWatch job).Tells
      (storeLocally storeLocal key value report) (fun ds' _ => Coursed key value ds')
      (ds ++ [⟨.select key lookup storeLocal remotes, ()⟩]) := by
    intro report
    unfold storeLocally
    split
    · rename_i hlocal
      refine (tells_steering hjob (o := .insertIfAbsent key value) rfl fun st => ?_).bind
      exact Or.inr ⟨lookup, storeLocal, remotes, some st, hlocal.symm, ds, hds, hfound,
        List.append_assoc ..⟩
    · rename_i hlocal
      exact Or.inr ⟨lookup, storeLocal, remotes, none, (Bool.eq_false_iff.mpr hlocal).symm, ds, hds,
        hfound, rfl⟩
  refine ((hown _).imp fun ds' report h => ?_).bind
  exact Watch.Tells.after (.joinAll fun n _ => astray_of
    (callStoreRpc_within (fun _ => rfl) fun _ => rfl)) fun _ => h

/-- **The course of a publication**, for any answers. -/
theorem tells_course : (courseWatch job).Tells (setDetailed srv name value)
    (fun ds _ => Coursed (srv.digest name) value ds) [] := by
  refine Watch.Tells.after (checks_astray (verifyRecord_checks ..)) fun ok => ?_
  split
  · exact Or.inl searching_nil
  split
  · exact Or.inl searching_nil
  rename_i hlisten
  have hlisten : srv.listening = true := by simpa using hlisten
  refine ((tells_missing hjob hlisten).imp fun ds state h => ?_).bind
  cases state with
  | missing lookup => exact tells_ordered hjob h.1 (h.2 lookup rfl)
  | identical =>
    refine ((tells_discoverPublishNodes hjob hlisten h.1).imp fun ds' lookup h' => ?_).bind
    exact tells_ordered hjob h'.1 h'.2
  | conflict => exact Or.inl h.1

end

/-! ## Runs -/

/-- What the outcome of a finished publication says. -/
def Reported (cl : Cluster) (a : Agent) (res : Res) (w : World) : Prop :=
  ∀ name value out srv, a.job = .set name value → res = .set out → cl.server a.loc = some srv →
    out.report = {} ∨ ∃ P : Publication,
      P.Happened srv w.log a (cl.platform.hashes.digest name) value ∧
      out = classifySetReport P.report

theorem Reported.mono {cl : Cluster} {a : Agent} {res : Res} {w w' : World} (hg : Grows w w')
    (h : Reported cl a res w) : Reported cl a res w' := by
  intro name value out srv hjob hres hsrv
  refine (h name value out srv hjob hres hsrv).imp id fun hcourse => ?_
  obtain ⟨P, hP, hout⟩ := hcourse
  exact ⟨P, hP.mono hg.log, hout⟩

theorem safe_start_reported {cl : Cluster} {init : Addr → ForgetfulStorage} {a : Agent}
    {w : World} {call : Call} {n : Nat} {p : Routine Res} (hi : Inv cl init w)
    (hst : start cl call n w = some (a, p)) : Safe cl init a p (Reported cl a) w := by
  have hstart := safe_start hi hst
  obtain ⟨⟨loc, job⟩, hcall, hst⟩ := Option.bind_eq_some_iff.mp hst
  obtain ⟨srv, hsrv, hst⟩ := Option.map_eq_some_iff.mp hst
  obtain ⟨rfl, rfl⟩ := Prod.mk.inj hst
  cases call with
  | set loc' name value =>
    cases hcall
    have hs := cl.same loc srv hsrv
    refine (safe_setReport hs hi rfl).seq hi fun out w₁ _ _ hout => ?_
    rintro _ _ _ srv' ⟨⟩ ⟨⟩ hsrv'
    obtain rfl := Option.some.inj (hsrv.symm.trans hsrv')
    rwa [digest_eq hs] at hout
  | handle id =>
    obtain ⟨req, -, hj⟩ := Option.map_eq_some_iff.mp hcall
    cases hj
    exact hstart.imp fun _ _ _ _ _ _ _ hjob => by cases hjob
  | update loc' name value auth =>
    cases hcall
    exact hstart.imp fun _ _ _ _ _ _ _ hjob => by cases hjob
  | get loc' name =>
    cases hcall
    exact hstart.imp fun _ _ _ _ _ _ _ hjob => by cases hjob

/-- **Every finished publication of a run** reports its course. -/
theorem run_reported {cl : Cluster} {w₀ : World} (h₀ : Fresh w₀) {c : (system cl).Config}
    (h : (system cl).Run w₀ c) {p : (system cl).Proc} (hp : p ∈ c.procs) {res : Res}
    (hres : p.prog.value? = some res) : Reported cl p.agent res c.world := by
  obtain ⟨-, hsafe⟩ := Logic.run_safe (L := logic cl w₀.storage) (Q := Reported cl)
    (fun a res _ _ hg h => h.mono hg) h₀.inv (fun hi he => env_inv hi he)
    (fun hi hst => safe_start_reported hi hst) h
  have hs := hsafe p hp
  rw [Prog.eq_ret_of_value? hres] at hs
  exact hs

/-- **Every finished publication of a run** went through its course in order. -/
theorem run_coursed {cl : Cluster} {w₀ : World} (h₀ : w₀.log = []) {c : (system cl).Config}
    (h : (system cl).Run w₀ c) {p : (system cl).Proc} (hp : p ∈ c.procs) {res : Res}
    (hres : p.prog.value? = some res) {name : String} {value : Bytes}
    (hjob : Agent.job p.agent = .set name value) :
    Coursed (cl.platform.hashes.digest name) value (course c.world p.agent) := by
  have hstart : ∀ {loc srv} n job, cl.server loc = some srv →
      (courseWatch job).Tells (Job.prog srv job) (fun ds _ => ∀ name value,
        (⟨n, loc, job⟩ : Agent).job = .set name value →
          Coursed (cl.platform.hashes.digest name) value ds) [] := by
    intro loc srv n job hsrv
    cases job with
    | set name value =>
      refine ((tells_course rfl).imp fun ds _ h => ?_).bind
      rintro _ _ ⟨⟩
      rwa [digest_eq (cl.same _ _ hsrv)] at h
    | handle id src msg =>
      exact Watch.tells_aside ((Prog.Within.any _).imp fun _ _ => rfl) fun _ _ _ h => by cases h
    | update name value auth =>
      exact Watch.tells_aside ((Prog.Within.any _).imp fun _ _ => rfl) fun _ _ _ h => by cases h
    | get name =>
      exact Watch.tells_aside ((Prog.Within.any _).imp fun _ _ => rfl) fun _ _ _ h => by cases h
  obtain ⟨-, htells⟩ := run_deeds h₀ (fun a => courseWatch a.job)
    (fun a ds _ => ∀ name value, a.job = .set name value →
      Coursed (cl.platform.hashes.digest name) value ds) (fun _ => trivial) hstart h p hp
  rw [Prog.eq_ret_of_value? hres] at htells
  have hcoursed := htells name value hjob
  rw [Watch.relevant] at hcoursed
  simp only [courseWatch, hjob, Job.isSet, Bool.true_and] at hcoursed
  exact hcoursed

theorem mem_course {w : World} {a : Agent} {o : Op} {r : Ans o} (h : Did w.log a o r)
    (ho : Op.steers o = true) : (⟨o, r⟩ : Deed effects) ∈ course w a := by
  obtain ⟨live, he⟩ := h
  exact List.mem_filter.mpr ⟨mem_deeds he, ho⟩

theorem Publication.Happened.ordered {P : Publication} {srv : Server} {w : World} {a : Agent}
    {key : NodeId} {value : Bytes} (hP : P.Happened srv w.log a key value)
    (h : Coursed key value (course w a)) :
    Ordered key value P.lookup P.storeLocal P.remotes P.own (course w a) := by
  have hselected := mem_course hP.selected rfl
  rcases h with h | ⟨lookup, storeLocal, remotes, own, hown, search, hsearch, hfound, hcourse⟩
  · exact absurd (h _ hselected) Bool.false_ne_true
  -- there is one choice, and one insert at most
  rw [hcourse] at hselected
  rcases List.mem_append.mp hselected with hmem | hmem
  · exact absurd (hsearch _ hmem) Bool.false_ne_true
  rcases List.mem_cons.mp hmem with heq | hmem
  · cases heq
    refine ⟨search, hsearch, hfound, ?_⟩
    rw [hcourse]
    suffices P.own = own by rw [this]
    cases hst : P.own with
    | none =>
      rw [← hP.member, hst] at hown
      exact (Option.isSome_eq_false_iff.mp hown |> Option.isNone_iff_eq_none.mp).symm
    | some st =>
      have hinsert := mem_course (hP.stored st hst) rfl
      rw [hcourse] at hinsert
      rcases List.mem_append.mp hinsert with hmem | hmem
      · exact absurd (hsearch _ hmem) Bool.false_ne_true
      rcases List.mem_cons.mp hmem with heq | hmem
      · cases heq
      · obtain ⟨st', hst', heq⟩ := Option.map_eq_some_iff.mp (Option.mem_toList.mp hmem)
        cases heq
        exact hst'.symm
  · obtain ⟨st', -, heq⟩ := Option.map_eq_some_iff.mp (Option.mem_toList.mp hmem)
    cases heq

end AuthKademlia.Runtime
