import AuthKademlia.Crawling.Retrace
import AuthKademlia.Lib.Progress
import AuthKademlia.Runtime.Programs

/-! # One rotation in a quiet cluster

An owner calls `update` for a rotation from `old` to `new`, while some replicas
may have applied it already. Nothing else runs, every node answers, every
verification ends, and the lookups find what the setting says. This file says
what the tasks of such a run do, the owner's and the handlers of its requests,
and that none of them gets stuck. -/
namespace AuthKademlia.Runtime
open AuthKademlia.Lib.Async AuthKademlia.Utils AuthKademlia.Storage AuthKademlia.Crawling
open AuthKademlia.AuthHandler AuthKademlia.Protocol AuthKademlia.Network

/-- A rotation and the node that asks for it. `old` is a valid record, as every
stored one is, and `new` a valid one that its key authorises. -/
structure Retry (cl : Cluster) where
  loc : Addr
  srv : Server
  here : cl.server loc = some srv
  key : String
  old : Bytes
  new : Bytes
  auth : Bytes
  /-- The nodes that the lookup of the responsible ones finds. -/
  found : List Node
  listening : srv.listening = true
  ksize_pos : 1 ≤ srv.ksize
  alpha_pos : 1 ≤ srv.alpha
  did : srv.digest key ≠ srv.statusKey
  old_bound : BoundTo cl.platform (srv.digest key) old
  old_signed : SelfSigned cl.platform old
  new_bound : BoundTo cl.platform (srv.digest key) new
  new_signed : SelfSigned cl.platform new
  authorised : Authorises cl.platform old new auth
  /-- The remote responsible nodes are reachable nodes of the cluster. -/
  served : ∀ n ∈ (selectResponsibleNodes srv.node (.fromId (srv.digest key)) found srv.ksize).2,
    ∃ addr s, n.address = some addr ∧ cl.server addr = some s

namespace Retry

variable {cl : Cluster} (R : Retry cl)

def dkey : NodeId := R.srv.digest R.key

theorem key_ne : R.key ≠ statusListKey := fun h => R.did (congrArg R.srv.digest h)

/-- Is the owner's node responsible, and which others are? -/
def selection : Bool × List Node :=
  selectResponsibleNodes R.srv.node (.fromId R.dkey) R.found R.srv.ksize

theorem selection_nonempty : R.selection.1 = true ∨ R.selection.2 ≠ [] :=
  selectResponsibleNodes_nonempty _ _ _ R.ksize_pos

/-- The addresses of the responsible nodes. -/
def members : List Addr :=
  (if R.selection.1 then [R.loc] else []) ++ R.selection.2.filterMap Node.address

def Responsible (addr : Addr) : Prop := addr ∈ R.members

theorem responsible_iff {addr : Addr} : R.Responsible addr ↔
    R.selection.1 = true ∧ addr = R.loc ∨ ∃ n ∈ R.selection.2, n.address = some addr := by
  rw [Responsible, members, List.mem_append, List.mem_filterMap]
  refine or_congr ?_ Iff.rfl
  split
  · rename_i h
    simp [h]
  · rename_i h
    simp [h]

theorem responsible_served {addr : Addr} (h : R.Responsible addr) :
    ∃ s, cl.server addr = some s := by
  rcases R.responsible_iff.mp h with ⟨-, rfl⟩ | ⟨n, hn, hnaddr⟩
  · exact ⟨R.srv, R.here⟩
  · obtain ⟨addr', s, haddr', hs⟩ := R.served n hn
    obtain rfl := Option.some.inj (haddr'.symm.trans hnaddr)
    exact ⟨s, hs⟩

def Version (v : Bytes) : Prop := v = R.old ∨ v = R.new

instance (v : Bytes) : Decidable (R.Version v) := inferInstanceAs (Decidable (_ ∨ _))

/-- What is left open goes well: verifications end, the owner knows other nodes,
the lookups find the responsible nodes and copies of either version
(`allows_search` says why), and calls are answered. -/
def allows : Op → Pick → Bool
  | .blocking _, p => p.finished
  | .findNeighbors _, p => !p.nodes.isEmpty
  | .lookupNodes _ _, p => p.lookup.nodes = R.found
  | .arrivals _ _, p => !p.values.isEmpty && p.values.all fun v => R.Version v
  | .receive _, p => p.answer.isSome
  | _, _ => true

/-- A node that is not responsible itself comes upon a copy when it searches, for
the responsible nodes that its lookup finds have one. -/
theorem allows_search (H : ValueSearch.Holders)
    (hversion : ∀ id v, H.serves id = some v → R.Version v)
    (hheld : ∀ n ∈ R.selection.2, H.serves n.id ≠ none) (hlocal : R.selection.1 = false)
    {seeds : List Node} {fuel unresponsive : Nat} {out : List Round}
    (hlookup : NodeLookup.findLookupNodes (.scripted H.reply) fuel
      (.new (.fromId R.dkey) seeds R.srv.ksize R.srv.alpha) [] =
        some (⟨R.found, unresponsive⟩, out)) :
    ∃ v, (ValueSearch.search (.prompt H.valueReply) none some fuel
        (.new (.fromId R.dkey) seeds R.srv.ksize R.srv.alpha) false []).map
          ValueSearch.SearchEnd.outcome = some (.found v) ∧
      R.allows (.arrivals R.dkey seeds) { values := [v] } = true := by
  have hne := R.selection_nonempty.resolve_left (by rw [hlocal]; exact Bool.false_ne_true)
  obtain ⟨n, hn⟩ := List.exists_mem_of_ne_nil _ hne
  obtain ⟨id, v, hv, hsearch⟩ := ValueSearch.Holders.search_finds_copy (fun _ _ _ => rfl) hlookup
    ⟨n, mem_remotes_selected hn, hheld n hn⟩
  exact ⟨v, hsearch, by simp [allows, hversion id v hv]⟩

def exec (a : Agent) (o : Op) (p : Pick) (w : World) : Option (Ans o × World) :=
  if R.allows o p then Runtime.exec cl a o p w else none

inductive Calls where
  | update
  | handle (id : Nat)

/-- The one update, and the handlers of requests. -/
def start : Calls → Nat → World → Option (Agent × Routine Res)
  | .update, n, w =>
    if n = 0 then Runtime.start cl (.update R.loc R.key R.new (some R.auth)) n w else none
  | .handle id, n, w => Runtime.start cl (.handle id) n w

/-- Time passes, but no copy expires meanwhile. -/
def elapse (nanos : Nat) (w : World) : Option World :=
  if ∀ addr ∈ R.loc :: R.members,
      World.live { w with now := w.now + nanos } addr R.dkey = w.live addr R.dkey then
    some { w with now := w.now + nanos }
  else none

/-- The cluster with nothing but the update. -/
def system : System effects := (Runtime.system cl).variant R.exec R.elapse R.start

theorem exec_eq {a : Agent} {o : Op} {p : Pick} {w : World} {x : Ans o × World}
    (h : R.exec a o p w = some x) : R.allows o p = true ∧ Runtime.exec cl a o p w = some x := by
  unfold exec at h
  split at h
  · exact ⟨‹_›, h⟩
  · cases h

theorem start_eq {call : Calls} {n : Nat} {w : World} {x : Agent × Routine Res}
    (h : R.start call n w = some x) : ∃ call', Runtime.start cl call' n w = some x := by
  cases call with
  | update =>
    simp only [start] at h
    split at h
    · exact ⟨_, h⟩
    · cases h
  | handle id => exact ⟨.handle id, h⟩

theorem elapse_eq {nanos : Nat} {w w' : World} (h : R.elapse nanos w = some w') :
    w' = { w with now := w.now + nanos } ∧
      ∀ addr ∈ R.loc :: R.members, w'.live addr R.dkey = w.live addr R.dkey := by
  unfold elapse at h
  split at h
  · obtain rfl := Option.some.inj h
    exact ⟨rfl, ‹_›⟩
  · cases h

theorem run_of_system {w₀ : World} {c : R.system.Config} (h : R.system.Run w₀ c) :
    (Runtime.system cl).Run w₀ ⟨c.world, c.procs.map fun p => ⟨p.agent, p.prog⟩⟩ := by
  refine System.run_of_variant (Runtime.system cl) (fun hx => (R.exec_eq hx).2) ?_ R.start_eq h
  intro nanos w w' hw procs hrun
  obtain ⟨rfl, -⟩ := R.elapse_eq hw
  exact .move (.env (.advance nanos)) hrun rfl

/-! ## The invariant -/

/-- Every responsible node holds either version, has room for the new one, and
the owner's node reads either version. -/
structure Mixed (w : World) : Prop where
  holds : ∀ addr, R.Responsible addr → ∃ v, w.live addr R.dkey = some v ∧ R.Version v
  own : ∀ v, w.live R.loc R.dkey = some v → R.Version v
  room : ∀ addr, R.Responsible addr →
    ((w.storage addr).set w.now R.dkey.bytes R.new).1 ≠ .capacityExceeded
  /-- The owner's cache has no wrong verdict on either version. -/
  cache : ∀ v, R.Version v →
    w.cache R.loc (computeKey cl.platform.hashes .selfSigned v) ≠ some false

/-- The requests on their way are the owner's, and who answered has the new version. -/
structure Going (w : World) : Prop extends R.Mixed w where
  sent : ∀ req ∈ w.requests, R.Responsible req.dst ∧
    ∃ sender, req.msg = .update sender R.dkey R.new R.auth
  answered : ∀ x ∈ w.answers, x.2 = .updateResult true ∧
    ∃ req, w.requests[x.1]? = some req ∧ w.live req.dst R.dkey = some R.new

/-- The order along which the world moves: the new version stays. -/
structure Onward (w w' : World) : Prop where
  kept : ∀ addr, R.Responsible addr → w.live addr R.dkey = some R.new →
    w'.live addr R.dkey = some R.new
  requests : w.requests <+: w'.requests
  answers : w.answers <+: w'.answers

variable {R} {a : Agent} {w w' : World}

protected theorem Onward.refl (w : World) : R.Onward w w :=
  ⟨fun _ _ h => h, List.prefix_rfl, List.prefix_rfl⟩

protected theorem Onward.trans {u v w : World} (h : R.Onward u v) (h' : R.Onward v w) :
    R.Onward u w :=
  ⟨fun addr ha hu => h'.kept addr ha (h.kept addr ha hu), h.requests.trans h'.requests,
    h.answers.trans h'.answers⟩

theorem Onward.request (h : R.Onward w w') {id : Nat} {req : Request}
    (hreq : w.requests[id]? = some req) : w'.requests[id]? = some req := by
  obtain ⟨t, ht⟩ := h.requests
  rw [← ht, List.getElem?_append_left (List.getElem?_eq_some_iff.mp hreq).1, hreq]

variable (R) in
def Fit (a : Agent) (w : World) : Op → Prop
  | .storageSet k v => k = R.dkey ∧ v = R.new ∧ R.Responsible a.loc
  | .insertIfAbsent _ _ => False
  | .cacheInsert _ _ result => result = true
  | .send peer msg => R.Responsible peer ∧ ∃ sender, msg = .update sender R.dkey R.new R.auth
  | .respond msg => msg = .updateResult true ∧ w.live a.loc R.dkey = some R.new ∧
    ∀ id src req, a.job = .handle id src req → ∃ sender, w.requests[id]? = some ⟨sender, a.loc, req⟩
  | _ => True

theorem Going.elapse (hw : R.Going w) {nanos : Nat} (h : R.elapse nanos w = some w') :
    R.Going w' ∧ R.Onward w w' := by
  obtain ⟨rfl, hlive⟩ := R.elapse_eq h
  have hmember : ∀ addr, R.Responsible addr →
      World.live { w with now := w.now + nanos } addr R.dkey = w.live addr R.dkey :=
    fun addr ha => hlive addr (List.mem_cons_of_mem _ ha)
  refine ⟨⟨⟨fun addr ha => ?_, fun v hv => ?_, fun addr ha => ?_, hw.cache⟩, hw.sent,
    fun x hx => ?_⟩, fun addr ha hv => ?_, List.prefix_rfl, List.prefix_rfl⟩
  · rw [hmember addr ha]
    exact hw.holds addr ha
  · rw [hlive R.loc List.mem_cons_self] at hv
    exact hw.own v hv
  · rw [ForgetfulStorage.set_status_now _ _ w.now]
    exact hw.room addr ha
  · obtain ⟨hmsg, req, hreq, hl⟩ := hw.answered x hx
    refine ⟨hmsg, req, hreq, ?_⟩
    rw [hmember req.dst (hw.sent req (List.mem_of_getElem? hreq)).1]
    exact hl
  · rw [hmember addr ha]
    exact hv

theorem Going.write (hw : R.Going w) {addr : Addr} (haddr : R.Responsible addr) :
    R.Going (w.setStorage addr ((w.storage addr).set w.now R.dkey.bytes R.new).2) ∧
      R.Onward w (w.setStorage addr ((w.storage addr).set w.now R.dkey.bytes R.new).2) := by
  have hroom := hw.room addr haddr
  have hget := ForgetfulStorage.get_set hroom
  generalize (w.storage addr).set w.now R.dkey.bytes R.new = r at hget ⊢
  have hlive : ∀ l, (w.setStorage addr r.2).live l R.dkey =
      if l = addr then some R.new else w.live l R.dkey := by
    intro l
    unfold World.live
    split
    · rename_i heq
      rw [heq, World.setStorage_self]
      exact hget
    · rename_i hne
      rw [World.setStorage_of_ne w hne]
      rfl
  have hkept : ∀ l, w.live l R.dkey = some R.new →
      (w.setStorage addr r.2).live l R.dkey = some R.new := by
    intro l hl
    rw [hlive]
    split
    · rfl
    · exact hl
  refine ⟨⟨⟨fun l hl => ?_, fun v hv => ?_, fun l hl => ?_, hw.cache⟩, hw.sent, fun x hx => ?_⟩,
    fun l _ => hkept l, List.prefix_rfl, List.prefix_rfl⟩
  · rw [hlive]
    split
    · exact ⟨R.new, rfl, Or.inr rfl⟩
    · exact hw.holds l hl
  · rw [hlive] at hv
    split at hv
    · exact Or.inr (Option.some.inj hv).symm
    · exact hw.own v hv
  · by_cases heq : l = addr
    · rw [heq, World.setStorage_self]
      have hst : (r.2.set w.now R.dkey.bytes R.new).1 = .alreadyStored :=
        ForgetfulStorage.set_held (ForgetfulStorage.held_of_get hget)
      change (r.2.set w.now R.dkey.bytes R.new).1 ≠ _
      rw [hst]
      exact fun h => by cases h
    · rw [World.setStorage_of_ne w heq]
      exact hw.room l hl
  · obtain ⟨hmsg, req, hreq, hl⟩ := hw.answered x hx
    exact ⟨hmsg, req, hreq, hkept _ hl⟩

theorem Going.effect (hw : R.Going w) {o : Op} {p : Pick} {r : Ans o} (hfit : R.Fit a w o)
    (h : effect cl a o p w = some (r, w')) : R.Going w' ∧ R.Onward w w' := by
  cases o with
  | storageSet k v =>
    obtain ⟨rfl, rfl, haddr⟩ := hfit
    obtain ⟨rfl, rfl⟩ := Prod.mk.inj (Option.some.inj h)
    exact hw.write haddr
  | insertIfAbsent k v => exact absurd hfit id
  | cacheInsert domain value result =>
    have hcache : ∀ v, R.Version v →
        w'.cache R.loc (computeKey cl.platform.hashes .selfSigned v) ≠ some false := by
      intro v hv hfalse
      rcases effect_cache h hfalse with hwas | ⟨d, v', ho, -⟩
      · exact hw.cache v hv hwas
      · cases ho
        cases hfit
    obtain ⟨rfl, rfl⟩ := Prod.mk.inj (Option.some.inj h)
    exact ⟨⟨⟨hw.holds, hw.own, hw.room, hcache⟩, hw.sent, hw.answered⟩,
      fun _ _ h => h, List.prefix_rfl, List.prefix_rfl⟩
  | send peer msg =>
    obtain ⟨rfl, rfl⟩ := Prod.mk.inj (Option.some.inj h)
    refine ⟨⟨⟨hw.holds, hw.own, hw.room, hw.cache⟩, fun req hreq => ?_, fun x hx => ?_⟩,
      fun _ _ h => h, List.prefix_append _ _, List.prefix_rfl⟩
    · rcases List.mem_append.mp hreq with hreq | hreq
      · exact hw.sent req hreq
      · obtain rfl := List.mem_singleton.mp hreq
        exact hfit
    · obtain ⟨hmsg, req, hreq, hl⟩ := hw.answered x hx
      refine ⟨hmsg, req, ?_, hl⟩
      rw [List.getElem?_append_left (List.getElem?_eq_some_iff.mp hreq).1, hreq]
  | receive call =>
    obtain ⟨rfl, -⟩ := effect_receive h
    exact ⟨hw, .refl _⟩
  | respond msg =>
    obtain ⟨id, src, req, hjob, rfl⟩ := effect_respond h
    obtain ⟨rfl, hlive, hasked⟩ := hfit
    obtain ⟨sender, hreq⟩ := hasked id src req hjob
    refine ⟨⟨⟨hw.holds, hw.own, hw.room, hw.cache⟩, hw.sent, fun x hx => ?_⟩, fun _ _ h => h,
      List.prefix_rfl, List.prefix_append _ _⟩
    rcases List.mem_append.mp hx with hx | hx
    · exact hw.answered x hx
    · obtain rfl := List.mem_singleton.mp hx
      exact ⟨rfl, _, hreq, hlive⟩
  | _ => cases h; exact ⟨hw, .refl _⟩

theorem Going.exec (hw : R.Going w) {o : Op} {p : Pick} {r : Ans o} (hfit : R.Fit a w o)
    (h : R.exec a o p w = some (r, w')) : R.Going w' ∧ R.Onward w w' := by
  obtain ⟨w₁, he, rfl⟩ := exec_effect (R.exec_eq h).2
  obtain ⟨hg, ho⟩ := hw.effect hfit he
  exact ⟨⟨⟨hg.holds, hg.own, hg.room, hg.cache⟩, hg.sent, hg.answered⟩,
    ho.kept, ho.requests, ho.answers⟩

/-! ## What the tasks do -/

variable (R) in
def logic : Logic R.system where
  inv := R.Going
  le := R.Onward
  refl := Onward.refl
  trans := Onward.trans

variable (R) in
/-- The programs that keep the invariant and establish `Q`. -/
abbrev Safe (a : Agent) {α : Type} (p : Routine α) (Q : α → World → Prop) (w : World) : Prop :=
  R.logic.Safe a p Q w

theorem safe_op {o : Op} {Q : Ans o → World → Prop}
    (hfit : ∀ {w₁}, R.Onward w w₁ → R.Going w₁ → R.Fit a w₁ o)
    (hQ : ∀ {w₁ p r w₂}, R.Going w₁ → R.exec a o p w₁ = some (r, w₂) → Q r w₂) :
    R.Safe a (perform o) Q w := by
  refine Logic.safe_perform fun w₁ hle hi p r w₂ hx => ?_
  obtain ⟨hi', hle'⟩ := Going.exec hi (hfit hle hi) hx
  exact ⟨hi', hle', hQ hi hx⟩

theorem safe_storageGet : R.Safe a (storageGet R.dkey)
    (fun found w' => found = w'.live a.loc R.dkey) w := by
  refine safe_op (o := .storageGet R.dkey) (fun _ _ => trivial) fun {w₁ p r w₂} _ hx => ?_
  obtain ⟨w₂, he, rfl⟩ := exec_effect (R.exec_eq hx).2
  obtain ⟨rfl, rfl⟩ := Prod.mk.inj (Option.some.inj he)
  rfl

theorem safe_blocking {result : Bool} : R.Safe a (blocking result) (fun r _ => r = result) w := by
  refine safe_op (o := .blocking result) (fun _ _ => trivial) fun {w₁ p r w₂} _ hx => ?_
  obtain ⟨hp, hx⟩ := R.exec_eq hx
  obtain ⟨w₂, he, rfl⟩ := exec_effect hx
  obtain ⟨rfl, rfl⟩ := Prod.mk.inj (Option.some.inj he)
  rw [show p.finished = true from hp, Bool.true_and]

theorem safe_storageSet (haddr : R.Responsible a.loc) : R.Safe a (storageSet R.dkey R.new)
    (fun st w' => st ≠ .capacityExceeded ∧ w'.live a.loc R.dkey = some R.new) w := by
  refine safe_op (o := .storageSet R.dkey R.new) (fun _ _ => ⟨rfl, rfl, haddr⟩)
    fun {w₁ p r w₂} hi hx => ?_
  obtain ⟨w₂, he, rfl⟩ := exec_effect (R.exec_eq hx).2
  obtain ⟨rfl, rfl⟩ := Prod.mk.inj (Option.some.inj he)
  refine ⟨hi.room a.loc haddr, ?_⟩
  change ((w₁.setStorage a.loc _).storage a.loc).get w₁.now R.dkey.bytes = some R.new
  rw [World.setStorage_self]
  exact ForgetfulStorage.get_set (hi.room a.loc haddr)

/-- At the owner's node the cache knows nothing about a version, or that it is valid. -/
theorem safe_cacheGet (hloc : a.loc = R.loc) {v : Bytes} (hv : R.Version v) :
    R.Safe a (cacheGet .selfSigned v) (fun found _ => found ≠ some false) w := by
  refine safe_op (o := .cacheGet .selfSigned v) (fun _ _ => trivial) fun {w₁ p r w₂} hi hx => ?_
  obtain ⟨w₂, he, rfl⟩ := exec_effect (R.exec_eq hx).2
  obtain ⟨rfl, rfl⟩ := Prod.mk.inj (Option.some.inj he)
  rw [hloc]
  exact hi.cache v hv

theorem safe_cacheInsert {domain : VerificationDomain} {v : Bytes} :
    R.Safe a (cacheInsert domain v true) (fun _ _ => True) w :=
  safe_op (o := .cacheInsert domain v true) (fun _ _ => rfl) fun _ _ => trivial

theorem safe_findNeighbors {key : NodeId} :
    R.Safe a (findNeighbors key) (fun nearest _ => nearest.isEmpty = false) w := by
  refine safe_op (o := .findNeighbors key) (fun _ _ => trivial) fun {w₁ p r w₂} _ hx => ?_
  obtain ⟨hp, hx⟩ := R.exec_eq hx
  obtain ⟨w₂, he, rfl⟩ := exec_effect hx
  obtain ⟨rfl, rfl⟩ := Prod.mk.inj (Option.some.inj he)
  simpa [allows] using hp

theorem safe_lookupNodes {key : NodeId} {seeds : List Node} :
    R.Safe a (lookupNodes key seeds) (fun lookup _ => lookup.nodes = R.found) w := by
  refine safe_op (o := .lookupNodes key seeds) (fun _ _ => trivial) fun {w₁ p r w₂} _ hx => ?_
  obtain ⟨hp, hx⟩ := R.exec_eq hx
  obtain ⟨w₂, he, rfl⟩ := exec_effect hx
  obtain ⟨rfl, rfl⟩ := Prod.mk.inj (Option.some.inj he)
  exact of_decide_eq_true hp

theorem safe_arrivals {key : NodeId} {seeds : List Node} : R.Safe a (arrivals key seeds)
    (fun values _ => values ≠ [] ∧ ∀ v ∈ values, R.Version v) w := by
  refine safe_op (o := .arrivals key seeds) (fun _ _ => trivial) fun {w₁ p r w₂} _ hx => ?_
  obtain ⟨hp, hx⟩ := R.exec_eq hx
  obtain ⟨w₂, he, rfl⟩ := exec_effect hx
  obtain ⟨rfl, rfl⟩ := Prod.mk.inj (Option.some.inj he)
  simpa [allows] using hp

theorem safe_against {key : NodeId} {v : Bytes} :
    R.Safe a (against key v) (fun _ _ => True) w :=
  safe_op (o := .against key v) (fun _ _ => trivial) fun _ _ => trivial

theorem safe_select {key : NodeId} {lookup : LookupNodes} {storeLocal : Bool}
    {remotes : List Node} : R.Safe a (select key lookup storeLocal remotes) (fun _ _ => True) w :=
  safe_op (o := .select key lookup storeLocal remotes) (fun _ _ => trivial) fun _ _ => trivial

theorem safe_scheduleWelcome {source : Node} :
    R.Safe a (scheduleWelcome source) (fun _ _ => True) w :=
  safe_op (o := .scheduleWelcome source) (fun _ _ => trivial) fun _ _ => trivial

theorem safe_send {peer : Addr} {sender : NodeId} (hpeer : R.Responsible peer) :
    R.Safe a (send peer (.update sender R.dkey R.new R.auth)) (fun call w' =>
      w'.requests[call]? = some ⟨a.loc, peer, .update sender R.dkey R.new R.auth⟩) w := by
  refine safe_op (o := .send peer (.update sender R.dkey R.new R.auth))
    (fun _ _ => ⟨hpeer, sender, rfl⟩) fun {w₁ p r w₂} _ hx => ?_
  obtain ⟨w₂, he, rfl⟩ := exec_effect (R.exec_eq hx).2
  obtain ⟨rfl, rfl⟩ := Prod.mk.inj (Option.some.inj he)
  simp

theorem safe_receive {call : Nat} {req : Request} (hreq : w.requests[call]? = some req) :
    R.Safe a (receive call) (fun r w' =>
      r = some (.updateResult true) ∧ w'.live req.dst R.dkey = some R.new) w := by
  refine Logic.safe_perform fun w₁ hle hi p r w₂ hx => ?_
  have hx : R.exec a (.receive call) p w₁ = some (r, w₂) := hx
  obtain ⟨hi', hle'⟩ := Going.exec hi (o := .receive call) trivial hx
  refine ⟨hi', hle', ?_⟩
  obtain ⟨hp, hx⟩ := R.exec_eq hx
  obtain ⟨w₃, he, rfl⟩ := exec_effect hx
  obtain ⟨msg, hmsg⟩ := Option.isSome_iff_exists.mp hp
  have hr : r = some msg := (effect_receive_answer he).trans hmsg
  obtain ⟨rfl, hmem⟩ := effect_receive he
  obtain ⟨htrue, req', hreq', hlive⟩ := hi.answered (call, msg) (hmem msg hr)
  obtain rfl := Option.some.inj (hreq'.symm.trans (hle.request hreq))
  exact ⟨hr.trans (congrArg some htrue), hlive⟩

theorem safe_respond (hlive : w.live a.loc R.dkey = some R.new) (haddr : R.Responsible a.loc)
    {id : Nat} {src : Addr} {msg : RpcMessage} (hjob : a.job = .handle id src msg)
    (hreq : w.requests[id]? = some ⟨src, a.loc, msg⟩) :
    R.Safe a (respond (.updateResult true))
      (fun _ w' => (id, .updateResult true) ∈ w'.answers) w := by
  refine safe_op (o := .respond (.updateResult true)) (fun {w₁} hle _ => ⟨rfl, ?_, ?_⟩)
    fun {w₁ p r w₂} _ hx => ?_
  · exact hle.kept _ haddr hlive
  · intro id' src' msg' hjob'
    cases hjob.symm.trans hjob'
    exact ⟨src, hle.request hreq⟩
  · obtain ⟨w₂, he, rfl⟩ := exec_effect (R.exec_eq hx).2
    obtain ⟨id', src', msg', hjob', rfl⟩ := effect_respond he
    cases hjob.symm.trans hjob'
    exact List.mem_append_right _ (List.mem_singleton.mpr rfl)

/-! ## Verification -/

section
variable {s : Server} (hs : s.platform = cl.platform) {v : Bytes}
include hs

theorem dkey_ne_statusKey : R.dkey ≠ s.statusKey := by
  rw [statusKey_eq hs, ← statusKey_eq (cl.same _ _ R.here)]
  exact R.did

theorem Version.bound (hv : R.Version v) :
    didDocumentMatchesKey s.platform v R.dkey = .ok true := by
  rw [hs]
  rcases hv with rfl | rfl
  · exact R.old_bound.verified
  · exact R.new_bound.verified

theorem Version.signed (hv : R.Version v) : verifySelfSigned s.platform v = .ok true := by
  rw [hs]
  rcases hv with rfl | rfl
  · exact R.old_signed.verified
  · exact R.new_signed.verified

theorem safe_verifyRotation :
    R.Safe a (verifyRotation s R.dkey R.new R.old R.auth) (fun r _ => r = true) w := by
  refine safe_blocking.imp fun r _ hr => ?_
  rw [hr]
  simp only [Bool.and_eq_true, orFalse_eq_true]
  refine ⟨⟨Version.bound hs (Or.inl rfl), Version.bound hs (Or.inr rfl)⟩, ?_⟩
  change verifyKeyRotation s.platform R.new R.old R.auth = .ok true
  rw [hs]
  exact R.authorised.verified R.new_signed

theorem safe_verifySignature (hv : R.Version v) :
    R.Safe a (verifySignature s R.dkey v) (fun r _ => r = true) w := by
  refine safe_blocking.imp fun r _ hr => ?_
  rw [hr, if_neg (dkey_ne_statusKey hs)]
  exact orFalse_eq_true.mpr (hv.signed hs)

theorem safe_verifyRecord (hi : R.Going w) (hloc : a.loc = R.loc) (hv : R.Version v) :
    R.Safe a (verifyRecord s R.dkey v) (fun r _ => r = true) w := by
  have hbound : isBoundToKey s R.dkey v = true := by
    rw [isBoundToKey, Bool.or_eq_true_iff]
    exact Or.inr (orFalse_eq_true.mpr (hv.bound hs))
  have hdomain : verificationDomain s R.dkey = .selfSigned := if_neg (dkey_ne_statusKey hs)
  rw [verifyRecord, hbound, hdomain]
  simp only [Bool.not_true, Bool.false_eq_true, if_false]
  split
  · refine (safe_cacheGet hloc hv).seq hi fun found w₁ _ hi₁ hfound => ?_
    cases found with
    | some cached =>
      cases cached with
      | true => rfl
      | false => exact absurd rfl hfound
    | none =>
      refine (safe_verifySignature hs hv).seq hi₁ fun r w₂ _ hi₂ hr => ?_
      rw [hr]
      exact safe_cacheInsert.seq hi₂ fun _ _ _ _ _ => rfl
  · exact safe_verifySignature hs hv

end

/-! ## The handler of a request -/

theorem safe_rpcUpdate {s : Server} (hs : s.platform = cl.platform) (hi : R.Going w)
    (haddr : R.Responsible a.loc) {sender : NodeId} {src : Addr} :
    R.Safe a (rpcUpdate s sender src R.dkey R.new R.auth)
      (fun r w' => r = true ∧ w'.live a.loc R.dkey = some R.new) w := by
  rw [rpcUpdate, if_neg (dkey_ne_statusKey hs)]
  refine safe_storageGet.seq hi fun found w₁ _ hi₁ hfound => ?_
  obtain ⟨v, hlive, hv⟩ := hi₁.holds a.loc haddr
  obtain rfl := hfound.trans hlive
  refine safe_against.seq hi₁ fun _ w₂ hle₂ hi₂ _ => ?_
  split
  · rename_i heq
    exact ⟨rfl, hle₂.kept _ haddr (heq ▸ hlive)⟩
  · rename_i hne
    obtain rfl := hv.resolve_right hne
    refine (safe_verifyRotation hs).seq hi₂ fun r w₃ _ hi₃ hr => ?_
    rw [hr]
    refine safe_scheduleWelcome.seq hi₃ fun _ w₄ _ hi₄ _ => ?_
    refine (safe_storageSet haddr).seq hi₄ fun st w₅ _ _ hst => ?_
    exact ⟨decide_eq_true hst.1, hst.2⟩

/-- **The handler of a request answers it**, and then has the new version. -/
theorem safe_handleRequest {s : Server} (hs : s.platform = cl.platform) (hi : R.Going w)
    {id : Nat} {req : Request} (hjob : a.job = .handle id req.src req.msg) (hloc : a.loc = req.dst)
    (hreq : w.requests[id]? = some req) :
    R.Safe a (handleRequest s req.src req.msg)
      (fun _ w' => (id, .updateResult true) ∈ w'.answers) w := by
  obtain ⟨src, dst, msg⟩ := req
  obtain rfl : a.loc = dst := hloc
  obtain ⟨haddr, sender, rfl⟩ := hi.sent _ (List.mem_of_getElem? hreq)
  refine ((safe_rpcUpdate hs hi haddr).seq hi fun r w₁ _ _ hr => ?_ :
    R.Safe a (dispatchRequest s src (.update sender R.dkey R.new R.auth)) (fun r w' =>
      r = some (.updateResult true) ∧ w'.live a.loc R.dkey = some R.new) w).seq hi
      fun r w₁ hle hi₁ hr => ?_
  · exact ⟨by rw [hr.1], hr.2⟩
  · obtain ⟨rfl, hlive⟩ := hr
    exact (safe_respond hlive haddr hjob (hle.request hreq)).seq hi₁ fun _ _ _ _ h => h

/-! ## The update -/

section
variable (hloc : a.loc = R.loc)
include hloc

theorem safe_findFirstValid (hi : R.Going w) {values : List Bytes} (hne : values ≠ [])
    (hall : ∀ v ∈ values, R.Version v) :
    R.Safe a (findFirstValid R.srv R.key values)
      (fun r _ => ∃ v, r = some v ∧ R.Version v) w := by
  obtain ⟨v, rest, rfl⟩ := List.exists_cons_of_ne_nil hne
  have hv : R.Version v := hall v List.mem_cons_self
  refine (safe_verifyRecord (cl.same _ _ R.here) hi hloc hv).seq hi fun ok w₁ _ _ hok => ?_
  rw [hok]
  exact ⟨v, rfl, hv⟩

theorem safe_get (hi : R.Going w) : R.Safe a (Network.get R.srv R.key)
    (fun r _ => ∃ v, r = some v ∧ R.Version v) w := by
  refine safe_storageGet.seq hi fun found w₁ _ hi₁ hfound => ?_
  cases found with
  | some v =>
    have hv : R.Version v := hi₁.own v (hloc ▸ hfound.symm)
    simp only [if_pos R.key_ne]
    refine (safe_verifyRecord (cl.same _ _ R.here) hi₁ hloc hv).seq hi₁ fun ok w₂ _ _ hok => ?_
    rw [hok]
    exact ⟨v, rfl, hv⟩
  | none =>
    simp only [getRemote, R.listening, Bool.not_true, Bool.false_eq_true, if_false]
    refine safe_findNeighbors.seq hi₁ fun nearest w₂ _ hi₂ hnearest => ?_
    rw [hnearest, if_neg Bool.false_ne_true, if_pos R.key_ne]
    refine safe_arrivals.seq hi₂ fun values w₃ _ hi₃ hvalues => ?_
    exact safe_findFirstValid hloc hi₃ hvalues.1 hvalues.2

end

theorem safe_updateAuthorised {v : Bytes} (hv : R.Version v) :
    R.Safe a (updateAuthorised R.srv R.key R.new v (some R.auth)) (fun r _ => r = true) w := by
  unfold updateAuthorised
  split
  · rfl
  · rename_i hnew
    have hne : v ≠ R.new := fun he => hnew ⟨R.key_ne, he⟩
    obtain rfl := hv.resolve_right hne
    rw [if_neg fun h => R.key_ne h.1]
    exact safe_verifyRotation (cl.same _ _ R.here)

/-- **A replica that is asked has the new version afterwards.** -/
theorem safe_updateReplica (hi : R.Going w) {n : Node} (hn : n ∈ R.selection.2) :
    R.Safe a (updateReplica R.srv false R.dkey R.new (some R.auth) n) (fun r w' =>
      r = true ∧ ∀ addr, R.Responsible addr → n.address = some addr →
        w'.live addr R.dkey = some R.new) w := by
  obtain ⟨addr, s, haddr, -⟩ := R.served n hn
  have hresp : R.Responsible addr := R.responsible_iff.mpr (Or.inr ⟨n, hn, haddr⟩)
  have hcall : R.Safe a (call n (.update R.srv.node.id R.dkey R.new R.auth)) (fun r w' =>
      r = some (.updateResult true) ∧ w'.live addr R.dkey = some R.new) w := by
    unfold call
    rw [haddr]
    refine (safe_send hresp).seq hi fun call w₁ _ _ hcall => ?_
    exact safe_receive hcall
  have hanswer : R.Safe a (callUpdateRpcAnswer R.srv n R.dkey R.new R.auth) (fun r w' =>
      r = some true ∧ w'.live addr R.dkey = some R.new) w := by
    refine hcall.seq hi fun r w₁ _ _ hr => ?_
    obtain ⟨rfl, hlive⟩ := hr
    exact ⟨rfl, hlive⟩
  refine hanswer.seq hi fun r w₁ _ _ hr => ?_
  obtain ⟨rfl, hlive⟩ := hr
  refine ⟨rfl, fun addr' _ haddr' => ?_⟩
  obtain rfl := Option.some.inj (haddr.symm.trans haddr')
  exact hlive

/-- Every responsible node has the new version. -/
def Complete (R : Retry cl) (w : World) : Prop :=
  ∀ addr, R.Responsible addr → w.live addr R.dkey = some R.new

theorem Complete.mono (h : R.Complete w) (hle : R.Onward w w') : R.Complete w' :=
  fun addr ha => hle.kept addr ha (h addr ha)

theorem safe_updateReplicas (hi : R.Going w) :
    R.Safe a (Prog.joinAll R.selection.2 fun n =>
        updateReplica R.srv false R.dkey R.new (some R.auth) n)
      (fun results w' => (∀ r ∈ results, r = true) ∧ results.length = R.selection.2.length ∧
        ∀ n ∈ R.selection.2, ∀ addr, n.address = some addr →
          w'.live addr R.dkey = some R.new) w := by
  refine Logic.safe_joinAll (L := R.logic) (fun n r => ?_) (fun n hn => safe_updateReplica hi hn)
    fun {rs w₁} _ _ hall => ⟨?_, hall.length_eq.symm, fun n hn addr haddr => ?_⟩
  · exact fun hle h => ⟨h.1, fun addr ha haddr => hle.kept addr ha (h.2 addr ha haddr)⟩
  · intro r hr
    obtain ⟨i, hi, rfl⟩ := List.getElem_of_mem hr
    exact ((List.forall₂_iff_get.mp hall).2 i (hall.length_eq ▸ hi) hi).1
  · obtain ⟨i, hi, rfl⟩ := List.getElem_of_mem hn
    have hresp : R.Responsible addr := R.responsible_iff.mpr (Or.inr ⟨_, hn, haddr⟩)
    exact ((List.forall₂_iff_get.mp hall).2 i hi (hall.length_eq ▸ hi)).2 addr hresp haddr

theorem safe_updateDigest (hloc : a.loc = R.loc) (hi : R.Going w) :
    R.Safe a (updateDigest R.srv R.key R.new (some R.auth))
      (fun r w' => r = true ∧ R.Complete w') w := by
  simp only [updateDigest, R.listening, Bool.not_true, Bool.false_eq_true, if_false]
  refine safe_findNeighbors.seq hi fun nearest w₁ _ hi₁ hnearest => ?_
  rw [hnearest, if_neg Bool.false_ne_true]
  refine safe_lookupNodes.seq hi₁ fun lookup w₂ _ hi₂ hlookup => ?_
  rw [hlookup]
  refine safe_select.seq hi₂ fun _ w₃ _ hi₃ _ => ?_
  rw [decide_eq_false R.key_ne]
  refine (safe_updateReplicas hi₃).seq hi₃ fun results w₄ _ hi₄ hresults => ?_
  obtain ⟨htrue, hlen, hlive⟩ := hresults
  have hsome : R.selection.1 = true ∨ results ≠ [] := by
    refine R.selection_nonempty.imp id fun hne hnil => hne ?_
    exact List.length_eq_zero_iff.mp (by rw [← hlen, hnil, List.length_nil])
  have hcomplete : ∀ {w₅}, R.Onward w₄ w₅ →
      (R.selection.1 = true → w₅.live R.loc R.dkey = some R.new) → R.Complete w₅ := by
    intro w₅ hle hlocal addr haddr
    rcases R.responsible_iff.mp haddr with ⟨h, rfl⟩ | ⟨n, hn, hnaddr⟩
    · exact hlocal h
    · exact hle.kept addr haddr (hlive n hn addr hnaddr)
  change R.Safe a (if quorumMet R.srv.alpha R.selection.1 results then
    if R.selection.1 = true then _ else _ else _) _ _
  rw [if_pos (quorumMet_of_all R.alpha_pos htrue hsome)]
  split
  · rename_i hlocal
    have hresp : R.Responsible a.loc := R.responsible_iff.mpr (Or.inl ⟨hlocal, hloc⟩)
    refine (safe_storageSet hresp).seq hi₄ fun st w₅ hle₅ _ hst => ⟨decide_eq_true hst.1, ?_⟩
    exact hcomplete hle₅ fun _ => hloc ▸ hst.2
  · rename_i hlocal
    exact ⟨rfl, hcomplete (.refl _) fun h => absurd h hlocal⟩

theorem safe_update (hloc : a.loc = R.loc) (hi : R.Going w) :
    R.Safe a (Network.update R.srv R.key R.new (some R.auth))
      (fun r w' => r = some true ∧ R.Complete w') w := by
  refine (safe_get hloc hi).seq hi fun r w₁ _ hi₁ hr => ?_
  obtain ⟨v, rfl, hv⟩ := hr
  refine safe_against.seq hi₁ fun _ w₂ _ hi₂ _ => ?_
  refine (safe_updateAuthorised hv).seq hi₂ fun ok w₃ _ hi₃ hok => ?_
  rw [hok]
  refine (safe_updateDigest hloc hi₃).seq hi₃ fun r w₄ _ _ hr => ?_
  exact ⟨congrArg some hr.1, hr.2⟩

/-! ## Whole runs -/

variable (R) in
/-- What a task of the setting has done when it has ended. -/
def Done (a : Agent) (res : Res) (w : World) : Prop :=
  match a.job with
  | .handle id _ _ => (id, .updateResult true) ∈ w.answers
  | _ => res = .update (some true) ∧ R.Complete w

theorem done_stable (a : Agent) (res : Res) : R.logic.Stable (R.Done a res) := by
  intro w w' hle h
  unfold Done at h ⊢
  split at h
  · exact hle.answers.subset h
  · exact ⟨h.1, h.2.mono hle⟩

theorem start_update {n : Nat} {p : Routine Res} (h : R.start .update n w = some (a, p)) :
    n = 0 ∧ a = ⟨n, R.loc, .update R.key R.new (some R.auth)⟩ ∧
      p = Job.prog R.srv (.update R.key R.new (some R.auth)) := by
  simp only [start] at h
  split at h
  · simp only [Runtime.start, Call.job, Option.bind_some, R.here, Option.map_some,
      Option.some.injEq, Prod.mk.injEq] at h
    exact ⟨‹_›, h.1.symm, h.2.symm⟩
  · cases h

theorem start_handle {id n : Nat} {p : Routine Res} (h : R.start (.handle id) n w = some (a, p)) :
    ∃ req s, w.requests[id]? = some req ∧ cl.server req.dst = some s ∧
      a = ⟨n, req.dst, .handle id req.src req.msg⟩ ∧
      p = Job.prog s (.handle id req.src req.msg) := by
  obtain ⟨⟨loc, job⟩, hjob, h⟩ := Option.bind_eq_some_iff.mp h
  obtain ⟨req, hreq, hj⟩ := Option.map_eq_some_iff.mp hjob
  obtain ⟨rfl, rfl⟩ := Prod.mk.inj hj
  obtain ⟨s, hs, h⟩ := Option.map_eq_some_iff.mp h
  obtain ⟨rfl, rfl⟩ := Prod.mk.inj h
  exact ⟨req, s, hreq, hs, rfl, rfl⟩

theorem safe_start {call : Calls} {n : Nat} {p : Routine Res} (hi : R.Going w)
    (h : R.start call n w = some (a, p)) : R.Safe a p (R.Done a) w := by
  cases call with
  | update =>
    obtain ⟨-, rfl, rfl⟩ := start_update h
    exact (safe_update rfl hi).seq hi fun r _ _ _ hr => ⟨congrArg _ hr.1, hr.2⟩
  | handle id =>
    obtain ⟨req, s, hreq, hs, rfl, rfl⟩ := start_handle h
    exact (safe_handleRequest (cl.same _ _ hs) hi rfl rfl hreq).seq hi fun _ _ _ _ hr => hr

section
variable {w₀ : World} (h₀ : R.Going w₀) {c : R.system.Config}
include h₀

theorem run_going (h : R.system.Run w₀ c) :
    R.Going c.world ∧ ∀ p ∈ c.procs, R.Safe p.agent p.prog (R.Done p.agent) c.world :=
  Logic.run_safe (L := R.logic) done_stable h₀ (fun hi he => Going.elapse hi he) safe_start h

theorem run_onward {c' : R.system.Config} {m : R.system.Move} (h : R.system.Run w₀ c)
    (hm : R.system.move c m = some c') : R.Onward c.world c'.world :=
  Logic.run_le (L := R.logic) done_stable h₀ (fun hi he => Going.elapse hi he) safe_start h hm

theorem done_of_ended (h : R.system.Run w₀ c) {p : R.system.Proc} (hp : p ∈ c.procs) {res : Res}
    (hres : p.prog.value? = some res) : R.Done p.agent res c.world := by
  have hsafe := (run_going h₀ h).2 p hp
  rw [Prog.eq_ret_of_value? hres] at hsafe
  exact hsafe

/-! ## Nobody gets stuck -/

variable (R) in
/-- A good outcome of whatever is left open. -/
def luck : Pick where
  nodes := [R.srv.node]
  lookup := ⟨R.found, 0⟩
  values := [R.new]
  answer := some (.updateResult true)

end

theorem exec_ready {o : Op} (hreceive : ∀ call, o = .receive call →
      (call, .updateResult true) ∈ w.answers)
    (hrespond : ∀ msg, o = .respond msg → ∃ id src m, a.job = .handle id src m) :
    ∃ x, R.exec a o R.luck w = some x := by
  have hallows : R.allows o R.luck = true := by
    cases o <;> simp [allows, luck, Version]
  have heffect : (effect cl a o R.luck w).isSome = true := by
    cases o with
    | receive call => simp only [effect, luck, if_pos (hreceive call rfl), Option.isSome_some]
    | respond msg =>
      obtain ⟨id, src, m, hjob⟩ := hrespond msg rfl
      simp only [effect, hjob, Option.isSome_some]
    | _ => rfl
  refine Option.isSome_iff_exists.mp ?_
  rw [exec, if_pos hallows, Runtime.exec, Option.isSome_map]
  exact heffect

/-- The operations of a task that need no one else. -/
def Own (a : Agent) : Op → Prop
  | .receive _ => False
  | .respond _ => ∃ id src m, a.job = .handle id src m
  | _ => True

variable {w₀ : World}

theorem own_ready {o : Op} (c : R.system.Config) (h : Own a o) :
    ∃ pick x, R.system.exec a o pick c.world = some x := by
  refine ⟨R.luck, exec_ready (fun call ho => ?_) fun msg ho => ?_⟩
  · rw [ho] at h
    exact absurd h id
  · rw [ho] at h
    exact h

variable (R) (w₀) in
/-- The programs that never get stuck in the runs from `w₀` on. -/
abbrev Goes (a : Agent) {α : Type} (p : Routine α) (w : World) : Prop := R.logic.Goes w₀ a p w

theorem goes_of_within {α : Type} {p : Routine α} (h : p.Within (Own a)) : R.Goes w₀ a p w :=
  Logic.Goes.of_within own_ready h

theorem goes_of_reads {α : Type} {p : Routine α} (h : Reads p) : R.Goes w₀ a p w :=
  goes_of_within (h.imp fun o ho => by cases o <;> trivial)

theorem goes_perform {o : Op} (h : Own a o) : R.Goes w₀ a (perform o) w :=
  goes_of_within (.perform h)

theorem goes_handleRequest {s : Server} {id : Nat} {src : Addr} {msg : RpcMessage}
    (hjob : a.job = .handle id src msg) : R.Goes w₀ a (handleRequest s src msg) w := by
  refine goes_of_within ((handleRequest_handling s src msg).imp fun o ho => ?_)
  cases o with
  | receive call => exact ho
  | respond msg => exact ⟨id, src, _, hjob⟩
  | _ => trivial

section
variable (h₀ : R.Going w₀)
include h₀

/-- **A request is answered**, if its handler is given the time. -/
theorem helped_answer {c : R.system.Config} (hrun : R.system.Run w₀ c) {id : Nat} {req : Request}
    (hreq : c.world.requests[id]? = some req) :
    ∃ c', R.system.Helped c c' ∧ (id, .updateResult true) ∈ c'.world.answers := by
  have hsent := (run_going h₀ hrun).1.sent req (List.mem_of_getElem? hreq)
  obtain ⟨s, hs⟩ := R.responsible_served hsent.1
  let p : R.system.Proc := ⟨⟨c.procs.length, req.dst, .handle id req.src req.msg⟩,
    Job.prog s (.handle id req.src req.msg)⟩
  have hmove : R.system.move c (.start (.handle id)) = some ⟨c.world, c.procs ++ [p]⟩ := by
    have hstart : R.start (.handle id) c.procs.length c.world = some (p.agent, p.prog) := by
      simp only [start, Runtime.start, Call.job, hreq, Option.map_some, Option.bind_some, hs]
      rfl
    exact Option.map_eq_some_iff.mpr ⟨_, hstart, rfl⟩
  have hgoes : R.Goes w₀ p.agent p.prog c.world :=
    .bind (goes_handleRequest rfl) fun _ _ _ => .pure _
  obtain ⟨c', x, hlead, hpre⟩ := hgoes.finishes (run_onward h₀) R.luck System.Context.id
    (.move _ hrun hmove) (Onward.refl _) List.getElem?_concat_length
  rw [List.set_append_right _ _ (le_refl _), Nat.sub_self, List.set_cons_zero] at hpre
  refine ⟨c', ⟨(System.Leads.move hmove).trans hlead, (List.prefix_append _ _).trans hpre⟩, ?_⟩
  have hended := done_of_ended h₀ (hlead.run (.move _ hrun hmove))
    (hpre.subset (List.mem_append_right _ (List.mem_singleton.mpr rfl))) rfl
  exact hended

theorem goes_receive {call : Nat} {req : Request} (hreq : w.requests[call]? = some req) :
    R.Goes w₀ a (receive call) w := by
  refine ⟨fun c hrun hle => ?_, fun _ _ _ _ _ _ _ => trivial⟩
  obtain ⟨c', hhelp, hans⟩ := helped_answer h₀ hrun (hle.request hreq)
  refine ⟨c', hhelp, R.luck, exec_ready (o := .receive call) (a := a) (w := c'.world) ?_ ?_⟩
  · rintro _ ⟨⟩
    exact hans
  · intro msg ho
    cases ho

theorem goes_call {n : Node} {msg : RpcMessage} : R.Goes w₀ a (call n msg) w := by
  unfold call
  split
  · exact .pure _
  rename_i addr _
  refine Logic.Goes.perform (fun c _ _ => ⟨c, .refl c, own_ready c trivial⟩) ?_
  intro w₁ p r w₂ _ hx _
  have hx : R.exec a (.send addr msg) p w₁ = some (r, w₂) := hx
  obtain ⟨w₃, he, rfl⟩ := exec_effect (R.exec_eq hx).2
  obtain ⟨rfl, rfl⟩ := Prod.mk.inj (Option.some.inj he)
  have hsent : (w₁.requests ++ [⟨a.loc, addr, msg⟩])[w₁.requests.length]? =
      some ⟨a.loc, addr, msg⟩ := List.getElem?_concat_length
  exact goes_receive h₀ hsent

theorem goes_updateReplica {n : Node} {isStatusList : Bool} {value : Bytes} :
    R.Goes w₀ a (updateReplica R.srv isStatusList R.dkey value (some R.auth) n) w := by
  unfold updateReplica
  split
  · refine .bind (goes_call h₀) fun ans _ _ => ?_
    split
    · exact .pure _
    · exact .pure _
  refine .bind (.bind (goes_call h₀) fun ans _ _ => ?_) fun ok _ _ => ?_
  · split
    · exact .pure _
    · exact .pure _
  split
  · exact .pure _
  · refine .bind (.bind (goes_call h₀) fun ans _ _ => ?_) fun st _ _ => ?_
    · split
      · exact .pure _
      · exact .pure _
    · split
      · exact .pure _
      · exact .pure _
      · exact .pure _
  · exact .pure _

theorem goes_update : R.Goes w₀ a (Network.update R.srv R.key R.new (some R.auth)) w := by
  have hdigest : ∀ {w}, R.Goes w₀ a (updateDigest R.srv R.key R.new (some R.auth)) w := by
    intro w
    unfold updateDigest
    simp only
    split
    · exact .pure _
    refine .bind (goes_perform trivial) fun nearest _ _ => ?_
    split
    · exact .pure _
    refine .bind (goes_perform trivial) fun lookup _ _ => .bind (goes_perform trivial) fun _ _ _ =>
      .bind (.joinAll fun n _ => goes_updateReplica h₀) fun results _ _ => ?_
    split
    · split
      · exact .bind (goes_perform trivial) fun _ _ _ => .pure _
      · exact .pure _
    · exact .pure _
  refine .bind (goes_of_reads (get_reads ..)) fun found _ _ => ?_
  split
  · exact .pure _
  refine .bind (goes_perform trivial) fun _ _ _ =>
    .bind (goes_of_reads (reads_of_checks (updateAuthorised_checks ..))) fun ok _ _ => ?_
  split
  · exact .pure _
  · exact .bind hdigest fun _ _ _ => .pure _

theorem run_goes {c : R.system.Config} (h : R.system.Run w₀ c) :
    ∀ p ∈ c.procs, R.Goes w₀ p.agent p.prog c.world := by
  refine Logic.run_goes (L := R.logic) (run_onward h₀) ?_ h
  intro call n c a p hrun hstart
  cases call with
  | update =>
    obtain ⟨-, rfl, rfl⟩ := start_update hstart
    exact .bind (goes_update h₀) fun _ _ _ => .pure _
  | handle id =>
    obtain ⟨req, s, hreq, hs, rfl, rfl⟩ := start_handle (R := R) hstart
    exact .bind (goes_handleRequest rfl) fun _ _ _ => .pure _

/-- **Every task can come to its end**, from wherever a run has come. -/
theorem run_finishes {c : R.system.Config} (h : R.system.Run w₀ c) {i : Nat} {p : R.system.Proc}
    (hp : c.procs[i]? = some p) :
    ∃ c' res, R.system.Leads c c' ∧ c'.procs[i]? = some ⟨p.agent, .ret res⟩ := by
  have hgoes := run_goes h₀ h p (List.mem_of_getElem? hp)
  obtain ⟨c', res, hlead, hpre⟩ := hgoes.finishes (run_onward h₀) R.luck System.Context.id h
    (Onward.refl _) hp
  refine ⟨c', res, hlead, ?_⟩
  have hlt : i < c.procs.length := (List.getElem?_eq_some_iff.mp hp).1
  obtain ⟨t, ht⟩ := hpre
  rw [← ht, List.getElem?_append_left (by rw [List.length_set]; exact hlt)]
  exact List.getElem?_set_self hlt

end

end Retry

end AuthKademlia.Runtime
