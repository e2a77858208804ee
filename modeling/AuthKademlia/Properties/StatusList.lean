import AuthKademlia.Crawling.ListedNetwork
import AuthKademlia.Properties.UpdateQuorum

/-! # Reading the Status List after an update

The issuer's update reaches a majority of its consistency group, the `alpha`
closest responsible nodes; the issuer counts as the first of them if it is
responsible. A later read asks the closest nodes for `alpha` copies, its own copy
counting as the first. The two groups may differ by one node, and with an odd
`alpha` that is enough for a replica that missed the update to win a read. -/
namespace AuthKademlia.Properties
open AuthKademlia.Lib.Async AuthKademlia.Lib.Trace AuthKademlia.Lib.Quorum AuthKademlia.Utils
open AuthKademlia.Lib.Shortlist AuthKademlia.Storage AuthKademlia.AuthHandler
open AuthKademlia.Protocol AuthKademlia.Network AuthKademlia.Runtime AuthKademlia.Routing
open AuthKademlia.Crawling AuthKademlia.Crawling.ListedNetwork AuthKademlia.Crawling.StableNetwork

def statusKey (cl : Cluster) : NodeId := cl.platform.hashes.digest statusListKey

/-- The honest nodes of a network, closest to the key of the Status List first. -/
structure Members (cl : Cluster) (k alpha : Nat) where
  ranked : List Node
  ordered : Ordered (.fromId (statusKey cl)) ranked
  apart : statusKey cl ∉ ranked.map Node.id
  enough : k ≤ ranked.length
  serves : ∀ n ∈ ranked, ∃ addr srv, n.address = some addr ∧ cl.server addr = some srv ∧
    srv.node = n ∧ srv.ksize = k ∧ srv.alpha = alpha

namespace Members

variable {cl : Cluster} {k alpha : Nat} (net : Members cl k alpha) {i x n : Node}

/-- The nodes responsible for the Status List. -/
def responsible : List Node := net.ranked.take k

def others (x : Node) : List Node := net.ranked.filter fun n => n ≠ x

variable {net}

theorem others_ordered (x : Node) : Ordered (.fromId (statusKey cl)) (net.others x) :=
  List.Pairwise.sublist List.filter_sublist net.ordered

theorem others_apart (x : Node) : (Node.fromId (statusKey cl)).id ∉ (net.others x).map Node.id :=
  fun h => net.apart ((List.filter_sublist.map Node.id).subset h)

theorem mem_others : n ∈ net.others x ↔ n ∈ net.ranked ∧ n ≠ x := by simp [others]

/-! ## The selection of the responsible nodes -/

/-- **The nodes an update selects** are the responsible ones, when its lookup found
the `k` closest of the other nodes. -/
theorem selectResponsibleNodes_eq (hi : i ∈ net.ranked) :
    selectResponsibleNodes i (.fromId (statusKey cl)) ((net.others i).take k) k =
      (decide (i ∈ net.responsible), net.responsible.filter fun n => n ≠ i) := by
  have hmem : ∀ n, n ∈ (net.others i).take k ++ [i] → n ∈ net.ranked := by
    intro n hn
    rcases List.mem_append.mp hn with hn | hn
    · exact (mem_others.mp (List.mem_of_mem_take hn)).1
    · rwa [List.mem_singleton.mp hn]
  have hnd : (((net.others i).take k ++ [i]).map Node.id).Nodup := by
    rw [List.map_append, List.nodup_append]
    refine ⟨(others_ordered i).nodup_ids.sublist ((List.take_sublist _ _).map _), by simp, ?_⟩
    rintro _ ha _ hb rfl
    obtain ⟨n, hn, hid⟩ := List.mem_map.mp ha
    obtain ⟨hr, hne⟩ := mem_others.mp (List.mem_of_mem_take hn)
    exact hne (net.ordered.eq_of_id hr hi (hid.trans (by simpa using hb)))
  -- the `k` closest of the selection are the `k` closest of all
  have hshort : Nearest k (distTo (Node.fromId (statusKey cl)).longId)
      {x | x ∈ ((net.others i).take k ++ [i]).map Node.id} (net.responsible.map Node.id) := by
    have hall := net.ordered.nearest k
    refine ⟨hall.increasing, fun x hx => ?_, hall.length_le, fun x hx hout => hall.rest x ?_ hout⟩
    · obtain ⟨n, hn, rfl⟩ := List.mem_map.mp hx
      refine List.mem_map_of_mem ?_
      by_cases hni : n = i
      · simp [hni]
      · exact List.mem_append_left _ (mem_take_filter hn (decide_eq_true hni))
    · obtain ⟨n, hn, rfl⟩ := List.mem_map.mp hx
      exact List.mem_map_of_mem (hmem n hn)
  have hchosen : (((net.others i).take k ++ [i]).insertionSort fun a b =>
      a.distanceTo (.fromId (statusKey cl)) ≤ b.distanceTo (.fromId (statusKey cl))).take k =
        net.responsible :=
    net.ordered.eq_of_ids
      (fun n hn => hmem n ((List.mem_insertionSort _).mp (List.mem_of_mem_take hn)))
      (fun n hn => List.mem_of_mem_take hn)
      ((nearest_sort_map (fun _ _ _ _ he => distTo_injective _ he) (fun _ _ => rfl) hnd).unique
        hshort)
  have hid : ∀ n ∈ net.responsible, (n.id = i.id ↔ n = i) := fun n hn =>
    ⟨net.ordered.eq_of_id (List.mem_of_mem_take hn) hi, fun h => h ▸ rfl⟩
  rw [selectResponsibleNodes_distinct hnd hchosen]
  refine Prod.ext ?_ (List.filter_congr fun n hn => by simp [hid n hn])
  rw [Bool.eq_iff_iff, List.any_eq_true, decide_eq_true_eq]
  constructor
  · rintro ⟨n, hn, he⟩
    exact (hid n hn).mp (of_decide_eq_true he) ▸ hn
  · exact fun h => ⟨i, h, by simp⟩

end Members

/-! ## Honest answers -/

section
variable {cl : Cluster} {k alpha : Nat} (net : Members cl k alpha)

/-- A node that lists all the others answers FIND_NODE. -/
def FindNodeReply (asker : Node) (a : Answer) : Prop :=
  ∃ n ∈ net.ranked, n.id = a.peer ∧ ∃ t, Lists t k (net.others n) ∧
    a.raw = foundNodes (rpcFindNode t asker (statusKey cl))

/-- A node that lists all the others answers FIND_VALUE, at a point of the history
between `before` and `after`. A responsible node serves the record last written;
what the others serve is left open. -/
def FindValueReply (init : Addr → ForgetfulStorage) (before after : List Event) (asker : Node)
    (a : Answer) : Prop :=
  ∃ n ∈ net.ranked, n.id = a.peer ∧ ∃ t addr srv record pre, Lists t k (net.others n) ∧
    n.address = some addr ∧ cl.server addr = some srv ∧ before <+: pre ∧ pre <+: after ∧
    (n ∈ net.responsible → record = lastWritten init pre addr (statusKey cl)) ∧
    a.raw = rpcFindValue srv record t asker (statusKey cl)

variable {net} {asker n : Node} {a : Answer} {init : Addr → ForgetfulStorage}
  {before after : List Event}

theorem Members.mem_others_of_advertised {t : RoutingTable} {m : Node}
    (ht : Lists t k (net.others n))
    (hm : m ∈ t.findNeighborsToAdvertise (.fromId (statusKey cl)) (some asker)) :
    m ∈ net.others asker := by
  obtain ⟨hp, hcond⟩ := List.mem_filter.mp (RoutingTable.mem_eligible_of_mem_closest hm)
  simp only [Option.all_some, Bool.and_eq_true, decide_eq_true_eq] at hcond
  refine Members.mem_others.mpr ⟨(Members.mem_others.mp (ht.primaries.mem_iff.mp hp)).1, ?_⟩
  exact fun h => hcond.1.2 (h ▸ rfl)

theorem FindNodeReply.genuine (h : FindNodeReply net asker a) : Genuine (net.others asker) a := by
  obtain ⟨n, -, -, t, ht, hraw⟩ := h
  refine ⟨by rw [hraw]; rfl, fun m hm => ?_⟩
  rw [hraw, foundNodes_getNodeList] at hm
  exact Members.mem_others_of_advertised ht hm

theorem FindValueReply.genuine (h : FindValueReply net init before after asker a) :
    Genuine (net.others asker) a := by
  obtain ⟨n, -, -, t, addr, srv, record, pre, ht, -, -, -, -, -, hraw⟩ := h
  rcases rpcFindValue_cases srv record t asker (statusKey cl) with ⟨v, hv⟩ | hnodes
  · rw [hv] at hraw
    refine ⟨by rw [hraw]; rfl, fun m hm => ?_⟩
    rw [hraw] at hm
    cases hm
  · rw [hnodes] at hraw
    refine ⟨by rw [hraw]; rfl, fun m hm => ?_⟩
    rw [hraw, foundNodes_getNodeList] at hm
    exact Members.mem_others_of_advertised ht hm

theorem FindValueReply.vote (h : FindValueReply net init before after asker a)
    (hn : n ∈ net.responsible) (hid : n.id = a.peer) :
    ∃ addr pre, n.address = some addr ∧ before <+: pre ∧ pre <+: after ∧
      ∀ v, lastWritten init pre addr (statusKey cl) = some v → QuorumRead.vote a = some v := by
  obtain ⟨n', hn', hid', t, addr, srv, record, pre, -, haddr, hsrv, hb, ha, hrec, hraw⟩ := h
  obtain rfl := net.ordered.eq_of_id hn' (List.mem_of_mem_take hn) (hid'.trans hid.symm)
  refine ⟨addr, pre, haddr, hb, ha, fun v hv => ?_⟩
  have hbound : isBoundToKey srv (statusKey cl) v = true := by
    simp [isBoundToKey, Server.statusKey, Server.digest, statusKey, cl.same addr srv hsrv]
  rw [hrec hn, hv, rpcFindValue, if_pos hbound] at hraw
  simp [QuorumRead.vote, hraw, RawResponse.happened, RawResponse.getValue]

end

/-! ## A read after an update -/

/-- A run in which all responsible nodes hold `old`, the issuer's update to `new`
succeeds, and then a node reads. `before` is the configuration in which the
update has returned, `after` the one in which the read has. Requests may be lost,
but lookups are answered: every node lists all the others, and answers FIND_NODE
and FIND_VALUE honestly. -/
structure StatusRead {cl : Cluster} {k alpha : Nat} (net : Members cl k alpha) where
  old : Bytes
  new : Bytes
  start : World
  before : (system cl).Config
  moves : List (system cl).Move
  after : (system cl).Config
  fresh : Fresh start
  run : (system cl).Run start before
  later : (system cl).replay moves before = some after
  held : ∀ n ∈ net.responsible, ∀ addr, n.address = some addr →
    (start.storage addr).held (statusKey cl).bytes = some old
  kept : ∀ n ∈ net.responsible, ∀ addr, n.address = some addr →
    NoExpiry start.storage addr (statusKey cl) after.world.log
  /-- No other update is made. -/
  only : ∀ e ∈ after.world.log, ∀ v, e.op = .storageSet (statusKey cl) v → v = new
  issuer : Node
  issuer_mem : issuer ∈ net.ranked
  write : (system cl).Proc
  auth : Option Bytes
  write_mem : write ∈ before.procs
  write_job : Agent.job write.agent = .update statusListKey new auth
  write_loc : issuer.address = some (Agent.loc write.agent)
  write_result : write.prog.value? = some (.update (some true))
  write_nearest : ∀ nearest,
    Did after.world.log write.agent (.findNeighbors (statusKey cl)) nearest →
    ∃ t, Lists t k (net.others issuer) ∧ nearest = t.findNeighbors (.fromId (statusKey cl)) none
  write_lookup : ∀ nearest L, Did after.world.log write.agent
    (.lookupNodes (statusKey cl) nearest) L → ∃ peers fuel rs,
      NodeLookup.findLookupNodes peers fuel (.new (.fromId (statusKey cl)) nearest k alpha) [] =
        some (L, rs) ∧ ∀ rd ∈ rs, ∀ a ∈ rd.answers, FindNodeReply net issuer a
  reader : Node
  reader_mem : reader ∈ net.ranked
  read : (system cl).Proc
  /-- The number of the read among the tasks started. -/
  number : Nat
  read_at : after.procs[number]? = some read
  read_later : before.procs.length ≤ number
  read_job : Agent.job read.agent = .get statusListKey
  read_loc : reader.address = some (Agent.loc read.agent)
  result : Option Bytes
  read_result : read.prog.value? = some (.get result)
  read_nearest : ∀ nearest, Did after.world.log read.agent (.findNeighbors (statusKey cl)) nearest →
    ∃ t, Lists t k (net.others reader) ∧ nearest = t.findNeighbors (.fromId (statusKey cl)) none
  read_poll : ∀ nearest initial minimumVotes maximumVotes r, Did after.world.log read.agent
    (.findQuorum (statusKey cl) nearest initial minimumVotes maximumVotes) r → ∃ peers fuel rs,
      QuorumRead.findQuorum peers minimumVotes maximumVotes fuel
        (.new (.fromId (statusKey cl)) nearest k alpha) initial [] = some (r, rs) ∧
      ∀ rd ∈ rs, ∀ a ∈ rd.answers,
        FindValueReply net start.storage before.world.log after.world.log reader a

namespace StatusRead

variable {cl : Cluster} {k alpha : Nat} {net : Members cl k alpha} (S : StatusRead net)
  {n : Node} {addr : Addr} {pre : List Event}

theorem run_after : (system cl).Run S.start S.after := System.Run.replay _ S.moves S.run S.later

theorem log_le : S.before.world.log <+: S.after.world.log := replay_log S.later

/-- What was the record keeps being it. -/
def Stays (v x y : Bytes) : Prop := x = v → y = v

instance (v : Bytes) : Std.Refl (Stays v) := ⟨fun _ h => h⟩

instance (v : Bytes) : IsTrans Bytes (Stays v) := ⟨fun _ _ _ h h' hx => h' (h hx)⟩

theorem moves_stays (hn : n ∈ net.responsible) (haddr : n.address = some addr) :
    Moves (Event.wrote addr (statusKey cl)) ((S.start.storage addr).held (statusKey cl).bytes)
      (Stays S.new) S.after.world.log := by
  obtain ⟨hinv, -⟩ := run_inv S.fresh S.run_after
  intro pre e post hlog x y hx hy hxv
  rcases write_of_noExpiry hinv (S.kept n hn addr haddr) hlog hx hy with ⟨-, hop⟩ | h
  · exact S.only e (by simp [hlog]) y hop
  · exact h ▸ hxv

/-- A responsible node that took the update before it returned serves it later. -/
theorem serves_new (hn : n ∈ net.responsible) (haddr : n.address = some addr)
    (hheld : WasHeld S.start.storage S.before.world.log addr (statusKey cl) S.new)
    (hb : S.before.world.log <+: pre) (ha : pre <+: S.after.world.log) :
    lastWritten S.start.storage pre addr (statusKey cl) = some S.new := by
  obtain ⟨p, hp, hlast⟩ := hheld
  obtain ⟨mid, rfl⟩ := hp.trans hb
  have hmoves := S.moves_stays hn haddr
  obtain ⟨y, hy, hstays⟩ := Moves.onwards p hlast (hmoves.of_prefix ha)
  rw [lastWritten, hy, hstays rfl]

theorem serves_some (hn : n ∈ net.responsible) (haddr : n.address = some addr) (pre : List Event) :
    ∃ v, lastWritten S.start.storage pre addr (statusKey cl) = some v := by
  refine Option.ne_none_iff_exists'.mp (latest_ne_none ?_ pre)
  rw [S.held n hn addr haddr]
  exact Option.some_ne_none _

theorem read_event {o : Op} {r : Ans o} (h : Did S.after.world.log S.read.agent o r) :
    ∃ pre live post, S.after.world.log = pre ++ ⟨S.read.agent, o, r, live⟩ :: post ∧
      S.before.world.log <+: pre := by
  obtain ⟨live, hmem⟩ := h
  obtain ⟨pre, post, hlog⟩ := List.append_of_mem hmem
  refine ⟨pre, live, post, hlog, ?_⟩
  rcases List.prefix_or_prefix_of_prefix S.log_le (hlog ▸ List.prefix_append pre _) with h | h
  · exact h
  · -- otherwise the event would be one of a task not started yet
    obtain ⟨mid, hmid⟩ := h
    have hle := S.log_le
    rw [hlog, ← hmid, List.prefix_append_right_inj] at hle
    cases mid with
    | nil => rw [← hmid, List.append_nil]
    | cons e mid =>
      obtain ⟨rfl, -⟩ := List.cons_prefix_cons.mp hle
      have hlt := (run_numbered S.fresh.log S.run).events _
        (hmid ▸ List.mem_append_right pre List.mem_cons_self)
      obtain ⟨hnum, hread⟩ := List.getElem?_eq_some_iff.mp S.read_at
      have hpid := (run_numbered S.fresh.log S.run_after).procs S.number hnum
      rw [List.get_eq_getElem, hread] at hpid
      have := S.read_later
      change Agent.pid S.read.agent < _ at hlt
      omega

/-! ## Counting -/

open Classical in
/-- The responsible node with this id took the update before it returned. -/
noncomputable def consents (x : NodeId) : Bool :=
  decide (∃ n ∈ net.responsible, n.id = x ∧
    hasHeld cl S.start.storage S.before.world.log (statusKey cl) S.new n.address = true)

open Classical in
theorem consents_iff {x : NodeId} : S.consents x = true ↔ ∃ n ∈ net.responsible, n.id = x ∧
    hasHeld cl S.start.storage S.before.world.log (statusKey cl) S.new n.address = true := by
  rw [consents, decide_eq_true_iff]

theorem consents_serves {x : NodeId} (h : S.consents x = true) : ∃ n ∈ net.responsible,
    n.id = x ∧ ∀ addr, n.address = some addr → ∀ pre, S.before.world.log <+: pre →
      pre <+: S.after.world.log →
      lastWritten S.start.storage pre addr (statusKey cl) = some S.new := by
  obtain ⟨n, hn, hid, hheld⟩ := S.consents_iff.mp h
  refine ⟨n, hn, hid, fun addr haddr pre hb ha => S.serves_new hn haddr ?_ hb ha⟩
  obtain ⟨addr', srv, haddr', hsrv, -⟩ := net.serves n (List.mem_of_mem_take hn)
  obtain rfl := Option.some.inj (haddr.symm.trans haddr')
  exact hasHeld_iff.mp hheld addr haddr (by rw [hsrv]; rfl)

/-- **The update has the consent of a majority** of its consistency group. -/
theorem write_majority :
    (front (decide (S.issuer ∈ net.responsible)) S.issuer alpha net.responsible).length / 2 + 1 ≤
      (front (decide (S.issuer ∈ net.responsible)) S.issuer alpha net.responsible).countP
        fun n => S.consents n.id := by
  obtain ⟨-, hdone⟩ := run_inv S.fresh S.run
  obtain ⟨addr, srv, haddr, hsrv, hnode, hk, halpha⟩ := net.serves _ S.issuer_mem
  obtain rfl := Option.some.inj (S.write_loc.symm.trans haddr)
  obtain ⟨storeLocal, remotes, results, hu⟩ :=
    (hdone _ S.write_mem _ S.write_result).updated S.write_job rfl hsrv
  -- the lookup found the `k` closest others, so the selection is the responsible nodes
  obtain ⟨nearest, L, hnear, hlook, -, hsel⟩ := hu.located
  obtain ⟨t, ht, rfl⟩ := S.write_nearest nearest (hnear.mono S.log_le)
  obtain ⟨peers, fuel, rs, hrun, hreply⟩ := S.write_lookup _ L (hlook.mono S.log_le)
  rw [ht.findNeighbors (Members.others_ordered _) (Members.others_apart _)] at hrun
  have hL := findLookupNodes_listed (Members.others_ordered S.issuer) hrun
    fun rd hrd a ha => (hreply rd hrd a ha).genuine
  rw [hL, hnode, hk] at hsel
  obtain ⟨rfl, rfl⟩ :=
    Prod.mk.inj ((Members.selectResponsibleNodes_eq S.issuer_mem).symm.trans hsel)
  have hmaj := majority_of_updated hu
  have hgroup : consistencyGroup srv.alpha S.write.agent (decide (S.issuer ∈ net.responsible))
      (net.responsible.filter fun n => n ≠ S.issuer) =
      (front (decide (S.issuer ∈ net.responsible)) S.issuer alpha net.responsible).map
        Node.address := by
    unfold consistencyGroup replicas front
    rw [halpha, List.map_append]
    congr 1
    split <;> simp [S.write_loc]
  rw [hgroup, List.length_map, List.countP_map] at hmaj
  refine Nat.le_trans hmaj (List.countP_mono_left fun n hn hheld => ?_)
  refine S.consents_iff.mpr ⟨n, ?_, rfl, hheld⟩
  rcases List.mem_append.mp hn with hn | hn
  · split at hn
    · rw [List.mem_singleton.mp hn]
      exact of_decide_eq_true ‹_›
    · cases hn
  · exact List.mem_of_mem_filter (List.mem_of_mem_take hn)

/-- The read's own copy: a responsible node has one, and it is the new record if
the node took the update. -/
theorem own_copy {found : Option Bytes}
    (h : Did S.after.world.log S.read.agent (.storageGet (statusKey cl)) found) :
    (S.reader ∈ net.responsible → found ≠ none) ∧
      (S.consents S.reader.id = true → found = some S.new) := by
  obtain ⟨hinv, -⟩ := run_inv S.fresh S.run_after
  obtain ⟨pre, live, post, hlog, hb⟩ := S.read_event h
  have ha : pre <+: S.after.world.log := hlog ▸ List.prefix_append pre _
  obtain ⟨rfl, -⟩ := hinv.truthful _ _ _ hlog
  -- a responsible node finds what was written last
  have hlast : S.reader ∈ net.responsible → found =
      lastWritten S.start.storage pre (Agent.loc S.read.agent) (statusKey cl) := by
    intro hn
    obtain ⟨v, hv⟩ := S.serves_some hn S.read_loc pre
    rcases S.kept _ hn _ S.read_loc _ _ _ hlog rfl rfl with h | h
    · rw [hv] at h; cases h
    · exact h
  refine ⟨fun hn => ?_, fun hc => ?_⟩
  · obtain ⟨v, hv⟩ := S.serves_some hn S.read_loc pre
    rw [hlast hn, hv]
    exact Option.some_ne_none v
  · obtain ⟨n, hn, hid, hserves⟩ := S.consents_serves hc
    obtain rfl := net.ordered.eq_of_id (List.mem_of_mem_take hn) S.reader_mem hid
    rw [hlast hn, hserves _ S.read_loc pre hb ha]

theorem allVote {rs : List Round} {m : Nat} (hm : m < k) (h : ∀ rd ∈ rs, ∀ a ∈ rd.answers,
      FindValueReply net S.start.storage S.before.world.log S.after.world.log S.reader a) :
    AllVote (net.others S.reader) m rs := by
  intro rd hrd a ha hpeer
  obtain ⟨n, hn, hid⟩ := List.mem_map.mp hpeer
  have hresp : n ∈ net.responsible := List.take_subset_take_left _ hm
    (mem_take_succ_of_mem_take_filter net.ordered.nodup hn)
  obtain ⟨addr, pre, haddr, -, -, hvote⟩ := (h rd hrd a ha).vote hresp hid
  obtain ⟨v, hv⟩ := S.serves_some hresp haddr pre
  rw [hvote v hv]; rfl

theorem consents_vote {rd : Round} {rs : List Round} {a : Answer} {v : Bytes} (hv : v ≠ S.new)
    (h : ∀ rd ∈ rs, ∀ a ∈ rd.answers,
      FindValueReply net S.start.storage S.before.world.log S.after.world.log S.reader a)
    (hrd : rd ∈ rs) (ha : a ∈ rd.answers) (hc : S.consents a.peer = true) :
    QuorumRead.vote a ≠ some v := by
  obtain ⟨n, hn, hid, hserves⟩ := S.consents_serves hc
  obtain ⟨addr, pre, haddr, hb, haf, hvote⟩ := (h rd hrd a ha).vote hn hid
  rw [hvote _ (hserves addr haddr pre hb haf)]
  exact fun heq => hv (Option.some.inj heq).symm

/-- **Another record needs a quorum of nodes that did not take the update**, in the
front that the read asks. -/
theorem read_minority {v : Bytes} (hres : S.result = some v) (hv : v ≠ S.new) (halpha : 1 ≤ alpha) :
    ∃ found, Did S.after.world.log S.read.agent (.storageGet (statusKey cl)) found ∧
      alpha / 2 + 1 ≤ (front found.isSome S.reader (min alpha (k + found.isSome.toNat))
        net.ranked).countP fun n => !S.consents n.id := by
  obtain ⟨-, hdone⟩ := run_inv S.fresh S.run_after
  obtain ⟨addr, srv, haddr, hsrv, -, -, hsalpha⟩ := net.serves _ S.reader_mem
  obtain rfl := Option.some.inj (S.read_loc.symm.trans haddr)
  obtain ⟨found, nearest, hf, hn, hq⟩ := (hdone _ (List.mem_of_getElem? S.read_at) _
    S.read_result).polled S.read_job rfl hsrv v hres
  refine ⟨found, hf, ?_⟩
  obtain ⟨t, ht, rfl⟩ := S.read_nearest nearest hn
  obtain ⟨peers, fuel, rs, hrun, hreply⟩ := S.read_poll _ _ _ _ _ hq
  rw [ht.findNeighbors (Members.others_ordered _) (Members.others_apart _)] at hrun
  have hcount := findQuorum_listed (Members.others_ordered S.reader) hrun
    (fun rd hrd a ha => (hreply rd hrd a ha).genuine) (fun hm => S.allVote hm hreply)
    (p := S.consents) fun rd hrd a ha hc => S.consents_vote hv hreply hrd ha hc
  have hlen : found.toList.length = found.isSome.toNat := by cases found <;> rfl
  have hinit : found.toList.count v ≤
      (if found.isSome then [S.reader] else []).countP fun n => !S.consents n.id := by
    cases hfound : found with
    | none => simp
    | some u =>
      cases hc : S.consents S.reader.id with
      | false =>
        have hle : [u].count v ≤ 1 := List.count_le_length
        simpa [hc] using hle
      | true =>
        obtain rfl := Option.some.inj (hfound.symm.trans ((S.own_copy hf).2 hc))
        simp [hv.symm]
  have hmin : min alpha (k + found.isSome.toNat) - found.isSome.toNat =
      min k (alpha - found.isSome.toNat) := by omega
  rw [readQuorum, hsalpha, Nat.max_eq_left halpha, hlen] at hcount
  rw [front, hmin, List.countP_append]
  exact Nat.le_trans hcount (Nat.add_le_add_right hinit _)

end StatusRead

/-- **After a successful update of the Status List, no later read returns the old
record**: it returns the new one or nothing, if `alpha` is even, or if the reader
is the issuer and a responsible node, or if the issuer, when it is responsible,
and the reader, when it holds a copy, are among the `alpha` closest nodes. -/
theorem status_read_current {cl : Cluster} {k alpha : Nat} {net : Members cl k alpha}
    (S : StatusRead net) (halpha : 1 ≤ alpha)
    (hcond : alpha % 2 = 0 ∨ S.issuer ∈ net.responsible ∧ S.issuer = S.reader ∨
      (S.issuer ∈ net.responsible → S.issuer ∈ net.ranked.take alpha) ∧
      ∀ v, Did S.after.world.log S.read.agent (.storageGet (statusKey cl)) (some v) →
        S.reader ∈ net.ranked.take alpha) :
    S.result = none ∨ S.result = some S.new := by
  cases hres : S.result with
  | none => exact Or.inl rfl
  | some v =>
    refine Or.inr (congrArg some ?_)
    by_contra hv
    obtain ⟨found, hf, hread⟩ := S.read_minority hres hv halpha
    have hlt : ((front found.isSome S.reader (min alpha (k + found.isSome.toNat))
        net.ranked).countP fun n => !S.consents n.id) < alpha / 2 + 1 := by
      refine read_meets_write net.ordered.nodup net.enough halpha decide_eq_true_iff
        (fun hn => Option.isSome_iff_ne_none.mpr ((S.own_copy hf).1 hn)) ?_ S.write_majority
      refine hcond.imp_right (Or.imp (And.imp_left decide_eq_true) fun ⟨h, h'⟩ => ⟨?_, ?_⟩)
      · exact fun hi => h (of_decide_eq_true hi)
      · intro hsome
        obtain ⟨u, rfl⟩ := Option.isSome_iff_exists.mp hsome
        exact h' u hf
    omega

/-! ## A network of four nodes, with `k = 4` and `alpha = 3` -/

def fourNodes : Members (toyClusterOf 4 3) 4 3 where
  ranked := [10, 9, 8, 15].map toyNode
  ordered := by decide +kernel
  apart := by decide +kernel
  enough := by decide
  serves := by
    intro n hn
    obtain ⟨port, -, rfl⟩ := List.mem_map.mp hn
    exact ⟨toyAddr port, _, rfl, server_toy 4 3 port, rfl, rfl, rfl⟩

abbrev fourKey : NodeId := statusKey (toyClusterOf 4 3)

/-- All nodes hold the first list, without expiry. -/
def holdingList : World := toyWorld (emptyStore.set 0 fourKey.bytes (toyStatusList 1)).2

theorem holdingList_held (addr : Addr) :
    (holdingList.storage addr).held fourKey.bytes = some (toyStatusList 1) := by
  change (emptyStore.set 0 fourKey.bytes (toyStatusList 1)).2.held fourKey.bytes = _
  decide +kernel

/-- The table of a node that lists all the others. -/
def fullTable (n : Node) : RoutingTable :=
  ⟨n, 4, [⟨0, 2 ^ 160 - 1, fourNodes.others n, [], 4, 20, 0⟩], fun _ => none, 2⟩

theorem lists_fullTable (n : Node) : Lists (fullTable n) 4 (fourNodes.others n) :=
  ⟨rfl, by simp [RoutingTable.primaries, fullTable], fun _ _ => rfl⟩

theorem findNeighbors_fullTable (n : Node) :
    (fullTable n).findNeighbors (.fromId fourKey) none = (fourNodes.others n).take 4 :=
  (lists_fullTable n).findNeighbors (Members.others_ordered n) (Members.others_apart n)

/-- The closest others of the node at `port`. -/
def closestTo (port : UInt16) : List Node := (fourNodes.others (toyNode port)).take 4

/-- The node 10 updates to the second list. Its messages to the nodes 9 and 15 are
lost; the node 8 acknowledges, and with the own node that is a majority of 10, 9
and 8. -/
def lossyUpdate : List (system (toyClusterOf 4 3)).Move :=
  [.start (.update (toyAddr 10) statusListKey (toyStatusList 2) none), go 0 {},
    go 0 { nodes := closestTo 10 }, go 0 { value := some (toyStatusList 1) }] ++
  List.replicate 5 (go 0 {}) ++
  [go 0 { nodes := closestTo 10 }, go 0 { lookup := ⟨closestTo 10, 0⟩ }, go 0 {},
    .step 0 [0] {}, .step 0 [1] {}, .step 0 [2] {}, .start (.handle 1)] ++
  List.replicate 5 (go 1 {}) ++
  [.step 0 [0] {}, .step 0 [1] { answer := some (.updateStatusListResult true) },
    .step 0 [2] {}, go 0 {}, go 0 {}]

/-- The node at `port` reads, and `value` wins the poll. -/
def readAt (port : UInt16) (value : Bytes) : List (system (toyClusterOf 4 3)).Move :=
  [.start (.get (toyAddr port) statusListKey), go 2 {}, go 2 { nodes := closestTo port },
    go 2 { value := some value }, go 2 {}, go 2 {}, go 2 {}]

/-! The answers of the network, as functions of the id asked. -/

def answerFindNode (asker : Node) (id : NodeId) : RawResponse :=
  match fourNodes.ranked.find? fun n => n.id = id with
  | some n => foundNodes (rpcFindNode (fullTable n) asker fourKey)
  | none => ⟨false, .empty⟩

def answerFindValue (log : List Event) (asker : Node) (id : NodeId) : RawResponse :=
  match fourNodes.ranked.find? fun n => n.id = id with
  | some n => rpcFindValue ⟨toyPlatform, n, 4, 3, true, true⟩
      (n.address.bind fun addr => lastWritten holdingList.storage log addr fourKey) (fullTable n)
      asker fourKey
  | none => ⟨false, .empty⟩

/-- All answers are by members, and given by the rule. -/
def byRule (reply : NodeId → RawResponse) (rs : List Round) : Bool :=
  rs.all fun rd => rd.answers.all fun a =>
    a.raw = reply a.peer && (fourNodes.ranked.find? fun n => n.id = a.peer).isSome

theorem mem_byRule {reply : NodeId → RawResponse} {rs : List Round} (h : byRule reply rs = true)
    {rd : Round} (hrd : rd ∈ rs) {a : Answer} (ha : a ∈ rd.answers) : ∃ n ∈ fourNodes.ranked,
      n.id = a.peer ∧ (fourNodes.ranked.find? fun n => n.id = a.peer) = some n ∧
      a.raw = reply a.peer := by
  have h := List.all_eq_true.mp (List.all_eq_true.mp h rd hrd) a ha
  obtain ⟨hraw, hfind⟩ := Bool.and_eq_true_iff.mp h
  obtain ⟨n, hn⟩ := Option.isSome_iff_exists.mp hfind
  exact ⟨n, List.mem_of_find?_eq_some hn, by simpa using List.find?_some hn, hn,
    of_decide_eq_true hraw⟩

theorem findNodeReply_byRule {asker : Node} {rs : List Round}
    (h : byRule (answerFindNode asker) rs = true) :
    ∀ rd ∈ rs, ∀ a ∈ rd.answers, FindNodeReply fourNodes asker a := by
  intro rd hrd a ha
  obtain ⟨n, hn, hid, hfind, hraw⟩ := mem_byRule h hrd ha
  refine ⟨n, hn, hid, fullTable n, lists_fullTable n, ?_⟩
  rw [hraw, answerFindNode, hfind]

theorem findValueReply_byRule {asker : Node} {rs : List Round} {before after : List Event}
    (hle : before <+: after) (h : byRule (answerFindValue before asker) rs = true) :
    ∀ rd ∈ rs, ∀ a ∈ rd.answers,
      FindValueReply fourNodes holdingList.storage before after asker a := by
  intro rd hrd a ha
  obtain ⟨n, hn, hid, hfind, hraw⟩ := mem_byRule h hrd ha
  obtain ⟨port, -, rfl⟩ := List.mem_map.mp hn
  refine ⟨_, hn, hid, fullTable _, toyAddr port, _, _, before, lists_fullTable _, rfl,
    server_toy 4 3 port, List.prefix_rfl, hle, fun _ => rfl, ?_⟩
  rw [hraw, answerFindValue, hfind]
  rfl

/-! The runs, and what they found. -/

/-- An answer of the routing table, of a node lookup or of a poll. -/
inductive Asked where
  | nearest (nodes : List Node)
  | lookup (seeds : List Node) (found : LookupNodes)
  | poll (seeds : List Node) (initial : List Bytes) (minimumVotes maximumVotes : Nat)
      (winner : Option Bytes)
  deriving DecidableEq

def askedBy (a : Agent) (key : NodeId) : Event → Option Asked
  | ⟨b, .findNeighbors k, nodes, _⟩ => if b = a ∧ k = key then some (.nearest nodes) else none
  | ⟨b, .lookupNodes k seeds, found, _⟩ =>
    if b = a ∧ k = key then some (.lookup seeds found) else none
  | ⟨b, .findQuorum k seeds initial minimumVotes maximumVotes, winner, _⟩ =>
    if b = a ∧ k = key then some (.poll seeds initial minimumVotes maximumVotes winner) else none
  | _ => none

section
variable {log : List Event} {a : Agent} {key : NodeId}

theorem nearest_asked {nodes : List Node} (h : Did log a (.findNeighbors key) nodes) :
    .nearest nodes ∈ log.filterMap (askedBy a key) := by
  obtain ⟨live, hmem⟩ := h
  exact List.mem_filterMap.mpr ⟨_, hmem, by simp [askedBy]⟩

theorem lookup_asked {seeds : List Node} {found : LookupNodes}
    (h : Did log a (.lookupNodes key seeds) found) :
    .lookup seeds found ∈ log.filterMap (askedBy a key) := by
  obtain ⟨live, hmem⟩ := h
  exact List.mem_filterMap.mpr ⟨_, hmem, by simp [askedBy]⟩

theorem poll_asked {seeds : List Node} {initial : List Bytes} {minimumVotes maximumVotes : Nat}
    {winner : Option Bytes}
    (h : Did log a (.findQuorum key seeds initial minimumVotes maximumVotes) winner) :
    .poll seeds initial minimumVotes maximumVotes winner ∈ log.filterMap (askedBy a key) := by
  obtain ⟨live, hmem⟩ := h
  exact List.mem_filterMap.mpr ⟨_, hmem, by simp [askedBy]⟩

end

def setsOnly (value : Bytes) (e : Event) : Bool :=
  match e.op with
  | .storageSet _ v => v = value
  | _ => true

def readResult (res : Option Res) : Option (Option Bytes) :=
  match res with
  | some (.get r) => some r
  | _ => none

theorem value_of_readResult {res : Option Res} {r : Option Bytes} (h : readResult res = some r) :
    res = some (.get r) := by
  unfold readResult at h
  split at h
  · rw [Option.some.inj h]
  · cases h

theorem lossyUpdate_runs : (toyRun holdingList lossyUpdate).isSome := by decide +kernel

def updated : (system (toyClusterOf 4 3)).Config :=
  (toyRun holdingList lossyUpdate).get lossyUpdate_runs

def issuing : (system (toyClusterOf 4 3)).Proc := updated.procs.get ⟨0, by decide +kernel⟩

/-- A map that hides the rounds of a lookup, except that they follow the rule. -/
def checked {α : Type} (reply : NodeId → RawResponse) (r : α × List Round) : α × Bool :=
  (r.1, byRule reply r.2)

theorem exists_rounds {α : Type} {reply : NodeId → RawResponse} {o : Option (α × List Round)}
    {x : α} (h : o.map (checked reply) = some (x, true)) :
    ∃ rs, o = some (x, rs) ∧ byRule reply rs = true := by
  obtain ⟨⟨y, rs⟩, ho, he⟩ := Option.map_eq_some_iff.mp h
  obtain ⟨rfl, hrule⟩ := Prod.mk.inj he
  exact ⟨rs, ho, hrule⟩

theorem issuer_lookup : (NodeLookup.findLookupNodes (.scripted (answerFindNode (toyNode 10))) 5
      (.new (.fromId fourKey) (closestTo 10) 4 3) []).map (checked (answerFindNode (toyNode 10))) =
    some (⟨closestTo 10, 0⟩, true) := by
  decide +kernel

/-- The read of the node at `port` after the update, as a `StatusRead`, from what
can be evaluated. -/
def laterRead (port : UInt16) (copy value : Bytes) (after : (system (toyClusterOf 4 3)).Config)
    (hafter : (system (toyClusterOf 4 3)).replay (readAt port value) updated = some after)
    (hport : toyNode port ∈ fourNodes.ranked)
    (hlog : after.world.log.all (setsOnly (toyStatusList 2)) = true)
    (hkept : ∀ n ∈ fourNodes.responsible, ∀ addr ∈ n.address,
      NoExpiry holdingList.storage addr fourKey after.world.log)
    (hissue : after.world.log.filterMap (askedBy issuing.agent fourKey) =
      [.nearest (closestTo 10), .poll (closestTo 10) [toyStatusList 1] 2 3 (some (toyStatusList 1)),
        .nearest (closestTo 10), .lookup (closestTo 10) ⟨closestTo 10, 0⟩])
    (read : (system (toyClusterOf 4 3)).Proc) (hread : after.procs[2]? = some read)
    (hjob : Agent.job read.agent = .get statusListKey)
    (hloc : Agent.loc read.agent = toyAddr port)
    (hres : readResult read.prog.value? = some (some value))
    (hasked : after.world.log.filterMap (askedBy read.agent fourKey) =
      [.nearest (closestTo port), .poll (closestTo port) [copy] 2 3 (some value)])
    (hpoll : (QuorumRead.findQuorum (.scripted (answerFindValue updated.world.log (toyNode port)))
        2 3 5 (.new (.fromId fourKey) (closestTo port) 4 3) [copy] []).map
        (checked (answerFindValue updated.world.log (toyNode port))) = some (some value, true)) :
    StatusRead fourNodes where
  old := toyStatusList 1
  new := toyStatusList 2
  start := holdingList
  before := updated
  moves := readAt port value
  after := after
  fresh := fresh_toyWorld _
  run := run_of_toyRun (Option.some_get lossyUpdate_runs).symm
  later := hafter
  held := fun n _ addr _ => holdingList_held addr
  kept := fun n hn addr haddr => hkept n hn addr haddr
  only := fun e he v hop => by
    have h := List.all_eq_true.mp hlog e he
    rw [setsOnly, hop] at h
    exact of_decide_eq_true h
  issuer := toyNode 10
  issuer_mem := by decide +kernel
  write := issuing
  auth := none
  write_mem := List.get_mem _ _
  write_job := by decide +kernel
  write_loc := by decide +kernel
  write_result := value_of_updateResult (by decide +kernel)
  write_nearest := fun nearest h => by
    have hmem := nearest_asked h
    rw [hissue] at hmem
    have heq : Asked.nearest nearest = .nearest (closestTo 10) := by simpa using hmem
    exact ⟨fullTable _, lists_fullTable _,
      (Asked.nearest.inj heq).trans (findNeighbors_fullTable _).symm⟩
  write_lookup := fun nearest L h => by
    have hmem := lookup_asked h
    rw [hissue] at hmem
    have heq : Asked.lookup nearest L = .lookup (closestTo 10) ⟨closestTo 10, 0⟩ := by
      simpa using hmem
    obtain ⟨rfl, rfl⟩ := Asked.lookup.inj heq
    obtain ⟨rs, hrun, hrule⟩ := exists_rounds issuer_lookup
    exact ⟨_, _, rs, hrun, findNodeReply_byRule hrule⟩
  reader := toyNode port
  reader_mem := hport
  read := read
  number := 2
  read_at := hread
  read_later := by decide +kernel
  read_job := hjob
  read_loc := by rw [hloc]; rfl
  result := some value
  read_result := value_of_readResult hres
  read_nearest := fun nearest h => by
    have hmem := nearest_asked h
    rw [hasked] at hmem
    have heq : Asked.nearest nearest = .nearest (closestTo port) := by simpa using hmem
    exact ⟨fullTable _, lists_fullTable _,
      (Asked.nearest.inj heq).trans (findNeighbors_fullTable _).symm⟩
  read_poll := fun nearest initial minimumVotes maximumVotes r h => by
    have hmem := poll_asked h
    rw [hasked] at hmem
    have heq : Asked.poll nearest initial minimumVotes maximumVotes r =
        .poll (closestTo port) [copy] 2 3 (some value) := by simpa using hmem
    obtain ⟨rfl, rfl, rfl, rfl, rfl⟩ := Asked.poll.inj heq
    obtain ⟨rs, hrun, hrule⟩ := exists_rounds hpoll
    exact ⟨_, _, rs, hrun, findValueReply_byRule (replay_log hafter) hrule⟩

/-- The read ends with `value`, and the log shows what both calls asked. -/
def ReadEnds (port : UInt16) (copy value : Bytes) : Prop :=
  ∃ after ∈ (system (toyClusterOf 4 3)).replay (readAt port value) updated,
    ∃ read ∈ after.procs[2]?,
      (World.log after.world).all (setsOnly (toyStatusList 2)) = true ∧
      (∀ n ∈ fourNodes.responsible, ∀ addr ∈ n.address,
        NoExpiry holdingList.storage addr fourKey after.world.log) ∧
      (World.log after.world).filterMap (askedBy issuing.agent fourKey) =
        [.nearest (closestTo 10),
          .poll (closestTo 10) [toyStatusList 1] 2 3 (some (toyStatusList 1)),
          .nearest (closestTo 10), .lookup (closestTo 10) ⟨closestTo 10, 0⟩] ∧
      Agent.job read.agent = .get statusListKey ∧ Agent.loc read.agent = toyAddr port ∧
      readResult read.prog.value? = some (some value) ∧
      (World.log after.world).filterMap (askedBy read.agent fourKey) =
        [.nearest (closestTo port), .poll (closestTo port) [copy] 2 3 (some value)]

instance (port : UInt16) (copy value : Bytes) : Decidable (ReadEnds port copy value) :=
  inferInstanceAs (Decidable (∃ after ∈ _, _))

/-- **The stale read.** The nodes 10 and 8 took the update, the nodes 9 and 15 missed
it. The node 15 counts its own copy, and asks 10 and 9: the old list wins. -/
theorem stale_read : ∃ S : StatusRead fourNodes, S.result = some S.old ∧ S.old ≠ S.new := by
  have hends : ReadEnds 15 (toyStatusList 1) (toyStatusList 1) := by decide +kernel
  obtain ⟨after, hafter, read, hread, hlog, hkept, hissue, hjob, hloc, hres, hasked⟩ := hends
  have hne : toyStatusList 1 ≠ toyStatusList 2 := by decide
  exact ⟨laterRead 15 (toyStatusList 1) (toyStatusList 1) after hafter (by decide +kernel) hlog
    hkept hissue read hread hjob hloc hres hasked (by decide +kernel), rfl, hne⟩

/-- The node 9, which missed the update as well, is one of the three closest: it asks
10 and 8, and the new list wins. -/
theorem status_read_current_node9 : ∃ S : StatusRead fourNodes,
    S.reader ∈ fourNodes.ranked.take 3 ∧ (S.result = none ∨ S.result = some S.new) := by
  have hends : ReadEnds 9 (toyStatusList 1) (toyStatusList 2) := by decide +kernel
  obtain ⟨after, hafter, read, hread, hlog, hkept, hissue, hjob, hloc, hres, hasked⟩ := hends
  let S := laterRead 9 (toyStatusList 1) (toyStatusList 2) after hafter (by decide +kernel) hlog
    hkept hissue read hread hjob hloc hres hasked (by decide +kernel)
  have hreader : S.reader ∈ fourNodes.ranked.take 3 := by
    change toyNode 9 ∈ _
    decide +kernel
  have hissuer : S.issuer ∈ fourNodes.ranked.take 3 := by
    change toyNode 10 ∈ _
    decide +kernel
  exact ⟨S, hreader, status_read_current S (by decide)
    (Or.inr (Or.inr ⟨fun _ => hissuer, fun _ _ => hreader⟩))⟩

end AuthKademlia.Properties
