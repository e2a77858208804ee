import AuthKademlia.Network.Maintenance
import AuthKademlia.Routing.Runs

/-! # The refresh of buckets

`schedule_refresh` sleeps for an hour, takes a random id from the range of each bucket that no
lookup touched for an hour, and looks these ids up. Other tasks use the routing table while it
sleeps and in between. Times are in seconds, as `last_updated` is. -/
namespace AuthKademlia.Network.Refresh
open AuthKademlia.Routing AuthKademlia.Utils

/-! ## The ids to look up -/

theorem drop_toBigEndian (m n value : Nat) :
    (toBigEndian (m + n) value).drop m = toBigEndian n value := by
  induction n generalizing value with
  | zero => exact List.drop_eq_nil_of_le (Nat.le_of_eq (length_toBigEndian m value))
  | succ n ih =>
    have hle : m ≤ (toBigEndian (m + n) (value / 256)).length := by
      rw [length_toBigEndian]
      exact Nat.le_add_right m n
    show (toBigEndian (m + n) (value / 256) ++ [UInt8.ofNat (value % 256)]).drop m = _
    rw [List.drop_append_of_le_length hle, ih]
    rfl

/-- The last twenty bytes of a number of 256 bits. -/
def idOfU256 (val : Nat) : NodeId :=
  ⟨(toBigEndian 32 val).drop 12, by rw [List.length_drop, length_toBigEndian]; rfl⟩

theorem idToU256_idOfU256 {val : Nat} (h : val < 2 ^ 160) : idToU256 (idOfU256 val) = val := by
  unfold idToU256 idOfU256
  dsimp only
  rw [drop_toBigEndian 12 20, fromBigEndian_toBigEndian h]

/-- The id that `get_refresh_ids` makes of twenty random bytes for a bucket. -/
def refreshId (b : KBucket) (random : NodeId) : NodeId :=
  let span := b.hi - b.lo + 1
  idOfU256 (b.lo + idToU256 random % span)

/-- `get_refresh_ids`; `random i` are the bytes drawn for the `i`-th lonely bucket. -/
def getRefreshIds (now : Nat) (t : RoutingTable) (random : Nat → NodeId) : List NodeId :=
  (t.lonelyBuckets now).mapIdx fun i b => refreshId b (random i)

/-- **The id is one of the bucket's range.** -/
theorem covers_refreshId {b : KBucket} (hle : b.lo ≤ b.hi) (hhi : b.hi < 2 ^ 160)
    (random : NodeId) : b.covers (idToU256 (refreshId b random)) = true := by
  have hmod : idToU256 random % (b.hi - b.lo + 1) < b.hi - b.lo + 1 :=
    Nat.mod_lt _ (Nat.succ_pos _)
  rw [KBucket.covers_iff, refreshId, idToU256_idOfU256 (by omega)]
  omega

/-! ## The loop -/

inductive Phase where
  | asleep (since : Nat)
  /-- `find_neighbors` for each id; woken at the time given. -/
  | finding (woken : Nat) (ids : List NodeId)
  /-- The lookups run, and records are sent again. -/
  | working (woken : Nat)

structure Loop where
  table : RoutingTable
  clock : Nat
  phase : Phase

inductive Move where
  | wait (seconds : Nat)
  /-- Another task, or a lookup of a record to send again, uses the table. -/
  | other (a : RoutingTable.Action)
  | wake (random : Nat → NodeId)
  | find
  | start
  | sleep

/-- The action, at the time of the clock. -/
def atTime (clock : Nat) : RoutingTable.Action → RoutingTable.Action
  | .addContact _ n => .addContact clock n
  | .touchTarget _ target => .touchTarget clock target
  | a => a

namespace Loop

def new (start : Nat) (own : Node) (k : Nat) : Loop := ⟨.new start own k, start, .asleep start⟩

/-- A move that is not possible changes nothing. -/
def move (r : Loop) : Move → Loop
  | .wait seconds => { r with clock := r.clock + seconds }
  | .other a => { r with table := r.table.act (atTime r.clock a) }
  | .wake random =>
    match r.phase with
    | .asleep since =>
      if since + refreshInterval ≤ r.clock then
        { r with phase := .finding r.clock (getRefreshIds r.clock r.table random) }
      else r
    | _ => r
  | .find =>
    match r.phase with
    | .finding woken (id :: ids) =>
      { r with table := r.table.touchTarget r.clock (.fromId id), phase := .finding woken ids }
    | _ => r
  | .start =>
    match r.phase with
    | .finding woken [] => { r with phase := .working woken }
    | _ => r
  | .sleep =>
    match r.phase with
    | .working _ => { r with phase := .asleep r.clock }
    | _ => r

def run (r : Loop) (moves : List Move) : Loop := moves.foldl move r

end Loop

/-- The loop is `d` seconds late at most: that long after an hour of sleep it is awake, and that
long after it woke it is asleep. -/
def Timely (d : Nat) (r : Loop) : Prop :=
  match r.phase with
  | .asleep since => r.clock ≤ since + refreshInterval + d
  | .finding woken _ | .working woken => r.clock ≤ woken + d

end AuthKademlia.Network.Refresh
