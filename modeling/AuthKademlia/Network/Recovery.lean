import AuthKademlia.Protocol.Contacts
import AuthKademlia.Protocol.Effects
import AuthKademlia.Routing.Failures

/-! # The recovery of contacts

`schedule_maintenance` looks after the routing table once a second. It pings failing contacts
whose backoff has elapsed, a few at a time. Without a contact that responds it pings the
bootstrap seeds, less and less often, and when one responds again it looks itself up. Other
tasks use the routing table all the time. Times are in nanoseconds. -/
namespace AuthKademlia.Network.Recovery
open AuthKademlia.Protocol AuthKademlia.Routing AuthKademlia.Storage AuthKademlia.Utils

/-- `MAINTENANCE_TICK` and `REJOIN_BACKOFF_MAX`. -/
def maintenanceTick : Nat := nanosPerSec

def rejoinBackoffMax : Nat := 60 * nanosPerSec

inductive Phase where
  | asleep (deadline : Nat)
  /-- `join_all` of pings; those that have not ended. -/
  | probing (waiting : List Node)
  /-- The lookup after the node was isolated. -/
  | reconnecting
  /-- `join_all` of pings to the seeds. -/
  | askingSeeds (seeds : List Addr)

def Phase.waiting : Phase → List Node
  | .probing waiting => waiting
  | _ => []

structure Loop where
  table : RoutingTable
  clock : Nat
  seeds : List Addr
  isolated : Bool
  seedDelay : Nat
  nextSeedAttempt : Nat
  phase : Phase
  /-- The contacts that were selected so far, each time. -/
  selected : List (List Node)
  /-- When pings to the seeds last ended. -/
  lastAsked : Option Nat

inductive Move where
  | wait (nanos : Nat)
  /-- Another task uses the table. -/
  | other (a : RoutingTable.Action)
  | rememberSeeds (addrs : List Addr)
  /-- `contacts_due_for_probe`, with the order that it finds. -/
  | wake (due : List (Nat × Node))
  /-- A ping is not answered. -/
  | fail (n : Node) (jitter : Nat)
  /-- A ping is answered, with the id and from the endpoint of `source`. -/
  | answered (n source : Node)
  /-- `live_contacts`, once all pings have ended. -/
  | check
  | reconnected
  /-- The pings to the seeds have ended. -/
  | asked (jitter : Nat)

/-- The action, at the time of the clock. -/
def atTime (clock : Nat) : RoutingTable.Action → RoutingTable.Action
  | .recordFailureAt n _ jitter => .recordFailureAt n clock jitter
  | .recordSuccess _ id => .recordSuccess clock id
  | a => a

namespace Loop

def new (start clock : Nat) (own : Node) (k : Nat) : Loop :=
  ⟨.new start own k, clock, [], false, maintenanceTick, clock, .asleep (clock + maintenanceTick),
    [], none⟩

def sleep (r : Loop) : Loop := { r with phase := .asleep (r.clock + maintenanceTick) }

/-- A move that is not possible changes nothing. -/
def move (alpha : Nat) (r : Loop) : Move → Loop
  | .wait nanos => { r with clock := r.clock + nanos }
  | .other a => { r with table := r.table.act (atTime r.clock a) }
  | .rememberSeeds addrs =>
    { r with
      seeds := addrs.foldl (fun seeds addr => if addr ∈ seeds then seeds else seeds ++ [addr])
        r.seeds }
  | .wake due =>
    match r.phase with
    | .asleep deadline =>
      if deadline ≤ r.clock ∧ r.table.ProbeOrder r.clock due then
        let waiting := RoutingTable.contactsDueForProbe due alpha
        { r with phase := .probing waiting, selected := r.selected ++ [waiting] }
      else r
    | _ => r
  | .fail n jitter =>
    match r.phase with
    | .probing waiting =>
      if n ∈ waiting then
        { r with
          table := r.table.recordFailureAt n r.clock jitter, phase := .probing (waiting.erase n) }
      else r
    | _ => r
  | .answered n source =>
    match r.phase with
    | .probing waiting =>
      if n ∈ waiting then
        { r with
          table := (noteAlive r.table r.clock source).2, phase := .probing (waiting.erase n) }
      else r
    | _ => r
  | .check =>
    match r.phase with
    | .probing [] =>
      if 0 < r.table.liveContacts then
        let r := { r with seedDelay := maintenanceTick }
        if r.isolated then { r with isolated := false, phase := .reconnecting } else r.sleep
      else
        let r := { r with isolated := true }
        if !r.seeds.isEmpty && r.nextSeedAttempt ≤ r.clock then
          { r with phase := .askingSeeds r.seeds }
        else r.sleep
    | _ => r
  | .reconnected =>
    match r.phase with
    | .reconnecting => r.sleep
    | _ => r
  | .asked jitter =>
    match r.phase with
    | .askingSeeds _ =>
      let delay := min (r.seedDelay * 2) rejoinBackoffMax
      if 4 * jitter ≤ delay then
        { r with
          seedDelay := delay, nextSeedAttempt := r.clock + delay + jitter
          lastAsked := some r.clock }.sleep
      else r
    | _ => r

def run (alpha : Nat) (r : Loop) (moves : List Move) : Loop := moves.foldl (move alpha) r

end Loop

/-! ## What a move does -/

variable {alpha : Nat} {r r' : Loop} {mv : Move}

inductive Effect (alpha : Nat) (r : Loop) : Move → Loop → Prop
  | none (mv : Move) : Effect alpha r mv r
  | wait (nanos : Nat) : Effect alpha r (.wait nanos) { r with clock := r.clock + nanos }
  | other (a : RoutingTable.Action) :
      Effect alpha r (.other a) { r with table := r.table.act (atTime r.clock a) }
  | rememberSeeds (addrs seeds : List Addr) :
      Effect alpha r (.rememberSeeds addrs) { r with seeds }
  | wake {deadline : Nat} {due : List (Nat × Node)} (asleep : r.phase = .asleep deadline)
      (order : r.table.ProbeOrder r.clock due) :
      Effect alpha r (.wake due)
        { r with
          phase := .probing (RoutingTable.contactsDueForProbe due alpha)
          selected := r.selected ++ [RoutingTable.contactsDueForProbe due alpha] }
  | fail {n : Node} {jitter : Nat} {waiting : List Node} (probing : r.phase = .probing waiting)
      (pinged : n ∈ waiting) :
      Effect alpha r (.fail n jitter)
        { r with
          table := r.table.recordFailureAt n r.clock jitter, phase := .probing (waiting.erase n) }
  | answered {n source : Node} {waiting : List Node} (probing : r.phase = .probing waiting)
      (pinged : n ∈ waiting) :
      Effect alpha r (.answered n source)
        { r with
          table := (noteAlive r.table r.clock source).2, phase := .probing (waiting.erase n) }
  | reconnecting (probing : r.phase = .probing []) :
      Effect alpha r .check
        { r with seedDelay := maintenanceTick, isolated := false, phase := .reconnecting }
  | live (probing : r.phase = .probing []) :
      Effect alpha r .check { r with seedDelay := maintenanceTick }.sleep
  | ask (probing : r.phase = .probing []) (due : r.nextSeedAttempt ≤ r.clock) :
      Effect alpha r .check { r with isolated := true, phase := .askingSeeds r.seeds }
  | isolated (probing : r.phase = .probing []) :
      Effect alpha r .check { r with isolated := true }.sleep
  | reconnected (reconnecting : r.phase = .reconnecting) : Effect alpha r .reconnected r.sleep
  | asked {jitter : Nat} {seeds : List Addr} (asking : r.phase = .askingSeeds seeds)
      (small : 4 * jitter ≤ min (r.seedDelay * 2) rejoinBackoffMax) :
      Effect alpha r (.asked jitter)
        { r with
          seedDelay := min (r.seedDelay * 2) rejoinBackoffMax
          nextSeedAttempt := r.clock + min (r.seedDelay * 2) rejoinBackoffMax + jitter
          lastAsked := some r.clock }.sleep

theorem move_effect (alpha : Nat) (r : Loop) (mv : Move) :
    Effect alpha r mv (r.move alpha mv) := by
  cases mv with
  | wait nanos => exact .wait nanos
  | other a => exact .other a
  | rememberSeeds addrs => exact .rememberSeeds addrs _
  | wake due =>
    simp only [Loop.move]
    split
    · rename_i hphase
      split
      · rename_i hdue
        exact .wake hphase hdue.2
      · exact .none _
    · exact .none _
  | fail n jitter =>
    simp only [Loop.move]
    split
    · rename_i hphase
      split
      · rename_i hpinged
        exact .fail hphase hpinged
      · exact .none _
    · exact .none _
  | answered n source =>
    simp only [Loop.move]
    split
    · rename_i hphase
      split
      · rename_i hpinged
        exact .answered hphase hpinged
      · exact .none _
    · exact .none _
  | check =>
    simp only [Loop.move]
    split
    · rename_i hphase
      split
      · split
        · exact .reconnecting hphase
        · exact .live hphase
      · split
        · rename_i hdue
          exact .ask hphase (of_decide_eq_true (Bool.and_eq_true_iff.mp hdue).2)
        · exact .isolated hphase
    · exact .none _
  | reconnected =>
    simp only [Loop.move]
    split
    · rename_i hphase
      exact .reconnected hphase
    · exact .none _
  | asked jitter =>
    simp only [Loop.move]
    split
    · rename_i hphase
      split
      · rename_i hsmall
        exact .asked hphase hsmall
      · exact .none _
    · exact .none _

theorem noteAlive_cases (t : RoutingTable) (now : Nat) (source : Node) :
    (noteAlive t now source).2 = t ∨
      (noteAlive t now source).2 = t.act (.recordSuccess now source.id) := by
  unfold noteAlive
  split
  · exact Or.inl rfl
  · dsimp only
    split
    · exact Or.inl rfl
    · exact Or.inr rfl

theorem effect_table (h : Effect alpha r mv r') :
    r'.table = r.table ∨ ∃ a, r'.table = r.table.act (atTime r.clock a) := by
  cases h with
  | other a => exact Or.inr ⟨a, rfl⟩
  | fail => exact Or.inr ⟨.recordFailureAt _ 0 _, rfl⟩
  | answered =>
    exact (noteAlive_cases r.table r.clock _).imp_right fun h => ⟨.recordSuccess 0 _, h⟩
  | none | wait | rememberSeeds | wake | reconnecting | live | ask | isolated | reconnected
  | asked => exact Or.inl rfl

theorem effect_ok {own : Node} {k : Nat} (hok : r.table.Ok own k) (hk : 1 ≤ k)
    (h : Effect alpha r mv r') : r'.table.Ok own k := by
  rcases effect_table h with heq | ⟨a, heq⟩
  · rwa [heq]
  · rw [heq]
    exact hok.act hk _

theorem effect_clock (h : Effect alpha r mv r') : r.clock ≤ r'.clock := by
  cases h with
  | wait => exact Nat.le_add_right _ _
  | none | other | rememberSeeds | wake | fail | answered | reconnecting | live | ask | isolated
  | reconnected | asked => exact Nat.le_refl _

theorem run_snoc (alpha : Nat) (r : Loop) (moves : List Move) (mv : Move) :
    r.run alpha (moves ++ [mv]) = (r.run alpha moves).move alpha mv := by
  rw [Loop.run, List.foldl_append]
  rfl

theorem ok_run (start clock : Nat) (own : Node) {k : Nat} (hk : 1 ≤ k) (alpha : Nat)
    (moves : List Move) : ((Loop.new start clock own k).run alpha moves).table.Ok own k := by
  induction moves using List.reverseRecOn with
  | nil => exact RoutingTable.ok_after hk start own []
  | append_singleton moves mv ih =>
    rw [run_snoc]
    exact effect_ok ih hk (move_effect alpha _ mv)

/-! ## The seeds -/

/-- The times of `seed_delay` and `next_seed_attempt`. -/
structure SeedTimes (r : Loop) : Prop where
  delay : maintenanceTick ≤ r.seedDelay ∧ r.seedDelay ≤ rejoinBackoffMax
  never : r.lastAsked = none → r.nextSeedAttempt ≤ r.clock
  again : ∀ last ∈ r.lastAsked, last + 2 * maintenanceTick ≤ r.nextSeedAttempt ∧
    r.nextSeedAttempt ≤ last + (rejoinBackoffMax + rejoinBackoffMax / 4)

theorem SeedTimes.effect (h : SeedTimes r) (heffect : Effect alpha r mv r') : SeedTimes r' := by
  have htick : maintenanceTick ≤ rejoinBackoffMax := by decide
  have hlater : r'.lastAsked = r.lastAsked → r'.nextSeedAttempt = r.nextSeedAttempt →
      maintenanceTick ≤ r'.seedDelay ∧ r'.seedDelay ≤ rejoinBackoffMax → SeedTimes r' := by
    intro hlast hnext hdelay
    refine ⟨hdelay, fun hnone => ?_, fun last hmem => ?_⟩
    · rw [hnext]
      exact (h.never (hlast ▸ hnone)).trans (effect_clock heffect)
    · rw [hnext]
      exact h.again last (hlast ▸ hmem)
  cases heffect with
  | reconnecting | live => exact hlater rfl rfl ⟨Nat.le_refl _, htick⟩
  | asked asking small =>
    obtain ⟨hlow, hhigh⟩ := h.delay
    have htwo : 2 * maintenanceTick ≤ min (r.seedDelay * 2) rejoinBackoffMax := by
      refine Nat.le_min.mpr ⟨by omega, by decide⟩
    refine ⟨⟨by simp only [Loop.sleep]; omega, Nat.min_le_right _ _⟩,
      fun hnone => absurd hnone (Option.some_ne_none _), fun last hmem => ?_⟩
    obtain rfl : r.clock = last := Option.some.inj hmem
    simp only [Loop.sleep]
    omega
  | none | wait | other | rememberSeeds | wake | fail | answered | ask | isolated | reconnected =>
    exact hlater rfl rfl h.delay

theorem seedTimes_run (start clock : Nat) (own : Node) (k alpha : Nat) (moves : List Move) :
    SeedTimes ((Loop.new start clock own k).run alpha moves) := by
  have htick : maintenanceTick ≤ rejoinBackoffMax := by decide
  induction moves using List.reverseRecOn with
  | nil =>
    exact ⟨⟨Nat.le_refl _, htick⟩, fun _ => Nat.le_refl _,
      fun _ hmem => absurd hmem (Option.not_mem_none _)⟩
  | append_singleton moves mv ih =>
    rw [run_snoc]
    exact ih.effect (move_effect alpha _ mv)

end AuthKademlia.Network.Recovery
