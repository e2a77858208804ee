import AuthKademlia.Crawling.QuorumRead
import AuthKademlia.Properties.Lookups

/-! # What a quorum read counts

`find_quorum` decides by counting. Whatever the peers answer, the copies it counts are
the initial ones and one for each node that answered with a copy, and the value it
returns is the one that has a quorum among them. -/
namespace AuthKademlia.Properties
open AuthKademlia.Crawling AuthKademlia.Utils

/-- The value has the votes required, and more than half of all votes. -/
def HasQuorum (minimumVotes : Nat) (votes : List Bytes) (v : Bytes) : Prop :=
  minimumVotes ≤ votes.count v ∧ votes.length < 2 * votes.count v

theorem hasQuorum_iff_required {minimumVotes : Nat} {votes : List Bytes} {v : Bytes} :
    HasQuorum minimumVotes votes v ↔
      max minimumVotes (votes.length / 2 + 1) ≤ votes.count v := by
  rw [Nat.max_le, HasQuorum]
  omega

theorem hasQuorum_iff {minimumVotes : Nat} {votes : List Bytes} {v : Bytes} :
    HasQuorum minimumVotes votes v ↔
      QuorumRead.strictQuorumValue votes minimumVotes = some v := by
  rw [QuorumRead.strictQuorumValue_eq, hasQuorum_iff_required]

/-- **Strict quorum selection.** A value is returned exactly if it occurs among the
votes, at least `minimumVotes` times and in more than half of them. There is at most
one such value. For every order of the votes, and every order in which the hash map
hands out its entries, the value returned is the same, and the branch for two values
with the same support is not reached. -/
theorem strict_quorum_selected (votes : List Bytes) (minimumVotes : Nat) :
    (∀ v w, HasQuorum minimumVotes votes v → HasQuorum minimumVotes votes w → v = w) ∧
    ∀ votes' seen drained, votes'.Perm votes → seen.Perm (QuorumRead.voteEntries votes') →
      drained.Perm (QuorumRead.voteEntries votes') →
      ∃ result, QuorumRead.strictQuorumEnd (max minimumVotes (votes'.length / 2 + 1)) seen drained =
          result ∧
        (∀ v, result.value = some v ↔ v ∈ votes ∧ HasQuorum minimumVotes votes v) ∧
        result ≠ .tied ∧ result.value = QuorumRead.strictQuorumValue votes minimumVotes := by
  refine ⟨?_, ?_⟩
  · intro v w hv hw
    rw [hasQuorum_iff] at hv hw
    exact Option.some.inj (hv.symm.trans hw)
  · intro votes' seen drained hvotes hseen hdrained
    have htally := QuorumRead.tally_voteEntries votes'
    have hseen := htally.perm hvotes.symm hseen
    have hdrained := htally.perm hvotes.symm hdrained
    rw [hvotes.length_eq]
    have hhalf : votes.length / 2 + 1 ≤ max minimumVotes (votes.length / 2 + 1) :=
      Nat.le_max_right _ _
    have hvalue : ∀ v, (QuorumRead.strictQuorumEnd (max minimumVotes (votes.length / 2 + 1)) seen
        drained).value = some v ↔ HasQuorum minimumVotes votes v := fun v => by
      rw [hasQuorum_iff_required]
      exact QuorumRead.strictQuorumEnd_value hseen hdrained hhalf
    refine ⟨_, rfl, fun v => (hvalue v).trans ⟨fun hv => ⟨?_, hv⟩, And.right⟩,
      (QuorumRead.strictQuorumEnd_not_tied hseen hdrained hhalf).1, ?_⟩
    · exact List.count_pos_iff.mp (by have := hv.2; omega)
    · exact Option.ext fun v => (hvalue v).trans hasQuorum_iff

/-- Two votes of three win, whichever entry comes first. -/
theorem strict_quorum_selected_two : ∃ result : QuorumRead.QuorumEnd,
    QuorumRead.strictQuorumEnd (max 2 (3 / 2 + 1)) [([1], 1), ([2], 2)] [([2], 2), ([1], 1)] =
      result ∧ result.value = some [2] := by
  obtain ⟨result, heq, hvalue, -⟩ := (strict_quorum_selected [[1], [2], [2]] 2).2
    [[2], [1], [2]] [([1], 1), ([2], 2)] [([2], 2), ([1], 1)] (by decide) (by decide) (by decide)
  refine ⟨result, heq, (hvalue [2]).mpr ⟨by decide, ?_⟩⟩
  rw [HasQuorum]
  decide

/-- All copies that a read counts: those it starts with, and those received. -/
def collected (initial : List Bytes) (rs : List Round) : List Bytes :=
  initial ++ (QuorumRead.ballots rs).map Prod.snd

/-- **Quorum reads count honestly.** Every read ends. It has then collected at most
`maximumVotes` copies, and those beyond the initial ones are from different nodes that
were asked. It returns a value that has a quorum among the copies collected; if it
returns none, no value has one, and either `maximumVotes` copies were collected or
every node in the shortlist was asked. -/
theorem quorum_reads_count (target : Node) (seeds : List Node) (k alpha : Nat)
    (everyone : Bool) (peers : Peers) (initial : List Bytes) (minimumVotes maximumVotes : Nat)
    (hroom : initial.length ≤ maximumVotes) :
    ∃ bound r rs, (∀ fuel, bound ≤ fuel → QuorumRead.findQuorum peers minimumVotes maximumVotes
        fuel (startOf target seeds k alpha everyone) initial [] = some (r, rs)) ∧
      (collected initial rs).length ≤ maximumVotes ∧
      ((QuorumRead.ballots rs).map Prod.fst).Nodup ∧
      (∀ b ∈ QuorumRead.ballots rs, b.1 ∈ askedIds rs) ∧
      (∀ v, r = some v → HasQuorum minimumVotes (collected initial rs) v) ∧
      (r = none → (∀ v, ¬ HasQuorum minimumVotes (collected initial rs) v) ∧
        ((collected initial rs).length = maximumVotes ∨
          ∀ id ∈ (QuorumRead.replay maximumVotes (startOf target seeds k alpha everyone)
            initial rs).nearest.getIds, id ∈ askedIds rs)) := by
  have ht := tracks_startOf target seeds k alpha everyone
  obtain ⟨bound, r, rs, hend⟩ :=
    QuorumRead.findQuorum_returns peers minimumVotes maximumVotes initial ht
  obtain ⟨s, found, hread, hwin, hstop⟩ :=
    QuorumRead.reading_ended (QuorumRead.reading_new ht hroom) hend
  have hcopies : found = collected initial rs := hread.copies
  rw [hcopies] at hwin hstop
  refine ⟨bound, r, rs, fun fuel hle => QuorumRead.findQuorum_mono hend hle,
    hcopies ▸ hread.room, hread.voters_nodup, fun b hb => hread.asked_of_ballot hb,
    fun v hv => hasQuorum_iff.mpr (hwin.trans hv), fun hnone => ⟨fun v hv => ?_, ?_⟩⟩
  · rw [hasQuorum_iff, hwin, hnone] at hv
    cases hv
  · have hroom := hcopies ▸ hread.room
    rcases Bool.or_eq_true_iff.mp (hstop hnone) with hfull | hall
    · have hfull := of_decide_eq_true hfull
      exact Or.inl (by omega)
    · refine Or.inr fun id hid => ?_
      rw [QuorumRead.replay, hread.state] at hid
      exact (hread.tracks.contacted id).mp ((NodeHeap.haveContactedAll_iff _).mp hall id hid)

/-- Two peers outvote the copy that the read starts with. -/
theorem quorum_reads_count_two :
    let target := Node.fromId (filledId 0)
    let seeds : List Node := [⟨filledId 1, some "h", some 1⟩, ⟨filledId 2, some "h", some 2⟩]
    let peers := Peers.scripted fun _ => ⟨true, .value [7]⟩
    ∃ rs, QuorumRead.findQuorum peers 2 3 9 (startOf target seeds 20 3 false) [[8]] [] =
        some (some [7], rs) ∧ HasQuorum 2 (collected [[8]] rs) [7] := by
  intro target seeds peers
  have hseven : (QuorumRead.findQuorum peers 2 3 9 (startOf target seeds 20 3 false)
      [[8]] []).map Prod.fst = some (some [7]) := by decide +kernel
  obtain ⟨⟨r, rs⟩, hend, hr⟩ := Option.map_eq_some_iff.mp hseven
  obtain rfl : r = some [7] := hr
  obtain ⟨bound, r, rs', hall, -, -, -, hquorum, -⟩ :=
    quorum_reads_count target seeds 20 3 false peers [[8]] 2 3 (by decide)
  have hsame := (hall _ (Nat.le_max_right 9 bound)).symm.trans
    (QuorumRead.findQuorum_mono hend (Nat.le_max_left 9 bound))
  obtain ⟨rfl, rfl⟩ := Prod.mk.inj (Option.some.inj hsame)
  exact ⟨rs', hend, hquorum [7] rfl⟩

end AuthKademlia.Properties
