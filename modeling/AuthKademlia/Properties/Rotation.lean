import AuthKademlia.Properties.Validity

/-! # Key rotation under concurrency

An UPDATE is checked against a copy read before several awaits, and then written
unconditionally. So a write may replace a record that never authorised it: two
updates that read the same record both pass, and the second one overwrites the
first. The rotation chain holds in the runs where each UPDATE write still finds
the record it was checked against. -/
namespace AuthKademlia.Properties
open AuthKademlia.Lib.Async AuthKademlia.Lib.Trace AuthKademlia.Utils AuthKademlia.Storage
open AuthKademlia.AuthHandler AuthKademlia.Protocol AuthKademlia.Runtime

/-- The records a task's update of `key` was checked against. -/
def checkedAgainst (pre : List Event) (a : Agent) (key : NodeId) : List Bytes :=
  pre.filterMap fun e => match e.op with
    | .against k old => if e.agent = a ∧ k = key then some old else none
    | _ => none

theorem mem_checkedAgainst {pre : List Event} {a : Agent} {key : NodeId} {old : Bytes}
    (h : Did pre a (.against key old) ()) : old ∈ checkedAgainst pre a key := by
  obtain ⟨live, hmem⟩ := h
  exact List.mem_filterMap.mpr ⟨_, hmem, by simp⟩

/-- An effective UPDATE write of a DID record finds the record it was checked
against, or no live record. -/
def FreshWrite (cl : Cluster) (pre : List Event) : Event → Prop
  | ⟨a, .storageSet key _, st, live⟩ =>
    isWrite st = true → key ≠ cl.platform.hashes.digest statusListKey →
      ∀ old ∈ checkedAgainst pre a key, live = none ∨ live = some old
  | _ => True

instance (cl : Cluster) (pre : List Event) : (e : Event) → Decidable (FreshWrite cl pre e)
  | ⟨_, .storageSet _ _, _, _⟩ => inferInstanceAs (Decidable (_ → _ → _))
  | ⟨_, .storageGet _, _, _⟩ | ⟨_, .insertIfAbsent _ _, _, _⟩ | ⟨_, .cacheGet _ _, _, _⟩
  | ⟨_, .cacheInsert _ _ _, _, _⟩ | ⟨_, .blocking _, _, _⟩ | ⟨_, .networkCopy _ _, _, _⟩
  | ⟨_, .findNeighbors _, _, _⟩ | ⟨_, .lookupNodes _ _, _, _⟩ | ⟨_, .lookupValue _ _, _, _⟩
  | ⟨_, .arrivals _ _, _, _⟩ | ⟨_, .findQuorum _ _ _ _ _, _, _⟩ | ⟨_, .knowsOthers, _, _⟩
  | ⟨_, .scheduleWelcome _, _, _⟩ | ⟨_, .send _ _, _, _⟩ | ⟨_, .receive _, _, _⟩
  | ⟨_, .respond _, _, _⟩ | ⟨_, .select _ _ _ _, _, _⟩ | ⟨_, .against _ _, _, _⟩ =>
    .isTrue trivial

/-- A numbering of records along which every rotation sent with an UPDATE goes
up, as it does when every rotation uses a fresh key. -/
def Ranked (P : Platform) (version : Bytes → Nat) (log : List Event) : Prop :=
  ∀ e ∈ log, ∀ key new, e.op = .storageSet key new → ∀ old,
    Authorises P old new e.agent.job.auth → version old < version new

variable {cl : Cluster} {init : Addr → ForgetfulStorage} {w : World} {key : NodeId}

/-- **One write.** If a live record is there, a fresh write leaves it, or is
authorised by it. -/
theorem write_authorised (hw : Inv cl init w)
    (hkey : key ≠ cl.platform.hashes.digest statusListKey) {pre post : List Event} {e : Event}
    (hlog : w.log = pre ++ e :: post) (hfresh : FreshWrite cl pre e) {loc : Addr}
    {cur new : Bytes} (hwrote : e.wrote loc key = some new) (hlive : e.live = some cur) :
    lastWritten init pre loc key = some cur ∧
      (cur = new ∨
      Authorises cl.platform cur new e.agent.job.auth ∧ e.op = .storageSet key new) := by
  obtain ⟨hlast, hcur | ⟨-, st, hst, he⟩⟩ := write_over_live hw hlog hwrote hlive
  · exact ⟨hlast, Or.inl hcur⟩
  have hj := hw.justified pre e post hlog
  rw [he] at hj hfresh
  obtain ⟨old, hold, hau⟩ := hj.2 hkey
  have hcur : old = cur := by
    rcases hfresh hst hkey old (mem_checkedAgainst hold) with h | h
    · rw [hlive] at h; cases h
    · exact Option.some.inj (h.symm.trans hlive)
  subst hcur
  exact ⟨hlast, hau.imp id fun hau => ⟨hau, by rw [he]⟩⟩

/-- Versions only go up: a record stays, or a later version replaces it. -/
def Later (version : Bytes → Nat) (x y : Bytes) : Prop := x = y ∨ version x < version y

instance (version : Bytes → Nat) : Std.Refl (Later version) := ⟨fun _ => Or.inl rfl⟩

instance (version : Bytes → Nat) : IsTrans Bytes (Later version) where
  trans := by
    rintro x y z (rfl | hxy) (rfl | hyz)
    · exact Or.inl rfl
    · exact Or.inr hyz
    · exact Or.inr hxy
    · exact Or.inr (hxy.trans hyz)

theorem write_later (hw : Inv cl init w)
    (hkey : key ≠ cl.platform.hashes.digest statusListKey) {version : Bytes → Nat}
    (hrank : Ranked cl.platform version w.log) {pre post : List Event} {e : Event}
    (hlog : w.log = pre ++ e :: post) (hfresh : FreshWrite cl pre e) {loc : Addr}
    {cur new : Bytes} (hwrote : e.wrote loc key = some new) (hlive : e.live = some cur) :
    Later version cur new := by
  rcases (write_authorised hw hkey hlog hfresh hwrote hlive).2 with h | ⟨hau, hop⟩
  · exact Or.inl h
  · exact Or.inr (hrank e (by simp [hlog]) key new hop cur hau)

/-- While the entry stays live, fresh writes move the register to later versions. -/
theorem moves_later (hw : Inv cl init w)
    (hkey : key ≠ cl.platform.hashes.digest statusListKey) {version : Bytes → Nat}
    (hrank : Ranked cl.platform version w.log) (hfresh : Every (FreshWrite cl) w.log)
    {loc : Addr} {pre mid post : List Event} (hlog : w.log = pre ++ mid ++ post)
    (hlive : ∀ e ∈ mid, ∀ v, e.wrote loc key = some v → e.live ≠ none) :
    Moves (Event.wrote loc key) (lastWritten init pre loc key) (Later version) mid := by
  rintro p e q rfl x y hx hy
  have hsplit : w.log = (pre ++ p) ++ e :: (q ++ post) := by simp [hlog]
  obtain ⟨cur, hcur⟩ := Option.ne_none_iff_exists'.mp (hlive e (by simp) y hy)
  have hf := hfresh _ _ _ hsplit
  have hlast := (write_authorised hw hkey hsplit hf hy hcur).1
  rw [lastWritten, latest_append] at hlast
  obtain rfl := Option.some.inj (hx.symm.trans hlast)
  exact write_later hw hkey hrank hsplit hf hy hcur

/-- **Key-rotation chain.** In every run in which each UPDATE write finds the
record it was checked against: a write that changes a live DID record is
authorised by that record; and with fresh keys, an UPDATE never writes back a
version that an UPDATE replaced, while the entry stays live. -/
theorem rotation_chain (cl : Cluster) {w₀ : World} (h₀ : Fresh w₀) {c : (system cl).Config}
    (hrun : (system cl).Run w₀ c) (hfresh : Every (FreshWrite cl) c.world.log) (key : NodeId)
    (hkey : key ≠ cl.platform.hashes.digest statusListKey) :
    (∀ pre a new st cur post,
      c.world.log = pre ++ ⟨a, .storageSet key new, st, some cur⟩ :: post → isWrite st = true →
      new ≠ cur → Authorises cl.platform cur new a.job.auth) ∧
    ∀ version, Ranked cl.platform version c.world.log →
      ∀ pre a₁ new₁ st₁ cur mid a₂ new₂ st₂ live₂ post,
        c.world.log = pre ++ ⟨a₁, .storageSet key new₁, st₁, some cur⟩ ::
          (mid ++ ⟨a₂, .storageSet key new₂, st₂, some live₂⟩ :: post) →
        isWrite st₁ = true → isWrite st₂ = true → a₁.loc = a₂.loc → new₁ ≠ cur →
        (∀ e ∈ mid, ∀ v, e.wrote a₁.loc key = some v → e.live ≠ none) → new₂ ≠ cur := by
  obtain ⟨hinv, -⟩ := run_inv h₀ hrun
  have hwrote : ∀ {a : Agent} {new : Bytes} {st : StorageWriteStatus} {live : Option Bytes},
      isWrite st = true → Event.wrote a.loc key ⟨a, .storageSet key new, st, live⟩ = some new := by
    intro a new st live hst
    exact if_pos ⟨rfl, rfl, hst⟩
  refine ⟨fun pre a new st cur post hlog hst hne => ?_, ?_⟩
  · rcases (write_authorised hinv hkey hlog (hfresh _ _ _ hlog) (hwrote hst) rfl).2 with h | h
    · exact absurd h.symm hne
    · exact h.1
  · intro version hrank pre a₁ new₁ st₁ cur mid a₂ new₂ st₂ live₂ post hlog hst₁ hst₂ hloc hne hlive
    -- up from `cur` by the first write, not down in between, not down by the second
    have h₁ := write_later hinv hkey hrank hlog (hfresh _ _ _ hlog) (hwrote hst₁) rfl
    have hlt : version cur < version new₁ := h₁.resolve_left (Ne.symm hne)
    have hlog' : c.world.log = (pre ++ [⟨a₁, .storageSet key new₁, st₁, some cur⟩]) ++ mid ++
        ⟨a₂, .storageSet key new₂, st₂, some live₂⟩ :: post := by simp [hlog]
    have hmoves := moves_later hinv hkey hrank hfresh hlog' hlive
    have hstart : lastWritten w₀.storage (pre ++ [⟨a₁, .storageSet key new₁, st₁, some cur⟩])
        a₁.loc key = some new₁ := by
      rw [lastWritten, latest_snoc, hwrote hst₁, Option.some_or]
    obtain ⟨x, hx, hle⟩ := Moves.onwards [] hstart hmoves
    have hx : lastWritten w₀.storage (pre ++ [⟨a₁, .storageSet key new₁, st₁, some cur⟩] ++ mid)
        a₁.loc key = some x := by
      rw [lastWritten, latest_append]
      exact hx
    have hw₂ : Event.wrote a₁.loc key ⟨a₂, .storageSet key new₂, st₂, some live₂⟩ = some new₂ :=
      hloc ▸ hwrote hst₂
    have hf₂ := hfresh _ _ _ hlog'
    have hlast := (write_authorised hinv hkey hlog' hf₂ hw₂ rfl).1
    obtain rfl := Option.some.inj (hx.symm.trans hlast)
    have h₂ := write_later hinv hkey hrank hlog' hf₂ hw₂ rfl
    intro heq
    subst heq
    rcases IsTrans.trans _ _ _ hle h₂ with h | h
    · exact hne h
    · exact absurd h (by omega)

/-! ## Two runs -/

/-- All nodes hold `toyRecord 1`, without expiry. -/
def holdingOne : World := toyWorld (emptyStore.set 0 toyKey.bytes (toyRecord 1)).2

/-- Requests of a hostile or honest peer: rotate to the key 2, and once more under another
message id, as `Server::update` does when it is called again; then rotate to the key 3. -/
def rotations : List (system toyCluster).Move :=
  [.env (.inject ⟨toyAddr 7, toyAddr 1, .update (filledId 7) toyKey (toyRecord 2) [1]⟩),
    .env (.inject ⟨toyAddr 7, toyAddr 1, .update (filledId 7) toyKey (toyRecord 2) [1]⟩),
    .env (.inject ⟨toyAddr 7, toyAddr 1, .update (filledId 7) toyKey (toyRecord 3) [2]⟩)]

/-- The handler of the first request stops before its write, the second one writes, the
third request is handled; then the first handler goes on. -/
def updateRace : List (system toyCluster).Move :=
  rotations ++ [.start (.handle 0), .start (.handle 1), .start (.handle 2)] ++
    List.replicate 4 (go 0 {}) ++ List.replicate 6 (go 1 {}) ++ List.replicate 6 (go 2 {}) ++
    [go 0 {}]

/-- Two of the requests, one after the other. -/
def updateSequence : List (system toyCluster).Move :=
  rotations ++ [.start (.handle 0), .start (.handle 2)] ++ List.replicate 6 (go 0 {}) ++
    List.replicate 6 (go 1 {})

theorem authorises_toy {old new auth : Bytes} (h : Authorises toyPlatform old new auth) :
    ∃ record pubKey, splitRecord old = .ok record ∧
      publicKeyFromDidDoc toyPlatform record.data = .ok pubKey ∧ auth.head? = pubKey.head? := by
  obtain ⟨record, pubKey, hr, hk, hc⟩ := h
  obtain ⟨scheme, -, hc⟩ := except_bind_ok.mp hc
  refine ⟨record, pubKey, hr, hk, ?_⟩
  simpa [toyPlatform, Except.mapError] using hc

/-- The first byte of a signature, which names its key. -/
def toySigner (sig : Bytes) : Nat := (sig.head?.map UInt8.toNat).getD 0

/-- The number of a record is the one of its key. -/
def toyVersion (value : Bytes) : Nat :=
  match splitRecord value >>= fun record => publicKeyFromDidDoc toyPlatform record.data with
  | .ok pubKey => toySigner pubKey
  | .error _ => 0

/-- Does an UPDATE write go up, after renumbering by `f`? -/
def goesUp (f : Nat → Nat) (e : Event) : Bool :=
  match e.op with
  | .storageSet _ new => f (toySigner e.agent.job.auth) < f (toyVersion new)
  | _ => true

theorem ranked_toy {f : Nat → Nat} {log : List Event} (h : log.all (goesUp f) = true) :
    Ranked toyPlatform (fun v => f (toyVersion v)) log := by
  intro e he key new hop old hau
  have hup := List.all_eq_true.mp h e he
  rw [goesUp, hop] at hup
  obtain ⟨record, pubKey, hr, hk, hhead⟩ := authorises_toy hau
  have hold : toyVersion old = toySigner e.agent.job.auth := by
    simp only [toyVersion, hr, Except.bind, bind, hk, toySigner, hhead]
  change f (toyVersion old) < f (toyVersion new)
  rw [hold]
  exact of_decide_eq_true hup

def asSet : Event → Option (Agent × NodeId × Bytes × StorageWriteStatus × Option Bytes)
  | ⟨a, .storageSet key value, st, live⟩ => some (a, key, value, st, live)
  | _ => none

instance : DecidableEq (Agent × NodeId × Bytes × StorageWriteStatus × Option Bytes) :=
  inferInstance

theorem get_of_asSet {log : List Event} {i : Nat} {a : Agent} {key : NodeId} {value : Bytes}
    {st : StorageWriteStatus} {live : Option Bytes}
    (h : log[i]?.bind asSet = some (a, key, value, st, live)) :
    log[i]? = some ⟨a, .storageSet key value, st, live⟩ := by
  obtain ⟨e, he, h⟩ := Option.bind_eq_some_iff.mp h
  rw [he]
  unfold asSet at h
  split at h
  · cases h; rfl
  · cases h

/-- **The race.** A run of one replica in which all rotations use fresh keys: the
version with the key 2 is replaced by the one with the key 3, and then a delayed
write brings it back, which the key 3 never authorised. -/
theorem rotation_chain_broken : ∃ c pre a b mid post,
    toyRun holdingOne updateRace = some c ∧
    c.world.log = pre ++ ⟨b, .storageSet toyKey (toyRecord 3), .stored, some (toyRecord 2)⟩ ::
      (mid ++ ⟨a, .storageSet toyKey (toyRecord 2), .stored, some (toyRecord 3)⟩ :: post) ∧
    ¬ Authorises toyPlatform (toyRecord 3) (toyRecord 2) a.job.auth := by
  let a : Agent := ⟨0, toyAddr 1, .handle 0 (toyAddr 7)
    (.update (filledId 7) toyKey (toyRecord 2) [1])⟩
  let b : Agent := ⟨2, toyAddr 1, .handle 2 (toyAddr 7)
    (.update (filledId 7) toyKey (toyRecord 3) [2])⟩
  obtain ⟨c, hc, hsets⟩ : ∃ c ∈ toyRun holdingOne updateRace,
      ([14, 16].map fun i => (World.log c.world)[i]?.bind asSet) =
        [some (b, toyKey, toyRecord 3, .stored, some (toyRecord 2)),
          some (a, toyKey, toyRecord 2, .stored, some (toyRecord 3))] := by
    decide +kernel
  obtain ⟨hb, hsets⟩ := List.cons.inj hsets
  have ha := (List.cons.inj hsets).1
  refine ⟨c, _, a, b, _, _, hc, split_two (get_of_asSet hb) (get_of_asSet ha) (by omega),
    fun h => ?_⟩
  obtain ⟨record, pubKey, hr, hk, hh⟩ := authorises_toy h
  cases hr
  cases hk
  revert hh
  decide

theorem rotation_chain_sequence : ∃ c, toyRun holdingOne updateSequence = some c ∧
    Authorises toyPlatform (toyRecord 2) (toyRecord 3) [2] ∧ toyRecord 3 ≠ toyRecord 1 := by
  let a : Agent := ⟨0, toyAddr 1, .handle 0 (toyAddr 7)
    (.update (filledId 7) toyKey (toyRecord 2) [1])⟩
  let b : Agent := ⟨1, toyAddr 1, .handle 2 (toyAddr 7)
    (.update (filledId 7) toyKey (toyRecord 3) [2])⟩
  obtain ⟨c, hc, hfresh, hup, hkept, hsets⟩ : ∃ c ∈ toyRun holdingOne updateSequence,
      Every (FreshWrite toyCluster) (World.log c.world) ∧
      (World.log c.world).all (goesUp id) = true ∧
      (∀ e ∈ ((World.log c.world).drop 5).take 5, ∀ v, e.wrote (toyAddr 1) toyKey = some v →
        e.live ≠ none) ∧
      ([4, 10].map fun i => (World.log c.world)[i]?.bind asSet) =
        [some (a, toyKey, toyRecord 2, .stored, some (toyRecord 1)),
          some (b, toyKey, toyRecord 3, .stored, some (toyRecord 2))] := by
    decide +kernel
  obtain ⟨ha, hsets⟩ := List.cons.inj hsets
  have hb := (List.cons.inj hsets).1
  obtain ⟨hauthorised, hback⟩ := rotation_chain toyCluster (fresh_toyWorld _) (run_of_toyRun hc)
    hfresh toyKey (by decide)
  have hlog := split_two (get_of_asSet ha) (get_of_asSet hb) (by omega)
  have hlog' := hlog
  rw [← List.cons_append, ← List.append_assoc] at hlog'
  refine ⟨c, hc, hauthorised _ b (toyRecord 3) .stored (toyRecord 2) _ hlog' rfl (by decide), ?_⟩
  exact hback (fun v => id (toyVersion v)) (ranked_toy hup) _ _ _ _ _ _ _ _ _
    _ _ hlog rfl rfl rfl (by decide) hkept

end AuthKademlia.Properties
