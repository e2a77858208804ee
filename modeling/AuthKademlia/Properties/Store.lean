import Mathlib.Algebra.Order.BigOperators.Group.List
import AuthKademlia.Storage.Interleaved

/-! # One store, many callers

The byte budget holds whatever steps of concurrent calls interleave. And the first
writer of a key wins: while its record is not older than the time to live, no
other value is acknowledged. -/
namespace AuthKademlia.Properties
open AuthKademlia.Utils AuthKademlia.Storage AuthKademlia.Storage.ForgetfulStorage
open AuthKademlia.Storage.Interleaved

/-! ## The byte budget -/

/-- What a call at this point subtracts from the counter with its next step. -/
def releases : Call → Nat
  | .releasing _ released => released
  | .pruning _ bytes => bytes
  | _ => 0

theorem releases_le_pending (t : Call) : releases t ≤ t.pending := by
  cases t with
  | releasing key released => exact Nat.le_refl released
  | pruning records bytes => exact Nat.le_refl bytes
  | called | entered | reserving | writing | leaving | finished => exact Nat.zero_le _

/-- **The byte budget.** At every moment of every interleaving the entries account for
at most what the counter says, which is within the budget, no release lets it
underflow, and once every call has finished the counter is exact. -/
theorem storage_byte_budget (ttl : Int) (maxStorageBytes : Nat) (moves : List Move) :
    let c := Config.after ttl maxStorageBytes moves
    entryBytes c.store.data ≤ c.store.currentStorageBytes ∧
    c.store.currentStorageBytes ≤ maxStorageBytes ∧
    (∀ t ∈ c.calls, releases t ≤ c.store.currentStorageBytes) ∧
    ((∀ t ∈ c.calls, ∃ answer, t = .finished answer) →
      entryBytes c.store.data = c.store.currentStorageBytes) := by
  intro c
  have h : Books maxStorageBytes c := books_after ttl maxStorageBytes moves
  have hb := h.balanced.balance
  refine ⟨by omega, h.limit ▸ h.balanced.budget, ?_, ?_⟩
  · intro t ht
    have hle : t.pending ≤ (c.calls.map Call.pending).sum :=
      List.le_sum_of_mem (List.mem_map_of_mem ht)
    have hrel := releases_le_pending t
    omega
  · intro hdone
    have hzero : (c.calls.map Call.pending).sum = 0 := by
      refine List.sum_eq_zero ?_
      intro n hn
      obtain ⟨t, ht, rfl⟩ := List.mem_map.mp hn
      obtain ⟨answer, rfl⟩ := hdone t ht
      rfl
    omega

/-- A record is written, and then a shorter one under the same key. -/
def growThenShrink : List Move :=
  [.call .set [1] [5, 5, 5], .step 0 0, .step 0 0, .step 0 0, .step 0 0, .step 0 0,
    .call .set [1] [6], .step 1 1, .step 1 1, .step 1 1, .step 1 1, .step 1 1]

theorem storage_byte_budget_growThenShrink :
    let c := Config.after 60 10 growThenShrink
    c.calls = [.finished (.written .stored), .finished (.written .stored)] ∧
      entryBytes c.store.data = c.store.currentStorageBytes := by
  have hcalls : (Config.after 60 10 growThenShrink).calls =
      [.finished (.written .stored), .finished (.written .stored)] := by decide
  refine ⟨hcalls, (storage_byte_budget 60 10 growThenShrink).2.2.2 ?_⟩
  intro t ht
  rw [hcalls] at ht
  exact ⟨.written .stored, by simpa using ht⟩

/-! ## First writer wins -/

/-- Calls to a store whose records are not overwritten. -/
inductive StoreCall
  | insertIfAbsent (key value : Bytes)
  | get (key : Bytes)
  | iterOlderThan (secondsOld : Nat)
  | iterAll
  | pruneExpired
  deriving DecidableEq

inductive StoreAnswer
  | written (status : StorageWriteStatus)
  | value (found : Option Bytes)
  | pairs (found : List (Bytes × Bytes))
  | reclaimed (records : Nat)
  deriving DecidableEq

def answer (s : ForgetfulStorage) (now : Instant) : StoreCall → StoreAnswer × ForgetfulStorage
  | .insertIfAbsent key value =>
    let (status, s) := s.insertIfAbsent now key value
    (.written status, s)
  | .get key => (.value (s.get now key), s)
  | .iterOlderThan secondsOld => (.pairs (s.iterOlderThan now secondsOld), s)
  | .iterAll => (.pairs (s.iterAll now), s)
  | .pruneExpired => (.reclaimed (s.reclaimedRecords now), s.pruneExpired now)

structure Answered where
  now : Instant
  call : StoreCall
  answer : StoreAnswer
  deriving DecidableEq

/-- The calls of all clients, in the order in which the store takes them. -/
def answers : ForgetfulStorage → List (Instant × StoreCall) → List Answered
  | _, [] => []
  | s, (now, call) :: calls =>
    let (a, s) := answer s now call
    ⟨now, call, a⟩ :: answers s calls

/-- The value `v` was acknowledged under `key`. -/
def Answered.Acks (e : Answered) (key v : Bytes) : Prop :=
  e.call = .insertIfAbsent key v ∧
    (e.answer = .written .stored ∨ e.answer = .written .alreadyStored)

/-- When the entry of `key`, last acknowledged at `since`, was last acknowledged after
this call. -/
def Answered.since (e : Answered) (key : Bytes) (since : Instant) : Instant :=
  match e.call, e.answer with
  | .insertIfAbsent k _, .written .stored => if k = key then e.now else since
  | .insertIfAbsent k _, .written .alreadyStored => if k = key then e.now else since
  | _, _ => since

/-- No call comes later than the time to live after the last acknowledgement of `key`
before it. -/
def Unexpired (s : ForgetfulStorage) (key : Bytes) : Instant → List Answered → Prop
  | _, [] => True
  | since, e :: es => s.isExpired e.now since = false ∧ Unexpired s key (e.since key since) es

variable {s : ForgetfulStorage} {key v w : Bytes} {now since : Instant}

theorem isExpired_congr {s' : ForgetfulStorage} (h : s'.ttl = s.ttl) (now since : Instant) :
    s'.isExpired now since = s.isExpired now since := by
  rw [isExpired, isExpired, h]

theorem unexpired_congr {s' : ForgetfulStorage} (h : s'.ttl = s.ttl) : ∀ {es : List Answered}
    {since : Instant}, Unexpired s key since es → Unexpired s' key since es
  | [], _, _ => trivial
  | _ :: _, _, ⟨he, hes⟩ => ⟨by rw [isExpired_congr h]; exact he, unexpired_congr h hes⟩

theorem answer_ttl (s : ForgetfulStorage) (now : Instant) (call : StoreCall) :
    (answer s now call).2.ttl = s.ttl := by
  cases call with
  | insertIfAbsent k w =>
    show (s.insertIfAbsent now k w).2.ttl = s.ttl
    have hr := s.insertIfAbsent_stamped now k w
    generalize s.insertIfAbsent now k w = r at hr ⊢
    cases hr with
    | refused st hst => rfl
    | stamped st s' hst hdata httl => exact httl
  | get | iterOlderThan | iterAll => rfl
  | pruneExpired =>
    show (s.pruneExpired now).ttl = s.ttl
    unfold pruneExpired
    split
    · rfl
    · obtain ⟨bytes, he⟩ := releaseBytes_counter _ _
      rw [he]

/-- What a call answers while the entry of `key` is live. -/
def Obeys (key v : Bytes) (call : StoreCall) (a : StoreAnswer) : Prop :=
  (call = .get key → a = .value (some v)) ∧
    ∀ w, call = .insertIfAbsent key w →
      a = .written (if w = v then .alreadyStored else .conflict)

theorem obeys_other {call : StoreCall} {a : StoreAnswer} (hget : call ≠ .get key)
    (hins : ∀ w, call ≠ .insertIfAbsent key w) : Obeys key v call a :=
  ⟨fun he => absurd he hget, fun w he => absurd he (hins w)⟩

theorem obeys_insert {a : StoreAnswer}
    (h : a = .written (if w = v then .alreadyStored else .conflict)) :
    Obeys key v (.insertIfAbsent key w) a := by
  refine ⟨fun he => StoreCall.noConfusion he, ?_⟩
  intro x he
  obtain ⟨-, rfl⟩ := StoreCall.insertIfAbsent.inj he
  exact h

theorem insertIfAbsent_eq_live (h : s.data.lookup key = some ⟨v, since⟩)
    (hlive : s.isExpired now since = false) (w : Bytes) :
    s.insertIfAbsent now key w =
      if w = v then (.alreadyStored, { s with data := s.data.insert key ⟨v, now⟩ })
      else (.conflict, s) := by
  simp only [insertIfAbsent, h, hlive, Bool.false_eq_true, if_false]
  by_cases hw : w = v
  · rw [if_pos hw.symm, if_pos hw, hw]
  · rw [if_neg (Ne.symm hw), if_neg hw]

/-- **One call** to a store with a live entry: it obeys, and the entry stays, with the
instant of its last acknowledgement. -/
theorem answer_live (h : s.data.lookup key = some ⟨v, since⟩)
    (hlive : s.isExpired now since = false) (call : StoreCall) :
    Obeys key v call (answer s now call).1 ∧
      (answer s now call).2.data.lookup key =
        some ⟨v, (Answered.mk now call (answer s now call).1).since key since⟩ := by
  cases call with
  | get k =>
    refine ⟨⟨fun he => ?_, fun w he => StoreCall.noConfusion he⟩, h⟩
    obtain rfl := StoreCall.get.inj he
    show StoreAnswer.value (s.get now k) = _
    rw [ForgetfulStorage.get, h]
    simp only [hlive, Bool.false_eq_true, if_false]
  | iterOlderThan secondsOld => exact ⟨obeys_other (by simp) (by simp), h⟩
  | iterAll => exact ⟨obeys_other (by simp) (by simp), h⟩
  | pruneExpired =>
    refine ⟨obeys_other (by simp) (by simp), ?_⟩
    show (s.pruneExpired now).data.lookup key = some ⟨v, since⟩
    rw [pruneExpired_lookup, h, Option.filter_some, hlive]
    rfl
  | insertIfAbsent k w =>
    by_cases hk : k = key
    · subst hk
      have hins := insertIfAbsent_eq_live h hlive w
      by_cases hw : w = v
      · rw [if_pos hw] at hins
        simp only [answer, hins, Answered.since, AList.lookup_insert, if_true, and_true]
        exact obeys_insert (by rw [if_pos hw])
      · rw [if_neg hw] at hins
        simp only [answer, hins, Answered.since]
        exact ⟨obeys_insert (by rw [if_neg hw]), h⟩
    · refine ⟨obeys_other (by simp) (by simp [hk]), ?_⟩
      simp only [answer]
      have hr := s.insertIfAbsent_stamped now k w
      generalize s.insertIfAbsent now k w = r at hr ⊢
      cases hr with
      | refused st hst => rcases hst with rfl | rfl <;> exact h
      | stamped st s' hst hdata httl =>
        have hlookup : s'.data.lookup key = some ⟨v, since⟩ := by
          rw [hdata, AList.lookup_insert_ne (Ne.symm hk), h]
        rcases hst with rfl | ⟨rfl, -⟩ <;> simpa [Answered.since, hk] using hlookup

/-- **All calls while the entry is live** obey. -/
theorem answers_live : ∀ {mid : List Answered} {s : ForgetfulStorage} {since : Instant}
    {calls : List (Instant × StoreCall)} {post : List Answered},
    s.data.lookup key = some ⟨v, since⟩ → answers s calls = mid ++ post →
    Unexpired s key since mid → ∀ e ∈ mid, Obeys key v e.call e.answer
  | [], _, _, _, _, _, _, _ => fun e he => nomatch he
  | d :: mid, s, since, [], post, _, heq, _ => nomatch heq
  | d :: mid, s, since, (now, call) :: calls, post, h, heq, ⟨hlive, hrest⟩ => by
    simp only [answers, List.cons_append, List.cons.injEq] at heq
    obtain ⟨rfl, heq⟩ := heq
    obtain ⟨hobeys, hlookup⟩ := answer_live h hlive call
    have hrest' : Unexpired (answer s now call).2 key _ mid :=
      unexpired_congr (answer_ttl s now call) hrest
    intro e he
    rcases List.mem_cons.mp he with rfl | he
    · exact hobeys
    · exact answers_live hlookup heq hrest' e he

theorem answers_drop : ∀ {pre rest : List Answered} {s : ForgetfulStorage}
    {calls : List (Instant × StoreCall)}, answers s calls = pre ++ rest →
    ∃ s' calls', s'.ttl = s.ttl ∧ answers s' calls' = rest
  | [], _, s, calls, h => ⟨s, calls, rfl, h⟩
  | _ :: _, _, _, [], h => nomatch h
  | d :: pre, rest, s, (now, call) :: calls, h => by
    simp only [answers, List.cons_append, List.cons.injEq] at h
    obtain ⟨s', calls', httl, heq⟩ := answers_drop h.2
    exact ⟨s', calls', httl.trans (answer_ttl s now call), heq⟩

theorem acks_lookup {call : StoreCall}
    (h : (Answered.mk now call (answer s now call).1).Acks key v) :
    (answer s now call).2.data.lookup key = some ⟨v, now⟩ := by
  obtain ⟨hcall, hack⟩ := h
  simp only at hcall
  subst hcall
  simp only [answer] at hack ⊢
  have hr := s.insertIfAbsent_stamped now key v
  generalize s.insertIfAbsent now key v = r at hr hack ⊢
  cases hr with
  | refused st hst => rcases hst with rfl | rfl <;> simp at hack
  | stamped st s' hst hdata httl => rw [hdata, AList.lookup_insert]

/-- **First writer wins.** In any run of calls on any store: a value `v` was
acknowledged under `key`, and no call of a stretch `mid` that follows comes later than
the time to live after the last acknowledgement. Then each read in it returns `v`,
each insertion of `v` is already stored, each insertion of another value is a conflict,
and so no other value is acknowledged. -/
theorem first_writer_wins (s : ForgetfulStorage) (calls : List (Instant × StoreCall))
    {pre mid post : List Answered} {ack : Answered} {key v : Bytes}
    (hrun : answers s calls = pre ++ ack :: (mid ++ post)) (hack : ack.Acks key v)
    (hlive : Unexpired s key ack.now mid) :
    ∀ e ∈ mid,
      (e.call = .get key → e.answer = .value (some v)) ∧
      (∀ w, w ≠ v → e.call = .insertIfAbsent key w → e.answer = .written .conflict) ∧
      (e.call = .insertIfAbsent key v → e.answer = .written .alreadyStored) ∧
      ∀ w, e.Acks key w → w = v := by
  obtain ⟨s', calls', httl, hrest⟩ := answers_drop hrun
  cases calls' with
  | nil => cases hrest
  | cons first calls' =>
    obtain ⟨now, call⟩ := first
    simp only [answers, List.cons.injEq] at hrest
    obtain ⟨rfl, hmid⟩ := hrest
    have hlookup := acks_lookup hack
    have hlive' := unexpired_congr ((answer_ttl s' now call).trans httl) hlive
    intro e he
    obtain ⟨hget, hins⟩ := answers_live hlookup hmid hlive' e he
    refine ⟨hget, ?_, ?_, ?_⟩
    · intro w hw hcall
      rw [hins w hcall, if_neg hw]
    · intro hcall
      rw [hins v hcall, if_pos rfl]
    · rintro w ⟨hcall, hans⟩
      by_contra hw
      rw [hins w hcall, if_neg hw] at hans
      simp at hans

/-- Two clients insert different values, then the first again; a pruning pass follows,
and a read. -/
def twoClients : List (Instant × StoreCall) :=
  [(0, .insertIfAbsent [1] [5]), (30 * nanosPerSec, .insertIfAbsent [1] [6]),
    (50 * nanosPerSec, .insertIfAbsent [1] [5]), (100 * nanosPerSec, .pruneExpired),
    (105 * nanosPerSec, .get [1])]

def laterAnswers : List Answered :=
  [⟨30 * nanosPerSec, .insertIfAbsent [1] [6], .written .conflict⟩,
    ⟨50 * nanosPerSec, .insertIfAbsent [1] [5], .written .alreadyStored⟩,
    ⟨100 * nanosPerSec, .pruneExpired, .reclaimed 0⟩,
    ⟨105 * nanosPerSec, .get [1], .value (some [5])⟩]

theorem first_writer_wins_twoClients :
    answers (.withMaxStorageBytes 60 10) twoClients =
      ⟨0, .insertIfAbsent [1] [5], .written .stored⟩ :: laterAnswers ∧
    ∀ e ∈ laterAnswers,
      (e.call = .get [1] → e.answer = .value (some [5])) ∧
      (∀ w, w ≠ [5] → e.call = .insertIfAbsent [1] w → e.answer = .written .conflict) ∧
      (e.call = .insertIfAbsent [1] [5] → e.answer = .written .alreadyStored) ∧
      ∀ w, e.Acks [1] w → w = [5] := by
  have hrun : answers (.withMaxStorageBytes 60 10) twoClients =
      [] ++ ⟨0, .insertIfAbsent [1] [5], .written .stored⟩ :: (laterAnswers ++ []) := by decide
  refine ⟨hrun, first_writer_wins _ twoClients hrun ⟨rfl, Or.inl rfl⟩ ?_⟩
  exact ⟨by decide, by decide, by decide, by decide, trivial⟩

end AuthKademlia.Properties
