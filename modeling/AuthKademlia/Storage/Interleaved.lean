import Mathlib.Algebra.BigOperators.Group.List.Basic
import AuthKademlia.Storage

/-! # The store under concurrent calls

Calls of `set`, `insert_if_absent` and `prune_expired` take effect in several
atomic steps: entering the map at a key, which excludes others from that key,
reserving bytes, writing the entry, releasing bytes, and leaving. A pruning pass
visits keys that nobody is at and gives the bytes back at its end. Each step reads
the clock anew. A call that runs alone does what the operation of the same name
does in one step. -/
namespace AuthKademlia.Storage.Interleaved
open AuthKademlia.Utils ForgetfulStorage

inductive Kind
  | set
  | insertIfAbsent
  deriving DecidableEq

/-- What a call answers; a pruning pass says how many records went. -/
inductive Answer
  | written (status : StorageWriteStatus)
  | reclaimed (records : Nat)
  deriving DecidableEq

inductive Call
  | called (kind : Kind) (key value : Bytes)
  /-- The map is entered at the key. -/
  | entered (kind : Kind) (key value : Bytes)
  | reserving (key value : Bytes) (additional : Nat)
  /-- Bytes were granted before the write, or will be released after it. -/
  | writing (key value : Bytes) (granted released : Nat)
  | releasing (key : Bytes) (released : Nat)
  | leaving (key : Bytes) (status : StorageWriteStatus)
  | pruning (records bytes : Nat)
  | finished (answer : Answer)
  deriving DecidableEq

namespace Call

/-- The key at which the call has entered the map. -/
def holds : Call → Option Bytes
  | .entered _ key _ | .reserving key _ _ | .writing key _ _ _ | .releasing key _
  | .leaving key _ => some key
  | .called _ _ _ | .pruning _ _ | .finished _ => none

/-- `set` and `insert_if_absent` after they entered the map: what `replace_value` and
the vacant branch do before they touch the counter. -/
def enter (s : ForgetfulStorage) (now : Instant) (kind : Kind) (key value : Bytes) :
    Call × ForgetfulStorage :=
  match s.data.lookup key with
  | none => (.reserving key value (key.length + value.length), s)
  | some entry =>
    if kind = .insertIfAbsent ∧ s.isExpired now entry.insertedAt = false ∧ entry.value ≠ value then
      (.leaving key .conflict, s)
    else if entry.value = value then
      (.leaving key .alreadyStored, { s with data := s.data.insert key ⟨value, now⟩ })
    else if value.length > entry.value.length then
      (.reserving key value (value.length - entry.value.length), s)
    else (.writing key value 0 (entry.value.length - value.length), s)

def step (s : ForgetfulStorage) (now : Instant) : Call → Call × ForgetfulStorage
  | .called kind key value => (.entered kind key value, s)
  | .entered kind key value => enter s now kind key value
  | .reserving key value additional =>
    match s.reserveBytes additional with
    | none => (.leaving key .capacityExceeded, s)
    | some s => (.writing key value additional 0, s)
  | .writing key value _ released =>
    let s := { s with data := s.data.insert key ⟨value, now⟩ }
    if released > 0 then (.releasing key released, s) else (.leaving key .stored, s)
  | .releasing key released => (.leaving key .stored, s.releaseBytes released)
  | .leaving _ status => (.finished (.written status), s)
  | .pruning records bytes => (.finished (.reclaimed records), s.releaseBytes bytes)
  | .finished answer => (.finished answer, s)

def visit (s : ForgetfulStorage) (now : Instant) (key : Bytes) (records bytes : Nat) :
    Call × ForgetfulStorage :=
  match s.data.lookup key with
  | none => (.pruning records bytes, s)
  | some entry =>
    if s.isExpired now entry.insertedAt then
      (.pruning ((records + 1) % wordSize)
          ((bytes + (key.length + entry.value.length)) % wordSize),
        { s with data := s.data.erase key })
    else (.pruning records bytes, s)

end Call

/-- A pruning pass of a store without expiry ends at once. -/
def startPruning (s : ForgetfulStorage) : Call :=
  if s.ttl = -1 then .finished (.reclaimed 0) else .pruning 0 0

/-- A store and the calls made to it so far. -/
structure Config where
  store : ForgetfulStorage
  calls : List Call

inductive Move
  | call (kind : Kind) (key value : Bytes)
  | prune
  | step (call : Nat) (now : Instant)
  | visit (call : Nat) (now : Instant) (key : Bytes)

namespace Config

def busy (c : Config) (key : Bytes) : Bool := c.calls.any fun t => t.holds = some key

/-- A move that is not possible changes nothing: a call cannot enter the map at a
key where another is, nor a pruning pass visit it. -/
def move (c : Config) : Move → Config
  | .call kind key value => { c with calls := c.calls ++ [.called kind key value] }
  | .prune => { c with calls := c.calls ++ [startPruning c.store] }
  | .step i now =>
    match c.calls[i]? with
    | none => c
    | some (.called kind key value) =>
      if c.busy key then c else { c with calls := c.calls.set i (.entered kind key value) }
    | some t => let (t, s) := t.step c.store now; ⟨s, c.calls.set i t⟩
  | .visit i now key =>
    match c.calls[i]? with
    | some (.pruning records bytes) =>
      if c.busy key then c
      else let (t, s) := Call.visit c.store now key records bytes; ⟨s, c.calls.set i t⟩
    | _ => c

def after (ttl : Int) (maxStorageBytes : Nat) (moves : List Move) : Config :=
  moves.foldl move ⟨.withMaxStorageBytes ttl maxStorageBytes, []⟩

end Config

/-! ## A call alone -/

/-- `n` steps of a call that nothing else interrupts. -/
def alone (now : Instant) : Nat → Call × ForgetfulStorage → Call × ForgetfulStorage
  | 0, c => c
  | n + 1, c => alone now n (c.1.step c.2 now)

@[simp] theorem alone_succ (now : Instant) (n : Nat) (c : Call × ForgetfulStorage) :
    alone now (n + 1) c = alone now n (c.1.step c.2 now) := rfl

@[simp] theorem alone_zero (now : Instant) (c : Call × ForgetfulStorage) : alone now 0 c = c := rfl

variable {s : ForgetfulStorage} {now : Instant} {key value : Bytes}

theorem alone_new (h : s.data.lookup key = none) (kind : Kind) :
    alone now 6 (.called kind key value, s) =
      (.finished (.written (s.insertNew now key value).1), (s.insertNew now key value).2) := by
  simp only [alone_succ, alone_zero, Call.step, Call.enter, h, insertNew]
  cases s.reserveBytes (key.length + value.length) <;> simp

theorem alone_replace {old : Entry} (h : s.data.lookup key = some old) (kind : Kind)
    (hk : kind = .set ∨ s.isExpired now old.insertedAt = true) :
    alone now 6 (.called kind key value, s) =
      (.finished (.written (s.replaceValue now key old value).1),
        (s.replaceValue now key old value).2) := by
  have hno : ¬ (kind = .insertIfAbsent ∧ s.isExpired now old.insertedAt = false ∧
      old.value ≠ value) := by
    rintro ⟨rfl, hlive, -⟩
    rcases hk with hk | hk
    · cases hk
    · rw [hlive] at hk
      cases hk
  simp only [alone_succ, alone_zero, Call.step, Call.enter, h, if_neg hno, replaceValue]
  by_cases heq : old.value = value
  · simp [heq]
  · by_cases hgrow : value.length > old.value.length
    · simp only [if_neg heq, if_pos hgrow]
      cases s.reserveBytes (value.length - old.value.length) with
      | none => simp
      | some s' => simp [Nat.not_lt.mpr (Nat.le_of_lt hgrow)]
    · simp only [if_neg heq, if_neg hgrow]
      by_cases hshrink : old.value.length > value.length
      · simp [Nat.sub_pos_of_lt hshrink, hshrink]
      · simp [hshrink, Nat.sub_eq_zero_of_le (Nat.not_lt.mp hshrink)]

/-- **A `set` that runs alone is one step of the store.** -/
theorem alone_set (s : ForgetfulStorage) (now : Instant) (key value : Bytes) :
    alone now 6 (.called .set key value, s) =
      (.finished (.written (s.set now key value).1), (s.set now key value).2) := by
  unfold ForgetfulStorage.set
  cases h : s.data.lookup key with
  | none => exact alone_new h .set
  | some old => exact alone_replace h .set (Or.inl rfl)

/-- **An `insert_if_absent` that runs alone is one step of the store.** -/
theorem alone_insertIfAbsent (s : ForgetfulStorage) (now : Instant) (key value : Bytes) :
    alone now 6 (.called .insertIfAbsent key value, s) =
      (.finished (.written (s.insertIfAbsent now key value).1),
        (s.insertIfAbsent now key value).2) := by
  unfold ForgetfulStorage.insertIfAbsent
  cases h : s.data.lookup key with
  | none => exact alone_new h .insertIfAbsent
  | some old =>
    cases hexp : s.isExpired now old.insertedAt with
    | true => simpa [hexp] using alone_replace h .insertIfAbsent (Or.inr hexp)
    | false =>
      by_cases heq : old.value = value
      · simp [Call.step, Call.enter, h, hexp, heq]
      · simp [Call.step, Call.enter, h, hexp, heq]

/-! ## Bytes of the entries -/

/-- Key and value lengths of all entries. -/
def entryBytes (data : AList fun _ : Bytes => Entry) : Nat :=
  (data.entries.map fun e => e.1.length + e.2.value.length).sum

/-- The part of them that is the entry of one key. -/
def bytesAt (data : AList fun _ : Bytes => Entry) (key : Bytes) : Nat :=
  (data.lookup key).elim 0 fun e => key.length + e.value.length

variable {data : AList fun _ : Bytes => Entry}

private theorem sum_kerase (key : Bytes) : ∀ l : List (Σ _ : Bytes, Entry),
    (l.map fun e => e.1.length + e.2.value.length).sum =
      ((l.dlookup key).elim 0 fun e => key.length + e.value.length) +
        ((l.kerase key).map fun e => e.1.length + e.2.value.length).sum
  | [] => rfl
  | ⟨k, e⟩ :: l => by
    by_cases hk : key = k
    · subst hk
      have herase : List.kerase key (⟨key, e⟩ :: l) = l := List.kerase_cons_eq rfl
      rw [List.dlookup_cons_eq, herase, List.map_cons, List.sum_cons]
      rfl
    · rw [List.dlookup_cons_ne _ _ hk, List.kerase_cons_ne hk, List.map_cons, List.map_cons,
        List.sum_cons, List.sum_cons, sum_kerase key l]
      exact Nat.add_left_comm _ _ _

theorem entryBytes_erase (data : AList fun _ : Bytes => Entry) (key : Bytes) :
    entryBytes data = bytesAt data key + entryBytes (data.erase key) :=
  sum_kerase key data.entries

theorem entryBytes_insert (data : AList fun _ : Bytes => Entry) (key : Bytes) (e : Entry) :
    entryBytes (data.insert key e) + bytesAt data key =
      entryBytes data + (key.length + e.value.length) := by
  have hins : entryBytes (data.insert key e) =
      (key.length + e.value.length) + entryBytes (data.erase key) := rfl
  have herase := entryBytes_erase data key
  omega

theorem bytesAt_congr {data' : AList fun _ : Bytes => Entry}
    (h : data'.lookup key = data.lookup key) : bytesAt data' key = bytesAt data key := by
  rw [bytesAt, bytesAt, h]

/-! ## The books balance -/

namespace Call

/-- Bytes charged for a call that no entry accounts for: reserved but not written
yet, or freed but not released yet. -/
def pending : Call → Nat
  | .writing _ _ granted _ => granted
  | .releasing _ released => released
  | .pruning _ bytes => bytes
  | _ => 0

/-- What a call intends fits the entry it found. -/
def Fits (data : AList fun _ : Bytes => Entry) : Call → Prop
  | .reserving key value additional => bytesAt data key + additional = key.length + value.length
  | .writing key value granted released =>
    bytesAt data key + granted = key.length + value.length + released
  | _ => True

theorem Fits.congr {t : Call} {data data' : AList fun _ : Bytes => Entry} (h : t.Fits data)
    (hsame : ∀ k, t.holds = some k → data'.lookup k = data.lookup k) : t.Fits data' := by
  cases t with
  | reserving key value additional =>
    show bytesAt data' key + additional = _
    rw [bytesAt_congr (hsame key rfl)]
    exact h
  | writing key value granted released =>
    show bytesAt data' key + granted = _
    rw [bytesAt_congr (hsame key rfl)]
    exact h
  | called | entered | releasing | leaving | pruning | finished => trivial

end Call

/-- The counter is what entries and calls account for, and within the budget. -/
structure Balanced (s : ForgetfulStorage) (pending : Nat) : Prop where
  balance : entryBytes s.data + pending = s.currentStorageBytes
  budget : s.currentStorageBytes ≤ s.maxStorageBytes
  word : s.currentStorageBytes < wordSize

theorem Balanced.setData {pending pending' : Nat} (h : Balanced s pending)
    (hsum : entryBytes data + pending' = entryBytes s.data + pending) :
    Balanced { s with data := data } pending' :=
  ⟨hsum.trans h.balance, h.budget, h.word⟩

theorem Balanced.reserve {pending n : Nat} {s' : ForgetfulStorage} (h : Balanced s pending)
    (hs : s.reserveBytes n = some s') : Balanced s' (pending + n) := by
  have hb := h.balance
  unfold reserveBytes at hs
  split at hs
  · rename_i hn
    obtain rfl := Option.some.inj hs
    exact ⟨by omega, h.budget, h.word⟩
  · simp only at hs
    split at hs
    · rename_i hfit
      obtain rfl := Option.some.inj hs
      exact ⟨by rw [← hb]; exact (Nat.add_assoc _ _ _).symm, hfit.2, hfit.1⟩
    · cases hs

theorem Balanced.release {pending n : Nat} (h : Balanced s (pending + n)) :
    Balanced (s.releaseBytes n) pending := by
  have hb := h.balance
  have hw := h.word
  have hm := h.budget
  unfold releaseBytes
  split
  · rename_i hn
    exact ⟨by omega, hm, hw⟩
  · have hsub : (s.currentStorageBytes + wordSize - n) % wordSize =
        s.currentStorageBytes - n := by
      have hle : n ≤ s.currentStorageBytes := by omega
      rw [Nat.sub_add_comm hle, Nat.add_mod_right, Nat.mod_eq_of_lt (by omega)]
    refine ⟨?_, ?_, ?_⟩
    · show entryBytes s.data + pending = _ % _
      omega
    · show _ % _ ≤ s.maxStorageBytes
      omega
    · show _ % _ < wordSize
      omega

/-! ## Steps -/

/-- What a step of a call may do: change the entry of `at?` and no other, be at no
other key, and keep the books. -/
structure Stepped (at? : Option Bytes) (s : ForgetfulStorage) (t : Call)
    (r : Call × ForgetfulStorage) : Prop where
  others : ∀ k, at? ≠ some k → r.2.data.lookup k = s.data.lookup k
  holds : ∀ k, r.1.holds = some k → at? = some k
  fits : r.1.Fits r.2.data
  balanced : ∀ rest, Balanced s (t.pending + rest) → Balanced r.2 (r.1.pending + rest)
  limit : r.2.maxStorageBytes = s.maxStorageBytes

theorem Stepped.idle {at? : Option Bytes} {t t' : Call}
    (hholds : ∀ k, t'.holds = some k → at? = some k) (hfits : t'.Fits s.data)
    (hp : t'.pending = t.pending) : Stepped at? s t (t', s) where
  others := fun _ _ => rfl
  holds := hholds
  fits := hfits
  balanced := fun rest h => by rwa [hp]
  limit := rfl

theorem Stepped.write {t t' : Call} {e : Entry}
    (hholds : ∀ k, t'.holds = some k → some key = some k)
    (hfits : t'.Fits (s.data.insert key e))
    (hp : bytesAt s.data key + t.pending = key.length + e.value.length + t'.pending) :
    Stepped (some key) s t (t', { s with data := s.data.insert key e }) where
  others := by
    intro k hk
    exact AList.lookup_insert_ne fun he => hk (congrArg some he.symm)
  holds := hholds
  fits := hfits
  balanced := by
    intro rest h
    have hsum := entryBytes_insert s.data key e
    refine h.setData ?_
    show entryBytes (s.data.insert key e) + (t'.pending + rest) = _
    omega
  limit := rfl

theorem Stepped.release {at? : Option Bytes} {t t' : Call} {n : Nat}
    (hholds : ∀ k, t'.holds = some k → at? = some k)
    (hfits : t'.Fits (s.releaseBytes n).data) (hn : t.pending = n) (hp : t'.pending = 0) :
    Stepped at? s t (t', s.releaseBytes n) where
  others := fun k _ => by rw [releaseBytes_data]
  holds := hholds
  fits := hfits
  balanced := by
    intro rest h
    rw [hn, Nat.add_comm] at h
    rw [hp, Nat.zero_add]
    exact h.release
  limit := by
    obtain ⟨bytes, he⟩ := s.releaseBytes_counter n
    rw [he]

theorem enter_stepped (s : ForgetfulStorage) (now : Instant) (kind : Kind) (key value : Bytes) :
    Stepped (some key) s (.entered kind key value) (Call.enter s now kind key value) := by
  unfold Call.enter
  cases h : s.data.lookup key with
  | none =>
    refine .idle (fun k hk => hk) ?_ rfl
    show bytesAt s.data key + _ = _
    rw [bytesAt, h]
    exact Nat.zero_add _
  | some old =>
    have hold : bytesAt s.data key = key.length + old.value.length := by rw [bytesAt, h]; rfl
    simp only
    split
    · exact .idle (fun k hk => hk) trivial rfl
    · split
      · rename_i heq
        refine .write (fun k hk => hk) trivial ?_
        rw [hold, heq]
        rfl
      · split
        · refine .idle (fun k hk => hk) ?_ rfl
          show bytesAt s.data key + _ = _
          omega
        · refine .idle (fun k hk => hk) ?_ rfl
          show bytesAt s.data key + _ = _
          omega

/-- **A call that has entered the map**, or needs no entry, keeps the books. -/
theorem step_stepped {t : Call} (hcalled : ∀ kind key value, t ≠ .called kind key value)
    (hfits : t.Fits s.data) (now : Instant) : Stepped t.holds s t (t.step s now) := by
  cases t with
  | called kind key value => exact absurd rfl (hcalled kind key value)
  | entered kind key value => exact enter_stepped s now kind key value
  | reserving key value additional =>
    simp only [Call.step]
    cases hs : s.reserveBytes additional with
    | none => exact .idle (fun k hk => hk) trivial rfl
    | some s' =>
      have hkept : ∀ rest, Balanced s (0 + rest) → Balanced s' (additional + rest) := by
        intro rest h
        have hres := h.reserve hs
        rwa [Nat.add_right_comm, Nat.zero_add] at hres
      obtain ⟨bytes, rfl⟩ := reserveBytes_counter hs
      exact ⟨fun k _ => rfl, fun k hk => hk, hfits, hkept, rfl⟩
  | writing key value granted released =>
    have hfits' : bytesAt s.data key + granted = key.length + value.length + released := hfits
    simp only [Call.step]
    by_cases hrel : released > 0
    · rw [if_pos hrel]
      exact .write (fun k hk => hk) trivial hfits'
    · rw [if_neg hrel]
      refine .write (fun k hk => hk) trivial ?_
      show bytesAt s.data key + granted = key.length + value.length + 0
      omega
  | releasing key released => exact .release (fun k hk => hk) trivial rfl rfl
  | leaving key status => exact .idle (fun k hk => nomatch hk) trivial rfl
  | pruning records bytes => exact .release (fun k hk => hk) trivial rfl rfl
  | finished answer => exact .idle (fun k hk => hk) trivial rfl

/-- **A visit of a pruning pass** moves the bytes of an expired entry to what it has
to give back. -/
theorem visit_stepped {rest : Nat} (now : Instant) (key : Bytes) (records bytes : Nat)
    (h : Balanced s (bytes + rest)) :
    Stepped (some key) s (.pruning records bytes) (Call.visit s now key records bytes) := by
  unfold Call.visit
  cases he : s.data.lookup key with
  | none => exact .idle (fun k hk => nomatch hk) trivial rfl
  | some entry =>
    simp only
    split
    · have hat : bytesAt s.data key = key.length + entry.value.length := by rw [bytesAt, he]; rfl
      have herase := entryBytes_erase s.data key
      have hmod : (bytes + (key.length + entry.value.length)) % wordSize =
          bytes + (key.length + entry.value.length) := by
        refine Nat.mod_eq_of_lt ?_
        have hb := h.balance
        have hw := h.word
        omega
      refine ⟨?_, (fun k hk => nomatch hk), trivial, ?_, rfl⟩
      · intro k hk
        exact AList.lookup_erase_ne fun he => hk (congrArg some he.symm)
      · intro rest' h'
        refine h'.setData ?_
        show entryBytes (s.data.erase key) + (_ % wordSize + rest') = _ + (bytes + rest')
        omega
    · exact .idle (fun k hk => nomatch hk) trivial rfl

/-! ## A pruning pass alone -/

/-- Visit keys one after the other. -/
def visitAll (now : Instant) : List Bytes → Nat → Nat → ForgetfulStorage → Call × ForgetfulStorage
  | [], records, bytes, s => (.pruning records bytes, s)
  | key :: keys, records, bytes, s =>
    match Call.visit s now key records bytes with
    | (.pruning records bytes, s) => visitAll now keys records bytes s
    | r => r

theorem visit_cases (s : ForgetfulStorage) (now : Instant) (key : Bytes) (records bytes : Nat) :
    ∃ records' bytes' s', Call.visit s now key records bytes = (.pruning records' bytes', s') ∧
      s'.ttl = s.ttl ∧ ∀ k, s'.data.lookup k =
        if k = key then (s.data.lookup k).filter fun e => !s.isExpired now e.insertedAt
        else s.data.lookup k := by
  unfold Call.visit
  cases he : s.data.lookup key with
  | none =>
    refine ⟨records, bytes, s, rfl, rfl, fun k => ?_⟩
    split
    · rename_i hk
      rw [hk, he]
      rfl
    · rfl
  | some entry =>
    simp only
    split
    · rename_i hexp
      refine ⟨_, _, _, rfl, rfl, fun k => ?_⟩
      split
      · rename_i hk
        rw [hk, he, AList.lookup_erase, Option.filter_some, hexp]
        rfl
      · rename_i hk
        exact AList.lookup_erase_ne hk
    · rename_i hlive
      refine ⟨records, bytes, s, rfl, rfl, fun k => ?_⟩
      split
      · rename_i hk
        rw [hk, he, Option.filter_some, Bool.eq_false_iff.mpr hlive]
        rfl
      · rfl

theorem visitAll_spec (now : Instant) : ∀ (keys : List Bytes) (records bytes : Nat)
    (s : ForgetfulStorage), Balanced s bytes →
    ∃ records' bytes' s', visitAll now keys records bytes s = (.pruning records' bytes', s') ∧
      Balanced s' bytes' ∧ ∀ k, s'.data.lookup k =
        if k ∈ keys then (s.data.lookup k).filter fun e => !s.isExpired now e.insertedAt
        else s.data.lookup k
  | [], records, bytes, s, h => ⟨records, bytes, s, rfl, h, fun k => by simp⟩
  | key :: keys, records, bytes, s, h => by
    obtain ⟨records₁, bytes₁, s₁, heq₁, httl, hlook₁⟩ := visit_cases s now key records bytes
    have hb₁ := (visit_stepped now key records bytes
      (show Balanced s (bytes + 0) from h)).balanced 0 h
    rw [heq₁] at hb₁
    obtain ⟨records₂, bytes₂, s₂, heq₂, hb₂, hlook₂⟩ :=
      visitAll_spec now keys records₁ bytes₁ s₁ hb₁
    refine ⟨records₂, bytes₂, s₂, ?_, hb₂, fun k => ?_⟩
    · rw [visitAll, heq₁]
      exact heq₂
    · have hexp : ∀ e : Entry, s₁.isExpired now e.insertedAt = s.isExpired now e.insertedAt := by
        intro e
        rw [isExpired, isExpired, httl]
      rw [hlook₂, hlook₁]
      simp only [hexp, List.mem_cons]
      by_cases hk : k = key
      · by_cases hmem : key ∈ keys <;> simp [hk, hmem]
      · by_cases hmem : k ∈ keys <;> simp [hk, hmem]

theorem entryBytes_congr {data' : AList fun _ : Bytes => Entry}
    (h : ∀ k, data'.lookup k = data.lookup k) : entryBytes data' = entryBytes data := by
  have hperm : data'.entries.Perm data.entries :=
    List.lookup_ext data'.nodupKeys data.nodupKeys fun k e => by
      rw [show data'.entries.dlookup k = data.entries.dlookup k from h k]
  exact (hperm.map _).sum_eq

/-- `prune_expired` keeps the books. -/
theorem Balanced.prune (h : Balanced s 0) (now : Instant) : Balanced (s.pruneExpired now) 0 := by
  unfold pruneExpired
  split
  · exact h
  · refine Balanced.release (h.setData ?_)
    have hperm := List.filter_append_perm
      (fun e : (Σ _ : Bytes, Entry) => s.isExpired now e.2.insertedAt) s.data.entries
    have hsum := (hperm.map fun e => e.1.length + e.2.value.length).sum_eq
    rw [List.map_append, List.sum_append] at hsum
    rw [Nat.zero_add, Nat.add_comm]
    exact hsum

/-- **A pruning pass that runs alone is one step of the store**: it visits the keys
there are, in any order, and gives back their bytes. -/
theorem alone_prune (h : Balanced s 0) (now : Instant) {keys : List Bytes}
    (hkeys : ∀ k ∈ s.data, k ∈ keys) :
    let r := visitAll now keys 0 0 s
    let e := r.1.step r.2 now
    (∀ k, e.2.data.lookup k = (s.pruneExpired now).data.lookup k) ∧
      e.2.currentStorageBytes = (s.pruneExpired now).currentStorageBytes := by
  obtain ⟨records, bytes, s', heq, hb, hlook⟩ := visitAll_spec now keys 0 0 s h
  intro r e
  have he : e.2 = s'.releaseBytes bytes := by
    show (r.1.step r.2 now).2 = _
    rw [show r = (.pruning records bytes, s') from heq]
    rfl
  have hpruned : ∀ k,
      (s'.releaseBytes bytes).data.lookup k = (s.pruneExpired now).data.lookup k := by
    intro k
    rw [releaseBytes_data, hlook, pruneExpired_lookup]
    split
    · rfl
    · rename_i hk
      have hnone : s.data.lookup k = none := AList.lookup_eq_none.mpr fun hmem => hk (hkeys k hmem)
      rw [hnone]
      rfl
  rw [he]
  refine ⟨hpruned, ?_⟩
  have hreleased : Balanced (s'.releaseBytes bytes) 0 := Balanced.release (by rwa [Nat.zero_add])
  have hkept : Balanced (s.pruneExpired now) 0 := h.prune now
  rw [← hreleased.balance, ← hkept.balance, entryBytes_congr hpruned]

/-! ## Runs -/

/-- **The invariant of all calls together.** -/
structure Books (maxStorageBytes : Nat) (c : Config) : Prop where
  balanced : Balanced c.store (c.calls.map Call.pending).sum
  exclusive : (c.calls.filterMap Call.holds).Nodup
  fits : ∀ t ∈ c.calls, t.Fits c.store.data
  limit : c.store.maxStorageBytes = maxStorageBytes

variable {c : Config} {pre post : List Call} {t : Call} {limit : Nat}

private theorem others_sublist : (pre ++ post).Sublist (pre ++ t :: post) :=
  List.Sublist.append_left (List.sublist_cons_self t post) pre

theorem Books.set (h : Books limit c) (hcalls : c.calls = pre ++ t :: post) {at? : Option Bytes}
    (hfree : ∀ u ∈ pre ++ post, ∀ k, at? = some k → u.holds ≠ some k)
    {r : Call × ForgetfulStorage} (hs : Stepped at? c.store t r) :
    Books limit ⟨r.2, pre ++ r.1 :: post⟩ where
  balanced := by
    have hb := h.balanced
    rw [hcalls, List.map_append, List.map_cons, List.sum_append, List.sum_cons,
      Nat.add_left_comm] at hb
    rw [List.map_append, List.map_cons, List.sum_append, List.sum_cons, Nat.add_left_comm]
    exact hs.balanced _ hb
  exclusive := by
    have hex := h.exclusive
    rw [hcalls] at hex
    have hrest := hex.sublist (others_sublist.filterMap Call.holds)
    refine (List.perm_middle.filterMap Call.holds).nodup_iff.mpr ?_
    cases hr : r.1.holds with
    | none =>
      rw [List.filterMap_cons_none hr]
      exact hrest
    | some k =>
      rw [List.filterMap_cons_some hr, List.nodup_cons]
      refine ⟨?_, hrest⟩
      intro hmem
      obtain ⟨u, hu, huk⟩ := List.mem_filterMap.mp hmem
      exact hfree u hu k (hs.holds k hr) huk
  fits := by
    intro u hu
    have hother : u ∈ pre ++ post → u.Fits r.2.data := by
      intro hmem
      refine (h.fits u (hcalls ▸ others_sublist.subset hmem)).congr ?_
      intro k hk
      exact hs.others k fun hat => hfree u hmem k hat hk
    rw [List.mem_append, List.mem_cons] at hu
    rcases hu with hu | rfl | hu
    · exact hother (List.mem_append_left _ hu)
    · exact hs.fits
    · exact hother (List.mem_append_right _ hu)
  limit := hs.limit.trans h.limit

theorem Books.alone_at (h : Books limit c) (hcalls : c.calls = pre ++ t :: post) :
    ∀ u ∈ pre ++ post, ∀ k, t.holds = some k → u.holds ≠ some k := by
  intro u hu k hk huk
  have hex := h.exclusive
  rw [hcalls, (List.perm_middle.filterMap Call.holds).nodup_iff, List.filterMap_cons_some hk,
    List.nodup_cons] at hex
  exact hex.1 (List.mem_filterMap.mpr ⟨u, hu, huk⟩)

theorem free_of_not_busy (hcalls : c.calls = pre ++ t :: post) (hbusy : c.busy key = false) :
    ∀ u ∈ pre ++ post, ∀ k, some key = some k → u.holds ≠ some k := by
  intro u hu k hk huk
  obtain rfl := Option.some.inj hk
  unfold Config.busy at hbusy
  rw [hcalls, List.any_eq_false] at hbusy
  exact hbusy u (others_sublist.subset hu) (by simpa using huk)

theorem Books.call (h : Books limit c) (ht : t.holds = none) (hp : t.pending = 0)
    (hfits : t.Fits c.store.data) : Books limit { c with calls := c.calls ++ [t] } where
  balanced := by
    have hb := h.balanced
    rwa [List.map_append, List.map_singleton, List.sum_append, List.sum_singleton, hp,
      Nat.add_zero]
  exclusive := by
    rw [List.filterMap_append, List.filterMap_cons_none ht, List.filterMap_nil, List.append_nil]
    exact h.exclusive
  fits := by
    intro u hu
    rcases List.mem_append.mp hu with hu | hu
    · exact h.fits u hu
    · rw [List.mem_singleton.mp hu]
      exact hfits
  limit := h.limit

private theorem split_at {i : Nat} (ht : c.calls[i]? = some t) :
    ∃ pre post, c.calls = pre ++ t :: post ∧ ∀ t', c.calls.set i t' = pre ++ t' :: post := by
  obtain ⟨hi, rfl⟩ := List.getElem?_eq_some_iff.mp ht
  refine ⟨c.calls.take i, c.calls.drop (i + 1), by simp, ?_⟩
  intro t'
  rw [List.set_eq_take_append_cons_drop, if_pos hi]

theorem move_step {i : Nat} (ht : c.calls[i]? = some t)
    (hcalled : ∀ kind key value, t ≠ .called kind key value) (now : Instant) :
    c.move (.step i now) = ⟨(t.step c.store now).2, c.calls.set i (t.step c.store now).1⟩ := by
  unfold Config.move
  simp only [ht]

theorem Books.step (h : Books limit c) (i : Nat) (now : Instant) :
    Books limit (c.move (.step i now)) := by
  cases ht : c.calls[i]? with
  | none =>
    simp only [Config.move, ht]
    exact h
  | some t =>
    obtain ⟨pre, post, hcalls, hset⟩ := split_at ht
    by_cases hcalled : ∃ kind key value, t = .called kind key value
    · obtain ⟨kind, key, value, rfl⟩ := hcalled
      simp only [Config.move, ht]
      split
      · exact h
      · rename_i hbusy
        rw [hset]
        exact h.set (r := (.entered kind key value, c.store)) hcalls
          (free_of_not_busy hcalls (by simpa using hbusy)) (.idle (fun k hk => hk) trivial rfl)
    · have hentered : ∀ kind key value, t ≠ .called kind key value :=
        fun kind key value he => hcalled ⟨kind, key, value, he⟩
      rw [move_step ht hentered, hset]
      exact h.set hcalls (h.alone_at hcalls)
        (step_stepped hentered (h.fits t (List.mem_of_getElem? ht)) now)

theorem Books.visit (h : Books limit c) (i : Nat) (now : Instant) (key : Bytes) :
    Books limit (c.move (.visit i now key)) := by
  simp only [Config.move]
  split
  · rename_i records bytes ht
    obtain ⟨pre, post, hcalls, hset⟩ := split_at ht
    split
    · exact h
    · rename_i hbusy
      have hb := h.balanced
      rw [hcalls, List.map_append, List.map_cons, List.sum_append, List.sum_cons,
        Nat.add_left_comm] at hb
      simp only [hset]
      exact h.set hcalls (free_of_not_busy hcalls (by simpa using hbusy))
        (visit_stepped now key records bytes hb)
  · exact h

theorem Books.move (h : Books limit c) (m : Move) : Books limit (c.move m) := by
  cases m with
  | call kind key value => exact h.call rfl rfl trivial
  | prune =>
    show Books limit { c with calls := c.calls ++ [startPruning c.store] }
    unfold startPruning
    split
    · exact h.call rfl rfl trivial
    · exact h.call rfl rfl trivial
  | step i now => exact h.step i now
  | visit i now key => exact h.visit i now key

/-- **The books balance after any moves** of a new store and its callers. -/
theorem books_after (ttl : Int) (maxStorageBytes : Nat) (moves : List Move) :
    Books maxStorageBytes (Config.after ttl maxStorageBytes moves) := by
  induction moves using List.reverseRecOn with
  | nil =>
    have hword : 0 < wordSize := by decide
    exact ⟨⟨rfl, Nat.zero_le _, hword⟩, List.nodup_nil, (fun t ht => nomatch ht), rfl⟩
  | append_singleton moves m ih =>
    rw [Config.after, List.foldl_append]
    exact ih.move m

/-! ## Refused calls -/

/-- A call that can no longer be refused. -/
def Call.Committed : Call → Prop
  | .called _ _ _ | .entered _ _ _ | .reserving _ _ _ => False
  | .leaving _ status | .finished (.written status) =>
    status ≠ .conflict ∧ status ≠ .capacityExceeded
  | .writing _ _ _ _ | .releasing _ _ | .pruning _ _ | .finished (.reclaimed _) => True

theorem Call.Committed.step {t : Call} (h : t.Committed) (s : ForgetfulStorage) (now : Instant) :
    (t.step s now).1.Committed := by
  cases t with
  | called | entered | reserving => exact h.elim
  | writing key value granted released =>
    simp only [Call.step]
    split
    · trivial
    · exact ⟨nofun, nofun⟩
  | releasing => exact ⟨nofun, nofun⟩
  | leaving | pruning | finished => exact h

/-- **A step that changes the store commits its call.** -/
theorem step_same_or_committed (s : ForgetfulStorage) (now : Instant) (t : Call) :
    (t.step s now).2 = s ∨ (t.step s now).1.Committed := by
  cases t with
  | entered kind key value =>
    simp only [Call.step, Call.enter]
    split
    · exact Or.inl rfl
    · split
      · exact Or.inl rfl
      split
      · exact Or.inr ⟨nofun, nofun⟩
      split
      · exact Or.inl rfl
      · exact Or.inl rfl
  | reserving key value additional =>
    simp only [Call.step]
    split
    · exact Or.inl rfl
    · exact Or.inr trivial
  | writing key value granted released =>
    have h : (Call.writing key value granted released).Committed := trivial
    exact Or.inr (h.step s now)
  | releasing => exact Or.inr ⟨nofun, nofun⟩
  | pruning => exact Or.inr trivial
  | called | leaving | finished => exact Or.inl rfl

/-- The call with the number `j` is committed. -/
def CommittedAt (j : Nat) (c : Config) : Prop := ∃ t, c.calls[j]? = some t ∧ t.Committed

theorem CommittedAt.set {j i : Nat} {c : Config} {t : Call} {s : ForgetfulStorage}
    (h : CommittedAt j c) (ht : i = j → t.Committed) : CommittedAt j ⟨s, c.calls.set i t⟩ := by
  obtain ⟨u, hu, hcommitted⟩ := h
  by_cases hij : i = j
  · refine ⟨t, ?_, ht hij⟩
    rw [hij, List.getElem?_set_self (List.getElem?_eq_some_iff.mp hu).1]
  · exact ⟨u, by rwa [List.getElem?_set_ne hij], hcommitted⟩

theorem CommittedAt.move {j : Nat} {c : Config} (h : CommittedAt j c) (m : Move) :
    CommittedAt j (c.move m) := by
  obtain ⟨t, ht, hcommitted⟩ := h
  have happend : ∀ u, CommittedAt j { c with calls := c.calls ++ [u] } := fun u =>
    ⟨t, by rw [List.getElem?_append_left (List.getElem?_eq_some_iff.mp ht).1, ht], hcommitted⟩
  cases m with
  | call kind key value => exact happend _
  | prune => exact happend _
  | step i now =>
    have hstep : ∀ {u}, c.calls[i]? = some u → i = j → u.Committed := by
      rintro u hu rfl
      exact Option.some.inj (hu.symm.trans ht) ▸ hcommitted
    simp only [Config.move]
    split
    · exact ⟨t, ht, hcommitted⟩
    · rename_i hu
      split
      · exact ⟨t, ht, hcommitted⟩
      · exact CommittedAt.set ⟨t, ht, hcommitted⟩ fun hij => (hstep hu hij).elim
    · rename_i u _ hu
      exact CommittedAt.set ⟨t, ht, hcommitted⟩ fun hij => (hstep hu hij).step _ _
  | visit i now key =>
    simp only [Config.move]
    split
    · rename_i records bytes _
      split
      · exact ⟨t, ht, hcommitted⟩
      · refine CommittedAt.set ⟨t, ht, hcommitted⟩ fun _ => ?_
        obtain ⟨records', bytes', s', hv, -⟩ := visit_cases c.store now key records bytes
        rw [hv]
        trivial
    · exact ⟨t, ht, hcommitted⟩

theorem move_same_or_committed (c : Config) (j : Nat) (now : Instant) :
    (c.move (.step j now)).store = c.store ∨ CommittedAt j (c.move (.step j now)) := by
  simp only [Config.move]
  split
  · exact Or.inl rfl
  · split <;> exact Or.inl rfl
  · rename_i u _ hu
    refine (step_same_or_committed c.store now u).imp id fun h => ⟨_, ?_, h⟩
    exact List.getElem?_set_self (List.getElem?_eq_some_iff.mp hu).1

/-- **A refused call changes nothing**, whatever other calls do between its steps. -/
theorem refused_keeps_store {c : Config} {before after : List Move} {j : Nat} {now : Instant}
    {status : StorageWriteStatus} (hst : status = .conflict ∨ status = .capacityExceeded)
    (h : ((before ++ .step j now :: after).foldl Config.move c).calls[j]? =
      some (.finished (.written status))) :
    ((before.foldl Config.move c).move (.step j now)).store =
      (before.foldl Config.move c).store := by
  rw [List.foldl_append, List.foldl_cons] at h
  rcases move_same_or_committed (before.foldl Config.move c) j now with hsame | hcommitted
  · exact hsame
  · -- a committed call stays so, and ends otherwise
    have hrun : ∀ (ms : List Move) {d : Config}, CommittedAt j d →
        CommittedAt j (ms.foldl Config.move d) := by
      intro ms
      induction ms with
      | nil => exact fun hd => hd
      | cons m ms ih => exact fun hd => ih (hd.move m)
    obtain ⟨t, ht, hend⟩ := hrun after hcommitted
    obtain rfl := Option.some.inj (ht.symm.trans h)
    rcases hst with rfl | rfl
    · exact absurd rfl hend.1
    · exact absurd rfl hend.2

end AuthKademlia.Storage.Interleaved
