import Mathlib.Logic.Function.Basic
import AuthKademlia.Lib.Linearization
import AuthKademlia.Storage.Interleaved

/-! # The store as one map

The concurrent store behaves like a map on which writes and removals happen one at a
time. A write takes effect when its answer is settled, a pruning pass once for each
entry it removes. `Watched` is the store with its callers, together with a log of
these effects; each effect is what the map does at that moment. Only a lack of bytes
is decided by more than the map: a write that needs more bytes may be refused. -/
namespace AuthKademlia.Storage.Linearization
open AuthKademlia.Utils AuthKademlia.Lib.Linearization Interleaved

/-! ## The map -/

/-- The store as its callers see it. -/
abbrev Entries := Bytes → Option Entry

structure Request where
  kind : Kind
  key : Bytes
  value : Bytes
  deriving DecidableEq

inductive Effect
  | write (request : Request) (now : Instant) (status : StorageWriteStatus)
  | remove (key : Bytes) (now : Instant)
  deriving DecidableEq

def expired (ttl : Int) (now : Instant) (e : Entry) : Bool :=
  if ttl = -1 then false else (ttl % (wordSize : Int)).toNat * nanosPerSec < now - e.insertedAt

def read (ttl : Int) (m : Entries) (now : Instant) (key : Bytes) : Option Bytes :=
  ((m key).filter fun e => !expired ttl now e).map Entry.value

/-- A write to a map that has room for every value. -/
def write (ttl : Int) (m : Entries) (now : Instant) (r : Request) : StorageWriteStatus × Entries :=
  let written := Function.update m r.key (some ⟨r.value, now⟩)
  match m r.key with
  | none => (.stored, written)
  | some e =>
    if r.kind = .insertIfAbsent ∧ expired ttl now e = false ∧ e.value ≠ r.value then (.conflict, m)
    else if e.value = r.value then (.alreadyStored, written)
    else (.stored, written)

/-- The bytes that a write adds to those of the map. -/
def bytesNeeded (m : Entries) (r : Request) : Nat :=
  match m r.key with
  | none => r.key.length + r.value.length
  | some e => r.value.length - e.value.length

/-- What an effect does to the map. A write may also be refused, if it would store a new
value and needs more bytes for it. -/
def Legal (ttl : Int) (m : Entries) : Effect → Entries → Prop
  | .write r now .capacityExceeded, m' =>
    m' = m ∧ (write ttl m now r).1 = .stored ∧ 0 < bytesNeeded m r
  | .write r now status, m' => write ttl m now r = (status, m')
  | .remove key now, m' =>
    ∃ e, m key = some e ∧ expired ttl now e = true ∧ m' = Function.update m key none

/-! ## The store with a log -/

def entriesOf (s : ForgetfulStorage) : Entries := fun key => s.data.lookup key

/-- The status that a write will answer, once nothing can change it. -/
def settled : Call → Option StorageWriteStatus
  | .releasing _ _ => some .stored
  | .leaving _ status | .finished (.written status) => some status
  | _ => none

/-- A write takes effect with the step that settles its answer. -/
def effectOf (r : Request) (now : Instant) (t t' : Call) : List Effect :=
  match settled t, settled t' with
  | none, some status => [.write r now status]
  | _, _ => []

/-- What a move asks a new call for: a pruning pass for nothing. -/
def requested : Move → List (Option Request)
  | .call kind key value => [some ⟨kind, key, value⟩]
  | .prune => [none]
  | .step _ _ | .visit _ _ _ => []

def readClock : Move → Option Instant
  | .step _ now | .visit _ now _ => some now
  | .call _ _ _ | .prune => none

/-- A store and its callers, what each call was asked for (a pruning pass nothing), what
the calls did, and the clock. -/
structure Watched where
  config : Config
  requests : List (Option Request)
  log : Log Effect
  clock : Instant

namespace Watched

def entries (w : Watched) : Entries := entriesOf w.config.store

def effects (w : Watched) (m : Move) : Log Effect :=
  let after := w.config.move m
  match m with
  | .call _ _ _ | .prune => []
  | .step i now =>
    match w.requests[i]?, w.config.calls[i]?, after.calls[i]? with
    | some (some r), some t, some t' => (effectOf r now t t').map fun e => (i, e)
    | _, _, _ => []
  | .visit i now key =>
    if key ∈ w.config.store.data ∧ key ∉ after.store.data then [(i, .remove key now)] else []

def move (w : Watched) (m : Move) : Watched where
  config := w.config.move m
  requests := w.requests ++ requested m
  log := w.log ++ w.effects m
  clock := (readClock m).getD w.clock

end Watched

/-- A move does not read an earlier clock than the moves before it. -/
def Timely (clock : Instant) (m : Move) : Prop := clock ≤ (readClock m).getD clock

/-! ## What one call can have done -/

/-- From `clock` on the write would store its value. -/
def Vacant (ttl : Int) (m : Entries) (clock : Instant) (r : Request) : Prop :=
  ∀ now, clock ≤ now →
    write ttl m now r = (.stored, Function.update m r.key (some ⟨r.value, now⟩))

/-- What a call was asked for, did so far and is about to do agree. -/
def Agrees (ttl : Int) (m : Entries) (clock : Instant) (es : List Effect) :
    Option Request → Call → Prop
  | some r, .called kind key value | some r, .entered kind key value =>
    r = ⟨kind, key, value⟩ ∧ es = []
  | some r, .reserving key value additional =>
    r.key = key ∧ r.value = value ∧ es = [] ∧ Vacant ttl m clock r ∧ additional = bytesNeeded m r
  | some r, .writing key value _ _ =>
    r.key = key ∧ r.value = value ∧ es = [] ∧ Vacant ttl m clock r
  | some r, .releasing _ _ => ∃ now, es = [.write r now .stored]
  | some r, .leaving _ status | some r, .finished (.written status) =>
    ∃ now, es = [.write r now status]
  | none, .pruning records _ | none, .finished (.reclaimed records) =>
    (∀ e ∈ es, ∃ key now, e = .remove key now) ∧ records = es.length % wordSize
  | _, _ => False

variable {ttl : Int} {m m' : Entries} {clock now : Instant} {r : Request} {s : ForgetfulStorage}
  {es : List Effect} {t : Call}

theorem expired_mono {e : Entry} (h : clock ≤ now) (he : expired ttl clock e = true) :
    expired ttl now e = true := by
  unfold expired at he ⊢
  split at he
  · cases he
  · rename_i httl
    rw [if_neg httl]
    simp only [decide_eq_true_eq] at he ⊢
    exact Nat.lt_of_lt_of_le he (Nat.sub_le_sub_right h e.insertedAt)

theorem write_congr (h : m' r.key = m r.key) (now : Instant) :
    (write ttl m' now r).1 = (write ttl m now r).1 := by
  unfold write
  rw [h]
  cases m r.key with
  | none => rfl
  | some e =>
    simp only
    split
    · rfl
    · split
      · rfl
      · rfl

theorem write_of_stored (h : (write ttl m now r).1 = .stored) :
    write ttl m now r = (.stored, Function.update m r.key (some ⟨r.value, now⟩)) := by
  unfold write at h ⊢
  cases he : m r.key with
  | none => rfl
  | some e =>
    simp only [he] at h ⊢
    split at h
    · cases h
    · rename_i hno
      rw [if_neg hno]
      split at h
      · cases h
      · rename_i hne
        rw [if_neg hne]

theorem Vacant.congr (h : Vacant ttl m clock r) (hkey : m' r.key = m r.key) (hle : clock ≤ now) :
    Vacant ttl m' now r := by
  intro later hlater
  refine write_of_stored ?_
  rw [write_congr hkey, h later (Nat.le_trans hle hlater)]

theorem bytesNeeded_congr (hkey : m' r.key = m r.key) : bytesNeeded m' r = bytesNeeded m r := by
  rw [bytesNeeded, bytesNeeded, hkey]

theorem Agrees.congr {r? : Option Request} (h : Agrees ttl m clock es r? t)
    (hsame : ∀ k, t.holds = some k → m' k = m k) (hle : clock ≤ now) :
    Agrees ttl m' now es r? t := by
  cases r? with
  | none =>
    cases t with
    | finished answer => cases answer <;> exact h
    | pruning => exact h
    | called | entered | reserving | writing | releasing | leaving => exact h.elim
  | some r =>
    cases t with
    | reserving key value additional =>
      obtain ⟨rfl, rfl, hes, hvac, hadd⟩ := h
      have hkey := hsame r.key rfl
      exact ⟨rfl, rfl, hes, hvac.congr hkey hle, hadd.trans (bytesNeeded_congr hkey).symm⟩
    | writing key value granted released =>
      obtain ⟨rfl, rfl, hes, hvac⟩ := h
      exact ⟨rfl, rfl, hes, hvac.congr (hsame r.key rfl) hle⟩
    | finished answer => cases answer <;> exact h
    | pruning => exact h.elim
    | called | entered | releasing | leaving => exact h

/-! ## One step of one call -/

theorem entriesOf_insert (key : Bytes) (e : Entry) :
    entriesOf { s with data := s.data.insert key e } =
      Function.update (entriesOf s) key (some e) := by
  funext k
  by_cases hk : k = key
  · subst hk
    rw [Function.update_self]
    exact AList.lookup_insert s.data
  · rw [Function.update_of_ne hk]
    exact AList.lookup_insert_ne hk

theorem entriesOf_erase (key : Bytes) :
    entriesOf { s with data := s.data.erase key } = Function.update (entriesOf s) key none := by
  funext k
  by_cases hk : k = key
  · subst hk
    rw [Function.update_self]
    exact AList.lookup_erase k s.data
  · rw [Function.update_of_ne hk]
    exact AList.lookup_erase_ne hk

theorem entriesOf_releaseBytes (n : Nat) : entriesOf (s.releaseBytes n) = entriesOf s := by
  funext k
  rw [entriesOf, ForgetfulStorage.releaseBytes_data]
  rfl

/-- What a step of a call with the effects `es` can do: take the effects `es'`, at most
one, and go on in agreement with them. -/
structure Took (ttl : Int) (m : Entries) (now : Instant) (r? : Option Request)
    (es es' : List Effect) (m' : Entries) (t' : Call) : Prop where
  agrees : Agrees ttl m' now (es ++ es') r? t'
  legal : es' = [] ∧ m' = m ∨ ∃ e, es' = [e] ∧ Legal ttl m e m'

theorem Took.idle {r? : Option Request} (h : Agrees ttl m now es r? t) :
    Took ttl m now r? es [] m t :=
  ⟨by rwa [List.append_nil], Or.inl ⟨rfl, rfl⟩⟩

theorem Took.effect {e : Effect} {r? : Option Request} (hlegal : Legal ttl m e m')
    (h : Agrees ttl m' now (es ++ [e]) r? t) : Took ttl m now r? es [e] m' t :=
  ⟨h, Or.inr ⟨e, rfl, hlegal⟩⟩

theorem enter_took (httl : s.ttl = ttl) (now : Instant) (r : Request) :
    Took ttl (entriesOf s) now (some r) []
      (effectOf r now (.entered r.kind r.key r.value)
        (Call.enter s now r.kind r.key r.value).1)
      (entriesOf (Call.enter s now r.kind r.key r.value).2)
      (Call.enter s now r.kind r.key r.value).1 := by
  unfold Call.enter
  cases h : s.data.lookup r.key with
  | none =>
    have hm : entriesOf s r.key = none := h
    refine .idle ⟨rfl, rfl, rfl, ?_, ?_⟩
    · intro later _
      rw [write, hm]
    · rw [bytesNeeded, hm]
  | some old =>
    have hm : entriesOf s r.key = some old := h
    have hexp : ∀ t, s.isExpired t old.insertedAt = expired ttl t old := by
      intro t
      rw [ForgetfulStorage.isExpired, expired, httl]
    simp only [hexp]
    split
    · rename_i hno
      refine .effect (e := .write r now .conflict) ?_ ⟨now, rfl⟩
      show write ttl (entriesOf s) now r = _
      simp only [write, hm, if_pos hno]
    · rename_i hno
      split
      · rename_i heq
        refine .effect (e := .write r now .alreadyStored) ?_ ⟨now, rfl⟩
        show write ttl (entriesOf s) now r = _
        simp only [write, hm, if_neg hno, if_pos heq, entriesOf_insert]
      · rename_i hne
        -- from now on the entry, if it had to be expired, stays so
        have hvac : Vacant ttl (entriesOf s) now r := by
          intro later hlater
          have hno' : ¬ (r.kind = .insertIfAbsent ∧ expired ttl later old = false ∧
              old.value ≠ r.value) := by
            intro hcon
            refine hno ⟨hcon.1, ?_, hcon.2.2⟩
            cases he : expired ttl now old with
            | false => rfl
            | true =>
              rw [expired_mono hlater he] at hcon
              exact Bool.noConfusion hcon.2.1
          simp only [write, hm, if_neg hno', if_neg hne]
        split
        · exact .idle ⟨rfl, rfl, rfl, hvac, by rw [bytesNeeded, hm]⟩
        · exact .idle ⟨rfl, rfl, rfl, hvac⟩

/-- **A step of a write.** -/
theorem write_took (httl : s.ttl = ttl) (h : Agrees ttl (entriesOf s) clock es (some r) t)
    (hcalled : ∀ kind key value, t ≠ .called kind key value) (hle : clock ≤ now) :
    Took ttl (entriesOf s) now (some r) es (effectOf r now t (t.step s now).1)
      (entriesOf (t.step s now).2) (t.step s now).1 := by
  cases t with
  | called kind key value => exact absurd rfl (hcalled kind key value)
  | entered kind key value =>
    obtain ⟨rfl, rfl⟩ := h
    exact enter_took httl now ⟨kind, key, value⟩
  | reserving key value additional =>
    obtain ⟨rfl, rfl, rfl, hvac, rfl⟩ := h
    simp only [Call.step]
    cases hs : s.reserveBytes (bytesNeeded (entriesOf s) r) with
    | none =>
      refine .effect (e := .write r now .capacityExceeded) ⟨rfl, ?_, ?_⟩ ⟨now, rfl⟩
      · rw [hvac now hle]
      · refine Nat.pos_of_ne_zero fun hzero => ?_
        rw [hzero] at hs
        exact absurd hs (Option.some_ne_none _)
    | some s' =>
      obtain ⟨bytes, rfl⟩ := ForgetfulStorage.reserveBytes_counter hs
      exact .idle ⟨rfl, rfl, rfl, hvac.congr rfl hle⟩
  | writing key value granted released =>
    obtain ⟨rfl, rfl, rfl, hvac⟩ := h
    have hlegal : Legal ttl (entriesOf s) (.write r now .stored)
        (entriesOf { s with data := s.data.insert r.key ⟨r.value, now⟩ }) := by
      show write ttl (entriesOf s) now r = _
      rw [hvac now hle, entriesOf_insert]
    simp only [Call.step]
    split
    · exact .effect hlegal ⟨now, rfl⟩
    · exact .effect hlegal ⟨now, rfl⟩
  | releasing key released =>
    simp only [Call.step, entriesOf_releaseBytes]
    exact .idle h
  | leaving key status => exact .idle h
  | pruning records bytes => exact h.elim
  | finished answer =>
    cases answer with
    | written status => exact .idle h
    | reclaimed records => exact h.elim

/-- **A step of a pruning pass** gives its bytes back. -/
theorem prune_took (h : Agrees ttl (entriesOf s) clock es none t) (hle : clock ≤ now) :
    Took ttl (entriesOf s) now none es [] (entriesOf (t.step s now).2) (t.step s now).1 := by
  cases t with
  | pruning records bytes =>
    simp only [Call.step, entriesOf_releaseBytes]
    exact .idle h
  | finished answer => exact .idle (h.congr (fun _ _ => rfl) hle)
  | called | entered | reserving | writing | releasing | leaving => exact h.elim

/-- **A visit of a pruning pass** removes an expired entry, or does nothing. -/
theorem visit_took (httl : s.ttl = ttl) {records bytes : Nat}
    (h : Agrees ttl (entriesOf s) clock es none (.pruning records bytes)) (key : Bytes) :
    Took ttl (entriesOf s) now none es
      (if key ∈ s.data ∧ key ∉ (Call.visit s now key records bytes).2.data then
        [.remove key now] else [])
      (entriesOf (Call.visit s now key records bytes).2)
      (Call.visit s now key records bytes).1 := by
  unfold Call.visit
  cases he : s.data.lookup key with
  | none =>
    have hout : key ∉ s.data := AList.lookup_eq_none.mp he
    simp only [hout, false_and, if_false]
    exact .idle h
  | some entry =>
    have hin : key ∈ s.data := AList.lookup_isSome.mp (by rw [he]; rfl)
    simp only
    split
    · rename_i hexp
      have hout : key ∉ s.data.erase key := fun hmem => (AList.mem_erase.mp hmem).1 rfl
      rw [if_pos ⟨hin, hout⟩, entriesOf_erase]
      refine .effect ⟨entry, he, ?_, rfl⟩ ⟨?_, ?_⟩
      · rw [expired, ← httl]
        exact hexp
      · intro e hmem
        rcases List.mem_append.mp hmem with hmem | hmem
        · exact h.1 e hmem
        · exact ⟨key, now, List.mem_singleton.mp hmem⟩
      · rw [List.length_append, List.length_singleton, h.2, Nat.mod_add_mod]
    · simp only [hin, not_true_eq_false, and_false, if_false]
      exact .idle h

/-! ## Moves -/

inductive Moved (c : Config) : Move → Config → Prop
  | called (kind : Kind) (key value : Bytes) :
      Moved c (.call kind key value) { c with calls := c.calls ++ [.called kind key value] }
  | pruned : Moved c .prune { c with calls := c.calls ++ [startPruning c.store] }
  | blocked {i : Nat} {now : Instant} : Moved c (.step i now) c
  | passed {i : Nat} {now : Instant} {key : Bytes} : Moved c (.visit i now key) c
  | entered {i : Nat} {now : Instant} {kind : Kind} {key value : Bytes} :
      c.calls[i]? = some (.called kind key value) → c.busy key = false →
      Moved c (.step i now) { c with calls := c.calls.set i (.entered kind key value) }
  | stepped {i : Nat} {now : Instant} {t : Call} : c.calls[i]? = some t →
      (∀ kind key value, t ≠ .called kind key value) →
      Moved c (.step i now) ⟨(t.step c.store now).2, c.calls.set i (t.step c.store now).1⟩
  | visited {i : Nat} {now : Instant} {key : Bytes} {records bytes : Nat} :
      c.calls[i]? = some (.pruning records bytes) → c.busy key = false →
      Moved c (.visit i now key) ⟨(Call.visit c.store now key records bytes).2,
        c.calls.set i (Call.visit c.store now key records bytes).1⟩

theorem moved (c : Config) (m : Move) : Moved c m (c.move m) := by
  cases m with
  | call kind key value => exact .called kind key value
  | prune => exact .pruned
  | step i now =>
    cases ht : c.calls[i]? with
    | none =>
      simp only [Config.move, ht]
      exact .blocked
    | some t =>
      by_cases hcalled : ∃ kind key value, t = .called kind key value
      · obtain ⟨kind, key, value, rfl⟩ := hcalled
        simp only [Config.move, ht]
        split
        · exact .blocked
        · rename_i hbusy
          exact .entered ht (by simpa using hbusy)
      · have hentered : ∀ kind key value, t ≠ .called kind key value :=
          fun kind key value he => hcalled ⟨kind, key, value, he⟩
        rw [move_step ht hentered]
        exact .stepped ht hentered
  | visit i now key =>
    simp only [Config.move]
    split
    · rename_i records bytes ht
      split
      · exact .passed
      · rename_i hbusy
        exact .visited ht (by simpa using hbusy)
    · exact .passed

theorem step_ttl (t : Call) (s : ForgetfulStorage) (now : Instant) :
    (t.step s now).2.ttl = s.ttl := by
  cases t with
  | entered kind key value =>
    simp only [Call.step, Call.enter]
    split
    · rfl
    · split
      · rfl
      split
      · rfl
      split
      · rfl
      · rfl
  | reserving key value additional =>
    simp only [Call.step]
    cases hs : s.reserveBytes additional with
    | none => rfl
    | some s' =>
      obtain ⟨bytes, rfl⟩ := ForgetfulStorage.reserveBytes_counter hs
      rfl
  | writing key value granted released =>
    simp only [Call.step]
    split
    · rfl
    · rfl
  | releasing key released =>
    obtain ⟨bytes, he⟩ := s.releaseBytes_counter released
    simp only [Call.step, he]
  | pruning records bytes =>
    obtain ⟨bytes', he⟩ := s.releaseBytes_counter bytes
    simp only [Call.step, he]
  | called | leaving | finished => rfl

theorem effectOf_self (r : Request) (now : Instant) (t : Call) : effectOf r now t t = [] := by
  unfold effectOf
  cases settled t with
  | none => rfl
  | some status => rfl

theorem effectOf_active {e : Effect} (h : e ∈ effectOf r now t (t.step s now).1)
    (answer : Answer) : t ≠ .finished answer := by
  intro ht
  rw [ht] at h
  have hstep : (Call.step s now (.finished answer)).1 = .finished answer := rfl
  rw [hstep, effectOf_self] at h
  cases h

/-! ## Runs -/

variable {limit : Nat} {w : Watched}

/-- Every call agrees with what it did. -/
structure Inv (limit : Nat) (ttl : Int) (w : Watched) : Prop where
  ttl_eq : w.config.store.ttl = ttl
  books : Books limit w.config
  length_eq : w.requests.length = w.config.calls.length
  begun : ∀ e ∈ w.log, e.1 < w.config.calls.length
  agrees : ∀ i t r?, w.config.calls[i]? = some t → w.requests[i]? = some r? →
    Agrees ttl w.entries w.clock (effectsOf i w.log) r? t

structure Advanced (limit : Nat) (ttl : Int) (w : Watched) (es : Log Effect) (w' : Watched) :
    Prop where
  inv : Inv limit ttl w'
  legal : Sequential (Legal ttl) w.entries es w'.entries
  active : ∀ e ∈ es, ∃ t, w.config.calls[e.1]? = some t ∧ ∀ answer, t ≠ .finished answer

theorem Inv.call (h : Inv limit ttl w) {r? : Option Request} (hbooks : Books limit
    { w.config with calls := w.config.calls ++ [t] })
    (ht : Agrees ttl w.entries w.clock [] r? t) :
    Advanced limit ttl w [] ⟨{ w.config with calls := w.config.calls ++ [t] },
      w.requests ++ [r?], w.log ++ [], w.clock⟩ where
  legal := .nil
  active := fun e he => nomatch he
  inv := by
    rw [List.append_nil]
    refine ⟨h.ttl_eq, hbooks, ?_, ?_, ?_⟩
    · rw [List.length_append, List.length_append, h.length_eq]
      rfl
    · intro e he
      rw [List.length_append]
      exact Nat.lt_of_lt_of_le (h.begun e he) (Nat.le_add_right _ _)
    · intro i u r hu hr
      rcases Nat.lt_trichotomy i w.config.calls.length with hi | hi | hi
      · rw [List.getElem?_append_left hi] at hu
        rw [List.getElem?_append_left (h.length_eq ▸ hi)] at hr
        exact h.agrees i u r hu hr
      · have hi' : i = w.requests.length := hi.trans h.length_eq.symm
        subst hi
        rw [List.getElem?_concat_length] at hu
        rw [hi', List.getElem?_concat_length] at hr
        obtain rfl := Option.some.inj hu
        obtain rfl := Option.some.inj hr
        rw [effectsOf_eq_nil fun e he heq => Nat.lt_irrefl _ (heq ▸ h.begun e he)]
        exact ht
      · rw [List.getElem?_eq_none (by rw [List.length_append, List.length_singleton]; omega)] at hu
        cases hu

theorem Inv.tick (h : Inv limit ttl w) (hle : w.clock ≤ now) :
    Advanced limit ttl w [] ⟨w.config, w.requests ++ [], w.log ++ [], now⟩ where
  legal := .nil
  active := fun e he => nomatch he
  inv := by
    rw [List.append_nil, List.append_nil]
    exact ⟨h.ttl_eq, h.books, h.length_eq, h.begun, fun i t r? ht hr =>
      (h.agrees i t r? ht hr).congr (fun k hk => rfl) hle⟩

theorem Inv.set (h : Inv limit ttl w) {i : Nat} {t t' : Call} {r? : Option Request}
    {s' : ForgetfulStorage} {es : List Effect} (ht : w.config.calls[i]? = some t)
    (hr : w.requests[i]? = some r?) (hle : w.clock ≤ now)
    (htook : Took ttl w.entries now r? (effectsOf i w.log) es (entriesOf s') t')
    (hothers : ∀ j u, j ≠ i → w.config.calls[j]? = some u →
      ∀ k, u.holds = some k → entriesOf s' k = w.entries k)
    (hactive : es ≠ [] → ∀ answer, t ≠ .finished answer)
    (hbooks : Books limit ⟨s', w.config.calls.set i t'⟩) (httl : s'.ttl = ttl) :
    Advanced limit ttl w (es.map fun e => (i, e)) ⟨⟨s', w.config.calls.set i t'⟩,
      w.requests ++ [], w.log ++ es.map fun e => (i, e), now⟩ where
  legal := by
    rcases htook.legal with ⟨rfl, hsame⟩ | ⟨e, rfl, hlegal⟩
    · show Sequential (Legal ttl) w.entries [] (entriesOf s')
      rw [hsame]
      exact .nil
    · exact .single i hlegal
  active := by
    intro e he
    obtain ⟨x, hx, rfl⟩ := List.mem_map.mp he
    exact ⟨t, ht, hactive (List.ne_nil_of_mem hx)⟩
  inv := by
    rw [List.append_nil]
    have hi := (List.getElem?_eq_some_iff.mp ht).1
    refine ⟨httl, hbooks, ?_, ?_, ?_⟩
    · rw [List.length_set]
      exact h.length_eq
    · intro e he
      rw [List.length_set]
      rcases List.mem_append.mp he with he | he
      · exact h.begun e he
      · obtain ⟨x, -, rfl⟩ := List.mem_map.mp he
        exact hi
    · intro j u r hu hrj
      rw [effectsOf_append]
      by_cases hji : j = i
      · subst hji
        rw [List.getElem?_set_self hi] at hu
        obtain rfl := Option.some.inj hu
        obtain rfl := Option.some.inj (hr.symm.trans hrj)
        rw [effectsOf_map_self]
        exact htook.agrees
      · rw [List.getElem?_set_ne (Ne.symm hji)] at hu
        have hes : effectsOf j (es.map fun e => (i, e)) = [] := by
          refine effectsOf_eq_nil ?_
          intro e he
          obtain ⟨x, -, rfl⟩ := List.mem_map.mp he
          exact Ne.symm hji
        rw [hes, List.append_nil]
        exact (h.agrees j u r hu hrj).congr (hothers j u hji hu) hle

theorem Inv.request (h : Inv limit ttl w) {i : Nat} (ht : w.config.calls[i]? = some t) :
    ∃ r?, w.requests[i]? = some r? ∧ Agrees ttl w.entries w.clock (effectsOf i w.log) r? t := by
  have hi := (List.getElem?_eq_some_iff.mp ht).1
  rw [← h.length_eq] at hi
  exact ⟨_, List.getElem?_eq_getElem hi, h.agrees i t _ ht (List.getElem?_eq_getElem hi)⟩

theorem Inv.others (h : Inv limit ttl w) {i : Nat} {t' : Call} {s' : ForgetfulStorage}
    (ht : w.config.calls[i]? = some t) (hs : Stepped t.holds w.config.store t (t', s')) :
    ∀ j u, j ≠ i → w.config.calls[j]? = some u →
      ∀ k, u.holds = some k → entriesOf s' k = w.entries k := by
  intro j u hji hu k hk
  refine hs.others k fun htk => ?_
  obtain ⟨hi, hget⟩ := List.getElem?_eq_some_iff.mp ht
  have hsplit : w.config.calls =
      w.config.calls.take i ++ t :: w.config.calls.drop (i + 1) := by
    rw [← hget, ← List.drop_eq_getElem_cons hi, List.take_append_drop]
  refine h.books.alone_at hsplit u ?_ k htk hk
  rw [← List.eraseIdx_eq_take_drop_succ, List.mem_eraseIdx_iff_getElem?]
  exact ⟨j, hji, hu⟩

theorem visit_ttl (s : ForgetfulStorage) (now : Instant) (key : Bytes) (records bytes : Nat) :
    (Call.visit s now key records bytes).2.ttl = s.ttl := by
  obtain ⟨records', bytes', s', heq, httl, -⟩ := visit_cases s now key records bytes
  rw [heq]
  exact httl

/-- A pruning pass leaves the entries that a write holds. -/
theorem visit_others {c : Config} {key : Bytes} {u : Call} (now : Instant) (records bytes : Nat)
    (hbusy : c.busy key = false) (hu : u ∈ c.calls) : ∀ k, u.holds = some k →
      entriesOf (Call.visit c.store now key records bytes).2 k = entriesOf c.store k := by
  intro k hk
  obtain ⟨records', bytes', s', heq, -, hlook⟩ := visit_cases c.store now key records bytes
  rw [heq]
  refine (hlook k).trans (if_neg ?_)
  rintro rfl
  refine List.any_eq_false.mp hbusy u hu ?_
  rw [hk]
  exact decide_eq_true rfl

/-- **Every move of the store has the effects that its log shows.** -/
theorem Inv.advance (h : Inv limit ttl w) {m : Move} (hm : Timely w.clock m) :
    Advanced limit ttl w (w.effects m) (w.move m) := by
  have hbooks := h.books.move m
  have hmoved := moved w.config m
  unfold Watched.move Watched.effects
  generalize w.config.move m = c' at hbooks hmoved ⊢
  cases hmoved with
  | called kind key value => exact h.call hbooks ⟨rfl, rfl⟩
  | pruned =>
    refine h.call hbooks ?_
    unfold startPruning
    split
    · exact ⟨(fun e he => nomatch he), rfl⟩
    · exact ⟨(fun e he => nomatch he), rfl⟩
  | blocked =>
    rename_i i now
    have hnone : (match w.requests[i]?, w.config.calls[i]?, w.config.calls[i]? with
        | some (some r), some t, some t' => (effectOf r now t t').map fun e => (i, e)
        | _, _, _ => []) = [] := by
      split
      · rename_i ht ht'
        rw [Option.some.inj (ht.symm.trans ht'), effectOf_self]
        rfl
      · rfl
    simp only [hnone]
    exact h.tick hm
  | passed =>
    simp only [and_not_self, if_false]
    exact h.tick hm
  | entered ht hbusy =>
    rename_i i now kind key value
    obtain ⟨r?, hr, hagrees⟩ := h.request ht
    cases r? with
    | none => exact hagrees.elim
    | some r =>
      obtain ⟨rfl, hes⟩ := hagrees
      have htook : Took ttl w.entries now (some ⟨kind, key, value⟩) (effectsOf i w.log) []
          (entriesOf w.config.store) (.entered kind key value) := .idle ⟨rfl, hes⟩
      simp only [hr, ht, List.getElem?_set_self (List.getElem?_eq_some_iff.mp ht).1]
      exact h.set ht hr hm htook (fun j u _ _ k _ => rfl) (fun hne => absurd rfl hne) hbooks
        h.ttl_eq
  | stepped ht hcalled =>
    rename_i i now t
    obtain ⟨r?, hr, hagrees⟩ := h.request ht
    have hstepped := step_stepped hcalled (h.books.fits t (List.mem_of_getElem? ht)) now
    have hothers := h.others ht hstepped
    have httl := (step_ttl t w.config.store now).trans h.ttl_eq
    simp only [hr, ht, List.getElem?_set_self (List.getElem?_eq_some_iff.mp ht).1]
    cases r? with
    | none =>
      exact h.set ht hr hm (prune_took hagrees hm) hothers (fun hne => absurd rfl hne) hbooks httl
    | some r =>
      refine h.set ht hr hm (write_took h.ttl_eq hagrees hcalled hm) hothers ?_ hbooks httl
      intro hne answer
      obtain ⟨e, he⟩ := List.exists_mem_of_ne_nil _ hne
      exact effectOf_active he answer
  | visited ht hbusy =>
    rename_i i now key records bytes
    obtain ⟨r?, hr, hagrees⟩ := h.request ht
    cases r? with
    | some r => exact hagrees.elim
    | none =>
      have httl := (visit_ttl w.config.store now key records bytes).trans h.ttl_eq
      have hadv := h.set ht hr hm (visit_took h.ttl_eq hagrees key)
        (fun j u _ hu => visit_others now records bytes hbusy (List.mem_of_getElem? hu))
        (fun _ answer hfin => nomatch hfin) hbooks httl
      rw [apply_ite (List.map fun e => (i, e))] at hadv
      exact hadv

/-! ## Linearizability -/

namespace Watched

/-- A new store, watched from the start. -/
def new (ttl : Int) (maxStorageBytes : Nat) : Watched :=
  ⟨⟨.withMaxStorageBytes ttl maxStorageBytes, []⟩, [], [], 0⟩

def after (ttl : Int) (maxStorageBytes : Nat) (moves : List Move) : Watched :=
  moves.foldl move (new ttl maxStorageBytes)

theorem after_append (ttl : Int) (maxStorageBytes : Nat) (pre post : List Move) :
    after ttl maxStorageBytes (pre ++ post) = post.foldl move (after ttl maxStorageBytes pre) :=
  List.foldl_append

theorem foldl_config (moves : List Move) :
    ∀ w : Watched, (moves.foldl move w).config = moves.foldl Config.move w.config := by
  induction moves with
  | nil => exact fun w => rfl
  | cons m moves ih => exact fun w => ih (w.move m)

theorem after_config (ttl : Int) (maxStorageBytes : Nat) (moves : List Move) :
    (after ttl maxStorageBytes moves).config = Config.after ttl maxStorageBytes moves :=
  foldl_config moves _

end Watched

/-- The clocks that the moves read. -/
def clocks (moves : List Move) : List Instant := moves.filterMap readClock

/-- What the calls are asked for, in the order of their numbers. -/
def requests (moves : List Move) : List (Option Request) := moves.flatMap requested

theorem foldl_requests (moves : List Move) :
    ∀ w : Watched, (moves.foldl Watched.move w).requests = w.requests ++ requests moves := by
  induction moves with
  | nil => exact fun w => (List.append_nil _).symm
  | cons m moves ih =>
    intro w
    rw [List.foldl_cons, ih, requests, requests, List.flatMap_cons, ← List.append_assoc]
    rfl

def Over (w : Watched) (i : Nat) : Prop :=
  ∃ answer, w.config.calls[i]? = some (.finished answer)

def Step (limit : Nat) (ttl : Int) (w w' : Watched) : Prop :=
  Inv limit ttl w ∧ ∃ m, Timely w.clock m ∧ w' = w.move m

theorem over_move {i : Nat} (h : Over w i) (m : Move) : Over (w.move m) i := by
  obtain ⟨answer, hi⟩ := h
  have hlt := (List.getElem?_eq_some_iff.mp hi).1
  refine ⟨answer, ?_⟩
  have hmoved := moved w.config m
  show (w.config.move m).calls[i]? = _
  generalize w.config.move m = c' at hmoved
  cases hmoved with
  | called | pruned => rw [List.getElem?_append_left hlt, hi]
  | blocked | passed => exact hi
  | entered ht hbusy =>
    rename_i j now kind key value
    have hne : j ≠ i := by
      rintro rfl
      cases ht.symm.trans hi
    rw [List.getElem?_set_ne hne, hi]
  | stepped ht hcalled =>
    rename_i j now t
    by_cases hne : j = i
    · subst hne
      obtain rfl := Option.some.inj (ht.symm.trans hi)
      rw [List.getElem?_set_self hlt]
      rfl
    · rw [List.getElem?_set_ne hne, hi]
  | visited ht hbusy =>
    rename_i j now key records bytes
    have hne : j ≠ i := by
      rintro rfl
      cases ht.symm.trans hi
    rw [List.getElem?_set_ne hne, hi]

theorem length_move (w : Watched) (m : Move) :
    w.config.calls.length ≤ (w.move m).config.calls.length := by
  have hmoved := moved w.config m
  show _ ≤ (w.config.move m).calls.length
  generalize w.config.move m = c' at hmoved
  cases hmoved <;> simp

/-- **The store logs what it does.** -/
theorem recorded (limit : Nat) (ttl : Int) :
    Recorded (Step limit ttl) (Legal ttl) Watched.entries Watched.log
      (fun w => w.config.calls.length) Over where
  adds := by
    rintro w w' ⟨h, m, hm, rfl⟩
    have hadv := h.advance hm
    refine ⟨w.effects m, rfl, hadv.legal, ?_⟩
    intro e he
    obtain ⟨t, ht, hactive⟩ := hadv.active e he
    refine ⟨(List.getElem?_eq_some_iff.mp ht).1, ?_⟩
    rintro ⟨answer, hover⟩
    exact hactive answer (Option.some.inj (ht.symm.trans hover))
  begun_le := by
    rintro w w' ⟨-, m, -, rfl⟩
    exact length_move w m
  over_step := by
    rintro w w' i ⟨-, m, -, rfl⟩ hover
    exact over_move hover m

theorem inv_new (ttl : Int) (maxStorageBytes : Nat) :
    Inv maxStorageBytes ttl (.new ttl maxStorageBytes) :=
  ⟨rfl, books_after ttl maxStorageBytes [], rfl, nofun, nofun⟩

theorem run_steps (post pre : List Move) : ∀ {w : Watched}, Inv limit ttl w →
    (w.clock :: clocks (pre ++ post)).Pairwise (· ≤ ·) →
    Relation.ReflTransGen (Step limit ttl) w (pre.foldl Watched.move w) ∧
      Inv limit ttl (pre.foldl Watched.move w) ∧
      ((pre.foldl Watched.move w).clock :: clocks post).Pairwise (· ≤ ·) := by
  induction pre with
  | nil => exact fun h hclock => ⟨.refl, h, hclock⟩
  | cons m pre ih =>
    intro w h hclock
    have hm : Timely w.clock m ∧ ((w.move m).clock :: clocks (pre ++ post)).Pairwise (· ≤ ·) := by
      cases m with
      | call | prune => exact ⟨Nat.le_refl _, hclock⟩
      | step i now | visit i now key =>
        exact ⟨(List.pairwise_cons.mp hclock).1 now List.mem_cons_self,
          (List.pairwise_cons.mp hclock).2⟩
    obtain ⟨hsteps, hinv, hrest⟩ := ih (h.advance hm.1).inv hm.2
    exact ⟨.head ⟨h, m, hm.1, rfl⟩ hsteps, hinv, hrest⟩

theorem get_eq_read (s : ForgetfulStorage) (now : Instant) (key : Bytes) :
    s.get now key = read s.ttl (entriesOf s) now key := by
  unfold ForgetfulStorage.get read entriesOf
  cases s.data.lookup key with
  | none => rfl
  | some e =>
    have hexp : s.isExpired now e.insertedAt = expired s.ttl now e := rfl
    simp only [hexp, Option.filter_some]
    cases expired s.ttl now e <;> rfl

/-- The move of which an effect is: of the call that has it, reading its clock. -/
def TakenBy (m : Move) (e : Nat × Effect) : Prop :=
  match e.2 with
  | .write _ now _ => m = .step e.1 now
  | .remove key now => m = .visit e.1 now key

theorem effects_takenBy (w : Watched) (m : Move) : ∀ e ∈ w.effects m, TakenBy m e := by
  intro e he
  cases m with
  | call | prune => cases he
  | step i now =>
    simp only [Watched.effects] at he
    split at he
    · obtain ⟨x, hx, rfl⟩ := List.mem_map.mp he
      unfold effectOf at hx
      split at hx
      · obtain rfl := List.mem_singleton.mp hx
        exact rfl
      · cases hx
    · cases he
  | visit i now key =>
    simp only [Watched.effects] at he
    split at he
    · obtain rfl := List.mem_singleton.mp he
      exact rfl
    · cases he

/-- **The store is linearizable.** Whatever steps of concurrent `set`, `insert_if_absent`
and `prune_expired` calls interleave, what the moves so far did has one order that a map
without concurrency would show: an effect is of a step of its own call, at the clock which
this step reads; each answered write has one effect, with the answer it gave, and each
pruning pass removed as many entries as it reports. At every moment the effects so far lead
to the entries there are, which is what reads see; a call that has returned has no later
effect and one not made yet no earlier one. -/
theorem store_linearizable (ttl : Int) (maxStorageBytes : Nat) (moves : List Move)
    (hclock : (clocks moves).Pairwise (· ≤ ·)) :
    ∃ log : List Move → Log Effect,
      log [] = [] ∧
      (∀ pre m post, moves = pre ++ m :: post →
        ∃ es, log (pre ++ [m]) = log pre ++ es ∧ ∀ e ∈ es, TakenBy m e) ∧
      (∀ i status, (Config.after ttl maxStorageBytes moves).calls[i]? =
          some (.finished (.written status)) →
        ∃ r now, (requests moves)[i]? = some (some r) ∧
          effectsOf i (log moves) = [.write r now status]) ∧
      (∀ i records, (Config.after ttl maxStorageBytes moves).calls[i]? =
          some (.finished (.reclaimed records)) →
        (requests moves)[i]? = some none ∧
          (∀ e ∈ effectsOf i (log moves), ∃ key now, e = .remove key now) ∧
          records = (effectsOf i (log moves)).length % wordSize) ∧
      ∀ pre post, moves = pre ++ post →
        ∃ later, log moves = log pre ++ later ∧
          Sequential (Legal ttl) (fun _ => none) (log pre)
            (entriesOf (Config.after ttl maxStorageBytes pre).store) ∧
          (∀ now key, (Config.after ttl maxStorageBytes pre).store.get now key =
            read ttl (entriesOf (Config.after ttl maxStorageBytes pre).store) now key) ∧
          (∀ i answer, (Config.after ttl maxStorageBytes pre).calls[i]? =
            some (.finished answer) → effectsOf i later = []) ∧
          ∀ i, (Config.after ttl maxStorageBytes pre).calls.length ≤ i →
            effectsOf i (log pre) = [] := by
  have hstart : ((Watched.new ttl maxStorageBytes).clock :: clocks moves).Pairwise (· ≤ ·) :=
    List.pairwise_cons.mpr ⟨fun now _ => Nat.zero_le now, hclock⟩
  have hinv : Inv maxStorageBytes ttl (.after ttl maxStorageBytes moves) := by
    rw [← List.append_nil moves] at hstart
    exact (run_steps [] moves (inv_new ttl maxStorageBytes) hstart).2.1
  have hreq : (Watched.after ttl maxStorageBytes moves).requests = requests moves :=
    foldl_requests moves _
  refine ⟨fun pre => (Watched.after ttl maxStorageBytes pre).log, rfl, ?_, ?_, ?_, ?_⟩
  · intro pre m post _
    refine ⟨(Watched.after ttl maxStorageBytes pre).effects m, ?_, effects_takenBy _ m⟩
    dsimp only
    rw [Watched.after_append]
    rfl
  · intro i status hi
    rw [← Watched.after_config] at hi
    obtain ⟨r?, hr, hagrees⟩ := hinv.request hi
    rw [hreq] at hr
    cases r? with
    | none => exact hagrees.elim
    | some r =>
      obtain ⟨now, hes⟩ := hagrees
      exact ⟨r, now, hr, hes⟩
  · intro i records hi
    rw [← Watched.after_config] at hi
    obtain ⟨r?, hr, hagrees⟩ := hinv.request hi
    rw [hreq] at hr
    cases r? with
    | none => exact ⟨hr, hagrees⟩
    | some r => exact hagrees.elim
  · rintro pre post rfl
    obtain ⟨hto, hmid, hrest⟩ := run_steps post pre (inv_new ttl maxStorageBytes) hstart
    rw [← List.append_nil post] at hrest
    have hon := (run_steps [] post hmid hrest).1
    obtain ⟨later, hlog, hseq, hnew, hover⟩ :=
      (recorded maxStorageBytes ttl).cut rfl hto hon
    have hpre := Watched.after_config ttl maxStorageBytes pre
    refine ⟨later, ?_, ?_, ?_, ?_, ?_⟩
    · dsimp only
      rw [Watched.after_append]
      exact hlog
    · rw [← hpre]
      exact hseq
    · intro now key
      have httl : (Watched.after ttl maxStorageBytes pre).config.store.ttl = ttl := hmid.ttl_eq
      rw [get_eq_read, ← hpre, httl]
    · intro i answer hi
      exact hover i ⟨answer, by rw [← hi, ← hpre]; rfl⟩
    · intro i hi
      refine hnew i ?_
      rw [← hpre] at hi
      exact hi

/-- Two writers of one key; the second waits until the first has left. A pruning pass comes
in between, and another when the entry has expired. -/
def twoWriters : List Move :=
  [.call .insertIfAbsent [1] [5], .call .insertIfAbsent [1] [6], .step 0 0, .step 1 1, .step 0 1,
    .prune, .step 0 2, .step 0 3, .step 0 4, .visit 2 5 [1], .step 1 6, .step 2 6, .step 1 7,
    .step 1 8, .prune, .visit 3 (2 * nanosPerSec) [1], .step 3 (2 * nanosPerSec)]

theorem store_linearizable_twoWriters :
    (clocks twoWriters).Pairwise (· ≤ ·) ∧
      ∃ (log : Log Effect) (now now' : Instant),
        effectsOf 0 log = [.write ⟨.insertIfAbsent, [1], [5]⟩ now .stored] ∧
        effectsOf 1 log = [.write ⟨.insertIfAbsent, [1], [6]⟩ now' .conflict] ∧
        (effectsOf 2 log).length % wordSize = 0 ∧ (effectsOf 3 log).length % wordSize = 1 := by
  have hclock : (clocks twoWriters).Pairwise (· ≤ ·) := by decide
  obtain ⟨log, -, -, hwrites, hprunes, -⟩ := store_linearizable 1 100 twoWriters hclock
  have hfirst : (requests twoWriters)[0]? = some (some ⟨.insertIfAbsent, [1], [5]⟩) := by decide
  have hsecond : (requests twoWriters)[1]? = some (some ⟨.insertIfAbsent, [1], [6]⟩) := by decide
  obtain ⟨r, now, hr, hes⟩ := hwrites 0 .stored (by decide +kernel)
  obtain ⟨r', now', hr', hes'⟩ := hwrites 1 .conflict (by decide +kernel)
  obtain rfl := Option.some.inj (Option.some.inj (hfirst.symm.trans hr))
  obtain rfl := Option.some.inj (Option.some.inj (hsecond.symm.trans hr'))
  exact ⟨hclock, log twoWriters, now, now', hes, hes', (hprunes 2 0 (by decide +kernel)).2.2.symm,
    (hprunes 3 1 (by decide +kernel)).2.2.symm⟩

end AuthKademlia.Storage.Linearization
