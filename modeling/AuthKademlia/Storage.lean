import Mathlib.Data.List.AList
import AuthKademlia.Utils

/-! # The record store

`ForgetfulStorage` maps keys to values with the instant of their last write.
Expiry is lazy: an expired entry is there, but reads do not see it and
`insert_if_absent` overwrites it. Each operation is one atomic step of the map
and takes the clock as an argument. Three spec lemmas, one per operation, say
what a call can do; callers use nothing else. -/
namespace AuthKademlia.Storage
open AuthKademlia.Utils

/-- Instants are counted in nanoseconds. -/
abbrev Instant := Nat

def nanosPerSec : Nat := 1000000000

/-- Values of a `usize` and a `u64` are below this. -/
def wordSize : Nat := 2 ^ 64

inductive StorageWriteStatus where
  | stored
  | alreadyStored
  | conflict
  | capacityExceeded
  deriving DecidableEq

structure Entry where
  value : Bytes
  insertedAt : Instant
  deriving DecidableEq

structure ForgetfulStorage where
  data : AList fun _ : Bytes => Entry
  /-- Seconds until an entry expires; `-1` is never. -/
  ttl : Int
  currentStorageBytes : Nat
  maxStorageBytes : Nat

namespace ForgetfulStorage

def withMaxStorageBytes (ttl : Int) (maxStorageBytes : Nat) : ForgetfulStorage :=
  ⟨∅, ttl, 0, maxStorageBytes⟩

/-- `reserve_bytes`: the counter after the reservation, if it fits the budget. -/
def reserveBytes (s : ForgetfulStorage) (additional : Nat) : Option ForgetfulStorage :=
  if additional = 0 then some s
  else
    let next := s.currentStorageBytes + additional
    if next < wordSize ∧ next ≤ s.maxStorageBytes then some { s with currentStorageBytes := next }
    else none

/-- `release_bytes`; `fetch_sub` wraps. -/
def releaseBytes (s : ForgetfulStorage) (released : Nat) : ForgetfulStorage :=
  if released = 0 then s
  else { s with
    currentStorageBytes := (s.currentStorageBytes + wordSize - released) % wordSize }

def isExpired (s : ForgetfulStorage) (now insertedAt : Instant) : Bool :=
  if s.ttl = -1 then false
  else (s.ttl % (wordSize : Int)).toNat * nanosPerSec < now - insertedAt

/-- `replace_value` on the entry of `key`, which holds `old`. -/
def replaceValue (s : ForgetfulStorage) (now : Instant) (key : Bytes) (old : Entry)
    (value : Bytes) : StorageWriteStatus × ForgetfulStorage :=
  if old.value = value then
    (.alreadyStored, { s with data := s.data.insert key ⟨value, now⟩ })
  else
    match if value.length > old.value.length then
        s.reserveBytes (value.length - old.value.length) else some s with
    | none => (.capacityExceeded, s)
    | some s =>
      let s := { s with data := s.data.insert key ⟨value, now⟩ }
      (.stored, if old.value.length > value.length then
        s.releaseBytes (old.value.length - value.length) else s)

/-- The vacant branch of `set` and `insert_if_absent`. -/
def insertNew (s : ForgetfulStorage) (now : Instant) (key value : Bytes) :
    StorageWriteStatus × ForgetfulStorage :=
  match s.reserveBytes (key.length + value.length) with
  | none => (.capacityExceeded, s)
  | some s => (.stored, { s with data := s.data.insert key ⟨value, now⟩ })

def set (s : ForgetfulStorage) (now : Instant) (key value : Bytes) :
    StorageWriteStatus × ForgetfulStorage :=
  match s.data.lookup key with
  | none => s.insertNew now key value
  | some entry => s.replaceValue now key entry value

def insertIfAbsent (s : ForgetfulStorage) (now : Instant) (key value : Bytes) :
    StorageWriteStatus × ForgetfulStorage :=
  match s.data.lookup key with
  | none => s.insertNew now key value
  | some entry =>
    if s.isExpired now entry.insertedAt then s.replaceValue now key entry value
    else if entry.value = value then
      (.alreadyStored, { s with data := s.data.insert key ⟨value, now⟩ })
    else (.conflict, s)

def get (s : ForgetfulStorage) (now : Instant) (key : Bytes) : Option Bytes :=
  match s.data.lookup key with
  | some entry => if s.isExpired now entry.insertedAt then none else some entry.value
  | none => none

/-- `prune_expired`: expired entries go, and so do their bytes. -/
def pruneExpired (s : ForgetfulStorage) (now : Instant) : ForgetfulStorage :=
  if s.ttl = -1 then s
  else
    let expired := fun e : (Σ _ : Bytes, Entry) => s.isExpired now e.2.insertedAt
    let kept : AList fun _ : Bytes => Entry :=
      ⟨s.data.entries.filter fun e => !expired e, .sublist List.filter_sublist s.data.nodupKeys⟩
    let bytes := (s.data.entries.filter expired).map fun e => e.1.length + e.2.value.length
    { s with data := kept }.releaseBytes bytes.sum

/-- How many records `prune_expired` reports. -/
def reclaimedRecords (s : ForgetfulStorage) (now : Instant) : Nat :=
  if s.ttl = -1 then 0
  else (s.data.entries.filter fun e => s.isExpired now e.2.insertedAt).length

/-- The live entries last written at least so many seconds ago. -/
def iterOlderThan (s : ForgetfulStorage) (now : Instant) (secondsOld : Nat) :
    List (Bytes × Bytes) :=
  (s.data.entries.filter fun e =>
    secondsOld * nanosPerSec ≤ now - e.2.insertedAt && !s.isExpired now e.2.insertedAt).map
      fun e => (e.1, e.2.value)

def iterAll (s : ForgetfulStorage) (now : Instant) : List (Bytes × Bytes) :=
  (s.data.entries.filter fun e => !s.isExpired now e.2.insertedAt).map fun e => (e.1, e.2.value)

variable {s : ForgetfulStorage} {now : Instant} {key k value v : Bytes}

/-- The value kept for a key, expired or not. -/
def held (s : ForgetfulStorage) (key : Bytes) : Option Bytes := (s.data.lookup key).map Entry.value

theorem mem_iterAll : (key, value) ∈ s.iterAll now ↔ s.get now key = some value := by
  have hget : s.get now key = some value ↔
      ∃ entry, s.data.lookup key = some entry ∧ s.isExpired now entry.insertedAt = false ∧
        entry.value = value := by
    rw [get]
    cases hlook : s.data.lookup key with
    | none => simp
    | some entry => cases hexp : s.isExpired now entry.insertedAt <;> simp [hexp]
  rw [hget, iterAll, List.mem_map]
  constructor
  · rintro ⟨⟨k, entry⟩, he, heq⟩
    obtain ⟨rfl, rfl⟩ := Prod.mk.inj heq
    obtain ⟨he, hexp⟩ := List.mem_filter.mp he
    exact ⟨entry, AList.mem_lookup_iff.mpr he, by simpa using hexp, rfl⟩
  · rintro ⟨entry, hlook, hexp, rfl⟩
    exact ⟨⟨key, entry⟩, List.mem_filter.mpr ⟨AList.mem_lookup_iff.mp hlook, by simpa using hexp⟩,
      rfl⟩

theorem reserveBytes_counter {s' : ForgetfulStorage} {n : Nat} (h : s.reserveBytes n = some s') :
    ∃ bytes, s' = { s with currentStorageBytes := bytes } := by
  simp only [reserveBytes] at h
  split at h
  · exact ⟨_, (Option.some.inj h).symm⟩
  · split at h
    · exact ⟨_, (Option.some.inj h).symm⟩
    · cases h

theorem releaseBytes_counter (s : ForgetfulStorage) (n : Nat) :
    ∃ bytes, s.releaseBytes n = { s with currentStorageBytes := bytes } := by
  rw [releaseBytes]
  split
  · exact ⟨_, rfl⟩
  · exact ⟨_, rfl⟩

@[simp] theorem releaseBytes_data (s : ForgetfulStorage) (n : Nat) :
    (s.releaseBytes n).data = s.data := by
  obtain ⟨bytes, h⟩ := s.releaseBytes_counter n
  rw [h]

theorem held_of_get (h : s.get now key = some v) : s.held key = some v := by
  simp only [get] at h
  split at h
  · rename_i entry he
    split at h
    · cases h
    · rw [held, he, Option.map_some, h]
  · cases h

/-- What a write can do: refuse and change nothing, or leave `value` under `key`
and every other key as it was. -/
inductive Wrote (s : ForgetfulStorage) (key value : Bytes) :
    StorageWriteStatus × ForgetfulStorage → Prop
  | refused (st : StorageWriteStatus) (hst : st = .conflict ∨ st = .capacityExceeded) :
      Wrote s key value (st, s)
  | wrote (st : StorageWriteStatus) (s' : ForgetfulStorage)
      (hst : st = .stored ∨ st = .alreadyStored ∧ s.held key = some value)
      (hkey : s'.held key = some value) (hrest : ∀ k, k ≠ key → s'.held k = s.held k) :
      Wrote s key value (st, s')

theorem held_insert_self (s : ForgetfulStorage) (key value : Bytes) (t : Instant) :
    held { s with data := s.data.insert key ⟨value, t⟩ } key = some value := by
  simp [held, AList.lookup_insert]

theorem held_insert_of_ne (s : ForgetfulStorage) {key k : Bytes} (value : Bytes) (t : Instant)
    (h : k ≠ key) : held { s with data := s.data.insert key ⟨value, t⟩ } k = s.held k := by
  simp [held, AList.lookup_insert_ne h]

/-- A write that is not refused puts the value under the key, with the present instant. -/
inductive Stamped (s : ForgetfulStorage) (now : Instant) (key value : Bytes) :
    StorageWriteStatus × ForgetfulStorage → Prop
  | refused (st : StorageWriteStatus) (hst : st = .conflict ∨ st = .capacityExceeded) :
      Stamped s now key value (st, s)
  | stamped (st : StorageWriteStatus) (s' : ForgetfulStorage)
      (hst : st = .stored ∨ st = .alreadyStored ∧ s.held key = some value)
      (hdata : s'.data = s.data.insert key ⟨value, now⟩) (httl : s'.ttl = s.ttl) :
      Stamped s now key value (st, s')

theorem Stamped.wrote {r : StorageWriteStatus × ForgetfulStorage}
    (h : Stamped s now key value r) : Wrote s key value r := by
  cases h with
  | refused st hst => exact .refused st hst
  | stamped st s' hst hdata httl =>
    refine .wrote st s' hst ?_ fun k hk => ?_
    · rw [held, hdata]
      exact held_insert_self s key value now
    · rw [held, hdata]
      exact held_insert_of_ne s value now hk

theorem Stamped.ttl {r : StorageWriteStatus × ForgetfulStorage} (h : Stamped s now key value r) :
    r.2.ttl = s.ttl := by
  cases h with
  | refused st hst => rfl
  | stamped st s' hst hdata httl => exact httl

theorem Stamped.lookup_of_ne {r : StorageWriteStatus × ForgetfulStorage}
    (h : Stamped s now key value r) (hk : k ≠ key) : r.2.data.lookup k = s.data.lookup k := by
  cases h with
  | refused st hst => rfl
  | stamped st s' hst hdata httl => rw [hdata, AList.lookup_insert_ne hk]

theorem Stamped.same {r : StorageWriteStatus × ForgetfulStorage}
    (h : Stamped s now key value r) (hr : r.1 = .conflict ∨ r.1 = .capacityExceeded) :
    r.2 = s := by
  cases h with
  | refused st hst => rfl
  | stamped st s' hst hdata httl =>
    rcases hst with rfl | ⟨rfl, -⟩ <;> rcases hr with hr | hr <;> cases hr

theorem Stamped.get {r : StorageWriteStatus × ForgetfulStorage}
    (h : Stamped s now key value r) (hr : r.1 = .stored ∨ r.1 = .alreadyStored) :
    r.2.get now key = some value := by
  cases h with
  | refused st hst => rcases hst with rfl | rfl <;> rcases hr with hr | hr <;> cases hr
  | stamped st s' hst hdata httl =>
    simp [ForgetfulStorage.get, hdata, AList.lookup_insert, isExpired]

theorem insertNew_stamped : Stamped s now key value (s.insertNew now key value) := by
  rw [insertNew]
  split
  · exact .refused _ (Or.inr rfl)
  · rename_i s' h
    obtain ⟨bytes, rfl⟩ := reserveBytes_counter h
    exact .stamped _ _ (Or.inl rfl) rfl rfl

theorem replaceValue_stamped {old : Entry} (h : s.data.lookup key = some old) :
    Stamped s now key value (s.replaceValue now key old value) := by
  rw [replaceValue]
  split
  · rename_i heq
    exact .stamped _ _ (Or.inr ⟨rfl, by rw [held, h, Option.map_some, heq]⟩) rfl rfl
  · split
    · exact .refused _ (Or.inr rfl)
    · rename_i s' hs
      have hsame : ∃ bytes, s' = { s with currentStorageBytes := bytes } := by
        split at hs
        · exact reserveBytes_counter hs
        · exact ⟨_, (Option.some.inj hs).symm⟩
      obtain ⟨bytes, rfl⟩ := hsame
      simp only
      split
      · obtain ⟨bytes', he⟩ := releaseBytes_counter
          { s with data := s.data.insert key ⟨value, now⟩, currentStorageBytes := bytes }
          (old.value.length - value.length)
        rw [he]
        exact .stamped _ _ (Or.inl rfl) rfl rfl
      · exact .stamped _ _ (Or.inl rfl) rfl rfl

theorem set_stamped (s : ForgetfulStorage) (now : Instant) (key value : Bytes) :
    Stamped s now key value (s.set now key value) := by
  rw [set]
  split
  · exact insertNew_stamped
  · exact replaceValue_stamped ‹_›

theorem insertIfAbsent_stamped (s : ForgetfulStorage) (now : Instant) (key value : Bytes) :
    Stamped s now key value (s.insertIfAbsent now key value) := by
  rw [insertIfAbsent]
  split
  · exact insertNew_stamped
  · rename_i entry he
    split
    · exact replaceValue_stamped he
    · split
      · rename_i heq
        exact .stamped _ _ (Or.inr ⟨rfl, by rw [held, he, Option.map_some, heq]⟩) rfl rfl
      · exact .refused _ (Or.inl rfl)

theorem set_wrote (s : ForgetfulStorage) (now : Instant) (key value : Bytes) :
    Wrote s key value (s.set now key value) := (set_stamped s now key value).wrote

theorem insertIfAbsent_wrote (s : ForgetfulStorage) (now : Instant) (key value : Bytes) :
    Wrote s key value (s.insertIfAbsent now key value) :=
  (insertIfAbsent_stamped s now key value).wrote

/-- `set` never answers `Conflict`. -/
theorem set_ne_conflict : (s.set now key value).1 ≠ .conflict := by
  have hnew : (s.insertNew now key value).1 ≠ .conflict := by
    rw [insertNew]; split <;> simp
  have hrep : ∀ old, (s.replaceValue now key old value).1 ≠ .conflict := by
    intro old
    rw [replaceValue]
    split
    · simp
    · split <;> simp
  rw [set]
  split
  · exact hnew
  · exact hrep _

theorem get_set (h : (s.set now key value).1 ≠ .capacityExceeded) :
    (s.set now key value).2.get now key = some value := by
  refine (s.set_stamped now key value).get ?_
  have hconflict : (s.set now key value).1 ≠ .conflict := set_ne_conflict
  cases hst : (s.set now key value).1 with
  | stored => exact Or.inl rfl
  | alreadyStored => exact Or.inr rfl
  | conflict => exact absurd hst hconflict
  | capacityExceeded => exact absurd hst h

theorem set_status_now (s : ForgetfulStorage) (now now' : Instant) (key value : Bytes) :
    (s.set now key value).1 = (s.set now' key value).1 := by
  simp only [set]
  split
  · simp only [insertNew]
    split <;> rfl
  · simp only [replaceValue]
    split
    · rfl
    · split <;> rfl

theorem set_held (h : s.held key = some value) : (s.set now key value).1 = .alreadyStored := by
  obtain ⟨entry, he, hv⟩ := Option.map_eq_some_iff.mp h
  rw [set, he]
  simp only [replaceValue, if_pos hv]

/-- **First writer wins.** While a live record is there, `insert_if_absent` takes
no other. -/
theorem insertIfAbsent_live (h : s.get now key = some v) :
    (s.insertIfAbsent now key value).1 = if v = value then .alreadyStored else .conflict := by
  simp only [get] at h
  split at h
  · rename_i entry he
    split at h
    · cases h
    · rename_i hlive
      obtain rfl := Option.some.inj h
      simp only [insertIfAbsent, he, hlive, Bool.false_eq_true, if_false]
      split <;> rfl
  · cases h

/-- Over the same live record, `insert_if_absent` changes no value and no answer. -/
theorem insertIfAbsent_again (h : s.get now key = some value) (k : Bytes) :
    (s.insertIfAbsent now key value).2.held k = s.held k ∧
      (s.insertIfAbsent now key value).2.get now k = s.get now k := by
  have hst : (s.insertIfAbsent now key value).1 = .alreadyStored :=
    (insertIfAbsent_live h).trans (if_pos rfl)
  have hstamped := s.insertIfAbsent_stamped now key value
  have hget := hstamped.get (Or.inr hst)
  by_cases hk : k = key
  · subst hk
    rw [h, hget, held_of_get hget, held_of_get h]
    exact ⟨rfl, rfl⟩
  · have hlookup := hstamped.lookup_of_ne hk
    refine ⟨congrArg (Option.map Entry.value) hlookup, ?_⟩
    unfold ForgetfulStorage.get isExpired
    rw [hlookup, hstamped.ttl]

/-- Over another live record, `insert_if_absent` changes nothing. -/
theorem insertIfAbsent_refused (h : s.get now key = some v) (hne : v ≠ value) :
    (s.insertIfAbsent now key value).2 = s := by
  have hst : (s.insertIfAbsent now key value).1 = if v = value then .alreadyStored else .conflict :=
    insertIfAbsent_live h
  have hstamped := s.insertIfAbsent_stamped now key value
  rw [if_neg hne] at hst
  generalize s.insertIfAbsent now key value = r at hst hstamped
  cases hstamped with
  | refused st _ => rfl
  | stamped st s' hwrote _ _ =>
    rcases hwrote with rfl | ⟨rfl, -⟩
    · cases hst
    · cases hst

/-- Does the value fit, in the place of the entry of the key if there is one? -/
def hasRoom (s : ForgetfulStorage) (key value : Bytes) : Bool :=
  match s.data.lookup key with
  | none => (s.reserveBytes (key.length + value.length)).isSome
  | some old => (s.reserveBytes (value.length - old.value.length)).isSome

theorem insertIfAbsent_vacant (h : s.get now key = none) :
    ((s.insertIfAbsent now key value).1 = .stored ∨
      (s.insertIfAbsent now key value).1 = .alreadyStored) ↔ s.hasRoom key value = true := by
  rw [get] at h
  rw [insertIfAbsent, hasRoom]
  cases hentry : s.data.lookup key with
  | none =>
    simp only [insertNew]
    cases s.reserveBytes (key.length + value.length) <;> simp
  | some old =>
    rw [hentry] at h
    have hexpired : s.isExpired now old.insertedAt = true := by
      by_contra hlive
      simp only [if_neg hlive] at h
      cases h
    simp only [hexpired, if_true, replaceValue]
    split
    · rename_i heq
      simp [heq, reserveBytes]
    · by_cases hlen : value.length > old.value.length
      · rw [if_pos hlen]
        cases s.reserveBytes (value.length - old.value.length) <;> simp
      · have hzero : value.length - old.value.length = 0 := by omega
        simp [hlen, hzero, reserveBytes]

theorem pruneExpired_lookup (s : ForgetfulStorage) (now : Instant) (k : Bytes) :
    (s.pruneExpired now).data.lookup k =
      (s.data.lookup k).filter fun e => !s.isExpired now e.insertedAt := by
  unfold pruneExpired
  split
  · rename_i httl
    have hlive : ∀ t, s.isExpired now t = false := fun t => by rw [isExpired, if_pos httl]
    cases s.data.lookup k with
    | none => rfl
    | some e =>
      rw [Option.filter_some, hlive]
      rfl
  · rw [releaseBytes_data]
    ext e
    rw [← Option.mem_def, AList.mem_lookup_iff, List.mem_filter, Option.filter_eq_some_iff,
      ← Option.mem_def, AList.mem_lookup_iff]

theorem pruneExpired_ttl (s : ForgetfulStorage) (now : Instant) :
    (s.pruneExpired now).ttl = s.ttl := by
  unfold pruneExpired
  split
  · rfl
  · simp only
    obtain ⟨bytes, h⟩ := releaseBytes_counter _ _
    rw [h]

theorem pruneExpired_held (h : (s.pruneExpired now).held key = some v) : s.held key = some v := by
  rw [held, pruneExpired_lookup] at h
  obtain ⟨entry, he, rfl⟩ := Option.map_eq_some_iff.mp h
  rw [held, (Option.filter_eq_some_iff.mp he).1, Option.map_some]

/-! ## Stores that differ in their instants only -/

theorem get_forever (h : s.ttl = -1) (now : Instant) (key : Bytes) :
    s.get now key = s.held key := by
  rw [get, held]
  cases s.data.lookup key with
  | none => rfl
  | some entry => simp [isExpired, h]

/-- The same records and the same budget, without expiry. -/
structure Alike (s t : ForgetfulStorage) : Prop where
  held : ∀ k, s.held k = t.held k
  forever : s.ttl = -1
  forever' : t.ttl = -1
  bytes : s.currentStorageBytes = t.currentStorageBytes
  budget : s.maxStorageBytes = t.maxStorageBytes

namespace Alike

variable {t : ForgetfulStorage}

protected theorem refl (h : s.ttl = -1) : Alike s s := ⟨fun _ => rfl, h, h, rfl, rfl⟩

protected theorem symm (h : Alike s t) : Alike t s :=
  ⟨fun k => (h.held k).symm, h.forever', h.forever, h.bytes.symm, h.budget.symm⟩

protected theorem trans {u : ForgetfulStorage} (h : Alike s t) (h' : Alike t u) : Alike s u :=
  ⟨fun k => (h.held k).trans (h'.held k), h.forever, h'.forever', h.bytes.trans h'.bytes,
    h.budget.trans h'.budget⟩

theorem get (h : Alike s t) (now : Instant) (key : Bytes) : s.get now key = t.get now key := by
  rw [get_forever h.forever, get_forever h.forever', h.held]

theorem counter (h : Alike s t) (n : Nat) :
    Alike { s with currentStorageBytes := n } { t with currentStorageBytes := n } :=
  ⟨h.held, h.forever, h.forever', rfl, h.budget⟩

theorem reserveBytes (h : Alike s t) (n : Nat) :
    (s.reserveBytes n = none ∧ t.reserveBytes n = none) ∨
      ∃ s' t', s.reserveBytes n = some s' ∧ t.reserveBytes n = some t' ∧ Alike s' t' := by
  unfold ForgetfulStorage.reserveBytes
  simp only [h.bytes, h.budget]
  split
  · exact Or.inr ⟨s, t, rfl, rfl, h⟩
  · split
    · exact Or.inr ⟨_, _, rfl, rfl, h.held, h.forever, h.forever', rfl, rfl⟩
    · exact Or.inl ⟨rfl, rfl⟩

theorem releaseBytes (h : Alike s t) (n : Nat) : Alike (s.releaseBytes n) (t.releaseBytes n) := by
  unfold ForgetfulStorage.releaseBytes
  rw [h.bytes]
  split
  · exact h
  · exact h.counter _

/-- The same value goes under the same key, at whatever instants. -/
theorem insert (h : Alike s t) (key value : Bytes) (n m : Instant) :
    Alike { s with data := s.data.insert key ⟨value, n⟩ }
      { t with data := t.data.insert key ⟨value, m⟩ } := by
  refine ⟨fun k => ?_, h.forever, h.forever', h.bytes, h.budget⟩
  by_cases hk : k = key
  · rw [hk, held_insert_self, held_insert_self]
  · rw [held_insert_of_ne s value n hk, held_insert_of_ne t value m hk, h.held]

theorem lookup (h : Alike s t) (key : Bytes) :
    (s.data.lookup key = none ∧ t.data.lookup key = none) ∨
      ∃ e f, s.data.lookup key = some e ∧ t.data.lookup key = some f ∧ e.value = f.value := by
  have hk := h.held key
  rw [ForgetfulStorage.held, ForgetfulStorage.held] at hk
  cases hs : s.data.lookup key with
  | none =>
    rw [hs, Option.map_none] at hk
    exact Or.inl ⟨rfl, Option.map_eq_none_iff.mp hk.symm⟩
  | some e =>
    rw [hs, Option.map_some] at hk
    obtain ⟨f, hf, hv⟩ := Option.map_eq_some_iff.mp hk.symm
    exact Or.inr ⟨e, f, rfl, hf, hv.symm⟩

theorem set (h : Alike s t) (now : Instant) (key value : Bytes) :
    (s.set now key value).1 = (t.set now key value).1 ∧
      Alike (s.set now key value).2 (t.set now key value).2 := by
  unfold ForgetfulStorage.set
  rcases h.lookup key with ⟨hs, ht⟩ | ⟨e, f, hs, ht, hv⟩
  · rw [hs, ht]
    simp only [insertNew]
    rcases h.reserveBytes (key.length + value.length) with ⟨hs, ht⟩ | ⟨s', t', hs, ht, h'⟩
    · rw [hs, ht]
      exact ⟨rfl, h⟩
    · rw [hs, ht]
      exact ⟨rfl, h'.insert key value now now⟩
  · rw [hs, ht]
    simp only [replaceValue, hv]
    split
    · exact ⟨rfl, h.insert key value now now⟩
    -- a longer value reserves the difference, a shorter one releases it
    · have hroom : ((if value.length > f.value.length then
            s.reserveBytes (value.length - f.value.length) else some s) = none ∧
          (if value.length > f.value.length then
            t.reserveBytes (value.length - f.value.length) else some t) = none) ∨
          ∃ s' t', (if value.length > f.value.length then
            s.reserveBytes (value.length - f.value.length) else some s) = some s' ∧
          (if value.length > f.value.length then
            t.reserveBytes (value.length - f.value.length) else some t) = some t' ∧
            Alike s' t' := by
        split
        · exact h.reserveBytes _
        · exact Or.inr ⟨s, t, rfl, rfl, h⟩
      rcases hroom with ⟨hs, ht⟩ | ⟨s', t', hs, ht, h'⟩
      · rw [hs, ht]
        exact ⟨rfl, h⟩
      · rw [hs, ht]
        refine ⟨rfl, ?_⟩
        simp only
        split
        · exact (h'.insert key value now now).releaseBytes _
        · exact h'.insert key value now now

theorem insert_same (hs : s.ttl = -1) {key value : Bytes} (h : s.held key = some value)
    (now : Instant) : Alike { s with data := s.data.insert key ⟨value, now⟩ } s := by
  refine ⟨fun k => ?_, hs, hs, rfl, rfl⟩
  by_cases hk : k = key
  · rw [hk, held_insert_self, h]
  · rw [held_insert_of_ne s value now hk]

theorem set_same (hs : s.ttl = -1) {key value : Bytes} (h : s.held key = some value)
    (now : Instant) : Alike (s.set now key value).2 s := by
  obtain ⟨entry, he, hv⟩ := Option.map_eq_some_iff.mp h
  rw [ForgetfulStorage.set, he]
  simp only [replaceValue, if_pos hv]
  exact insert_same hs h now

/-- Over a live record, `insert_if_absent` changes at most an instant. -/
theorem insertIfAbsent_same (hs : s.ttl = -1) {key : Bytes} (h : s.held key ≠ none)
    (now : Instant) (value : Bytes) : Alike (s.insertIfAbsent now key value).2 s := by
  obtain ⟨v, hv⟩ := Option.ne_none_iff_exists'.mp h
  obtain ⟨entry, he, rfl⟩ := Option.map_eq_some_iff.mp hv
  have hlive : s.isExpired now entry.insertedAt = false := by simp [isExpired, hs]
  simp only [ForgetfulStorage.insertIfAbsent, he, hlive, Bool.false_eq_true, if_false]
  split
  · rename_i heq
    exact insert_same hs (heq ▸ hv) now
  · exact Alike.refl hs

end Alike

end ForgetfulStorage

end AuthKademlia.Storage
