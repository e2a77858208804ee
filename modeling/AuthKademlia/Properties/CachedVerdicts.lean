import AuthKademlia.Runtime.CachedChecks

/-! # What the signature cache changes

A self-signed record has one verdict, and the cache can only give that. The verdict
on a Status List depends on the issuer's key file, and the cache keeps it when the
file changes: a call is decided by the key in force only if the verdict that it
finds, if any, was computed under the same key. -/
namespace AuthKademlia.Properties
open AuthKademlia.Lib.Memo AuthKademlia.Utils AuthKademlia.AuthHandler AuthKademlia.Protocol
open AuthKademlia.Runtime.CachedChecks

section
variable {Outside : Type}

/-- The questions of the calls of a run that are bound to their key. -/
def questions (hashes : Hashes) (handler : Outside → SignatureVerifierHandler) (outside : Outside)
    (moves : List (Move Job Bytes Outside)) : Set Query :=
  {q | ∃ job, Move.start job ∈ moves ∧ (checks hashes handler true).early outside job = none ∧
    q = (checks hashes handler true).query job}

def hashInput (q : Query) : Bytes := q.1.byte :: q.2

theorem hashInput_injective : Function.Injective hashInput := by
  intro q q' h
  obtain ⟨hbyte, hvalue⟩ := List.cons.inj h
  refine Prod.ext ?_ hvalue
  cases hq : q.1 <;> cases hq' : q'.1 <;> rw [hq, hq'] at hbyte <;> first | rfl | cases hbyte

theorem injOn_slot {hashes : Hashes} {handler : Outside → SignatureVerifierHandler}
    {used : Set Query} (hhash : Set.InjOn hashes.sha256 (hashInput '' used)) :
    Set.InjOn (checks hashes handler true).slot used := by
  intro q hq q' hq' h
  exact hashInput_injective
    (hhash (Set.mem_image_of_mem hashInput hq) (Set.mem_image_of_mem hashInput hq') h)

theorem early_steady {hashes : Hashes} {handler : Outside → SignatureVerifierHandler}
    (hbinding : ∀ f f', (handler f).handleKeyBindingVerification =
      (handler f').handleKeyBindingVerification) (f f' : Outside) (job : Job) :
    (checks hashes handler true).early f job = (checks hashes handler true).early f' job := by
  unfold checks
  dsimp only
  rw [hbinding f f']

/-- So does the answer to the question of a DID record. -/
theorem answer_steady {hashes : Hashes} {handler : Outside → SignatureVerifierHandler}
    (hself : ∀ f f', (handler f).handleSignatureVerification =
      (handler f').handleSignatureVerification) {job : Job}
    (hdid : job.1 ≠ hashes.digest statusListKey) (f f' : Outside) :
    (checks hashes handler true).answer f ((checks hashes handler true).query job) =
      (checks hashes handler true).answer f' ((checks hashes handler true).query job) := by
  unfold checks verdict
  dsimp only
  rw [if_neg hdid]
  dsimp only
  rw [hself f f']

/-- **The cache never changes the verdict on a DID record**: in every run of calls for any keys
and values, with entries dropped and the outside changing at any time, a call for another key than
the Status List's ends as the same call does without a cache. The handler's binding and
self-signature answers depend on their arguments only, and SHA-256 has no collisions on what is
hashed. -/
theorem cache_keeps_did_verdicts (hashes : Hashes) (handler : Outside → SignatureVerifierHandler)
    (outside : Outside) (moves : List (Move Job Bytes Outside))
    (hbinding : ∀ f f', (handler f).handleKeyBindingVerification =
      (handler f').handleKeyBindingVerification)
    (hself : ∀ f f', (handler f).handleSignatureVerification =
      (handler f').handleSignatureVerification)
    (hhash : Set.InjOn hashes.sha256 (hashInput '' questions hashes handler outside moves))
    (job : Job) (hdid : job.1 ≠ hashes.digest statusListKey) (result : Bool) (seen : Outside)
    (hcall : ⟨job, .done result seen⟩ ∈ ((checks hashes handler true).run outside moves).calls) :
    ∀ f, ((checks hashes handler false).run f [.start job, .step 0]).calls =
      [⟨job, .done result f⟩] := by
  have huse : ∀ m ∈ moves,
      (checks hashes handler true).Uses (questions hashes handler outside moves) m := by
    intro m hm
    cases m with
    | start job =>
      intro hasks
      obtain ⟨f, hf⟩ := hasks
      exact ⟨job, hm, (early_steady hbinding outside f job).trans hf, rfl⟩
    | step | change | drop => trivial
  have hinv := (Setup.inv_new outside).run (fun _ _ => rfl) huse
    (Setup.along_of_injOn (injOn_slot hhash) (Setup.inv_new outside) huse)
  intro f
  rw [Setup.run_alone rfl]
  -- the binding ended the call, or it was given an answer to its own question
  rcases hinv.sound _ hcall with hat | ⟨⟨f₀, hnone⟩, q, f', rfl, hanswer⟩
  · rw [show (checks hashes handler false).early f job = some result from
      (early_steady hbinding f seen job).trans hat]
    rfl
  · rw [show (checks hashes handler false).early f job = none from
      (early_steady hbinding f f₀ job).trans hnone, hanswer, answer_steady hself hdid f' f]
    rfl

end

def toyStatusKey : NodeId := toyHashes.digest statusListKey

/-- Two calls for a self-signed record, as a DID record and as a Status List, take turns while the
key file goes missing; a third one finds the verdict of the first. -/
def sharedRecord : List (Move Job Bytes (Option Bytes)) :=
  [.start (toyKey, toyRecord 1), .start (toyStatusKey, toyRecord 1), .step 0, .step 1, .step 0,
    .change none, .step 1, .step 1, .step 0, .start (toyKey, toyRecord 1), .step 2]

theorem cache_keeps_did_verdicts_sharedRecord :
    ((checks toyHashes (keyFileHandler toyPlatform) true).run (some [9]) sharedRecord).calls =
      [⟨(toyKey, toyRecord 1), .done true (some [9])⟩,
        ⟨(toyStatusKey, toyRecord 1), .done false none⟩,
        ⟨(toyKey, toyRecord 1), .done true none⟩] ∧
    ((checks toyHashes (keyFileHandler toyPlatform) false).run none
      [.start (toyKey, toyRecord 1), .step 0]).calls =
      [⟨(toyKey, toyRecord 1), .done true none⟩] := by
  have hcalls : ((checks toyHashes (keyFileHandler toyPlatform) true).run (some [9])
      sharedRecord).calls =
      [⟨(toyKey, toyRecord 1), .done true (some [9])⟩,
        ⟨(toyStatusKey, toyRecord 1), .done false none⟩,
        ⟨(toyKey, toyRecord 1), .done true none⟩] := by
    decide +kernel
  refine ⟨hcalls, cache_keeps_did_verdicts toyHashes (keyFileHandler toyPlatform) (some [9])
    sharedRecord (fun _ _ => rfl) (fun _ _ => rfl) (fun _ _ _ _ h => h) (toyKey, toyRecord 1)
    (by decide) true none ?_ none⟩
  rw [hcalls]
  exact List.mem_cons_of_mem _ (List.mem_cons_of_mem _ List.mem_cons_self)

/-! ## The key in force -/

/-- A verdict on a Status List that was computed from the same bytes under the same content of the
key file. -/
def SameKey (q' : Query) (file' : Option Bytes) (q : Query) (file : Option Bytes) : Prop :=
  q.1 = .issuerSigned → q' = q ∧ file' = file

instance (q' : Query) (file' : Option Bytes) (q : Query) (file : Option Bytes) :
    Decidable (SameKey q' file' q file) :=
  inferInstanceAs (Decidable (_ → _))

section
variable (P : Platform) (value : Bytes)

theorem early_status (file : Option Bytes) :
    (checks P.hashes (keyFileHandler P) true).early file (P.hashes.digest statusListKey, value) =
      none :=
  if_pos (Or.inl rfl)

theorem query_status :
    (checks P.hashes (keyFileHandler P) true).query (P.hashes.digest statusListKey, value) =
      (.issuerSigned, value) := by
  unfold checks
  dsimp only
  rw [if_pos rfl]

end

/-- **The issuer key in force decides about the Status List**, in every run in which each verdict
on a Status List that a call finds in the cache was computed under the content that the key file
has then: a call for the Status List's key returns true exactly if its value verifies under the
key that is readable at a moment while the call is under way. -/
theorem issuer_key_in_force (P : Platform) (file : Option Bytes)
    (moves : List (Move Job Bytes (Option Bytes)))
    (hsame : (checks P.hashes (keyFileHandler P) true).Along SameKey (.new file) moves)
    (i : Nat) (value : Bytes) (result : Bool) (seen : Option Bytes)
    (hcall : ((checks P.hashes (keyFileHandler P) true).run file moves).calls[i]? =
      some ⟨(P.hashes.digest statusListKey, value), .done result seen⟩) :
    ∃ before after, moves = before ++ after ∧
      let s := (checks P.hashes (keyFileHandler P) true).run file before
      (s.calls[i]? = some ⟨(P.hashes.digest statusListKey, value), .looking⟩ ∨
        s.calls[i]? = some ⟨(P.hashes.digest statusListKey, value), .asking⟩) ∧
      (result = true ↔ IssuerSigned { P with issuerPubKey := s.outside } value) := by
  have hinv : (checks P.hashes (keyFileHandler P) true).Inv Set.univ SameKey
      ((checks P.hashes (keyFileHandler P) true).run file moves) := by
    refine (Setup.inv_new file).run (fun _ _ _ => ⟨rfl, rfl⟩) ?_ hsame
    intro m _
    cases m with
    | start => exact fun _ => Set.mem_univ _
    | step | change | drop => trivial
  have hresult : result = verdict (keyFileHandler P seen) (.issuerSigned, value) := by
    rcases hinv.sound _ (List.mem_of_getElem? hcall) with hat | ⟨-, q, f, hq, hanswer⟩
    · cases (early_status P value seen).symm.trans hat
    · obtain ⟨rfl, rfl⟩ := hq (by rw [query_status])
      rw [query_status] at hanswer
      exact hanswer
  obtain ⟨before, after, hmoves, hseen, hundecided⟩ :=
    Setup.decided_during hcall ⟨result, Or.inr rfl⟩
  refine ⟨before, after, hmoves, ?_, ?_⟩
  · rcases hundecided with hlooking | hasking | hearly
    · exact Or.inl hlooking
    · exact Or.inr hasking
    · rw [early_status] at hearly
      cases hearly
  · rw [hseen, hresult]
    exact verdict_issuerSigned P seen value

/-- The key is replaced and the old verdict is dropped from the cache. -/
def replacedAndDropped : List (Move Job Bytes (Option Bytes)) :=
  [.start (toyStatusKey, toyStatusList 1), .step 0, .step 0, .step 0, .change (some [8]),
    .drop (computeKey toyHashes .issuerSigned (toyStatusList 1)),
    .start (toyStatusKey, toyStatusList 1), .step 1, .step 1, .step 1]

/-- The new key decides then. -/
theorem issuer_key_in_force_replacedAndDropped :
    ((checks toyHashes (keyFileHandler toyPlatform) true).run (some [9])
      replacedAndDropped).calls[1]? =
        some ⟨(toyStatusKey, toyStatusList 1), .done false (some [8])⟩ ∧
    ∃ before after, replacedAndDropped = before ++ after ∧
      ¬ IssuerSigned { toyPlatform with
        issuerPubKey := ((checks toyHashes (keyFileHandler toyPlatform) true).run (some [9])
          before).outside } (toyStatusList 1) := by
  have hcall : ((checks toyHashes (keyFileHandler toyPlatform) true).run (some [9])
      replacedAndDropped).calls[1]? =
        some ⟨(toyStatusKey, toyStatusList 1), .done false (some [8])⟩ := by
    decide +kernel
  obtain ⟨before, after, hmoves, -, hresult⟩ := issuer_key_in_force toyPlatform (some [9])
    replacedAndDropped (by decide +kernel) 1 (toyStatusList 1) false (some [8]) hcall
  exact ⟨hcall, before, after, hmoves, fun h => Bool.false_ne_true (hresult.mpr h)⟩

/-- The key is replaced and the old verdict is still in the cache. -/
def replacedOnly : List (Move Job Bytes (Option Bytes)) :=
  [.start (toyStatusKey, toyStatusList 1), .step 0, .step 0, .step 0, .change (some [8]),
    .start (toyStatusKey, toyStatusList 1), .step 1]

/-- The key file cannot be read for a while. -/
def unreadable : List (Move Job Bytes (Option Bytes)) :=
  [.start (toyStatusKey, toyStatusList 1), .step 0, .step 0, .step 0, .change (some [9]),
    .start (toyStatusKey, toyStatusList 1), .step 1]

/-- **The cache keeps verdicts of another key**: after a key rotation a Status List signed by the
old key is still accepted, and one that could not be checked for want of the file is still refused
when the file is back. -/
theorem cached_verdict_outlives_key :
    ((checks toyHashes (keyFileHandler toyPlatform) true).run (some [9]) replacedOnly).calls[1]? =
      some ⟨(toyStatusKey, toyStatusList 1), .done true (some [8])⟩ ∧
    ¬ IssuerSigned { toyPlatform with issuerPubKey := some [8] } (toyStatusList 1) ∧
    ((checks toyHashes (keyFileHandler toyPlatform) true).run none unreadable).calls[1]? =
      some ⟨(toyStatusKey, toyStatusList 1), .done false (some [9])⟩ ∧
    IssuerSigned { toyPlatform with issuerPubKey := some [9] } (toyStatusList 1) := by
  refine ⟨by decide +kernel, ?_, by decide +kernel, ?_⟩
  · rw [← verdict_issuerSigned]
    decide +kernel
  · rw [← verdict_issuerSigned]
    decide +kernel

end AuthKademlia.Properties
