import AuthKademlia.Lib.Memo
import AuthKademlia.Runtime.World

/-! # Verdicts behind the signature cache

The checks of one node as calls behind a shared cache. The question of a call is the
record in its trust domain, its slot the hash of both. What is outside is whatever
the answers of the handler depend on besides their arguments; for the handler of DID
records that is the issuer's key file, which every check of a Status List reads.

`routine_step` says that the calls take the steps of `verifyRecord`. -/
namespace AuthKademlia.Runtime.CachedChecks
open AuthKademlia.Lib.Async AuthKademlia.Lib.Memo AuthKademlia.Utils AuthKademlia.AuthHandler
open AuthKademlia.Protocol

/-- A call of `verify_record`: its key and its value. -/
abbrev Job := NodeId × Bytes

/-- A record in the domain it is verified in. -/
abbrev Query := VerificationDomain × Bytes

section
variable {Outside : Type}

/-- The answer of the handler to a question. -/
def verdict (handler : SignatureVerifierHandler) (q : Query) : Bool :=
  match q.1 with
  | .selfSigned => orFalse (handler.handleSignatureVerification q.2)
  | .issuerSigned => orFalse (handler.handleIssuerNodeSignatureVerification q.2)

/-- `verify_record`, with or without the cache. -/
def checks (hashes : Hashes) (handler : Outside → SignatureVerifierHandler) (useCache : Bool) :
    Setup Job Query Bytes Outside Bool where
  early := fun outside job =>
    if job.1 = hashes.digest statusListKey ∨
        orFalse ((handler outside).handleKeyBindingVerification job.1 job.2) then none
    else some false
  query := fun job =>
    (if job.1 = hashes.digest statusListKey then .issuerSigned else .selfSigned, job.2)
  slot := fun q => computeKey hashes q.1 q.2
  answer := fun outside q => verdict (handler outside) q
  enabled := useCache

/-! ## The steps of `verifyRecord` -/

/-- `verifyRecord` from the check of the signature on. -/
def askRoutine (srv : Server) (job : Job) : Routine Bool :=
  if srv.useCache then do
    let result ← verifySignature srv job.1 job.2
    cacheInsert (verificationDomain srv job.1) job.2 result
    return result
  else verifySignature srv job.1 job.2

/-- What is left of `verifyRecord` in a phase. -/
def routine (srv : Server) (job : Job) : Phase Outside Bool → Routine Bool
  | .looking => do
    match ← cacheGet (verificationDomain srv job.1) job.2 with
    | some cached => return cached
    | none => askRoutine srv job
  | .asking => askRoutine srv job
  | .keeping result _ => do
    cacheInsert (verificationDomain srv job.1) job.2 result
    return result
  | .done result _ => return result

/-- The cache without what the proofs know of its entries. -/
def verdicts (cache : Bytes → Option (Entry Query Outside Bool)) (slot : Bytes) : Option Bool :=
  (cache slot).map Entry.answer

theorem verdicts_update (cache : Bytes → Option (Entry Query Outside Bool)) (slot : Bytes)
    (e : Entry Query Outside Bool) :
    verdicts (Function.update cache slot (some e)) =
      Function.update (verdicts cache) slot (some e.answer) :=
  Function.comp_update (Option.map Entry.answer) cache slot (some e)

variable {handler : Outside → SignatureVerifierHandler} {srv : Server} {outside : Outside}

theorem verifySignature_eq (srv : Server) (job : Job) :
    verifySignature srv job.1 job.2 =
      blocking (verdict srv.handler (verificationDomain srv job.1, job.2)) := by
  unfold verifySignature verificationDomain verdict
  split <;> rfl

theorem early_eq (hsrv : handler outside = srv.handler) (key : NodeId) (value : Bytes) :
    (checks srv.platform.hashes handler srv.useCache).early outside (key, value) =
      if isBoundToKey srv key value then none else some false := by
  have hbound : isBoundToKey srv key value = true ↔
      (key = srv.platform.hashes.digest statusListKey ∨
        orFalse (srv.handler.handleKeyBindingVerification key value) = true) := by
    unfold isBoundToKey
    rw [Bool.or_eq_true, decide_eq_true_eq]
    rfl
  unfold checks
  dsimp only
  rw [hsrv]
  exact if_congr hbound.symm rfl rfl

theorem verifyRecord_begin (hsrv : handler outside = srv.handler) (key : NodeId) (value : Bytes) :
    verifyRecord srv key value = routine srv (key, value)
      ((checks srv.platform.hashes handler srv.useCache).begin outside (key, value)) := by
  unfold Setup.begin verifyRecord
  rw [early_eq hsrv]
  cases isBoundToKey srv key value with
  | false => rfl
  | true =>
    by_cases hen : srv.useCache
    · simp only [checks, hen, routine, askRoutine, if_true]
      rfl
    · simp only [checks, hen, routine, askRoutine]
      rfl

/-- **A call takes the steps of `verifyRecord`**: its next operation, on a node whose cache holds
the same verdicts, leaves the rest of the routine and the same verdicts again. -/
theorem routine_step (cl : Cluster) (a : Agent) (hcl : srv.platform = cl.platform)
    (s : State Job Query Bytes Outside Bool) (hsrv : handler s.outside = srv.handler) (w : World)
    (hcache : w.cache a.loc = verdicts s.cache) (job : Job) (phase : Phase Outside Bool)
    (hgo : ∀ result seen, phase ≠ .done result seen) :
    let next := (checks srv.platform.hashes handler srv.useCache).advance s
      ((checks srv.platform.hashes handler srv.useCache).query job) phase
    ∃ o k r w', routine srv job phase = .op o k ∧ effect cl a o {} w = some (r, w') ∧
      k r = routine srv job next.1 ∧ w'.cache a.loc = verdicts next.2 := by
  intro next
  cases phase with
  | looking =>
    let slot := computeKey srv.platform.hashes (verificationDomain srv job.1) job.2
    have hfound : effect cl a (.cacheGet (verificationDomain srv job.1) job.2) {} w =
        some (verdicts s.cache slot, w) := by
      rw [← hcache]
      show some (w.cache a.loc (computeKey cl.platform.hashes _ _), w) = _
      rw [← hcl]
    refine ⟨_, _, _, w, rfl, hfound, ?_⟩
    cases hentry : s.cache slot with
    | none =>
      rw [show next = (.asking, s.cache) from Setup.advance_miss hentry, verdicts, hentry]
      exact ⟨rfl, hcache⟩
    | some e =>
      rw [show next = (.done e.answer s.outside, s.cache) from Setup.advance_hit hentry,
        verdicts, hentry]
      exact ⟨rfl, hcache⟩
  | asking =>
    show ∃ o k r w', askRoutine srv job = .op o k ∧ _
    rw [askRoutine, verifySignature_eq, ← hsrv]
    cases hen : srv.useCache with
    | true =>
      rw [show next = _ from Setup.advance_enabled hen]
      exact ⟨_, _, _, w, rfl, rfl, rfl, hcache⟩
    | false =>
      rw [show next = _ from Setup.advance_disabled hen]
      exact ⟨_, _, _, w, rfl, rfl, rfl, hcache⟩
  | keeping result seen =>
    refine ⟨_, _, _, _, rfl, rfl, rfl, ?_⟩
    show Function.update w.cache a.loc _ a.loc = verdicts (Function.update s.cache _ _)
    rw [Function.update_self, hcache, verdicts_update, ← hcl]
    rfl
  | done result seen => exact absurd rfl (hgo result seen)

end

/-! ## The issuer's key file -/

/-- The handler of DID records while the issuer's key file holds `file`; `none` if it cannot be
read. -/
def keyFileHandler (P : Platform) (file : Option Bytes) : SignatureVerifierHandler :=
  didSignatureVerifierHandler { P with issuerPubKey := file }

/-- A Status List is accepted exactly if it verifies under the key in the file. -/
theorem verdict_issuerSigned (P : Platform) (file : Option Bytes) (value : Bytes) :
    verdict (keyFileHandler P file) (.issuerSigned, value) = true ↔
      IssuerSigned { P with issuerPubKey := file } value := by
  show orFalse (verifyIssuerNode { P with issuerPubKey := file } value) = true ↔ _
  rw [orFalse_eq_true]
  exact ⟨issuerSigned_of_verified, IssuerSigned.verified⟩

end AuthKademlia.Runtime.CachedChecks
