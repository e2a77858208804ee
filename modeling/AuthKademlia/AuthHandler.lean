import AuthKademlia.Utils

/-! # Verification of DID records

A record is `algorithm (12 bytes, null-padded) ++ signature ++ DID Document`.
`SignatureVerifierHandler` is the rule by which a node checks records;
`didSignatureVerifierHandler` is the rule for this format. JSON, UUIDs, base64,
the signature schemes and the issuer's key file belong to the platform.

The predicates `BoundTo`, `SelfSigned`, `IssuerSigned` and `Authorises` say what
a positive answer of the handler means; the other modules use only those. -/
namespace AuthKademlia.AuthHandler
open AuthKademlia.Utils

inductive VerifierError where
  | unsupportedAlgorithm (name : String)
  | invalidKeyLength (len : Nat)
  | verificationFailed (reason : String)

inductive AuthHandlerError where
  | crypto (e : VerifierError)
  | json
  | base64
  | io
  | missingField (name : String)
  | utf8
  | invalidFormat
  | invalidDid

/-- The signature schemes `SignatureVerifierFactory` chooses from. -/
inductive Scheme where
  | rsa
  | ed25519
  | dilithium
  deriving DecidableEq

/-- What the code reads of a parsed DID Document: `id` and
`verificationMethod[0].publicKeyJwk.x`, where they are strings. -/
structure Document where
  id : Option String
  x : Option String
  deriving DecidableEq

/-- Third-party code, and the issuer's public key file if it can be read. -/
structure Platform where
  hashes : Hashes
  fromSlice : Bytes → Option Document
  parseUuid : String → Bool
  decodeBase64 : String → Option Bytes
  verify : Scheme → (publicKey signature message : Bytes) → Except VerifierError Bool
  issuerPubKey : Option Bytes

structure SignatureVerifierHandler where
  handleKeyBindingVerification : NodeId → Bytes → Except AuthHandlerError Bool
  handleSignatureVerification : Bytes → Except AuthHandlerError Bool
  handleUpdateVerification : (value oldValue authSignature : Bytes) → Except AuthHandlerError Bool
  handleIssuerNodeSignatureVerification : Bytes → Except AuthHandlerError Bool

/-- `unwrap_or(false)`. -/
def orFalse (r : Except AuthHandlerError Bool) : Bool :=
  match r with
  | .ok b => b
  | .error _ => false

@[simp] theorem orFalse_eq_true {r : Except AuthHandlerError Bool} :
    orFalse r = true ↔ r = .ok true := by
  cases r <;> simp [orFalse]

/-! ## The format -/

/-- The algorithm name in the first 12 bytes, null-padded on the right. -/
def getAlgString (value : Bytes) : Except AuthHandlerError String :=
  if value.length < 12 then .error .invalidFormat
  else
    let raw := value.take 12
    let name := raw.takeWhile (· ≠ 0)
    if (raw.drop name.length).any (· ≠ 0) then .error .invalidFormat
    else match String.fromUTF8? ⟨name.toArray⟩ with
      | some s => .ok s
      | none => .error .utf8

/-- A canonical algorithm name gives its scheme and signature length. -/
def resolveAlgAndLength (algorithm : String) : Except VerifierError (Scheme × Nat) :=
  if algorithm = "RSA" then .ok (.rsa, 256)
  else if algorithm = "Ed25519" then .ok (.ed25519, 64)
  else if algorithm = "Dilithium-2" then .ok (.dilithium, 2420)
  else if algorithm = "Dilithium-3" then .ok (.dilithium, 3293)
  else if algorithm = "Dilithium-5" then .ok (.dilithium, 4595)
  else .error (.unsupportedAlgorithm algorithm)

/-- `SignatureVerifierFactory::get_verifier`: the part before `-` decides. -/
def getVerifier (algorithm : String) : Except VerifierError Scheme :=
  let part := algorithm.toList.takeWhile (· ≠ '-')
  let base := String.ofList ((part.dropWhile Char.isWhitespace).reverse.dropWhile
    Char.isWhitespace).reverse
  if base = "RSA" then .ok .rsa
  else if base = "Ed25519" then .ok .ed25519
  else if base = "Dilithium" then .ok .dilithium
  else .error (.unsupportedAlgorithm base)

/-- Split a record into signature and data. -/
def extractSigAndData (value : Bytes) (sigLength : Nat) :
    Except AuthHandlerError (Bytes × Bytes) :=
  let dataStart := 12 + sigLength
  if value.length < dataStart then .error .invalidFormat
  else .ok ((value.take dataStart).drop 12, value.drop dataStart)

structure Record where
  algorithm : String
  signature : Bytes
  data : Bytes

/-- The first lines of every check: `get_alg_string`, `resolve_alg_and_length`
and `extract_sig_and_data`. -/
def splitRecord (value : Bytes) : Except AuthHandlerError Record := do
  let algorithm ← getAlgString value
  let (_, sigLength) ← (resolveAlgAndLength algorithm).mapError .crypto
  let (signature, data) ← extractSigAndData value sigLength
  return ⟨algorithm, signature, data⟩

def stripPrefix (start s : String) : Option String :=
  if start.toList.isPrefixOf s.toList then some (String.ofList (s.toList.drop start.toList.length))
  else none

/-- Decode a base64url string, with or without padding. -/
def decodeB64url (P : Platform) (key : String) : Except AuthHandlerError Bytes :=
  let stripped := String.ofList (key.toList.reverse.dropWhile (· = '=')).reverse
  match P.decodeBase64 stripped with
  | some bytes => .ok bytes
  | none => .error .base64

def parseDocument (P : Platform) (data : Bytes) : Except AuthHandlerError Document :=
  match P.fromSlice data with
  | some doc => .ok doc
  | none => .error .json

/-- The primary public key of a DID Document. -/
def publicKeyFromDidDoc (P : Platform) (data : Bytes) : Except AuthHandlerError Bytes := do
  let doc ← parseDocument P data
  match doc.x with
  | some x => decodeB64url P x
  | none => .error (.missingField "verificationMethod[0].publicKeyJwk.x")

/-- Does the record's DID Document carry the DID whose UUID hashes to `key`? -/
def didDocumentMatchesKey (P : Platform) (value : Bytes) (key : NodeId) :
    Except AuthHandlerError Bool := do
  let record ← splitRecord value
  let doc ← parseDocument P record.data
  match doc.id with
  | none => .error (.missingField "id")
  | some did =>
    match stripPrefix "did:iiot:" did with
    | none => .error .invalidDid
    | some uuid =>
      if P.parseUuid uuid then .ok (P.hashes.digest uuid = key) else .error .invalidDid

/-! ## The handler -/

def checkSignature (P : Platform) (algorithm : String) (publicKey signature message : Bytes) :
    Except AuthHandlerError Bool := do
  let scheme ← (getVerifier algorithm).mapError .crypto
  (P.verify scheme publicKey signature message).mapError .crypto

def verifySelfSigned (P : Platform) (value : Bytes) : Except AuthHandlerError Bool := do
  let record ← splitRecord value
  let pubKey ← publicKeyFromDidDoc P record.data
  checkSignature P record.algorithm pubKey record.signature record.data

def verifyKeyRotation (P : Platform) (newValue oldValue authSignature : Bytes) :
    Except AuthHandlerError Bool := do
  let old ← splitRecord oldValue
  let oldPubKey ← publicKeyFromDidDoc P old.data
  if !(← checkSignature P old.algorithm oldPubKey authSignature newValue) then return false
  verifySelfSigned P newValue

def loadIssuerPubKey (P : Platform) : Except AuthHandlerError Bytes :=
  match P.issuerPubKey with
  | some key => .ok key
  | none => .error .io

def verifyIssuerNode (P : Platform) (value : Bytes) : Except AuthHandlerError Bool := do
  let record ← splitRecord value
  let issuerPubKey ← loadIssuerPubKey P
  checkSignature P record.algorithm issuerPubKey record.signature record.data

def didSignatureVerifierHandler (P : Platform) : SignatureVerifierHandler where
  handleKeyBindingVerification := fun key value => didDocumentMatchesKey P value key
  handleSignatureVerification := verifySelfSigned P
  handleUpdateVerification := verifyKeyRotation P
  handleIssuerNodeSignatureVerification := verifyIssuerNode P

/-! ## What its answers mean -/

/-- `sig` over `message` verifies under the key inside the record `value`. -/
def SignedByKeyOf (P : Platform) (value sig message : Bytes) : Prop :=
  ∃ record pubKey, splitRecord value = .ok record ∧
    publicKeyFromDidDoc P record.data = .ok pubKey ∧
    checkSignature P record.algorithm pubKey sig message = .ok true

/-- The DID Document of `value` has the id `did:iiot:<uuid>`, and `key` is the
digest of that UUID. -/
def BoundTo (P : Platform) (key : NodeId) (value : Bytes) : Prop :=
  ∃ record doc uuid, splitRecord value = .ok record ∧ P.fromSlice record.data = some doc ∧
    doc.id = some ("did:iiot:" ++ uuid) ∧ P.parseUuid uuid = true ∧ P.hashes.digest uuid = key

/-- The record's own signature verifies under the key it contains. -/
def SelfSigned (P : Platform) (value : Bytes) : Prop :=
  ∃ record, splitRecord value = .ok record ∧ SignedByKeyOf P value record.signature record.data

/-- The record's signature verifies under the issuer's key. -/
def IssuerSigned (P : Platform) (value : Bytes) : Prop :=
  ∃ record pubKey, splitRecord value = .ok record ∧ P.issuerPubKey = some pubKey ∧
    checkSignature P record.algorithm pubKey record.signature record.data = .ok true

/-- `auth`, sent with `new`, verifies under the key inside `old`. -/
def Authorises (P : Platform) (old new auth : Bytes) : Prop := SignedByKeyOf P old auth new

theorem except_bind_ok {ε α β : Type} {x : Except ε α} {f : α → Except ε β} {b : β} :
    (x >>= f) = .ok b ↔ ∃ a, x = .ok a ∧ f a = .ok b := by
  cases x with
  | error e =>
    constructor
    · intro h
      cases h
    · rintro ⟨a, ha, -⟩
      cases ha
  | ok a =>
    constructor
    · exact fun h => ⟨a, rfl, h⟩
    · rintro ⟨a', ha, h⟩
      cases ha
      exact h

theorem stripPrefix_eq_some {start s t : String} (h : stripPrefix start s = some t) :
    s = start ++ t := by
  rw [stripPrefix] at h
  split at h
  · rename_i hp
    obtain ⟨rest, hrest⟩ := List.isPrefixOf_iff_prefix.mp hp
    rw [← Option.some.inj h]
    apply String.ext
    rw [String.toList_append, String.toList_ofList, ← hrest, List.drop_left]
  · cases h

theorem parseDocument_ok {P : Platform} {data : Bytes} {doc : Document}
    (h : parseDocument P data = .ok doc) : P.fromSlice data = some doc := by
  rw [parseDocument] at h
  split at h
  · rename_i parsed hparsed
    rw [hparsed, Except.ok.inj h]
  · cases h

variable {P : Platform} {key : NodeId} {value old auth : Bytes}

theorem boundTo_of_verified (h : didDocumentMatchesKey P value key = .ok true) :
    BoundTo P key value := by
  obtain ⟨record, hr, h⟩ := except_bind_ok.mp h
  obtain ⟨doc, hd, h⟩ := except_bind_ok.mp h
  split at h
  · cases h
  · rename_i did hdid
    split at h
    · cases h
    · rename_i uuid hu
      split at h
      · rename_i hparse
        refine ⟨record, doc, uuid, hr, parseDocument_ok hd, ?_, hparse, by simpa using h⟩
        rw [hdid, stripPrefix_eq_some hu]
      · cases h

theorem selfSigned_of_verified (h : verifySelfSigned P value = .ok true) : SelfSigned P value := by
  obtain ⟨record, hr, h⟩ := except_bind_ok.mp h
  obtain ⟨pubKey, hk, h⟩ := except_bind_ok.mp h
  exact ⟨record, hr, record, pubKey, hr, hk, h⟩

theorem issuerSigned_of_verified (h : verifyIssuerNode P value = .ok true) :
    IssuerSigned P value := by
  obtain ⟨record, hr, h⟩ := except_bind_ok.mp h
  obtain ⟨pubKey, hk, h⟩ := except_bind_ok.mp h
  refine ⟨record, pubKey, hr, ?_, h⟩
  rw [loadIssuerPubKey] at hk
  split at hk
  · rw [← Except.ok.inj hk]; assumption
  · cases hk

/-- **A verified rotation** is authorised by the old key, and self-signed. -/
theorem authorises_of_verified (h : verifyKeyRotation P value old auth = .ok true) :
    Authorises P old value auth ∧ SelfSigned P value := by
  obtain ⟨record, hr, h⟩ := except_bind_ok.mp h
  obtain ⟨pubKey, hk, h⟩ := except_bind_ok.mp h
  obtain ⟨ok, hc, h⟩ := except_bind_ok.mp h
  cases ok with
  | false => cases h
  | true => exact ⟨⟨record, pubKey, hr, hk, hc⟩, selfSigned_of_verified h⟩

/-! And such records pass. -/

theorem stripPrefix_append (start t : String) : stripPrefix start (start ++ t) = some t := by
  have hpre : start.toList.isPrefixOf (start ++ t).toList = true := by
    rw [String.toList_append]
    exact List.isPrefixOf_iff_prefix.mpr (List.prefix_append _ _)
  rw [stripPrefix, if_pos hpre, String.toList_append, List.drop_left, String.ofList_toList]

theorem BoundTo.verified (h : BoundTo P key value) :
    didDocumentMatchesKey P value key = .ok true := by
  obtain ⟨record, doc, uuid, hr, hd, hid, hu, hkey⟩ := h
  refine except_bind_ok.mpr ⟨record, hr, except_bind_ok.mpr ⟨doc, ?_, ?_⟩⟩
  · rw [parseDocument, hd]
  · simp only [hid, stripPrefix_append, hu, if_true, hkey, decide_true]

theorem SelfSigned.verified (h : SelfSigned P value) : verifySelfSigned P value = .ok true := by
  obtain ⟨record, hr, record', pubKey, hr', hk, hc⟩ := h
  obtain rfl : record = record' := Except.ok.inj (hr.symm.trans hr')
  exact except_bind_ok.mpr ⟨record, hr, except_bind_ok.mpr ⟨pubKey, hk, hc⟩⟩

theorem IssuerSigned.verified (h : IssuerSigned P value) : verifyIssuerNode P value = .ok true := by
  obtain ⟨record, pubKey, hr, hk, hc⟩ := h
  refine except_bind_ok.mpr ⟨record, hr, except_bind_ok.mpr ⟨pubKey, ?_, hc⟩⟩
  rw [loadIssuerPubKey, hk]

theorem Authorises.verified (h : Authorises P old value auth) (hs : SelfSigned P value) :
    verifyKeyRotation P value old auth = .ok true := by
  obtain ⟨record, pubKey, hr, hk, hc⟩ := h
  refine except_bind_ok.mpr ⟨record, hr, except_bind_ok.mpr ⟨pubKey, hk,
    except_bind_ok.mpr ⟨true, hc, ?_⟩⟩⟩
  exact hs.verified

/-- No UUID has the digest of the status list's name: a record bound to a key is
not the status list. -/
def StatusKeyApart (P : Platform) : Prop :=
  ∀ uuid, P.parseUuid uuid = true → P.hashes.digest uuid ≠ P.hashes.digest statusListKey

theorem BoundTo.ne_status (h : BoundTo P key value) (hP : StatusKeyApart P) :
    key ≠ P.hashes.digest statusListKey := by
  obtain ⟨-, -, uuid, -, -, -, hu, rfl⟩ := h
  exact hP uuid hu

/-- **A valid record for a key**, as a node must only store them. -/
def ValidFor (P : Platform) (key : NodeId) (value : Bytes) : Prop :=
  if key = P.hashes.digest statusListKey then IssuerSigned P value
  else BoundTo P key value ∧ SelfSigned P value

theorem validFor_of_bound (hb : BoundTo P key value) (hs : SelfSigned P value)
    (hP : StatusKeyApart P) : ValidFor P key value := by
  rw [ValidFor, if_neg (hb.ne_status hP)]
  exact ⟨hb, hs⟩

/-! ## Stand-ins to evaluate the model with -/

/-- A signature is by the key whose first byte it starts with; a document is one
byte, the key of `did:iiot:abc`. -/
def toyPlatform : Platform where
  hashes := toyHashes
  fromSlice := fun data => match data with
    | [k] => some ⟨some "did:iiot:abc", some (String.ofList [Char.ofNat k.toNat])⟩
    | _ => none
  parseUuid := fun s => s.length = 3
  decodeBase64 := fun s => some (s.toList.map fun c => UInt8.ofNat c.toNat)
  verify := fun _ key sig _ => .ok (sig.head? = key.head?)
  issuerPubKey := some [9]

/-- The record of `did:iiot:abc` with the key `k`, signed by it. -/
def toyRecord (k : UInt8) : Bytes :=
  [69, 100, 50, 53, 53, 49, 57, 0, 0, 0, 0, 0] ++ List.replicate 64 k ++ [k]

/-- A Status List signed by the issuer. -/
def toyStatusList (k : UInt8) : Bytes :=
  [69, 100, 50, 53, 53, 49, 57, 0, 0, 0, 0, 0] ++ List.replicate 64 9 ++ [k]

def toyKey : NodeId := toyHashes.digest "abc"

theorem statusKeyApart_toy : StatusKeyApart toyPlatform := by
  intro uuid hu heq
  have hlen : uuid.length = 3 := of_decide_eq_true hu
  have hbytes := congrArg NodeId.bytes heq
  simp only [toyPlatform, toyHashes, hlen] at hbytes
  exact absurd hbytes (by decide)

end AuthKademlia.AuthHandler
