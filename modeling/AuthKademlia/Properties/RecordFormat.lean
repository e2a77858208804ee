import AuthKademlia.AuthHandler

/-! # The record format is unambiguous

Every check of a record begins by splitting it. The split succeeds on exactly the byte
strings that are made of a canonical algorithm name, padded with nulls to 12 bytes, a
signature of the length for that algorithm and a document, and it returns these parts:
`splitRecord` and `Record.bytes` are inverse to each other on such records. -/
namespace AuthKademlia.Properties
open AuthKademlia.Utils AuthKademlia.AuthHandler

/-- The canonical algorithm names, with the lengths of their signatures. -/
def canonicalAlgorithms : List (String × Nat) :=
  [("RSA", 256), ("Ed25519", 64), ("Dilithium-2", 2420), ("Dilithium-3", 3293),
    ("Dilithium-5", 4595)]

def nameBytes (algorithm : String) : Bytes := algorithm.toUTF8.data.toList

/-- A name, null-padded on the right to 12 bytes. -/
def pad12 (algorithm : String) : Bytes :=
  nameBytes algorithm ++ List.replicate (12 - (nameBytes algorithm).length) 0

/-- The record as it is stored and sent. -/
def recordBytes (r : Record) : Bytes := pad12 r.algorithm ++ r.signature ++ r.data

/-- The algorithm is a canonical one, and the signature has its length. -/
def Canonical (r : Record) : Prop := (r.algorithm, r.signature.length) ∈ canonicalAlgorithms

variable {value rest : Bytes} {algorithm : String} {n : Nat}

/-! ## The header -/

theorem fromUTF8?_eq_some {bytes : ByteArray} :
    String.fromUTF8? bytes = some algorithm ↔ algorithm.toUTF8 = bytes := by
  unfold String.fromUTF8?
  constructor
  · intro h
    split at h
    · rw [← Option.some.inj h]
      rfl
    · cases h
  · rintro rfl
    rw [dif_pos (show algorithm.toUTF8.IsValidUTF8 from algorithm.isValidUTF8)]
    exact congrArg some (String.toByteArray_inj.mp rfl)

/-- Names without a null that fit into the header. -/
structure Fits (algorithm : String) : Prop where
  length : (nameBytes algorithm).length ≤ 12
  nonzero : ∀ b ∈ nameBytes algorithm, b ≠ 0

theorem Fits.length_pad12 (h : Fits algorithm) : (pad12 algorithm).length = 12 := by
  have hlen := h.length
  rw [pad12, List.length_append, List.length_replicate]
  omega

theorem Fits.takeWhile_pad12 (h : Fits algorithm) :
    (pad12 algorithm).takeWhile (· ≠ 0) = nameBytes algorithm := by
  have hzeros : (List.replicate (12 - (nameBytes algorithm).length) (0 : UInt8)).takeWhile
      (· ≠ 0) = [] := by
    cases 12 - (nameBytes algorithm).length <;> simp [List.replicate_succ]
  rw [pad12, List.takeWhile_append_of_pos fun b hb => decide_eq_true (h.nonzero b hb), hzeros,
    List.append_nil]

theorem Fits.getAlgString_pad12 (h : Fits algorithm) :
    getAlgString (pad12 algorithm ++ rest) = .ok algorithm := by
  have htake : (pad12 algorithm ++ rest).take 12 = pad12 algorithm :=
    List.take_left' h.length_pad12
  have hlong : ¬ (pad12 algorithm ++ rest).length < 12 := by
    rw [List.length_append, h.length_pad12]
    omega
  have hpadding : ((pad12 algorithm).drop (nameBytes algorithm).length).any (· ≠ 0) = false := by
    rw [pad12, List.drop_left]
    simp
  have hname : String.fromUTF8? ⟨(nameBytes algorithm).toArray⟩ = some algorithm :=
    fromUTF8?_eq_some.mpr rfl
  unfold getAlgString
  rw [if_neg hlong]
  simp only [htake, h.takeWhile_pad12, hpadding, Bool.false_eq_true, if_false, hname]

theorem take_of_getAlgString (h : getAlgString value = .ok algorithm) :
    12 ≤ value.length ∧ value.take 12 = pad12 algorithm := by
  unfold getAlgString at h
  split at h
  · cases h
  · rename_i hlong
    dsimp only at h
    generalize hname : (value.take 12).takeWhile (· ≠ 0) = name at h
    split at h
    · cases h
    · rename_i hpadding
      split at h
      · rename_i s hs
        rw [← Except.ok.inj h]
        have hbytes : nameBytes s = name := by
          rw [nameBytes, fromUTF8?_eq_some.mp hs]
        refine ⟨Nat.le_of_not_lt hlong, ?_⟩
        -- the name, and behind it nothing but nulls
        have hsplit : name ++ (value.take 12).drop name.length = value.take 12 := by
          have hpre : name <+: value.take 12 := hname ▸ List.takeWhile_prefix _
          obtain ⟨tail, htail⟩ := hpre
          rw [← htail, List.drop_left]
        have hnulls : (value.take 12).drop name.length = List.replicate (12 - name.length) 0 := by
          refine List.eq_replicate_iff.mpr ⟨?_, fun b hb => ?_⟩
          · rw [List.length_drop, List.length_take]
            omega
          · by_contra hne
            exact hpadding (List.any_eq_true.mpr ⟨b, hb, decide_eq_true hne⟩)
        rw [pad12, hbytes, ← hnulls, hsplit]
      · cases h

/-! ## The table of names -/

theorem resolveAlgAndLength_ok :
    (∃ scheme, resolveAlgAndLength algorithm = .ok (scheme, n)) ↔
      (algorithm, n) ∈ canonicalAlgorithms := by
  unfold resolveAlgAndLength canonicalAlgorithms
  constructor
  · rintro ⟨scheme, h⟩
    repeat' split at h
    all_goals cases h <;> simp [*]
  · intro h
    simp only [List.mem_cons, Prod.mk.injEq, List.not_mem_nil, or_false] at h
    rcases h with ⟨rfl, rfl⟩ | ⟨rfl, rfl⟩ | ⟨rfl, rfl⟩ | ⟨rfl, rfl⟩ | ⟨rfl, rfl⟩ <;>
      exact ⟨_, by simp; rfl⟩

theorem fits_of_canonical (h : (algorithm, n) ∈ canonicalAlgorithms) : Fits algorithm := by
  have hall : ∀ p ∈ canonicalAlgorithms,
      (nameBytes p.1).length ≤ 12 ∧ ∀ b ∈ nameBytes p.1, b ≠ 0 := by decide +kernel
  obtain ⟨hlen, hne⟩ := hall _ h
  exact ⟨hlen, hne⟩

/-! ## The whole record -/

/-- **Splitting and building are inverse to each other.** -/
theorem splitRecord_ok_iff {r : Record} :
    splitRecord value = .ok r ↔ Canonical r ∧ recordBytes r = value := by
  constructor
  · intro h
    obtain ⟨algorithm, halg, h⟩ := except_bind_ok.mp h
    obtain ⟨⟨scheme, len⟩, hlen, h⟩ := except_bind_ok.mp h
    obtain ⟨⟨signature, data⟩, hsplit, h⟩ := except_bind_ok.mp h
    have hresolve : resolveAlgAndLength algorithm = .ok (scheme, len) := by
      cases hres : resolveAlgAndLength algorithm with
      | error e => rw [hres] at hlen; cases hlen
      | ok p => rw [hres] at hlen; rw [Except.ok.inj hlen]
    have hcanonical := resolveAlgAndLength_ok.mp ⟨scheme, hresolve⟩
    obtain ⟨-, hheader⟩ := take_of_getAlgString halg
    unfold extractSigAndData at hsplit
    dsimp only at hsplit
    split at hsplit
    · cases hsplit
    · rename_i hlong
      obtain ⟨rfl, rfl⟩ := Prod.mk.inj (Except.ok.inj hsplit)
      obtain rfl := Except.ok.inj h
      refine ⟨?_, ?_⟩
      · show (algorithm, ((value.take (12 + len)).drop 12).length) ∈ canonicalAlgorithms
        rwa [List.length_drop, List.length_take, Nat.min_eq_left (Nat.le_of_not_lt hlong),
          Nat.add_sub_cancel_left]
      · show pad12 algorithm ++ (value.take (12 + len)).drop 12 ++ value.drop (12 + len) = value
        have hfirst : value.take 12 = (value.take (12 + len)).take 12 := by
          rw [List.take_take, Nat.min_eq_left (Nat.le_add_right 12 len)]
        rw [← hheader, hfirst, List.take_append_drop, List.take_append_drop]
  · rintro ⟨hcanonical, rfl⟩
    obtain ⟨algorithm, signature, data⟩ := r
    obtain ⟨scheme, hresolve⟩ := resolveAlgAndLength_ok.mpr hcanonical
    have hfits := fits_of_canonical hcanonical
    have hstart : (pad12 algorithm ++ signature).length = 12 + signature.length := by
      rw [List.length_append, hfits.length_pad12]
    refine except_bind_ok.mpr ⟨algorithm, ?_, except_bind_ok.mpr ⟨(scheme, signature.length), ?_,
      except_bind_ok.mpr ⟨(signature, data), ?_, rfl⟩⟩⟩
    · rw [recordBytes, List.append_assoc]
      exact hfits.getAlgString_pad12
    · rw [hresolve]
      rfl
    · have hlong : ¬ (recordBytes ⟨algorithm, signature, data⟩).length <
          12 + signature.length := by
        rw [recordBytes, List.length_append, hstart]
        omega
      unfold extractSigAndData
      dsimp only
      rw [if_neg hlong, recordBytes, List.take_left' hstart, List.drop_left' hstart,
        List.drop_left' hfits.length_pad12]

/-- **The record format is unambiguous.** A byte string splits if and only if it is a
canonical name padded to 12 bytes, a signature of the length for it, and data. The
parts are then the only ones it is made of, they build it again, and what is built of
such parts splits into them. So no two byte strings have the same parts. -/
theorem record_format_unambiguous :
    (∀ value, (∃ r, splitRecord value = .ok r) ↔
      ∃ algorithm len signature data, (algorithm, len) ∈ canonicalAlgorithms ∧
        signature.length = len ∧ value = pad12 algorithm ++ signature ++ data) ∧
    (∀ value r, splitRecord value = .ok r → recordBytes r = value ∧
      ∀ r', Canonical r' → recordBytes r' = value → r' = r) ∧
    (∀ r, Canonical r → splitRecord (recordBytes r) = .ok r) ∧
    ∀ value value' r, splitRecord value = .ok r → splitRecord value' = .ok r → value = value' := by
  refine ⟨fun value => ⟨?_, ?_⟩, fun value r h => ⟨?_, fun r' hr' hbytes => ?_⟩, fun r hr => ?_,
    fun value value' r h h' => ?_⟩
  · rintro ⟨r, h⟩
    obtain ⟨hcanonical, hbytes⟩ := splitRecord_ok_iff.mp h
    exact ⟨r.algorithm, _, r.signature, r.data, hcanonical, rfl, hbytes.symm⟩
  · rintro ⟨algorithm, len, signature, data, hmem, rfl, rfl⟩
    exact ⟨⟨algorithm, signature, data⟩, splitRecord_ok_iff.mpr ⟨hmem, rfl⟩⟩
  · exact (splitRecord_ok_iff.mp h).2
  · exact Except.ok.inj ((splitRecord_ok_iff.mpr ⟨hr', hbytes⟩).symm.trans h)
  · exact splitRecord_ok_iff.mpr ⟨hr, rfl⟩
  · rw [← (splitRecord_ok_iff.mp h).2, (splitRecord_ok_iff.mp h').2]

end AuthKademlia.Properties
