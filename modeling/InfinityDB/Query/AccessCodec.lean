import InfinityDB.Query.Access

/-!
# The codec of access programs

What the encoder writes is one form per access; the validator accepts the forms and nothing else, and
the decoder inverts them.
-/

namespace InfinityDB.Query

open Lib List

section Readers
variable {bytes t : Bytes} {pos : Nat}

theorem trustedVarint_of_drop {v : UInt64} (h : bytes.drop pos = encodeVarint v ++ t) :
    trustedVarint bytes pos = some (v, pos + (encodeVarint v).length) := by
  rw [trustedVarint, h, decodeVarint_encodeVarint]
  rfl

private theorem trustedRegion_of_drop {span : Bytes} (hlen : span.length < 2 ^ 64) (hpos : pos ≤ bytes.length)
    (h : bytes.drop pos = encodeVarint (UInt64.ofNat span.length) ++ (span ++ t)) :
    trustedRegion bytes pos = some (span, pos + (encodeVarint (UInt64.ofNat span.length) ++ span).length) := by
  have hnat : (UInt64.ofNat span.length).toNat = span.length := UInt64.toNat_ofNat_of_lt' hlen
  have hlength := congrArg List.length h
  rw [length_drop, length_append] at hlength
  have hregion := region_of_drop (by omega) (drop_past h rfl)
  rw [trustedRegion, trustedVarint_of_drop h, option_some_bind]
  simp only [hnat]
  rw [hregion, length_append, add_assoc]
  rfl

end Readers

def RangeEdge.Fits (keyType : IndexKeyType) : RangeEdge → Prop
  | unbounded => True
  | included bytes | excluded bytes => Access.edgeLenOk bytes.length keyType = true

def RangeEdge.form : RangeEdge → Bytes
  | unbounded => [edgeUnbounded]
  | included bytes => edgeIncluded :: Access.sized bytes
  | excluded bytes => edgeExcluded :: Access.sized bytes

def AccessStep.Fits : AccessStep → Prop
  | pkGet key => key ≠ [] ∧ key.length ≤ maxKeyLen ∧ validUtf8 key = true
  | indexRange index generation keyType lo hi => 1 ≤ index ∧ 1 ≤ generation ∧ lo.Fits keyType ∧ hi.Fits keyType
  | scan => True

def AccessStep.form : AccessStep → Bytes
  | pkGet key => stepPkGet :: Access.sized key
  | indexRange index generation keyType lo hi =>
    stepIndexRange :: (encodeVarint index.toUInt64 ++ (encodeVarint generation ++ (Access.keyTypeTag keyType :: (lo.form ++ hi.form))))
  | scan => [stepScan]

namespace Access

def form (access : Access) : Bytes := programOf access access.step.form

structure Encodable (access : Access) : Prop where
  limit : access.limit ≠ some 0
  count : access.projection = .count → access.limit = none
  step : access.step.Fits
  length : access.form.length < accessProgramBytesCeiling

variable {bytes : Bytes}

private theorem encodeEdge_eq_ok {keyType : IndexKeyType} {edge : RangeEdge} :
    encodeEdge keyType edge = .ok bytes ↔ edge.Fits keyType ∧ bytes = edge.form := by
  cases edge with
  | unbounded => simp [encodeEdge, RangeEdge.Fits, RangeEdge.form, eq_comm]
  | included span | excluded span =>
    rw [encodeEdge, RangeEdge.Fits, RangeEdge.form]
    split
    next h => simp [h, eq_comm]
    next h => simp [h]

private theorem encodeStep_eq_ok {step : AccessStep} : encodeStep step = some (.ok bytes) ↔ step.Fits ∧ bytes = step.form := by
  cases step with
  | pkGet key =>
    rw [encodeStep, AccessStep.Fits, AccessStep.form]
    split
    next h =>
      simp only [Option.some.injEq, reduceCtorEq, false_iff]
      rintro ⟨⟨hne, hle, -⟩, -⟩
      exact h.elim hne (Nat.not_lt.mpr hle)
    next h =>
      obtain ⟨hne, hle⟩ := not_or.mp h
      split
      next hutf8 => simp [hne, Nat.not_lt.mp hle, hutf8, eq_comm]
      next hutf8 => simp [hutf8]
  | indexRange index generation keyType lo hi =>
    rw [encodeStep, AccessStep.Fits, AccessStep.form]
    split
    next h =>
      rw [Option.some.injEq]
      constructor
      · intro hok
        obtain ⟨loBytes, hlo, hok⟩ := except_bind_ok hok
        obtain ⟨hiBytes, hhi, hok⟩ := except_bind_ok hok
        obtain ⟨hloFits, rfl⟩ := encodeEdge_eq_ok.mp hlo
        obtain ⟨hhiFits, rfl⟩ := encodeEdge_eq_ok.mp hhi
        exact ⟨⟨h.1, h.2, hloFits, hhiFits⟩, (Except.ok.inj hok).symm⟩
      · rintro ⟨⟨-, -, hlo, hhi⟩, rfl⟩
        rw [encodeEdge_eq_ok.mpr ⟨hlo, rfl⟩, except_ok_bind, encodeEdge_eq_ok.mpr ⟨hhi, rfl⟩, except_ok_bind]
    next h =>
      simp only [reduceCtorEq, false_iff]
      rintro ⟨⟨hindex, hgeneration, -⟩, -⟩
      exact h ⟨hindex, hgeneration⟩
  | scan => simp [encodeStep, AccessStep.Fits, AccessStep.form, eq_comm]

private theorem checkLimit_eq_ok {projection : Projection} {limit : Option UInt32} :
    checkLimit projection limit = .ok () ↔ limit ≠ some 0 ∧ (projection = .count → limit = none) := by
  cases projection <;> cases limit <;> simp [checkLimit]

private theorem encode_eq_ok {access : Access} : encode access = some (.ok bytes) ↔ access.Encodable ∧ bytes = access.form := by
  rw [encode]
  constructor
  · intro hok
    split at hok
    case h_4 step hlimit hstep =>
      obtain ⟨hfits, rfl⟩ := encodeStep_eq_ok.mp hstep
      obtain ⟨hzero, hcount⟩ := checkLimit_eq_ok.mp hlimit
      simp only at hok
      split at hok
      · simp at hok
      rename_i hlength
      exact ⟨⟨hzero, hcount, hfits, Nat.not_le.mp hlength⟩, by simpa [form, eq_comm] using hok⟩
    all_goals simp at hok
  · rintro ⟨h, rfl⟩
    rw [checkLimit_eq_ok.mpr ⟨h.limit, h.count⟩, encodeStep_eq_ok.mpr ⟨h.step, rfl⟩]
    exact if_neg (Nat.not_le.mpr h.length)

theorem verr_ne_ok {α : Type} {kind : AccessErrorKind} {offset : Nat} {a : α} : verr kind offset ≠ .ok a := nofun

section Fields

variable {bytes t : Bytes} {pos : Nat}

variable {v : UInt64} {next : Nat} {tag : UInt8} {span : Bytes}

theorem validateVarint_of_drop (h : bytes.drop pos = encodeVarint v ++ t) :
    validateVarint bytes pos = .ok (v, pos + (encodeVarint v).length) := by
  rw [validateVarint, h, decodeVarint_encodeVarint]

theorem of_validateVarint (h : validateVarint bytes pos = .ok (v, next)) :
    bytes.drop pos = encodeVarint v ++ bytes.drop next := by
  rw [validateVarint] at h
  split at h
  · exact absurd h verr_ne_ok
  rename_i value used hdecode
  obtain ⟨rest, hdrop, hused⟩ := encodeVarint_of_decodeVarint hdecode
  cases h
  rw [drop_past hdrop hused.symm, hdrop]

theorem validateTag_of_drop {allowed : List UInt8} (hmem : tag ∈ allowed) (h : bytes.drop pos = tag :: t) :
    validateTag bytes allowed pos = .ok (tag, pos + 1) := by
  rw [validateTag, getElem?_of_drop h]
  exact if_pos hmem

theorem of_validateTag {allowed : List UInt8} (h : validateTag bytes allowed pos = .ok (tag, next)) :
    tag ∈ allowed ∧ bytes.drop pos = tag :: bytes.drop next := by
  rw [validateTag] at h
  split at h
  · exact absurd h verr_ne_ok
  rename_i tag' htag
  obtain ⟨hmem, h⟩ := check_ok h
  cases h
  exact ⟨hmem, drop_of_getElem? htag⟩

/-- Where the bytes of a sized span start, and that they are there. -/
theorem sized_of_drop (hsize : bytes.length < 2 ^ 64) (h : bytes.drop pos = sized span ++ t) :
    (UInt64.ofNat span.length).toNat = span.length ∧
      bytes.drop pos = encodeVarint (UInt64.ofNat span.length) ++ (span ++ t) ∧
      pos + (encodeVarint (UInt64.ofNat span.length)).length ≤ bytes.length := by
  have hlength := congrArg List.length h
  have hvarint := (encodeVarint_length (UInt64.ofNat span.length)).1
  rw [sized, append_assoc] at h
  rw [length_drop, length_append, sized, length_append] at hlength
  have hspan : span.length < 2 ^ 64 := by omega
  exact ⟨UInt64.toNat_ofNat_of_lt' hspan, h, add_length_le_of_drop (ne_nil_of_length_pos hvarint) h⟩

theorem validateRegion_of_drop (hsize : bytes.length < 2 ^ 64) (h : bytes.drop pos = sized span ++ t) :
    validateRegion bytes pos = .ok (span, pos + (sized span).length) := by
  obtain ⟨hnat, hdrop, hle⟩ := sized_of_drop hsize h
  rw [validateRegion, validateVarint_of_drop hdrop, except_ok_bind]
  simp only [hnat]
  rw [region_of_drop hle (drop_add_of_drop hdrop), sized, length_append, add_assoc]

theorem of_validateRegion (h : validateRegion bytes pos = .ok (span, next)) :
    bytes.drop pos = sized span ++ bytes.drop next := by
  rw [validateRegion] at h
  obtain ⟨⟨len, start⟩, hvarint, h⟩ := except_bind_ok h
  have hdrop := of_validateVarint hvarint
  simp only at h
  split at h
  · exact absurd h verr_ne_ok
  rename_i span' hregion
  cases h
  obtain ⟨hspan, hlen, -⟩ := drop_of_region hregion
  rw [sized, hlen, UInt64.ofNat_toNat, append_assoc, ← hspan]
  exact hdrop

theorem sizedRegion_of_drop (hsize : bytes.length < 2 ^ 64) (h : bytes.drop pos = sized span ++ t) :
    trustedRegion bytes pos = some (span, pos + (sized span).length) := by
  obtain ⟨hnat, hdrop, hle⟩ := sized_of_drop hsize h
  have hspan : span.length < 2 ^ 64 := by
    rw [← hnat]
    exact UInt64.toNat_lt _
  exact trustedRegion_of_drop hspan (by omega) hdrop

theorem readVarint32_of_drop {v : UInt32} (h : bytes.drop pos = encodeVarint v.toUInt64 ++ t) :
    readVarint32 bytes pos = some (v, pos + (encodeVarint v.toUInt64).length) := by
  have hlt : v.toUInt64.toNat < 2 ^ 32 := by
    rw [UInt32.toNat_toUInt64]
    exact v.toNat_lt
  rw [readVarint32, trustedVarint_of_drop h, option_some_bind]
  simp only [if_pos hlt, UInt32.toUInt32_toUInt64]

/-- A word that fits the narrow type is the widening of one. -/
theorem exists_toUInt64 (h : ¬ 2 ^ 32 ≤ v.toNat) : ∃ w : UInt32, w.toUInt64 = v := by
  refine ⟨v.toUInt32, UInt64.toNat_inj.mp ?_⟩
  rw [UInt32.toNat_toUInt64, UInt64.toNat_toUInt32]
  exact Nat.mod_eq_of_lt (Nat.not_le.mp h)

theorem decodeKeyType_tag (keyType : IndexKeyType) : decodeKeyType (keyTypeTag keyType) = some keyType := by
  cases keyType <;> rfl

private theorem tag_of_decodeKeyType {keyType : IndexKeyType} (h : decodeKeyType tag = some keyType) : keyTypeTag keyType = tag := by
  rw [decodeKeyType] at h
  split_ifs at h with h1 h2 h3 h4
  all_goals
    rw [← Option.some.inj h]
    exact Eq.symm ‹_›

end Fields

section Edges

variable {bytes t : Bytes} {pos : Nat} {keyType : IndexKeyType}

private theorem validateEdge_of_drop {edge : RangeEdge} (hsize : bytes.length < 2 ^ 64) (hfits : edge.Fits keyType)
    (h : bytes.drop pos = edge.form ++ t) :
    validateEdge bytes keyType pos = .ok (pos + edge.form.length) := by
  cases edge with
  | unbounded =>
    rw [validateEdge, validateTag_of_drop (by decide) h]
    rfl
  | included span | excluded span =>
    rw [RangeEdge.Fits] at hfits
    rw [validateEdge, validateTag_of_drop (by decide) h, except_ok_bind]
    simp only
    rw [if_neg (by decide), validateRegion_of_drop hsize (drop_succ_of_drop h), except_ok_bind]
    simp only
    rw [if_pos hfits, RangeEdge.form, length_cons]
    congr 1
    omega

private theorem of_validateEdge {next : Nat} (h : validateEdge bytes keyType pos = .ok next) :
    ∃ edge : RangeEdge, edge.Fits keyType ∧ bytes.drop pos = edge.form ++ bytes.drop next := by
  rw [validateEdge] at h
  obtain ⟨⟨tag, edgeAt⟩, htag, h⟩ := except_bind_ok h
  obtain ⟨hmem, hdrop⟩ := of_validateTag htag
  simp only at h
  split at h
  next hzero =>
    cases h
    exact ⟨.unbounded, trivial, by rw [hdrop, hzero]; rfl⟩
  rename_i hne
  obtain ⟨⟨span, next'⟩, hregion, h⟩ := except_bind_ok h
  have hspan := of_validateRegion hregion
  simp only at h
  obtain ⟨hlen, h⟩ := check_ok h
  cases h
  simp only [mem_cons, not_mem_nil, or_false] at hmem
  rcases hmem with rfl | rfl | rfl
  · exact absurd rfl hne
  · exact ⟨.included span, hlen, by rw [hdrop, hspan]; rfl⟩
  · exact ⟨.excluded span, hlen, by rw [hdrop, hspan]; rfl⟩

private theorem decodeEdge_of_drop {edge : RangeEdge} (hsize : bytes.length < 2 ^ 64) (h : bytes.drop pos = edge.form ++ t) :
    decodeEdge bytes pos = some (edge, pos + edge.form.length) := by
  cases edge with
  | unbounded =>
    rw [decodeEdge, getElem?_of_drop h]
    rfl
  | included span =>
    rw [decodeEdge, getElem?_of_drop h, option_some_bind, if_neg (by decide), if_pos rfl, sizedRegion_of_drop hsize (drop_succ_of_drop h),
      option_some_bind, RangeEdge.form, length_cons, add_assoc, add_comm 1]
  | excluded span =>
    rw [decodeEdge, getElem?_of_drop h, option_some_bind, if_neg (by decide), if_neg (by decide),
      sizedRegion_of_drop hsize (drop_succ_of_drop h), option_some_bind, RangeEdge.form, length_cons, add_assoc, add_comm 1]

end Edges

section Steps

variable {bytes t : Bytes} {pos : Nat}

private theorem one_le_toUInt64 {index : UInt32} (h : 1 ≤ index) : ¬ (index.toUInt64 = 0 ∨ 2 ^ 32 ≤ index.toUInt64.toNat) := by
  have hpos := UInt32.le_iff_toNat_le.mp h
  have hlt := index.toNat_lt
  rw [← UInt64.toNat_inj, UInt32.toNat_toUInt64]
  simp only [UInt32.toNat_one, UInt64.toNat_zero] at hpos ⊢
  omega

private theorem one_le_of_widened {index : UInt32} (h : index.toUInt64 ≠ 0) : 1 ≤ index := by
  rw [UInt32.le_iff_toNat_le]
  rw [Ne, ← UInt64.toNat_inj, UInt32.toNat_toUInt64] at h
  simp only [UInt64.toNat_zero, UInt32.toNat_one] at h ⊢
  omega

private theorem one_le_of_ne_zero {v : UInt64} (h : v ≠ 0) : 1 ≤ v := by
  rw [UInt64.le_iff_toNat_le]
  rw [Ne, ← UInt64.toNat_inj] at h
  simp only [UInt64.toNat_zero, UInt64.toNat_one] at h ⊢
  omega

/-- The bytes of a range after its tag. -/
def rangeForm (index : UInt32) (generation : UInt64) (keyType : IndexKeyType) (lo hi : RangeEdge) : Bytes :=
  encodeVarint index.toUInt64 ++ (encodeVarint generation ++ (keyTypeTag keyType :: (lo.form ++ hi.form)))

section Range

variable {index : UInt32} {generation : UInt64} {keyType : IndexKeyType} {lo hi : RangeEdge}

/-- Where the fields of a range stand. -/
structure RangeAt (bytes : Bytes) (pos : Nat) (index : UInt32) (generation : UInt64) (keyType : IndexKeyType)
    (lo hi : RangeEdge) (t : Bytes) :
    Prop where
  indexAt : bytes.drop pos = encodeVarint index.toUInt64 ++ (encodeVarint generation ++ (keyTypeTag keyType :: (lo.form ++ (hi.form ++ t))))
  generationAt : bytes.drop (pos + (encodeVarint index.toUInt64).length) =
    encodeVarint generation ++ (keyTypeTag keyType :: (lo.form ++ (hi.form ++ t)))
  keyTypeAt : bytes.drop (pos + (encodeVarint index.toUInt64).length + (encodeVarint generation).length) =
    keyTypeTag keyType :: (lo.form ++ (hi.form ++ t))
  loAt : bytes.drop (pos + (encodeVarint index.toUInt64).length + (encodeVarint generation).length + 1) = lo.form ++ (hi.form ++ t)
  hiAt : bytes.drop (pos + (encodeVarint index.toUInt64).length + (encodeVarint generation).length + 1 + lo.form.length) = hi.form ++ t

theorem rangeAt_of_drop (h : bytes.drop pos = rangeForm index generation keyType lo hi ++ t) :
    RangeAt bytes pos index generation keyType lo hi t := by
  rw [rangeForm, append_assoc, append_assoc, cons_append, append_assoc] at h
  have hgeneration := drop_add_of_drop h
  have hkeyType := drop_add_of_drop hgeneration
  have hlo := drop_succ_of_drop hkeyType
  exact ⟨h, hgeneration, hkeyType, hlo, drop_add_of_drop hlo⟩

theorem rangeForm_length (pos : Nat) : pos + (rangeForm index generation keyType lo hi).length =
      pos + (encodeVarint index.toUInt64).length + (encodeVarint generation).length + 1 + lo.form.length + hi.form.length := by
  simp only [rangeForm, length_append, length_cons]
  omega

private theorem keyTypeTag_mem (keyType : IndexKeyType) : keyTypeTag keyType ∈ [keyTypeUtf8, keyTypeI64, keyTypeF64, keyTypeBool] := by
  cases keyType <;> decide

private theorem validateIndexRange_of_drop (hsize : bytes.length < 2 ^ 64) (hindex : 1 ≤ index)
    (hgeneration : 1 ≤ generation) (hlo : lo.Fits keyType)
    (hhi : hi.Fits keyType) (h : bytes.drop pos = rangeForm index generation keyType lo hi ++ t) :
    validateIndexRange bytes pos = .ok (pos + (rangeForm index generation keyType lo hi).length) := by
  have hrange := rangeAt_of_drop h
  have hgenerationNe : generation ≠ 0 := by
    rintro rfl
    exact absurd hgeneration (by decide)
  rw [validateIndexRange, validateVarint_of_drop hrange.indexAt, except_ok_bind]
  simp only [if_neg (one_le_toUInt64 hindex)]
  rw [validateVarint_of_drop hrange.generationAt, except_ok_bind]
  simp only [if_neg hgenerationNe]
  rw [validateTag_of_drop (keyTypeTag_mem keyType) hrange.keyTypeAt, except_ok_bind]
  simp only [decodeKeyType_tag]
  rw [validateEdge_of_drop hsize hlo hrange.loAt, except_ok_bind, validateEdge_of_drop hsize hhi hrange.hiAt, rangeForm_length]

private theorem of_validateIndexRange {next : Nat} (h : validateIndexRange bytes pos = .ok next) :
    ∃ index generation keyType lo hi, (AccessStep.indexRange index generation keyType lo hi).Fits ∧
      bytes.drop pos = rangeForm index generation keyType lo hi ++ bytes.drop next := by
  rw [validateIndexRange] at h
  obtain ⟨⟨id, pos₁⟩, hid, h⟩ := except_bind_ok h
  simp only at h
  obtain ⟨hidFits, h⟩ := guard_ok h
  obtain ⟨hidNe, hidLt⟩ := not_or.mp hidFits
  obtain ⟨⟨generation, pos₂⟩, hgeneration, h⟩ := except_bind_ok h
  simp only at h
  obtain ⟨hgenerationNe, h⟩ := guard_ok h
  obtain ⟨⟨tag, pos₃⟩, htag, h⟩ := except_bind_ok h
  obtain ⟨-, htagDrop⟩ := of_validateTag htag
  simp only at h
  split at h
  · exact absurd h verr_ne_ok
  rename_i keyType hkeyType
  obtain ⟨pos₄, hlo, hhi⟩ := except_bind_ok h
  obtain ⟨lo, hloFits, hloDrop⟩ := of_validateEdge hlo
  obtain ⟨hi, hhiFits, hhiDrop⟩ := of_validateEdge hhi
  obtain ⟨index, rfl⟩ := exists_toUInt64 hidLt
  refine ⟨index, generation, keyType, lo, hi, ⟨one_le_of_widened hidNe, one_le_of_ne_zero hgenerationNe, hloFits, hhiFits⟩, ?_⟩
  rw [of_validateVarint hid, of_validateVarint hgeneration, htagDrop, ← tag_of_decodeKeyType hkeyType, hloDrop, hhiDrop, rangeForm]
  simp only [append_assoc, cons_append]

theorem decodeIndexRange_of_drop (hsize : bytes.length < 2 ^ 64) (h : bytes.drop pos = rangeForm index generation keyType lo hi ++ t) :
    decodeIndexRange bytes pos = some (.indexRange index generation keyType lo hi,
      pos + (rangeForm index generation keyType lo hi).length) := by
  have hrange := rangeAt_of_drop h
  rw [decodeIndexRange, readVarint32_of_drop hrange.indexAt, option_some_bind]
  simp only
  rw [trustedVarint_of_drop hrange.generationAt, option_some_bind]
  simp only
  rw [getElem?_of_drop hrange.keyTypeAt, option_some_bind, decodeKeyType_tag, option_some_bind, decodeEdge_of_drop hsize hrange.loAt,
    option_some_bind]
  simp only
  rw [decodeEdge_of_drop hsize hrange.hiAt, option_some_bind, rangeForm_length]

end Range

theorem validateStep_of_drop {step : AccessStep} (hsize : bytes.length < 2 ^ 64) (hfits : step.Fits) (h : bytes.drop pos = step.form ++ t) :
    validateStep bytes pos = .ok (pos + step.form.length) := by
  cases step with
  | pkGet key =>
    obtain ⟨hne, hle, hutf8⟩ := hfits
    have hkey : ¬ (key = [] ∨ maxKeyLen < key.length ∨ validUtf8 key = false) := by
      simp [hne, hutf8, Nat.not_lt.mpr hle]
    rw [validateStep, validateTag_of_drop (by decide) h, except_ok_bind]
    simp only [if_true]
    rw [validateKey, validateRegion_of_drop hsize (drop_succ_of_drop h), except_ok_bind]
    simp only [if_neg hkey]
    rw [AccessStep.form, length_cons, add_assoc, add_comm 1]
  | indexRange index generation keyType lo hi =>
    obtain ⟨hindex, hgeneration, hlo, hhi⟩ := hfits
    rw [validateStep, validateTag_of_drop (by decide) h, except_ok_bind]
    simp only [if_true]
    rw [if_neg (by decide), validateIndexRange_of_drop hsize hindex hgeneration hlo hhi (drop_succ_of_drop h), AccessStep.form,
      length_cons, add_assoc, add_comm 1]
    rfl
  | scan =>
    rw [validateStep, validateTag_of_drop (by decide) h, except_ok_bind]
    rfl

private theorem of_validateStep {next : Nat} (h : validateStep bytes pos = .ok next) :
    ∃ step : AccessStep, step.Fits ∧ bytes.drop pos = step.form ++ bytes.drop next := by
  rw [validateStep] at h
  obtain ⟨⟨tag, pos₁⟩, htag, h⟩ := except_bind_ok h
  obtain ⟨hmem, hdrop⟩ := of_validateTag htag
  simp only [mem_cons, not_mem_nil, or_false] at h hmem
  rcases hmem with rfl | rfl | rfl
  · rw [if_pos rfl, validateKey] at h
    obtain ⟨⟨key, next'⟩, hregion, h⟩ := except_bind_ok h
    have hkey := of_validateRegion hregion
    simp only at h
    obtain ⟨hfits, h⟩ := guard_ok h
    simp only [not_or, Nat.not_lt, Bool.not_eq_false] at hfits
    cases h
    exact ⟨.pkGet key, hfits, by rw [hdrop, hkey]; rfl⟩
  · rw [if_neg (by decide), if_pos rfl] at h
    obtain ⟨index, generation, keyType, lo, hi, hfits, hrange⟩ := of_validateIndexRange h
    exact ⟨.indexRange index generation keyType lo hi, hfits, by rw [hdrop, hrange]; rfl⟩
  · rw [if_neg (by decide), if_neg (by decide)] at h
    cases h
    exact ⟨.scan, trivial, hdrop⟩

private theorem decodeStep_of_drop {step : AccessStep} (hsize : bytes.length < 2 ^ 64) (h : bytes.drop pos = step.form ++ t) :
    decodeStep bytes pos = some (step, pos + step.form.length) := by
  cases step with
  | pkGet key =>
    rw [decodeStep, getElem?_of_drop h, option_some_bind, if_pos rfl, sizedRegion_of_drop hsize (drop_succ_of_drop h), option_some_bind,
      AccessStep.form, length_cons, add_assoc, add_comm 1]
  | indexRange index generation keyType lo hi =>
    rw [decodeStep, getElem?_of_drop h, option_some_bind, if_neg (by decide), if_pos rfl,
      decodeIndexRange_of_drop hsize (drop_succ_of_drop h),
      AccessStep.form, length_cons, add_assoc, add_comm 1]
    rfl
  | scan =>
    rw [decodeStep, getElem?_of_drop h]
    rfl

end Steps

private theorem fromBytes_program (program : PredicateProgram) : (PredicateProgram.fromBytes program.bytes).toOption = some program := by
  rw [PredicateProgram.fromBytes]
  split
  · rfl
  next e he => exact absurd (program.valid.symm.trans he) (by simp)

private theorem program_ne_nil (program : PredicateProgram) : program.bytes ≠ [] := by
  intro hnil
  have := program.valid
  rw [hnil] at this
  exact absurd this (by decide)

private theorem validateResidual_of_drop {t : Bytes} {pos : Nat} (residual : Option PredicateProgram) (hsize : bytes.length < 2 ^ 64)
    (h : bytes.drop pos = sized (residualBytes residual) ++ t) :
    validateResidual bytes pos = .ok (pos + (sized (residualBytes residual)).length) := by
  have hvalid : ¬ (residualBytes residual ≠ [] ∧ Query.validate (residualBytes residual) ≠ .ok ()) := by
    cases residual with
    | none => exact fun h => h.1 rfl
    | some program => exact fun h => h.2 program.valid
  rw [validateResidual, validateRegion_of_drop hsize h, except_ok_bind]
  simp only [if_neg hvalid]

private theorem of_validateResidual {pos next : Nat} (h : validateResidual bytes pos = .ok next) :
    ∃ residual, bytes.drop pos = sized (residualBytes residual) ++ bytes.drop next := by
  rw [validateResidual] at h
  obtain ⟨⟨span, next'⟩, hregion, h⟩ := except_bind_ok h
  have hdrop := of_validateRegion hregion
  simp only at h
  obtain ⟨hvalid, h⟩ := guard_ok h
  cases h
  by_cases hnil : span = []
  · exact ⟨none, by rw [hdrop, hnil]; rfl⟩
  · have hspan : Query.validate span = .ok () := by
      by_contra hne
      exact hvalid ⟨hnil, hne⟩
    exact ⟨some ⟨span, hspan⟩, hdrop⟩

private theorem decodeResidual_bytes (residual : Option PredicateProgram) : decodeResidual (residualBytes residual) = some residual := by
  cases residual with
  | none => rfl
  | some program =>
    rw [decodeResidual, residualBytes, if_neg (program_ne_nil program), fromBytes_program]
    rfl

theorem limit_getD {limit : Option UInt32} (h : limit ≠ some 0) : (if limit.getD 0 = 0 then none else some (limit.getD 0)) = limit := by
  cases limit with
  | none => rfl
  | some v => exact if_neg fun hzero => h (congrArg some hzero)

private theorem projectionTag_mem (projection : Projection) : projectionTag projection ∈ [projectDocuments, projectCount] := by
  cases projection <;> decide

theorem projectionTag_count {projection : Projection} : projectionTag projection = projectCount ↔ projection = .count := by
  cases projection <;> decide

theorem reads_form {access : Access} (h : access.Encodable) : validate access.form = .ok () ∧ decode access.form = some access := by
  have hsize : access.form.length < 2 ^ 64 := h.length.trans (by decide)
  have hns : access.form.drop 2 = encodeVarint access.ns.toUInt64 ++ (projectionTag access.projection ::
      (encodeVarint (access.limit.getD 0).toUInt64 ++ (access.step.form ++ sized (residualBytes access.residual)))) := rfl
  have hprojection := drop_add_of_drop hns
  have hlimit := drop_succ_of_drop hprojection
  have hstep := drop_add_of_drop hlimit
  have hresidual := drop_add_of_drop hstep
  rw [← append_nil (sized _)] at hresidual
  constructor
  · have hnsLt : ¬ 2 ^ 32 ≤ access.ns.toUInt64.toNat := by
      rw [UInt32.toNat_toUInt64]
      exact Nat.not_le.mpr access.ns.toNat_lt
    have hlimitFits : ¬ (2 ^ 32 ≤ (access.limit.getD 0).toUInt64.toNat ∨
        (projectionTag access.projection = projectCount ∧ (access.limit.getD 0).toUInt64 ≠ 0)) := by
      rw [UInt32.toNat_toUInt64, not_or]
      refine ⟨Nat.not_le.mpr (UInt32.toNat_lt _), ?_⟩
      rintro ⟨hcount, hne⟩
      rw [h.count (projectionTag_count.mp hcount)] at hne
      exact hne rfl
    have hend : ¬ (2 + (encodeVarint access.ns.toUInt64).length + 1 + (encodeVarint (access.limit.getD 0).toUInt64).length +
        access.step.form.length + (sized (residualBytes access.residual)).length ≠ access.form.length) := by
      simp only [form, programOf, length_cons, length_append, ne_eq, not_not]
      omega
    change (if accessProgramBytesCeiling ≤ access.form.length then _ else _) = _
    rw [if_neg (Nat.not_le.mpr h.length), if_neg (not_not.mpr rfl), if_neg (not_not.mpr rfl), validateVarint_of_drop hns, except_ok_bind]
    simp only [if_neg hnsLt]
    rw [validateTag_of_drop (projectionTag_mem _) hprojection, except_ok_bind]
    simp only
    rw [validateVarint_of_drop hlimit, except_ok_bind]
    simp only [if_neg hlimitFits]
    rw [validateStep_of_drop hsize h.step hstep, except_ok_bind, validateResidual_of_drop _ hsize hresidual, except_ok_bind, if_neg hend]
  · have hcount : (if projectionTag access.projection = projectCount then Projection.count else .documents) = access.projection := by
      cases access.projection <;> rfl
    rw [decode, readVarint32_of_drop hns, option_some_bind]
    simp only
    rw [getElem?_of_drop hprojection, option_some_bind, readVarint32_of_drop hlimit, option_some_bind]
    simp only
    rw [decodeStep_of_drop hsize hstep, option_some_bind]
    simp only
    rw [sizedRegion_of_drop hsize hresidual, option_some_bind]
    simp only
    rw [decodeResidual_bytes, option_some_bind, limit_getD h.limit, hcount]

private theorem exists_projection {tag : UInt8} (h : tag ∈ [projectDocuments, projectCount]) :
    ∃ projection, projectionTag projection = tag := by
  simp only [mem_cons, not_mem_nil, or_false] at h
  rcases h with rfl | rfl
  · exact ⟨.documents, rfl⟩
  · exact ⟨.count, rfl⟩

theorem exists_limit (v : UInt32) : ∃ limit : Option UInt32, limit ≠ some 0 ∧ limit.getD 0 = v ∧ (v = 0 → limit = none) := by
  by_cases hzero : v = 0
  · exact ⟨none, by simp, hzero.symm, fun _ => rfl⟩
  · exact ⟨some v, by simpa using hzero, rfl, fun h => absurd h hzero⟩

private theorem of_validate (h : validate bytes = .ok ()) : ∃ access : Access, access.Encodable ∧ bytes = access.form := by
  unfold validate at h
  split at h
  case h_2 => exact absurd h verr_ne_ok
  rename_i version flags rest
  obtain ⟨hlength, h⟩ := guard_ok h
  obtain ⟨hversion, h⟩ := guard_ok h
  obtain ⟨hflags, h⟩ := guard_ok h
  rw [not_not] at hversion hflags
  obtain ⟨⟨ns, pos₁⟩, hns, h⟩ := except_bind_ok h
  simp only at h
  split at h
  · exact absurd h verr_ne_ok
  rename_i hnsLt
  obtain ⟨ns, rfl⟩ := exists_toUInt64 hnsLt
  obtain ⟨⟨tag, pos₂⟩, htag, h⟩ := except_bind_ok h
  obtain ⟨hmem, htagDrop⟩ := of_validateTag htag
  obtain ⟨projection, rfl⟩ := exists_projection hmem
  obtain ⟨⟨raw, pos₃⟩, hraw, h⟩ := except_bind_ok h
  simp only at h
  split at h
  · exact absurd h verr_ne_ok
  rename_i hrawFits
  obtain ⟨hrawLt, hcount⟩ := not_or.mp hrawFits
  obtain ⟨v, rfl⟩ := exists_toUInt64 hrawLt
  obtain ⟨limit, hlimit, rfl, hnone⟩ := exists_limit v
  obtain ⟨pos₄, hstep, h⟩ := except_bind_ok h
  obtain ⟨step, hfits, hstepDrop⟩ := of_validateStep hstep
  obtain ⟨pos₅, hresidual, h⟩ := except_bind_ok h
  obtain ⟨residual, hresidualDrop⟩ := of_validateResidual hresidual
  obtain ⟨hend, h⟩ := guard_ok h
  rw [not_not] at hend
  have hform : version :: flags :: rest = form ⟨ns, projection, limit, step, residual⟩ := by
    have hrest : rest = (version :: flags :: rest).drop 2 := rfl
    rw [hversion, hflags, hrest, of_validateVarint hns, htagDrop, of_validateVarint hraw, hstepDrop, hresidualDrop, hend, drop_length,
      append_nil]
    rfl
  refine ⟨_, ⟨hlimit, ?_, hfits, ?_⟩, hform⟩
  · intro hproj
    apply hnone
    by_contra hne
    apply hcount
    refine ⟨projectionTag_count.mpr hproj, fun hzero => hne ?_⟩
    exact UInt32.toUInt64_inj.mp hzero
  · rw [← hform]
    exact Nat.not_le.mp hlength

/-- An access and its program. What the encoder accepts is validated and decoded to the same access; what the validator accepts decodes,
and is what the encoder makes of the access it decodes to. -/
theorem access_codec :
    (∀ access bytes, encode access = some (.ok bytes) → validate bytes = .ok () ∧ decode bytes = some access) ∧
    ∀ bytes, validate bytes = .ok () → ∃ access, decode bytes = some access ∧ encode access = some (.ok bytes) := by
  constructor
  · intro access bytes hencode
    obtain ⟨h, rfl⟩ := encode_eq_ok.mp hencode
    exact reads_form h
  · intro bytes hvalid
    obtain ⟨access, h, rfl⟩ := of_validate hvalid
    exact ⟨access, (reads_form h).2, encode_eq_ok.mpr ⟨h, rfl⟩⟩

/-- A range of an index with an edge, a limit and the residual `NOT a > 3`. -/
theorem access_codec_range :
    ∃ access bytes, encode access = some (.ok bytes) ∧ access.limit = some 10 ∧ access.residual ≠ none ∧
    validate bytes = .ok () ∧
      decode bytes = some access ∧ ∃ access', decode bytes = some access' ∧ encode access' = some (.ok bytes) := by
  let residual : PredicateProgram := ⟨[1, 0, 1, 6, 1, 0, 1, 2, 1, 97, 1, 1, 6, 3, 20, 0, 0], by decide +kernel⟩
  let access : Access := ⟨7, .documents, some 10, .indexRange 1 1 .i64 (.included [0, 0, 0, 0, 0, 0, 0, 5]) .unbounded, some residual⟩
  have hbytes : ∃ bytes, encode access = some (.ok bytes) := ⟨_, rfl⟩
  obtain ⟨bytes, hencode⟩ := hbytes
  obtain ⟨hvalid, hdecode⟩ := access_codec.1 access bytes hencode
  exact ⟨access, bytes, hencode, rfl, by simp [access], hvalid, hdecode, access_codec.2 bytes hvalid⟩

end Access

end InfinityDB.Query
