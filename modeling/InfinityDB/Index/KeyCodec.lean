import InfinityDB.Index.KeyOrder

/-!
# The index-key codec

The decoder inverts the encoder up to the canonical form of a value, and accepts no byte string
that the encoder does not produce.
-/

namespace InfinityDB

open Lib List

def DecodedIndexKey.toScalar : DecodedIndexKey → IndexScalar
  | .utf8 s => .utf8 s
  | .i64 v => .i64 v
  | .f64 f => .f64 f
  | .bool b => .bool b

/-- The canonical form of a coerced value: the zeros of the doubles are one. -/
def IndexScalar.canonical : IndexScalar → IndexScalar
  | .f64 f => .f64 (canonicalF64 f)
  | value => value

private theorem ofNat_paddedValue_putWord (w : UInt64) : UInt64.ofNat (paddedValue 8 (putWord w)) = w := by
  rw [paddedValue_putWord, UInt64.ofNat_toNat]

theorem xor_signBit_cancel (w : UInt64) : w ^^^ signBit ^^^ signBit = w := by
  rw [UInt64.xor_assoc, UInt64.xor_self, UInt64.xor_zero]

def unflip (word : UInt64) : UInt64 := if word &&& signBit ≠ 0 then word &&& ~~~signBit else ~~~word

theorem unflip_toNat (w : UInt64) :
    (unflip w).toNat = if 2 ^ 63 ≤ w.toNat then w.toNat - 2 ^ 63 else 2 ^ 64 - 1 - w.toNat := by
  rw [unflip]
  by_cases h : 2 ^ 63 ≤ w.toNat
  · rw [if_pos ((and_signBit w).mpr h), if_pos h, clear_signBit h]
  · rw [if_neg (fun hw => h ((and_signBit w).mp hw)), if_neg h, UInt64.toNat_not]
    rfl

private theorem unflip_f64KeyWord (f : Binary64) : unflip (f64KeyWord f) = (canonicalF64 f).bits := by
  have hmag := (canonicalF64 f).mag_lt
  have hbits := (canonicalF64 f).bits_eq
  apply UInt64.toNat.inj
  rw [unflip_toNat, f64KeyWord_toNat, hbits]
  cases (canonicalF64 f).neg with
  | true =>
    simp only [if_true]
    rw [if_neg (by omega)]
    omega
  | false =>
    simp only [Bool.false_eq_true, if_false]
    rw [if_pos (by omega)]
    omega

variable {f : Binary64} {d : DecodedIndexKey}

private theorem canonicalF64_isNaN (h : f.isNaN = false) : (canonicalF64 f).isNaN = false := by
  rw [canonicalF64]
  split
  · rfl
  · exact h

/-- A double whose sign is set is a zero of its own only where it is not canonical. -/
theorem negZero_iff (hnan : f.isNaN = false) :
    (f.eq ⟨0⟩ && decide (f.bits &&& signBit ≠ 0)) = true ↔ f.mag = 0 ∧ f.neg = true := by
  have hz : (⟨0⟩ : Binary64).scaled = 0 := rfl
  have hn : (⟨0⟩ : Binary64).isNaN = false := rfl
  have hbits := f.bits_eq
  have hmag := f.mag_lt
  have hsign : f.bits &&& signBit ≠ 0 ↔ f.neg = true := by
    rw [and_signBit, hbits]
    cases f.neg with
    | true => simp
    | false => simpa using hmag
  rw [Bool.and_eq_true, decide_eq_true_eq, hsign, Binary64.eq, hnan, hn, hz]
  simp only [Bool.not_false, Bool.true_and, beq_iff_eq, Binary64.scaled_eq_zero]

private theorem decodeF64Word_f64KeyWord (h : f.isNaN = false) :
    decodeF64Word (f64KeyWord f) = .ok (.f64 (canonicalF64 f)) := by
  have hunflip := unflip_f64KeyWord f
  rw [unflip] at hunflip
  have hnan := canonicalF64_isNaN h
  have hzero : ¬ ((canonicalF64 f).eq ⟨0⟩ && decide ((canonicalF64 f).bits &&& signBit ≠ 0)) = true := by
    intro hz
    obtain ⟨hmag, hneg⟩ := (negZero_iff hnan).mp hz
    exact canonicalF64_mag h hneg hmag
  rw [decodeF64Word, hunflip]
  change (if (canonicalF64 f).isNaN = true then _ else if _ then _ else _) = _
  rw [if_neg (by rw [hnan]; decide), if_neg hzero]

/-- An accepted word is the word of the double it decodes to. -/
private theorem f64KeyWord_of_decode {w : UInt64} (h : decodeF64Word w = .ok d) :
    ∃ f, d = .f64 f ∧ f.isNaN = false ∧ f64KeyWord f = w := by
  have hraw := unflip_toNat w
  rw [decodeF64Word] at h
  change (if (⟨unflip w⟩ : Binary64).isNaN = true then _
    else if ((⟨unflip w⟩ : Binary64).eq ⟨0⟩ && decide ((⟨unflip w⟩ : Binary64).bits &&& signBit ≠ 0)) = true
      then _ else Except.ok (DecodedIndexKey.f64 ⟨unflip w⟩)) = _ at h
  generalize hf : (⟨unflip w⟩ : Binary64) = f at h
  have hbitsw : f.bits = unflip w := by rw [← hf]
  split at h
  · simp at h
  rename_i hnan
  have hnan : f.isNaN = false := by simpa using hnan
  split at h
  · simp at h
  rename_i hzero
  rw [negZero_iff hnan] at hzero
  refine ⟨f, (Except.ok.inj h).symm, hnan, ?_⟩
  -- a double that is no negative zero is its own canonical form
  have hcanon : canonicalF64 f = f := by
    have hz : (⟨0⟩ : Binary64).scaled = 0 := rfl
    rw [canonicalF64]
    split
    next heq =>
      rw [Binary64.eq, Bool.and_eq_true, beq_iff_eq, hz, Binary64.scaled_eq_zero] at heq
      have hneg : f.neg = false := by
        cases hn : f.neg with
        | true => exact absurd ⟨heq.2, hn⟩ hzero
        | false => rfl
      apply Binary64.ext_fields
      · rw [hneg]
        rfl
      · rw [heq.2]
        rfl
    · rfl
  have hbits := f.bits_eq
  have hmag := f.mag_lt
  have hlt := w.toNat_lt
  apply UInt64.toNat.inj
  rw [f64KeyWord_toNat, hcanon]
  rw [hbitsw, hraw] at hbits
  cases hneg : f.neg with
  | true =>
    rw [hneg] at hbits
    simp only [if_true] at hbits ⊢
    split at hbits <;> omega
  | false =>
    rw [hneg] at hbits
    simp only [Bool.false_eq_true, if_false] at hbits ⊢
    split at hbits <;> omega

theorem unescape_escaped (rest : Bytes) : unescape (0 :: 0xFF :: rest) = (unescape rest).map (0 :: ·) := by
  rw [unescape.eq_def]
  rfl

theorem unescape_plain {b : UInt8} (h : b ≠ 0) (rest : Bytes) :
    unescape (b :: rest) = (unescape rest).map (b :: ·) := by
  rw [unescape.eq_def]
  exact if_neg h

private theorem unescape_escape (bytes : Bytes) : unescape (escape bytes) = .ok bytes := by
  induction bytes with
  | nil => rfl
  | cons b rest ih =>
    rw [escape]
    split
    next hb =>
      rw [unescape_escaped, ih, hb]
      rfl
    next hb =>
      rw [unescape_plain hb, ih]
      rfl

private theorem map_cons_ok {ε α : Type} {r : Except ε (List α)} {a : α} {l : List α} (h : r.map (a :: ·) = .ok l) :
    ∃ rest, r = .ok rest ∧ l = a :: rest := by
  cases r with
  | error e => simp [Except.map] at h
  | ok rest => exact ⟨rest, rfl, (Except.ok.inj h).symm⟩

private theorem escape_unescape {bytes raw : Bytes} (h : unescape bytes = .ok raw) : escape raw = bytes := by
  induction bytes using unescape.induct generalizing raw with
  | case1 =>
    cases h
    rfl
  | case2 rest ih =>
    rw [unescape_escaped] at h
    obtain ⟨raw, hraw, rfl⟩ := map_cons_ok h
    rw [escape, if_pos rfl, ih hraw]
  | case3 c rest hc =>
    rw [unescape.eq_def] at h
    simp [hc] at h
  | case4 =>
    rw [unescape.eq_def] at h
    simp at h
  | case5 b rest hb ih =>
    rw [unescape_plain hb] at h
    obtain ⟨raw, hraw, rfl⟩ := map_cons_ok h
    rw [escape, if_neg hb, ih hraw]

theorem escape_length (bytes : Bytes) : (escape bytes).length = bytes.length + bytes.count 0 := by
  induction bytes with
  | nil => rfl
  | cons b rest ih =>
    rw [escape]
    split
    next hb =>
      rw [hb, length_cons, length_cons, length_cons, ih, count_cons_self]
      omega
    next hb =>
      rw [length_cons, length_cons, ih, count_cons_of_ne hb]
      omega

theorem encodeUtf8_length (s : Str) : (encodeUtf8 s).length = utf8EncodedLen s := by
  rw [encodeUtf8_eq, length_append, escape_length, utf8EncodedLen]
  rfl

private theorem decodeUtf8Key_encodeUtf8 {s : Str} (h : utf8EncodedLen s ≤ orderedKeyMax) :
    decodeUtf8Key (encodeUtf8 s) = .ok (.utf8 s) := by
  have hlen : ¬ orderedKeyMax < (encodeUtf8 s).length := by
    rw [encodeUtf8_length]
    exact not_lt.mpr h
  rw [decodeUtf8Key, if_neg hlen, encodeUtf8_eq, getLast?_concat, dropLast_concat]
  simp only [ne_eq, not_true_eq_false, if_false]
  rw [unescape_escape]
  change (if h : validUtf8 s.bytes = true then _ else _) = _
  rw [dif_pos s.valid]

/-- An accepted string key is the encoding of the string it decodes to. -/
private theorem encodeUtf8_of_decode {bytes : Bytes} (h : decodeUtf8Key bytes = .ok d) :
    ∃ s, d = .utf8 s ∧ utf8EncodedLen s ≤ orderedKeyMax ∧ encodeUtf8 s = bytes := by
  rw [decodeUtf8Key] at h
  split at h
  · simp at h
  rename_i hlen
  split at h
  · simp at h
  rename_i last hlast
  split at h
  · simp at h
  rename_i hzero
  cases hraw : unescape bytes.dropLast with
  | error e =>
    rw [hraw] at h
    simp [bind, Except.bind] at h
  | ok raw =>
    rw [hraw] at h
    change (if h : validUtf8 raw = true then _ else _) = _ at h
    split at h
    next hvalid =>
      have hbytes : encodeUtf8 ⟨raw, hvalid⟩ = bytes := by
        rw [encodeUtf8_eq, escape_unescape hraw, ← not_ne_iff.mp hzero]
        exact dropLast_append_getLast? last hlast
      refine ⟨⟨raw, hvalid⟩, (Except.ok.inj h).symm, ?_, hbytes⟩
      rw [← encodeUtf8_length, hbytes]
      exact not_lt.mp hlen
    · simp at h

private theorem indexKeyDecode_encodeAdmitted {keyType : IndexKeyType} {s : IndexScalar} (h : Admits keyType s) :
    ∃ d, indexKeyDecode keyType (encodeAdmitted s) = .ok d ∧ d.toScalar = s.canonical := by
  cases h with
  | i64 v =>
    refine ⟨.i64 v, ?_, rfl⟩
    have hfixed : IndexKeyType.i64.fixed8 = true := rfl
    rw [indexKeyDecode, if_pos hfixed, encodeAdmitted, if_neg (not_not.mpr (putWord_length _)),
      ofNat_paddedValue_putWord]
    simp only [xor_signBit_cancel]
    rfl
  | @f64 f hnan =>
    refine ⟨.f64 (canonicalF64 f), ?_, rfl⟩
    have hfixed : IndexKeyType.f64.fixed8 = true := rfl
    rw [indexKeyDecode, if_pos hfixed, encodeAdmitted, if_neg (not_not.mpr (putWord_length _)),
      ofNat_paddedValue_putWord]
    exact decodeF64Word_f64KeyWord hnan
  | bool b =>
    refine ⟨.bool b, ?_, rfl⟩
    cases b <;> rfl
  | @utf8 t hlen => exact ⟨.utf8 t, decodeUtf8Key_encodeUtf8 hlen, rfl⟩

/-- An accepted byte string is the encoding of what it decodes to. -/
private theorem indexKeyEncode_of_decode {keyType : IndexKeyType} {bytes : Bytes}
    (h : indexKeyDecode keyType bytes = .ok d) : indexKeyEncode keyType d.toScalar = .ok bytes := by
  rw [indexKeyDecode] at h
  split at h
  · split at h
    · simp at h
    rename_i hlen
    have hword := putWord_paddedValue (not_ne_iff.mp hlen)
    generalize UInt64.ofNat (paddedValue 8 bytes) = word at h hword
    cases keyType with
    | i64 =>
      cases h
      rw [DecodedIndexKey.toScalar, @indexKeyEncode_eq .i64 _ _ rfl, encodeAdmitted, UInt64.toUInt64_toInt64,
        xor_signBit_cancel, hword]
    | f64 =>
      obtain ⟨f, rfl, hnan, hkey⟩ := f64KeyWord_of_decode h
      have hadmit : indexScalarCoerce .f64 (.f64 f) = .ok (.f64 f) := by
        rw [indexScalarCoerce, hnan]
        rfl
      rw [DecodedIndexKey.toScalar, indexKeyEncode_eq hadmit, encodeAdmitted, hkey, hword]
    | bool =>
      simp only at h
      split at h
      next hw =>
        cases h
        rw [← hword, hw]
        rfl
      · split at h
        next hw =>
          cases h
          rw [← hword, hw]
          rfl
        · simp at h
    | utf8 => simp at h
  next hfixed =>
    cases keyType with
    | utf8 =>
      obtain ⟨s, rfl, hlen, rfl⟩ := encodeUtf8_of_decode h
      have hadmit : indexScalarCoerce .utf8 (.utf8 s) = .ok (.utf8 s) := by
        rw [indexScalarCoerce, if_neg (not_lt.mpr hlen)]
      rw [DecodedIndexKey.toScalar, indexKeyEncode_eq hadmit, encodeAdmitted]
    | i64 | f64 | bool => exact absurd rfl hfixed

/-- The decoder returns the canonical form of an encoded value, and accepts only encodings. -/
theorem indexKey_codec (keyType : IndexKeyType) :
    (∀ v s, indexScalarCoerce keyType v = .ok s → ∃ bytes d, indexKeyEncode keyType v = .ok bytes ∧
      indexKeyDecode keyType bytes = .ok d ∧ d.toScalar = s.canonical) ∧
    (∀ bytes d, indexKeyDecode keyType bytes = .ok d → indexKeyEncode keyType d.toScalar = .ok bytes) ∧
    (∀ bytes, (∃ d, indexKeyDecode keyType bytes = .ok d) ↔ ∃ v, indexKeyEncode keyType v = .ok bytes) := by
  have hround (v s) (h : indexScalarCoerce keyType v = .ok s) : ∃ bytes d, indexKeyEncode keyType v = .ok bytes ∧
      indexKeyDecode keyType bytes = .ok d ∧ d.toScalar = s.canonical := by
    obtain ⟨d, hd, hform⟩ := indexKeyDecode_encodeAdmitted (indexScalarCoerce_admits h)
    exact ⟨_, d, indexKeyEncode_eq h, hd, hform⟩
  refine ⟨hround, fun bytes d h => indexKeyEncode_of_decode h, fun bytes => ⟨?_, ?_⟩⟩
  · intro h
    obtain ⟨d, hd⟩ := h
    exact ⟨d.toScalar, indexKeyEncode_of_decode hd⟩
  · intro h
    obtain ⟨v, hv⟩ := h
    cases hs : indexScalarCoerce keyType v with
    | error e =>
      rw [indexKeyEncode, hs] at hv
      simp [bind, Except.bind] at hv
    | ok s =>
      obtain ⟨bytes', d, henc, hd, -⟩ := hround v s hs
      rw [hv] at henc
      cases henc
      exact ⟨d, hd⟩

/-- The negative zero comes back positive, and an escaped NUL is read back as it was written. -/
theorem indexKey_codec_samples : (∃ bytes d, indexKeyEncode .f64 (.f64 ⟨0x8000000000000000⟩) = .ok bytes ∧
      indexKeyDecode .f64 bytes = .ok d ∧ d.toScalar = (IndexScalar.f64 ⟨0x8000000000000000⟩).canonical) ∧
    indexKeyEncode .utf8 (.utf8 ⟨[97, 0], rfl⟩) = .ok [97, 0, 0xFF, 0] := by
  constructor
  · exact (indexKey_codec .f64).1 (.f64 ⟨0x8000000000000000⟩) _ rfl
  · exact (indexKey_codec .utf8).2.1 [97, 0, 0xFF, 0] (.utf8 ⟨[97, 0], rfl⟩) rfl

/-- A byte goes into the buffer while there is room. -/
def putByte (out : Bytes) (b : UInt8) : Bytes := if out.length < orderedKeyMax then out ++ [b] else out

/-- One byte of the string: what is in the buffer, and the length it would have without the cap. -/
def escapeStep (out : Bytes × Nat) (b : UInt8) : Bytes × Nat :=
  if b = 0 then (putByte (putByte out.1 b) 0xFF, out.2 + 1 + 1) else (putByte out.1 b, out.2 + 1)

/-- The escape of a string without the terminator, cut at the cap, and its uncut length. -/
def indexKeyEscapePrefix (s : Str) : Bytes × Nat := s.bytes.foldl escapeStep ([], 0)

private theorem putByte_take (out : Bytes) (b : UInt8) : putByte (out.take orderedKeyMax) b = (out ++ [b]).take orderedKeyMax := by
  rw [putByte, length_take]
  rcases Nat.lt_or_ge out.length orderedKeyMax with h | h
  · rw [if_pos (by omega), take_of_length_le h.le, take_of_length_le (by simpa using h)]
  · rw [if_neg (by omega), take_append_of_le_length h]

private theorem foldl_escapeStep (bytes out : Bytes) :
    bytes.foldl escapeStep (out.take orderedKeyMax, out.length) =
      ((out ++ escape bytes).take orderedKeyMax, (out ++ escape bytes).length) := by
  induction bytes generalizing out with
  | nil => rw [foldl_nil, escape, append_nil]
  | cons b rest ih =>
    rw [foldl_cons, escapeStep, escape]
    split
    · have hnext := ih (out ++ [b] ++ [0xFF])
      rw [← putByte_take, ← putByte_take, length_append, length_append, append_assoc, append_assoc] at hnext
      rename_i hb
      rw [hb] at hnext ⊢
      exact hnext
    · have hnext := ih (out ++ [b])
      rw [← putByte_take, length_append, append_assoc] at hnext
      exact hnext

theorem indexKeyEscapePrefix_eq (s : Str) : indexKeyEscapePrefix s = ((escape s.bytes).take orderedKeyMax, (escape s.bytes).length) :=
  foldl_escapeStep s.bytes []

/-- The terminator is no byte of an escape: a NUL there is followed by `0xFF`. -/
private theorem escape_isPrefix (p s : Bytes) : escape p <+: escape s ++ [0] ↔ p <+: s := by
  induction p generalizing s with
  | nil => exact iff_of_true nil_prefix nil_prefix
  | cons b p ih =>
    cases s with
    | nil =>
      refine iff_of_false ?_ (by simp)
      by_cases hb : b = 0
      · simp [escape, hb]
      · simp [escape, hb]
    | cons c s =>
      rw [escape, escape, cons_prefix_cons]
      by_cases hb : b = 0
      · by_cases hc : c = 0
        · rw [if_pos hb, if_pos hc, cons_append, cons_append, cons_prefix_cons, cons_prefix_cons, ih, hb, hc]
          simp
        · rw [if_pos hb, if_neg hc, cons_append, cons_prefix_cons, hb]
          exact iff_of_false (fun h => hc h.1.symm) fun h => hc h.1.symm
      · by_cases hc : c = 0
        · rw [if_neg hb, if_pos hc, cons_append, cons_prefix_cons, hc]
          exact iff_of_false (fun h => hb h.1) fun h => hb h.1
        · rw [if_neg hb, if_neg hc, cons_append, cons_prefix_cons, ih]

/-- A string begins with another where its key begins with the other's escape. What is returned is that escape
cut at the cap, with the length it has uncut. -/
theorem escapePrefix_bounds (p s : Str) : (p.bytes <+: s.bytes ↔ escape p.bytes <+: encodeUtf8 s) ∧
    (∀ key, indexKeyEncode .utf8 (.utf8 s) = .ok key → (indexKeyEscapePrefix p).2 ≤ orderedKeyMax →
      (p.bytes <+: s.bytes ↔ (indexKeyEscapePrefix p).1 <+: key)) ∧
    (indexKeyEscapePrefix p).1 = (escape p.bytes).take orderedKeyMax ∧ (indexKeyEscapePrefix p).2 = (escape p.bytes).length := by
  have hiff : p.bytes <+: s.bytes ↔ escape p.bytes <+: encodeUtf8 s := by
    rw [encodeUtf8_eq, escape_isPrefix]
  rw [indexKeyEscapePrefix_eq]
  refine ⟨hiff, ?_, rfl, rfl⟩
  intro key hkey hfull
  have hadmit : indexScalarCoerce .utf8 (.utf8 s) = .ok (.utf8 s) := by
    rw [indexKeyEncode, indexScalarCoerce] at hkey
    rw [indexScalarCoerce]
    split at hkey
    · cases hkey
    rename_i hlen
    rw [if_neg hlen]
  rw [indexKeyEncode, hadmit] at hkey
  cases hkey
  rw [take_of_length_le hfull]
  exact hiff

theorem escapePrefix_bounds_nul :
    (indexKeyEscapePrefix ⟨[0], rfl⟩).1 = [0, 0xFF] ∧
    ([0] <+: ([0, 97] : Bytes) ↔ (indexKeyEscapePrefix ⟨[0], rfl⟩).1 <+: [0, 0xFF, 97, 0]) :=
  ⟨rfl, (escapePrefix_bounds ⟨[0], rfl⟩ ⟨[0, 97], rfl⟩).2.1 [0, 0xFF, 97, 0] rfl (by decide)⟩

end InfinityDB
