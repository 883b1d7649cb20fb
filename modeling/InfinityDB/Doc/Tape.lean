import InfinityDB.Doc.Path
import InfinityDB.Lib.Binary64
import InfinityDB.Lib.Cursor
import InfinityDB.Lib.Utf8
import InfinityDB.Lib.Varint

/-!
# The tape

The byte encoding of a document. Every value has one encoding: small integers are their own tag,
other integers a minimal varint, strings the narrowest of three headers, and containers carry the
length of their body in three bytes. Readers run on validated bytes; where they would index past
the end or meet a tag the validator excludes they panic, which is `none` here. Documents with
interned keys are left out: they need a build feature that is off by default.
-/

namespace InfinityDB

open Lib List Option

def tagNull : UInt8 := 0xA0
def tagFalse : UInt8 := 0xA1
def tagTrue : UInt8 := 0xA2
def tagI64 : UInt8 := 0xA3
def tagF64 : UInt8 := 0xA4
def tagStr8 : UInt8 := 0xA5
def tagStr24 : UInt8 := 0xA6
def tagObj : UInt8 := 0xA7
def tagArr : UInt8 := 0xA8

def fixstrBase : UInt8 := 0x80
def fixstrMaxLen : Nat := 31
def str8MinLen : Nat := 32
def str24MinLen : Nat := 256
def fixintMin : Int := -32
def fixintMax : Int := 127

def depthMax : Nat := 128
def docBytesMax : Nat := 0xFFFFFF

def isFixintValue (v : Int64) : Bool := fixintMin ≤ v.toInt && v.toInt ≤ fixintMax

def emitI64 (v : Int64) : Bytes :=
  if isFixintValue v then [v.toUInt64.toUInt8] else tagI64 :: encodeVarint (zigzag v)

def emitF64 (bits : UInt64) : Bytes := tagF64 :: leBytes 8 bits.toNat

def strHeader (len : Nat) : Bytes :=
  if len ≤ fixstrMaxLen then [fixstrBase + UInt8.ofNat len]
  else if len < str24MinLen then [tagStr8, UInt8.ofNat len]
  else tagStr24 :: leBytes 3 len

def emitStr (s : Bytes) : Bytes := strHeader s.length ++ s

def emitScalar : Scalar → Bytes
  | .null => [tagNull]
  | .bool b => [if b then tagTrue else tagFalse]
  | .i64 v => emitI64 v
  | .f64 bits => emitF64 bits
  | .str s => emitStr s

def container (tag : UInt8) (body : Bytes) : Bytes := tag :: (leBytes 3 body.length ++ body)

mutual

/-- The canonical encoding of a document. -/
def Doc.bytes : Doc → Bytes
  | .scalar s => emitScalar s
  | .arr items => container tagArr (itemsBytes items)
  | .obj members => container tagObj (membersBytes members)

def itemsBytes : List Doc → Bytes
  | [] => []
  | d :: rest => d.bytes ++ itemsBytes rest

def membersBytes : List (Bytes × Doc) → Bytes
  | [] => []
  | (key, d) :: rest => emitStr key ++ (d.bytes ++ membersBytes rest)

end

/-- A string that has an encoding: UTF-8, with a length the widest header holds. -/
def StrFits (s : Bytes) : Prop := validUtf8 s = true ∧ s.length < 2 ^ 24

def Scalar.Fits : Scalar → Prop
  | .f64 bits => (⟨bits⟩ : Binary64).isFinite = true
  | .str s => StrFits s
  | _ => True

/-- A document that has an encoding, nested at most so many containers deep. -/
inductive Encodable : Nat → Doc → Prop where
  | scalar {room : Nat} {s : Scalar} : s.Fits → Encodable room (.scalar s)
  | arr {room : Nat} {items : List Doc} : (∀ d ∈ items, Encodable room d) → (itemsBytes items).length < 2 ^ 24 →
      Encodable (room + 1) (.arr items)
  | obj {room : Nat} {members : List (Bytes × Doc)} : (∀ x ∈ members, StrFits x.1) →
      (∀ x ∈ members, Encodable room x.2) → (membersBytes members).length < 2 ^ 24 →
      Encodable (room + 1) (.obj members)

/-- A tag that is a small integer: `tag as i8 >= -32`. -/
def isFixint (tag : UInt8) : Bool := tag < 0x80 || 0xE0 ≤ tag

def isFixstr (tag : UInt8) : Bool := fixstrBase ≤ tag && tag ≤ 0x9F

def fixintValue (tag : UInt8) : Int64 := tag.toInt8.toInt64

def readU24 (bytes : Bytes) (off : Nat) : Option Nat := (region bytes off 3).map leValue

/-- A value as it lies in the tape; containers are their body. -/
inductive ValueRef where
  | null
  | bool (value : Bool)
  | i64 (value : Int64)
  | f64 (bits : UInt64)
  | str (bytes : Bytes)
  | obj (entries : Bytes)
  | arr (body : Bytes)
deriving DecidableEq

def readValue (body : Bytes) (off : Nat) : Option (ValueRef × Nat) := do
  let tag ← body[off]?
  if isFixint tag then some (.i64 (fixintValue tag), off + 1)
  else if isFixstr tag then do
    let len := (tag - fixstrBase).toNat
    let s ← region body (off + 1) len
    some (.str s, off + 1 + len)
  else if tag = tagNull then some (.null, off + 1)
  else if tag = tagFalse then some (.bool false, off + 1)
  else if tag = tagTrue then some (.bool true, off + 1)
  else if tag = tagI64 then do
    let (raw, used) ← decodeVarint (body.drop (off + 1))
    some (.i64 (unzigzag raw), off + 1 + used)
  else if tag = tagF64 then do
    let bits ← region body (off + 1) 8
    some (.f64 (UInt64.ofNat (leValue bits)), off + 9)
  else if tag = tagStr8 then do
    let len ← body[off + 1]?
    let s ← region body (off + 2) len.toNat
    some (.str s, off + 2 + len.toNat)
  else if tag = tagStr24 then do
    let len ← readU24 body (off + 1)
    let s ← region body (off + 4) len
    some (.str s, off + 4 + len)
  else if tag = tagObj then do
    let len ← readU24 body (off + 1)
    let entries ← region body (off + 4) len
    some (.obj entries, off + 4 + len)
  else if tag = tagArr then do
    let len ← readU24 body (off + 1)
    let items ← region body (off + 4) len
    some (.arr items, off + 4 + len)
  else none

def skipValue (body : Bytes) (off : Nat) : Option Nat := do
  let tag ← body[off]?
  if isFixint tag then some (off + 1)
  else if isFixstr tag then some (off + 1 + (tag - fixstrBase).toNat)
  else if tag = tagNull ∨ tag = tagFalse ∨ tag = tagTrue then some (off + 1)
  else if tag = tagI64 then do
    let (_, used) ← decodeVarint (body.drop (off + 1))
    some (off + 1 + used)
  else if tag = tagF64 then some (off + 9)
  else if tag = tagStr8 then do
    let len ← body[off + 1]?
    some (off + 2 + len.toNat)
  else if tag = tagStr24 ∨ tag = tagObj ∨ tag = tagArr then do
    let len ← readU24 body (off + 1)
    some (off + 4 + len)
  else none

def readKey (body : Bytes) (off : Nat) : Option (Bytes × Nat) := do
  let (value, next) ← readValue body off
  match value with
  | .str s => some (s, next)
  | _ => none

mutual

/-- The document at a position, read with the value reader and the container iterators. The count
bounds the values and container ends still to be read. -/
def readDoc (body : Bytes) : Nat → Nat → Option (Doc × Nat)
  | 0, _ => none
  | turns + 1, off => do
    let (value, next) ← readValue body off
    match value with
    | .null => some (.scalar .null, next)
    | .bool b => some (.scalar (.bool b), next)
    | .i64 v => some (.scalar (.i64 v), next)
    | .f64 bits => some (.scalar (.f64 bits), next)
    | .str s => some (.scalar (.str s), next)
    | .arr items => do
      let items ← readItems items turns 0
      some (.arr items, next)
    | .obj entries => do
      let members ← readEntries entries turns 0
      some (.obj members, next)

def readItems (body : Bytes) : Nat → Nat → Option (List Doc)
  | 0, _ => none
  | turns + 1, off =>
    if off = body.length then some []
    else do
      let (d, next) ← readDoc body turns off
      let rest ← readItems body turns next
      some (d :: rest)

def readEntries (body : Bytes) : Nat → Nat → Option (List (Bytes × Doc))
  | 0, _ => none
  | turns + 1, off =>
    if off = body.length then some []
    else do
      let (key, valAt) ← readKey body off
      let (d, next) ← readDoc body turns valAt
      let rest ← readEntries body turns next
      some ((key, d) :: rest)

end

def decodeBody (body : Bytes) : Option Doc := do
  let (d, next) ← readDoc body (2 * body.length + 1) 0
  if next = body.length then some d else none

theorem fixintValue_toInt (tag : UInt8) :
    (fixintValue tag).toInt = if tag.toNat < 128 then (tag.toNat : Int) else tag.toNat - 256 := by
  have hlt := tag.toNat_lt
  rw [fixintValue, Int8.toInt_toInt64, ← Int8.toInt_toBitVec, BitVec.toInt_eq_toNat_cond]
  change (if 2 * tag.toNat < 2 ^ 8 then (tag.toNat : Int) else tag.toNat - (2 ^ 8 : Nat)) = _
  split <;> split <;> omega

theorem toUInt8_toNat (v : Int64) : ((v.toUInt64.toUInt8).toNat : Int) = v.toInt % 256 := by
  have hint := toInt_eq_word v
  rw [UInt64.toNat_toUInt8]
  split at hint <;> omega

theorem isFixint_iff (tag : UInt8) : isFixint tag = true ↔ tag.toNat < 128 ∨ 224 ≤ tag.toNat := by
  rw [isFixint, Bool.or_eq_true, decide_eq_true_eq, decide_eq_true_eq, UInt8.lt_iff_toNat_lt, UInt8.le_iff_toNat_le]
  rfl

theorem isFixintValue_iff (v : Int64) : isFixintValue v = true ↔ -32 ≤ v.toInt ∧ v.toInt ≤ 127 := by
  rw [isFixintValue, Bool.and_eq_true, decide_eq_true_eq, decide_eq_true_eq, fixintMin, fixintMax]

/-- A small integer is its own tag. -/
theorem fixint_of_value {v : Int64} (h : isFixintValue v = true) :
    isFixint v.toUInt64.toUInt8 = true ∧ fixintValue v.toUInt64.toUInt8 = v := by
  rw [isFixintValue_iff] at h
  have htag := toUInt8_toNat v
  constructor
  · rw [isFixint_iff]
    omega
  · apply Int64.toInt_inj.mp
    rw [fixintValue_toInt]
    split <;> omega

theorem value_of_fixint {tag : UInt8} (h : isFixint tag = true) :
    isFixintValue (fixintValue tag) = true ∧ (fixintValue tag).toUInt64.toUInt8 = tag := by
  rw [isFixint_iff] at h
  have hlt := tag.toNat_lt
  have hval := fixintValue_toInt tag
  have htag := toUInt8_toNat (fixintValue tag)
  constructor
  · rw [isFixintValue_iff]
    split at hval <;> omega
  · apply UInt8.toNat.inj
    split at hval <;> omega

theorem isFixstr_iff (tag : UInt8) : isFixstr tag = true ↔ 128 ≤ tag.toNat ∧ tag.toNat ≤ 159 := by
  rw [isFixstr, Bool.and_eq_true, decide_eq_true_eq, decide_eq_true_eq, UInt8.le_iff_toNat_le, UInt8.le_iff_toNat_le]
  rfl

theorem fixstr_len {tag : UInt8} (h : isFixstr tag = true) : (tag - fixstrBase).toNat = tag.toNat - 128 := by
  rw [isFixstr_iff] at h
  have hbase : fixstrBase ≤ tag := UInt8.le_iff_toNat_le.mpr h.1
  rw [UInt8.toNat_sub_of_le _ _ hbase]
  rfl

theorem fixstr_tag {len : Nat} (h : len ≤ fixstrMaxLen) : (fixstrBase + UInt8.ofNat len).toNat = 128 + len := by
  rw [fixstrMaxLen] at h
  rw [UInt8.toNat_add, UInt8.toNat_ofNat', show fixstrBase.toNat = 128 from rfl]
  omega

private theorem emitI64_ne_nil (v : Int64) : emitI64 v ≠ [] := by
  rw [emitI64]
  split <;> exact cons_ne_nil _ _

theorem strHeader_ne_nil (len : Nat) : strHeader len ≠ [] := by
  rw [strHeader]
  split
  · exact cons_ne_nil _ _
  · split <;> exact cons_ne_nil _ _

theorem emitStr_ne_nil (s : Bytes) : emitStr s ≠ [] := by
  rw [emitStr]
  exact append_ne_nil_of_left_ne_nil (strHeader_ne_nil _) _

theorem Doc.bytes_ne_nil (d : Doc) : d.bytes ≠ [] := by
  cases d with
  | scalar s =>
    rw [Doc.bytes]
    cases s with
    | i64 v => exact emitI64_ne_nil v
    | str s => exact emitStr_ne_nil s
    | _ => exact cons_ne_nil _ _
  | arr items | obj members =>
    rw [Doc.bytes]
    exact cons_ne_nil _ _

def Scalar.ref : Scalar → ValueRef
  | .null => .null
  | .bool b => .bool b
  | .i64 v => .i64 v
  | .f64 bits => .f64 bits
  | .str s => .str s

section Reading

variable {body t : Bytes} {off : Nat}

theorem readU24_of_drop {n : Nat} (hn : n < 2 ^ 24) (hoff : off ≤ body.length)
    (h : body.drop off = leBytes 3 n ++ t) : readU24 body off = some n := by
  have hregion := region_of_drop hoff h
  rw [leBytes_length] at hregion
  rw [readU24, hregion, map_some, leValue_leBytes (by omega)]

private theorem readValue_i64 {v : Int64} (h : body.drop off = emitI64 v ++ t) :
    readValue body off = some (.i64 v, off + (emitI64 v).length) := by
  rw [emitI64] at h ⊢
  split at h
  next hfix =>
    obtain ⟨htag, hval⟩ := fixint_of_value hfix
    rw [if_pos hfix, readValue, getElem?_of_drop h]
    simp only [bind_eq_bind, bind_some, htag, if_true, hval]
    rfl
  next hfix =>
    have hdata : body.drop (off + 1) = encodeVarint (zigzag v) ++ t := drop_succ_of_drop h
    rw [if_neg hfix, readValue, getElem?_of_drop h]
    simp only [bind_eq_bind, bind_some]
    iterate 5 rw [if_neg (by decide)]
    rw [if_pos trivial, hdata, decodeVarint_encodeVarint]
    simp only [bind_some, unzigzag_zigzag, length_cons]
    congr 2
    omega

private theorem readValue_f64 {bits : UInt64} (h : body.drop off = emitF64 bits ++ t) :
    readValue body off = some (.f64 bits, off + (emitF64 bits).length) := by
  rw [emitF64] at h
  have hend := add_length_le_of_drop (cons_ne_nil _ _) h
  rw [length_cons] at hend
  have hdata : body.drop (off + 1) = leBytes 8 bits.toNat ++ t := drop_succ_of_drop h
  have hregion := region_of_drop (by omega) hdata
  rw [leBytes_length] at hregion
  rw [readValue, getElem?_of_drop h]
  simp only [bind_eq_bind, bind_some]
  iterate 6 rw [if_neg (by decide)]
  rw [if_pos trivial, hregion]
  simp only [bind_some]
  rw [leValue_leBytes bits.toNat_lt, UInt64.ofNat_toNat, emitF64, length_cons, leBytes_length]

theorem readValue_str {s : Bytes} (hs : s.length < 2 ^ 24) (h : body.drop off = emitStr s ++ t) :
    readValue body off = some (.str s, off + (emitStr s).length) := by
  have hend := add_length_le_of_drop (emitStr_ne_nil s) h
  rw [emitStr, append_assoc] at h
  rw [emitStr, length_append] at hend ⊢
  rw [strHeader] at h hend ⊢
  split at h
  next hfix =>
    rw [if_pos hfix, length_singleton] at hend ⊢
    have htag := fixstr_tag hfix
    have hstr : isFixstr (fixstrBase + UInt8.ofNat s.length) = true := by
      rw [isFixstr_iff, htag]
      rw [fixstrMaxLen] at hfix
      omega
    have hint : ¬ isFixint (fixstrBase + UInt8.ofNat s.length) = true := by
      rw [isFixint_iff, htag]
      rw [fixstrMaxLen] at hfix
      omega
    have hlen : (fixstrBase + UInt8.ofNat s.length - fixstrBase).toNat = s.length := by
      rw [fixstr_len hstr, htag]
      omega
    rw [singleton_append] at h
    have hregion := region_of_drop (by omega) (drop_succ_of_drop h)
    rw [readValue, getElem?_of_drop h]
    simp only [bind_eq_bind, bind_some]
    rw [if_neg hint, if_pos hstr, hlen, hregion]
    simp only [bind_some]
    congr 2
    omega
  next hfix =>
    rw [if_neg hfix] at hend ⊢
    split at h
    next hlen =>
      rw [if_pos hlen] at hend ⊢
      rw [cons_append, cons_append, nil_append] at h
      have hdata := drop_succ_of_drop h
      have hregion := region_of_drop (by simp at hend; omega) (drop_succ_of_drop hdata)
      have hbyte : (UInt8.ofNat s.length).toNat = s.length := by
        rw [str24MinLen] at hlen
        rw [UInt8.toNat_ofNat', Nat.mod_eq_of_lt hlen]
      rw [readValue, getElem?_of_drop h]
      simp only [bind_eq_bind, bind_some]
      iterate 7 rw [if_neg (by decide)]
      rw [if_pos trivial, getElem?_of_drop hdata]
      simp only [bind_some]
      rw [hbyte, hregion]
      simp only [bind_some, length_cons, length_nil]
      congr 2
      omega
    next hlen =>
      rw [if_neg hlen, length_cons, leBytes_length] at hend ⊢
      rw [cons_append] at h
      have hdata := drop_succ_of_drop h
      have hpayload := drop_add_of_drop hdata
      rw [leBytes_length] at hpayload
      have hregion := region_of_drop (by omega) hpayload
      rw [readValue, getElem?_of_drop h]
      simp only [bind_eq_bind, bind_some]
      iterate 8 rw [if_neg (by decide)]
      rw [if_pos trivial, readU24_of_drop hs (by omega) hdata]
      simp only [bind_some]
      rw [hregion]
      simp only [bind_some]
      congr 2
      omega

theorem readValue_scalar {s : Scalar} (hs : s.Fits) (h : body.drop off = emitScalar s ++ t) :
    readValue body off = some (s.ref, off + (emitScalar s).length) := by
  cases s with
  | null =>
    rw [readValue, getElem?_of_drop h]
    rfl
  | bool b =>
    rw [readValue, getElem?_of_drop h]
    cases b <;> rfl
  | i64 v => exact readValue_i64 h
  | f64 bits => exact readValue_f64 h
  | str s => exact readValue_str hs.2 h

variable {inner : Bytes}

/-- The parts of a container: its length field and its body. -/
theorem container_parts {tag : UInt8} (hinner : inner.length < 2 ^ 24) (h : body.drop off = container tag inner ++ t) :
    body[off]? = some tag ∧ readU24 body (off + 1) = some inner.length ∧
      region body (off + 4) inner.length = some inner ∧ body.drop (off + 4) = inner ++ t := by
  rw [container] at h
  have hend := add_length_le_of_drop (cons_ne_nil _ _) h
  rw [length_cons, length_append, leBytes_length] at hend
  rw [cons_append, append_assoc] at h
  have hdata := drop_succ_of_drop h
  have hpayload := drop_add_of_drop hdata
  rw [leBytes_length] at hpayload
  exact ⟨getElem?_of_drop h, readU24_of_drop hinner (by omega) hdata, region_of_drop (by omega) hpayload, hpayload⟩

theorem readValue_arr (hinner : inner.length < 2 ^ 24) (h : body.drop off = container tagArr inner ++ t) :
    readValue body off = some (.arr inner, off + (container tagArr inner).length) := by
  obtain ⟨htag, hlen, hregion, -⟩ := container_parts hinner h
  rw [readValue, htag]
  simp only [bind_eq_bind, bind_some]
  iterate 10 rw [if_neg (by decide)]
  rw [if_pos trivial, hlen]
  simp only [bind_some, hregion, container, length_cons, length_append, leBytes_length]
  congr 2
  omega

theorem readValue_obj (hinner : inner.length < 2 ^ 24) (h : body.drop off = container tagObj inner ++ t) :
    readValue body off = some (.obj inner, off + (container tagObj inner).length) := by
  obtain ⟨htag, hlen, hregion, -⟩ := container_parts hinner h
  rw [readValue, htag]
  simp only [bind_eq_bind, bind_some]
  iterate 9 rw [if_neg (by decide)]
  rw [if_pos trivial, hlen]
  simp only [bind_some, hregion, container, length_cons, length_append, leBytes_length]
  congr 2
  omega

theorem readKey_of_drop {key : Bytes} (hkey : StrFits key) (h : body.drop off = emitStr key ++ t) :
    readKey body off = some (key, off + (emitStr key).length) := by
  rw [readKey, readValue_str hkey.2 h]
  rfl

/-- A document is read back wherever its encoding stands. -/
def ReadsBack (d : Doc) : Prop :=
  ∀ (body t : Bytes) (off turns : Nat), body.drop off = d.bytes ++ t → 2 * d.bytes.length ≤ turns →
    readDoc body turns off = some (d, off + d.bytes.length)

private theorem readItems_of_drop {items : List Doc} {turns : Nat} (hitems : ∀ d ∈ items, ReadsBack d)
    (hoff : off ≤ body.length) (h : body.drop off = itemsBytes items)
    (hturns : 2 * (itemsBytes items).length < turns) : readItems body turns off = some items := by
  induction items generalizing off turns with
  | nil =>
    have hend := drop_eq_nil_iff.mp h
    cases turns with
    | zero => omega
    | succ turns => rw [readItems, if_pos (by omega)]
  | cons d rest ih =>
    rw [itemsBytes] at h hturns
    have hpos := length_pos_of_ne_nil d.bytes_ne_nil
    have hend := add_length_le_of_drop d.bytes_ne_nil h
    rw [length_append] at hturns
    cases turns with
    | zero => omega
    | succ turns =>
      rw [readItems, if_neg (by omega), hitems d mem_cons_self body _ off turns h (by omega)]
      simp only [bind_eq_bind, bind_some]
      rw [ih (forall_mem_cons.mp hitems).2 hend (drop_add_of_drop h) (by omega)]
      rfl

private theorem readEntries_of_drop {members : List (Bytes × Doc)} {turns : Nat} (hkeys : ∀ x ∈ members, StrFits x.1)
    (hmembers : ∀ x ∈ members, ReadsBack x.2) (hoff : off ≤ body.length)
    (h : body.drop off = membersBytes members) (hturns : 2 * (membersBytes members).length < turns) :
    readEntries body turns off = some members := by
  induction members generalizing off turns with
  | nil =>
    have hend := drop_eq_nil_iff.mp h
    cases turns with
    | zero => omega
    | succ turns => rw [readEntries, if_pos (by omega)]
  | cons x rest ih =>
    obtain ⟨key, d⟩ := x
    rw [membersBytes] at h hturns
    have hkey := drop_add_of_drop h
    have hpos := length_pos_of_ne_nil d.bytes_ne_nil
    have hkeypos := length_pos_of_ne_nil (emitStr_ne_nil key)
    have hkeyend := add_length_le_of_drop (emitStr_ne_nil key) h
    have hend := add_length_le_of_drop d.bytes_ne_nil hkey
    rw [length_append, length_append] at hturns
    cases turns with
    | zero => omega
    | succ turns =>
      rw [readEntries, if_neg (by omega), readKey_of_drop (hkeys _ mem_cons_self) h]
      simp only [bind_eq_bind, bind_some]
      rw [hmembers (key, d) mem_cons_self body _ _ turns hkey (show 2 * d.bytes.length ≤ turns by omega)]
      simp only [bind_some]
      rw [ih (forall_mem_cons.mp hkeys).2 (forall_mem_cons.mp hmembers).2 hend (drop_add_of_drop hkey) (by omega)]
      rfl

theorem Encodable.readsBack {room : Nat} {d : Doc} (h : Encodable room d) : ReadsBack d := by
  induction h with
  | @scalar room s hs =>
    intro body t off turns hdrop hturns
    have hpos := length_pos_of_ne_nil (Doc.bytes_ne_nil (.scalar s))
    cases turns with
    | zero => omega
    | succ turns =>
      rw [Doc.bytes] at hdrop ⊢
      rw [readDoc, readValue_scalar hs hdrop]
      cases s <;> rfl
  | @arr room items hitems hlen ih =>
    intro body t off turns hdrop hturns
    rw [Doc.bytes] at hdrop hturns ⊢
    rw [container, length_cons, length_append, leBytes_length] at hturns
    cases turns with
    | zero => omega
    | succ turns =>
      rw [readDoc, readValue_arr hlen hdrop]
      simp only [bind_eq_bind, bind_some]
      rw [readItems_of_drop ih zero_le rfl (by omega)]
      rfl
  | @obj room members hkeys hmembers hlen ih =>
    intro body t off turns hdrop hturns
    rw [Doc.bytes] at hdrop hturns ⊢
    rw [container, length_cons, length_append, leBytes_length] at hturns
    cases turns with
    | zero => omega
    | succ turns =>
      rw [readDoc, readValue_obj hlen hdrop]
      simp only [bind_eq_bind, bind_some]
      rw [readEntries_of_drop hkeys ih zero_le rfl (by omega)]
      rfl

theorem decodeBody_bytes {room : Nat} {d : Doc} (h : Encodable room d) : decodeBody d.bytes = some d := by
  rw [decodeBody, h.readsBack d.bytes [] 0 _ (by rw [append_nil]; rfl) (by omega)]
  simp

/-- The reader and the skip consume the same extent, on any bytes. -/
theorem skipValue_of_readValue {value : ValueRef} {next : Nat} (h : readValue body off = some (value, next)) :
    skipValue body off = some next := by
  rw [readValue, bind_eq_bind, bind_eq_some_iff] at h
  obtain ⟨tag, htag, h⟩ := h
  rw [skipValue, htag, bind_eq_bind, bind_some]
  have hnext {v : ValueRef} {n : Nat} (h : some (v, n) = some (value, next)) : n = next :=
    (Prod.mk.inj (some.inj h)).2
  have hwide {make : Bytes → ValueRef} (h : ((readU24 body (off + 1)).bind fun len =>
        (region body (off + 4) len).bind fun s => some (make s, off + 4 + len)) = some (value, next)) :
      ((readU24 body (off + 1)).bind fun len => some (off + 4 + len)) = some next := by
    obtain ⟨len, hlen, h⟩ := bind_eq_some_iff.mp h
    obtain ⟨s, -, h⟩ := bind_eq_some_iff.mp h
    rw [hlen]
    exact congrArg some (hnext h)
  -- one case for each tag, in the order of the tests
  by_cases hfix : isFixint tag = true
  · rw [if_pos hfix] at h ⊢
    exact congrArg some (hnext h)
  rw [if_neg hfix] at h ⊢
  by_cases hstr : isFixstr tag = true
  · rw [if_pos hstr] at h ⊢
    obtain ⟨s, -, h⟩ := bind_eq_some_iff.mp h
    exact congrArg some (hnext h)
  rw [if_neg hstr] at h ⊢
  by_cases hnull : tag = tagNull
  · rw [if_pos hnull] at h
    rw [if_pos (.inl hnull)]
    exact congrArg some (hnext h)
  rw [if_neg hnull] at h
  by_cases hfalse : tag = tagFalse
  · rw [if_pos hfalse] at h
    rw [if_pos (.inr (.inl hfalse))]
    exact congrArg some (hnext h)
  rw [if_neg hfalse] at h
  by_cases htrue : tag = tagTrue
  · rw [if_pos htrue] at h
    rw [if_pos (.inr (.inr htrue))]
    exact congrArg some (hnext h)
  have hliteral : ¬ (tag = tagNull ∨ tag = tagFalse ∨ tag = tagTrue) := by
    intro h
    rcases h with h | h | h <;> contradiction
  rw [if_neg htrue] at h
  rw [if_neg hliteral]
  by_cases hi64 : tag = tagI64
  · rw [if_pos hi64] at h ⊢
    obtain ⟨⟨raw, used⟩, hvarint, h⟩ := bind_eq_some_iff.mp h
    rw [hvarint]
    exact congrArg some (hnext h)
  rw [if_neg hi64] at h ⊢
  by_cases hf64 : tag = tagF64
  · rw [if_pos hf64] at h ⊢
    obtain ⟨bits, -, h⟩ := bind_eq_some_iff.mp h
    exact congrArg some (hnext h)
  rw [if_neg hf64] at h ⊢
  by_cases hstr8 : tag = tagStr8
  · rw [if_pos hstr8] at h ⊢
    obtain ⟨len, hlen, h⟩ := bind_eq_some_iff.mp h
    obtain ⟨s, -, h⟩ := bind_eq_some_iff.mp h
    rw [hlen]
    exact congrArg some (hnext h)
  rw [if_neg hstr8] at h ⊢
  by_cases hstr24 : tag = tagStr24
  · rw [if_pos hstr24] at h
    rw [if_pos (.inl hstr24)]
    exact hwide h
  rw [if_neg hstr24] at h
  by_cases hobj : tag = tagObj
  · rw [if_pos hobj] at h
    rw [if_pos (.inr (.inl hobj))]
    exact hwide h
  rw [if_neg hobj] at h
  by_cases harr : tag = tagArr
  · rw [if_pos harr] at h
    rw [if_pos (.inr (.inr harr))]
    exact hwide h
  rw [if_neg harr] at h
  simp at h

end Reading

end InfinityDB
