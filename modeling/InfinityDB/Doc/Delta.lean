import InfinityDB.Doc.Apply
import InfinityDB.Doc.Canonical

/-!
# Document deltas

A path mutation as it is logged: an opcode and the bytes of its operand. Replay decodes what capture
encoded, so one operation has one encoding. A panic of the readers is `none`; on what the validator
passes there is none.
-/

namespace InfinityDB.Delta

open Lib List Option

inductive DeltaOpcode where
  | setReplace
  | setMember
  | del
  | numIncrBy
  | numMultBy
  | strAppend
  | toggle
  | clear
  | arrAppend
  | arrInsert
  | arrPop
  | arrTrim
  | merge
deriving DecidableEq

def DeltaOpcode.toU8 : DeltaOpcode → UInt8
  | .setReplace => 1
  | .setMember => 2
  | .del => 3
  | .numIncrBy => 4
  | .numMultBy => 5
  | .strAppend => 6
  | .toggle => 7
  | .clear => 8
  | .arrAppend => 9
  | .arrInsert => 10
  | .arrPop => 11
  | .arrTrim => 12
  | .merge => 13

def DeltaOpcode.fromU8 (tag : UInt8) : Option DeltaOpcode :=
  match tag with
  | 1 => some .setReplace
  | 2 => some .setMember
  | 3 => some .del
  | 4 => some .numIncrBy
  | 5 => some .numMultBy
  | 6 => some .strAppend
  | 7 => some .toggle
  | 8 => some .clear
  | 9 => some .arrAppend
  | 10 => some .arrInsert
  | 11 => some .arrPop
  | 12 => some .arrTrim
  | 13 => some .merge
  | _ => none

inductive DeltaDecodeError where
  | unknownOpcode (tag : UInt8)
  | truncated
  | trailingBytes
  | badVarint
  | badUtf8
  | wrongOperandKind
  | emptyArrayOperand
  | badFragment (error : DocError)
deriving DecidableEq

/-- A path mutation with its operands as bytes. -/
inductive ApplyOp where
  | setReplace (fragment : Bytes)
  | setMember (key fragment : Bytes)
  | del
  | numIncrBy (operand : Number)
  | numMultBy (operand : Number)
  | strAppend (payload : Bytes)
  | toggle
  | clear
  | arrAppend (elements : Bytes)
  | arrInsert (index : Int64) (elements : Bytes)
  | arrPop (index : Int64)
  | arrTrim (start stop : Int64)
  | merge (patch : Bytes)
deriving DecidableEq

def i64LeBytes (v : Int64) : Bytes := leBytes 8 v.toUInt64.toNat

def encodeNumber : Number → Bytes
  | .i64 value => emitI64 value
  | .f64 bits => emitF64 bits

def encodeApplyOp : ApplyOp → DeltaOpcode × Bytes
  | .setReplace fragment => (.setReplace, fragment)
  | .setMember key fragment => (.setMember, encodeVarint (UInt64.ofNat key.length) ++ (key ++ fragment))
  | .del => (.del, [])
  | .numIncrBy operand => (.numIncrBy, encodeNumber operand)
  | .numMultBy operand => (.numMultBy, encodeNumber operand)
  | .strAppend payload => (.strAppend, emitStr payload)
  | .toggle => (.toggle, [])
  | .clear => (.clear, [])
  | .arrAppend elements => (.arrAppend, elements)
  | .arrInsert index elements => (.arrInsert, i64LeBytes index ++ elements)
  | .arrPop index => (.arrPop, i64LeBytes index)
  | .arrTrim start stop => (.arrTrim, i64LeBytes start ++ i64LeBytes stop)
  | .merge patch => (.merge, patch)

/-- What a decoder returns; `none` is a panic. -/
abbrev Decode := ExceptT DeltaDecodeError Option

def Decode.fail {α : Type} (error : DeltaDecodeError) : Decode α := some (.error error)
def Decode.ok {α : Type} (value : α) : Decode α := some (.ok value)

def fragmentValue (bytes : Bytes) : Decode ValueRef :=
  match canonicalFragment bytes with
  | .error error => some (.error (.badFragment error))
  | .ok none => none
  | .ok (some value) => some (.ok value)

def fragment (bytes : Bytes) : Decode Bytes := do
  let _ ← fragmentValue bytes
  .ok bytes

def number (bytes : Bytes) : Decode Number := do
  match ← fragmentValue bytes with
  | .i64 value => .ok (.i64 value)
  | .f64 bits => .ok (.f64 bits)
  | _ => .fail .wrongOperandKind

def string (bytes : Bytes) : Decode Bytes := do
  match ← fragmentValue bytes with
  | .str s => .ok s
  | _ => .fail .wrongOperandKind

def requireArray (bytes : Bytes) : Decode Unit := do
  match ← fragmentValue bytes with
  | .arr [] => .fail .emptyArrayOperand
  | .arr _ => .ok ()
  | _ => .fail .wrongOperandKind

def requireEmpty (bytes : Bytes) : Decode Unit :=
  if bytes.isEmpty then .ok () else .fail .trailingBytes

def i64Prefix (bytes : Bytes) : Decode (Int64 × Bytes) :=
  match region bytes 0 8 with
  | none => .fail .truncated
  | some raw => .ok ((UInt64.ofNat (leValue raw)).toInt64, bytes.drop 8)

/-- The length of a member's key, and the bytes it takes. -/
def keyLen (bytes : Bytes) : Decode (Nat × Nat) :=
  match decodeVarint bytes with
  | none => .fail (if bytes.isEmpty then .truncated else .badVarint)
  | some (len, used) => .ok (len.toNat, used)

def keyAt (bytes : Bytes) (used len : Nat) : Decode Bytes :=
  match region bytes used len with
  | none => .fail .truncated
  | some key => if validUtf8 key then .ok key else .fail .badUtf8

def decodeOperand (opcode : DeltaOpcode) (bytes : Bytes) : Decode ApplyOp :=
  match opcode with
  | .setReplace => do
    let fragment ← fragment bytes
    .ok (.setReplace fragment)
  | .setMember => do
    let (len, used) ← keyLen bytes
    let key ← keyAt bytes used len
    let fragment ← fragment (bytes.drop (used + len))
    .ok (.setMember key fragment)
  | .del => do
    requireEmpty bytes
    .ok .del
  | .numIncrBy => do
    let operand ← number bytes
    .ok (.numIncrBy operand)
  | .numMultBy => do
    let operand ← number bytes
    .ok (.numMultBy operand)
  | .strAppend => do
    let payload ← string bytes
    .ok (.strAppend payload)
  | .toggle => do
    requireEmpty bytes
    .ok .toggle
  | .clear => do
    requireEmpty bytes
    .ok .clear
  | .arrAppend => do
    requireArray bytes
    .ok (.arrAppend bytes)
  | .arrInsert => do
    let (index, tail) ← i64Prefix bytes
    requireArray tail
    .ok (.arrInsert index tail)
  | .arrPop => do
    let (index, tail) ← i64Prefix bytes
    requireEmpty tail
    .ok (.arrPop index)
  | .arrTrim => do
    let (start, tail) ← i64Prefix bytes
    let (stop, tail) ← i64Prefix tail
    requireEmpty tail
    .ok (.arrTrim start stop)
  | .merge => do
    let patch ← fragment bytes
    .ok (.merge patch)

def decodeApplyOp (tag : UInt8) (bytes : Bytes) : Decode ApplyOp :=
  match DeltaOpcode.fromU8 tag with
  | none => .fail (.unknownOpcode tag)
  | some opcode => decodeOperand opcode bytes

section Steps

variable {α β : Type} {bytes : Bytes}

theorem fail_ne_ok {e : DeltaDecodeError} {a : α} : (Decode.fail e : Decode α) ≠ Decode.ok a :=
  fun h => absurd (some.inj h) (by simp)

theorem bind_eq_ok {x : Decode α} {f : α → Decode β} {b : β} :
    (x >>= f) = Decode.ok b ↔ ∃ a, x = Decode.ok a ∧ f a = Decode.ok b := by
  constructor
  · intro h
    match x with
    | none => simp [bind, ExceptT.bind, ExceptT.mk, Decode.ok] at h
    | some (.error e) => exact absurd h fail_ne_ok
    | some (.ok a) => exact ⟨a, rfl, h⟩
  · intro h
    obtain ⟨a, rfl, h⟩ := h
    exact h

private theorem bind_ne_none {x : Decode α} {f : α → Decode β} (hx : x ≠ none) (hf : ∀ a, f a ≠ none) : (x >>= f) ≠ none := by
  match x, hx with
  | some (.error e), _ => simp [bind, ExceptT.bind, ExceptT.mk, ExceptT.bindCont, pure]
  | some (.ok a), _ => exact hf a

theorem ok_inj {a b : α} (h : (Decode.ok a : Decode α) = Decode.ok b) : a = b := Except.ok.inj (some.inj h)

@[simp] theorem ok_ne_none (a : α) : (Decode.ok a : Decode α) ≠ none := some_ne_none _

@[simp] theorem fail_ne_none (e : DeltaDecodeError) : (Decode.fail e : Decode α) ≠ none := some_ne_none _

/-- A document as the reader returns its root. -/
def Doc.ref : Doc → ValueRef
  | .scalar s => s.ref
  | .arr items => .arr (itemsBytes items)
  | .obj members => .obj (membersBytes members)

private theorem readValue_root {d : Doc} (h : Encodable depthMax d) : readValue d.bytes 0 = some (Doc.ref d, d.bytes.length) := by
  have hdrop : d.bytes.drop 0 = d.bytes ++ [] := by rw [append_nil, drop_zero]
  generalize hbody : d.bytes = body at hdrop ⊢
  nth_rewrite 2 [← hbody] at hdrop
  rw [← hbody, ← zero_add d.bytes.length, hbody]
  cases h with
  | scalar hs =>
    rw [Doc.bytes] at hdrop hbody
    rw [readValue_scalar hs hdrop, hbody]
    rfl
  | arr _ hlen =>
    rw [Doc.bytes] at hdrop hbody
    rw [readValue_arr hlen hdrop, hbody]
    rfl
  | obj _ _ hlen =>
    rw [Doc.bytes] at hdrop hbody
    rw [readValue_obj hlen hdrop, hbody]
    rfl

/-- A fragment is the encoding of a document, and its value the root. -/
theorem fragmentValue_eq_ok {value : ValueRef} :
    fragmentValue bytes = Decode.ok value ↔ ∃ d, Encodable depthMax d ∧ bytes = d.bytes ∧ value = Doc.ref d := by
  constructor
  · intro h
    cases hvalid : validateBody bytes with
    | error e =>
      rw [fragmentValue, canonicalFragment, hvalid] at h
      exact absurd h fail_ne_ok
    | ok u =>
      obtain ⟨d, hd, rfl⟩ := validateBody_eq_ok.mp hvalid
      rw [fragmentValue, canonicalFragment, hvalid] at h
      simp only [bind, Except.bind, readValue_root hd] at h
      exact ⟨d, hd, rfl, (ok_inj h).symm⟩
  · intro h
    obtain ⟨d, hd, rfl, rfl⟩ := h
    rw [fragmentValue, canonicalFragment, validateBody_bytes hd]
    simp only [bind, Except.bind, readValue_root hd]
    rfl

private theorem fragmentValue_ne_none (bytes : Bytes) : fragmentValue bytes ≠ none := by
  cases hvalid : validateBody bytes with
  | error e =>
    rw [fragmentValue, canonicalFragment, hvalid]
    exact fail_ne_none _
  | ok u =>
    obtain ⟨d, hd, rfl⟩ := validateBody_eq_ok.mp hvalid
    rw [fragmentValue_eq_ok.mpr ⟨d, hd, rfl, rfl⟩]
    exact ok_ne_none _

def Fragment (bytes : Bytes) : Prop := validateBody bytes = .ok ()

def Elements (bytes : Bytes) : Prop := ∃ items, items ≠ [] ∧ Encodable depthMax (.arr items) ∧ bytes = (Doc.arr items).bytes

def Finite : Number → Prop
  | .i64 _ => True
  | .f64 bits => (⟨bits⟩ : Binary64).isFinite = true

theorem fragment_eq_ok {r : Bytes} : fragment bytes = Decode.ok r ↔ Fragment bytes ∧ r = bytes := by
  rw [fragment, bind_eq_ok, Fragment, validateBody_eq_ok]
  constructor
  · intro h
    obtain ⟨value, hvalue, hr⟩ := h
    obtain ⟨d, hd, hbytes, -⟩ := fragmentValue_eq_ok.mp hvalue
    exact ⟨⟨d, hd, hbytes⟩, (ok_inj hr).symm⟩
  · intro h
    obtain ⟨⟨d, hd, hbytes⟩, rfl⟩ := h
    exact ⟨Doc.ref d, fragmentValue_eq_ok.mpr ⟨d, hd, hbytes, rfl⟩, rfl⟩

/-- A scalar operand: its value is read back from its encoding. -/
private theorem scalar_of_ref {d : Doc} {s : Scalar} (hd : Encodable depthMax d) (h : Doc.ref d = s.ref) :
    s.Fits ∧ d.bytes = emitScalar s := by
  cases hd with
  | @scalar _ s' hs =>
    have heq : s' = s := by
      rw [Doc.ref] at h
      cases s <;> cases s' <;> simp_all [Scalar.ref]
    rw [Doc.bytes, ← heq]
    exact ⟨hs, rfl⟩
  | arr _ _ | obj _ _ _ => cases s <;> simp [Doc.ref, Scalar.ref] at h

theorem fragmentValue_scalar {s : Scalar} : fragmentValue bytes = Decode.ok s.ref ↔ s.Fits ∧ bytes = emitScalar s := by
  rw [fragmentValue_eq_ok]
  constructor
  · intro h
    obtain ⟨d, hd, rfl, hvalue⟩ := h
    exact scalar_of_ref hd hvalue.symm
  · intro h
    obtain ⟨hs, rfl⟩ := h
    exact ⟨.scalar s, .scalar hs, by rw [Doc.bytes], rfl⟩

theorem number_eq_ok {n : Number} : number bytes = Decode.ok n ↔ Finite n ∧ bytes = encodeNumber n := by
  have hi64 {v : Int64} : fragmentValue bytes = Decode.ok (.i64 v) ↔ True ∧ bytes = emitI64 v :=
    @fragmentValue_scalar bytes (.i64 v)
  have hf64 {bits : UInt64} :
      fragmentValue bytes = Decode.ok (.f64 bits) ↔ (⟨bits⟩ : Binary64).isFinite = true ∧ bytes = emitF64 bits :=
    @fragmentValue_scalar bytes (.f64 bits)
  rw [number, bind_eq_ok]
  constructor
  · intro h
    obtain ⟨value, hvalue, h⟩ := h
    cases value with
    | i64 v =>
      rw [← ok_inj h]
      exact hi64.mp hvalue
    | f64 bits =>
      rw [← ok_inj h]
      exact hf64.mp hvalue
    | _ => exact absurd h fail_ne_ok
  · intro h
    cases n with
    | i64 v => exact ⟨.i64 v, hi64.mpr h, rfl⟩
    | f64 bits => exact ⟨.f64 bits, hf64.mpr h, rfl⟩

theorem string_eq_ok {s : Bytes} : string bytes = Decode.ok s ↔ StrFits s ∧ bytes = emitStr s := by
  have hstr {s : Bytes} : fragmentValue bytes = Decode.ok (.str s) ↔ StrFits s ∧ bytes = emitStr s :=
    @fragmentValue_scalar bytes (.str s)
  rw [string, bind_eq_ok]
  constructor
  · intro h
    obtain ⟨value, hvalue, h⟩ := h
    cases value with
    | str s' =>
      rw [← ok_inj h]
      exact hstr.mp hvalue
    | _ => exact absurd h fail_ne_ok
  · intro h
    exact ⟨.str s, hstr.mpr h, rfl⟩

theorem requireArray_eq_ok {u : Unit} : requireArray bytes = Decode.ok u ↔ Elements bytes := by
  rw [requireArray, bind_eq_ok]
  constructor
  · intro h
    obtain ⟨value, hvalue, h⟩ := h
    obtain ⟨d, hd, rfl, rfl⟩ := fragmentValue_eq_ok.mp hvalue
    cases hd with
    | @scalar _ s _ => cases s <;> exact absurd h fail_ne_ok
    | @arr room items hitems hlen =>
      refine ⟨items, ?_, .arr hitems hlen, rfl⟩
      intro hnil
      subst hnil
      exact absurd h fail_ne_ok
    | obj _ _ _ => exact absurd h fail_ne_ok
  · intro h
    obtain ⟨items, hne, hd, rfl⟩ := h
    refine ⟨_, fragmentValue_eq_ok.mpr ⟨_, hd, rfl, rfl⟩, ?_⟩
    have hbytes : itemsBytes items ≠ [] := by
      cases items with
      | nil => exact absurd rfl hne
      | cons d rest =>
        rw [itemsBytes]
        exact append_ne_nil_of_left_ne_nil d.bytes_ne_nil _
    rw [Doc.ref]
    generalize itemsBytes items = inner at hbytes
    cases inner with
    | nil => exact absurd rfl hbytes
    | cons b inner => rfl

private theorem requireEmpty_eq_ok {u : Unit} : requireEmpty bytes = Decode.ok u ↔ bytes = [] := by
  rw [requireEmpty]
  cases bytes with
  | nil => exact ⟨fun _ => rfl, fun _ => rfl⟩
  | cons b rest => exact ⟨fun h => absurd h fail_ne_ok, nofun⟩

theorem i64LeBytes_length (v : Int64) : (i64LeBytes v).length = 8 := leBytes_length _ _

theorem i64Prefix_eq_ok {v : Int64} {tail : Bytes} :
    i64Prefix bytes = Decode.ok (v, tail) ↔ bytes = i64LeBytes v ++ tail := by
  rw [i64Prefix]
  constructor
  · intro h
    split at h
    · exact absurd h fail_ne_ok
    rename_i raw hraw
    obtain ⟨rfl, rfl⟩ := Prod.mk.inj (ok_inj h)
    obtain ⟨hdrop, hlen, -⟩ := drop_of_region hraw
    have hlt := leValue_lt raw
    have hbytes := leBytes_leValue raw
    rw [hlen] at hlt hbytes
    have hword : (UInt64.ofNat (leValue raw)).toInt64.toUInt64.toNat = leValue raw := by
      rw [UInt64.toUInt64_toInt64, UInt64.toNat_ofNat', Nat.mod_eq_of_lt (lt_of_lt_of_le hlt (by decide))]
    rw [i64LeBytes, hword, hbytes]
    exact hdrop
  · intro h
    subst h
    have hregion := @region_of_drop _ (i64LeBytes v ++ tail) (i64LeBytes v) tail 0 zero_le rfl
    rw [i64LeBytes_length] at hregion
    rw [hregion]
    have hvalue : leValue (i64LeBytes v) = v.toUInt64.toNat := leValue_leBytes v.toUInt64.toNat_lt
    have hdrop : (i64LeBytes v ++ tail).drop 8 = tail := drop_left' (i64LeBytes_length v)
    simp only [hvalue, hdrop, UInt64.ofNat_toNat, Int64.toInt64_toUInt64]

theorem keyLen_eq_ok {len used : Nat} :
    keyLen bytes = Decode.ok (len, used) ↔ ∃ v t, bytes = encodeVarint v ++ t ∧ len = v.toNat ∧
      used = (encodeVarint v).length := by
  rw [keyLen]
  constructor
  · intro h
    cases hvarint : decodeVarint bytes with
    | none =>
      rw [hvarint] at h
      exact absurd h fail_ne_ok
    | some r =>
      obtain ⟨v, n⟩ := r
      rw [hvarint] at h
      obtain ⟨rfl, rfl⟩ := Prod.mk.inj (ok_inj h)
      obtain ⟨t, hbytes, hused⟩ := encodeVarint_of_decodeVarint hvarint
      exact ⟨v, t, hbytes, rfl, hused⟩
  · intro h
    obtain ⟨v, t, rfl, rfl, rfl⟩ := h
    rw [decodeVarint_encodeVarint]

theorem keyAt_eq_ok {used len : Nat} {key : Bytes} :
    keyAt bytes used len = Decode.ok key ↔ region bytes used len = some key ∧ validUtf8 key = true := by
  rw [keyAt]
  cases hregion : region bytes used len with
  | none => exact ⟨fun h => absurd h fail_ne_ok, fun h => absurd h.1 (by simp)⟩
  | some k =>
    simp only
    split
    next hutf8 =>
      constructor
      · intro h
        obtain rfl := ok_inj h
        exact ⟨rfl, hutf8⟩
      · intro h
        rw [some.inj h.1]
    next hutf8 =>
      constructor
      · intro h
        exact absurd h fail_ne_ok
      · intro h
        rw [some.inj h.1] at hutf8
        exact absurd h.2 hutf8

end Steps

/-- Operands in their canonical form. A key's length is a machine word, as any slice's. -/
def ApplyOp.Canonical : ApplyOp → Prop
  | .setReplace fragment => Fragment fragment
  | .setMember key fragment => validUtf8 key = true ∧ key.length < 2 ^ 64 ∧ Fragment fragment
  | .numIncrBy operand => Finite operand
  | .numMultBy operand => Finite operand
  | .strAppend payload => StrFits payload
  | .arrAppend elements => Elements elements
  | .arrInsert _ elements => Elements elements
  | .merge patch => Fragment patch
  | _ => True

variable {op : ApplyOp} {bytes : Bytes} {tag : UInt8}

theorem map_eq_ok {α : Type} {x : Decode α} {make : α → ApplyOp} :
    (do let a ← x; Decode.ok (make a)) = Decode.ok op ↔ ∃ a, x = Decode.ok a ∧ op = make a := by
  rw [bind_eq_ok]
  constructor
  · intro h
    obtain ⟨a, ha, hop⟩ := h
    exact ⟨a, ha, (ok_inj hop).symm⟩
  · intro h
    obtain ⟨a, ha, rfl⟩ := h
    exact ⟨a, ha, rfl⟩

private theorem setMember_of_decode (h : decodeOperand .setMember bytes = Decode.ok op) :
    op.Canonical ∧ encodeApplyOp op = (.setMember, bytes) := by
  rw [decodeOperand] at h
  obtain ⟨⟨len, used⟩, hlen, h⟩ := bind_eq_ok.mp h
  obtain ⟨v, t, rfl, rfl, rfl⟩ := keyLen_eq_ok.mp hlen
  obtain ⟨key, hkey, h⟩ := bind_eq_ok.mp h
  obtain ⟨hregion, hutf8⟩ := keyAt_eq_ok.mp hkey
  obtain ⟨frag, hfrag, rfl⟩ := map_eq_ok.mp h
  obtain ⟨hfragment, rfl⟩ := fragment_eq_ok.mp hfrag
  obtain ⟨hdrop, hcount, -⟩ := drop_of_region hregion
  have hlt := v.toNat_lt
  refine ⟨⟨hutf8, by omega, hfragment⟩, ?_⟩
  rw [encodeApplyOp, hcount, UInt64.ofNat_toNat, ← hdrop, drop_left]

private theorem decode_setMember {key frag : Bytes} (hutf8 : validUtf8 key = true) (hlen : key.length < 2 ^ 64)
    (hfragment : Fragment frag) : decodeOperand .setMember (encodeVarint (UInt64.ofNat key.length) ++ (key ++ frag)) =
      Decode.ok (.setMember key frag) := by
  have hcount : (UInt64.ofNat key.length).toNat = key.length := by
    rw [UInt64.toNat_ofNat', Nat.mod_eq_of_lt hlen]
  have hdrop : (encodeVarint (UInt64.ofNat key.length) ++ (key ++ frag)).drop
      (encodeVarint (UInt64.ofNat key.length)).length = key ++ frag := drop_left
  rw [decodeOperand]
  refine bind_eq_ok.mpr ⟨(key.length, (encodeVarint (UInt64.ofNat key.length)).length),
    keyLen_eq_ok.mpr ⟨_, _, rfl, hcount.symm, rfl⟩, ?_⟩
  refine bind_eq_ok.mpr ⟨key, keyAt_eq_ok.mpr ⟨region_of_drop ?_ hdrop, hutf8⟩, ?_⟩
  · rw [length_append]
    exact Nat.le_add_right _ _
  · rw [drop_add_of_drop hdrop]
    exact map_eq_ok.mpr ⟨frag, fragment_eq_ok.mpr ⟨hfragment, rfl⟩, rfl⟩

/-- An accepted operand is the encoding of a canonical operation. -/
private theorem encode_of_decodeOperand {opcode : DeltaOpcode}
    (h : decodeOperand opcode bytes = Decode.ok op) : op.Canonical ∧ encodeApplyOp op = (opcode, bytes) := by
  cases opcode with
  | setMember => exact setMember_of_decode h
  | setReplace | merge =>
    obtain ⟨frag, hfrag, rfl⟩ := map_eq_ok.mp h
    obtain ⟨hfragment, rfl⟩ := fragment_eq_ok.mp hfrag
    exact ⟨hfragment, rfl⟩
  | del | toggle | clear =>
    obtain ⟨_, hempty, hop⟩ := bind_eq_ok.mp h
    obtain rfl := requireEmpty_eq_ok.mp hempty
    rw [← ok_inj hop]
    exact ⟨trivial, rfl⟩
  | numIncrBy | numMultBy =>
    obtain ⟨n, hn, rfl⟩ := map_eq_ok.mp h
    obtain ⟨hfinite, rfl⟩ := number_eq_ok.mp hn
    exact ⟨hfinite, rfl⟩
  | strAppend =>
    obtain ⟨payload, hpayload, rfl⟩ := map_eq_ok.mp h
    obtain ⟨hfits, rfl⟩ := string_eq_ok.mp hpayload
    exact ⟨hfits, rfl⟩
  | arrAppend =>
    obtain ⟨_, harray, hop⟩ := bind_eq_ok.mp h
    rw [← ok_inj hop]
    exact ⟨requireArray_eq_ok.mp harray, rfl⟩
  | arrInsert =>
    obtain ⟨⟨index, tail⟩, hindex, h⟩ := bind_eq_ok.mp h
    obtain ⟨_, harray, hop⟩ := bind_eq_ok.mp h
    rw [← ok_inj hop, i64Prefix_eq_ok.mp hindex]
    exact ⟨requireArray_eq_ok.mp harray, rfl⟩
  | arrPop =>
    obtain ⟨⟨index, tail⟩, hindex, h⟩ := bind_eq_ok.mp h
    obtain ⟨_, hempty, hop⟩ := bind_eq_ok.mp h
    obtain rfl := requireEmpty_eq_ok.mp hempty
    rw [← ok_inj hop, i64Prefix_eq_ok.mp hindex, append_nil]
    exact ⟨trivial, rfl⟩
  | arrTrim =>
    obtain ⟨⟨start, tail⟩, hstart, h⟩ := bind_eq_ok.mp h
    obtain ⟨⟨stop, tail'⟩, hstop, h⟩ := bind_eq_ok.mp h
    obtain ⟨_, hempty, hop⟩ := bind_eq_ok.mp h
    obtain rfl := requireEmpty_eq_ok.mp hempty
    rw [← ok_inj hop, i64Prefix_eq_ok.mp hstart, i64Prefix_eq_ok.mp hstop, append_nil]
    exact ⟨trivial, rfl⟩

/-- The encoding of a canonical operation is accepted. -/
private theorem decodeOperand_encode (h : op.Canonical) :
    decodeOperand (encodeApplyOp op).1 (encodeApplyOp op).2 = Decode.ok op := by
  cases op with
  | setMember key frag => exact decode_setMember h.1 h.2.1 h.2.2
  | setReplace frag | merge frag => exact map_eq_ok.mpr ⟨frag, fragment_eq_ok.mpr ⟨h, rfl⟩, rfl⟩
  | del | toggle | clear => rfl
  | numIncrBy n | numMultBy n => exact map_eq_ok.mpr ⟨n, number_eq_ok.mpr ⟨h, rfl⟩, rfl⟩
  | strAppend payload => exact map_eq_ok.mpr ⟨payload, string_eq_ok.mpr ⟨h, rfl⟩, rfl⟩
  | arrAppend elements => exact bind_eq_ok.mpr ⟨(), requireArray_eq_ok.mpr h, rfl⟩
  | arrInsert index elements =>
    refine bind_eq_ok.mpr ⟨(index, elements), i64Prefix_eq_ok.mpr rfl, ?_⟩
    exact bind_eq_ok.mpr ⟨(), requireArray_eq_ok.mpr h, rfl⟩
  | arrPop index =>
    refine bind_eq_ok.mpr ⟨(index, []), i64Prefix_eq_ok.mpr ?_, rfl⟩
    rw [encodeApplyOp, append_nil]
  | arrTrim start stop =>
    refine bind_eq_ok.mpr ⟨(start, i64LeBytes stop), i64Prefix_eq_ok.mpr rfl, ?_⟩
    refine bind_eq_ok.mpr ⟨(stop, []), i64Prefix_eq_ok.mpr ?_, rfl⟩
    rw [append_nil]

/-- No canonical value is followed by more bytes of another. -/
private theorem fragment_append {k extra : Bytes} (hk : Fragment k) (h : Fragment (k ++ extra)) : extra = [] := by
  obtain ⟨d, hd, rfl⟩ := validateBody_eq_ok.mp hk
  obtain ⟨e, he, hbytes⟩ := validateBody_eq_ok.mp h
  have hread := hd.readsBack (d.bytes ++ extra) extra 0 (2 * (d.bytes ++ extra).length) rfl
    (by rw [length_append]; omega)
  rw [hbytes, he.readsBack e.bytes [] 0 _ (by rw [append_nil]; rfl) le_rfl] at hread
  have hlen := congrArg List.length hbytes
  have hnext := (Prod.mk.inj (some.inj hread)).2
  rw [length_append] at hlen
  exact length_eq_zero_iff.mp (by omega)

theorem fragment_of_scalar {s : Scalar} (h : s.Fits) : Fragment (emitScalar s) := by
  have hbytes : emitScalar s = (Doc.scalar s).bytes := by rw [Doc.bytes]
  rw [Fragment, hbytes]
  exact validateBody_bytes (.scalar h)

private theorem fragment_of_number {n : Number} (h : Finite n) : Fragment (encodeNumber n) := by
  cases n with
  | i64 v => exact @fragment_of_scalar (.i64 v) trivial
  | f64 bits => exact @fragment_of_scalar (.f64 bits) h

private theorem fragment_of_string {s : Bytes} (h : StrFits s) : Fragment (emitStr s) := @fragment_of_scalar (.str s) h

private theorem fragment_of_elements {k : Bytes} (h : Elements k) : Fragment k := by
  obtain ⟨items, -, hd, rfl⟩ := h
  exact validateBody_bytes hd

/-- No encoding is a proper start of another with its opcode. -/
private theorem encode_append {op' : ApplyOp} {extra : Bytes} (h : op.Canonical) (h' : op'.Canonical)
    (hbytes : encodeApplyOp op' = ((encodeApplyOp op).1, (encodeApplyOp op).2 ++ extra)) : extra = [] := by
  have hcode : (encodeApplyOp op').1 = (encodeApplyOp op).1 := by rw [hbytes]
  replace hbytes : (encodeApplyOp op').2 = (encodeApplyOp op).2 ++ extra := by rw [hbytes]
  have hlen := congrArg List.length hbytes
  rw [length_append] at hlen
  cases op <;> cases op' <;> cases hcode
  case setReplace.setReplace k k' | merge.merge k k' =>
    have hk' : Fragment k' := h'
    rw [show k' = k ++ extra from hbytes] at hk'
    exact fragment_append h hk'
  case setMember.setMember key frag key' frag' =>
    obtain ⟨-, hkey, hfrag⟩ := h
    obtain ⟨-, hkey', hfrag'⟩ := h'
    replace hbytes : encodeVarint (UInt64.ofNat key'.length) ++ (key' ++ frag') =
        encodeVarint (UInt64.ofNat key.length) ++ (key ++ frag) ++ extra := hbytes
    rw [append_assoc, append_assoc] at hbytes
    have hdecode := decodeVarint_encodeVarint (UInt64.ofNat key'.length) (key' ++ frag')
    rw [hbytes, decodeVarint_encodeVarint] at hdecode
    have hcount := congrArg UInt64.toNat (Prod.mk.inj (some.inj hdecode)).1
    rw [UInt64.toNat_ofNat', UInt64.toNat_ofNat', Nat.mod_eq_of_lt hkey, Nat.mod_eq_of_lt hkey'] at hcount
    rw [hcount] at hbytes
    obtain ⟨-, hrest⟩ := append_inj (append_cancel_left hbytes) hcount.symm
    rw [hrest] at hfrag'
    exact fragment_append hfrag hfrag'
  case numIncrBy.numIncrBy n n' | numMultBy.numMultBy n n' =>
    have hn' := fragment_of_number h'
    rw [show encodeNumber n' = encodeNumber n ++ extra from hbytes] at hn'
    exact fragment_append (fragment_of_number h) hn'
  case strAppend.strAppend k k' =>
    have hk' := fragment_of_string h'
    rw [show emitStr k' = emitStr k ++ extra from hbytes] at hk'
    exact fragment_append (fragment_of_string h) hk'
  case arrAppend.arrAppend k k' =>
    have hk' := fragment_of_elements h'
    rw [show k' = k ++ extra from hbytes] at hk'
    exact fragment_append (fragment_of_elements h) hk'
  case arrInsert.arrInsert i k i' k' =>
    have hk' := fragment_of_elements h'
    replace hbytes : i64LeBytes i' ++ k' = i64LeBytes i ++ k ++ extra := hbytes
    rw [append_assoc] at hbytes
    rw [(append_inj hbytes (by rw [i64LeBytes_length, i64LeBytes_length])).2] at hk'
    exact fragment_append (fragment_of_elements h) hk'
  all_goals
    -- the operands of a fixed length
    simp only [encodeApplyOp, length_nil, length_append, i64LeBytes_length] at hlen
    exact length_eq_zero_iff.mp (by omega)

theorem fromU8_toU8 (opcode : DeltaOpcode) : DeltaOpcode.fromU8 opcode.toU8 = some opcode := by cases opcode <;> rfl

private theorem toU8_injective {a b : DeltaOpcode} (h : a.toU8 = b.toU8) : a = b := by
  have hsame := fromU8_toU8 a
  rw [h, fromU8_toU8] at hsame
  exact (some.inj hsame).symm

theorem toU8_of_fromU8 {opcode : DeltaOpcode} (h : DeltaOpcode.fromU8 tag = some opcode) : opcode.toU8 = tag := by
  unfold DeltaOpcode.fromU8 at h
  split at h <;> cases h <;> rfl

private theorem decodeApplyOp_eq_ok : decodeApplyOp tag bytes = Decode.ok op ↔
      op.Canonical ∧ (encodeApplyOp op).1.toU8 = tag ∧ (encodeApplyOp op).2 = bytes := by
  constructor
  · intro h
    rw [decodeApplyOp] at h
    split at h
    · exact absurd h fail_ne_ok
    rename_i opcode hcode
    obtain ⟨hcanonical, hbytes⟩ := encode_of_decodeOperand h
    rw [hbytes]
    exact ⟨hcanonical, toU8_of_fromU8 hcode, rfl⟩
  · intro h
    obtain ⟨hcanonical, rfl, rfl⟩ := h
    rw [decodeApplyOp, fromU8_toU8]
    exact decodeOperand_encode hcanonical

/-- Decoding never panics: what a reader meets has passed the validator. -/
private theorem decodeApplyOp_ne_none (tag : UInt8) (bytes : Bytes) : decodeApplyOp tag bytes ≠ none := by
  have hfragment (bytes : Bytes) : fragment bytes ≠ none :=
    bind_ne_none (fragmentValue_ne_none bytes) fun _ => ok_ne_none _
  have hnumber (bytes : Bytes) : number bytes ≠ none := by
    apply bind_ne_none (fragmentValue_ne_none bytes)
    intro value
    cases value <;> simp
  have hstring (bytes : Bytes) : string bytes ≠ none := by
    apply bind_ne_none (fragmentValue_ne_none bytes)
    intro value
    cases value <;> simp
  have harray (bytes : Bytes) : requireArray bytes ≠ none := by
    apply bind_ne_none (fragmentValue_ne_none bytes)
    intro value
    split <;> simp
  have hempty (bytes : Bytes) : requireEmpty bytes ≠ none := by
    rw [requireEmpty]
    split <;> simp
  have hi64 (bytes : Bytes) : i64Prefix bytes ≠ none := by
    rw [i64Prefix]
    split <;> simp
  have hkeyLen (bytes : Bytes) : keyLen bytes ≠ none := by
    rw [keyLen]
    split <;> simp
  have hkeyAt (bytes : Bytes) (used len : Nat) : keyAt bytes used len ≠ none := by
    rw [keyAt]
    split
    · exact fail_ne_none _
    · split <;> simp
  rw [decodeApplyOp]
  cases DeltaOpcode.fromU8 tag with
  | none => exact fail_ne_none _
  | some opcode =>
    cases opcode with
    | setReplace | merge => exact bind_ne_none (hfragment bytes) fun _ => ok_ne_none _
    | setMember =>
      exact bind_ne_none (hkeyLen bytes) fun a => bind_ne_none (hkeyAt bytes a.2 a.1) fun _ =>
        bind_ne_none (hfragment _) fun _ => ok_ne_none _
    | del => exact bind_ne_none (hempty bytes) fun _ => ok_ne_none _
    | numIncrBy => exact bind_ne_none (hnumber bytes) fun _ => ok_ne_none _
    | numMultBy => exact bind_ne_none (hnumber bytes) fun _ => ok_ne_none _
    | strAppend => exact bind_ne_none (hstring bytes) fun _ => ok_ne_none _
    | toggle => exact bind_ne_none (hempty bytes) fun _ => ok_ne_none _
    | clear => exact bind_ne_none (hempty bytes) fun _ => ok_ne_none _
    | arrAppend => exact bind_ne_none (harray bytes) fun _ => ok_ne_none _
    | arrInsert => exact bind_ne_none (hi64 bytes) fun a => bind_ne_none (harray a.2) fun _ => ok_ne_none _
    | arrPop => exact bind_ne_none (hi64 bytes) fun a => bind_ne_none (hempty a.2) fun _ => ok_ne_none _
    | arrTrim =>
      exact bind_ne_none (hi64 bytes) fun a => bind_ne_none (hi64 a.2) fun c => bind_ne_none (hempty c.2) fun _ =>
        ok_ne_none _

/-- What is not accepted is refused with an error. -/
private theorem refused_of_ne_ok (h : ∀ op, decodeApplyOp tag bytes ≠ Decode.ok op) :
    ∃ error, decodeApplyOp tag bytes = Decode.fail error := by
  match hdecode : decodeApplyOp tag bytes with
  | none => exact absurd hdecode (decodeApplyOp_ne_none tag bytes)
  | some (.error error) => exact ⟨error, rfl⟩
  | some (.ok op) => exact absurd hdecode (h op)

/-- An operation is decoded from its encoding, and an accepted operand is the one encoding of what it
decodes to. An unknown opcode, bytes behind an operand, an operand that is not canonical and a key
length that is not a minimal varint are refused with an error. -/
theorem applyOp_codec :
    (∀ op : ApplyOp, op.Canonical → decodeApplyOp (encodeApplyOp op).1.toU8 (encodeApplyOp op).2 = Decode.ok op) ∧
    (∀ tag bytes op, decodeApplyOp tag bytes = Decode.ok op →
      op.Canonical ∧ (encodeApplyOp op).1.toU8 = tag ∧ (encodeApplyOp op).2 = bytes) ∧
    (∀ tag bytes, (∀ opcode : DeltaOpcode, opcode.toU8 ≠ tag) →
      decodeApplyOp tag bytes = Decode.fail (.unknownOpcode tag)) ∧
    (∀ op : ApplyOp, op.Canonical → ∀ extra, extra ≠ [] →
      ∃ error, decodeApplyOp (encodeApplyOp op).1.toU8 ((encodeApplyOp op).2 ++ extra) = Decode.fail error) ∧
    (∀ op : ApplyOp, ¬ op.Canonical → ∀ tag bytes, decodeApplyOp tag bytes ≠ Decode.ok op) ∧
    ∀ bytes, (∀ v t, bytes ≠ encodeVarint v ++ t) →
      ∃ error, decodeApplyOp DeltaOpcode.setMember.toU8 bytes = Decode.fail error := by
  refine ⟨?_, fun tag bytes op => decodeApplyOp_eq_ok.mp, ?_, ?_, ?_, ?_⟩
  · intro op h
    exact decodeApplyOp_eq_ok.mpr ⟨h, rfl, rfl⟩
  · intro tag bytes h
    rw [decodeApplyOp]
    cases hcode : DeltaOpcode.fromU8 tag with
    | none => rfl
    | some opcode => exact absurd (toU8_of_fromU8 hcode) (h opcode)
  · intro op h extra hextra
    apply refused_of_ne_ok
    intro op' hdecode
    obtain ⟨h', hcode, hbytes⟩ := decodeApplyOp_eq_ok.mp hdecode
    apply hextra
    apply encode_append h h'
    rw [← toU8_injective hcode, ← hbytes]
  · intro op h tag bytes hdecode
    exact h (decodeApplyOp_eq_ok.mp hdecode).1
  · intro bytes h
    apply refused_of_ne_ok
    intro op hdecode
    obtain ⟨hcanonical, hcode, hbytes⟩ := decodeApplyOp_eq_ok.mp hdecode
    have hsame := toU8_injective hcode
    cases op <;> cases hsame
    exact h _ _ hbytes.symm

/-- A member with a key of one byte, and the integer 7. -/
theorem applyOp_codec_member : decodeApplyOp 2 [1, 0x6B, 7] = Decode.ok (.setMember [0x6B] [7]) ∧
      ∃ error, decodeApplyOp 2 [1, 0x6B, 7, 0] = Decode.fail error := by
  have hcanonical : (ApplyOp.setMember [0x6B] [7]).Canonical := ⟨by decide, by decide, rfl⟩
  exact ⟨applyOp_codec.1 _ hcanonical, applyOp_codec.2.2.2.1 _ hcanonical [0] (by decide)⟩

end InfinityDB.Delta
