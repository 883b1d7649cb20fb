import InfinityDB.Doc.Builder
import InfinityDB.Doc.Rebuild

/-!
# Scalars patched in place

A number or a boolean on a simple path is overwritten where it stands when its new encoding is as
wide as the old one. The walk to it reads the tape directly: it stops at the first entry of a key
and counts the items of an array. Everything else is left to `apply`. Where both run, the bytes
and the verdict are those of `apply`.
-/

namespace InfinityDB

open Lib List Option

inductive SimpleStep where
  | child (key : Bytes)
  | index (i : Int)

def Segment.simple : Segment → Option SimpleStep
  | .one (.child key) => some (.child key)
  | .one (.index i) => some (.index i)
  | _ => none

/-- The steps of a program that is a root followed by child and index selectors. -/
def simpleSteps : PathProgram → Option (List SimpleStep)
  | [] => some []
  | segment :: program => do
    let step ← segment.simple
    let steps ← simpleSteps program
    some (step :: steps)

/-- The scan of `locate_child`. The count bounds the entries still to be read. -/
def locateEntry (body key : Bytes) (stop : Nat) : Nat → Nat → Option (Option Nat)
  | 0, _ => none
  | turns + 1, off =>
    if off < stop then do
      let (candidate, valueAt) ← readKey body off
      if candidate = key then some (some valueAt)
      else do
        let next ← skipValue body valueAt
        locateEntry body key stop turns next
    else some none

def locateChild (body : Bytes) (pos : Nat) (key : Bytes) : Option (Option Nat) := do
  let tag ← body[pos]?
  if tag ≠ tagObj then some none
  else do
    let stop ← skipValue body pos
    locateEntry body key stop (stop - pos) (pos + 4)

def countItems (body : Bytes) (stop : Nat) : Nat → Nat → Option Nat
  | 0, _ => none
  | turns + 1, off =>
    if off < stop then do
      let next ← skipValue body off
      let count ← countItems body stop turns next
      some (count + 1)
    else some 0

def arrLen (body : Bytes) (pos : Nat) : Option Nat := do
  let stop ← skipValue body pos
  countItems body stop (stop - pos) (pos + 4)

def skipValues (body : Bytes) : Nat → Nat → Option Nat
  | 0, off => some off
  | n + 1, off => do
    let next ← skipValue body off
    skipValues body n next

def arrNthOffset (body : Bytes) (pos n : Nat) : Option Nat := skipValues body n (pos + 4)

def locateIndex (body : Bytes) (pos : Nat) (i : Int) : Option (Option Nat) := do
  let tag ← body[pos]?
  if tag ≠ tagArr then some none
  else do
    let len ← arrLen body pos
    let index := applyIndex i len
    if 0 ≤ index ∧ index < len then do
      let off ← arrNthOffset body pos index.toNat
      some (some off)
    else some none

def SimpleStep.locate (body : Bytes) (pos : Nat) : SimpleStep → Option (Option Nat)
  | child key => locateChild body pos key
  | index i => locateIndex body pos i

/-- `locate_simple`, from a value on. -/
def locateSimple (body : Bytes) : List SimpleStep → Nat → Option (Option Nat)
  | [], pos => some (some pos)
  | step :: steps, pos => do
    match ← step.locate body pos with
    | none => some none
    | some pos => locateSimple body steps pos

inductive ScalarPatch where
  | unsupported
  | missing
  | skipped
  | number (value : Number)
  | toggled (value : Bool)
deriving DecidableEq

def encodeNumber : Number → Bytes
  | .i64 value => emitI64 value
  | .f64 bits => emitF64 bits

def ValueRef.number? : ValueRef → Option Number
  | .i64 value => some (.i64 value)
  | .f64 bits => some (.f64 bits)
  | _ => none

/-- Bytes `start..stop` of a document's body, overwritten. -/
def overwriteBody (idoc : Bytes) (start stop : Nat) (bytes : Bytes) : Bytes :=
  idoc.take (headerLen + start) ++ (bytes ++ idoc.drop (headerLen + stop))

def patchNumber (idoc body : Bytes) (pos : Nat) (operand : Number) (mul : Bool) :
    Option (Except ApplyError ScalarPatch × Bytes) := do
  let (value, stop) ← readValue body pos
  match value.number? with
  | none => some (.ok .skipped, idoc)
  | some current =>
    match numberOp current operand mul with
    | .error e => some (.error e, idoc)
    | .ok result =>
      if (encodeNumber result).length ≠ stop - pos then some (.ok .unsupported, idoc)
      else some (.ok (.number result), overwriteBody idoc pos stop (encodeNumber result))

def patchToggle (idoc body : Bytes) (pos : Nat) : Option (Except ApplyError ScalarPatch × Bytes) := do
  let tag ← body[pos]?
  if tag = tagFalse then some (.ok (.toggled true), overwriteBody idoc pos (pos + 1) [tagTrue])
  else if tag = tagTrue then some (.ok (.toggled false), overwriteBody idoc pos (pos + 1) [tagFalse])
  else some (.ok .skipped, idoc)

/-- `patch_scalar_in_place`: the verdict and the document afterwards. -/
def patchScalarInPlace (idoc : Bytes) (program : PathProgram) (op : ApplyOp) :
    Option (Except ApplyError ScalarPatch × Bytes) :=
  if idoc.getD 3 0 ≠ 0 then some (.ok .unsupported, idoc)
  else
    match simpleSteps program with
    | none => some (.ok .unsupported, idoc)
    | some steps =>
      if idoc.length < headerLen then none
      else do
        let body := idoc.drop headerLen
        match ← locateSimple body steps 0 with
        | none => some (.ok .missing, idoc)
        | some pos =>
          match op with
          | .numIncrBy operand => patchNumber idoc body pos operand false
          | .numMultBy operand => patchNumber idoc body pos operand true
          | .toggle => patchToggle idoc body pos
          | _ => some (.ok .unsupported, idoc)

private theorem varintGroups_size {more v : Nat} (h : v < 2 * 128 ^ more) :
    (varintGroups more v).length = (max v.size 1 + 6) / 7 := by
  induction more generalizing v with
  | zero =>
    have hsize : v.size ≤ 1 := Nat.size_le.mpr (by omega)
    rw [varintGroups, length_singleton]
    omega
  | succ more ih =>
    have hsmall : v < 128 ↔ v.size ≤ 7 := (@Nat.size_le v 7).symm
    rw [varintGroups]
    split
    · rw [length_singleton]
      omega
    have hshift (n : Nat) : v.size ≤ n + 7 ↔ (v / 128).size ≤ n := by
      rw [Nat.size_le, Nat.size_le, Nat.div_lt_iff_lt_mul (by decide), Nat.pow_add]
    have hhigh : v / 128 < 2 * 128 ^ more := by
      rw [Nat.div_lt_iff_lt_mul (by decide), mul_assoc, ← pow_succ]
      exact h
    have hdown := hshift (v.size - 7)
    have hup := hshift (v / 128).size
    have hpos : 0 < (v / 128).size := Nat.size_pos.mpr (by omega)
    rw [length_cons, ih hhigh]
    omega

private theorem emitI64_size (v : Int64) : (emitI64 v).length = (Scalar.i64 v).encodedLen := by
  rw [emitI64, Scalar.encodedLen]
  simp only [isFixintValue_iff]
  split
  · rfl
  have hlt := (zigzag v).toNat_lt
  rw [length_cons, encodeVarint, varintGroups_size (by omega)]
  have hzigzag : (zigzag v).toNat = zigzagNat v.toInt := by
    have hword := toInt_eq_word v
    have hword' := v.toUInt64.toNat_lt
    rw [zigzag_toNat, zigzagNat]
    by_cases hlow : v.toUInt64.toNat < 2 ^ 63
    · rw [if_pos hlow] at hword ⊢
      rw [if_neg (by omega), hword, Int.natAbs_natCast]
    · rw [if_neg hlow] at hword ⊢
      rw [if_pos (by omega)]
      omega
  rw [hzigzag]
  omega

theorem emitStr_size (s : Bytes) : (emitStr s).length = strLen s.length := by
  have h : str24MinLen = 256 := rfl
  have h' : fixstrMaxLen = 31 := rfl
  rw [TapeBuilder.emitStr_length, TapeBuilder.strHeaderLen, strLen, h, h', add_comm]

mutual

theorem Doc.bytes_length : (d : Doc) → d.bytes.length = d.encodedLen
  | .scalar s => by
    cases s with
    | null | bool b => rfl
    | i64 v => exact emitI64_size v
    | f64 bits => simp [Doc.bytes, emitScalar, emitF64, Doc.encodedLen, Scalar.encodedLen]
    | str s => exact emitStr_size s
  | .arr items => by
    rw [Doc.bytes, container, length_cons, length_append, leBytes_length, itemsBytes_length items, Doc.encodedLen]
    omega
  | .obj members => by
    rw [Doc.bytes, container, length_cons, length_append, leBytes_length, membersBytes_length members, Doc.encodedLen]
    omega

theorem itemsBytes_length : (items : List Doc) → (itemsBytes items).length = encodedItems items
  | [] => rfl
  | d :: items => by
    rw [itemsBytes, length_append, d.bytes_length, itemsBytes_length items, encodedItems]

theorem membersBytes_length : (members : List (Bytes × Doc)) → (membersBytes members).length = encodedMembers members
  | [] => rfl
  | (key, d) :: members => by
    rw [membersBytes, length_append, length_append, emitStr_size, d.bytes_length, membersBytes_length members,
      encodedMembers, add_assoc]

end

private theorem survivors_same {α : Type} {keep : Nat → Bool} {f : Nat → α → α} {n : Nat} {xs : List α}
    (hkeep : ∀ k, keep k = true) (hsame : ∀ k, n ≤ k → k < n + xs.length → ∀ x, f k x = x) : survivors keep f n xs = xs := by
  induction xs generalizing n with
  | nil => rfl
  | cons x xs ih =>
    rw [length_cons] at hsame
    rw [survivors, hkeep, hsame n (Nat.le_refl n) (by omega), ih fun k hk hlt => hsame k (by omega) (by omega)]
    rfl

/-- Only one entry is not as it was. -/
theorem survivors_one {α : Type} {keep : Nat → Bool} {f : Nat → α → α} {left right : List α} {x y : α}
    (hkeep : ∀ k, keep k = true) (hone : f left.length x = y) (hsame : ∀ k, k ≠ left.length → ∀ z, f k z = z) :
    survivors keep f 0 (left ++ x :: right) = left ++ y :: right := by
  rw [survivors_append, survivors_same hkeep fun k _ hk => hsame k (by omega), survivors, hkeep, zero_add, hone,
    survivors_same hkeep fun k hk _ => hsame k (by omega)]
  rfl

mutual

theorem Doc.rebuild_nil : (d : Doc) → d.rebuild [] = d
  | .scalar value => rfl
  | .arr items => congrArg Doc.arr (rebuildItems_nil 0 items)
  | .obj members => by
    change Doc.obj (rebuildMembers [] 0 members ++ []) = _
    rw [append_nil, rebuildMembers_nil 0 members]

theorem rebuildItems_nil : (n : Nat) → (items : List Doc) → rebuildItems [] n items = items
  | _, [] => rfl
  | n, item :: items => by
    change item.rebuild [] :: rebuildItems [] (n + 1) items = _
    rw [item.rebuild_nil, rebuildItems_nil (n + 1) items]

theorem rebuildMembers_nil : (n : Nat) → (members : List (Bytes × Doc)) → rebuildMembers [] n members = members
  | _, [] => rfl
  | n, (key, value) :: members => by
    change (key, value.rebuild []) :: rebuildMembers [] (n + 1) members = _
    rw [value.rebuild_nil, rebuildMembers_nil (n + 1) members]

end

section Below
variable {ord : Nat} {loc : Loc} {v : Doc}

theorem quiet_below : Quiet [⟨ord :: loc, .replace v⟩] := by
  intro e he hloc
  rw [mem_singleton.mp he] at hloc
  exact absurd hloc (cons_ne_nil _ _)

theorem under_self : under ord [⟨ord :: loc, .replace v⟩] = [⟨loc, .replace v⟩] := by simp [under]

theorem under_ne {k : Nat} (h : k ≠ ord) : under k [⟨ord :: loc, .replace v⟩] = [] := by simp [under, Ne.symm h]

end Below

variable {c d v : Doc} {key body t : Bytes} {loc : Loc} {pos room : Nat}

private theorem rebuild_item {left right : List Doc} (loc : Loc) (v : Doc) :
    (Doc.arr (left ++ c :: right)).rebuild [⟨left.length :: loc, .replace v⟩] =
      .arr (left ++ c.rebuild [⟨loc, .replace v⟩] :: right) := by
  rw [rebuild_arr quiet_below]
  apply congrArg Doc.arr
  apply survivors_one
  · exact fun k => rfl
  · rw [under_self]
  intro k hk item
  rw [under_ne hk, item.rebuild_nil]

private theorem rebuild_member {left right : List (Bytes × Doc)} (loc : Loc) (v : Doc) :
    (Doc.obj (left ++ (key, c) :: right)).rebuild [⟨left.length :: loc, .replace v⟩] =
      .obj (left ++ (key, c.rebuild [⟨loc, .replace v⟩]) :: right) := by
  rw [rebuild_obj quiet_below]
  apply congrArg Doc.obj
  apply survivors_one
  · exact fun k => rfl
  · rw [under_self]
  intro k hk x
  rw [under_ne hk, x.2.rebuild_nil]

private theorem rebuild_root (d v : Doc) : d.rebuild [⟨[], .replace v⟩] = v := by cases d <;> rfl

/-- A value of a document: where its bytes lie, and what they become under another value of the same width. -/
structure Doc.Spot (d : Doc) (loc : Loc) (pos : Nat) (v : Doc) : Prop where
  resolves : d.resolve loc = some v
  rewrites : ∃ front back, front.length = pos ∧ d.bytes = front ++ (v.bytes ++ back) ∧
    ∀ v' : Doc, v'.bytes.length = v.bytes.length →
      (d.rebuild [⟨loc, .replace v'⟩]).bytes = front ++ (v'.bytes ++ back)

theorem Doc.Spot.root (d : Doc) : d.Spot [] 0 d where
  resolves := rfl
  rewrites := ⟨[], [], rfl, by simp, fun v' _ => by simp [rebuild_root]⟩

/-- A container around equally long contents keeps its header. -/
theorem container_rewrites {tag : UInt8} {front back : Bytes}
    (hbytes : d.bytes = container tag (front ++ (v.bytes ++ back)))
    (hrewrite : ∀ v' : Doc, v'.bytes.length = v.bytes.length →
      (d.rebuild [⟨loc, .replace v'⟩]).bytes = container tag (front ++ (v'.bytes ++ back))) :
    ∃ front' back, front'.length = 4 + front.length ∧ d.bytes = front' ++ (v.bytes ++ back) ∧
      ∀ v' : Doc, v'.bytes.length = v.bytes.length →
        (d.rebuild [⟨loc, .replace v'⟩]).bytes = front' ++ (v'.bytes ++ back) := by
  refine ⟨tag :: (leBytes 3 (front ++ (v.bytes ++ back)).length ++ front), back, ?_, ?_, ?_⟩
  · rw [length_cons, length_append, leBytes_length]
    omega
  · rw [hbytes, container, cons_append, append_assoc]
  · intro v' hlen
    rw [hrewrite v' hlen, container, cons_append, append_assoc]
    simp only [length_append, hlen]

theorem Doc.Spot.item {left right : List Doc} (h : c.Spot loc pos v) :
    (Doc.arr (left ++ c :: right)).Spot (left.length :: loc) (4 + ((itemsBytes left).length + pos)) v where
  resolves := by simpa [Doc.resolve, Doc.children] using h.resolves
  rewrites := by
    obtain ⟨front, back, hfront, hbytes, hrewrite⟩ := h.rewrites
    have hsplit (c' v' : Doc) (hc' : c'.bytes = front ++ (v'.bytes ++ back)) :
        itemsBytes (left ++ c' :: right) = (itemsBytes left ++ front) ++ (v'.bytes ++ (back ++ itemsBytes right)) := by
      rw [itemsBytes_append, itemsBytes, hc']
      simp
    rw [← hfront, ← length_append]
    apply container_rewrites
    · rw [Doc.bytes, hsplit c v hbytes]
    · intro v' hlen
      rw [rebuild_item, Doc.bytes, hsplit _ v' (hrewrite v' hlen)]

theorem Doc.Spot.member {left right : List (Bytes × Doc)} (h : c.Spot loc pos v) :
    (Doc.obj (left ++ (key, c) :: right)).Spot (left.length :: loc)
      (4 + ((membersBytes left).length + ((emitStr key).length + pos))) v where
  resolves := by simpa [Doc.resolve, Doc.children] using h.resolves
  rewrites := by
    obtain ⟨front, back, hfront, hbytes, hrewrite⟩ := h.rewrites
    have hsplit (c' v' : Doc) (hc' : c'.bytes = front ++ (v'.bytes ++ back)) :
        membersBytes (left ++ (key, c') :: right) =
          (membersBytes left ++ (emitStr key ++ front)) ++ (v'.bytes ++ (back ++ membersBytes right)) := by
      rw [membersBytes_append, membersBytes, hc']
      simp
    rw [← hfront, ← length_append, ← length_append]
    apply container_rewrites
    · rw [Doc.bytes, hsplit c v hbytes]
    · intro v' hlen
      rw [rebuild_member, Doc.bytes, hsplit _ v' (hrewrite v' hlen)]

section Walk
variable {body t : Bytes} {room : Nat}

theorem container_length (tag : UInt8) (inner : Bytes) : (container tag inner).length = 4 + inner.length := by
  rw [container, length_cons, length_append, leBytes_length]
  omega

variable {off : Nat}

theorem skipValue_of_drop {d : Doc} (hd : Encodable room d) (h : body.drop off = d.bytes ++ t) :
    skipValue body off = some (off + d.bytes.length) := by
  cases hd with
  | scalar hs => exact skipValue_of_readValue (readValue_scalar hs h)
  | arr hitems hlen => exact skipValue_of_readValue (readValue_arr hlen h)
  | obj hkeys hmembers hlen => exact skipValue_of_readValue (readValue_obj hlen h)

/-- The first byte of a scalar: a container's never, and a boolean's or null's only for these. -/
theorem scalar_tag {s : Scalar} (h : body.drop off = emitScalar s ++ t) :
    ∃ tag, body[off]? = some tag ∧ tag ≠ tagObj ∧ tag ≠ tagArr ∧ (tag = tagFalse → s = .bool false) ∧
      (tag = tagTrue → s = .bool true) ∧ (tag = tagNull → s = .null) := by
  have hother {tag : UInt8} {rest : Bytes} (hbytes : emitScalar s = tag :: rest)
      (htag : tag.toNat < 160 ∨ 162 < tag.toNat ∧ tag.toNat < 167 ∨ 168 < tag.toNat) :
      ∃ tag, body[off]? = some tag ∧ tag ≠ tagObj ∧ tag ≠ tagArr ∧ (tag = tagFalse → s = .bool false) ∧
        (tag = tagTrue → s = .bool true) ∧ (tag = tagNull → s = .null) := by
    rw [hbytes] at h
    refine ⟨tag, getElem?_of_drop h, ?_, ?_, ?_, ?_, ?_⟩ <;> intro heq <;> rw [heq] at htag <;> exact absurd htag (by decide)
  cases s with
  | null => exact ⟨tagNull, getElem?_of_drop h, by decide, by decide, by decide, by decide, fun _ => rfl⟩
  | bool b =>
    cases b with
    | false => exact ⟨tagFalse, getElem?_of_drop h, by decide, by decide, fun _ => rfl, by decide, by decide⟩
    | true => exact ⟨tagTrue, getElem?_of_drop h, by decide, by decide, by decide, fun _ => rfl, by decide⟩
  | f64 bits => exact hother rfl (by decide)
  | i64 v =>
    by_cases hfix : isFixintValue v = true
    · have htag := (isFixint_iff _).mp (fixint_of_value hfix).1
      exact hother (if_pos hfix) (by omega)
    · exact hother (if_neg hfix) (by decide)
  | str s =>
    have hmax : fixstrMaxLen = 31 := rfl
    by_cases hshort : s.length ≤ fixstrMaxLen
    · exact hother (congrArg (· ++ s) (if_pos hshort)) (by rw [fixstr_tag hshort]; omega)
    by_cases hmid : s.length < str24MinLen
    · exact hother (congrArg (· ++ s) ((if_neg hshort).trans (if_pos hmid))) (by decide)
    · exact hother (congrArg (· ++ s) ((if_neg hshort).trans (if_neg hmid))) (by decide)

/-- The members of an object where they lie in a tape, with what follows them. -/
structure Spread (room : Nat) (body : Bytes) (off : Nat) (members : List (Bytes × Doc)) (t : Bytes) : Prop where
  keys : ∀ x ∈ members, StrFits x.1
  values : ∀ x ∈ members, Encodable room x.2
  bytes : body.drop off = membersBytes members ++ t

section Spread
variable {members : List (Bytes × Doc)} {key : Bytes} {d : Doc} {off : Nat}

theorem Spread.head (h : Spread room body off ((key, d) :: members) t) :
    StrFits key ∧ Encodable room d ∧ body.drop off = emitStr key ++ (d.bytes ++ (membersBytes members ++ t)) := by
  refine ⟨h.keys _ mem_cons_self, h.values _ mem_cons_self, ?_⟩
  rw [h.bytes, membersBytes, append_assoc, append_assoc]

theorem Spread.tail (h : Spread room body off ((key, d) :: members) t) :
    Spread room body (off + (emitStr key).length + d.bytes.length) members t where
  keys x hx := h.keys x (mem_cons_of_mem _ hx)
  values x hx := h.values x (mem_cons_of_mem _ hx)
  bytes := drop_add_of_drop (drop_add_of_drop h.head.2.2)

theorem membersBytes_cons_length (off : Nat) (key : Bytes) (d : Doc) (members : List (Bytes × Doc)) :
    off + (membersBytes ((key, d) :: members)).length =
      off + (emitStr key).length + d.bytes.length + (membersBytes members).length ∧ 0 < (emitStr key).length := by
  refine ⟨?_, length_pos_of_ne_nil (emitStr_ne_nil key)⟩
  rw [membersBytes, length_append, length_append]
  omega

/-- The scan stops at the first entry of the key. -/
theorem locateEntry_spec {stop turns : Nat} (h : Spread room body off members t)
    (hstop : off + (membersBytes members).length = stop) (hturns : (membersBytes members).length < turns) :
    (locateEntry body key stop turns off = some none ∧ key ∉ members.map Prod.fst) ∨
      ∃ left c right, members = left ++ (key, c) :: right ∧ key ∉ left.map Prod.fst ∧
        locateEntry body key stop turns off = some (some (off + ((membersBytes left).length + (emitStr key).length))) := by
  induction members generalizing off turns with
  | nil =>
    left
    cases turns with
    | zero => exact absurd hturns (Nat.not_lt_zero _)
    | succ turns =>
      rw [locateEntry, if_neg (by rw [← hstop]; exact Nat.lt_irrefl _)]
      exact ⟨rfl, not_mem_nil⟩
  | cons x members ih =>
    obtain ⟨k, d⟩ := x
    obtain ⟨hkey, hd, hbytes⟩ := h.head
    obtain ⟨hlen, hpos⟩ := membersBytes_cons_length off k d members
    cases turns with
    | zero => exact absurd hturns (Nat.not_lt_zero _)
    | succ turns =>
      rw [locateEntry, if_pos (by omega), readKey_of_drop hkey hbytes, option_some_bind]
      by_cases hk : k = key
      · refine .inr ⟨[], d, members, by rw [hk]; rfl, not_mem_nil, ?_⟩
        simp only [hk, if_true, membersBytes, length_nil, zero_add]
      simp only [if_neg hk]
      rw [skipValue_of_drop hd (drop_add_of_drop hbytes), option_some_bind]
      rcases ih h.tail (by omega) (show _ < turns by omega) with ⟨hwalk, hfind⟩ | ⟨left, c, right, hsplit, hfind, hwalk⟩
      · exact .inl ⟨hwalk, by simpa [Ne.symm hk] using hfind⟩
      · refine .inr ⟨(k, d) :: left, c, right, by rw [hsplit]; rfl, by simpa [Ne.symm hk] using hfind, ?_⟩
        rw [hwalk, membersBytes, length_append, length_append]
        congr 2
        omega

end Spread

theorem countItems_spec {items : List Doc} {stop turns : Nat} (hitems : ∀ d ∈ items, Encodable room d)
    (h : body.drop off = itemsBytes items ++ t) (hstop : off + (itemsBytes items).length = stop)
    (hturns : (itemsBytes items).length < turns) : countItems body stop turns off = some items.length := by
  induction items generalizing off turns with
  | nil =>
    cases turns with
    | zero => exact absurd hturns (Nat.not_lt_zero _)
    | succ turns =>
      rw [countItems, if_neg (by rw [← hstop]; exact Nat.lt_irrefl _)]
      rfl
  | cons d items ih =>
    have hpos := length_pos_of_ne_nil d.bytes_ne_nil
    rw [itemsBytes, append_assoc] at h
    rw [itemsBytes, length_append] at hstop hturns
    cases turns with
    | zero => exact absurd hturns (Nat.not_lt_zero _)
    | succ turns =>
      rw [countItems, if_pos (by omega), skipValue_of_drop (hitems d mem_cons_self) h, option_some_bind,
        ih (forall_mem_cons.mp hitems).2 (drop_add_of_drop h) (by omega) (by omega)]
      rfl

theorem skipValues_spec {left : List Doc} (hleft : ∀ d ∈ left, Encodable room d)
    (h : body.drop off = itemsBytes left ++ t) : skipValues body left.length off = some (off + (itemsBytes left).length) := by
  induction left generalizing off with
  | nil => rfl
  | cons d left ih =>
    rw [itemsBytes, append_assoc] at h
    rw [length_cons, skipValues, skipValue_of_drop (hleft d mem_cons_self) h, option_some_bind,
      ih (forall_mem_cons.mp hleft).2 (drop_add_of_drop h), itemsBytes, length_append, add_assoc]

end Walk

def SimpleStep.selector : SimpleStep → Selector
  | child key => .child key
  | index i => .index i

/-- What one step of the walk finds: nothing, or the one entry that the selector picks. -/
def Steps (body : Bytes) (pos : Nat) (d : Doc) (step : SimpleStep) : Prop :=
  (step.locate body pos = some none ∧ step.selector.select d = []) ∨
    ∃ ord c rel t room, step.locate body pos = some (some (pos + rel)) ∧ step.selector.select d = [ord] ∧
      d.children[ord]? = some c ∧ Encodable room c ∧ body.drop (pos + rel) = c.bytes ++ t ∧
      ∀ loc p v, c.Spot loc p v → d.Spot (ord :: loc) (rel + p) v

private theorem locateChild_steps (hd : Encodable room d)
    (h : body.drop pos = d.bytes ++ t) : Steps body pos d (.child key) := by
  cases hd with
  | @scalar room s hs =>
    left
    refine ⟨?_, rfl⟩
    obtain ⟨tag, htag, hobj, -⟩ := scalar_tag h
    rw [SimpleStep.locate, locateChild, htag, option_some_bind, if_pos hobj]
  | @arr room items hitems hlen =>
    left
    refine ⟨?_, rfl⟩
    rw [SimpleStep.locate, locateChild, (container_parts hlen h).1, option_some_bind, if_pos (by decide)]
  | @obj room members hkeys hmembers hlen =>
    obtain ⟨htag, -, -, hinner⟩ := container_parts hlen h
    have hlocate : (SimpleStep.child key).locate body pos =
        locateEntry body key (pos + 4 + (membersBytes members).length) (4 + (membersBytes members).length) (pos + 4) := by
      rw [SimpleStep.locate, locateChild, htag, option_some_bind, if_neg (by simp),
        skipValue_of_readValue (readValue_obj hlen h), option_some_bind, container_length, Nat.add_sub_cancel_left,
        ← add_assoc]
    rw [Steps, hlocate]
    rcases @locateEntry_spec body t room members key (pos + 4) _ _ ⟨hkeys, hmembers, hinner⟩ rfl
        (show _ < 4 + (membersBytes members).length by omega) with
      ⟨hwalk, hfind⟩ | ⟨left, c, right, rfl, hfind, hwalk⟩
    · refine .inl ⟨hwalk, ?_⟩
      change (members.findIdx? fun x => x.1 == key).toList = []
      rw [findIdx?_eq_none_iff.mpr fun x hx => beq_false_of_ne fun heq => hfind (List.mem_map.mpr ⟨x, hx, heq⟩)]
      rfl
    · refine .inr ⟨left.length, c, 4 + ((membersBytes left).length + (emitStr key).length), membersBytes right ++ t, room,
        ?_, ?_, ?_, ?_, ?_, ?_⟩
      · rw [hwalk, add_assoc]
      · have hleft : (left.findIdx? fun x => x.1 == key) = none :=
          findIdx?_eq_none_iff.mpr fun x hx => beq_false_of_ne fun heq => hfind (List.mem_map.mpr ⟨x, hx, heq⟩)
        change ((left ++ (key, c) :: right).findIdx? fun x => x.1 == key).toList = [left.length]
        rw [findIdx?_append, hleft, findIdx?_cons, if_pos (beq_self_eq_true key)]
        simp
      · simp [Doc.children]
      · exact hmembers (key, c) (by simp)
      · rw [membersBytes_append, membersBytes] at hinner
        simp only [append_assoc] at hinner
        have hvalue := drop_add_of_drop (drop_add_of_drop hinner)
        rwa [← add_assoc, ← add_assoc]
      · intro loc p v hspot
        rw [add_assoc, add_assoc]
        exact hspot.member

private theorem resolveIndex_eq_applyIndex (i : Int) (len : Nat) : resolveIndex i len =
    if 0 ≤ applyIndex i len ∧ applyIndex i len < len then some (applyIndex i len).toNat else none := rfl

private theorem locateIndex_steps {i : Int} (hd : Encodable room d)
    (h : body.drop pos = d.bytes ++ t) : Steps body pos d (.index i) := by
  cases hd with
  | @scalar room s hs =>
    left
    refine ⟨?_, rfl⟩
    obtain ⟨tag, htag, -, harr, -⟩ := scalar_tag h
    rw [SimpleStep.locate, locateIndex, htag, option_some_bind, if_pos harr]
  | @obj room members hkeys hmembers hlen =>
    left
    refine ⟨?_, rfl⟩
    rw [SimpleStep.locate, locateIndex, (container_parts hlen h).1, option_some_bind, if_pos (by decide)]
  | @arr room items hitems hlen =>
    obtain ⟨htag, -, -, hinner⟩ := container_parts hlen h
    have hcount : arrLen body pos = some items.length := by
      rw [arrLen, skipValue_of_readValue (readValue_arr hlen h), option_some_bind, container_length,
        Nat.add_sub_cancel_left, ← add_assoc]
      exact countItems_spec hitems hinner rfl (by omega)
    have hselect : (SimpleStep.index i).selector.select (.arr items) = (resolveIndex i items.length).toList := rfl
    have hlocate : (SimpleStep.index i).locate body pos = (resolveIndex i items.length).elim (some none)
        fun n => (arrNthOffset body pos n).map some := by
      rw [SimpleStep.locate, locateIndex, htag, option_some_bind, if_neg (by simp), hcount, option_some_bind,
        resolveIndex_eq_applyIndex]
      by_cases hin : 0 ≤ applyIndex i items.length ∧ applyIndex i items.length < items.length
      · simp only [if_pos hin, elim_some]
        cases arrNthOffset body pos (applyIndex i items.length).toNat <;> rfl
      · simp only [if_neg hin, elim_none]
    rw [Steps, hlocate, hselect]
    cases hresolve : resolveIndex i items.length with
    | none => exact .inl ⟨rfl, rfl⟩
    | some n =>
      right
      have hn := (resolveIndex_eq_some.mp hresolve).1
      obtain ⟨left, c, right, hsplit, hleft⟩ : ∃ left c right, items = left ++ c :: right ∧ left.length = n :=
        ⟨items.take n, items[n], items.drop (n + 1), by simp, by simp [Nat.le_of_lt hn]⟩
      rw [hsplit, itemsBytes_append, itemsBytes] at hinner
      simp only [append_assoc] at hinner
      refine ⟨n, c, 4 + (itemsBytes left).length, itemsBytes right ++ t, room, ?_, rfl, ?_, ?_, ?_, ?_⟩
      · have hoff := skipValues_spec (fun x hx => hitems x (by rw [hsplit]; exact mem_append_left _ hx)) hinner
        rw [elim_some, arrNthOffset, ← hleft, hoff, map_some, add_assoc]
      · rw [hsplit, ← hleft]
        simp [Doc.children]
      · exact hitems c (by rw [hsplit]; simp)
      · have hvalue := drop_add_of_drop hinner
        rwa [← add_assoc]
      · intro loc p v hspot
        rw [hsplit, ← hleft, add_assoc]
        exact hspot.item

theorem SimpleStep.steps (step : SimpleStep) (hd : Encodable room d)
    (h : body.drop pos = d.bytes ++ t) : Steps body pos d step := by
  cases step with
  | child key => exact locateChild_steps hd h
  | index i => exact locateIndex_steps hd h

private theorem program_of_simpleSteps {program : PathProgram} {steps : List SimpleStep} (h : simpleSteps program = some steps) :
    program = steps.map fun step => .one step.selector := by
  induction program generalizing steps with
  | nil =>
    rw [← some.inj h]
    rfl
  | cons segment program ih =>
    rw [simpleSteps] at h
    obtain ⟨step, hstep, h⟩ := bind_eq_some_iff.mp h
    obtain ⟨rest, hrest, h⟩ := bind_eq_some_iff.mp h
    rw [← some.inj h, map_cons, ih hrest]
    apply congrArg (· :: _)
    rw [Segment.simple.eq_def] at hstep
    split at hstep <;> cases hstep <;> rfl

/-- The whole walk: nothing, or the one match of the program. -/
theorem locateSimple_spec (steps : List SimpleStep) (hd : Encodable room d) (h : body.drop pos = d.bytes ++ t) :
    (locateSimple body steps pos = some none ∧ eval (steps.map fun step => .one step.selector) d = []) ∨
      ∃ loc rel v room t, locateSimple body steps pos = some (some (pos + rel)) ∧
        eval (steps.map fun step => .one step.selector) d = [loc] ∧ d.Spot loc rel v ∧ Encodable room v ∧
        body.drop (pos + rel) = v.bytes ++ t := by
  induction steps generalizing d pos room t with
  | nil => exact .inr ⟨[], 0, d, room, t, rfl, rfl, .root d, hd, h⟩
  | cons step steps ih =>
    rw [map_cons, eval, locateSimple, Selector.each]
    rcases step.steps hd h with ⟨hlocate, hselect⟩ | ⟨ord, c, rel, t, room, hlocate, hselect, hc, hroom, hdrop, hspot⟩
    · rw [hlocate, hselect]
      exact .inl ⟨rfl, rfl⟩
    rw [hlocate, hselect, flatMap_singleton, hc]
    rcases ih hroom hdrop with ⟨hwalk, heval⟩ | ⟨loc, rel', v, room', t', hwalk, heval, hv, hroom', hdrop'⟩
    · left
      refine ⟨hwalk, ?_⟩
      simp only [heval, map_nil]
    · right
      refine ⟨ord :: loc, rel + rel', v, room', t', ?_, ?_, hspot loc rel' v hv, hroom', ?_⟩
      · rw [← add_assoc]
        exact hwalk
      · simp only [heval, map_cons, map_nil]
      · rw [← add_assoc]
        exact hdrop'

section Apply
variable {d v : Doc} {program : PathProgram} {op : ApplyOp} {limits : Limits} {loc : Loc}

private theorem apply_unmatched (hdel : op ≠ .del) (heval : eval program d = []) : apply d program op limits = .ok ⟨none, [], 0⟩ := by
  rw [apply.eq_def]
  split
  · exact absurd rfl hdel
  · simp only [heval, length_nil, Nat.not_lt_zero, if_false]
    rfl

/-- The path leads to one place, and the op is not the one that takes places away. -/
structure OneMatch (d : Doc) (program : PathProgram) (op : ApplyOp) (limits : Limits) (loc : Loc) (v : Doc) : Prop where
  keeps : op ≠ .del
  found : eval program d = [loc]
  resolves : d.resolve loc = some v
  allowed : 1 ≤ limits.maxMatches

theorem apply_single (h : OneMatch d program op limits loc v) : apply d program op limits = (do
      let verdict ← planSite loc v op
      let edits := verdict.edit.toList
      let applied := [verdict.result].countP (· ≠ .skipped)
      if (keptEdits edits).isEmpty then .ok ⟨none, [verdict.result], applied⟩
      else if depthOk edits op limits.depthMax then
        if (d.rebuild edits).encodedLen ≤ limits.bodyBytesMax then .ok ⟨some (d.rebuild edits), [verdict.result], applied⟩
        else .error .tooLarge
      else .error .depthExceeded) := by
  have hplan : planAll d op (canonical [loc]) = (do
      let verdict ← planSite loc v op
      .ok [(loc, verdict)]) := by
    have hcanonical : canonical [loc] = [loc] := by simp [canonical]
    rw [planAll, hcanonical, mapM_cons, mapM_nil, h.resolves]
    dsimp only
    cases planSite loc v op <;> rfl
  rw [apply.eq_def]
  split
  · exact absurd rfl h.keeps
  · simp only [h.found, length_singleton, if_neg (Nat.not_lt.mpr h.allowed), hplan]
    cases planSite loc v op with
    | error e => rfl
    | ok verdict =>
      simp only [except_ok_bind, map_cons, map_nil, lookup_cons_self, map_some, getD_some]
      cases hedit : verdict.edit <;> simp [hedit]

theorem apply_skip (h : OneMatch d program op limits loc v) (hplan : planSite loc v op = .ok .skip) :
    apply d program op limits = .ok ⟨none, [.skipped], 0⟩ := by
  rw [apply_single h, hplan]
  rfl

private theorem apply_error {e : ApplyError} (h : OneMatch d program op limits loc v) (hplan : planSite loc v op = .error e) :
    apply d program op limits = .error e := by
  rw [apply_single h, hplan]
  rfl

variable {v' : Doc} {result : MatchResult}

section
variable (h : OneMatch d program op limits loc v) (hwritten : op.written = none)
  (hplan : planSite loc v op = .ok (.apply result (some ⟨loc, .replace v'⟩)))
include h hwritten hplan

theorem apply_edit :
    apply d program op limits = if (d.rebuild [⟨loc, .replace v'⟩]).encodedLen ≤ limits.bodyBytesMax then
      .ok ⟨some (d.rebuild [⟨loc, .replace v'⟩]), [result], [result].countP (· ≠ .skipped)⟩ else .error .tooLarge := by
  have hdepth : depthOk [⟨loc, .replace v'⟩] op limits.depthMax = true := by
    rw [depthOk, hwritten]
  have hkept : keptEdits [⟨loc, .replace v'⟩] = [⟨loc, .replace v'⟩] := by simp [keptEdits, Edit.covers]
  rw [apply_single h, hplan, except_ok_bind]
  simp only [Verdict.edit, Verdict.result, toList_some, hkept, hdepth]
  rfl

theorem apply_replace (hresult : result ≠ .skipped)
    (hbody : (d.rebuild [⟨loc, .replace v'⟩]).encodedLen ≤ limits.bodyBytesMax) :
    apply d program op limits = .ok ⟨some (d.rebuild [⟨loc, .replace v'⟩]), [result], 1⟩ := by
  rw [apply_edit h hwritten hplan, if_pos hbody]
  simp [hresult]

private theorem apply_tooLarge (hbody : ¬ (d.rebuild [⟨loc, .replace v'⟩]).encodedLen ≤ limits.bodyBytesMax) :
    apply d program op limits = .error .tooLarge := by
  rw [apply_edit h hwritten hplan, if_neg hbody]

end

end Apply

def Doc.number? : Doc → Option Number
  | .scalar (.i64 value) => some (.i64 value)
  | .scalar (.f64 bits) => some (.f64 bits)
  | _ => none

def arithmetic (operand : Number) (mul : Bool) : ApplyOp := if mul then .numMultBy operand else .numIncrBy operand

private theorem planSite_arithmetic (loc : Loc) (v : Doc) (operand : Number) (mul : Bool) :
    planSite loc v (arithmetic operand mul) = v.number?.elim (.ok .skip) fun current =>
      (numberOp current operand mul).map fun result => .apply (.num result) (some ⟨loc, .replace result.doc⟩) := by
  have hmap (x : Except ApplyError Number) (f : Number → Verdict) : x.map f = x >>= fun result => .ok (f result) := by
    cases x <;> rfl
  simp only [hmap]
  cases v with
  | scalar s => cases s <;> cases mul <;> rfl
  | arr items | obj members => cases mul <;> rfl

private theorem planSite_toggle (loc : Loc) (v : Doc) :
    (∃ b, v = .scalar (.bool b) ∧
      planSite loc v .toggle = .ok (.apply (.toggled !b) (some ⟨loc, .replace (.scalar (.bool !b))⟩))) ∨
      (∀ b, v ≠ .scalar (.bool b)) ∧ planSite loc v .toggle = .ok .skip := by
  cases v with
  | scalar s =>
    cases s with
    | bool b => exact .inl ⟨b, rfl, rfl⟩
    | null | i64 | f64 | str => exact .inr ⟨fun b h => (by cases h), rfl⟩
  | arr items | obj members => exact .inr ⟨fun b h => (by cases h), rfl⟩

theorem encodeNumber_eq (n : Number) : encodeNumber n = n.doc.bytes := by
  cases n <;> rfl

/-- A document as it is stored: the header and the encoding. -/
def Doc.stored (d : Doc) : Bytes := TapeBuilder.patchHeader (List.replicate headerLen 0 ++ d.bytes) d.bytes.length

/-- What a verdict on a document says of the outcome of `apply`. -/
structure Agrees (idoc : Bytes) (r : Except ApplyError ScalarPatch × Bytes) (outcome : Except ApplyError ApplyOutcome) :
    Prop where
  number : ∀ n, r.1 = .ok (.number n) → ∃ d', outcome = .ok ⟨some d', [.num n], 1⟩ ∧ r.2 = d'.stored
  toggled : ∀ b, r.1 = .ok (.toggled b) → ∃ d', outcome = .ok ⟨some d', [.toggled b], 1⟩ ∧ r.2 = d'.stored
  missing : r.1 = .ok .missing ↔ ∃ o, outcome = .ok o ∧ o.results = []
  skipped : r.1 = .ok .skipped ↔ ∃ o, outcome = .ok o ∧ o.results = [.skipped] ∧ o.document = none
  failed : ∀ e, r.1 = .error e → outcome = .error e
  untouched : (∀ n, r.1 ≠ .ok (.number n)) → (∀ b, r.1 ≠ .ok (.toggled b)) → r.2 = idoc

section Agrees
variable {idoc : Bytes} {outcome : Except ApplyError ApplyOutcome}

theorem Agrees.of_missing (h : outcome = .ok ⟨none, [], 0⟩) : Agrees idoc (.ok .missing, idoc) outcome := by
  constructor <;> simp [h]

theorem Agrees.of_skipped (h : outcome = .ok ⟨none, [.skipped], 0⟩) : Agrees idoc (.ok .skipped, idoc) outcome := by
  constructor <;> simp [h]

theorem Agrees.of_error {e : ApplyError} (h : outcome = .error e) : Agrees idoc (.error e, idoc) outcome := by
  constructor <;> simp [h]

theorem Agrees.of_unsupported (h : (∃ d' n, outcome = .ok ⟨some d', [.num n], 1⟩) ∨ outcome = .error .tooLarge) :
    Agrees idoc (.ok .unsupported, idoc) outcome := by
  rcases h with ⟨d', n, h⟩ | h <;> constructor <;> simp [h]

theorem Agrees.of_number {d' : Doc} {n : Number} (h : outcome = .ok ⟨some d', [.num n], 1⟩) :
    Agrees idoc (.ok (.number n), d'.stored) outcome := by
  constructor <;> simp [h]

theorem Agrees.of_toggled {d' : Doc} {b : Bool} (h : outcome = .ok ⟨some d', [.toggled b], 1⟩) :
    Agrees idoc (.ok (.toggled b), d'.stored) outcome := by
  constructor <;> simp [h]

end Agrees

theorem stored_eq (d : Doc) : d.stored = ([0x69, 0x44, 1, 0] ++ leBytes 4 d.bytes.length) ++ d.bytes := by
  rw [Doc.stored, TapeBuilder.patchHeader, drop_left' length_replicate, append_assoc]

/-- A validated document is the stored form of its tree. -/
private theorem stored_of_valid {idoc : Bytes} (h : tapeDocFromBytes idoc = .ok body) :
    ∃ d, Encodable depthMax d ∧ body = d.bytes ∧ idoc = d.stored := by
  rw [tapeDocFromBytes] at h
  obtain ⟨len, hheader, h⟩ := except_bind_ok h
  obtain ⟨u, hvalid, h⟩ := except_bind_ok h
  obtain ⟨d, hd, hbytes⟩ := encodable_of_validateBody hvalid
  rw [Except.ok.injEq, hbytes] at h
  refine ⟨d, hd, h.symm, ?_⟩
  rw [headerDecode.eq_def] at hheader
  split at hheader
  next m0 m1 version flags l0 l1 l2 l3 rest _ =>
    change rest = d.bytes at hbytes
    obtain ⟨hmagic, hheader⟩ := guard_ok hheader
    obtain ⟨hversion, hheader⟩ := guard_ok hheader
    obtain ⟨hflags, hheader⟩ := guard_ok hheader
    simp only at hheader
    split at hheader
    · cases hheader
    obtain ⟨hlen, hheader⟩ := guard_ok hheader
    have hfield : leBytes 4 d.bytes.length = [l0, l1, l2, l3] := by
      rw [← hbytes, not_not.mp hlen]
      exact leBytes_leValue [l0, l1, l2, l3]
    have hmagic' : m0 = 0x69 ∧ m1 = 0x44 := by simpa using hmagic
    rw [stored_eq, hfield, hmagic'.1, hmagic'.2, not_not.mp hversion, not_not.mp hflags, hbytes]
    rfl
  · cases hheader

theorem overwriteBody_stored {v' : Doc} (h : d.Spot loc pos v) (hlen : v'.bytes.length = v.bytes.length) :
    overwriteBody d.stored pos (pos + v.bytes.length) v'.bytes = (d.rebuild [⟨loc, .replace v'⟩]).stored ∧
      (d.rebuild [⟨loc, .replace v'⟩]).encodedLen = d.bytes.length := by
  obtain ⟨front, back, hfront, hbytes, hrewrite⟩ := h.rewrites
  have hsame : (d.rebuild [⟨loc, .replace v'⟩]).bytes.length = d.bytes.length := by
    rw [hrewrite v' hlen, hbytes]
    simp [hlen]
  refine ⟨?_, by rw [← Doc.bytes_length, hsame]⟩
  rw [overwriteBody, stored_eq, stored_eq, hsame, hrewrite v' hlen]
  generalize hheader : [0x69, 0x44, 1, 0] ++ leBytes 4 d.bytes.length = header
  have hheaderLen : header.length = headerLen := by
    rw [← hheader, length_append, leBytes_length]
    rfl
  rw [hbytes, ← hfront, ← hheaderLen, take_length_add_append, take_left, drop_length_add_append,
    drop_length_add_append, drop_left, append_assoc]

section Verdicts
variable {d v : Doc} {program : PathProgram} {limits : Limits} {loc : Loc} {pos room : Nat} {t : Bytes}

private theorem patchNumber_agrees {operand : Number} {mul : Bool} (h : OneMatch d program (arithmetic operand mul) limits loc v)
    (hspot : d.Spot loc pos v) (hv : Encodable room v) (hdrop : d.bytes.drop pos = v.bytes ++ t)
    (hbody : d.bytes.length ≤ limits.bodyBytesMax) : ∃ r, patchNumber d.stored d.bytes pos operand mul = some r ∧
      Agrees d.stored r (apply d program (arithmetic operand mul) limits) := by
  have hwritten : (arithmetic operand mul).written = none := by cases mul <;> rfl
  have hread : ∃ value, readValue d.bytes pos = some (value, pos + v.bytes.length) ∧ value.number? = v.number? := by
    cases hv with
    | @scalar room s hs => exact ⟨s.ref, readValue_scalar hs hdrop, by cases s <;> rfl⟩
    | @arr room items hitems hlen => exact ⟨.arr (itemsBytes items), readValue_arr hlen hdrop, rfl⟩
    | @obj room members hkeys hmembers hlen => exact ⟨.obj (membersBytes members), readValue_obj hlen hdrop, rfl⟩
  obtain ⟨value, hread, hnumber⟩ := hread
  have hplan := planSite_arithmetic loc v operand mul
  rw [patchNumber, hread, option_some_bind]
  simp only [hnumber]
  cases hcurrent : v.number? with
  | none =>
    rw [hcurrent] at hplan
    exact ⟨_, rfl, .of_skipped (apply_skip h hplan)⟩
  | some current =>
    rw [hcurrent, elim_some] at hplan
    simp only
    cases hop : numberOp current operand mul with
    | error e =>
      rw [hop] at hplan
      exact ⟨_, rfl, .of_error (apply_error h hplan)⟩
    | ok result =>
      rw [hop] at hplan
      simp only [Nat.add_sub_cancel_left, encodeNumber_eq]
      by_cases hwidth : result.doc.bytes.length = v.bytes.length
      · rw [if_neg (not_not.mpr hwidth)]
        obtain ⟨hover, hsize⟩ := overwriteBody_stored hspot hwidth
        refine ⟨_, rfl, ?_⟩
        rw [hover]
        exact .of_number (apply_replace h hwritten hplan nofun (by rw [hsize]; exact hbody))
      · rw [if_pos hwidth]
        refine ⟨_, rfl, ?_⟩
        by_cases hfits : (d.rebuild [⟨loc, .replace result.doc⟩]).encodedLen ≤ limits.bodyBytesMax
        · exact .of_unsupported (.inl ⟨_, _, apply_replace h hwritten hplan nofun hfits⟩)
        · exact .of_unsupported (.inr (apply_tooLarge h hwritten hplan hfits))

private theorem patchToggle_agrees (h : OneMatch d program .toggle limits loc v) (hspot : d.Spot loc pos v) (hv : Encodable room v)
    (hdrop : d.bytes.drop pos = v.bytes ++ t) (hbody : d.bytes.length ≤ limits.bodyBytesMax) :
    ∃ r, patchToggle d.stored d.bytes pos = some r ∧ Agrees d.stored r (apply d program .toggle limits) := by
  rcases planSite_toggle loc v with ⟨b, rfl, hplan⟩ | ⟨hne, hplan⟩
  · have hwidth : (Doc.scalar (.bool !b)).bytes.length = (Doc.scalar (.bool b)).bytes.length := rfl
    obtain ⟨hover, hsize⟩ := overwriteBody_stored hspot hwidth
    have happly := apply_replace h rfl hplan nofun (by rw [hsize]; exact hbody)
    have hpatch : patchToggle d.stored d.bytes pos = some (.ok (.toggled !b),
        overwriteBody d.stored pos (pos + (Doc.scalar (.bool b)).bytes.length) (Doc.scalar (.bool !b)).bytes) := by
      rw [patchToggle, getElem?_of_drop hdrop]
      cases b <;> rfl
    rw [hpatch, hover]
    exact ⟨_, rfl, .of_toggled happly⟩
  · refine ⟨(.ok .skipped, d.stored), ?_, .of_skipped (apply_skip h hplan)⟩
    have htag : ∃ tag, d.bytes[pos]? = some tag ∧ tag ≠ tagFalse ∧ tag ≠ tagTrue := by
      cases hv with
      | @scalar room s hs =>
        obtain ⟨tag, htag, -, -, hfalse, htrue, -⟩ := scalar_tag hdrop
        exact ⟨tag, htag, fun h => hne false (congrArg Doc.scalar (hfalse h)), fun h => hne true (congrArg Doc.scalar (htrue h))⟩
      | @arr room items hitems hlen => exact ⟨tagArr, (container_parts hlen hdrop).1, by decide, by decide⟩
      | @obj room members hkeys hmembers hlen => exact ⟨tagObj, (container_parts hlen hdrop).1, by decide, by decide⟩
    obtain ⟨tag, htag, hfalse, htrue⟩ := htag
    rw [patchToggle, htag, option_some_bind, if_neg hfalse, if_neg htrue]

end Verdicts

def ApplyOp.patchable : ApplyOp → Bool
  | .numIncrBy _ | .numMultBy _ | .toggle => true
  | _ => false

/-- A patch in place and `apply` say the same of every validated document, for every simple program and limits that
the document itself meets: a patched document is the one `apply` returns, with the same result; no match and a site of
the wrong type are reported by both; an error is the error of `apply`; and whatever else changes no byte. -/
theorem patchScalarInPlace_agrees {idoc body : Bytes} {d : Doc} (hvalid : tapeDocFromBytes idoc = .ok body)
    (hdoc : decodeBody body = some d) {program : PathProgram} (hsimple : (simpleSteps program).isSome = true) {op : ApplyOp}
    (hop : op.patchable = true) {limits : Limits} (hmatches : 1 ≤ limits.maxMatches)
    (hbody : body.length ≤ limits.bodyBytesMax) :
    ∃ r, patchScalarInPlace idoc program op = some r ∧ Agrees idoc r (apply d program op limits) := by
  obtain ⟨d', hd, rfl, rfl⟩ := stored_of_valid hvalid
  obtain rfl : d' = d := some.inj ((decodeBody_bytes hd).symm.trans hdoc)
  obtain ⟨steps, hsteps⟩ := isSome_iff_exists.mp hsimple
  have hdel : op ≠ .del := by
    intro h
    rw [h] at hop
    cases hop
  have hflags : d'.stored.getD 3 0 = 0 := by
    rw [stored_eq]
    rfl
  have hdropHeader : d'.stored.drop headerLen = d'.bytes := by
    rw [stored_eq]
    exact drop_left' (by rw [length_append, leBytes_length]; rfl)
  have hlong : ¬ d'.stored.length < headerLen := by
    rw [stored_eq, length_append, length_append, leBytes_length]
    exact Nat.not_lt.mpr (Nat.le_add_right 8 _)
  have hroot : d'.bytes.drop 0 = d'.bytes ++ [] := by rw [append_nil, drop_zero]
  rw [patchScalarInPlace, if_neg (not_not.mpr hflags), hsteps]
  simp only [if_neg hlong, hdropHeader]
  rw [program_of_simpleSteps hsteps]
  rcases locateSimple_spec steps hd hroot with ⟨hwalk, heval⟩ | ⟨loc, pos, v, room, t, hwalk, heval, hspot, hv, hdrop⟩
  · rw [hwalk]
    exact ⟨_, rfl, .of_missing (apply_unmatched hdel heval)⟩
  rw [hwalk, option_some_bind, zero_add]
  rw [zero_add] at hdrop
  have hone : OneMatch d' (steps.map fun step => .one step.selector) op limits loc v := ⟨hdel, heval, hspot.resolves, hmatches⟩
  cases op with
  | numIncrBy operand => exact @patchNumber_agrees d' v _ limits loc pos room t operand false hone hspot hv hdrop hbody
  | numMultBy operand => exact @patchNumber_agrees d' v _ limits loc pos room t operand true hone hspot hv hdrop hbody
  | toggle => exact patchToggle_agrees hone hspot hv hdrop hbody
  | _ => cases hop

/-- The second 41 of `[41, true, 41]` is incremented, at the end of the tape. -/
theorem patchScalarInPlace_agrees_last :
    ∃ r, patchScalarInPlace [0x69, 0x44, 1, 0, 7, 0, 0, 0, 0xA8, 3, 0, 0, 41, 0xA2, 41] [.one (.index (-1))]
        (.numIncrBy (.i64 1)) = some r ∧ Agrees [0x69, 0x44, 1, 0, 7, 0, 0, 0, 0xA8, 3, 0, 0, 41, 0xA2, 41] r
        (apply (.arr [.scalar (.i64 41), .scalar (.bool true), .scalar (.i64 41)]) [.one (.index (-1))] (.numIncrBy (.i64 1))
          ⟨1, 128, 7⟩) :=
  @patchScalarInPlace_agrees _ [0xA8, 3, 0, 0, 41, 0xA2, 41] _ rfl rfl _ rfl _ rfl ⟨1, 128, 7⟩ (Nat.le_refl 1) (Nat.le_refl 7)

end InfinityDB
