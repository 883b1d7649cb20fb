import InfinityDB.Path.Program

/-!
# The path bytecode codec

Every segment has one encoding. The readers take it apart again, and the validator accepts exactly
the encodings of well-formed paths, so a validated program decodes to the one path it encodes.
-/

namespace InfinityDB

open Lib List Option

namespace Ast

def SliceSpec.WellFormed (s : SliceSpec) : Prop := s.step ≠ some 0

def Member.WellFormed : Member → Prop
  | .name key => validUtf8 key = true
  | .index _ => True
  | .slice spec => spec.WellFormed

def Leaf.WellFormed : Leaf → Prop
  | .child key => validUtf8 key = true
  | .childAny => True
  | .index _ => True
  | .slice spec => spec.WellFormed
  | .union members => (2 ≤ members.length ∧ members.length ≤ unionMembersMax) ∧ ∀ m ∈ members, m.WellFormed

def Segment.selector : Segment → Leaf
  | .leaf s => s
  | .descend s => s

end Ast

def PathAst.WellFormed (ast : PathAst) : Prop :=
  ast.segments.length ≤ segmentsMax ∧ ∀ s ∈ ast.segments, s.selector.WellFormed

namespace PathProgram

def leafBytes : Ast.Leaf → Bytes
  | .child key => encodeName key
  | .childAny => [opChildAny]
  | .index i => encodeIndex i
  | .slice spec => encodeSlice spec
  | .union members => opUnion :: UInt8.ofNat members.length :: members.flatMap encodeMember

def segmentBytes : Ast.Segment → Bytes
  | .leaf s => leafBytes s
  | .descend s => opDescend :: leafBytes s

def programBytes (ast : PathAst) : Bytes :=
  programVersion :: (if ast.legacy then flagLegacy else 0) :: opRoot :: ast.segments.flatMap segmentBytes

theorem encodeLeafSegment_eq {s : Ast.Leaf} (h : s.WellFormed) : encodeLeafSegment s = .ok (leafBytes s) := by
  cases s with
  | union members =>
    rw [encodeLeafSegment, unionCount, if_pos h.1]
    rfl
  | _ => rfl

theorem encodeSegments_eq {segments : List Ast.Segment} (h : ∀ s ∈ segments, s.selector.WellFormed) :
    encodeSegments segments = .ok (segments.flatMap segmentBytes) := by
  induction segments with
  | nil => rfl
  | cons s rest ih =>
    have hs := encodeLeafSegment_eq (h s mem_cons_self)
    have hfirst : encodeSegment s = .ok (segmentBytes s) := by
      cases s with
      | leaf s => exact hs
      | descend s =>
        rw [Ast.Segment.selector] at hs
        rw [encodeSegment, hs]
        rfl
    rw [encodeSegments, hfirst, ih (forall_mem_cons.mp h).2]
    rfl

/-- The encoder writes the program, or refuses it for its length. -/
theorem encode_eq {ast : PathAst} (h : ast.WellFormed) :
    encode ast = if programBytesCeiling ≤ (programBytes ast).length then .error ⟨0, .pathTooLong⟩
      else .ok (programBytes ast) := by
  rw [encode, encodeSegments_eq h.2]
  rfl

private theorem encodeName_ne_nil (key : Bytes) : encodeName key ≠ [] := cons_ne_nil _ _

theorem encodeMember_ne_nil (m : Ast.Member) : encodeMember m ≠ [] := by
  cases m <;> exact cons_ne_nil _ _

theorem leafBytes_ne_nil (s : Ast.Leaf) : leafBytes s ≠ [] := by
  cases s <;> exact cons_ne_nil _ _

theorem segmentBytes_ne_nil (s : Ast.Segment) : segmentBytes s ≠ [] := by
  cases s with
  | leaf s => exact leafBytes_ne_nil s
  | descend s => exact cons_ne_nil _ _

/-- A presence byte by its three fields. -/
def presenceOf (start stop step : Bool) : UInt8 :=
  (if start then sliceHasStart else 0) ||| (if stop then sliceHasEnd else 0) ||| (if step then sliceHasStep else 0)

theorem slicePresence_eq (s : Ast.SliceSpec) :
    slicePresence s = presenceOf s.start.isSome s.stop.isSome s.step.isSome := by
  rcases s with ⟨_ | _, _ | _, _ | _⟩ <;> rfl

theorem presenceOf_bits (a b c : Bool) :
    (presenceOf a b c &&& sliceHasStart ≠ 0 ↔ a = true) ∧ (presenceOf a b c &&& sliceHasEnd ≠ 0 ↔ b = true) ∧
      (presenceOf a b c &&& sliceHasStep ≠ 0 ↔ c = true) ∧
      presenceOf a b c &&& ~~~(sliceHasStart ||| sliceHasEnd ||| sliceHasStep) = 0 := by
  revert a b c
  decide

theorem presence_start (s : Ast.SliceSpec) : slicePresence s &&& sliceHasStart ≠ 0 ↔ s.start.isSome = true := by
  rw [slicePresence_eq]
  exact (presenceOf_bits _ _ _).1

theorem presence_end (s : Ast.SliceSpec) : slicePresence s &&& sliceHasEnd ≠ 0 ↔ s.stop.isSome = true := by
  rw [slicePresence_eq]
  exact (presenceOf_bits _ _ _).2.1

theorem presence_step (s : Ast.SliceSpec) : slicePresence s &&& sliceHasStep ≠ 0 ↔ s.step.isSome = true := by
  rw [slicePresence_eq]
  exact (presenceOf_bits _ _ _).2.2.1

private theorem presence_mask (s : Ast.SliceSpec) :
    slicePresence s &&& ~~~(sliceHasStart ||| sliceHasEnd ||| sliceHasStep) = 0 := by
  rw [slicePresence_eq]
  exact (presenceOf_bits _ _ _).2.2.2

/-- A presence byte without stray bits is determined by its three. -/
theorem presence_eq {p : UInt8} {s : Ast.SliceSpec}
    (hmask : p &&& ~~~(sliceHasStart ||| sliceHasEnd ||| sliceHasStep) = 0)
    (hstart : p &&& sliceHasStart ≠ 0 ↔ s.start.isSome = true) (hstop : p &&& sliceHasEnd ≠ 0 ↔ s.stop.isSome = true)
    (hstep : p &&& sliceHasStep ≠ 0 ↔ s.step.isSome = true) : p = slicePresence s := by
  have hall : ∀ n : Fin 256, UInt8.ofNat n &&& ~~~(sliceHasStart ||| sliceHasEnd ||| sliceHasStep) = 0 →
      UInt8.ofNat n = presenceOf (UInt8.ofNat n &&& sliceHasStart ≠ 0) (UInt8.ofNat n &&& sliceHasEnd ≠ 0)
        (UInt8.ofNat n &&& sliceHasStep ≠ 0) := by
    decide +kernel
  have hp := hall ⟨p.toNat, p.toNat_lt⟩
  simp only [UInt8.ofNat_toNat] at hp
  rw [hp hmask, slicePresence_eq]
  simp only [hstart, hstop, hstep, Bool.decide_eq_true]

private theorem readField_of_drop {bytes t : Bytes} {presence bit : UInt8} {pos : Nat} {field : Option Int64}
    (hbit : presence &&& bit ≠ 0 ↔ field.isSome = true) (h : bytes.drop pos = encodeField field ++ t) :
    readField bytes presence bit pos = some (field, pos + (encodeField field).length) := by
  rw [readField]
  cases field with
  | none =>
    rw [if_neg (by simpa using hbit)]
    rfl
  | some v =>
    have h : bytes.drop pos = encodeVarint (zigzag v) ++ t := h
    rw [if_pos (hbit.mpr rfl), h, decodeVarint_encodeVarint]
    simp only [bind_eq_bind, bind_some, unzigzag_zigzag]
    rfl

private theorem readSlice_of_drop {bytes t : Bytes} {pos : Nat} {s : Ast.SliceSpec} (h : bytes.drop pos = encodeSlice s ++ t) :
    readSlice bytes pos = some (s, pos + (encodeSlice s).length) := by
  rw [encodeSlice, cons_append, cons_append, append_assoc, append_assoc] at h
  have hone := drop_succ_of_drop h
  have htwo := drop_succ_of_drop hone
  have hthree := drop_add_of_drop htwo
  have hfour := drop_add_of_drop hthree
  rw [readSlice, getElem?_of_drop hone]
  simp only [bind_eq_bind, bind_some]
  rw [readField_of_drop (presence_start s) htwo]
  simp only [bind_some]
  rw [readField_of_drop (presence_end s) hthree]
  simp only [bind_some]
  rw [readField_of_drop (presence_step s) hfour]
  simp only [bind_some, encodeSlice, length_cons, length_append]
  congr 2
  omega

section Readers

variable {bytes t : Bytes} {pos : Nat}

/-- A name of a buffer has a length the varint holds. -/
theorem ofNat_length {key : Bytes} (hsize : bytes.length < 2 ^ 64) (hkey : key.length ≤ bytes.length) :
    (UInt64.ofNat key.length).toNat = key.length := by
  rw [UInt64.toNat_ofNat', Nat.mod_eq_of_lt (by omega)]

theorem name_region {key : Bytes} (hsize : bytes.length < 2 ^ 64) (h : bytes.drop pos = encodeName key ++ t) :
    decodeVarint (bytes.drop (pos + 1)) =
      some (UInt64.ofNat key.length, (encodeVarint (UInt64.ofNat key.length)).length) ∧
    region bytes (pos + 1 + (encodeVarint (UInt64.ofNat key.length)).length)
      (UInt64.ofNat key.length).toNat = some key ∧ (UInt64.ofNat key.length).toNat = key.length := by
  have hend := add_length_le_of_drop (encodeName_ne_nil key) h
  rw [encodeName, length_cons, length_append] at hend
  have hlen := @ofNat_length bytes key hsize (by omega)
  rw [encodeName, cons_append, append_assoc] at h
  have hone := drop_succ_of_drop h
  have htwo := drop_add_of_drop hone
  refine ⟨?_, ?_, hlen⟩
  · rw [hone, decodeVarint_encodeVarint]
  · rw [hlen]
    exact region_of_drop (by omega) htwo

def memberOp : Ast.Member → Op
  | .name key => .child key
  | .index i => .index i
  | .slice spec => .slice spec

theorem readLeaf_name {key : Bytes} (hsize : bytes.length < 2 ^ 64) (h : bytes.drop pos = encodeName key ++ t) :
    readLeaf bytes pos = some (.child key, pos + (encodeName key).length) := by
  obtain ⟨hvarint, hregion, -⟩ := name_region hsize h
  have hop : bytes[pos]? = some opChild := getElem?_of_drop h
  rw [readLeaf, hop]
  simp only [bind_eq_bind, bind_some]
  rw [if_neg (by decide), if_pos trivial, hvarint]
  simp only [bind_some]
  rw [hregion]
  simp only [bind_some, encodeName, length_cons, length_append]
  congr 2
  omega

theorem readLeaf_index {i : Int64} (h : bytes.drop pos = encodeIndex i ++ t) :
    readLeaf bytes pos = some (.index i, pos + (encodeIndex i).length) := by
  have hop : bytes[pos]? = some opIndex := getElem?_of_drop h
  have hone : bytes.drop (pos + 1) = encodeVarint (zigzag i) ++ t := drop_succ_of_drop h
  rw [readLeaf, hop]
  simp only [bind_eq_bind, bind_some]
  iterate 3 rw [if_neg (by decide)]
  rw [if_pos trivial, hone, decodeVarint_encodeVarint]
  simp only [bind_some, unzigzag_zigzag, encodeIndex, length_cons]
  congr 2
  omega

theorem readLeaf_slice {spec : Ast.SliceSpec} (h : bytes.drop pos = encodeSlice spec ++ t) :
    readLeaf bytes pos = some (.slice spec, pos + (encodeSlice spec).length) := by
  have hop : bytes[pos]? = some opSlice := getElem?_of_drop h
  rw [readLeaf, hop]
  simp only [bind_eq_bind, bind_some]
  iterate 4 rw [if_neg (by decide)]
  rw [if_pos trivial,
    readSlice_of_drop h]
  rfl

private theorem readLeaf_childAny (h : bytes.drop pos = opChildAny :: t) : readLeaf bytes pos = some (.childAny, pos + 1) := by
  rw [readLeaf, getElem?_of_drop h]
  rfl

private theorem readLeaf_descend (h : bytes.drop pos = opDescend :: t) : readLeaf bytes pos = some (.descend, pos + 1) := by
  rw [readLeaf, getElem?_of_drop h]
  rfl

theorem readLeaf_member {m : Ast.Member} (hsize : bytes.length < 2 ^ 64) (h : bytes.drop pos = encodeMember m ++ t) :
    readLeaf bytes pos = some (memberOp m, pos + (encodeMember m).length) := by
  cases m with
  | name key => exact readLeaf_name hsize h
  | index i => exact readLeaf_index h
  | slice spec => exact readLeaf_slice h

/-- A member is no union. -/
theorem readOp_of_head {opcode : UInt8} (hop : opcode ≠ opUnion) (h : bytes.drop pos = opcode :: t) :
    readOp bytes pos = readLeaf bytes pos := by
  rw [readOp, getElem?_of_drop h, option_some_bind, if_pos hop]

theorem readOp_member {m : Ast.Member} (hsize : bytes.length < 2 ^ 64) (h : bytes.drop pos = encodeMember m ++ t) :
    readOp bytes pos = some (memberOp m, pos + (encodeMember m).length) := by
  rw [← readLeaf_member hsize h]
  cases m with
  | name key | index i | slice spec => exact readOp_of_head (by decide) h

variable {members : List Ast.Member}

private theorem skipLeaves_members (hsize : bytes.length < 2 ^ 64) (h : bytes.drop pos = members.flatMap encodeMember ++ t) :
    skipLeaves bytes members.length pos = some (pos + (members.flatMap encodeMember).length) := by
  induction members generalizing pos with
  | nil => rfl
  | cons m rest ih =>
    rw [flatMap_cons, append_assoc] at h
    rw [length_cons, skipLeaves, readLeaf_member hsize h]
    simp only [bind_eq_bind, bind_some]
    rw [ih (drop_add_of_drop h), flatMap_cons, length_append, add_assoc]

theorem skipOps_members (hsize : bytes.length < 2 ^ 64) (h : bytes.drop pos = members.flatMap encodeMember ++ t) :
    skipOps bytes members.length pos = some (pos + (members.flatMap encodeMember).length) := by
  induction members generalizing pos with
  | nil => rfl
  | cons m rest ih =>
    rw [flatMap_cons, append_assoc] at h
    rw [length_cons, skipOps, readOp_member hsize h]
    simp only [bind_eq_bind, bind_some]
    rw [ih (drop_add_of_drop h), flatMap_cons, length_append, add_assoc]

private theorem decodeMembers_of_drop (hsize : bytes.length < 2 ^ 64) (h : bytes.drop pos = members.flatMap encodeMember ++ t) :
    decodeMembers bytes members.length pos = some members := by
  induction members generalizing pos with
  | nil => rfl
  | cons m rest ih =>
    rw [flatMap_cons, append_assoc] at h
    rw [length_cons, decodeMembers, readOp_member hsize h]
    simp only [bind_eq_bind, bind_some]
    rw [ih (drop_add_of_drop h)]
    cases m <;> rfl

def leafOp (pos : Nat) : Ast.Leaf → Op
  | .child key => .child key
  | .childAny => .childAny
  | .index i => .index i
  | .slice spec => .slice spec
  | .union members => .union ⟨UInt8.ofNat members.length, pos + 2⟩

theorem count_toNat (h : members.length ≤ unionMembersMax) : (UInt8.ofNat members.length).toNat = members.length := by
  rw [unionMembersMax] at h
  rw [UInt8.toNat_ofNat', Nat.mod_eq_of_lt (by omega)]

theorem readOp_leaf {s : Ast.Leaf} (hwf : s.WellFormed) (hsize : bytes.length < 2 ^ 64)
    (h : bytes.drop pos = leafBytes s ++ t) : readOp bytes pos = some (leafOp pos s, pos + (leafBytes s).length) := by
  cases s with
  | child key =>
    rw [readOp_of_head (by decide) h]
    exact readLeaf_name hsize h
  | childAny =>
    rw [readOp_of_head (by decide) h]
    exact readLeaf_childAny h
  | index i =>
    rw [readOp_of_head (by decide) h]
    exact readLeaf_index h
  | slice spec =>
    rw [readOp_of_head (by decide) h]
    exact readLeaf_slice h
  | union members =>
    rw [leafBytes, cons_append, cons_append] at h
    have hone := drop_succ_of_drop h
    have htwo := drop_succ_of_drop hone
    rw [readOp, getElem?_of_drop h]
    simp only [bind_eq_bind, bind_some]
    rw [if_neg (not_not.mpr rfl), getElem?_of_drop hone]
    simp only [bind_some]
    rw [count_toNat hwf.1.2, skipLeaves_members hsize htwo]
    simp only [bind_some, leafOp, leafBytes, length_cons]
    congr 2
    omega

private theorem opToSegment_leafOp {s : Ast.Leaf} (hwf : s.WellFormed) (hsize : bytes.length < 2 ^ 64)
    (h : bytes.drop pos = leafBytes s ++ t) : opToSegment bytes (leafOp pos s) = some s := by
  cases s with
  | union members =>
    rw [leafBytes, cons_append, cons_append] at h
    have htwo := drop_succ_of_drop (drop_succ_of_drop h)
    rw [leafOp, opToSegment, count_toNat hwf.1.2, decodeMembers_of_drop hsize htwo]
    rfl
  | _ => rfl

theorem readOp_descend (h : bytes.drop pos = opDescend :: t) : readOp bytes pos = some (.descend, pos + 1) := by
  rw [readOp_of_head (by decide) h, readLeaf_descend h]

private theorem leafOp_ne_descend (pos : Nat) (s : Ast.Leaf) : leafOp pos s ≠ .descend := by
  cases s <;> exact Op.noConfusion

/-- The decoding loop takes the segments apart. -/
private theorem decodeSegments_of_drop {segments : List Ast.Segment} {turns : Nat}
    (hwf : ∀ s ∈ segments, s.selector.WellFormed) (hsize : bytes.length < 2 ^ 64)
    (hturns : bytes.length ≤ pos + turns) (h : bytes.drop pos = segments.flatMap segmentBytes) :
    decodeSegments bytes turns pos = some segments := by
  induction segments generalizing pos turns with
  | nil =>
    have hend : ¬ pos < bytes.length := by
      have := drop_eq_nil_iff.mp h
      omega
    cases turns with
    | zero | succ turns => rw [decodeSegments, if_neg hend]
  | cons s rest ih =>
    rw [flatMap_cons] at h
    have hpos := length_pos_of_ne_nil (segmentBytes_ne_nil s)
    have hin := add_length_le_of_drop (segmentBytes_ne_nil s) h
    have hnext := drop_add_of_drop h
    have hs := hwf s mem_cons_self
    have hrest := (forall_mem_cons.mp hwf).2
    cases turns with
    | zero => omega
    | succ turns =>
      rw [decodeSegments, if_pos (by omega)]
      cases s with
      | leaf s =>
        rw [Ast.Segment.selector] at hs
        rw [segmentBytes] at h hnext hin hpos
        rw [readOp_leaf hs hsize h]
        simp only [bind_eq_bind, bind_some, if_neg (leafOp_ne_descend pos s)]
        rw [opToSegment_leafOp hs hsize h]
        simp only [bind_some]
        rw [ih hrest (by omega) hnext]
        rfl
      | descend s =>
        rw [Ast.Segment.selector] at hs
        rw [segmentBytes, cons_append] at h
        rw [readOp_descend h]
        simp only [bind_eq_bind, bind_some, if_true]
        have hsel := drop_succ_of_drop h
        rw [readOp_leaf hs hsize hsel]
        simp only [bind_some]
        rw [opToSegment_leafOp hs hsize hsel]
        simp only [bind_some]
        rw [segmentBytes, length_cons] at hnext hin hpos
        rw [ih hrest (by omega) (by rw [← hnext]; congr 1; omega)]
        rfl

end Readers

section Accepts

variable {bytes t : Bytes} {pos : Nat}

private theorem validateField_of_drop {presence bit : UInt8} {field : Option Int64}
    (hbit : presence &&& bit ≠ 0 ↔ field.isSome = true) (hstep : bit = sliceHasStep → field ≠ some 0)
    (h : bytes.drop pos = encodeField field ++ t) :
    validateField bytes presence bit pos = .ok (pos + (encodeField field).length) := by
  rw [validateField]
  cases field with
  | none =>
    rw [if_neg (by simpa using hbit)]
    rfl
  | some v =>
    have h : bytes.drop pos = encodeVarint (zigzag v) ++ t := h
    rw [if_pos (hbit.mpr rfl), h, decodeVarint_encodeVarint]
    simp only [unzigzag_zigzag]
    rw [if_neg]
    · rfl
    · intro hzero
      exact hstep hzero.1 (congrArg some hzero.2)

theorem validateSelector_name {key : Bytes} (member : Bool) (hkey : validUtf8 key = true)
    (hsize : bytes.length < 2 ^ 64) (h : bytes.drop pos = encodeName key ++ t) :
    validateSelector bytes pos member = .ok (pos + (encodeName key).length) := by
  obtain ⟨hvarint, hregion, hlen⟩ := name_region hsize h
  have hop : bytes[pos]? = some opChild := getElem?_of_drop h
  rw [validateSelector, hop]
  simp only [if_true]
  rw [hvarint]
  simp only
  rw [hregion]
  simp only [hkey, if_true, hlen, encodeName, length_cons, length_append]
  congr 1
  omega

theorem validateSelector_index {i : Int64} (member : Bool) (h : bytes.drop pos = encodeIndex i ++ t) :
    validateSelector bytes pos member = .ok (pos + (encodeIndex i).length) := by
  have hop : bytes[pos]? = some opIndex := getElem?_of_drop h
  have hone : bytes.drop (pos + 1) = encodeVarint (zigzag i) ++ t := drop_succ_of_drop h
  rw [validateSelector, hop]
  simp only
  rw [if_neg (by decide), if_pos trivial, hone, decodeVarint_encodeVarint]
  simp only [encodeIndex, length_cons]
  congr 1
  omega

theorem validateSelector_slice {spec : Ast.SliceSpec} (member : Bool) (hspec : spec.WellFormed)
    (h : bytes.drop pos = encodeSlice spec ++ t) :
    validateSelector bytes pos member = .ok (pos + (encodeSlice spec).length) := by
  rw [encodeSlice, cons_append, cons_append, append_assoc, append_assoc] at h
  have hone := drop_succ_of_drop h
  have htwo := drop_succ_of_drop hone
  have hthree := drop_add_of_drop htwo
  have hfour := drop_add_of_drop hthree
  rw [validateSelector, getElem?_of_drop h]
  simp only
  rw [if_neg (by decide), if_neg (by decide), if_pos trivial, getElem?_of_drop hone]
  simp only
  rw [if_neg (not_not.mpr (presence_mask spec)),
    validateField_of_drop (presence_start spec) (fun h => absurd h (by decide)) htwo]
  simp only [bind, Except.bind]
  rw [validateField_of_drop (presence_end spec) (fun h => absurd h (by decide)) hthree]
  simp only
  rw [validateField_of_drop (presence_step spec) (fun _ => hspec) hfour]
  simp only [encodeSlice, length_cons, length_append]
  congr 1
  omega

private theorem validateSelector_member {m : Ast.Member} (hm : m.WellFormed) (hsize : bytes.length < 2 ^ 64)
    (h : bytes.drop pos = encodeMember m ++ t) :
    validateSelector bytes pos true = .ok (pos + (encodeMember m).length) := by
  cases m with
  | name key => exact validateSelector_name true hm hsize h
  | index i => exact validateSelector_index true h
  | slice spec => exact validateSelector_slice true hm h

private theorem validateMembers_of_drop {members : List Ast.Member} (hwf : ∀ m ∈ members, m.WellFormed)
    (hsize : bytes.length < 2 ^ 64) (h : bytes.drop pos = members.flatMap encodeMember ++ t) :
    validateMembers bytes members.length pos = .ok (pos + (members.flatMap encodeMember).length) := by
  induction members generalizing pos with
  | nil => rfl
  | cons m rest ih =>
    rw [flatMap_cons, append_assoc] at h
    rw [length_cons, validateMembers, validateSelector_member (hwf m mem_cons_self) hsize h]
    simp only [bind, Except.bind]
    rw [ih (forall_mem_cons.mp hwf).2 (drop_add_of_drop h), flatMap_cons, length_append, add_assoc]

private theorem validateOp_of_head {opcode : UInt8} (hunion : opcode ≠ opUnion) (hroot : opcode ≠ opRoot)
    (h : bytes.drop pos = opcode :: t) : validateOp bytes pos = validateSelector bytes pos false := by
  rw [validateOp, getElem?_of_drop h, if_neg (fun h => hunion (some.inj h)), if_neg (fun h => hroot (some.inj h))]

private theorem validateOp_leaf {s : Ast.Leaf} (hwf : s.WellFormed) (hsize : bytes.length < 2 ^ 64)
    (h : bytes.drop pos = leafBytes s ++ t) : validateOp bytes pos = .ok (pos + (leafBytes s).length) := by
  cases s with
  | child key =>
    rw [validateOp_of_head (by decide) (by decide) h]
    exact validateSelector_name false hwf hsize h
  | childAny =>
    rw [validateOp_of_head (by decide) (by decide) h]
    rw [validateSelector, getElem?_of_drop h]
    rfl
  | index i =>
    rw [validateOp_of_head (by decide) (by decide) h]
    exact validateSelector_index false h
  | slice spec =>
    rw [validateOp_of_head (by decide) (by decide) h]
    exact validateSelector_slice false hwf h
  | union members =>
    rw [leafBytes, cons_append, cons_append] at h
    have hone := drop_succ_of_drop h
    have htwo := drop_succ_of_drop hone
    rw [validateOp, getElem?_of_drop h, if_pos rfl, getElem?_of_drop hone]
    simp only
    rw [count_toNat hwf.1.2, if_pos hwf.1, validateMembers_of_drop hwf.2 hsize htwo, leafBytes]
    simp only [length_cons]
    congr 1
    omega

private theorem leafBytes_head_ne_descend {s : Ast.Leaf} (h : bytes.drop pos = leafBytes s ++ t) :
    bytes[pos]? ≠ some opDescend := by
  cases s <;> rw [getElem?_of_drop h] <;> decide

private theorem validateSegments_of_drop {segments : List Ast.Segment} {left : Nat} (hlen : segments.length ≤ left)
    (hwf : ∀ s ∈ segments, s.selector.WellFormed) (hsize : bytes.length < 2 ^ 64)
    (h : bytes.drop pos = segments.flatMap segmentBytes) : validateSegments bytes left pos = .ok () := by
  induction segments generalizing pos left with
  | nil =>
    have hend := drop_eq_nil_iff.mp h
    cases left with
    | zero | succ left => rw [validateSegments, if_pos hend]
  | cons s rest ih =>
    rw [flatMap_cons] at h
    have hpos := length_pos_of_ne_nil (segmentBytes_ne_nil s)
    have hin := add_length_le_of_drop (segmentBytes_ne_nil s) h
    have hnext := drop_add_of_drop h
    have hs := hwf s mem_cons_self
    have hrest := (forall_mem_cons.mp hwf).2
    cases left with
    | zero => simp at hlen
    | succ left =>
      rw [validateSegments, if_neg (by omega)]
      cases s with
      | leaf s =>
        rw [Ast.Segment.selector] at hs
        rw [segmentBytes] at h hnext
        rw [if_neg (leafBytes_head_ne_descend h), validateOp_leaf hs hsize h]
        exact ih (Nat.le_of_succ_le_succ hlen) hrest hnext
      | descend s =>
        rw [Ast.Segment.selector] at hs
        rw [segmentBytes, length_cons] at hnext hin
        rw [segmentBytes, cons_append] at h
        have hsel := drop_succ_of_drop h
        have hleaf := length_pos_of_ne_nil (leafBytes_ne_nil s)
        rw [if_pos (getElem?_of_drop h), if_neg (by omega), if_neg (leafBytes_head_ne_descend hsel),
          validateOp_leaf hs hsize hsel]
        exact ih (Nat.le_of_succ_le_succ hlen) hrest (by rw [← hnext]; congr 1; omega)

end Accepts

section Refuses

variable {bytes : Bytes} {pos next : Nat}

private theorem validateField_inv {presence bit : UInt8} (h : validateField bytes presence bit pos = .ok next) :
    ∃ (field : Option Int64) (t : Bytes), (presence &&& bit ≠ 0 ↔ field.isSome = true) ∧
      (bit = sliceHasStep → field ≠ some 0) ∧ bytes.drop pos = encodeField field ++ t ∧
      next = pos + (encodeField field).length := by
  rw [validateField] at h
  split at h
  next hbit =>
    cases hd : decodeVarint (bytes.drop pos) with
    | none =>
      rw [hd] at h
      simp [pathError] at h
    | some r =>
      obtain ⟨raw, used⟩ := r
      rw [hd] at h
      simp only at h
      obtain ⟨t, hdrop, hused⟩ := encodeVarint_of_decodeVarint hd
      obtain ⟨hstep, h⟩ := guard_ok h
      refine ⟨some (unzigzag raw), t, iff_of_true hbit rfl, ?_, ?_, ?_⟩
      · intro hb hz
        exact hstep ⟨hb, some.inj hz⟩
      · rw [hdrop, encodeField, elim_some, zigzag_unzigzag]
      · rw [encodeField, elim_some, zigzag_unzigzag, ← hused]
        exact (Except.ok.inj h).symm
  next hbit =>
    refine ⟨none, bytes.drop pos, by simpa using hbit, fun _ => by simp, rfl, ?_⟩
    exact (Except.ok.inj h).symm

/-- What the selector check accepts: a member, or a wildcard outside a union. -/
theorem validateSelector_inv {member : Bool} (h : validateSelector bytes pos member = .ok next) :
    (∃ (m : Ast.Member) (t : Bytes), m.WellFormed ∧ bytes.drop pos = encodeMember m ++ t ∧
      next = pos + (encodeMember m).length) ∨
    (member = false ∧ ∃ t : Bytes, bytes.drop pos = opChildAny :: t ∧ next = pos + 1) := by
  rw [validateSelector] at h
  cases hop : bytes[pos]? with
  | none =>
    rw [hop] at h
    simp [pathError] at h
  | some opcode =>
    rw [hop] at h
    have hdrop := drop_of_getElem? hop
    simp only at h
    split at h
    next hchild =>
      cases hd : decodeVarint (bytes.drop (pos + 1)) with
      | none =>
        rw [hd] at h
        simp [pathError] at h
      | some r =>
        obtain ⟨len, used⟩ := r
        rw [hd] at h
        simp only at h
        obtain ⟨t, hvarint, hused⟩ := encodeVarint_of_decodeVarint hd
        split at h
        · simp [pathError] at h
        rename_i key hr
        obtain ⟨hkey, hlen, -⟩ := drop_of_region hr
        obtain ⟨hutf8, h⟩ := check_ok h
        left
        have hcount : UInt64.ofNat key.length = len := by rw [hlen, UInt64.ofNat_toNat]
        rw [hused, drop_add_of_drop hvarint] at hkey
        refine ⟨.name key, bytes.drop (pos + 1 + (encodeVarint len).length + len.toNat), hutf8, ?_, ?_⟩
        · rw [encodeMember, encodeName, hcount, cons_append, append_assoc, ← hkey, ← hvarint, hdrop, hchild]
        · rw [encodeMember, encodeName, hcount, length_cons, length_append, ← hused, hlen, ← Except.ok.inj h]
          omega
    · split at h
      next hindex =>
        cases hd : decodeVarint (bytes.drop (pos + 1)) with
        | none =>
          rw [hd] at h
          simp [pathError] at h
        | some r =>
          obtain ⟨raw, used⟩ := r
          rw [hd] at h
          obtain ⟨t, hvarint, hused⟩ := encodeVarint_of_decodeVarint hd
          left
          refine ⟨.index (unzigzag raw), t, trivial, ?_, ?_⟩
          · rw [encodeMember, encodeIndex, zigzag_unzigzag, cons_append, ← hvarint, hdrop, hindex]
          · rw [encodeMember, encodeIndex, zigzag_unzigzag, length_cons, ← hused, ← Except.ok.inj h]
            omega
      · split at h
        next hslice =>
          split at h
          · simp [pathError] at h
          rename_i presence hp
          obtain ⟨hmask, h⟩ := guard_ok h
          obtain ⟨n1, h1, h⟩ := except_bind_ok h
          obtain ⟨n2, h2, h3⟩ := except_bind_ok h
          obtain ⟨start, t1, hb1, -, hd1, rfl⟩ := validateField_inv h1
          obtain ⟨stop, t2, hb2, -, hd2, rfl⟩ := validateField_inv h2
          obtain ⟨step, t3, hb3, hz, hd3, rfl⟩ := validateField_inv h3
          rw [drop_add_of_drop hd1] at hd2
          have hd3 : t2 = encodeField step ++ t3 := by
            rw [← hd3]
            symm
            apply drop_add_of_drop
            rw [drop_add_of_drop hd1, hd2]
          have hpresence := @presence_eq presence ⟨start, stop, step⟩ (not_ne_iff.mp hmask) hb1 hb2 hb3
          left
          refine ⟨.slice ⟨start, stop, step⟩, t3, hz rfl, ?_, ?_⟩
          · rw [encodeMember, encodeSlice, cons_append, cons_append, append_assoc,
              append_assoc, ← hd3, ← hd2, ← hd1, ← hpresence, hdrop, hslice, drop_of_getElem? hp]
          · rw [encodeMember, encodeSlice]
            simp only [length_cons, length_append]
            omega
        · obtain ⟨hany, h⟩ := check_ok h
          right
          refine ⟨by simpa using hany.2, bytes.drop (pos + 1), ?_, (Except.ok.inj h).symm⟩
          rw [hdrop, hany.1]

private theorem validateMembers_inv {count : Nat} (h : validateMembers bytes count pos = .ok next) :
    ∃ (members : List Ast.Member) (t : Bytes), members.length = count ∧ (∀ m ∈ members, m.WellFormed) ∧
      bytes.drop pos = members.flatMap encodeMember ++ t ∧ next = pos + (members.flatMap encodeMember).length := by
  induction count generalizing pos with
  | zero =>
    obtain rfl := Except.ok.inj h
    exact ⟨[], bytes.drop pos, rfl, fun _ hm => absurd hm not_mem_nil, rfl, rfl⟩
  | succ count ih =>
    rw [validateMembers] at h
    obtain ⟨mid, hsel, hrest⟩ := except_bind_ok h
    rcases validateSelector_inv hsel with ⟨m, t, hm, hdrop, rfl⟩ | ⟨hfalse, -⟩
    · obtain ⟨members, t', hlen, hall, hdrop', rfl⟩ := ih hrest
      rw [drop_add_of_drop hdrop] at hdrop'
      refine ⟨m :: members, t', by rw [length_cons, hlen], ?_, ?_, ?_⟩
      · exact forall_mem_cons.mpr ⟨hm, hall⟩
      · rw [hdrop, hdrop', flatMap_cons, append_assoc]
      · rw [flatMap_cons, length_append, add_assoc]
    · exact absurd hfalse (by decide)

private theorem validateOp_inv (h : validateOp bytes pos = .ok next) :
    ∃ (s : Ast.Leaf) (t : Bytes), s.WellFormed ∧ bytes.drop pos = leafBytes s ++ t ∧
      next = pos + (leafBytes s).length := by
  rw [validateOp] at h
  split at h
  next hunion =>
    split at h
    · simp [pathError] at h
    rename_i count hc
    obtain ⟨hcount, h⟩ := check_ok h
    obtain ⟨members, t, hlen, hall, hdrop, rfl⟩ := validateMembers_inv h
    have hbyte : UInt8.ofNat members.length = count := by rw [hlen, UInt8.ofNat_toNat]
    refine ⟨.union members, t, ⟨by rw [hlen]; exact hcount, hall⟩, ?_, ?_⟩
    · rw [leafBytes, hbyte, cons_append, cons_append, ← hdrop, drop_of_getElem? hunion, drop_of_getElem? hc]
    · rw [leafBytes]
      simp only [length_cons]
      omega
  · obtain ⟨-, h⟩ := guard_ok h
    rcases validateSelector_inv h with ⟨m, t, hm, hdrop, rfl⟩ | ⟨-, t, hdrop, rfl⟩
    · cases m with
      | name key => exact ⟨.child key, t, hm, hdrop, rfl⟩
      | index i => exact ⟨.index i, t, hm, hdrop, rfl⟩
      | slice spec => exact ⟨.slice spec, t, hm, hdrop, rfl⟩
    · exact ⟨.childAny, t, trivial, hdrop, rfl⟩

private theorem segments_cons {s : Ast.Segment} {segments : List Ast.Segment} {left : Nat} {t : Bytes}
    (hs : s.selector.WellFormed) (hdrop : bytes.drop pos = segmentBytes s ++ t) (hlen : segments.length ≤ left)
    (hall : ∀ s ∈ segments, s.selector.WellFormed)
    (hrest : bytes.drop (pos + (segmentBytes s).length) = segments.flatMap segmentBytes) :
    ∃ segments : List Ast.Segment, segments.length ≤ left + 1 ∧ (∀ s ∈ segments, s.selector.WellFormed) ∧
      bytes.drop pos = segments.flatMap segmentBytes := by
  refine ⟨s :: segments, by rw [length_cons]; omega, ?_, ?_⟩
  · exact forall_mem_cons.mpr ⟨hs, hall⟩
  · rw [drop_add_of_drop hdrop] at hrest
    rw [hdrop, hrest, flatMap_cons]

private theorem segments_nil (left : Nat) (hend : bytes.length ≤ pos) :
    ∃ segments : List Ast.Segment, segments.length ≤ left ∧ (∀ s ∈ segments, s.selector.WellFormed) ∧
      bytes.drop pos = segments.flatMap segmentBytes :=
  ⟨[], zero_le, fun _ hm => absurd hm not_mem_nil, drop_eq_nil_of_le hend⟩

private theorem validateSegments_inv {left : Nat} (h : validateSegments bytes left pos = .ok ()) :
    ∃ segments : List Ast.Segment, segments.length ≤ left ∧ (∀ s ∈ segments, s.selector.WellFormed) ∧
      bytes.drop pos = segments.flatMap segmentBytes := by
  induction left generalizing pos with
  | zero =>
    rw [validateSegments] at h
    obtain ⟨_, h⟩ := check_ok h
    exact segments_nil 0 ‹_›
  | succ left ih =>
    rw [validateSegments] at h
    split at h
    · exact segments_nil (left + 1) ‹_›
    split at h
    next hdescend =>
      obtain ⟨-, h⟩ := guard_ok h
      obtain ⟨-, h⟩ := guard_ok h
      obtain ⟨mid, hop, hrest⟩ := except_bind_ok h
      obtain ⟨s, t, hs, hdrop, rfl⟩ := validateOp_inv hop
      obtain ⟨segments, hlen, hall, hrest⟩ := ih hrest
      have hfirst : bytes.drop pos = segmentBytes (.descend s) ++ t := by
        rw [segmentBytes, cons_append, ← hdrop]
        exact drop_of_getElem? hdescend
      apply segments_cons (s := .descend s) hs hfirst hlen hall
      rw [← hrest, segmentBytes, length_cons]
      congr 1
      omega
    · obtain ⟨mid, hop, hrest⟩ := except_bind_ok h
      obtain ⟨s, t, hs, hdrop, rfl⟩ := validateOp_inv hop
      obtain ⟨segments, hlen, hall, hrest⟩ := ih hrest
      exact segments_cons (s := .leaf s) hs hdrop hlen hall hrest

/-- The validator accepts the encodings of well-formed paths below the ceiling, and nothing else. -/
theorem validate_eq_ok {bytes : Bytes} : validate bytes = .ok () ↔
    ∃ ast : PathAst, ast.WellFormed ∧ bytes = programBytes ast ∧ bytes.length < programBytesCeiling := by
  have hflags : ∀ n : Fin 256, (UInt8.ofNat n &&& ~~~flagLegacy = 0) →
      UInt8.ofNat n = if UInt8.ofNat n = flagLegacy then flagLegacy else 0 := by
    decide +kernel
  constructor
  · intro h
    rw [validate.eq_def] at h
    split at h
    next version flags root rest =>
      obtain ⟨_, h⟩ := guard_ok h
      split at h
      · simp [pathError] at h
      split at h
      · simp [pathError] at h
      split at h
      · simp [pathError] at h
      rename_i hlen hversion hflag hroot
      obtain ⟨segments, hcount, hall, hdrop⟩ := validateSegments_inv h
      have hf := hflags ⟨flags.toNat, flags.toNat_lt⟩
      simp only [UInt8.ofNat_toNat] at hf
      refine ⟨⟨decide (flags = flagLegacy), segments⟩, ⟨hcount, hall⟩, ?_, Nat.lt_of_not_le hlen⟩
      simp only [programBytes, decide_eq_true_eq, ← hdrop, ← hf (not_ne_iff.mp hflag)]
      rw [not_ne_iff.mp hversion, not_ne_iff.mp hroot]
      rfl
    · simp [pathError] at h
  · intro h
    obtain ⟨ast, hwf, rfl, hlen⟩ := h
    have hsize : (programBytes ast).length < 2 ^ 64 := lt_trans hlen (by decide)
    have hflag : ¬ (if ast.legacy = true then flagLegacy else 0) &&& ~~~flagLegacy ≠ 0 := by
      cases ast.legacy <;> decide
    rw [programBytes] at hlen hsize
    rw [programBytes, validate, if_neg (Nat.not_le.mpr hlen), if_neg (not_not.mpr rfl), if_neg hflag,
      if_neg (not_not.mpr rfl)]
    exact @validateSegments_of_drop _ 3 _ _ hwf.1 hwf.2 hsize rfl

end Refuses

theorem decode_programBytes {ast : PathAst} (hwf : ast.WellFormed) (hsize : (programBytes ast).length < 2 ^ 64) :
    decode (programBytes ast) = some ast := by
  have hlegacy : isLegacy (programBytes ast) = some ast.legacy := by
    obtain ⟨legacy, segments⟩ := ast
    cases legacy <;> simp [isLegacy, programBytes, flagLegacy]
  rw [decode, hlegacy, option_some_bind, @decodeSegments_of_drop _ 3 _ _ hwf.2 hsize (by omega) rfl]
  rfl

end PathProgram

end InfinityDB
