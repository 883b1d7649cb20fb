import InfinityDB.Path.Parse

/-!
# Readers of a validated program

A validated program is a list of operations one after the other. Every reader that starts at one
of them ends at the next, so no walk over the program leaves it.
-/

namespace InfinityDB

open Lib List Option

namespace PathProgram

/-- The operations of a segment: `none` is a descend. -/
def segmentOps : Ast.Segment → List (Option Ast.Leaf)
  | .leaf s => [some s]
  | .descend s => [none, some s]

def opBytes : Option Ast.Leaf → Bytes
  | none => [opDescend]
  | some s => leafBytes s

/-- The operation as it is read at a position. -/
def readAs (pos : Nat) : Option Ast.Leaf → Op
  | none => .descend
  | some s => leafOp pos s

/-- A rest of the program: well-formed operations up to the end. -/
def Rest (bytes : Bytes) (pos : Nat) (ops : List (Option Ast.Leaf)) : Prop :=
  (∀ s, some s ∈ ops → s.WellFormed) ∧ bytes.drop pos = ops.flatMap opBytes

section Walks

variable {bytes : Bytes} {pos : Nat} {o : Option Ast.Leaf} {ops : List (Option Ast.Leaf)}

theorem opBytes_ne_nil (o : Option Ast.Leaf) : opBytes o ≠ [] := by
  cases o with
  | none => exact cons_ne_nil _ _
  | some s => exact leafBytes_ne_nil s

theorem Rest.readOp (h : Rest bytes pos (o :: ops)) (hsize : bytes.length < 2 ^ 64) :
    readOp bytes pos = some (readAs pos o, pos + (opBytes o).length) ∧ pos + (opBytes o).length ≤ bytes.length ∧
      Rest bytes (pos + (opBytes o).length) ops := by
  have hdrop := h.2
  rw [flatMap_cons] at hdrop
  refine ⟨?_, add_length_le_of_drop (opBytes_ne_nil o) hdrop, ?_, drop_add_of_drop hdrop⟩
  · cases o with
    | none => exact readOp_descend hdrop
    | some s => exact readOp_leaf (h.1 s mem_cons_self) hsize hdrop
  · intro s hs
    exact h.1 s (mem_cons_of_mem o hs)

theorem Rest.lt_length (h : Rest bytes pos (o :: ops)) : pos < bytes.length := by
  have hdrop := h.2
  rw [flatMap_cons] at hdrop
  have := add_length_le_of_drop (opBytes_ne_nil o) hdrop
  have := length_pos_of_ne_nil (opBytes_ne_nil o)
  omega

theorem Rest.nil (h : Rest bytes pos []) : bytes.length ≤ pos := drop_eq_nil_iff.mp h.2

variable {turns : Nat}

/-- A walk over validated operations takes one turn for each. -/
private theorem stepsFrom_isSome (h : Rest bytes pos ops) (hsize : bytes.length < 2 ^ 64)
    (hturns : bytes.length ≤ pos + turns) : (stepsFrom bytes turns pos).isSome = true := by
  induction ops generalizing pos turns with
  | nil =>
    have := h.nil
    cases turns <;> rw [stepsFrom, if_neg (by omega)] <;> rfl
  | cons o ops ih =>
    obtain ⟨hread, -, hrest⟩ := h.readOp hsize
    have hlt := h.lt_length
    have hpos := length_pos_of_ne_nil (opBytes_ne_nil o)
    cases turns with
    | zero => omega
    | succ turns =>
      obtain ⟨rest, hsteps⟩ := isSome_iff_exists.mp (@ih _ turns hrest (by omega))
      rw [stepsFrom, if_pos hlt, hread]
      simp only [bind_eq_bind, bind_some, hsteps]
      rcases o with _ | (_ | _ | _ | _ | _) <;> rfl

private theorem allOps_isSome (test : Op → Bool) (h : Rest bytes pos ops) (hsize : bytes.length < 2 ^ 64)
    (hturns : bytes.length ≤ pos + turns) : ∃ b, allOps bytes test turns pos = some b := by
  induction ops generalizing pos turns with
  | nil =>
    have := h.nil
    refine ⟨true, ?_⟩
    cases turns <;> rw [allOps, if_neg (by omega)]
  | cons o ops ih =>
    obtain ⟨hread, -, hrest⟩ := h.readOp hsize
    have hlt := h.lt_length
    have hpos := length_pos_of_ne_nil (opBytes_ne_nil o)
    cases turns with
    | zero => omega
    | succ turns =>
      rw [allOps, if_pos hlt, hread]
      simp only [bind_eq_bind, bind_some]
      split
      · exact ih hrest (by omega)
      · exact ⟨false, rfl⟩

/-- A program that passed the test for simple steps has only them. -/
private theorem simpleStepsFrom_isSome (h : Rest bytes pos ops) (hsize : bytes.length < 2 ^ 64)
    (hturns : bytes.length ≤ pos + turns) (hle : pos ≤ bytes.length)
    (hall : allOps bytes Op.simple turns pos = some true) : (simpleStepsFrom bytes turns pos).isSome = true := by
  induction ops generalizing pos turns with
  | nil =>
    have := h.nil
    cases turns <;> rw [simpleStepsFrom, if_pos (by omega)] <;> rfl
  | cons o ops ih =>
    obtain ⟨hread, hend, hrest⟩ := h.readOp hsize
    have hlt := h.lt_length
    have hpos := length_pos_of_ne_nil (opBytes_ne_nil o)
    cases turns with
    | zero => omega
    | succ turns =>
      rw [allOps, if_pos hlt, hread] at hall
      simp only [bind_eq_bind, bind_some] at hall
      split at hall
      next hop =>
        obtain ⟨rest, hsteps⟩ := isSome_iff_exists.mp (ih hrest (by omega) hend hall)
        rw [simpleStepsFrom, if_neg (by omega), hread]
        simp only [bind_eq_bind, bind_some, hsteps]
        cases hread : readAs pos o with
        | child key | index i => rfl
        | _ =>
          rw [hread] at hop
          exact absurd hop Bool.false_ne_true
      · simp at hall

end Walks

/-- The positions a walk over the program visits. -/
inductive OpAt (bytes : Bytes) : Nat → Prop where
  | first : 3 < bytes.length → OpAt bytes 3
  | next {pos next : Nat} {op : Op} : OpAt bytes pos → readOp bytes pos = some (op, next) → next < bytes.length →
      OpAt bytes next

theorem rest_of_programBytes {ast : PathAst} (hwf : ast.WellFormed) :
    Rest (programBytes ast) 3 (ast.segments.flatMap segmentOps) := by
  constructor
  · intro s hs
    obtain ⟨segment, hsegment, hs⟩ := mem_flatMap.mp hs
    have := hwf.2 segment hsegment
    cases segment with
    | leaf s' =>
      rw [segmentOps, mem_singleton, some.injEq] at hs
      rw [hs]
      exact this
    | descend s' =>
      simp only [segmentOps, mem_cons, reduceCtorEq, some.injEq, not_mem_nil, or_false, false_or] at hs
      rw [hs]
      exact this
  · change ast.segments.flatMap segmentBytes = _
    rw [flatMap_assoc]
    congr 1
    funext segment
    cases segment <;> simp [segmentBytes, segmentOps, opBytes]

theorem OpAt.rest {ast : PathAst} {pos : Nat} (hwf : ast.WellFormed) (hsize : (programBytes ast).length < 2 ^ 64)
    (h : OpAt (programBytes ast) pos) : ∃ o ops, Rest (programBytes ast) pos (o :: ops) := by
  have hcons {pos : Nat} {ops : List (Option Ast.Leaf)} (hrest : Rest (programBytes ast) pos ops)
      (hlt : pos < (programBytes ast).length) : ∃ o ops, Rest (programBytes ast) pos (o :: ops) := by
    cases ops with
    | nil => exact absurd hrest.nil (Nat.not_le.mpr hlt)
    | cons o ops => exact ⟨o, ops, hrest⟩
  induction h with
  | first hlt => exact hcons (rest_of_programBytes hwf) hlt
  | next _ hread hlt ih =>
    obtain ⟨o, ops, hrest⟩ := ih
    obtain ⟨hread', -, hnext⟩ := hrest.readOp hsize
    rw [hread'] at hread
    obtain ⟨-, rfl⟩ := Prod.mk.inj (some.inj hread)
    exact hcons hnext hlt

/-- A member of a union is reached and read inside the union. -/
private theorem memberAt_of_drop {bytes t : Bytes} {pos m : Nat} {members : List Ast.Member}
    (hsize : bytes.length < 2 ^ 64) (h : bytes.drop pos = leafBytes (.union members) ++ t) (hm : m < members.length) :
    ∃ start op next, UnionRef.memberAt bytes ⟨UInt8.ofNat members.length, pos + 2⟩ m = some start ∧
      readLeaf bytes start = some (op, next) ∧ pos < start ∧ start < next ∧
      next ≤ pos + (leafBytes (.union members)).length := by
  rw [leafBytes, cons_append, cons_append] at h
  have hmembers := drop_succ_of_drop (drop_succ_of_drop h)
  have hsplit : members = members.take m ++ (members[m] :: members.drop (m + 1)) := by
    rw [← drop_eq_getElem_cons hm, take_append_drop]
  have hlen := congrArg (fun l => (l.flatMap encodeMember).length) hsplit
  have hpos := length_pos_of_ne_nil (encodeMember_ne_nil members[m])
  simp only [flatMap_append, flatMap_cons, length_append] at hlen
  rw [hsplit, flatMap_append, append_assoc, flatMap_cons, append_assoc] at hmembers
  have hskip := skipOps_members hsize hmembers
  rw [length_take, Nat.min_eq_left (Nat.le_of_lt hm)] at hskip
  refine ⟨_, _, _, hskip, readLeaf_member hsize (drop_add_of_drop hmembers), by omega, by omega, ?_⟩
  simp only [leafBytes, length_cons]
  omega

/-- What the parser produces comes back from its encoding; what the validator accepts is the
encoding of what it decodes to; and no reader of a validated program leaves it. -/
theorem pathProgram_codec :
    (∀ (text : Bytes) (maxBytes : Nat) (ast : PathAst), PathText.parseAst text maxBytes = .ok ast →
      (∀ bytes, encode ast = .ok bytes → validate bytes = .ok () ∧ decode bytes = some ast) ∧
      (∀ e, encode ast = .error e → e = ⟨0, .pathTooLong⟩)) ∧
    (∀ (bytes : Bytes) (program : ByteProgram), fromBytes bytes = .ok program →
      program.bytes = bytes ∧ (∃ ast, decode bytes = some ast ∧ encode ast = .ok bytes) ∧
      (steps bytes).isSome = true ∧ (simpleSteps bytes).isSome = true ∧ (withinIndexFence bytes).isSome = true ∧
      ∀ pos, OpAt bytes pos → ∃ op next, readOp bytes pos = some (op, next) ∧ pos < next ∧ next ≤ bytes.length ∧
        ∀ u, op = .union u → ∀ m < u.count.toNat, ∃ start op' next', u.memberAt bytes m = some start ∧
          readLeaf bytes start = some (op', next') ∧ pos < start ∧ start < next' ∧ next' ≤ next) := by
  constructor
  · intro text maxBytes ast hparse
    have hwf := PathText.parseAst_wf hparse
    constructor
    · intro bytes henc
      rw [encode_eq hwf] at henc
      obtain ⟨hlen, henc⟩ := guard_ok henc
      cases henc
      have hlt := Nat.lt_of_not_le hlen
      exact ⟨validate_eq_ok.mpr ⟨ast, hwf, rfl, hlt⟩, decode_programBytes hwf (lt_trans hlt (by decide))⟩
    · intro e henc
      rw [encode_eq hwf] at henc
      split at henc
      · exact (Except.error.inj henc).symm
      · simp at henc
  · intro bytes program hfrom
    have hvalid : validate bytes = .ok () ∧ program.bytes = bytes := by
      rw [fromBytes] at hfrom
      split at hfrom
      next h => exact ⟨h, by rw [← Except.ok.inj hfrom]⟩
      · simp at hfrom
    obtain ⟨ast, hwf, rfl, hlt⟩ := validate_eq_ok.mp hvalid.1
    have hsize : (programBytes ast).length < 2 ^ 64 := lt_trans hlt (by decide)
    have hrest := rest_of_programBytes hwf
    have hthree : 3 ≤ (programBytes ast).length := by simp [programBytes]
    have hturns : (programBytes ast).length ≤ 3 + (programBytes ast).length := Nat.le_add_left _ _
    refine ⟨hvalid.2, ⟨ast, decode_programBytes hwf hsize, ?_⟩, stepsFrom_isSome hrest hsize hturns, ?_, ?_, ?_⟩
    · rw [encode_eq hwf, if_neg (Nat.not_le.mpr hlt)]
    · obtain ⟨simple, hsimple⟩ := allOps_isSome Op.simple hrest hsize hturns
      rw [simpleSteps, hsimple]
      cases simple with
      | false => rfl
      | true =>
        obtain ⟨list, hlist⟩ :=
          isSome_iff_exists.mp (simpleStepsFrom_isSome hrest hsize hturns hthree hsimple)
        simp [hlist]
    · obtain ⟨within, hwithin⟩ := allOps_isSome Op.indexable hrest hsize hturns
      rw [withinIndexFence, hwithin]
      rfl
    · intro pos hpos
      obtain ⟨o, ops, hops⟩ := hpos.rest hwf hsize
      obtain ⟨hread, hend, -⟩ := hops.readOp hsize
      have hlen := length_pos_of_ne_nil (opBytes_ne_nil o)
      refine ⟨_, _, hread, by omega, hend, ?_⟩
      intro u hu m hm
      have hdrop := hops.2
      rw [flatMap_cons] at hdrop
      obtain ⟨members, rfl⟩ : ∃ members, o = some (.union members) := by
        rcases o with _ | leaf
        · cases hu
        cases leaf with
        | union members => exact ⟨members, rfl⟩
        | _ => cases hu
      have hcount := (hops.1 _ mem_cons_self).1.2
      obtain rfl := Op.union.inj hu
      rw [count_toNat hcount] at hm
      exact memberAt_of_drop hsize hdrop hm

/-- The path `$..['a',1:9:2].b`, as a tree and as the bytes of its program. -/
def descentPath : PathAst := ⟨false, [.descend (.union [.name [97], .slice ⟨some 1, some 9, some 2⟩]), .leaf (.child [98])]⟩

def descentBytes : Bytes := [1, 0, 1, 7, 6, 2, 2, 1, 97, 5, 7, 2, 18, 4, 2, 1, 98]

/-- Its text compiles to a valid program that decodes to the tree; both members of the union are found. -/
theorem pathProgram_codec_descent : (validate descentBytes = .ok () ∧ decode descentBytes = some descentPath) ∧
    (∃ ast, decode descentBytes = some ast ∧ encode ast = .ok descentBytes) ∧
    ∀ m < 2, ∃ start op next, (⟨2, 6⟩ : UnionRef).memberAt descentBytes m = some start ∧
      readLeaf descentBytes start = some (op, next) ∧ 4 < start ∧ next ≤ 14 := by
  have hparse : PathText.parseAst [36, 46, 46, 91, 39, 97, 39, 44, 49, 58, 57, 58, 50, 93, 46, 98] 4096 = .ok descentPath := by
    decide +kernel
  have henc : encode descentPath = .ok descentBytes := by decide +kernel
  have hfirst := (pathProgram_codec.1 _ 4096 _ hparse).1 descentBytes henc
  have hfrom : fromBytes descentBytes = .ok ⟨descentBytes, hfirst.1⟩ := by
    rw [fromBytes]
    split
    · rfl
    next e he =>
      rw [hfirst.1] at he
      simp at he
  obtain ⟨-, hback, -, -, -, hops⟩ := pathProgram_codec.2 _ _ hfrom
  have hdescend : readOp descentBytes 3 = some (.descend, 4) := by decide +kernel
  have hunion : readOp descentBytes 4 = some (.union ⟨2, 6⟩, 14) := by decide +kernel
  obtain ⟨op, next, hread, -, -, hmembers⟩ := hops 4 (.next (.first (by decide)) hdescend (by decide))
  obtain ⟨rfl, rfl⟩ := Prod.mk.inj (Option.some.inj (hunion.symm.trans hread))
  refine ⟨hfirst, hback, fun m hm => ?_⟩
  obtain ⟨start, op, next, hstart, hleaf, hpos, -, hend⟩ := hmembers _ rfl m hm
  exact ⟨start, op, next, hstart, hleaf, hpos, hend⟩

end PathProgram

end InfinityDB
