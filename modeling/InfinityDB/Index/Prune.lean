import InfinityDB.Doc.Rebuild
import InfinityDB.Lib.Cursor

/-!
# The path-overlap prune

A mutation of one path skips an index whose path is statically disjoint from it. Two paths that
part at two array indexes are called disjoint although one element can answer to two indexes, and
although deleting an element moves its neighbours. `Apart` is the exact condition: no document
lets the mutation reach, or move, what the index reads.
-/

namespace InfinityDB

open Lib List Option

inductive PathStep where
  | child (key : Bytes)
  | index (i : Int)
  | wild
  | other
deriving DecidableEq

def Selector.step : Selector → PathStep
  | .child key => .child key
  | .index i => .index i
  | .childAny => .wild
  | _ => .other

/-- `steps`: a descend yields `other` and leaves its selector to the next call. -/
def steps (program : PathProgram) : List PathStep :=
  program.flatMap fun segment =>
    match segment with
    | .one s => [s.step]
    | .descend s => [.other, s.step]

def stepsDisjoint : List PathStep → List PathStep → Bool
  | ms :: m, is :: i =>
    match ms, is with
    | .child a, .child b => if a ≠ b then true else stepsDisjoint m i
    | .index a, .index b => if a ≠ b then true else stepsDisjoint m i
    | .other, _ => false
    | _, .other => false
    -- wildcards and mixed kinds: keep walking
    | _, _ => stepsDisjoint m i
  | _, _ => false

def programsDisjoint (mutation index : PathProgram) : Bool := stepsDisjoint (steps mutation) (steps index)

/-- Child steps, array indexes and wildcards only. -/
def withinIndexFence (program : PathProgram) : Bool :=
  program.all fun segment =>
    match segment with
    | .one s => s.indexable
    | .descend _ => false

variable {i m : PathProgram} {M : Set PathProgram} {t : Selector} {d : Doc} {ord : Nat} {edits : List Edit}
  {loc : Loc} {op : ApplyOp} {change : Change}

theorem withinIndexFence_cons {segment : Segment} : withinIndexFence (segment :: i) = true ↔
      (∃ t, segment = .one t ∧ t.indexable = true) ∧ withinIndexFence i = true := by
  rw [withinIndexFence, all_cons, Bool.and_eq_true]
  refine and_congr_left fun _ => ?_
  cases segment <;> simp

/-- The prune of an index is sound for a mutation path: where the verdict is disjoint, no
operation changes the scalars the index path matches. -/
def PruneSound (mutation index : PathProgram) : Prop :=
  programsDisjoint mutation index = true → ∀ d op limits out d', d.Canonical → apply d mutation op limits = .ok out →
    out.document = some d' → (scalars index d).Perm (scalars index d')

/-- In some container both selectors select one entry. -/
def Meets (s t : Selector) : Prop := ∃ d ord, ord ∈ s.select d ∧ ord ∈ t.select d

/-- Deleting what `s` selects of some array takes an element between the one an index names and
the end it counts from. -/
def Shifts (s : Selector) : Selector → Prop
  | .index i => ∃ (items : List Doc) (q p : Nat), resolveIndex i items.length = some q ∧
      p ∈ s.select (.arr items) ∧ p < items.length ∧ (0 ≤ i ∧ p < q ∨ i < 0 ∧ q < p)
  | _ => False

/-- One selector of the mutation against an index path: where they meet, the rest must be apart,
and the last selector of a mutation must not shift the index. -/
def apartAt (s : Selector) (last : Prop) (rest : PathProgram → Prop) : PathProgram → Prop
  | .one t :: i => (Meets s t → rest i) ∧ (last → ¬ Shifts s t)
  | _ => True

/-- No mutation along the first path can touch or move what the second one matches. -/
def Apart : PathProgram → PathProgram → Prop
  | [], _ => False
  | .one s :: m, i => apartAt s (m = []) (Apart m) i
  | .descend s :: m, i => ∀ tail, tail <:+ i → apartAt s (m = []) (Apart m) tail

theorem Apart.ne_nil (h : Apart m i) : m ≠ [] := by
  rintro rfl
  exact h

/-- Down one entry that the index path selects, what is left stays apart. -/
theorem Apart.residual (h : ∀ m ∈ M, Apart m (.one t :: i))
    (ht : ord ∈ t.select d) (hm : m ∈ residual M d ord) : Apart m i := by
  rcases hm with ⟨s, hm | hm, hs⟩ | ⟨hm, s, m', rfl⟩
  · exact (h _ hm).1 ⟨d, ord, hs, ht⟩
  · exact (h _ hm _ (suffix_refl _)).1 ⟨d, ord, hs, ht⟩
  · exact fun tail htail => h _ hm tail (htail.trans (suffix_cons _ _))

theorem Apart.last {s : Selector} (h : ∀ m ∈ M, Apart m (.one t :: i))
    (hm : [.one s] ∈ M ∨ [.descend s] ∈ M) : ¬ Meets s t ∧ ¬ Shifts s t := by
  rcases hm with hm | hm
  · exact ⟨(h _ hm).1, (h _ hm).2 rfl⟩
  · exact ⟨(h _ hm _ (suffix_refl _)).1, (h _ hm _ (suffix_refl _)).2 rfl⟩

theorem singleton_mem_matched : [ord] ∈ matched M d ↔
      ord < d.children.length ∧ ∃ s, ([.one s] ∈ M ∨ [.descend s] ∈ M) ∧ ord ∈ s.select d := by
  rw [cons_mem_matched]
  constructor
  · rintro ⟨c, hc, m, hm, hnil⟩
    obtain rfl := nil_mem_eval.mp hnil
    refine ⟨(List.getElem?_eq_some_iff.mp hc).1, ?_⟩
    rcases hm with hm | ⟨-, s, m', heq⟩
    · exact hm
    · simp at heq
  · rintro ⟨hlt, hs⟩
    exact ⟨_, getElem?_eq_getElem hlt, [], .inl hs, nil_mem_eval.mpr rfl⟩

/-- Every edit writes inside a matched value, or removes one. -/
def Stems (M : Set PathProgram) (d : Doc) (edits : List Edit) : Prop :=
  ∀ e ∈ edits, ∃ loc ∈ matched M d,
    e = ⟨loc, .remove⟩ ∨ loc <+: e.loc ∧ (e.change = .remove → loc.length < e.loc.length)

section Stems
variable {M : Set PathProgram} {d : Doc} {edits : List Edit}

theorem Stems.quiet (h : Stems M d edits) (hnil : [] ∉ M) : Quiet edits := by
  intro e he hloc
  obtain ⟨loc, ⟨m, hm, hl⟩, rfl | ⟨hpre, -⟩⟩ := h e he
  · rfl
  · rw [hloc, prefix_nil] at hpre
    rw [hpre] at hl
    obtain rfl := nil_mem_eval.mp hl
    exact absurd hm hnil

variable {ord : Nat}

theorem removes_iff : removes ord edits = true ↔ ∃ e ∈ edits, e.change = .remove ∧ e.loc = [ord] := by
  rw [removes, List.any_eq_true]
  refine exists_congr fun e => and_congr_right fun _ => ?_
  cases e.change <;> simp

theorem mem_under {e : Edit} : e ∈ under ord edits ↔ ⟨ord :: e.loc, e.change⟩ ∈ edits := by
  rw [under, mem_filterMap]
  constructor
  · rintro ⟨⟨loc, change⟩, he, heq⟩
    cases loc with
    | nil => simp at heq
    | cons head loc =>
      simp only at heq
      split at heq
      next hhead =>
        cases heq
        rwa [← hhead]
      · simp at heq
  · intro he
    exact ⟨_, he, by simp⟩

theorem Stems.removes (h : Stems M d edits) (hnil : [] ∉ M) (hr : removes ord edits = true) : [ord] ∈ matched M d := by
  obtain ⟨e, he, hchange, hloc⟩ := removes_iff.mp hr
  obtain ⟨loc, hmem, rfl | ⟨hpre, hlen⟩⟩ := h e he
  · rwa [← hloc]
  · have hlt := hlen hchange
    rw [hloc, length_singleton, Nat.lt_one_iff, length_eq_zero_iff] at hlt
    obtain ⟨m, hm, hl⟩ := hmem
    rw [hlt] at hl
    obtain rfl := nil_mem_eval.mp hl
    exact absurd hm hnil

theorem Stems.under (h : Stems M d edits) (hnil : [] ∉ M) {c : Doc} (hc : d.children[ord]? = some c) :
    Stems (residual M d ord) c (under ord edits) := by
  intro e he
  obtain ⟨loc, hmem, heq | ⟨hpre, hlen⟩⟩ := h _ (mem_under.mp he)
  · obtain ⟨rfl, hchange⟩ := Edit.mk.inj heq
    obtain ⟨c', hc', hmem'⟩ := cons_mem_matched.mp hmem
    obtain rfl : c = c' := by simpa using hc.symm.trans hc'
    exact ⟨e.loc, hmem', .inl (by rw [← hchange])⟩
  · cases loc with
    | nil =>
      obtain ⟨m, hm, hl⟩ := hmem
      obtain rfl := nil_mem_eval.mp hl
      exact absurd hm hnil
    | cons head loc =>
      obtain ⟨rfl, hpre'⟩ := cons_prefix_cons.mp hpre
      obtain ⟨c', hc', hmem'⟩ := cons_mem_matched.mp hmem
      obtain rfl : c = c' := by simpa using hc.symm.trans hc'
      exact ⟨loc, hmem', .inr ⟨hpre', fun hr => Nat.lt_of_succ_lt_succ (hlen hr)⟩⟩

end Stems

private theorem flatMap_of_filterMap {α β γ : Type*} (l : List α) (f : α → Option β) (g : β → List γ) :
    (l.filterMap f).flatMap g = l.flatMap fun a => ((f a).map g).getD [] := by
  induction l with
  | nil => rfl
  | cons a l ih =>
    rw [flatMap_cons, ← ih, filterMap_cons]
    cases f a <;> rfl

/-- What an index path picks is unmoved when every removed entry was selected by something that
neither meets nor shifts its selector. -/
private theorem pick_rebuild_unmoved (hq : Quiet edits) (ht : t.indexable = true)
    (h : ∀ ord, removes ord edits = true → ∃ s, ord ∈ Selector.select s d ∧ ¬ Meets s t ∧ ¬ Shifts s t) :
    t.pick (d.rebuild edits) =
      (t.select d).filterMap fun ord => (d.children[ord]?).map fun c => c.rebuild (under ord edits) := by
  refine pick_rebuild hq ht (fun ord hr hsel => ?_) fun k q p hk hsel hp hr hside => ?_
  · obtain ⟨s, hord, hmeets, -⟩ := h ord hr
    exact hmeets ⟨d, ord, hord, hsel⟩
  · subst hk
    obtain ⟨s, hord, -, hshifts⟩ := h p hr
    cases d with
    | scalar value => simp [Doc.children] at hp
    | obj members => simp [Selector.select, Member.select] at hsel
    | arr items => exact hshifts ⟨items, q, p, mem_toList.mp hsel, hord, hp, hside⟩

/-- Edits of programs that are apart from an index path leave its scalars alone. -/
theorem scalars_rebuild_of_apart (hfence : withinIndexFence i = true) (hM : ∀ m ∈ M, Apart m i) (hs : Stems M d edits) :
    scalars i (d.rebuild edits) = scalars i d := by
  induction i generalizing M d edits with
  | nil =>
    have hq := hs.quiet fun hnil => (hM _ hnil).ne_nil rfl
    rw [scalars_nil, scalars_nil]
    cases d with
    | scalar value => rw [rebuild_scalar hq]
    | arr items => rw [rebuild_arr hq]; rfl
    | obj members => rw [rebuild_obj hq]; rfl
  | cons segment i ih =>
    obtain ⟨⟨t, rfl, ht⟩, htail⟩ := withinIndexFence_cons.mp hfence
    have hnil : [] ∉ M := fun hnil => (hM _ hnil).ne_nil rfl
    have hpick := pick_rebuild_unmoved (hs.quiet hnil) ht fun ord hr => by
      obtain ⟨-, s, hm, hord⟩ := singleton_mem_matched.mp (hs.removes hnil hr)
      exact ⟨s, hord, Apart.last hM hm⟩
    rw [scalars_cons, scalars_cons, hpick, Selector.pick, flatMap_of_filterMap, flatMap_of_filterMap]
    refine flatMap_congr fun ord hord => ?_
    cases hc : d.children[ord]? with
    | none => rfl
    | some c => exact ih htail (fun m hm => Apart.residual hM hord hm) (hs.under hnil hc)

/-- A verdict on one location removes it, writes inside it, or plans no edit. -/
def Verdict.Within (loc : Loc) (verdict : Verdict) : Prop :=
  ∀ e, verdict.edit = some e →
    e = ⟨loc, .remove⟩ ∨ loc <+: e.loc ∧ (e.change = .remove → loc.length < e.loc.length)

theorem Verdict.within_skip (loc : Loc) : Verdict.skip.Within loc := fun e he => by simp [Verdict.edit] at he

theorem Verdict.within_none (loc : Loc) (result : MatchResult) : (Verdict.apply result none).Within loc :=
  fun e he => by simp [Verdict.edit] at he

theorem Verdict.within_some {result : MatchResult} {e : Edit} (hloc : loc <+: e.loc)
    (hlen : e.change = .remove → loc.length < e.loc.length) : (Verdict.apply result (some e)).Within loc := by
  intro e' he'
  cases he'
  exact .inr ⟨hloc, hlen⟩

theorem Verdict.within_replace (loc : Loc) (value : Doc) (result : MatchResult) :
    (Verdict.apply result (some ⟨loc, .replace value⟩)).Within loc :=
  within_some (prefix_refl _) (by simp)

private theorem planMemberSet_within (loc : Loc) (members : List (Bytes × Doc)) (key : Bytes) (fragment : Doc) :
    (planMemberSet loc members key fragment).Within loc := by
  rw [planMemberSet]
  split
  · exact Verdict.within_some (prefix_append _ _) (by simp)
  · exact Verdict.within_some (prefix_refl _) (by simp)

private theorem planArrTrim_within (loc : Loc) (items : List Doc) (start stop : Int) :
    (planArrTrim loc items start stop).Within loc := by
  unfold planArrTrim
  dsimp only
  split
  · exact Verdict.within_none _ _
  · split
    · exact Verdict.within_none _ _
    · split
      · exact Verdict.within_replace _ _ _
      · exact Verdict.within_replace _ _ _

private theorem number_within {number : Except ApplyError Number} {verdict : Verdict} (h : (do
      let result ← number
      Except.ok (Verdict.apply (.num result) (some ⟨loc, .replace result.doc⟩))) = .ok verdict) :
    verdict.Within loc := by
  obtain ⟨result, -, h⟩ := Lib.except_bind_ok h
  cases h
  exact Verdict.within_replace _ _ _

private theorem planSite_within {value : Doc} {verdict : Verdict}
    (h : planSite loc value op = .ok verdict) : verdict.Within loc := by
  have hreplace {v : Doc} {r : MatchResult}
      (h : Except.ok (Verdict.apply r (some ⟨loc, .replace v⟩)) = (Except.ok verdict : Except ApplyError Verdict)) :
      verdict.Within loc := by
    cases h
    exact Verdict.within_replace _ _ _
  have hclear {b : Bool} {v : Doc} {r : MatchResult}
      (h : Except.ok (if b then Verdict.apply r (some ⟨loc, .replace v⟩) else .skip) =
        (Except.ok verdict : Except ApplyError Verdict)) : verdict.Within loc := by
    cases h
    split
    · exact Verdict.within_replace _ _ _
    · exact Verdict.within_skip _
  unfold planSite at h
  split at h
  -- setReplace, setMember, del
  · exact hreplace h
  · cases h
    exact planMemberSet_within _ _ _ _
  · cases h
    intro e he
    exact .inl (some.inj he).symm
  -- numbers
  · exact number_within h
  · exact number_within h
  · exact number_within h
  · exact number_within h
  -- strings, booleans, clear
  · exact hreplace h
  · exact hreplace h
  · exact hreplace h
  · exact hreplace h
  · exact hclear h
  · exact hclear h
  -- arrays
  · cases h
    exact Verdict.within_some (prefix_refl _) (by simp)
  · dsimp only at h
    split at h
    · cases h
      exact Verdict.within_some (prefix_refl _) (by simp)
    · simp at h
  · dsimp only at h
    split at h
    · cases h
      exact Verdict.within_none _ _
    · cases h
      exact Verdict.within_some (prefix_append _ _) (by simp)
  · cases h
    exact planArrTrim_within _ _ _ _
  -- merge, and every type mismatch
  · cases h
    dsimp only
    split
    · exact Verdict.within_skip _
    · exact Verdict.within_replace _ _ _
  · cases h
    exact Verdict.within_skip _

private theorem mem_of_mapM_ok {α β ε : Type} {f : α → Except ε β} {l : List α} {out : List β}
    (h : l.mapM f = .ok out) {y : β} (hy : y ∈ out) : ∃ x ∈ l, f x = .ok y := by
  induction l generalizing out with
  | nil =>
    cases h
    simp at hy
  | cons x l ih =>
    rw [mapM_cons] at h
    obtain ⟨z, hx, h⟩ := Lib.except_bind_ok h
    obtain ⟨rest, hl, h⟩ := Lib.except_bind_ok h
    cases h
    rcases mem_cons.mp hy with rfl | hy
    · exact ⟨x, by simp, hx⟩
    · obtain ⟨x', hmem, hx'⟩ := ih hl hy
      exact ⟨x', mem_cons_of_mem _ hmem, hx'⟩

private theorem planAll_mem {locs : List Loc} {plan : List (Loc × Verdict)}
    (h : planAll d op locs = .ok plan) {x : Loc × Verdict} (hx : x ∈ plan) : x.1 ∈ locs ∧ x.2.Within x.1 := by
  obtain ⟨loc, hloc, hone⟩ := mem_of_mapM_ok h hx
  cases hres : d.resolve loc with
  | none =>
    rw [hres] at hone
    cases hone
    exact ⟨hloc, Verdict.within_skip _⟩
  | some value =>
    rw [hres] at hone
    obtain ⟨verdict, hsite, hone⟩ := Lib.except_bind_ok hone
    cases hone
    exact ⟨hloc, planSite_within hsite⟩

theorem mem_canonical {locs : List Loc} : loc ∈ canonical locs ↔ loc ∈ locs := by
  rw [canonical, mem_dedup, mem_insertionSort]

/-- A mutation that yields a document rebuilt it around edits that stem from its path. -/
private theorem apply_document {d' : Doc} {limits : Limits} {out : ApplyOutcome}
    (h : apply d m op limits = .ok out) (hd : out.document = some d') :
    ∃ edits, d' = d.rebuild edits ∧ Stems {m} d edits := by
  unfold apply at h
  split at h
  · simp at h
  dsimp only at h
  split at h
  · simp at h
  obtain ⟨plan, hplan, h⟩ := Lib.except_bind_ok h
  split at h
  · cases h
    simp at hd
  obtain ⟨-, h⟩ := Lib.check_ok h
  obtain ⟨-, h⟩ := Lib.check_ok h
  cases h
  cases hd
  refine ⟨_, rfl, fun e he => ?_⟩
  obtain ⟨x, hx, hedit⟩ := mem_filterMap.mp he
  obtain ⟨hloc, hwithin⟩ := planAll_mem hplan hx
  exact ⟨x.1, ⟨m, rfl, mem_canonical.mp hloc⟩, hwithin e hedit⟩

/-- A container of the same shape that holds one document and nulls. -/
def Doc.plant (d : Doc) (ord : Nat) (c : Doc) : Doc :=
  match d with
  | .scalar value => .scalar value
  | .arr items => .arr (items.mapIdx fun k _ => if k = ord then c else .scalar .null)
  | .obj members => .obj (members.mapIdx fun k x => (x.1, if k = ord then c else .scalar .null))

section Plant
variable {d c : Doc} {ord : Nat}

theorem children_plant :
    (d.plant ord c).children = d.children.mapIdx fun k _ => if k = ord then c else .scalar .null := by
  cases d with
  | scalar value | arr items => rfl
  | obj members =>
    refine ext_getElem? fun k => ?_
    cases hk : members[k]? <;> simp [Doc.plant, Doc.children, hk]

theorem plant_keys (members : List (Bytes × Doc)) :
    (members.mapIdx fun k x => (x.1, if k = ord then c else Doc.scalar .null)).map Prod.fst = members.map Prod.fst := by
  refine ext_getElem? fun k => ?_
  cases hk : members[k]? <;> simp [hk]

private theorem member_select_plant (member : Member) : member.select (d.plant ord c) = member.select d := by
  cases d with
  | scalar value => rfl
  | arr items => cases member <;> simp [Member.select, Doc.plant]
  | obj members =>
    cases member with
    | index i | slice spec => rfl
    | name key =>
      have hfind (l : List (Bytes × Doc)) :
          l.findIdx? (fun x => x.1 == key) = (l.map Prod.fst).findIdx? (· == key) := by
        rw [findIdx?_map]
        rfl
      rw [Doc.plant, Member.select, Member.select, hfind, hfind, plant_keys]

theorem select_plant (s : Selector) : s.select (d.plant ord c) = s.select d := by
  cases s with
  | child key | index i | slice spec => exact member_select_plant _
  | childAny => simp [Selector.select, children_plant]
  | union members =>
    rw [Selector.select, Selector.select]
    simp only [member_select_plant]

theorem residual_plant (M : Set PathProgram) (k : Nat) : residual M (d.plant ord c) k = residual M d k := by
  simp only [residual, select_plant]

theorem mem_scalars_plant {t : Selector} {i : PathProgram} {v : Scalar} (ht : ord ∈ t.select d)
    (hlt : ord < d.children.length) (hv : v ∈ scalars i c) : v ∈ scalars (.one t :: i) (d.plant ord c) := by
  rw [scalars_cons, mem_flatMap]
  refine ⟨c, mem_filterMap.mpr ⟨ord, by rwa [select_plant], ?_⟩, hv⟩
  simp [children_plant, hlt]

/-- The keys of the container itself are distinct. -/
def Doc.keysDistinct : Doc → Prop
  | .obj members => (members.map Prod.fst).Nodup
  | _ => True

theorem canonical_plant (hd : d.keysDistinct) (hc : c.Canonical) : (d.plant ord c).Canonical := by
  have hentry (k : Nat) : (if k = ord then c else Doc.scalar .null).Canonical := by
    split
    · exact hc
    · exact .scalar _
  cases d with
  | scalar value => exact .scalar _
  | arr items =>
    refine .arr _ fun x hx => ?_
    obtain ⟨k, -, rfl⟩ := mem_mapIdx.mp hx
    exact hentry k
  | obj members =>
    refine .obj _ (by rwa [plant_keys]) fun x hx => ?_
    obtain ⟨k, -, rfl⟩ := mem_mapIdx.mp hx
    exact hentry k

end Plant

/-- Whatever selectors select of an entry they select of one whose container has distinct keys. -/
theorem exists_keysDistinct (hlt : ord < d.children.length) : ∃ d' ord', d'.keysDistinct ∧ ord' < d'.children.length ∧
      ∀ s : Selector, ord ∈ s.select d → ord' ∈ s.select d' := by
  cases d with
  | scalar value => exact ⟨.scalar value, ord, trivial, hlt, fun _ h => h⟩
  | arr items => exact ⟨.arr items, ord, trivial, hlt, fun _ h => h⟩
  | obj members =>
    rw [Doc.children, length_map] at hlt
    have hmember (member : Member) (h : ord ∈ member.select (.obj members)) :
        0 ∈ member.select (.obj [(members[ord].1, .scalar .null)]) := by
      cases member with
      | index i | slice spec => simp [Member.select] at h
      | name key =>
        have hkey := (findIdx?_eq_some_iff_getElem.mp (mem_toList.mp h)).2.1
        simp [Member.select, hkey]
    refine ⟨.obj [(members[ord].1, .scalar .null)], 0, by simp [Doc.keysDistinct], by simp [Doc.children], fun s h => ?_⟩
    cases s with
    | child key => exact hmember (.name key) h
    | index i => exact hmember (.index i) h
    | slice spec => exact hmember (.slice spec) h
    | childAny => simp [Selector.select, Doc.children]
    | union list =>
      obtain ⟨member, hmem, hsel⟩ := mem_flatMap.mp h
      exact mem_flatMap.mpr ⟨member, hmem, hmember member hsel⟩

/-- An index selector selects an entry of some container. -/
theorem Selector.exists_select (ht : t.indexable = true) :
    ∃ d ord, d.keysDistinct ∧ ord ∈ t.select d ∧ ord < d.children.length := by
  cases t with
  | child key =>
    exact ⟨.obj [(key, .scalar .null)], 0, by simp [Doc.keysDistinct], by simp [Selector.select, Member.select],
      by simp [Doc.children]⟩
  | childAny => exact ⟨.arr [.scalar .null], 0, trivial, by simp [Selector.select, Doc.children], by simp [Doc.children]⟩
  | index i =>
    refine ⟨.arr (List.replicate (i.natAbs + 1) (.scalar .null)), (if i < 0 then i + (i.natAbs + 1) else i).toNat,
      trivial, ?_, ?_⟩
    · rw [Selector.select, Member.select, mem_toList, resolveIndex_eq_some, length_replicate]
      split <;> omega
    · simp only [Doc.children, length_replicate]
      split <;> omega
  | slice spec | union members => simp [Selector.indexable] at ht

/-- An index path matches a scalar other than null in some document. -/
theorem exists_matching (hfence : withinIndexFence i = true) : ∃ d, d.Canonical ∧ Scalar.bool true ∈ scalars i d := by
  induction i with
  | nil => exact ⟨.scalar (.bool true), .scalar _, by simp [scalars_nil, Doc.scalarOf]⟩
  | cons segment i ih =>
    obtain ⟨⟨t, rfl, ht⟩, htail⟩ := withinIndexFence_cons.mp hfence
    obtain ⟨c, hcanon, hc⟩ := ih htail
    obtain ⟨d, ord, hkeys, hord, hlt⟩ := t.exists_select ht
    exact ⟨d.plant ord c, canonical_plant hkeys hcanon, mem_scalars_plant hord hlt hc⟩

theorem Selector.select_lt (ht : t.indexable = true) (h : ord ∈ t.select d) : ord < d.children.length := by
  match t, d with
  | .childAny, _ => exact mem_range.mp h
  | .index i, .arr items => exact (resolveIndex_eq_some.mp (mem_toList.mp h)).1
  | .child key, .obj members =>
    have hfind := (findIdx?_eq_some_iff_getElem.mp (mem_toList.mp h)).1
    rwa [Doc.children, length_map]
  | .index i, .scalar _ | .index i, .obj _ | .child key, .scalar _ | .child key, .arr _ =>
    simp [Selector.select, Member.select] at h
  | .slice _, _ | .union _, _ => simp [Selector.indexable] at ht

private theorem select_null : t.select (.scalar .null) = [] := by
  cases t <;> simp [Selector.select, Member.select, Doc.children]

theorem not_mem_scalars_null (i : PathProgram) (hfence : withinIndexFence i = true) :
    Scalar.bool true ∉ scalars i (.scalar .null) := by
  cases i with
  | nil => simp [scalars_nil, Doc.scalarOf]
  | cons segment i =>
    obtain ⟨⟨t, rfl, -⟩, -⟩ := withinIndexFence_cons.mp hfence
    simp [scalars_cons, Selector.pick, select_null]

/-- The edits are one change at every matched location. -/
def Uniform (M : Set PathProgram) (d : Doc) (change : Change) (edits : List Edit) : Prop :=
  ∀ e, e ∈ edits ↔ e.loc ∈ matched M d ∧ e.change = change

/-- The change deletes a value or nulls it. -/
def Change.Blanks (change : Change) : Prop := change = .remove ∨ change = .replace (.scalar .null)

section Uniform
variable {M : Set PathProgram} {d c : Doc} {change : Change} {edits : List Edit}

theorem Uniform.under (h : Uniform M d change edits) {ord : Nat} (hc : d.children[ord]? = some c) :
    Uniform (residual M d ord) c change (under ord edits) := by
  intro e
  rw [mem_under, h, cons_mem_matched]
  simp [hc]

theorem Uniform.quiet (h : Uniform M d change edits) (hM : change = .remove ∨ [] ∉ M) : Quiet edits := by
  intro e he hloc
  obtain ⟨⟨m, hm, hl⟩, hchange⟩ := (h e).mp he
  rcases hM with rfl | hnil
  · exact hchange
  · rw [hloc] at hl
    obtain rfl := nil_mem_eval.mp hl
    exact absurd hm hnil

theorem rebuild_of_replaced (h : Uniform M d (.replace c) edits) (hnil : [] ∈ M) : d.rebuild edits = c := by
  have hmem : (⟨[], .replace c⟩ : Edit) ∈ edits := (h _).mpr ⟨⟨[], hnil, nil_mem_eval.mpr rfl⟩, rfl⟩
  have hfound : replacement? edits = some c := by
    cases hr : replacement? edits with
    | none =>
      have := findSome?_eq_none_iff.mp hr _ hmem
      simp at this
    | some c' =>
      obtain ⟨e, he, heq⟩ := exists_of_findSome?_eq_some hr
      have hchange := ((h e).mp he).2
      cases hloc : e.loc with
      | nil =>
        rw [hloc, hchange] at heq
        exact heq.symm
      | cons ord loc => simp [hloc] at heq
  cases d <;> rw [Doc.rebuild, hfound] <;> rfl

theorem rebuild_null (hblank : change.Blanks) (h : Uniform M (.scalar .null) change edits) :
    (Doc.scalar .null).rebuild edits = .scalar .null := by
  rcases hblank with rfl | rfl
  · exact rebuild_scalar (h.quiet (.inl rfl)) _
  · by_cases hnil : [] ∈ M
    · exact rebuild_of_replaced h hnil
    · exact rebuild_scalar (h.quiet (.inr hnil)) _

/-- The entries of a rebuilt container are its entries, rebuilt. -/
private theorem children_rebuild (hq : Quiet edits) : (d.rebuild edits).children =
      survivors (fun k => !removes k edits) (fun k c => c.rebuild (InfinityDB.under k edits)) 0 d.children := by
  cases d with
  | scalar value => rw [rebuild_scalar hq]; rfl
  | arr items => rw [rebuild_arr hq]; rfl
  | obj members =>
    rw [rebuild_obj hq]
    exact (survivors_map Prod.snd 0 members).trans (survivors_of_map Prod.snd 0 members).symm

/-- What is lost below the planted entry is lost above it. -/
private theorem lost_of_lost_below {ord : Nat} {t : Selector} {i : PathProgram} (hfence : withinIndexFence i = true)
    (hblank : change.Blanks) (hM : change = .remove ∨ [] ∉ M) (h : Uniform M (d.plant ord c) change edits)
    (hlost : ord < d.children.length → Uniform (residual M d ord) c change (InfinityDB.under ord edits) →
      Scalar.bool true ∉ scalars i (c.rebuild (InfinityDB.under ord edits))) :
    Scalar.bool true ∉ scalars (.one t :: i) ((d.plant ord c).rebuild edits) := by
  rw [scalars_cons, mem_flatMap]
  rintro ⟨x, hx, hv⟩
  obtain ⟨k', -, hx⟩ := mem_filterMap.mp hx
  rw [children_rebuild (h.quiet hM)] at hx
  obtain ⟨k, y, hy, -, rfl⟩ := mem_survivors.mp (mem_of_getElem? hx)
  rw [zero_add] at hv
  have hunder := h.under hy
  rw [residual_plant] at hunder
  obtain ⟨hlt, rfl⟩ : k < d.children.length ∧ y = if k = ord then c else .scalar .null := by
    rw [children_plant, getElem?_mapIdx] at hy
    obtain ⟨z, hz, rfl⟩ := map_eq_some_iff.mp hy
    exact ⟨(List.getElem?_eq_some_iff.mp hz).1, rfl⟩
  by_cases hk : k = ord
  · subst hk
    rw [if_pos rfl] at hunder hv
    exact hlost hlt hunder hv
  · rw [if_neg hk] at hunder hv
    rw [rebuild_null hblank hunder] at hv
    exact not_mem_scalars_null i hfence hv

end Uniform

/-- The change, made at every match of `M`, can cost the index path a scalar. -/
def Loses (M : Set PathProgram) (change : Change) (i : PathProgram) : Prop :=
  ∃ d, d.Canonical ∧ Scalar.bool true ∈ scalars i d ∧
    ∀ edits, Uniform M d change edits → Scalar.bool true ∉ scalars i (d.rebuild edits)

theorem Loses.above (hfence : withinIndexFence i = true) (hblank : change.Blanks) (hM : change = .remove ∨ [] ∉ M)
    (hkeys : d.keysDistinct) (ht : ord ∈ t.select d) (hlt : ord < d.children.length)
    (h : Loses (residual M d ord) change i) : Loses M change (.one t :: i) := by
  obtain ⟨c, hcanon, hc, hlost⟩ := h
  exact ⟨d.plant ord c, canonical_plant hkeys hcanon, mem_scalars_plant ht hlt hc,
    fun edits hedits => lost_of_lost_below hfence hblank hM hedits fun _ hunder => hlost _ hunder⟩

/-- In some document the mutation matches a value that encloses a match of the index. -/
def Touches (M : Set PathProgram) (i : PathProgram) : Prop :=
  ∃ d, ∃ outer ∈ matched M d, ∃ inner ∈ eval i d, outer <+: inner

private theorem residual_mono {d' : Doc} {ord' : Nat}
    (h : ∀ s : Selector, ord ∈ s.select d → ord' ∈ s.select d') : residual M d ord ⊆ residual M d' ord' := by
  rintro m (⟨s, hm, hs⟩ | hm)
  · exact .inl ⟨s, hm, h s hs⟩
  · exact .inr hm

private theorem matched_mono {M' : Set PathProgram} (h : M ⊆ M') : matched M d ⊆ matched M' d :=
  fun _ ⟨m, hm, hloc⟩ => ⟨m, h hm, hloc⟩

/-- Nulling a value that encloses a match loses it. -/
theorem Touches.loses (hfence : withinIndexFence i = true)
    (h : Touches M i) : Loses M (.replace (.scalar .null)) i := by
  induction i generalizing M with
  | nil =>
    obtain ⟨d, outer, ⟨m, hm, houter⟩, inner, hinner, hpre⟩ := h
    obtain rfl : inner = [] := by simpa [eval] using hinner
    rw [prefix_nil.mp hpre] at houter
    obtain rfl := nil_mem_eval.mp houter
    obtain ⟨d', hcanon, hd'⟩ := exists_matching hfence
    refine ⟨d', hcanon, hd', fun edits hedits => ?_⟩
    rw [rebuild_of_replaced hedits hm]
    exact not_mem_scalars_null [] hfence
  | cons segment i ih =>
    by_cases hnil : [] ∈ M
    · obtain ⟨d', hcanon, hd'⟩ := exists_matching hfence
      refine ⟨d', hcanon, hd', fun edits hedits => ?_⟩
      rw [rebuild_of_replaced hedits hnil]
      exact not_mem_scalars_null _ hfence
    · obtain ⟨⟨t, rfl, -⟩, htail⟩ := withinIndexFence_cons.mp hfence
      obtain ⟨d, outer, houter, inner, hinner, hpre⟩ := h
      obtain ⟨ord, c, l, rfl, hord, hc, hl⟩ := mem_each.mp hinner
      cases outer with
      | nil =>
        obtain ⟨m, hm, hl⟩ := houter
        obtain rfl := nil_mem_eval.mp hl
        exact absurd hm hnil
      | cons head outer =>
        obtain ⟨rfl, hpre'⟩ := cons_prefix_cons.mp hpre
        obtain ⟨c', hc', houter'⟩ := cons_mem_matched.mp houter
        obtain rfl : c = c' := by simpa using hc.symm.trans hc'
        obtain ⟨d', ord', hkeys, hlt, hsel⟩ := exists_keysDistinct (List.getElem?_eq_some_iff.mp hc).1
        have hbelow : Touches (residual M d' ord') i :=
          ⟨c, outer, matched_mono (residual_mono hsel) houter', l, hl, hpre'⟩
        exact (ih htail hbelow).above htail (.inr rfl) (.inr hnil) hkeys (hsel t hord) hlt

/-- What touches below an entry touches above it. -/
theorem Touches.above (ht : ord ∈ t.select d) (hlt : ord < d.children.length) (h : Touches (residual M d ord) i) :
    Touches M (.one t :: i) := by
  obtain ⟨c, outer, houter, inner, hinner, hpre⟩ := h
  have hc : (d.plant ord c).children[ord]? = some c := by simp [children_plant, hlt]
  refine ⟨d.plant ord c, ord :: outer, cons_mem_matched.mpr ⟨c, hc, by rwa [residual_plant]⟩, ord :: inner,
    mem_each.mpr ⟨ord, c, inner, rfl, by rwa [select_plant], hc, hinner⟩, cons_prefix_cons.mpr ⟨rfl, hpre⟩⟩

/-- Paths that are not apart meet in an entry and stay together below it, or shift there. -/
private theorem exists_of_not_apart (ht : t.indexable = true) (hm : m ∈ M) (hne : m ≠ []) (h : ¬ Apart m (.one t :: i)) :
    (∃ d ord m', d.keysDistinct ∧ ord ∈ t.select d ∧ ord < d.children.length ∧ m' ∈ residual M d ord ∧
      ¬ Apart m' i) ∨ ∃ s, ([.one s] ∈ M ∨ [.descend s] ∈ M) ∧ Shifts s t := by
  have hhere (s : Selector) (m' : PathProgram) (hmem : .one s :: m' ∈ M ∨ .descend s :: m' ∈ M)
      (hbad : ¬ apartAt s (m' = []) (Apart m') (.one t :: i)) :
      (∃ d ord m', d.keysDistinct ∧ ord ∈ t.select d ∧ ord < d.children.length ∧ m' ∈ residual M d ord ∧
        ¬ Apart m' i) ∨ ∃ s, ([.one s] ∈ M ∨ [.descend s] ∈ M) ∧ Shifts s t := by
    rcases not_and_or.mp hbad with hmeet | hshift
    · obtain ⟨⟨d, ord, hs, htsel⟩, hrest⟩ := Classical.not_imp.mp hmeet
      obtain ⟨d', ord', hkeys, hlt, hsel⟩ := exists_keysDistinct (Selector.select_lt ht htsel)
      exact .inl ⟨d', ord', m', hkeys, hsel t htsel, hlt, .inl ⟨s, hmem, hsel s hs⟩, hrest⟩
    · obtain ⟨hlast, hshifts⟩ := Classical.not_imp.mp hshift
      subst hlast
      exact .inr ⟨s, hmem, not_not.mp hshifts⟩
  match m, hne with
  | .one s :: m', _ => exact hhere s m' (.inl hm) h
  | .descend s :: m', _ =>
    rw [Apart] at h
    push Not at h
    obtain ⟨tail, htail, hbad⟩ := h
    rcases suffix_cons_iff.mp htail with rfl | hsuffix
    · exact hhere s m' (.inr hm) hbad
    · -- the descent passes this entry and comes closer further down
      obtain ⟨d, ord, hkeys, hord, hlt⟩ := t.exists_select ht
      exact .inl ⟨d, ord, .descend s :: m', hkeys, hord, hlt, .inr ⟨hm, s, m', rfl⟩, fun hall => hbad (hall tail hsuffix)⟩

/-- Deleting an element between the index's element and the end it counts from loses it. -/
private theorem loses_of_shifts {s : Selector} (hfence : withinIndexFence i = true)
    (hs : [.one s] ∈ M ∨ [.descend s] ∈ M) (h : Shifts s t) : Loses M .remove (.one t :: i) := by
  cases t with
  | index k =>
    obtain ⟨items, q, p, hq, hp, hlt, hside⟩ := h
    obtain ⟨c, hcanon, hc⟩ := exists_matching hfence
    have hqlt := (resolveIndex_eq_some.mp hq).1
    refine ⟨(Doc.arr items).plant q c, canonical_plant trivial hcanon,
      mem_scalars_plant (mem_toList.mpr hq) hqlt hc, fun edits hedits => ?_⟩
    have hchildren : ((Doc.arr items).plant q c).children.length = items.length := by
      rw [children_plant, length_mapIdx]
      rfl
    have hremoved : removes p edits = true := by
      refine removes_iff.mpr ⟨⟨[p], .remove⟩, (hedits _).mpr ⟨singleton_mem_matched.mpr ?_, rfl⟩, rfl, rfl⟩
      exact ⟨by rwa [hchildren], s, hs, by rwa [select_plant]⟩
    rw [scalars_cons, mem_flatMap]
    rintro ⟨x, hx, hv⟩
    rw [Doc.plant, rebuild_arr (hedits.quiet (.inl rfl)), pick_index, mem_toList, bind_eq_some_iff] at hx
    obtain ⟨q', hq', hx⟩ := hx
    obtain ⟨k', y, hne, hy, rfl⟩ := survivors_index_moved (by simpa using hq) (by simpa using hlt)
      (by simp [hremoved]) hside hq' hx
    have hnull : y = .scalar .null := by
      rw [getElem?_mapIdx] at hy
      obtain ⟨z, -, rfl⟩ := map_eq_some_iff.mp hy
      simp [hne]
    subst hnull
    rw [rebuild_null (.inl rfl) (hedits.under (by rw [children_plant, ← hy]; rfl))] at hv
    exact not_mem_scalars_null i hfence hv
  | _ => simp [Shifts] at h

/-- Deleting what is not apart from the index, and does not touch it, loses a match. -/
private theorem loses_of_not_apart (hfence : withinIndexFence i = true)
    (hm : m ∈ M) (hapart : ¬ Apart m i) (htouch : ¬ Touches M i) : Loses M .remove i := by
  have hne {M : Set PathProgram} {i m : PathProgram} (hfence : withinIndexFence i = true) (hm : m ∈ M)
      (htouch : ¬ Touches M i) : m ≠ [] := by
    rintro rfl
    obtain ⟨d, -, hd⟩ := exists_matching hfence
    obtain ⟨loc, hloc, -⟩ := mem_filterMap.mp hd
    exact htouch ⟨d, [], ⟨[], hm, nil_mem_eval.mpr rfl⟩, loc, hloc, nil_prefix⟩
  induction i generalizing M m with
  | nil =>
    have hmne := hne hfence hm htouch
    match m, hmne with
    | .one s :: m', _ => exact absurd trivial hapart
    | .descend s :: m', _ =>
      refine absurd (fun tail htail => ?_) hapart
      rw [suffix_nil.mp htail]
      trivial
  | cons segment i ih =>
    obtain ⟨⟨t, rfl, ht⟩, htail⟩ := withinIndexFence_cons.mp hfence
    rcases exists_of_not_apart ht hm (hne hfence hm htouch) hapart with
      ⟨d, ord, m', hkeys, hord, hlt, hm', hapart'⟩ | ⟨s, hs, hshift⟩
    · exact (ih htail hm' hapart' fun h => htouch (h.above hord hlt)).above htail (.inl rfl) (.inl rfl) hkeys hord hlt
    · exact loses_of_shifts htail hs hshift

private theorem resolve_of_mem_eval (h : loc ∈ eval m d) : ∃ value, d.resolve loc = some value := by
  induction loc generalizing m d with
  | nil => exact ⟨d, rfl⟩
  | cons ord loc ih =>
    obtain ⟨c, hc, m', -, hm'⟩ := cons_mem_matched.mp (⟨m, rfl, h⟩ : ord :: loc ∈ matched {m} d)
    obtain ⟨value, hvalue⟩ := ih hm'
    exact ⟨value, by rw [Doc.resolve, hc]; exact hvalue⟩

private theorem mapM_ok {α β ε : Type} {f : α → Except ε β} {g : α → β} {l : List α} (h : ∀ x ∈ l, f x = .ok (g x)) :
    l.mapM f = .ok (l.map g) := by
  induction l with
  | nil => rfl
  | cons x l ih =>
    rw [mapM_cons, h x (by simp), ih (forall_mem_cons.mp h).2]
    rfl

/-- Not every edit is superseded: one at the shortest location is kept. -/
private theorem eq_nil_of_keptEdits (hchange : change.Blanks)
    (hall : ∀ e ∈ edits, e.change = change) (h : (keptEdits edits).isEmpty = true) : edits = [] := by
  by_contra hne
  obtain ⟨e, he, hmin⟩ := Set.exists_min_image _ (fun e : Edit => e.loc.length) edits.finite_toSet
    (exists_mem_of_ne_nil edits hne)
  have hkept : e ∈ keptEdits edits := by
    refine mem_filter.mpr ⟨he, ?_⟩
    rw [Bool.not_eq_true', List.any_eq_false]
    intro other hother
    have hle := hmin other hother
    rcases hchange with rfl | rfl <;> simp only [Edit.covers, hall _ he, hall _ hother] <;> simp <;> omega
  rw [List.isEmpty_iff.mp h] at hkept
  simp at hkept

/-- A mutation that plans one blanking change everywhere makes it. -/
private theorem apply_uniform {result : MatchResult} (hchange : change.Blanks) (hroot : m = [] → op ≠ .del)
    (hplan : ∀ loc value, planSite loc value op = .ok (.apply result (some ⟨loc, change⟩)))
    (hwritten : op.written = none ∨ op.written = some 0) : ∃ edits, Uniform {m} d change edits ∧
      (edits ≠ [] → ∃ limits out, apply d m op limits = .ok out ∧ out.document = some (d.rebuild edits)) := by
  let edits : List Edit := (canonical (eval m d)).map fun loc => ⟨loc, change⟩
  have hall (e : Edit) (he : e ∈ edits) : e.change = change := by
    obtain ⟨loc, -, rfl⟩ := List.mem_map.mp he
    rfl
  refine ⟨edits, fun e => ?_, fun hne => ?_⟩
  · constructor
    · intro he
      obtain ⟨loc, hloc, rfl⟩ := List.mem_map.mp he
      exact ⟨⟨m, rfl, mem_canonical.mp hloc⟩, rfl⟩
    · rintro ⟨⟨m', rfl, hloc⟩, rfl⟩
      exact List.mem_map.mpr ⟨e.loc, mem_canonical.mpr hloc, rfl⟩
  · have hplanned : planAll d op (canonical (eval m d)) =
        .ok ((canonical (eval m d)).map fun loc => (loc, .apply result (some ⟨loc, change⟩))) := by
      refine mapM_ok fun loc hloc => ?_
      obtain ⟨value, hvalue⟩ := resolve_of_mem_eval (mem_canonical.mp hloc)
      rw [hvalue]
      simp only [hplan, bind, Except.bind]
    have hedits : ((canonical (eval m d)).map fun loc => (loc, Verdict.apply result (some ⟨loc, change⟩))).filterMap
        (fun x => x.2.edit) = edits := by
      rw [filterMap_map]
      exact filterMap_eq_map.symm ▸ rfl
    obtain ⟨depth, hdepth⟩ := ((keptEdits edits).map Edit.enclosing).toFinset.exists_le
    have hdeep : depthOk edits op depth = true := by
      rcases hwritten with hw | hw
      · rw [depthOk, hw]
      · rw [depthOk, hw]
        exact List.all_eq_true.mpr fun e he => by simpa using hdepth _ (by simpa using ⟨e, he, rfl⟩)
    have hkept : ¬ (keptEdits edits).isEmpty = true := fun h => hne (eq_nil_of_keptEdits hchange hall h)
    refine ⟨⟨(eval m d).length, depth, (d.rebuild edits).encodedLen⟩, ?_⟩
    unfold apply
    split
    · exact absurd rfl (hroot rfl)
    · simp only [hplanned, bind, Except.bind, hedits, Nat.lt_irrefl, if_false, if_neg hkept, if_pos hdeep,
        le_refl, if_true]
      exact ⟨_, rfl, rfl⟩

/-- A lost scalar is a stale index. -/
private theorem not_pruneSound {m i : PathProgram} (hfence : withinIndexFence i = true)
    (hdisjoint : programsDisjoint m i = true) {op : ApplyOp} {change : Change} {result : MatchResult}
    (hchange : change.Blanks) (hroot : m = [] → op ≠ .del)
    (hplan : ∀ loc value, planSite loc value op = .ok (.apply result (some ⟨loc, change⟩)))
    (hwritten : op.written = none ∨ op.written = some 0) (hlost : Loses {m} change i) : ¬ PruneSound m i := by
  intro hsound
  obtain ⟨d, hcanon, hd, hlost⟩ := hlost
  obtain ⟨edits, huniform, happly⟩ := apply_uniform (d := d) hchange hroot hplan hwritten
  have hgone := hlost edits huniform
  obtain ⟨limits, out, hout, hdoc⟩ := happly fun hnil => by
    rw [hnil, scalars_rebuild_of_apart (M := ∅) hfence (by simp) (by simp [Stems])] at hgone
    exact hgone hd
  exact hgone ((hsound hdisjoint d op limits out _ hcanon hout hdoc).mem_iff.mp hd)

/-- The prune of an index whose path is within the fence is sound exactly when the paths it calls
disjoint are apart. -/
theorem pruneSound_iff_apart {mutation index : PathProgram} (hfence : withinIndexFence index = true) :
    PruneSound mutation index ↔ (programsDisjoint mutation index = true → Apart mutation index) := by
  constructor
  · intro hsound hdisjoint
    by_contra hapart
    by_cases htouch : Touches {mutation} index
    · exact @not_pruneSound _ _ hfence hdisjoint (.setReplace (.scalar .null)) _ _ (.inr rfl) (by simp)
        (fun loc value => rfl) (.inr rfl) (htouch.loses hfence) hsound
    · refine @not_pruneSound _ _ hfence hdisjoint .del _ _ (.inl rfl) ?_ (fun loc value => rfl) (.inl rfl)
        (loses_of_not_apart hfence rfl hapart htouch) hsound
      rintro rfl
      simp [programsDisjoint, steps, stepsDisjoint] at hdisjoint
  · intro hapart hdisjoint d op limits out d' _ hout hd'
    obtain ⟨edits, rfl, hstems⟩ := apply_document hout hd'
    rw [scalars_rebuild_of_apart hfence (M := {mutation}) (by simpa using hapart hdisjoint) hstems]

/-- The paths are apart at once: a member named otherwise. -/
theorem pruneSound_iff_apart_members : PruneSound [.one (.child [97])] [.one (.child [98])] :=
  (pruneSound_iff_apart rfl).mpr fun _ => by
    refine ⟨fun ⟨d, ord, ha, hb⟩ => ?_, fun _ => id⟩
    cases d with
    | scalar value | arr items => simp [Selector.select, Member.select] at ha
    | obj members =>
      have ha' := (findIdx?_eq_some_iff_getElem.mp (mem_toList.mp ha)).2.1
      have hb' := (findIdx?_eq_some_iff_getElem.mp (mem_toList.mp hb)).2.1
      simp_all

/-- Deleting `$[0]` of `[1,2]` moves the 2 away from `$[1]`, and setting `$[-1]` of `[1]`
overwrites `$[0]`; both mutations are called disjoint from the index. -/
theorem array_mutations_escape_prune :
    (withinIndexFence [.one (.index 1)] = true ∧ ¬ PruneSound [.one (.index 0)] [.one (.index 1)]) ∧
      withinIndexFence [.one (.index 0)] = true ∧ ¬ PruneSound [.one (.index (-1))] [.one (.index 0)] := by
  refine ⟨⟨rfl, fun h => ?_⟩, rfl, fun h => ?_⟩
  · have hperm := h rfl (.arr [.scalar (.i64 1), .scalar (.i64 2)]) .del ⟨65536, 128, 16777215⟩
      ⟨some (.arr [.scalar (.i64 2)]), [.removed], 1⟩ (.arr [.scalar (.i64 2)])
      (.arr _ (by simp [Doc.Canonical.scalar])) rfl rfl
    exact absurd hperm (by decide)
  · have hperm := h rfl (.arr [.scalar (.i64 1)]) (.setReplace (.scalar (.i64 2))) ⟨65536, 128, 16777215⟩
      ⟨some (.arr [.scalar (.i64 2)]), [.set], 1⟩ (.arr [.scalar (.i64 2)])
      (.arr _ (by simp [Doc.Canonical.scalar])) rfl rfl
    exact absurd hperm (by decide)

end InfinityDB
