import InfinityDB.Doc.Apply

/-!
# One level of evaluation and of rebuilding

Below one entry of a container, a set of programs leaves a set of residual programs, and a set of
edits leaves the edits under that entry. The lemmas here take one such level apart: where the
matches below an entry come from, and what a selector picks of a container that lost some entries.
-/

namespace InfinityDB

open Lib List

def Selector.pick (s : Selector) (d : Doc) : List Doc := (s.select d).filterMap (d.children[·]?)

theorem scalars_nil (d : Doc) : scalars [] d = d.scalarOf.toList := by
  cases h : d.scalarOf <;> simp [scalars, eval, Doc.resolve, h]

theorem scalars_cons (s : Selector) (rest : PathProgram) (d : Doc) :
    scalars (.one s :: rest) d = (s.pick d).flatMap (scalars rest) := by
  simp only [scalars, eval, Selector.each, Selector.pick]
  induction s.select d with
  | nil => rfl
  | cons ord ords ih =>
    rw [flatMap_cons, filterMap_append, ih]
    cases hc : d.children[ord]? with
    | none => rw [filterMap_cons_none hc]; rfl
    | some c =>
      rw [filterMap_cons_some hc, flatMap_cons, filterMap_map]
      congr 1
      refine filterMap_congr fun loc _ => ?_
      change (Doc.resolve (ord :: loc) d).bind Doc.scalarOf = _
      rw [Doc.resolve, hc]
      rfl

variable {d : Doc} {loc : Loc}

theorem mem_each {s : Selector} {rest : Doc → List Loc} : loc ∈ s.each rest d ↔
      ∃ ord c l, loc = ord :: l ∧ ord ∈ s.select d ∧ d.children[ord]? = some c ∧ l ∈ rest c := by
  simp only [Selector.each, mem_flatMap]
  constructor
  · rintro ⟨ord, hord, hloc⟩
    cases hc : d.children[ord]? with
    | none => simp [hc] at hloc
    | some c =>
      rw [hc] at hloc
      obtain ⟨l, hl, rfl⟩ := mem_map.mp hloc
      exact ⟨ord, c, l, rfl, hord, hc, hl⟩
  · rintro ⟨ord, c, l, rfl, hord, hc, hl⟩
    refine ⟨ord, hord, ?_⟩
    rw [hc]
    exact mem_map_of_mem hl

private theorem mem_descendItems {visit : Doc → List Loc} {n : Nat} {items : List Doc} : loc ∈ descendItems visit n items ↔
      ∃ k c l, loc = (n + k) :: l ∧ items[k]? = some c ∧ l ∈ c.descend visit := by
  induction items generalizing n with
  | nil => simp [descendItems]
  | cons item items ih =>
    rw [descendItems, mem_append, mem_map, ih]
    constructor
    · rintro (⟨l, hl, rfl⟩ | ⟨k, c, l, rfl, hk, hl⟩)
      · exact ⟨0, item, l, rfl, rfl, hl⟩
      · exact ⟨k + 1, c, l, by rw [add_right_comm, add_assoc], hk, hl⟩
    · rintro ⟨_ | k, c, l, rfl, hk, hl⟩
      · obtain rfl : item = c := by simpa using hk
        exact .inl ⟨l, hl, rfl⟩
      · exact .inr ⟨k, c, l, by rw [add_right_comm, add_assoc], hk, hl⟩

theorem descendMembers_eq (visit : Doc → List Loc) (n : Nat) (members : List (Bytes × Doc)) :
    descendMembers visit n members = descendItems visit n (members.map Prod.snd) := by
  induction members generalizing n with
  | nil => rfl
  | cons x members ih =>
    obtain ⟨key, value⟩ := x
    rw [descendMembers, map_cons, descendItems, ih]

theorem mem_descend {visit : Doc → List Loc} : loc ∈ d.descend visit ↔
      loc ∈ visit d ∨ ∃ ord c l, loc = ord :: l ∧ d.children[ord]? = some c ∧ l ∈ c.descend visit := by
  cases d with
  | scalar value => simp [Doc.descend, Doc.children]
  | arr items =>
    rw [Doc.descend, mem_append, mem_descendItems]
    simp [Doc.children]
  | obj members =>
    rw [Doc.descend, mem_append, descendMembers_eq, mem_descendItems]
    simp only [Doc.children, zero_add]

/-- The locations a set of programs matches. -/
def matched (M : Set PathProgram) (d : Doc) : Set Loc := {loc | ∃ m ∈ M, loc ∈ eval m d}

/-- What a set of programs asks of one entry. -/
def residual (M : Set PathProgram) (d : Doc) (ord : Nat) : Set PathProgram :=
  {m | (∃ s, (.one s :: m ∈ M ∨ .descend s :: m ∈ M) ∧ ord ∈ s.select d) ∨ (m ∈ M ∧ ∃ s m', m = .descend s :: m')}

theorem nil_mem_eval {m : PathProgram} : [] ∈ eval m d ↔ m = [] := by
  cases m with
  | nil => simp [eval]
  | cons segment rest =>
    cases segment with
    | one s => simp [eval, mem_each]
    | descend s =>
      rw [eval, mem_descend, mem_each]
      simp

theorem cons_mem_matched {M : Set PathProgram} {ord : Nat} :
    ord :: loc ∈ matched M d ↔ ∃ c, d.children[ord]? = some c ∧ loc ∈ matched (residual M d ord) c := by
  constructor
  · rintro ⟨m, hm, hloc⟩
    match m, hm, hloc with
    | [], _, hloc => simp [eval] at hloc
    | .one s :: rest, hm, hloc =>
      obtain ⟨ord', c, l, heq, hord, hc, hl⟩ := mem_each.mp hloc
      obtain ⟨rfl, rfl⟩ := List.cons.inj heq
      exact ⟨c, hc, rest, .inl ⟨s, .inl hm, hord⟩, hl⟩
    | .descend s :: rest, hm, hloc =>
      rcases mem_descend.mp hloc with hloc | ⟨ord', c, l, heq, hc, hl⟩
      · obtain ⟨ord', c, l, heq, hord, hc, hl⟩ := mem_each.mp hloc
        obtain ⟨rfl, rfl⟩ := List.cons.inj heq
        exact ⟨c, hc, rest, .inl ⟨s, .inr hm, hord⟩, hl⟩
      · obtain ⟨rfl, rfl⟩ := List.cons.inj heq
        exact ⟨c, hc, .descend s :: rest, .inr ⟨hm, s, rest, rfl⟩, hl⟩
  · rintro ⟨c, hc, m, hm, hloc⟩
    rcases hm with ⟨s, hm | hm, hord⟩ | ⟨hm, s, rest, rfl⟩
    · exact ⟨_, hm, mem_each.mpr ⟨ord, c, loc, rfl, hord, hc, hloc⟩⟩
    · exact ⟨_, hm, mem_descend.mpr (.inl (mem_each.mpr ⟨ord, c, loc, rfl, hord, hc, hloc⟩))⟩
    · exact ⟨_, hm, mem_descend.mpr (.inr ⟨ord, c, loc, rfl, hc, hloc⟩)⟩

section Survivors
variable {α β : Type*}

/-- The entries that are kept, each mapped; ordinals count from `n`. -/
def survivors (keep : Nat → Bool) (f : Nat → α → β) : Nat → List α → List β
  | _, [] => []
  | n, x :: xs => (if keep n then [f n x] else []) ++ survivors keep f (n + 1) xs

variable {keep : Nat → Bool} {f : Nat → α → β}

theorem survivors_append (n : Nat) (xs ys : List α) :
    survivors keep f n (xs ++ ys) = survivors keep f n xs ++ survivors keep f (n + xs.length) ys := by
  induction xs generalizing n with
  | nil => rfl
  | cons x xs ih =>
    rw [cons_append, survivors, ih, survivors, append_assoc, length_cons,
      show n + 1 + xs.length = n + (xs.length + 1) by omega]

theorem survivors_length_le (n : Nat) (xs : List α) : (survivors keep f n xs).length ≤ xs.length := by
  induction xs generalizing n with
  | nil => exact Nat.le_refl _
  | cons x xs ih =>
    have htail := ih (n + 1)
    rw [survivors, length_append, length_cons]
    split <;> simp only [length_cons, length_nil] <;> omega

variable {xs : List α}

theorem survivors_length_eq {n : Nat} (h : ∀ k < xs.length, keep (n + k) = true) :
    (survivors keep f n xs).length = xs.length := by
  induction xs generalizing n with
  | nil => rfl
  | cons x xs ih =>
    have hhead : keep n = true := h 0 (by simp)
    have htail := ih (n := n + 1) fun k hk => by
      have := h (k + 1) (by simpa using hk)
      rwa [show n + 1 + k = n + (k + 1) by omega]
    rw [survivors, if_pos hhead, length_append, htail, length_singleton, length_cons, add_comm]

private theorem survivors_length_lt {n k : Nat} {xs : List α} (hk : k < xs.length) (h : keep (n + k) = false) :
    (survivors keep f n xs).length < xs.length := by
  induction xs generalizing n k with
  | nil => simp at hk
  | cons x xs ih =>
    rw [survivors, length_append, length_cons]
    cases k with
    | zero =>
      have hle := @survivors_length_le _ _ keep f (n + 1) xs
      rw [add_zero] at h
      rw [h]
      simp only [Bool.false_eq_true, if_false, length_nil]
      omega
    | succ k =>
      have hlt := ih (n := n + 1) (k := k) (by simpa using hk) (by rwa [show n + 1 + k = n + (k + 1) by omega])
      split <;> simp only [length_cons, length_nil] <;> omega

theorem mem_survivors {n : Nat} {y : β} :
    y ∈ survivors keep f n xs ↔ ∃ k x, xs[k]? = some x ∧ keep (n + k) = true ∧ y = f (n + k) x := by
  induction xs generalizing n with
  | nil => simp [survivors]
  | cons x xs ih =>
    rw [survivors, mem_append, ih]
    constructor
    · rintro (hy | ⟨k, z, hz, hkeep, rfl⟩)
      · split at hy
        next hkeep => exact ⟨0, x, rfl, hkeep, mem_singleton.mp hy⟩
        · simp at hy
      · exact ⟨k + 1, z, hz, by rwa [show n + (k + 1) = n + 1 + k by omega], by
          rw [show n + (k + 1) = n + 1 + k by omega]⟩
    · rintro ⟨_ | k, z, hz, hkeep, rfl⟩
      · obtain rfl : x = z := by simpa using hz
        refine .inl ?_
        rw [if_pos (by simpa using hkeep)]
        simp
      · exact .inr ⟨k, z, hz, by rwa [show n + 1 + k = n + (k + 1) by omega], by
          rw [show n + 1 + k = n + (k + 1) by omega]⟩

/-- An index keeps its element when nothing was lost between it and the end it counts from. -/
private theorem survivors_index_stable {i : Int} {q : Nat} {x : α}
    (hq : resolveIndex i xs.length = some q) (hx : xs[q]? = some x)
    (hlow : 0 ≤ i → ∀ k ≤ q, keep k = true) (hhigh : i < 0 → ∀ k, q ≤ k → k < xs.length → keep k = true) :
    ∃ q', resolveIndex i (survivors keep f 0 xs).length = some q' ∧ (survivors keep f 0 xs)[q']? = some (f q x) := by
  obtain ⟨hlt, hget⟩ := List.getElem?_eq_some_iff.mp hx
  have hlen : (xs.take q).length = q := by rw [length_take]; omega
  have hkeep : keep q = true := by
    rcases le_or_gt 0 i with hi | hi
    · exact hlow hi q le_rfl
    · exact hhigh hi q le_rfl hlt
  have hsurv : survivors keep f 0 xs =
      survivors keep f 0 (xs.take q) ++ f q x :: survivors keep f (q + 1) (xs.drop (q + 1)) := by
    conv_lhs => rw [← take_append_drop q xs, ← getElem_cons_drop hlt, hget]
    rw [survivors_append, hlen, zero_add, survivors, if_pos hkeep, singleton_append]
  have htotal := congrArg List.length hsurv
  rw [length_append, length_cons] at htotal
  refine ⟨(survivors keep f 0 (xs.take q)).length, resolveIndex_eq_some.mpr ?_, by rw [hsurv]; simp⟩
  obtain ⟨-, hi | ⟨hi, hsum⟩⟩ := resolveIndex_eq_some.mp hq
  · have hfirst : (survivors keep f 0 (xs.take q)).length = q := by
      rw [survivors_length_eq, hlen]
      intro k hk
      rw [zero_add]
      exact hlow (by omega) k (by omega)
    omega
  · have hlast : (survivors keep f (q + 1) (xs.drop (q + 1))).length = xs.length - (q + 1) := by
      rw [survivors_length_eq, length_drop]
      intro k hk
      rw [length_drop] at hk
      exact hhigh hi _ (by omega) (by omega)
    omega

private theorem survivors_index_none {i : Int} (h : resolveIndex i xs.length = none) :
    resolveIndex i (survivors keep f 0 xs).length = none := by
  have hle := @survivors_length_le _ _ keep f 0 xs
  rw [resolveIndex_eq_none] at h ⊢
  omega

/-- An index moves when an element was lost between it and the end it counts from. -/
theorem survivors_index_moved {i : Int} {q p : Nat} {y : β} {q' : Nat}
    (hq : resolveIndex i xs.length = some q) (hp : p < xs.length) (hlost : keep p = false)
    (hside : 0 ≤ i ∧ p < q ∨ i < 0 ∧ q < p) (hq' : resolveIndex i (survivors keep f 0 xs).length = some q')
    (hy : (survivors keep f 0 xs)[q']? = some y) : ∃ k x, k ≠ q ∧ xs[k]? = some x ∧ y = f k x := by
  rw [resolveIndex_eq_some] at hq hq'
  have hlen : (xs.take q).length = q := by rw [length_take]; omega
  have hsurv : survivors keep f 0 xs = survivors keep f 0 (xs.take q) ++ survivors keep f q (xs.drop q) := by
    conv_lhs => rw [← take_append_drop q xs]
    rw [survivors_append, hlen, zero_add]
  have hsum := congrArg List.length hsurv
  rw [length_append] at hsum
  rcases hside with ⟨hi, hpq⟩ | ⟨hi, hpq⟩
  · -- counted from the front: the element is now one of those behind
    have hsplit : xs.drop q = xs[q] :: xs.drop (q + 1) := drop_eq_getElem_cons hq.1
    rw [hsplit, survivors] at hsurv
    have hlost' := @survivors_length_lt _ _ keep f 0 p (xs.take q) (by omega) (by rwa [zero_add])
    have hhead : (if keep q then [f q xs[q]] else []).length ≤ 1 := by split <;> simp
    rw [← append_assoc] at hsurv
    rw [hsurv, getElem?_append_right (by rw [length_append]; omega)] at hy
    obtain ⟨k, x, hx, -, rfl⟩ := mem_survivors.mp (mem_of_getElem? hy)
    refine ⟨q + 1 + k, x, by omega, ?_, rfl⟩
    rwa [getElem?_drop] at hx
  · -- counted from the back: the element is now one of those in front
    have hlost' := @survivors_length_lt _ _ keep f q (p - q) (xs.drop q) (by rw [length_drop]; omega)
      (by rwa [show q + (p - q) = p by omega])
    rw [length_drop] at hlost'
    rw [hsurv, getElem?_append_left (by omega)] at hy
    obtain ⟨k, x, hx, -, rfl⟩ := mem_survivors.mp (mem_of_getElem? hy)
    obtain ⟨hk, -⟩ := List.getElem?_eq_some_iff.mp hx
    rw [hlen] at hk
    refine ⟨k, x, by omega, ?_, by rw [zero_add]⟩
    rwa [getElem?_take_of_lt hk] at hx

theorem survivors_eq_filterMap (n : Nat) (xs : List α) : survivors keep f n xs =
      (List.range xs.length).filterMap fun k => if keep (n + k) then (xs[k]?).map (f (n + k)) else none := by
  induction xs generalizing n with
  | nil => rfl
  | cons x xs ih =>
    rw [survivors, ih, length_cons, range_succ_eq_map, filterMap_cons, filterMap_map]
    have htail : (fun k => if keep (n + 1 + k) then (xs[k]?).map (f (n + 1 + k)) else none) =
        (fun k => if keep (n + k) then ((x :: xs)[k]?).map (f (n + k)) else none) ∘ Nat.succ := by
      funext k
      simp only [Function.comp_apply, Nat.succ_eq_add_one, getElem?_cons_succ]
      rw [show n + (k + 1) = n + 1 + k by omega]
    rw [htail]
    by_cases hkeep : keep n = true <;> simp [hkeep]

theorem survivors_map {γ : Type*} (g : β → γ) (n : Nat) (xs : List α) :
    (survivors keep f n xs).map g = survivors keep (fun k x => g (f k x)) n xs := by
  induction xs generalizing n with
  | nil => rfl
  | cons x xs ih =>
    rw [survivors, survivors, map_append, ih]
    split <;> rfl

theorem survivors_of_map {γ : Type*} (g : γ → α) (n : Nat) (xs : List γ) :
    survivors keep f n (xs.map g) = survivors keep (fun k x => f k (g x)) n xs := by
  induction xs generalizing n with
  | nil => rfl
  | cons x xs ih => rw [map_cons, survivors, survivors, ih]

/-- The first entry of a kind stays the first when it is kept. -/
private theorem survivors_find {p : α → Bool} {p' : β → Bool} (hp : ∀ k x, p' (f k x) = p x) {n : Nat}
    (hkeep : ∀ q, xs.findIdx? p = some q → keep (n + q) = true) :
    (survivors keep f n xs).find? p' = (xs.findIdx? p).bind fun q => (xs[q]?).map (f (n + q)) := by
  induction xs generalizing n with
  | nil => rfl
  | cons x xs ih =>
    rw [survivors, findIdx?_cons]
    cases hx : p x with
    | true =>
      have hk : keep n = true := by
        have := hkeep 0 (by rw [findIdx?_cons, hx]; rfl)
        rwa [add_zero] at this
      rw [if_pos hk, singleton_append, find?_cons_of_pos (by rw [hp, hx])]
      rfl
    | false =>
      have htail := ih (n := n + 1) fun q hq => by
        have := hkeep (q + 1) (by rw [findIdx?_cons, hx, hq]; rfl)
        rwa [show n + 1 + q = n + (q + 1) by omega]
      have hskip : (if keep n = true then [f n x] else []).find? p' = none := by
        split
        · rw [find?_cons_of_neg (by rw [hp, hx]; simp), find?_nil]
        · rfl
      rw [find?_append, hskip, Option.none_or, htail]
      cases xs.findIdx? p with
      | none => rfl
      | some q =>
        change (xs[q]?).map (f (n + 1 + q)) = ((x :: xs)[q + 1]?).map (f (n + (q + 1)))
        rw [getElem?_cons_succ, show n + (q + 1) = n + 1 + q by omega]

end Survivors

/-- No edit writes at this value itself. -/
def Quiet (edits : List Edit) : Prop := ∀ e ∈ edits, e.loc = [] → e.change = .remove

section Quiet
variable {edits : List Edit}

theorem Quiet.replacement (h : Quiet edits) : replacement? edits = none := by
  rw [replacement?, findSome?_eq_none_iff]
  intro e he
  cases hl : e.loc with
  | nil => simp [h e he hl]
  | cons ord loc => rfl

theorem Quiet.splices (h : Quiet edits) (position : Nat) : splices position edits = [] := by
  rw [InfinityDB.splices, flatMap_eq_nil_iff]
  intro e he
  cases hl : e.loc with
  | nil => simp [h e he hl]
  | cons ord loc => rfl

theorem Quiet.inserted (h : Quiet edits) : inserted edits = [] := by
  rw [InfinityDB.inserted, filterMap_eq_nil_iff]
  intro e he
  cases hl : e.loc with
  | nil => simp [h e he hl]
  | cons ord loc => rfl

theorem rebuild_scalar (h : Quiet edits) (value : Scalar) : (Doc.scalar value).rebuild edits = .scalar value := by
  rw [Doc.rebuild, h.replacement]
  rfl

theorem rebuild_arr (h : Quiet edits) (items : List Doc) : (Doc.arr items).rebuild edits =
      .arr (survivors (fun k => !removes k edits) (fun k item => item.rebuild (under k edits)) 0 items) := by
  have hitems (n : Nat) : rebuildItems edits n items =
      survivors (fun k => !removes k edits) (fun k item => item.rebuild (under k edits)) n items := by
    induction items generalizing n with
    | nil => rw [rebuildItems, h.splices]; rfl
    | cons item items ih =>
      rw [rebuildItems, survivors, h.splices, nil_append, ih]
      cases removes n edits <;> rfl
  rw [Doc.rebuild, h.replacement, hitems]
  rfl

theorem rebuild_obj (h : Quiet edits) (members : List (Bytes × Doc)) : (Doc.obj members).rebuild edits =
      .obj (survivors (fun k => !removes k edits) (fun k x => (x.1, x.2.rebuild (under k edits))) 0 members) := by
  have hmembers (n : Nat) : rebuildMembers edits n members =
      survivors (fun k => !removes k edits) (fun k x => (x.1, x.2.rebuild (under k edits))) n members := by
    induction members generalizing n with
    | nil => rfl
    | cons x members ih =>
      obtain ⟨key, value⟩ := x
      rw [rebuildMembers, survivors, ih]
      cases removes n edits <;> rfl
  rw [Doc.rebuild, h.replacement, hmembers, h.inserted, append_nil]
  rfl

end Quiet

/-- The steps an index path is made of. -/
def Selector.indexable : Selector → Bool
  | .child _ | .childAny | .index _ => true
  | _ => false

private theorem pick_childAny (d : Doc) : Selector.childAny.pick d = d.children := by
  rw [Selector.pick, Selector.select]
  have h := @survivors_eq_filterMap Doc Doc (fun _ => true) (fun _ x => x) 0 d.children
  have hid : survivors (fun _ => true) (fun _ x => x) 0 d.children = d.children := by
    have hall (n : Nat) (xs : List Doc) : survivors (fun _ => true) (fun _ x => x) n xs = xs := by
      induction xs generalizing n with
      | nil => rfl
      | cons x xs ih => rw [survivors, ih]; rfl
    exact hall 0 _
  rw [hid] at h
  simpa using h.symm

theorem pick_index (i : Int) (items : List Doc) :
    (Selector.index i).pick (.arr items) = ((resolveIndex i items.length).bind (items[·]?)).toList := by
  rw [Selector.pick, Selector.select, Member.select]
  cases resolveIndex i items.length with
  | none => rfl
  | some q =>
    change [q].filterMap (items[·]?) = (items[q]?).toList
    cases h : items[q]? <;> simp [h]

private theorem pick_child (key : Bytes) (members : List (Bytes × Doc)) :
    (Selector.child key).pick (.obj members) = ((members.find? fun x => x.1 == key).map Prod.snd).toList := by
  rw [Selector.pick, Selector.select, Member.select, find?_eq_bind_findIdx?_getElem?]
  cases members.findIdx? fun x => x.1 == key with
  | none => rfl
  | some q =>
    change [q].filterMap ((members.map Prod.snd)[·]?) = ((members[q]?).map Prod.snd).toList
    rw [← getElem?_map]
    cases h : (members.map Prod.snd)[q]? <;> simp only [filterMap_cons, h, filterMap_nil, Option.toList]

/-- A picked entry of a container that lost others is the same entry, rebuilt. -/
theorem pick_rebuild {edits : List Edit} (hq : Quiet edits) {t : Selector} (ht : t.indexable = true)
    (hkeep : ∀ ord, removes ord edits = true → ord ∉ t.select d)
    (hshift : ∀ i q p, t = .index i → q ∈ t.select d → p < d.children.length → removes p edits = true →
      ¬ (0 ≤ i ∧ p < q ∨ i < 0 ∧ q < p)) : t.pick (d.rebuild edits) =
      (t.select d).filterMap fun ord => (d.children[ord]?).map fun c => c.rebuild (under ord edits) := by
  have hall (hany : t = .childAny) (k : Nat) (hk : k < d.children.length) : removes k edits = false := by
    subst hany
    cases hr : removes k edits with
    | false => rfl
    | true => exact absurd (mem_range.mpr hk) (hkeep k hr)
  match t, d with
  | .slice _, _ => simp [Selector.indexable] at ht
  | .union _, _ => simp [Selector.indexable] at ht
  | t, .scalar value =>
    rw [rebuild_scalar hq]
    have hnil : t.select (.scalar value) = [] := by
      cases t with
      | child key | childAny | index i | slice spec => rfl
      | union members => simp [Selector.indexable] at ht
    rw [Selector.pick, hnil]
    rfl
  | .childAny, .arr items =>
    rw [pick_childAny, rebuild_arr hq]
    change survivors _ _ 0 items = (List.range items.length).filterMap _
    rw [survivors_eq_filterMap]
    refine filterMap_congr fun k hk => ?_
    rw [zero_add, hall rfl k (mem_range.mp hk)]
    rfl
  | .childAny, .obj members =>
    rw [pick_childAny, rebuild_obj hq]
    change (survivors _ _ 0 members).map Prod.snd = (List.range (members.map Prod.snd).length).filterMap _
    rw [survivors_map, ← survivors_of_map Prod.snd, survivors_eq_filterMap]
    refine filterMap_congr fun k hk => ?_
    rw [zero_add, hall rfl k (mem_range.mp hk)]
    rfl
  | .child key, .arr items => rw [rebuild_arr hq]; rfl
  | .index i, .obj members => rw [rebuild_obj hq]; rfl
  | .index i, .arr items =>
    rw [rebuild_arr hq, pick_index]
    have hsel : (Selector.index i).select (.arr items) = (resolveIndex i items.length).toList := rfl
    rw [hsel] at hkeep hshift ⊢
    cases hres : resolveIndex i items.length with
    | none =>
      rw [survivors_index_none hres]
      rfl
    | some q =>
      have hlt := (resolveIndex_eq_some.mp hres).1
      have hat : items[q]? = some items[q] := getElem?_eq_getElem hlt
      rw [hres] at hkeep hshift
      have hside (k : Nat) (hk : k < items.length) (hbad : 0 ≤ i ∧ k ≤ q ∨ i < 0 ∧ q ≤ k) :
          (!removes k edits) = true := by
        cases hr : removes k edits with
        | false => rfl
        | true =>
          have hne : k ≠ q := fun heq => hkeep k hr (by simp [heq])
          exact absurd (by omega) (hshift i q k rfl (by simp) hk hr)
      obtain ⟨q', hq', hget⟩ := survivors_index_stable (f := fun k item => item.rebuild (under k edits)) hres hat
        (fun hi k hk => hside k (by omega) (.inl ⟨hi, hk⟩)) fun hi k hk hlt => hside k hlt (.inr ⟨hi, hk⟩)
      rw [hq', Option.bind_some, hget]
      change _ = [q].filterMap fun ord => (items[ord]?).map fun c => c.rebuild (under ord edits)
      simp [hat]
  | .child key, .obj members =>
    rw [rebuild_obj hq, pick_child]
    have hsel : (Selector.child key).select (.obj members) = (members.findIdx? fun x => x.1 == key).toList := rfl
    rw [hsel] at hkeep ⊢
    rw [survivors_find (p := fun x => x.1 == key) (fun _ _ => rfl)]
    · cases hfind : members.findIdx? fun x => x.1 == key with
      | none => rfl
      | some q =>
        have hlt := (findIdx?_eq_some_iff_getElem.mp hfind).1
        change _ = [q].filterMap fun ord => ((members.map Prod.snd)[ord]?).map fun c => c.rebuild (under ord edits)
        simp [hlt]
    · intro q hfind
      rw [zero_add]
      cases hr : removes q edits with
      | false => rfl
      | true => exact absurd (by simp [hfind]) (hkeep q hr)

end InfinityDB
