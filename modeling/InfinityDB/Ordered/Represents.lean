import InfinityDB.Ordered.Cascade

/-!
# Represented pairs

A view lists what a map holds: the leaf chain with its items, the fences between the leaves and
the internal levels over them. `Rep` ties a map to its view and carries the separator invariant
as an order on one woven list of entries and fences: an entry lies strictly below everything to
its right, a fence lies at or below it. Fences may be copies of pairs deleted since.
-/

namespace InfinityDB

open Lib List Option OrderedMap

variable {S : KeyScheme} {F : Nat}

structure View (S : KeyScheme) where
  leaves : List (LeafNode S)
  fences : List (Item S)
  levels : List (Level S)

namespace View

def items (v : View S) : List (Item S) := v.leaves.flatMap Prod.snd

def pairs (v : View S) : List Pair := v.items.map Prod.snd

end View

/-- A pair of the woven order; the flag marks a fence. -/
abbrev Mark := Bool × Pair

def Mark.Before (a b : Mark) : Prop := if a.1 then a.2 ≤ b.2 else a.2 < b.2

theorem Mark.Before.trans {a b c : Mark} (hab : a.Before b) (hbc : b.Before c) : a.Before c := by
  obtain ⟨fa, a⟩ := a
  obtain ⟨fb, b⟩ := b
  have hle : b ≤ c.2 := by
    cases fb
    · exact le_of_lt hbc
    · exact hbc
  cases fa
  · exact lt_of_lt_of_le hab hle
  · exact le_trans hab hle

theorem Mark.Before.le {a b : Mark} (h : a.Before b) : a.2 ≤ b.2 := by
  obtain ⟨fa, a⟩ := a
  cases fa
  · exact le_of_lt h
  · exact h

def entryMark (item : Item S) : Mark := (false, item.2)
def fenceMark (item : Item S) : Mark := (true, item.2)

def leafMarks (leaves : List (LeafNode S)) : List (List Mark) :=
  leaves.map fun leaf => leaf.2.map entryMark

def View.marks (v : View S) : List Mark := weave (leafMarks v.leaves) (v.fences.map fenceMark)

/-- Storage and order, without the lower bounds that a removal breaks on its way. -/
structure Shape (m : OrderedMap S F) (v : View S) (root : Nat) : Prop where
  rooted : m.root = some root
  height : v.levels.length = m.height
  leaves : Owned m.leaves (chainNodes v.leaves)
  internals : Owned m.internals (storedNodes v.levels)
  heap : Holds m.heap (v.items ++ v.fences)
  index : Indexes v.levels (v.leaves.map Prod.fst) v.fences [root] []
  order : v.marks.Pairwise Mark.Before
  fits : ∀ leaf ∈ v.leaves, leaf.2.length ≤ F
  len : m.len = v.items.length

structure Rep (m : OrderedMap S F) (v : View S) (root : Nat) : Prop extends Shape m v root where
  filled : ∀ leaf ∈ v.leaves, leaf.2 ≠ []
  occupied : Occupied F 1 v.levels

/-- A map without a root. -/
structure Vacant (m : OrderedMap S F) : Prop where
  root : m.root = none
  height : m.height = 0
  leaves : Owned m.leaves []
  internals : Owned m.internals []
  heap : Holds m.heap ([] : List (Item S))
  len : m.len = 0

theorem vacant_new (S : KeyScheme) (F : Nat) (ceiling : UInt32) : Vacant (OrderedMap.new S F ceiling) :=
  ⟨rfl, rfl, owned_new, owned_new, holds_new ceiling, rfl⟩

section
variable {m : OrderedMap S F} {v : View S} {root : Nat}

theorem Shape.fences_length (h : Shape m v root) : v.leaves.length = v.fences.length + 1 := by
  simpa using h.index.length rfl

theorem Shape.fences_sorted (h : Shape m v root) : v.fences.Pairwise fun x y => x.2 ≤ y.2 := by
  have hsub := seps_sublist_weave (show (leafMarks v.leaves).length = (v.fences.map fenceMark).length + 1 by
      simpa [leafMarks] using h.fences_length)
  exact (pairwise_map.mp (h.order.sublist hsub) :)

theorem Shape.pairs_sorted (h : Shape m v root) : v.pairs.Pairwise (· < ·) := by
  have hsub := runs_sublist_weave (leafMarks v.leaves) (v.fences.map fenceMark)
    (by simpa [leafMarks] using h.fences_length)
  have hentries : (leafMarks v.leaves).flatten = v.items.map entryMark := by
    simp [leafMarks, View.items, flatMap_def, Function.comp_def]
  rw [hentries] at hsub
  rw [View.pairs, pairwise_map]
  exact (pairwise_map.mp (h.order.sublist hsub) :)

theorem Shape.encodes (h : Shape m v root) : ∀ item ∈ v.items ++ v.fences, item.1.Encodes m.heap item.2 :=
  h.heap.encodes

theorem Shape.stored (h : Shape m v root) : ∀ n ∈ v.levels.flatten, m.internals.get n.id = some n.internal :=
  fun n hn => h.internals.get (x := n.stored) (List.mem_map_of_mem hn)

structure Focus (v : View S) (left : List (LeafNode S)) (id : Nat) (items : List (Item S))
    (right : List (LeafNode S)) (fl fr : List (Item S)) : Prop where
  leaves : v.leaves = left ++ (id, items) :: right
  fences : v.fences = fl ++ fr
  left_length : left.length = fl.length
  right_length : right.length = fr.length

variable {left right : List (LeafNode S)} {id : Nat} {items : List (Item S)} {fl fr : List (Item S)}

theorem View.marks_focus (levels : List (Level S)) (hlen : left.length = fl.length) :
    View.marks ⟨left ++ (id, items) :: right, fl ++ fr, levels⟩ =
      weaveL (leafMarks left) (fl.map fenceMark) ++ items.map entryMark ++
        weaveR (fr.map fenceMark) (leafMarks right) := by
  rw [View.marks, leafMarks, map_append, map_cons, map_append]
  exact weave_split _ _ _ (by simpa using hlen)

theorem Focus.marks (h : Focus v left id items right fl fr) :
    v.marks = weaveL (leafMarks left) (fl.map fenceMark) ++ items.map entryMark ++
      weaveR (fr.map fenceMark) (leafMarks right) := by
  rw [← View.marks_focus v.levels h.left_length, ← h.leaves, ← h.fences]

theorem Focus.items_eq (h : Focus v left id items right fl fr) :
    v.items = left.flatMap Prod.snd ++ items ++ right.flatMap Prod.snd := by
  simp [View.items, h.leaves]

theorem Shape.focus (h : Shape m v root) {pos : Nat} (hid : (v.leaves.map Prod.fst)[pos]? = some id) :
    ∃ left items right fl fr, Focus v left id items right fl fr ∧ left.length = pos ∧
      fl = v.fences.take pos ∧ fr = v.fences.drop pos := by
  have hflen := h.fences_length
  obtain ⟨leaf, hleaf, hid'⟩ : ∃ leaf, v.leaves[pos]? = some leaf ∧ leaf.1 = id := by
    simpa [getElem?_map, map_eq_some_iff] using hid
  obtain ⟨hlt, hget⟩ := List.getElem?_eq_some_iff.mp hleaf
  have hlen : (v.leaves.take pos).length = pos := by rw [length_take]; omega
  refine ⟨v.leaves.take pos, leaf.2, v.leaves.drop (pos+1), v.fences.take pos, v.fences.drop pos,
    ⟨?_, (take_append_drop _ _).symm, ?_, ?_⟩, hlen, rfl, rfl⟩
  · rw [show (id, leaf.2) = leaf from Prod.ext hid'.symm rfl, ← hget, getElem_cons_drop, take_append_drop]
  · rw [hlen, length_take]
    omega
  · rw [length_drop, length_drop]
    omega

theorem Shape.get_leaf (h : Shape m v root) (hv : v.leaves = left ++ (id, items) :: right) :
    m.leaves.get id = some ⟨(right.map Prod.fst).head?, items.map Prod.fst⟩ := by
  have hown := h.leaves
  rw [hv, chainNodes_focus] at hown
  exact hown.get (x := (id, _)) (by simp)

theorem Shape.leaf_get (h : Shape m v root) (hf : Focus v left id items right fl fr) :
    m.leaves.get id = some ⟨(right.map Prod.fst).head?, items.map Prod.fst⟩ :=
  h.get_leaf hf.leaves

theorem Shape.leaf_encodes (h : Shape m v root) (hf : Focus v left id items right fl fr) :
    ∀ item ∈ items, item.1.Encodes m.heap item.2 := by
  intro item hi
  refine h.encodes item (mem_append_left _ ?_)
  rw [hf.items_eq]
  simp [hi]

theorem Shape.leaf_sorted (h : Shape m v root) (hf : Focus v left id items right fl fr) :
    items.Pairwise fun x y => x.2 < y.2 := by
  have hord := h.order
  rw [hf.marks, append_assoc, pairwise_append] at hord
  exact (pairwise_map.mp (pairwise_append.mp hord.2.1).1 :)

/-- A fence copied from the first entry to its right. -/
theorem order_fence {L R : List Mark} {l₁ l₂ : List (Item S)} {y : Item S} (sep : Item S)
    (h : (L ++ (l₁ ++ y :: l₂).map entryMark ++ R).Pairwise Mark.Before) (hsep : sep.2 = y.2) :
    (L ++ l₁.map entryMark ++ (fenceMark sep :: (y :: l₂).map entryMark ++ R)).Pairwise Mark.Before := by
  rw [map_append, ← append_assoc, append_assoc, pairwise_append] at h
  obtain ⟨hL, hR, hLR⟩ := h
  rw [cons_append, pairwise_append, pairwise_cons]
  refine ⟨hL, ⟨?_, hR⟩, ?_⟩
  · intro x hx
    have hle : sep.2 ≤ x.2 := by
      rw [hsep]
      rw [map_cons, cons_append] at hx
      rcases mem_cons.mp hx with rfl | hx
      · exact le_rfl
      · exact Mark.Before.le ((pairwise_cons.mp hR).1 x hx)
    exact hle
  · intro x hx z hz
    rcases mem_cons.mp hz with rfl | hz
    · have hxy := hLR x hx (entryMark y) (by simp)
      simpa [Mark.Before, fenceMark, entryMark, hsep] using hxy
    · exact hLR x hx z hz

/-- The position of a pair: marks to the left come before it, those to the right lie above it. -/
structure At (v : View S) (p : Pair) (left : List (LeafNode S)) (right : List (LeafNode S))
    (fl fr : List (Item S)) : Prop where
  before : ∀ x ∈ weaveL (leafMarks left) (fl.map fenceMark), x.Before (false, p)
  after : ∀ x ∈ weaveR (fr.map fenceMark) (leafMarks right), p < x.2

theorem Shape.at_of_fences (h : Shape m v root) (hf : Focus v left id items right fl fr) {p : Pair}
    (hle : ∀ f ∈ fl, f.2 ≤ p) (hlt : ∀ f ∈ fr, p < f.2) : At v p left right fl fr := by
  have hord := h.order
  rw [hf.marks, append_assoc, pairwise_append] at hord
  obtain ⟨hl, hmr, -⟩ := hord
  refine ⟨forall_mem_weaveL (fun x s hx hs => hx.trans hs) hl ?_,
    forall_mem_weaveR (fun s x hs hp => lt_of_lt_of_le hp hs.le) (pairwise_append.mp hmr).2.1 ?_⟩
  · intro s hs
    obtain ⟨f, hf', rfl⟩ := List.mem_map.mp hs
    exact hle f hf'
  · intro s hs
    obtain ⟨f, hf', rfl⟩ := List.mem_map.mp hs
    exact hlt f hf'

variable {key : Bytes}

/-- Descending for a pair focuses the leaf that owns it. -/
theorem Shape.locate (h : Shape m v root) (hk : S.Admits key) (r : UInt64) :
    ∃ left id items right fl fr path, Focus v left id items right fl fr ∧
      m.descendFrom (fun node => routeChild m.heap node (.ofKey key) r) m.height = some (id, path) ∧
      PathAt v.levels path left.length ∧ At v ⟨key, r⟩ left right fl fr := by
  obtain ⟨leaf, path, pos, hdesc, hget, hpath, hle, hlt⟩ := descend_route hk r h.rooted h.stored h.index
    (fun f hf => h.encodes f (mem_append_right _ hf)) h.fences_sorted
  obtain ⟨left, items, right, fl, fr, hf, rfl, hfl, hfr⟩ := h.focus hget
  rw [← hfl] at hle
  rw [← hfr] at hlt
  exact ⟨left, leaf, items, right, fl, fr, path, hf, h.height ▸ hdesc, hpath, h.at_of_fences hf hle hlt⟩

theorem mem_weaveL_entry {leaf : LeafNode S} {item : Item S} (hleaf : leaf ∈ left) (hi : item ∈ leaf.2)
    (hlen : left.length = fl.length) : entryMark item ∈ weaveL (leafMarks left) (fl.map fenceMark) := by
  have hw := runs_sublist_weave (leafMarks left ++ [[]]) (fl.map fenceMark) (by simp [leafMarks, hlen])
  have hsplit := weave_split [] [] []
    (show (leafMarks left).length = (fl.map fenceMark).length by simp [leafMarks, hlen])
  rw [append_nil] at hsplit
  rw [hsplit, weaveR_nil, append_nil, append_nil] at hw
  refine hw.subset (mem_flatten.mpr ⟨leaf.2.map entryMark, ?_, List.mem_map_of_mem hi⟩)
  exact mem_append_left _ (List.mem_map_of_mem hleaf)

theorem mem_weaveR_entry {leaf : LeafNode S} {item : Item S} (hleaf : leaf ∈ right) (hi : item ∈ leaf.2)
    (hlen : right.length = fr.length) : entryMark item ∈ weaveR (fr.map fenceMark) (leafMarks right) := by
  have hw := runs_sublist_weave ([] :: leafMarks right) (fr.map fenceMark) (by simp [leafMarks, hlen])
  rw [weave, nil_append] at hw
  refine hw.subset (mem_flatten.mpr ⟨leaf.2.map entryMark, ?_, List.mem_map_of_mem hi⟩)
  exact mem_cons_of_mem _ (List.mem_map_of_mem hleaf)

/-- Only the focused leaf can hold the pair. -/
theorem Focus.mem_pairs (hf : Focus v left id items right fl fr) {p : Pair} (hat : At v p left right fl fr) :
    p ∈ v.pairs ↔ p ∈ items.map Prod.snd := by
  rw [View.pairs, hf.items_eq]
  simp only [map_append, mem_append]
  constructor
  · rintro ((h | h) | h)
    · obtain ⟨item, hi, rfl⟩ := List.mem_map.mp h
      obtain ⟨leaf, hleaf, hi⟩ := mem_flatMap.mp hi
      exact absurd (hat.before _ (mem_weaveL_entry hleaf hi hf.left_length)) (lt_irrefl _)
    · exact h
    · obtain ⟨item, hi, rfl⟩ := List.mem_map.mp h
      obtain ⟨leaf, hleaf, hi⟩ := mem_flatMap.mp hi
      exact absurd (hat.after _ (mem_weaveR_entry hleaf hi hf.right_length)) (lt_irrefl _)
  · exact fun h => .inl (.inr h)

/-- A pair that is present is the first item not below it. -/
theorem Shape.mem_pairs_iff {a b : List (Item S)} (h : Shape m v root) (hf : Focus v left id (a ++ b) right fl fr)
    {p : Pair} (hat : At v p left right fl fr) (ha : ∀ x ∈ a, x.2 < p) (hb : ∀ x ∈ b, p ≤ x.2) :
    p ∈ v.pairs ↔ ∃ y b', b = y :: b' ∧ y.2 = p := by
  rw [hf.mem_pairs hat, map_append, mem_append]
  constructor
  · rintro (hin | hin)
    · obtain ⟨x, hx, he⟩ := List.mem_map.mp hin
      exact absurd (ha x hx) (by rw [he]; exact lt_irrefl _)
    · obtain ⟨x, hx, he⟩ := List.mem_map.mp hin
      obtain ⟨y, b', rfl⟩ := exists_cons_of_ne_nil (ne_nil_of_mem hx)
      refine ⟨y, b', rfl, ?_⟩
      rcases mem_cons.mp hx with rfl | hx
      · exact he
      · have hlt := (pairwise_cons.mp (pairwise_append.mp (h.leaf_sorted hf)).2.1).1 x hx
        rw [he] at hlt
        exact absurd hlt (not_lt.mpr (hb y (by simp)))
  · rintro ⟨y, b', rfl, he⟩
    exact .inr (by simp [he])

/-- The leaf search splits the focused leaf at the pair and tells whether it is present. -/
theorem Shape.search (h : Shape m v root) (hf : Focus v left id items right fl fr)
    (hk : S.Admits key) (r : UInt64) (hat : At v ⟨key, r⟩ left right fl fr) (next : Option Nat) :
    ∃ a b, items = a ++ b ∧ leafLowerBound m.heap ⟨next, items.map Prod.fst⟩ (.ofKey key) r true = some a.length ∧
      (∀ x ∈ a, x.2 < ⟨key, r⟩) ∧ (∀ x ∈ b, ⟨key, r⟩ ≤ x.2) ∧
      isExact m.heap ⟨next, items.map Prod.fst⟩ a.length (.ofKey key) r = some (decide (⟨key, r⟩ ∈ v.pairs)) := by
  obtain ⟨a, b, rfl, hlb, ha, hb⟩ := leafLowerBound_spec (h.leaf_encodes hf) hk r true next (h.leaf_sorted hf)
  have ha' : ∀ x ∈ a, x.2 < ⟨key, r⟩ := ha
  have hb' : ∀ x ∈ b, ⟨key, r⟩ ≤ x.2 := fun x hx => not_lt.mp (hb x hx)
  refine ⟨a, b, rfl, hlb, ha', hb', ?_⟩
  have hmem := h.mem_pairs_iff hf hat ha' hb'
  cases b with
  | nil => simp [isExact, hmem]
  | cons y b =>
    have hy : (((a ++ y :: b).map Prod.fst)[a.length]?) = some y.1 := by simp
    have hcmp := cmpPair_eq (h.leaf_encodes hf y (by simp)) hk r
    simp only [isExact, hy, hcmp, bind_eq_bind, bind_some, some.injEq]
    rw [Bool.eq_iff_iff, beq_iff_eq, ordCmp_eq_eq, decide_eq_true_eq, hmem]
    simp

theorem Shape.contains_eq (h : Shape m v root) (hheight : m.height < maxHeight)
    (hk : S.Admits key) (r : UInt64) : m.contains key r = some (decide (⟨key, r⟩ ∈ v.pairs)) := by
  obtain ⟨left, id, items, right, fl, fr, path, hf, hdesc, -, hat⟩ := h.locate hk r
  obtain ⟨a, b, -, hlb, -, -, hexact⟩ := h.search hf hk r hat (right.map Prod.fst).head?
  simp only [OrderedMap.contains, h.rooted, makeProbe_admits hk, OrderedMap.descend, hheight, if_true, hdesc,
    h.leaf_get hf, hlb, bind_eq_bind, bind_some, reduceCtorEq, if_false]
  exact hexact

end

end InfinityDB
