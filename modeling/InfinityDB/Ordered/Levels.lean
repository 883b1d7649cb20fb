import InfinityDB.Ordered.Nodes

/-!
# Levels of the tree

The internal nodes are taken level by level, the parents of the leaves first. A level indexes a
sequence of child ids and the fences between them: its nodes' children concatenate to the ids,
its nodes' separators woven with the level above give the fences. So the tree shape appears only
as a tower of regroupings of one list of fences, and the descent is a position in each level.
-/

namespace InfinityDB

open Lib List

variable {S : KeyScheme} {F : Nat}

structure INode (S : KeyScheme) where
  id : Nat
  seps : List (Item S)
  children : List Nat

def INode.internal (n : INode S) : Internal S := ⟨n.seps.map Prod.fst, n.children⟩

@[simp] theorem INode.internal_count (n : INode S) : n.internal.count = n.seps.length := by
  simp [INode.internal, Internal.count]

def INode.stored (n : INode S) : Nat × Internal S := (n.id, n.internal)

abbrev Level (S : KeyScheme) := List (INode S)

/-- The levels index `ids`, fenced by `fences`; above them stand the nodes `tops`. -/
def Indexes : List (Level S) → List Nat → List (Item S) → List Nat → List (Item S) → Prop
  | [], ids, fences, tops, topFences => ids = tops ∧ fences = topFences
  | level :: up, ids, fences, tops, topFences =>
    ∃ upper, level.length = upper.length + 1 ∧
      (∀ n ∈ level, n.children.length = n.seps.length + 1) ∧
      ids = level.flatMap INode.children ∧
      fences = weave (level.map INode.seps) upper ∧
      Indexes up (level.map INode.id) upper tops topFences

/-- A path as positions: in each level the node it names, and below it the child it takes. -/
def PathAt : List (Level S) → Path → Nat → Prop
  | [], [], pos => pos = 0
  | level :: up, (id, c) :: path, pos =>
    ∃ left n right, level = left ++ n :: right ∧ n.id = id ∧ c ≤ n.seps.length ∧
      pos = (left.flatMap INode.children).length + c ∧ PathAt up path left.length
  | _, _, _ => False

theorem PathAt.nil_inv {path : Path} {pos : Nat} (h : PathAt ([] : List (Level S)) path pos) : path = [] ∧ pos = 0 := by
  cases path with
  | nil => exact ⟨rfl, h⟩
  | cons => exact h.elim

variable {level : Level S}

theorem PathAt.cons_inv {up : List (Level S)} {path : Path} {pos : Nat} (h : PathAt (level :: up) path pos) :
    ∃ left n right c path', path = (n.id, c) :: path' ∧ level = left ++ n :: right ∧
      c ≤ n.seps.length ∧ pos = (left.flatMap INode.children).length + c ∧ PathAt up path' left.length := by
  cases path with
  | nil => exact h.elim
  | cons hop path =>
    obtain ⟨id, c⟩ := hop
    obtain ⟨left, n, right, hlevel, rfl, hc, hpos, hup⟩ := h
    exact ⟨left, n, right, c, path, rfl, hlevel, hc, hpos, hup⟩

theorem children_length (h : ∀ n ∈ level, n.children.length = n.seps.length + 1) :
    (level.flatMap INode.children).length = ((level.map INode.seps).map fun seps => seps.length + 1).sum := by
  induction level with
  | nil => rfl
  | cons n level ih =>
    have htail := ih (forall_mem_cons.mp h).2
    simp [htail, h n (by simp)]

theorem Indexes.length {levels : List (Level S)} {ids : List Nat} {fences : List (Item S)}
    {tops : List Nat} {topFences : List (Item S)} (h : Indexes levels ids fences tops topFences)
    (ht : tops.length = topFences.length + 1) : ids.length = fences.length + 1 := by
  cases levels with
  | nil =>
    obtain ⟨rfl, rfl⟩ := h
    exact ht
  | cons level up =>
    obtain ⟨upper, hlen, hc, rfl, rfl, -⟩ := h
    rw [children_length hc, weave_length (by simpa using hlen)]

/-- A level and the fences below it, opened around the node at one position. -/
theorem level_open {upper : List (Item S)} (hlen : level.length = upper.length + 1)
    (hc : ∀ n ∈ level, n.children.length = n.seps.length + 1) {left right : Level S} {n : INode S}
    (hsplit : level = left ++ n :: right) :
    ∃ ul ur, upper = ul ++ ur ∧ left.length = ul.length ∧ right.length = ur.length ∧
      weave (level.map INode.seps) upper =
        weaveL (left.map INode.seps) ul ++ n.seps ++ weaveR ur (right.map INode.seps) ∧
      (weaveL (left.map INode.seps) ul).length = (left.flatMap INode.children).length := by
  subst hsplit
  have hle : left.length ≤ upper.length := by
    simp only [length_append, length_cons] at hlen
    omega
  have htake : (upper.take left.length).length = left.length := by
    rw [length_take, Nat.min_eq_left hle]
  refine ⟨upper.take left.length, upper.drop left.length, (take_append_drop _ _).symm, htake.symm, ?_, ?_, ?_⟩
  · simp only [length_append, length_cons] at hlen
    rw [length_drop]
    omega
  · conv_lhs => rw [← take_append_drop left.length upper]
    rw [map_append, map_cons]
    exact weave_split _ _ _ (by simp [htake])
  · rw [weaveL_length (by simp [htake]), children_length fun x hx => hc x (mem_append_left _ hx)]

section Descent
variable {m : OrderedMap S F} {levels : List (Level S)} {ids : List Nat} {fences : List (Item S)}
  {root : Nat}

/-- The node at a position of a level. -/
theorem level_at {level : Level S} {pos node : Nat} (h : (level.map INode.id)[pos]? = some node) :
    ∃ left n right, level = left ++ n :: right ∧ left.length = pos ∧ n.id = node := by
  obtain ⟨n, hn, hid⟩ : ∃ n, level[pos]? = some n ∧ n.id = node := by
    simpa [getElem?_map, Option.map_eq_some_iff] using h
  obtain ⟨hlt, hget⟩ := List.getElem?_eq_some_iff.mp hn
  refine ⟨level.take pos, n, level.drop (pos+1), ?_, ?_, hid⟩
  · rw [← hget, getElem_cons_drop, take_append_drop]
  · rw [length_take]
    omega

/-- One hop: the child picked in the node reached above is the position below. -/
private theorem descend_hop {pick : Internal S → Option Nat} (left right : Level S) {n : INode S}
    {path : Path} {c : Nat} (hstored : m.internals.get n.id = some n.internal)
    (hc : n.children.length = n.seps.length + 1) (habove : m.descendFrom pick levels.length = some (n.id, path))
    (hpath : PathAt levels path left.length) (hpick : pick n.internal = some c) (hle : c ≤ n.seps.length) :
    ∃ leaf, m.descendFrom pick (levels.length + 1) = some (leaf, (n.id, c) :: path) ∧
      ((left ++ n :: right).flatMap INode.children)[(left.flatMap INode.children).length + c]? = some leaf ∧
      PathAt ((left ++ n :: right) :: levels) ((n.id, c) :: path) ((left.flatMap INode.children).length + c) := by
  have hclt : c < n.children.length := by omega
  have hleaf : n.children[c]? = some n.children[c] := getElem?_eq_getElem hclt
  refine ⟨n.children[c], ?_, ?_, left, n, right, rfl, rfl, hle, rfl, hpath⟩
  · rw [OrderedMap.descendFrom, habove]
    simp only [Option.bind_eq_bind, Option.bind_some, hstored, hpick]
    rw [show n.internal.children = n.children from rfl, hleaf]
    rfl
  · rw [flatMap_append, flatMap_cons, getElem?_append_right (by omega),
      Nat.add_sub_cancel_left, getElem?_append_left hclt, hleaf]

/-- The routed descent ends at the position that separates the fences at the probe pair. -/
theorem descend_route {key : Bytes} (hk : S.Admits key) (r : UInt64) (hroot : m.root = some root)
    (hstored : ∀ n ∈ levels.flatten, m.internals.get n.id = some n.internal)
    (hindex : Indexes levels ids fences [root] []) (henc : ∀ f ∈ fences, f.1.Encodes m.heap f.2)
    (hsort : fences.Pairwise fun x y => x.2 ≤ y.2) : ∃ leaf path pos,
      m.descendFrom (fun node => routeChild m.heap node (.ofKey key) r) levels.length = some (leaf, path) ∧
      ids[pos]? = some leaf ∧ PathAt levels path pos ∧
      (∀ f ∈ fences.take pos, f.2 ≤ ⟨key, r⟩) ∧ ∀ f ∈ fences.drop pos, ⟨key, r⟩ < f.2 := by
  induction levels generalizing ids fences with
  | nil =>
    obtain ⟨rfl, rfl⟩ := hindex
    exact ⟨root, [], 0, by simp [OrderedMap.descendFrom, hroot], rfl, rfl, by simp, by simp⟩
  | cons level up ih =>
    obtain ⟨upper, hlen, hc, rfl, rfl, hup⟩ := hindex
    have hsub := seps_sublist_weave (show (level.map INode.seps).length = upper.length + 1 by simpa using hlen)
    obtain ⟨node, path, pos, habove, hnode, hpath, hle, hlt⟩ := ih (fun n hn => hstored n (mem_append_right _ hn)) hup
      (fun f hf => henc f (hsub.subset hf)) (hsort.sublist hsub)
    obtain ⟨left, n, right, rfl, rfl, rfl⟩ := level_at hnode
    obtain ⟨ul, ur, rfl, hul, hur, hopen, hposlen⟩ := level_open hlen hc rfl
    rw [hopen] at henc hsort ⊢
    rw [append_assoc, pairwise_append] at hsort
    obtain ⟨hsortL, hsortNR, hcross⟩ := hsort
    obtain ⟨hsortN, hsortR, -⟩ := pairwise_append.mp hsortNR
    obtain ⟨a, b, hab, hroute, ha, hb⟩ := routeChild_spec (fun f hf => henc f (by simp [hf])) hk r n.children hsortN
    obtain ⟨leaf, hdesc, hget, hpath'⟩ := descend_hop left right (c := a.length)
      (hstored n (by simp)) (hc n (by simp)) habove hpath hroute (by simp [hab])
    refine ⟨leaf, _, _, hdesc, hget, hpath', ?_, ?_⟩
    · -- left of the node every separator lies below a fence the level above already passed
      have hL := forall_mem_weaveL (P := fun f => f.2 ≤ ⟨key, r⟩) (fun x s h hs => h.trans hs) hsortL
        (fun s hs => hle s (by rw [take_left' hul.symm]; exact hs))
      intro f hf
      rw [← hposlen, hab, append_assoc, append_assoc, take_length_add_append, take_left' rfl] at hf
      rcases mem_append.mp hf with hf | hf
      · exact hL f hf
      · exact ha f hf
    · have hR := forall_mem_weaveR (P := fun f => ⟨key, r⟩ < f.2) (fun s x h hs => lt_of_lt_of_le hs h) hsortR
        (fun s hs => hlt s (by rw [drop_left' hul.symm]; exact hs))
      intro f hf
      rw [← hposlen, hab, append_assoc, append_assoc, drop_length_add_append, drop_left' rfl] at hf
      rcases mem_append.mp hf with hf | hf
      · exact hb f hf
      · exact hR f hf

/-- The rightmost spine ends at the last position. -/
theorem descend_rightmost (hroot : m.root = some root)
    (hstored : ∀ n ∈ levels.flatten, m.internals.get n.id = some n.internal)
    (hindex : Indexes levels ids fences [root] []) :
    ∃ leaf path, m.descendFrom (fun node => some node.count) levels.length = some (leaf, path) ∧
      ids[fences.length]? = some leaf ∧ PathAt levels path fences.length := by
  induction levels generalizing ids fences with
  | nil =>
    obtain ⟨rfl, rfl⟩ := hindex
    exact ⟨root, [], by simp [OrderedMap.descendFrom, hroot], rfl, rfl⟩
  | cons level up ih =>
    obtain ⟨upper, hlen, hc, rfl, rfl, hup⟩ := hindex
    obtain ⟨node, path, habove, hnode, hpath⟩ := ih (fun n hn => hstored n (mem_append_right _ hn)) hup
    obtain ⟨left, n, right, rfl, hleft, rfl⟩ := level_at hnode
    obtain ⟨ul, ur, rfl, hul, hur, hopen, hposlen⟩ := level_open hlen hc rfl
    obtain rfl : right = [] := by
      rw [← length_eq_zero_iff]
      simp only [length_append, length_cons] at hlen hleft
      omega
    obtain ⟨leaf, hdesc, hget, hpath'⟩ := descend_hop left [] (c := n.seps.length)
      (hstored n (by simp)) (hc n (by simp)) habove (by rwa [hleft]) (by simp) le_rfl
    have hpos : (weave ((left ++ [n]).map INode.seps) (ul ++ ur)).length =
        (left.flatMap INode.children).length + n.seps.length := by
      rw [hopen, ← hposlen]
      simp
    rw [hpos]
    exact ⟨leaf, _, hdesc, hget, hpath'⟩

/-- The leftmost spine ends at the first position. -/
theorem descend_leftmost (hroot : m.root = some root)
    (hstored : ∀ n ∈ levels.flatten, m.internals.get n.id = some n.internal)
    (hindex : Indexes levels ids fences [root] []) :
    ∃ leaf path, m.descendFrom (fun _ => some 0) levels.length = some (leaf, path) ∧
      ids[0]? = some leaf ∧ PathAt levels path 0 := by
  induction levels generalizing ids fences with
  | nil =>
    obtain ⟨rfl, rfl⟩ := hindex
    exact ⟨root, [], by simp [OrderedMap.descendFrom, hroot], rfl, rfl⟩
  | cons level up ih =>
    obtain ⟨upper, hlen, hc, rfl, rfl, hup⟩ := hindex
    obtain ⟨node, path, habove, hnode, hpath⟩ := ih (fun n hn => hstored n (mem_append_right _ hn)) hup
    obtain ⟨left, n, right, rfl, hleft, rfl⟩ := level_at hnode
    obtain rfl : left = [] := length_eq_zero_iff.mp hleft
    obtain ⟨leaf, hdesc, hget, hpath'⟩ := descend_hop [] right (c := 0)
      (hstored n (by simp)) (hc n (by simp)) habove hpath rfl zero_le
    exact ⟨leaf, _, hdesc, by simpa using hget, by simpa using hpath'⟩

end Descent

end InfinityDB
