import InfinityDB.Lib.Sweep
import InfinityDB.Ordered.Refinement

/-!
# Range cursors

A cursor owns its resume pair and a hint (leaf, slot, epoch) to the pair it returned last. While
the map's epoch is the hint's, `next` steps from the hint; otherwise it seeks the resume pair
again. Both paths return the least pair beyond the resume point, so a cursor is an ordered sweep
over whatever the map holds at each call.
-/

namespace InfinityDB

open Lib List Option OrderedMap

variable {S : KeyScheme} {F : Nat}

inductive CursorPos where
  | start
  | atOrAfter
  | after
deriving DecidableEq, Repr

structure OrderedCursor where
  pos : CursorPos
  keyBuf : Bytes
  entryRef : UInt64
  hintLeaf : Option Nat
  hintSlot : Nat
  hintEpoch : UInt64

namespace OrderedCursor

def fromStart : OrderedCursor := ⟨.start, [], 0, none, 0, 0⟩

/-- From `key`: at its first pair, or past every reference of it. -/
def fromKey (key : Bytes) (inclusive : Bool) : OrderedCursor :=
  if inclusive then { fromStart with keyBuf := key, pos := .atOrAfter, entryRef := 0 }
  else { fromStart with keyBuf := key, pos := .after, entryRef := 0xFFFFFFFFFFFFFFFF }

def resumeAfter (key : Bytes) (entryRef : UInt64) : OrderedCursor :=
  { fromStart with keyBuf := key, pos := .after, entryRef }

/-- Fast path: step within or into leaves from the cached position. -/
def advanceHint (c : OrderedCursor) (m : OrderedMap S F) (hint : Nat) : Option (Option (Nat × Nat)) := do
  let leaf ← m.leaves.get hint
  let nextSlot := c.hintSlot + 1
  if nextSlot < leaf.count then some (some (hint, nextSlot))
  else some (leaf.next.map fun next => (next, 0))

/-- Slow path: seek from the owned resume pair. -/
def seekPosition (c : OrderedCursor) (m : OrderedMap S F) : Option (Option (Nat × Nat)) :=
  match c.pos with
  | .start => do
    let leaf ← m.leftmostLeaf
    some (leaf.map fun leaf => (leaf, 0))
  | .atOrAfter => do
    let probe ← makeProbe S c.keyBuf
    m.seek probe c.entryRef true
  | .after => do
    let probe ← makeProbe S c.keyBuf
    m.seek probe c.entryRef false

/-- The cached position when the epoch vouches for it. -/
def hint (c : OrderedCursor) (m : OrderedMap S F) : Option Nat :=
  if c.pos = .after ∧ c.hintEpoch = m.epoch then c.hintLeaf else none

/-- The position of the next pair, by whichever path. -/
def position (c : OrderedCursor) (m : OrderedMap S F) : Option (Option (Nat × Nat)) :=
  match c.hint m with
  | some hint => c.advanceHint m hint
  | none => c.seekPosition m

/-- The next pair, or `none` past the end, and the cursor after it. -/
def next (c : OrderedCursor) (m : OrderedMap S F) : Option (Option Pair × OrderedCursor) := do
  match ← c.position m with
  | none => some (none, c)
  | some (leaf, slot) =>
    let pair ← m.emitKey leaf slot
    some (some pair, ⟨.after, pair.key, pair.entryRef, some leaf, slot, m.epoch⟩)

def passed (c : OrderedCursor) : Set Pair :=
  match c.pos with
  | .start => ∅
  | .atOrAfter => Set.Iio ⟨c.keyBuf, c.entryRef⟩
  | .after => Set.Iic ⟨c.keyBuf, c.entryRef⟩

end OrderedCursor

/-- The leaf position of one item, and the items before and after it. -/
def Spot (v : View S) (id slot : Nat) (before : List (Item S)) (item : Item S) (after : List (Item S)) : Prop :=
  ∃ left a b right, v.leaves = left ++ (id, a ++ item :: b) :: right ∧ a.length = slot ∧
    before = left.flatMap Prod.snd ++ a ∧ after = b ++ right.flatMap Prod.snd

/-- A position cuts the chain: it is the spot of the first item of what follows. -/
def Lands (v : View S) (pos : Option (Nat × Nat)) (before rest : List (Item S)) : Prop :=
  v.items = before ++ rest ∧ match rest with
    | [] => pos = none
    | item :: after => ∃ id slot, pos = some (id, slot) ∧ Spot v id slot before item after

section Positions
variable {m : OrderedMap S F} {v : View S} {root : Nat}

/-- From a cut inside a leaf: the slot there, or else the first one of the next leaf. -/
theorem Rep.lands (h : Rep m v root) {left right : List (LeafNode S)} {id : Nat} {a b : List (Item S)}
    (hv : v.leaves = left ++ (id, a ++ b) :: right) : Lands v (if a.length < (a ++ b).length then some (id, a.length)
        else (right.map Prod.fst).head?.map fun next => (next, 0))
      (left.flatMap Prod.snd ++ a) (b ++ right.flatMap Prod.snd) := by
  refine ⟨by simp [View.items, hv], ?_⟩
  cases b with
  | cons item b => exact ⟨id, a.length, by simp, left, a, b, right, hv, rfl, rfl, rfl⟩
  | nil =>
    cases right with
    | nil => simp
    | cons leaf right =>
      obtain ⟨id', items⟩ := leaf
      have hne := h.filled (id', items) (by simp [hv])
      obtain ⟨item, b, rfl⟩ := exists_cons_of_ne_nil hne
      refine ⟨id', 0, by simp, left ++ [(id, a)], [], b, right, ?_, rfl, by simp, by simp [flatMap_def]⟩
      rw [hv]
      simp

theorem Shape.emitKey_spot (h : Shape m v root) {id slot : Nat} {before after : List (Item S)} {item : Item S}
    (hs : Spot v id slot before item after) : m.emitKey id slot = some item.2 := by
  obtain ⟨left, a, b, right, hv, rfl, -, -⟩ := hs
  have henc := h.encodes item (mem_append_left _ (by simp [View.items, hv]))
  rw [emitKey, run_bind (h.get_leaf hv),
    run_bind (show ((a ++ item :: b).map Prod.fst)[a.length]? = some item.1 by simp), run_bind (slotKey_eq henc),
    henc.entryRef]

theorem Rep.advanceHint (h : Rep m v root) {c : OrderedCursor} {id : Nat} {before after : List (Item S)} {item : Item S}
    (hs : Spot v id c.hintSlot before item after) :
    ∃ pos, c.advanceHint m id = some pos ∧ Lands v pos (before ++ [item]) after := by
  obtain ⟨left, a, b, right, hv, hslot, rfl, rfl⟩ := hs
  have hv' : v.leaves = left ++ (id, (a ++ [item]) ++ b) :: right := by simp [hv]
  refine ⟨_, ?_, by simpa using h.lands hv'⟩
  rw [OrderedCursor.advanceHint, run_bind (h.get_leaf hv), ← hslot]
  by_cases hb : b = []
  · simp [hb, Leaf.count]
  · have hpos := length_pos_of_ne_nil hb
    simp [Leaf.count, hpos]

theorem Rep.leftmost (h : Rep m v root) :
    ∃ pos, (m.leftmostLeaf.map fun leaf => leaf.map fun leaf => (leaf, 0)) = some pos ∧ Lands v pos [] v.items := by
  obtain ⟨first, path, hdesc, hget, -⟩ := descend_leftmost h.rooted h.stored h.index
  have hleft : m.leftmostLeaf = some (some first) := by
    rw [leftmostLeaf, if_neg (by simp [h.rooted]), ← h.height, run_bind hdesc]
  obtain ⟨⟨id, items⟩, right, hv⟩ : ∃ leaf right, v.leaves = leaf :: right := by
    refine exists_cons_of_ne_nil fun hnil => ?_
    rw [hnil] at hget
    simp at hget
  have hid : id = first := by simpa [hv] using hget
  refine ⟨some (id, 0), by rw [hleft, hid]; rfl, ?_⟩
  have hne := h.filled (id, items) (by simp [hv])
  have hpos := length_pos_of_ne_nil hne
  have hl := h.lands (show v.leaves = [] ++ (id, [] ++ items) :: right from hv)
  rw [nil_append, length_nil, if_pos hpos] at hl
  simpa [View.items, hv] using hl

/-- Seeking a pair cuts the chain at it. -/
theorem Rep.seek (h : Rep m v root) (hheight : m.height < maxHeight) {key : Bytes} (hk : S.Admits key) (r : UInt64)
    (allowEqual : Bool) : ∃ pos before rest, m.seek (.ofKey key) r allowEqual = some pos ∧ Lands v pos before rest ∧
      (∀ x ∈ before, Below allowEqual x.2 ⟨key, r⟩) ∧ ∀ x ∈ rest, ¬ Below allowEqual x.2 ⟨key, r⟩ := by
  obtain ⟨left, id, items, right, fl, fr, path, hf, hdesc, -, hat⟩ := h.locate hk r
  obtain ⟨a, b, rfl, hlb, ha, hb⟩ := leafLowerBound_spec (h.leaf_encodes hf) hk r allowEqual
    (right.map Prod.fst).head? (h.leaf_sorted hf)
  have hdescend : m.descend (.ofKey key) r = some (id, path) := (if_pos hheight).trans hdesc
  refine ⟨_, left.flatMap Prod.snd ++ a, b ++ right.flatMap Prod.snd, ?_, h.lands hf.leaves, ?_, ?_⟩
  · rw [OrderedMap.seek, if_neg (by simp [h.rooted]), run_bind hdescend]
    dsimp only
    rw [run_bind (h.leaf_get hf), run_bind hlb]
    simp only [Leaf.count, length_map]
    split <;> rfl
  · intro x hx
    rcases mem_append.mp hx with hx | hx
    · obtain ⟨leaf, hleaf, hx⟩ := mem_flatMap.mp hx
      have hlt : x.2 < ⟨key, r⟩ := hat.before _ (mem_weaveL_entry hleaf hx hf.left_length)
      cases allowEqual
      · exact hlt.le
      · exact hlt
    · exact ha x hx
  · intro x hx
    rcases mem_append.mp hx with hx | hx
    · exact hb x hx
    · obtain ⟨leaf, hleaf, hx⟩ := mem_flatMap.mp hx
      have hlt : ⟨key, r⟩ < x.2 := hat.after _ (mem_weaveR_entry hleaf hx hf.right_length)
      cases allowEqual
      · exact not_le.mpr hlt
      · exact not_lt.mpr hlt.le

end Positions

/-- A position aims at the first pair beyond the passed ones. -/
def Aims (V : Backing S) (pos : Option (Nat × Nat)) (passed : Set Pair) : Prop :=
  match V with
  | none => pos = none
  | some (v, _) => ∃ before rest, Lands v pos before rest ∧ (∀ x ∈ before, x.2 ∈ passed) ∧ ∀ x ∈ rest, x.2 ∉ passed

/-- The hint was taken at most `n` changes ago, and is exact while there was none since. -/
def Tracks (c : OrderedCursor) (m : OrderedMap S F) (V : Backing S) (n : Nat) : Prop :=
  ∀ id, c.hintLeaf = some id → ∃ d ≤ n, m.epoch = c.hintEpoch + UInt64.ofNat d ∧
    (d = 0 → ∃ v root before item after, V = some (v, root) ∧ Spot v id c.hintSlot before item after ∧
      item.2 = ⟨c.keyBuf, c.entryRef⟩)

section Next
variable {m : OrderedMap S F} {V : Backing S} {c : OrderedCursor} {n : Nat}

/-- The epoch vouches for the hint as long as it cannot have come round. -/
theorem Tracks.hint (h : Tracks c m V n) (hn : n < 2 ^ 64) {id : Nat} (hid : c.hint m = some id) :
    c.pos = .after ∧ ∃ v root before item after, V = some (v, root) ∧ Spot v id c.hintSlot before item after ∧
      item.2 = ⟨c.keyBuf, c.entryRef⟩ := by
  rw [OrderedCursor.hint] at hid
  split at hid
  case isFalse => simp at hid
  case isTrue hok =>
    obtain ⟨hpos, hepoch⟩ := hok
    obtain ⟨d, hd, heq, hspot⟩ := h id hid
    refine ⟨hpos, hspot ?_⟩
    rw [hepoch] at heq
    have hzero : UInt64.ofNat d = 0 := by simpa using heq.symm
    have hnat := congrArg UInt64.toNat hzero
    rwa [UInt64.toNat_ofNat_of_lt' (lt_of_le_of_lt hd hn)] at hnat

theorem Aims.of_seek (hb : Backs m V) (hheight : m.height < maxHeight) (hk : S.Admits c.keyBuf) (allowEqual : Bool)
    (hpassed : ∀ p, p ∈ c.passed ↔ Below allowEqual p ⟨c.keyBuf, c.entryRef⟩) :
    ∃ pos, (makeProbe S c.keyBuf >>= fun probe => m.seek probe c.entryRef allowEqual) = some pos ∧
      Aims V pos c.passed := by
  rw [run_bind (makeProbe_admits hk)]
  match V, hb with
  | none, hb => exact ⟨none, by rw [OrderedMap.seek, if_pos (Vacant.root hb)], rfl⟩
  | some (v, root), hb =>
    obtain ⟨pos, before, rest, hrun, hl, hbefore, hrest⟩ := Rep.seek hb hheight hk c.entryRef allowEqual
    exact ⟨pos, hrun, before, rest, hl, fun x hx => (hpassed _).mpr (hbefore x hx),
      fun x hx hin => hrest x hx ((hpassed _).mp hin)⟩

theorem OrderedCursor.position_aims (hb : Backs m V) (ht : Tracks c m V n) (hn : n < 2 ^ 64)
    (hsafe : c.hint m = none → c.pos ≠ .start → S.Admits c.keyBuf ∧ m.height < maxHeight) :
    ∃ pos, c.position m = some pos ∧ Aims V pos c.passed := by
  cases hhint : c.hint m with
  | some id =>
    obtain ⟨hpos, v, root, before, item, after, rfl, hs, hitem⟩ := ht.hint hn hhint
    obtain ⟨pos, hrun, hl⟩ := Rep.advanceHint hb hs
    have hpassed : c.passed = Set.Iic item.2 := by rw [OrderedCursor.passed, hpos, hitem]
    have hsorted : (before ++ [item] ++ after).Pairwise fun x y => x.2 < y.2 := by
      rw [← hl.1]
      exact (pairwise_map.mp (Rep.toShape hb).pairs_sorted :)
    obtain ⟨hhead, -, hcross⟩ := pairwise_append.mp hsorted
    refine ⟨pos, by rw [OrderedCursor.position, hhint]; exact hrun, before ++ [item], after, hl, ?_, ?_⟩
    · rw [hpassed]
      intro x hx
      rcases mem_append.mp hx with hx | hx
      · exact ((pairwise_append.mp hhead).2.2 x hx item (by simp)).le
      · rw [mem_singleton.mp hx]
        exact Set.mem_Iic.mpr le_rfl
    · rw [hpassed]
      exact fun x hx hle => absurd (hcross item (by simp) x hx) (not_lt.mpr hle)
  | none =>
    rw [OrderedCursor.position, hhint]
    dsimp only
    cases hpos : c.pos with
    | start =>
      have hpassed : c.passed = ∅ := by rw [OrderedCursor.passed, hpos]
      rw [OrderedCursor.seekPosition, hpos, hpassed]
      match V, hb with
      | none, hb =>
        exact ⟨none, by rw [run_bind (show m.leftmostLeaf = some none by rw [leftmostLeaf, if_pos (Vacant.root hb)])]; rfl,
          rfl⟩
      | some (v, root), hb =>
        obtain ⟨pos, hrun, hl⟩ := Rep.leftmost hb
        refine ⟨pos, ?_, [], v.items, hl, by simp, by simp⟩
        obtain ⟨first, hfirst, rfl⟩ := map_eq_some_iff.mp hrun
        rw [run_bind hfirst]
    | atOrAfter =>
      obtain ⟨hk, hheight⟩ := hsafe hhint (by simp [hpos])
      rw [OrderedCursor.seekPosition, hpos]
      exact Aims.of_seek hb hheight hk true fun p => by rw [OrderedCursor.passed, hpos]; exact Iff.rfl
    | after =>
      obtain ⟨hk, hheight⟩ := hsafe hhint (by simp [hpos])
      rw [OrderedCursor.seekPosition, hpos]
      exact Aims.of_seek hb hheight hk false fun p => by rw [OrderedCursor.passed, hpos]; exact Iff.rfl

variable {pos : Option (Nat × Nat)}

private theorem seek_safe (hb : Backs m V) {key : Bytes} {r : UInt64} {allowEqual : Bool}
    (hrun : (makeProbe S key >>= fun probe => m.seek probe r allowEqual) = some pos) :
    S.Admits key ∧ m.height < maxHeight := by
  obtain ⟨probe, hprobe, hseek⟩ := bind_eq_some_iff.mp hrun
  refine ⟨?_, ?_⟩
  · by_contra hk
    rw [makeProbe, if_neg hk] at hprobe
    simp at hprobe
  · match V, hb with
    | none, hb =>
      rw [Vacant.height hb]
      decide
    | some (v, root), hb =>
      by_contra hge
      have hdesc : m.descend probe r = none := if_neg hge
      rw [OrderedMap.seek, if_neg (by simp [(Rep.toShape hb).rooted]), hdesc] at hseek
      simp at hseek

/-- What a cursor that found a position cannot have panicked on. -/
theorem OrderedCursor.position_safe (hb : Backs m V) (hrun : c.position m = some pos)
    (hhint : c.hint m = none) (hstart : c.pos ≠ .start) : S.Admits c.keyBuf ∧ m.height < maxHeight := by
  rw [OrderedCursor.position, hhint] at hrun
  change c.seekPosition m = some pos at hrun
  cases hpos : c.pos with
  | start => exact absurd hpos hstart
  | atOrAfter | after =>
    rw [OrderedCursor.seekPosition, hpos] at hrun
    exact seek_safe hb hrun

/-- A call of `next` at an aimed position makes one visit of the sweep. -/
theorem OrderedCursor.next_aimed (hb : Backs m V) (hrun : c.position m = some pos) (haims : Aims V pos c.passed) :
    (c.next m = some (none, c) ∧ IsNext (V.set : Set Pair) c.passed none) ∨
    ∃ p c', c.next m = some (some p, c') ∧ IsNext (V.set : Set Pair) c.passed (some p) ∧ c'.pos = .after ∧
      c'.passed = Set.Iic p ∧ S.Admits c'.keyBuf ∧ ∀ n, Tracks c' m V n := by
  have hnone : pos = none → c.next m = some (none, c) := by
    rintro rfl
    rw [OrderedCursor.next, run_bind hrun]
  match V, hb with
  | none, hb => exact .inl ⟨hnone haims, by simp [IsNext, Backing.set, Backing.pairs]⟩
  | some (v, root), hb =>
    obtain ⟨before, rest, ⟨hitems, hpos⟩, hbefore, hrest⟩ := haims
    have hmem (q : Pair) : q ∈ (Backing.set (some (v, root)) : Set Pair) ↔ ∃ x ∈ before ++ rest, x.2 = q := by
      rw [Finset.mem_coe, Backing.set, List.mem_toFinset, Backing.pairs, View.pairs, hitems]
      exact List.mem_map
    cases rest with
    | nil =>
      refine .inl ⟨hnone hpos, fun q hq => ?_⟩
      obtain ⟨x, hx, rfl⟩ := (hmem q).mp hq
      exact hbefore x (by simpa using hx)
    | cons item after =>
      obtain ⟨id, slot, rfl, hs⟩ := hpos
      have henc := (Rep.toShape hb).encodes item (mem_append_left _ (by simp [hitems]))
      have hsorted : (item :: after).Pairwise fun x y => x.2 < y.2 := by
        have hall : v.items.Pairwise fun x y => x.2 < y.2 := (pairwise_map.mp (Rep.toShape hb).pairs_sorted :)
        rw [hitems] at hall
        exact (pairwise_append.mp hall).2.1
      refine .inr ⟨item.2, ⟨.after, item.2.key, item.2.entryRef, some id, slot, m.epoch⟩, ?_, ⟨?_, ?_, ?_⟩, rfl, rfl,
        henc.admits, ?_⟩
      · rw [OrderedCursor.next, run_bind hrun]
        dsimp only
        rw [run_bind ((Rep.toShape hb).emitKey_spot hs)]
      · exact (hmem _).mpr ⟨item, by simp, rfl⟩
      · exact hrest item (by simp)
      · intro q hq hnot
        obtain ⟨x, hx, rfl⟩ := (hmem q).mp hq
        rcases mem_append.mp hx with hx | hx
        · exact absurd (hbefore x hx) hnot
        · rcases mem_cons.mp hx with rfl | hx
          · exact le_rfl
          · exact ((pairwise_cons.mp hsorted).1 x hx).le
      · rintro n id' hid'
        obtain rfl : id = id' := by simpa using hid'
        exact ⟨0, zero_le, by simp, fun _ => ⟨v, root, before, item, after, rfl, hs, rfl⟩⟩

theorem Tracks.step {m' : OrderedMap S F} {V' : Backing S} {call : Call} {reply : Reply} (h : Tracks c m V n)
    (hmoved : Moved call m m' V V' reply) : Tracks c m' V' (n + reply.changed.toNat) := by
  intro id hid
  obtain ⟨d, hd, heq, hspot⟩ := h id hid
  rcases hmoved with ⟨-, hepoch, rfl⟩ | ⟨hchanged, hepoch, -⟩
  · exact ⟨d, Nat.le_add_right_of_le hd, by rw [hepoch, heq], hspot⟩
  · refine ⟨d + 1, by rw [hchanged]; exact Nat.succ_le_succ hd, ?_, by simp⟩
    rw [hepoch, heq, UInt64.ofNat_add, UInt64.add_assoc]
    rfl

end Next

inductive Start where
  | fromStart
  | fromKey (key : Bytes) (inclusive : Bool)
  | resumeAfter (key : Bytes) (entryRef : UInt64)

namespace Start

def cursor : Start → OrderedCursor
  | .fromStart => .fromStart
  | .fromKey key inclusive => .fromKey key inclusive
  | .resumeAfter key entryRef => .resumeAfter key entryRef

/-- The pairs a cursor opened so is asked for. -/
def Beyond : Start → Pair → Prop
  | .fromStart, _ => True
  | .fromKey key true, p => key ≤ p.key
  | .fromKey key false, p => key < p.key
  | .resumeAfter key entryRef, p => ⟨key, entryRef⟩ < p

/-- The length rule `next` will assert of the bound. -/
def Admitted (S : KeyScheme) : Start → Prop
  | .fromStart => True
  | .fromKey key _ => S.Admits key
  | .resumeAfter key _ => S.Admits key

theorem mem_passed_iff (start : Start) (p : Pair) : p ∈ start.cursor.passed ↔ ¬ start.Beyond p := by
  cases start with
  | fromStart => simp [cursor, OrderedCursor.fromStart, OrderedCursor.passed, Beyond]
  | fromKey key inclusive =>
    cases inclusive with
    | true =>
      change p < ⟨key, 0⟩ ↔ ¬ key ≤ p.key
      rw [Pair.lt_iff, not_le]
      exact ⟨fun h => h.elim id fun h => absurd h.2 (not_lt.mpr UInt64.zero_le), .inl⟩
    | false =>
      change p ≤ ⟨key, 0xFFFFFFFFFFFFFFFF⟩ ↔ ¬ key < p.key
      rw [not_lt]
      refine ⟨Pair.key_le_of_le, fun h => not_lt.mp fun hlt => ?_⟩
      rcases (Pair.lt_iff _ _).mp hlt with hkey | ⟨-, href⟩
      · exact absurd hkey (not_lt.mpr h)
      · have hmax := UInt64.lt_iff_toNat_lt.mp href
        have hbound := p.entryRef.toNat_lt
        change 18446744073709551615 < p.entryRef.toNat at hmax
        omega
  | resumeAfter key entryRef =>
    change p ≤ ⟨key, entryRef⟩ ↔ ¬ ⟨key, entryRef⟩ < p
    exact not_lt.symm

theorem isLowerSet_passed (start : Start) : IsLowerSet start.cursor.passed := by
  rw [OrderedCursor.passed]
  split
  · exact isLowerSet_empty
  · exact isLowerSet_Iio _
  · exact isLowerSet_Iic _

private theorem cursor_hintLeaf (start : Start) : start.cursor.hintLeaf = none := by
  cases start with
  | fromStart | resumeAfter key entryRef => rfl
  | fromKey key inclusive => cases inclusive <;> rfl

end Start

/-- A cursor just opened has no hint to be wrong about. -/
theorem Tracks.of_start (start : Start) (m : OrderedMap S F) (V : Backing S) (n : Nat) : Tracks start.cursor m V n := by
  intro id hid
  exact absurd (start.cursor_hintLeaf.symm.trans hid) (by simp)

/-- What happens to a cursor and its map: a call of `next`, or any call on the map. -/
inductive Event where
  | next
  | call (call : Call)

/-- A cursor over its map, with what it returned and every map since it was opened. `exhausted`
tells that the last event was a `next` that returned nothing; `idle` counts the changes since the
cursor last returned a pair. -/
structure Session (S : KeyScheme) (F : Nat) where
  map : OrderedMap S F
  cursor : OrderedCursor
  returned : List Pair
  history : List (OrderedMap S F)
  exhausted : Bool
  idle : Nat

namespace Session

def start (m : OrderedMap S F) (start : Start) : Session S F := ⟨m, start.cursor, [], [m], false, 0⟩

def step (s : Session S F) : Event → Option (Session S F)
  | .next => do
    match ← s.cursor.next s.map with
    | (none, cursor) => some { s with cursor, exhausted := true }
    | (some pair, cursor) =>
      some { s with cursor, returned := s.returned ++ [pair], exhausted := false, idle := 0 }
  | .call call => do
    let (reply, map) ← s.map.step call
    some { s with map, history := s.history ++ [map], exhausted := false, idle := s.idle + reply.changed.toNat }

def run (s : Session S F) (events : List Event) : Option (Session S F) := events.foldlM step s

theorem run_cons (s : Session S F) (event : Event) (events : List Event) :
    s.run (event :: events) = s.step event >>= fun s' => s'.run events :=
  foldlM_cons

theorem run_append (s : Session S F) (before after : List Event) :
    s.run (before ++ after) = s.run before >>= fun s' => s'.run after :=
  foldlM_append

end Session

/-- Presence in a map: the pair is on its leaf chain. -/
def OrderedMap.Present (m : OrderedMap S F) (p : Pair) : Prop := ∃ chain, m.leafChain = some chain ∧ p ∈ chain

theorem Backs.present_iff {m : OrderedMap S F} {V : Backing S} (h : Backs m V) (p : Pair) :
    m.Present p ↔ p ∈ (V.set : Set Pair) := by
  have hwalk := h.lists.walk
  rw [Finset.mem_coe, Backing.set, List.mem_toFinset]
  refine ⟨?_, fun hp => ⟨_, hwalk, hp⟩⟩
  rintro ⟨chain, hchain, hp⟩
  rw [hwalk] at hchain
  rwa [some.inj hchain]

/-- The state of a session: the map is backed, the hint is tracked and the cursor sweeps. -/
structure Session.Inv (start : Start) (s : Session S F) (V : Backing S) : Prop where
  backs : Backs s.map V
  last : s.map ∈ s.history
  tracks : Tracks s.cursor s.map V s.idle
  sweeps : Sweeps start.cursor.passed (s.history.map fun m => {p | m.Present p}) s.returned s.cursor.passed
  ended : s.exhausted = true → IsNext (V.set : Set Pair) s.cursor.passed none

section Run
variable {start : Start} {s : Session S F} {V : Backing S}

theorem Session.Inv.set_mem (h : s.Inv start V) : (V.set : Set Pair) ∈ s.history.map fun m => {p | m.Present p} := by
  refine List.mem_map.mpr ⟨s.map, h.last, ?_⟩
  ext p
  exact h.backs.present_iff p

theorem Session.inv_start {m : OrderedMap S F} (hb : Backs m V) (start : Start) :
    (Session.start m start).Inv start V := by
  exact ⟨hb, mem_singleton.mpr rfl, .of_start start m V 0, .begin _, by simp [Session.start]⟩

theorem Session.Inv.next_step (h : s.Inv start V) {pos : Option (Nat × Nat)} (hrun : s.cursor.position s.map = some pos)
    (haims : Aims V pos s.cursor.passed) : ∃ s', s.step .next = some s' ∧ s'.Inv start V ∧ s'.map = s.map ∧
      (s'.cursor = s.cursor ∨ S.Admits s'.cursor.keyBuf) := by
  rcases OrderedCursor.next_aimed h.backs hrun haims with
    ⟨hnext, hend⟩ | ⟨p, c', hnext, hisNext, -, hpassed, hadmits, htracks⟩
  · refine ⟨{ s with exhausted := true }, ?_, { h with ended := fun _ => hend }, rfl, .inl rfl⟩
    rw [Session.step, run_bind hnext]
  · refine ⟨{ s with cursor := c', returned := s.returned ++ [p], exhausted := false, idle := 0 }, ?_,
      ⟨h.backs, h.last, htracks 0, ?_, by simp⟩, rfl, .inr hadmits⟩
    · rw [Session.step, run_bind hnext]
    · rw [hpassed]
      exact h.sweeps.visit h.set_mem hisNext

theorem Session.Inv.call_step (h : s.Inv start V) {call : Call} {reply : Reply} {m : OrderedMap S F} {V' : Backing S}
    (hstep : s.map.step call = some (reply, m)) (hb : Backs m V') (hmoved : Moved call s.map m V V' reply) :
    ∃ s', s.step (.call call) = some s' ∧ s'.Inv start V' ∧ s'.cursor = s.cursor := by
  refine ⟨{ s with map := m, history := s.history ++ [m], exhausted := false, idle := s.idle + reply.changed.toNat },
    ?_, ⟨hb, by simp, h.tracks.step hmoved, ?_, by simp⟩, rfl⟩
  · rw [Session.step, run_bind hstep]
  · rw [map_append]
    exact h.sweeps.change _

variable {s' : Session S F} {events : List Event}

/-- Any step that returns keeps the invariant. -/
theorem Session.Inv.step (h : s.Inv start V) (hF : 8 ≤ F) (heven : F % 2 = 0) {event : Event}
    (hidle : event = .next → s.idle < 2 ^ 64) (hrun : s.step event = some s') : ∃ V', s'.Inv start V' := by
  cases event with
  | next =>
    obtain ⟨out, hnext, -⟩ := bind_eq_some_iff.mp hrun
    obtain ⟨pos, hpos, -⟩ := bind_eq_some_iff.mp hnext
    obtain ⟨pos', hpos', haims⟩ := OrderedCursor.position_aims h.backs h.tracks (hidle rfl)
      (OrderedCursor.position_safe h.backs hpos)
    obtain ⟨s'', hstep, hinv, -, -⟩ := h.next_step hpos' haims
    obtain rfl : s' = s'' := by simpa using hrun.symm.trans hstep
    exact ⟨V, hinv⟩
  | call call =>
    obtain ⟨⟨reply, m⟩, hstep, -⟩ := bind_eq_some_iff.mp hrun
    obtain ⟨V', -, hb, hmoved⟩ := h.backs.step_of_some hF heven hstep
    obtain ⟨s'', hstep', hinv, -⟩ := h.call_step hstep hb hmoved
    obtain rfl : s' = s'' := by simpa using hrun.symm.trans hstep'
    exact ⟨V', hinv⟩

/-- Whenever `next` is called, fewer than 2^64 changes were made since it last returned a pair. -/
def FreshHints (s : Session S F) (events : List Event) : Prop :=
  ∀ before after s', events = before ++ .next :: after → s.run before = some s' → s'.idle < 2 ^ 64

theorem FreshHints.head (h : FreshHints s (.next :: events)) : s.idle < 2 ^ 64 :=
  h [] events s rfl rfl

theorem FreshHints.tail {event : Event} (h : FreshHints s (event :: events))
    (hstep : s.step event = some s') : FreshHints s' events := by
  intro before after s'' hsplit hrun
  refine h (event :: before) after s'' (by rw [hsplit]; rfl) ?_
  rw [Session.run_cons, run_bind hstep, hrun]

theorem Session.Inv.run (h : s.Inv start V) (hF : 8 ≤ F) (heven : F % 2 = 0)
    (hfresh : FreshHints s events) (hrun : s.run events = some s') : ∃ V', s'.Inv start V' := by
  induction events generalizing s V with
  | nil =>
    obtain rfl : s = s' := by simpa [Session.run] using hrun
    exact ⟨V, h⟩
  | cons event events ih =>
    rw [Session.run_cons] at hrun
    obtain ⟨s₁, hstep, hrest⟩ := bind_eq_some_iff.mp hrun
    obtain ⟨V₁, h₁⟩ := h.step hF heven (by rintro rfl; exact hfresh.head) hstep
    exact ih h₁ (hfresh.tail hstep) hrest

/-- From fanout 10 on, with keys of the scheme's length, no event panics. -/
theorem Session.Inv.run_isSome (h : s.Inv start V) (hF : 10 ≤ F) (heven : F % 2 = 0)
    (hfresh : FreshHints s events) (hkeys : ∀ call, .call call ∈ events → S.Admits call.pair.key)
    (hcursor : s.cursor.pos = .start ∨ S.Admits s.cursor.keyBuf) : ∃ s', s.run events = some s' := by
  induction events generalizing s V with
  | nil => exact ⟨s, rfl⟩
  | cons event events ih =>
    have hkeys' : ∀ call, .call call ∈ events → S.Admits call.pair.key :=
      fun call hc => hkeys call (mem_cons_of_mem _ hc)
    obtain ⟨s₁, V₁, hstep, h₁, hcursor₁⟩ : ∃ s₁ V₁, s.step event = some s₁ ∧ s₁.Inv start V₁ ∧
        (s₁.cursor.pos = .start ∨ S.Admits s₁.cursor.keyBuf) := by
      cases event with
      | next =>
        obtain ⟨pos, hpos, haims⟩ := OrderedCursor.position_aims h.backs h.tracks hfresh.head
          fun _ hne => ⟨hcursor.resolve_left hne, h.backs.height_lt hF⟩
        obtain ⟨s₁, hstep, h₁, -, hc | hc⟩ := h.next_step hpos haims
        · exact ⟨s₁, V, hstep, h₁, by rwa [hc]⟩
        · exact ⟨s₁, V, hstep, h₁, .inr hc⟩
      | call call =>
        obtain ⟨reply, m, V₁, hstep, -, hb, hmoved⟩ := h.backs.step (by omega) heven (h.backs.height_lt hF)
          (hkeys call (by simp))
        obtain ⟨s₁, hstep₁, h₁, hc⟩ := h.call_step hstep hb hmoved
        exact ⟨s₁, V₁, hstep₁, h₁, by rwa [hc]⟩
    obtain ⟨s', hrun⟩ := ih h₁ (hfresh.tail hstep) hkeys' hcursor₁
    refine ⟨s', ?_⟩
    rw [Session.run_cons, run_bind hstep, hrun]

end Run

/-- A cursor over a map that changes between its calls: what it returns ascends beyond its start,
and once it finds nothing more it has returned every pair that stayed, each once. Fewer than 2^64
changes may pass between a pair returned and a later `next`. -/
theorem cursor_returns_survivors {S : KeyScheme} {F : Nat} (hF : 8 ≤ F) (heven : F % 2 = 0) {ceiling : UInt32}
    {calls : List Call} {replies : List Reply} {m : OrderedMap S F}
    (hm : (OrderedMap.new S F ceiling).run calls = some (replies, m)) (start : Start) {events : List Event}
    (hfresh : FreshHints (Session.start m start) events) : (∀ s, (Session.start m start).run events = some s →
      s.returned.Pairwise (· < ·) ∧ (∀ p ∈ s.returned, start.Beyond p) ∧
      (s.exhausted = true → ∀ p, start.Beyond p → (∀ m' ∈ s.history, m'.Present p) → s.returned.count p = 1)) ∧
    (10 ≤ F → start.Admitted S → (∀ call, .call call ∈ events → S.Admits call.pair.key) →
      ((Session.start m start).run events).isSome = true) := by
  obtain ⟨V, hb⟩ := (backs_new S F ceiling).after_run hF heven hm
  have hinv := Session.inv_start hb start
  have hlower := start.isLowerSet_passed
  refine ⟨fun s hrun => ?_, fun h10 hadm hkeys => ?_⟩
  · obtain ⟨V', h⟩ := hinv.run hF heven hfresh hrun
    obtain ⟨hsorted, hmem⟩ := h.sweeps.ascending hlower
    refine ⟨hsorted, fun p hp => ?_, fun hend p hbeyond hthere => ?_⟩
    · by_contra hnot
      exact (hmem p hp).2 ((start.mem_passed_iff p).mpr hnot)
    · refine h.sweeps.exhausted hlower h.set_mem (h.ended hend)
        (fun hin => (start.mem_passed_iff p).mp hin hbeyond) fun t ht => ?_
      obtain ⟨m', hm', rfl⟩ := List.mem_map.mp ht
      exact hthere m' hm'
  · have hcursor : start.cursor.pos = .start ∨ S.Admits start.cursor.keyBuf := by
      cases start with
      | fromStart => exact .inl rfl
      | fromKey key inclusive => cases inclusive <;> exact .inr hadm
      | resumeAfter key entryRef => exact .inr hadm
    obtain ⟨s, hs⟩ := hinv.run_isSome h10 heven hfresh hkeys hcursor
    rw [hs]
    rfl

theorem Session.step_idle {s s' : Session S F} {event : Event} (h : s.step event = some s') : s'.idle ≤ s.idle + 1 := by
  cases event with
  | next =>
    obtain ⟨⟨out, cursor⟩, -, hout⟩ := bind_eq_some_iff.mp h
    cases out with
    | none =>
      cases hout
      exact Nat.le_succ _
    | some pair =>
      cases hout
      exact zero_le
  | call call =>
    obtain ⟨⟨reply, map⟩, -, hout⟩ := bind_eq_some_iff.mp h
    cases hout
    exact Nat.add_le_add_left (Bool.toNat_le _) _

/-- Short sessions never come near the wrap. -/
theorem freshHints_of_length {s : Session S F} {events : List Event} (h : s.idle + events.length ≤ 2 ^ 64) :
    FreshHints s events := by
  intro before after s' hsplit hrun
  have hidle : s'.idle ≤ s.idle + before.length := by
    clear h hsplit
    induction before generalizing s with
    | nil =>
      obtain rfl : s = s' := by simpa [Session.run] using hrun
      exact Nat.le_refl _
    | cons event before ih =>
      rw [Session.run_cons] at hrun
      obtain ⟨s₁, hstep, hrest⟩ := bind_eq_some_iff.mp hrun
      have hstep' := Session.step_idle hstep
      have hrest' := ih hrest
      rw [length_cons]
      omega
  rw [hsplit, length_append, length_cons] at h
  omega

/-- A pair of the all-zero key. -/
def refPair (r : UInt64) : Pair := ⟨[0, 0, 0, 0, 0, 0, 0, 0], r⟩

def oneLeaf (refs : List UInt64) (epoch : UInt64) : OrderedMap .fixed8 8 :=
  ⟨⟨[⟨none, refs.map fun r => ⟨0, (), r⟩⟩], []⟩, Pool.new, KeyHeap.new 0, some 0, 0, refs.length, epoch, 0⟩

theorem cursor_returns_survivors_refs : ∃ s, (Session.start (oneLeaf [0, 1] 2) .fromStart).run
        [.next, .call (.remove (refPair 0)), .call (.insert (refPair 2)), .next, .next, .next] = some s ∧
      s.returned.Pairwise (· < ·) ∧ s.exhausted = true ∧
      (∀ p, (∀ m' ∈ s.history, m'.Present p) → s.returned.count p = 1) ∧ s.returned = [refPair 0, refPair 1, refPair 2] := by
  have h := (cursor_returns_survivors (show 8 ≤ 8 from le_rfl) rfl
    (show (OrderedMap.new .fixed8 8 0).run [.insert (refPair 0), .insert (refPair 1)] =
      some ([.inserted (.ok true), .inserted (.ok true)], oneLeaf [0, 1] 2) from rfl) .fromStart
    (freshHints_of_length (show _ ≤ _ by decide))).1 _ (show (Session.start (oneLeaf [0, 1] 2) .fromStart).run
      [.next, .call (.remove (refPair 0)), .call (.insert (refPair 2)), .next, .next, .next] = some _ from rfl)
  exact ⟨_, rfl, h.1, rfl, fun p => h.2.2 rfl p trivial, rfl⟩

def flicker : List Event := [.call (.insert (refPair 2)), .call (.remove (refPair 2))]

/-- Return one pair, remove it, make 2^64 changes in all, and go on to the end. -/
def comeRound : List Event :=
  [.next, .call (.remove (refPair 0))] ++ (List.replicate (2 ^ 63 - 1) flicker).flatten ++
    [.call (.insert (refPair 2)), .next, .next]

theorem present_one (e : UInt64) : (oneLeaf [1] e).Present (refPair 1) := ⟨[refPair 1], rfl, by decide⟩

theorem present_one_two (e : UInt64) : (oneLeaf [1, 2] e).Present (refPair 1) :=
  ⟨[refPair 1, refPair 2], rfl, by decide⟩

private theorem flicker_run (n : Nat) (s : Session .fixed8 8) (e : UInt64) (hmap : s.map = oneLeaf [1] e)
    (hthere : ∀ m ∈ s.history, m.Present (refPair 1)) :
    ∃ s', s.run (List.replicate n flicker).flatten = some s' ∧ s'.map = oneLeaf [1] (e + UInt64.ofNat (2 * n)) ∧
      s'.cursor = s.cursor ∧ s'.returned = s.returned ∧ ∀ m ∈ s'.history, m.Present (refPair 1) := by
  induction n generalizing s e with
  | zero => exact ⟨s, rfl, by simpa using hmap, rfl, rfl, hthere⟩
  | succ n ih =>
    obtain ⟨map, cursor, returned, history, exhausted, idle⟩ := s
    obtain rfl := hmap
    obtain ⟨s', hrun, hmap', hcursor, hreturned, hthere'⟩ :=
      ih ⟨oneLeaf [1] (e + 1 + 1), cursor, returned, history ++ [oneLeaf [1, 2] (e + 1)] ++ [oneLeaf [1] (e + 1 + 1)],
        false, idle + 1 + 1⟩ (e + 1 + 1) rfl (by
          intro m hm
          simp only [mem_append, mem_singleton] at hm
          rcases hm with (hm | rfl) | rfl
          · exact hthere m hm
          · exact present_one_two _
          · exact present_one _)
    refine ⟨s', ?_, ?_, hcursor, hreturned, hthere'⟩
    · rw [replicate_succ, flatten_cons, Session.run_append]
      exact hrun
    · rw [hmap', Nat.mul_succ, add_comm (2 * n) 2, UInt64.ofNat_add, show UInt64.ofNat 2 = 1 + 1 from rfl,
        UInt64.add_assoc e 1 1, UInt64.add_assoc e (1 + 1)]

/-- After 2^64 changes the hint looks fresh and a pair that was there all along is skipped. -/
theorem cursor_skips_when_epoch_comes_round :
    ∃ s, (Session.start (oneLeaf [0, 1] 2) .fromStart).run comeRound = some s ∧ s.exhausted = true ∧
      Start.fromStart.Beyond (refPair 1) ∧ (∀ m' ∈ s.history, m'.Present (refPair 1)) ∧
      s.returned.count (refPair 1) = 0 ∧ (OrderedMap.new .fixed8 8 0).run [.insert (refPair 0), .insert (refPair 1)] =
        some ([.inserted (.ok true), .inserted (.ok true)], oneLeaf [0, 1] 2) := by
  obtain ⟨s, hrun, hmap, hcursor, hreturned, hthere⟩ := flicker_run (2 ^ 63 - 1)
    ⟨oneLeaf [1] 3, ⟨.after, [0, 0, 0, 0, 0, 0, 0, 0], 0, some 0, 0, 2⟩, [refPair 0], [oneLeaf [0, 1] 2, oneLeaf [1] 3],
      false, 1⟩ 3 rfl (by
        intro m hm
        simp only [mem_cons, not_mem_nil, or_false] at hm
        rcases hm with rfl | rfl
        · exact ⟨[refPair 0, refPair 1], rfl, by decide⟩
        · exact present_one _)
  obtain ⟨map, cursor, returned, history, exhausted, idle⟩ := s
  obtain rfl : map = oneLeaf [1] 1 := hmap
  obtain rfl := hcursor
  obtain rfl := hreturned
  refine ⟨⟨oneLeaf [1, 2] 2, ⟨.after, [0, 0, 0, 0, 0, 0, 0, 0], 2, some 0, 1, 2⟩, [refPair 0, refPair 2],
    history ++ [oneLeaf [1, 2] 2], true, 0⟩, ?_, rfl, trivial, ?_,
      (show List.count (refPair 1) [refPair 0, refPair 2] = 0 by decide), rfl⟩
  · have hfirst : (Session.start (oneLeaf [0, 1] 2) .fromStart).run [.next, .call (.remove (refPair 0))] = some _ := rfl
    rw [comeRound, append_assoc, Session.run_append, run_bind hfirst, Session.run_append]
    exact run_bind hrun _
  · exact forall_mem_append.mpr ⟨hthere, forall_mem_singleton.mpr (present_one_two _)⟩

end InfinityDB
