import InfinityDB.Ordered.Refinement

/-!
# Insert headroom

The reservation check counts one leaf and one internal node an insert. One insert may split every
level above its leaf, but a tree has fewer internal nodes than leaves and gains at most one leaf an
insert, so the leaf count alone bounds both pools.
-/

namespace InfinityDB

open List

open OrderedMap

variable {S : KeyScheme} {F : Nat}

/-- `u64::saturating_add`. -/
def saturatingAdd (a b : Nat) : Nat := min (a + b) (2 ^ 64 - 1)

/-- Whether `additional` inserts are guaranteed inside the node-id spaces. -/
def OrderedMap.insertHeadroom (m : OrderedMap S F) (additional : UInt64) : Bool :=
  let margin := saturatingAdd additional.toNat (2 * maxHeight)
  decide (saturatingAdd m.leaves.nodes.length margin < nodeNone) &&
    decide (saturatingAdd m.internals.nodes.length margin < nodeNone)

private theorem insertHeadroom_room {m : OrderedMap S F} {additional : UInt64} (h : m.insertHeadroom additional = true) :
    m.leaves.nodes.length + additional.toNat + 2 * maxHeight < nodeNone := by
  have hleaves := of_decide_eq_true (Bool.and_eq_true_iff.mp h).1
  have hnone : nodeNone = 2 ^ 32 - 1 := rfl
  unfold saturatingAdd at hleaves
  omega

def Backing.leafCount : Backing S → Nat
  | none => 0
  | some (v, _) => v.leaves.length

section Step
variable {m : OrderedMap S F} {V : Backing S}

theorem Backs.leafCount_le (h : Backs m V) : V.leafCount ≤ m.leaves.nodes.length := by
  match V, h with
  | none, _ => exact zero_le
  | some (v, root), h =>
    have hids := (Rep.toShape h).leaves.ids.length_eq
    simp only [length_append, length_map, chainTo_length, length_range] at hids
    change v.leaves.length ≤ _
    omega

/-- An insert that returns adds at most one leaf; one refused for want of a node found the leaves near the
end of the id space. -/
theorem Backs.insert_counts (h : Backs m V) (hF : 8 ≤ F) (heven : F % 2 = 0) {p : Pair} {reply : Reply}
    {m' : OrderedMap S F} (hstep : m.step (.insert p) = some (reply, m')) :
    ∃ V', Backs m' V' ∧ V'.leafCount ≤ V.leafCount + 1 ∧
      (reply = .inserted (.error .nodeLimit) → nodeNone ≤ V.leafCount + maxHeight) := by
  by_cases hk : S.Admits p.key
  swap
  · have hprobe : makeProbe S p.key = none := if_neg hk
    simp [OrderedMap.step, OrderedMap.insert, hprobe] at hstep
  have hheight := h.step_some (show S.Admits (Call.insert p).pair.key from hk) hstep
  obtain ⟨⟨result, m''⟩, hins, hout⟩ := Option.bind_eq_some_iff.mp hstep
  obtain ⟨rfl, rfl⟩ : .inserted result = reply ∧ m'' = m' := by simpa using hout
  cases V with
  | none =>
    rw [OrderedMap.insert, run_bind (makeProbe_admits hk), if_pos (Vacant.root h)] at hins
    rcases Vacant.insertFirst h hF hk p.entryRef with ⟨m₁, id, item, hrun, -, -, hrep⟩ | ⟨m₁, hrun, hvac, -⟩
    · obtain ⟨rfl, rfl⟩ : result = .ok true ∧ m'' = m₁ := by simpa using hins.symm.trans hrun
      exact ⟨some (View.single id item, id), hrep, le_rfl, fun he => by cases he⟩
    · obtain ⟨rfl, rfl⟩ : result = .error .heapFull ∧ m'' = m₁ := by simpa using hins.symm.trans hrun
      exact ⟨none, hvac, zero_le, fun he => by cases he⟩
  | some view =>
    obtain ⟨v, root⟩ := view
    rcases Rep.insert_spec h hF heven hheight hk p.entryRef with
      ⟨-, hrun⟩ | ⟨-, ⟨m₁, v', root', hrun, hinserted, -, hrep⟩ | ⟨e, m₁, hrun, hrep, -, hrefused⟩⟩
    · obtain ⟨rfl, rfl⟩ : result = .ok false ∧ m'' = m := by simpa using hins.symm.trans hrun
      exact ⟨some (v, root), h, Nat.le_succ _, fun he => by cases he⟩
    · obtain ⟨rfl, rfl⟩ : result = .ok true ∧ m'' = m₁ := by simpa using hins.symm.trans hrun
      exact ⟨some (v', root'), hrep, hinserted.leaves, fun he => by cases he⟩
    · obtain ⟨rfl, rfl⟩ : result = .error e ∧ m'' = m₁ := by simpa using hins.symm.trans hrun
      refine ⟨some (v, root), hrep, Nat.le_succ _, fun he => ?_⟩
      obtain rfl : e = .nodeLimit := by simpa using he
      have hfewer := (Rep.toShape h).index.internals_lt (Rep.occupied h) hF
      rw [length_map] at hfewer
      change nodeNone ≤ v.leaves.length + maxHeight
      rcases hrefused with hfull | hfull <;> omega

/-- With room for as many leaves as there are inserts, none of them meets the end of an id space. -/
theorem Backs.run_inserts (h : Backs m V) (hF : 8 ≤ F) (heven : F % 2 = 0) {pairs : List Pair} {replies : List Reply}
    {m' : OrderedMap S F} (hroom : V.leafCount + pairs.length + maxHeight < nodeNone)
    (hrun : m.run (pairs.map Call.insert) = some (replies, m')) :
    ∀ reply ∈ replies, reply ≠ .inserted (.error .nodeLimit) := by
  induction pairs generalizing m V replies with
  | nil =>
    obtain ⟨rfl, -⟩ : [] = replies ∧ m = m' := by simpa [OrderedMap.run] using hrun
    simp
  | cons p pairs ih =>
    obtain ⟨reply, m₁, rest, hstep, hrest, rfl⟩ := run_cons_inv hrun
    obtain ⟨V₁, h₁, hgrowth, hlimit⟩ := h.insert_counts hF heven hstep
    rw [length_cons] at hroom
    intro r hr
    rcases mem_cons.mp hr with rfl | hr
    · intro he
      have hfull := hlimit he
      omega
    · exact ih h₁ (by omega) hrest r hr

end Step

/-- Where the check says yes, no run of that many inserts is ever refused for want of a node. -/
theorem insertHeadroom_sound (S : KeyScheme) (hF : 8 ≤ F) (heven : F % 2 = 0) (ceiling : UInt32) {calls : List Call}
    {replies : List Reply} {m : OrderedMap S F} (hrun : (OrderedMap.new S F ceiling).run calls = some (replies, m))
    (additional : UInt64) (hroom : m.insertHeadroom additional = true) (pairs : List Pair)
    (hcount : pairs.length ≤ additional.toNat) {replies' : List Reply} {m' : OrderedMap S F}
    (hinserts : m.run (pairs.map Call.insert) = some (replies', m')) :
    ∀ reply ∈ replies', reply ≠ .inserted (.error .nodeLimit) := by
  obtain ⟨V, h⟩ := (backs_new S F ceiling).after_run hF heven hrun
  have hleaves := h.leafCount_le
  have hmargin := insertHeadroom_room hroom
  exact h.run_inserts hF heven (by omega) hinserts

/-- A map that has grown a level promises room for thirty-two pairs, and the leaf they go to splits. -/
theorem insertHeadroom_sound_grown : ∃ m m' replies replies', (OrderedMap.new .fixed8 32 0).run
    ((rising 0 33).map .insert) = some (replies, m) ∧
    m.height = 1 ∧ m.insertHeadroom 32 = true ∧ m.run ((rising 33 32).map .insert) = some (replies', m') ∧
    m.leaves.nodes.length < m'.leaves.nodes.length ∧ ∀ reply ∈ replies', reply ≠ .inserted (.error .nodeLimit) := by
  have hgrown : ((OrderedMap.new .fixed8 32 0).run ((rising 0 33).map .insert)).any (fun out => out.2.height = 1 ∧
      out.2.insertHeadroom 32 = true ∧ (out.2.run ((rising 33 32).map .insert)).any fun out' =>
        out.2.leaves.nodes.length < out'.2.leaves.nodes.length) = true := by decide +kernel
  obtain ⟨⟨replies, m⟩, hrun, hm⟩ := (Option.any_eq_true _ _).mp hgrown
  obtain ⟨hheight, hroom, hany⟩ := of_decide_eq_true hm
  obtain ⟨⟨replies', m'⟩, hinserts, hsplit⟩ := (Option.any_eq_true _ _).mp hany
  exact ⟨m, m', replies, replies', hrun, hheight, hroom, hinserts, of_decide_eq_true hsplit,
    insertHeadroom_sound .fixed8 (by decide) rfl 0 hrun 32 hroom _ (by decide) hinserts⟩

end InfinityDB
