import InfinityDB.Ordered.Refinement

/-!
# The height bound at fanout 8

Ascending appends leave every leaf but the last full and every node but the last of its level at
the left half of a split. At fanout 8 that is four children a node, and sixteen levels are reached
before the node ids run out: the next call fails the assertion of the descent.
-/

namespace InfinityDB

open List Option

open OrderedMap

variable {S : KeyScheme} {F : Nat}

/-- The shape ascending appends build. -/
structure Ascended (F : Nat) (v : View S) : Prop where
  leaves : ∀ leaf ∈ v.leaves.dropLast, leaf.2.length = F
  levels : ∀ level ∈ v.levels, ∀ n ∈ level.dropLast, n.seps.length = sepMax F / 2

/-- The last position of a level is under its last node. -/
private theorem last_of_position {left rest : Level S} {n : INode S} {c : Nat}
    (hkids : ∀ x ∈ left ++ n :: rest, x.children.length = x.seps.length + 1) (hc : c ≤ n.seps.length)
    (hlast : (left.flatMap INode.children).length + c + 1 = ((left ++ n :: rest).flatMap INode.children).length) :
    rest = [] ∧ c = n.seps.length := by
  have hn := hkids n (by simp)
  rw [flatMap_append, flatMap_cons, length_append, length_append] at hlast
  have hrest : rest = [] := by
    cases rest with
    | nil => rfl
    | cons x rest =>
      have hx := hkids x (by simp)
      rw [flatMap_cons, length_append] at hlast
      omega
  subst hrest
  simp only [flatMap_nil, length_nil] at hlast
  exact ⟨rfl, by omega⟩

variable {levels : List (Level S)} {ids : List Nat} {fences : List (Item S)}

theorem Grows.ascended (hF : 8 ≤ F) {levels' : List (Level S)} {path : Path} {pos right root : Nat}
    {sep : Item S} {planned : List Nat} {leftover : Option (Item S × Nat)}
    (hg : Grows F levels path pos sep right planned levels' leftover)
    (hi : Indexes levels ids fences [root] []) (hlast : pos + 1 = ids.length)
    (h : ∀ level ∈ levels, ∀ n ∈ level.dropLast, n.seps.length = sepMax F / 2) :
    ∀ level ∈ levels', ∀ n ∈ level.dropLast, n.seps.length = sepMax F / 2 := by
  induction hg generalizing ids fences with
  | top => simp
  | @room left rest n up c path sep right hc hroom =>
    obtain ⟨upper, -, hkids, rfl, -, -⟩ := hi
    obtain ⟨rfl, rfl⟩ := last_of_position hkids hc hlast
    intro level hlevel
    rcases mem_cons.mp hlevel with rfl | hlevel
    · have hold := h (left ++ [n]) (by simp)
      rw [dropLast_concat] at hold ⊢
      exact hold
    · exact h level (by simp [hlevel])
  | @split left rest n up up' c newId path planned leftover evicted sep right hc hfull hev habove ih =>
    obtain ⟨upper, -, hkids, rfl, -, hup⟩ := hi
    obtain ⟨rfl, rfl⟩ := last_of_position hkids hc hlast
    have hmax : sepMax F = F - 1 := rfl
    intro level hlevel
    rcases mem_cons.mp hlevel with rfl | hlevel
    · have hold := h (left ++ [n]) (by simp)
      rw [dropLast_concat] at hold
      have hmid : ¬ n.seps.length ≤ sepMax F / 2 := by omega
      intro x hx
      simp only [splitInsert, hmid, if_false, dropLast_append_of_ne_nil (cons_ne_nil _ _),
        dropLast_cons_cons, dropLast_singleton, mem_append, mem_singleton] at hx
      rcases hx with hx | rfl
      · exact hold x hx
      · simp only [INode.splitLeft, length_take]
        omega
    · exact ih hup (by simp) (fun l hl => h l (by simp [hl])) level hlevel

theorem Placed.ascended {m : OrderedMap S F} {v v' : View S} {root root' id : Nat} {left : List (LeafNode S)}
    {a fl : List (Item S)} {item : Item S} (hF : 8 ≤ F) (h : Rep m v root) (hf : Focus v left id a [] fl [])
    (hp : Placed F v root left id a [] [] fl [] item v' root') (hv : Ascended F v) : Ascended F v' := by
  have hleft : ∀ leaf ∈ left, leaf.2.length = F := by
    have hold := hv.leaves
    rw [hf.leaves, dropLast_concat] at hold
    exact hold
  cases hp with
  | room hroom =>
    refine ⟨?_, hv.levels⟩
    rw [dropLast_concat]
    exact hleft
  | @split sep rightId path planned levels' leftover newRoot hfull hgrow hroot hsep =>
    rw [append_nil] at hfull
    have hcut : splitItems F (cutOf (S := S) F a.length []) a.length (a ++ []) item = (a, [item]) := by
      subst hfull
      simp [splitItems, cutOf]
    refine ⟨?_, ?_⟩
    · rw [hcut]
      intro leaf hleaf
      simp only [dropLast_append_of_ne_nil (cons_ne_nil _ _), dropLast_cons_cons,
        dropLast_singleton, mem_append, mem_singleton] at hleaf
      rcases hleaf with hleaf | rfl
      · exact hleft leaf hleaf
      · exact hfull
    · have hlast : left.length + 1 = (v.leaves.map Prod.fst).length := by simp [hf.leaves]
      have hold := hgrow.ascended hF h.index hlast hv.levels
      intro level hlevel
      rcases mem_append.mp hlevel with hlevel | hlevel
      · exact hold level hlevel
      obtain ⟨n, rfl⟩ : ∃ n, level = [n] := by
        cases leftover with
        | none => simp [rootLevel] at hlevel
        | some x =>
          cases newRoot with
          | none => simp [rootLevel] at hlevel
          | some r => exact ⟨_, mem_singleton.mp hlevel⟩
      simp

/-- Most leaves an ascending run can have under so many levels. -/
def leafBound : Nat → Nat
  | 0 => 1
  | height + 1 => 4 * leafBound height + 4

private theorem leafBound_mono {j k : Nat} (h : j ≤ k) : leafBound j ≤ leafBound k := by
  induction k with
  | zero =>
    obtain rfl : j = 0 := by omega
    exact le_rfl
  | succ k ih =>
    rcases Nat.lt_or_ge k j with hlt | hge
    · obtain rfl : j = k + 1 := by omega
      exact le_rfl
    · have hrec := ih hge
      rw [leafBound]
      omega

private theorem children_length_le {level : Level S} (hc : ∀ n ∈ level, n.children.length = n.seps.length + 1)
    (hfull : ∀ n ∈ level.dropLast, n.seps.length = 3) (hcap : ∀ n ∈ level, n.seps.length ≤ 7) :
    (level.flatMap INode.children).length ≤ 4 * level.length + 4 := by
  induction level with
  | nil => simp
  | cons n level ih =>
    have hn := hc n (by simp)
    rw [flatMap_cons, length_append, hn, length_cons]
    cases level with
    | nil =>
      have hcap' := hcap n (by simp)
      simp only [flatMap_nil, length_nil]
      omega
    | cons x level =>
      rw [dropLast_cons_cons] at hfull
      have htail := ih (forall_mem_cons.mp hc).2 (forall_mem_cons.mp hfull).2 (forall_mem_cons.mp hcap).2
      have h3 := hfull n (by simp)
      omega

theorem Indexes.count_le {root : Nat} (h : Indexes levels ids fences [root] []) (ho : Occupied 8 1 levels)
    (hasc : ∀ level ∈ levels, ∀ n ∈ level.dropLast, n.seps.length = 3) : ids.length ≤ leafBound levels.length := by
  induction levels generalizing ids fences with
  | nil =>
    obtain ⟨rfl, -⟩ := h
    exact le_rfl
  | cons level up ih =>
    obtain ⟨upper, -, hc, rfl, -, hup⟩ := h
    have habove := ih hup ho.2 (forall_mem_cons.mp hasc).2
    have hlevel := children_length_le hc (hasc level (by simp)) fun n hn => (ho.1 n hn).2
    rw [length_map] at habove
    rw [length_cons, leafBound]
    omega

section Run
variable {m : OrderedMap .fixed8 8} {v : View .fixed8} {root : Nat}

section
variable (hv : Ascended 8 v) (h : Rep m v root) (hheight : m.height < maxHeight)
include hv h hheight

theorem Ascended.leaves_le : v.leaves.length ≤ 2505397588 := by
  have hcount := h.index.count_le h.occupied hv.levels
  have hmono : leafBound v.levels.length ≤ leafBound 15 := by
    refine leafBound_mono ?_
    rw [h.height]
    exact Nat.le_of_lt_succ hheight
  have hvalue : leafBound 15 = 2505397588 := by decide
  rw [length_map] at hcount
  omega

/-- Below the bound nothing refuses an ascending append. -/
theorem Ascended.not_refused (e : OrderedMapError) : ¬ Refused v e := by
  have hleaves := hv.leaves_le h hheight
  have hnodes := h.index.internals_lt h.occupied le_rfl
  rw [length_map] at hnodes
  have hnone : nodeNone = 4294967295 := rfl
  have hmax : maxHeight = 16 := rfl
  cases e with
  | heapFull => simp [Refused, KeyScheme.fixed]
  | nodeLimit =>
    simp only [Refused]
    omega

theorem Ascended.len_le : v.pairs.length ≤ 20043180704 := by
  have hleaves := hv.leaves_le h hheight
  have hitems : v.items.length ≤ 8 * v.leaves.length := by
    have hsum := sum_le_card_nsmul (v.leaves.map fun leaf => leaf.2.length) 8 (by
      intro x hx
      obtain ⟨leaf, hleaf, rfl⟩ := List.mem_map.mp hx
      exact h.fits leaf hleaf)
    rw [View.items, length_flatMap]
    simpa [mul_comm] using hsum
  rw [View.pairs, length_map]
  omega

end

/-- One key, ascending references. -/
def ascendingPair (i : Nat) : Pair := ⟨List.replicate 8 0, UInt64.ofNat i⟩

def ascending (n : Nat) : List Call := (List.range n).map fun i => .append (ascendingPair i)

theorem ascendingPair_admits (i : Nat) : KeyScheme.fixed8.Admits (ascendingPair i).key := rfl

theorem ascending_succ (n : Nat) : ascending (n + 1) = ascending n ++ [.append (ascendingPair n)] := by
  rw [ascending, range_succ, map_append]
  rfl

private theorem ascendingPair_lt {i j : Nat} (h : i < j) (hj : j < 2 ^ 64) : ascendingPair i < ascendingPair j := by
  rw [Pair.lt_iff]
  refine .inr ⟨rfl, ?_⟩
  change UInt64.ofNat i < UInt64.ofNat j
  rw [UInt64.lt_iff_toNat_lt, UInt64.toNat_ofNat_of_lt' (lt_trans h hj), UInt64.toNat_ofNat_of_lt' hj]
  exact h

/-- What an ascending run has built. -/
def AscendedTo (n : Nat) (V : Backing .fixed8) : Prop :=
  (∀ v root, V = some (v, root) → Ascended 8 v) ∧ V.pairs.length = n ∧ ∀ q ∈ V.pairs, ∃ i < n, q = ascendingPair i

theorem AscendedTo.step {n : Nat} {V : Backing .fixed8} (h : AscendedTo n V) (hb : Backs m V) (hn : n < 2 ^ 64)
    (hheight : m.height < maxHeight) :
    ∃ reply m' V', m.step (.append (ascendingPair n)) = some (reply, m') ∧ Backs m' V' ∧ AscendedTo (n + 1) V' := by
  obtain ⟨hasc, hlen, hpairs⟩ := h
  have hk := ascendingPair_admits n
  match V, hb with
  | none, hb =>
    obtain rfl : n = 0 := hlen.symm
    rcases Vacant.insertFirst hb le_rfl hk (ascendingPair 0).entryRef with
      ⟨m', id, item, hrun, hp, -, hrep⟩ | ⟨-, -, -, -, hfixed⟩
    · refine ⟨.appended (.ok ()), m', some (View.single id item, id), ?_, hrep, ?_, rfl, ?_⟩
      · have happend : m.append (ascendingPair 0).key (ascendingPair 0).entryRef = some (.ok (), m') := by
          rw [OrderedMap.append, run_bind (makeProbe_admits hk), if_pos (Vacant.root hb), run_bind hrun]
        rw [OrderedMap.step, run_bind happend]
      · rintro v root hv
        obtain ⟨rfl, rfl⟩ : View.single id item = v ∧ id = root := by simpa using hv
        exact ⟨by simp [View.single], by simp [View.single]⟩
      · intro q hq
        obtain rfl : q = item.2 := by simpa [Backing.pairs, View.pairs, View.items, View.single] using hq
        exact ⟨0, Nat.one_pos, hp⟩
    · simp [KeyScheme.fixed] at hfixed
  | some (v, root), hb =>
    have hv := hasc v root rfl
    have hmax : ∀ q ∈ v.pairs, q < ascendingPair n := by
      intro q hq
      obtain ⟨i, hi, rfl⟩ := hpairs q hq
      exact ascendingPair_lt hi hn
    rcases Rep.append_spec hb le_rfl rfl hheight hk (ascendingPair n).entryRef with
      ⟨hnot, -⟩ | ⟨-, ⟨left, id, a, fl, item, m', v', root', hf, hrun, hp, hplaced, -, hrep⟩ | ⟨e, -, -, -, -, href⟩⟩
    · exact absurd hmax hnot
    · have hperm : v'.pairs.Perm (ascendingPair n :: v.pairs) := by
        have hperm := (hplaced.inserted (by rwa [append_nil])).pairs_perm
        rwa [hp] at hperm
      refine ⟨_, m', some (v', root'), by rw [OrderedMap.step, run_bind hrun], hrep, ?_, ?_, ?_⟩
      · rintro w r hw
        obtain ⟨rfl, rfl⟩ : v' = w ∧ root' = r := by simpa using hw
        exact hplaced.ascended le_rfl hb hf hv
      · rw [Backing.pairs, hperm.length_eq, length_cons]
        exact congrArg (· + 1) hlen
      · intro q hq
        rcases mem_cons.mp (hperm.mem_iff.mp hq) with rfl | hq
        · exact ⟨n, Nat.lt_succ_self n, rfl⟩
        · obtain ⟨i, hi, he⟩ := hpairs q hq
          exact ⟨i, Nat.lt_succ_of_lt hi, he⟩
    · exact absurd href (hv.not_refused hb hheight e)

theorem run_append (m : OrderedMap S F) (before after : List Call) :
    m.run (before ++ after) = (m.run before).bind fun x =>
      (x.2.run after).bind fun y => some (x.1 ++ y.1, y.2) := by
  induction before generalizing m with
  | nil =>
    rw [nil_append, OrderedMap.run, bind_some]
    cases m.run after <;> rfl
  | cons call before ih =>
    rw [cons_append, OrderedMap.run, OrderedMap.run]
    cases m.step call with
    | none => rfl
    | some x =>
      simp only [bind_eq_bind, bind_some, ih, bind_assoc]
      rfl

private theorem ascending_state (ceiling : UInt32) {n : Nat} (hn : n ≤ 2 ^ 64) {replies : List Reply}
    {m' : OrderedMap .fixed8 8} (hrun : (OrderedMap.new .fixed8 8 ceiling).run (ascending n) = some (replies, m')) :
    ∃ V, Backs m' V ∧ AscendedTo n V := by
  induction n generalizing replies m' with
  | zero =>
    obtain ⟨-, rfl⟩ : [] = replies ∧ OrderedMap.new .fixed8 8 ceiling = m' := by
      simpa [ascending, OrderedMap.run] using hrun
    exact ⟨none, backs_new _ _ _, by simp, rfl, by simp [Backing.pairs]⟩
  | succ n ih =>
    rw [ascending_succ, run_append] at hrun
    obtain ⟨⟨rs, m₁⟩, hrun₁, hrest⟩ := bind_eq_some_iff.mp hrun
    obtain ⟨⟨rs', m₂⟩, hlast, hout⟩ := bind_eq_some_iff.mp hrest
    obtain ⟨⟨reply, m₃⟩, hstep, hend⟩ := bind_eq_some_iff.mp hlast
    obtain ⟨V, hb, hV⟩ := ih (by omega) hrun₁
    have hheight := hb.step_some (show KeyScheme.fixed8.Admits (Call.append (ascendingPair n)).pair.key from rfl) hstep
    obtain ⟨reply', m₄, V', hstep', hb', hV'⟩ := hV.step hb (by omega) hheight
    obtain rfl : m₄ = m' := by
      have h₃ : m₄ = m₃ := by
        have heq := hstep'.symm.trans hstep
        simp only [some.injEq, Prod.mk.injEq] at heq
        exact heq.2
      have h₂ : m₃ = m₂ := by
        simp only [OrderedMap.run, bind_eq_bind, bind_some, some.injEq, Prod.mk.injEq] at hend
        exact hend.2
      simp only [some.injEq, Prod.mk.injEq] at hout
      rw [h₃, h₂, ← hout.2]
    exact ⟨V', hb', hV'⟩

/-- With one entry more than fifteen levels hold, the next append fails. -/
private theorem ascending_panics (ceiling : UInt32) {n : Nat} (hlong : 20043180704 < n) (hn : n < 2 ^ 64) :
    (OrderedMap.new .fixed8 8 ceiling).run (ascending (n + 1)) = none := by
  rw [ascending_succ, run_append]
  cases hrun : (OrderedMap.new .fixed8 8 ceiling).run (ascending n) with
  | none => rfl
  | some out =>
    obtain ⟨replies, m⟩ := out
    obtain ⟨V, hb, hasc, hlen, -⟩ := ascending_state ceiling hn.le hrun
    have hbound : m.step (.append (ascendingPair n)) = none := by
      match V, hb with
      | none, hb =>
        rw [Backing.pairs, length_nil] at hlen
        omega
      | some (v, root), hb =>
        refine step_at_bound (Rep.toShape hb).rooted (fun hheight => ?_) (ascendingPair_admits n)
        have hle := (hasc v root rfl).len_le hb hheight
        rw [Backing.pairs] at hlen
        omega
    rw [bind_some]
    change ((m.run [.append (ascendingPair n)]).bind fun y => some (replies ++ y.1, y.2)) = none
    rw [OrderedMap.run, hbound]
    rfl

/-- Ascending appends at fanout 8 run into the height bound: after 20043180705 of them the tree has
sixteen levels, and the next one fails the assertion. -/
theorem ascending_appends_panic : (∀ call ∈ ascending 20043180706, KeyScheme.fixed8.Admits call.pair.key) ∧
      (OrderedMap.new .fixed8 8 0).run (ascending 20043180706) = none ∧
      ¬ Refines .fixed8 8 0 (ascending 20043180706) := by
  have hrun : (OrderedMap.new .fixed8 8 0).run (ascending 20043180706) = none :=
    ascending_panics 0 (n := 20043180705) (by norm_num) (by norm_num)
  refine ⟨fun call hcall => ?_, hrun, ?_⟩
  · obtain ⟨i, -, rfl⟩ := List.mem_map.mp hcall
    exact ascendingPair_admits i
  · rintro ⟨replies, m, s, chain, hsome, -, -⟩
    rw [hrun] at hsome
    simp at hsome

end Run

end InfinityDB
