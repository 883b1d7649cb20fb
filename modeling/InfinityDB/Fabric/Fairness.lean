import InfinityDB.Fabric.Mesh

/-!
# The fairness of a drain

A drain starts at a rotating cursor. When its budget runs out the cursor moves one past the last peer
visited, and a peer passed over with its doorbell rung has its streak counted. The peers between the
cursor and a peer bound how often that peer can still be passed over: a budget never runs out in the
cell's own slot, which is empty.
-/

namespace InfinityDB.Fabric

open List Option

structure Cell (n : Nat) where
  mesh : Mesh n
  doorbell : Fin n → Bool
  skipStreak : Fin n → Nat
  skipStreakMax : Nat

namespace Cell

variable {n : Nat}

/-- A visit of cell `b` at a peer answers the bell and ends the streak. -/
def visit (b : Fin n) (c : Cell n) (a : Fin n) : Cell n :=
  if a = b then c
  else { c with doorbell := Function.update c.doorbell a false, skipStreak := Function.update c.skipStreak a 0 }

/-- A peer that the budget did not reach. -/
def skip (b : Fin n) (c : Cell n) (a : Fin n) : Cell n :=
  if a = b then c
  else if c.doorbell a then
    let streak := c.skipStreak a + 1
    { c with skipStreak := Function.update c.skipStreak a streak, skipStreakMax := max c.skipStreakMax streak }
  else { c with skipStreak := Function.update c.skipStreak a 0 }

/-- `Mesh.drain` with the bells and the streaks, which the frames do not depend on. -/
def drain (debug : Bool) (c : Cell n) (b : Fin n) (max : Nat) : Option (Cell n × List (Fin n × List Op) × Nat) := do
  let start := c.mesh.nextSource b
  let sources := c.mesh.sources b
  let (mesh, visits, drained, visited) ← Mesh.drainFrom debug max b sources c.mesh 0
  let c := (sources.take visited).foldl (visit b) { c with mesh }
  if max ≤ drained ∧ visited < n then
    let c := (sources.drop visited).foldl (skip b) c
    return ({ c with mesh := { mesh with nextSource := Function.update mesh.nextSource b ((start + visited) % n) } }, visits, drained)
  else return (c, visits, drained)

private theorem foldl_visit_mesh (b : Fin n) (l : List (Fin n)) (c : Cell n) : (l.foldl (visit b) c).mesh = c.mesh := by
  induction l generalizing c with
  | nil => rfl
  | cons x l ih =>
    rw [foldl_cons, ih, visit]
    split <;> rfl

end Cell

def Cell.new {n : Nat} (mesh : Mesh n) : Cell n := ⟨mesh, fun _ => false, fun _ => 0, 0⟩

structure DrainRecord (n : Nat) where
  visited : List (Fin n)
  budget : Nat
  drained : Nat

/-- Drains of cell `b` in order, with any frames and bells in between. -/
inductive Drains {n : Nat} (debug : Bool) (b : Fin n) (c₀ : Cell n) : List (DrainRecord n) → Cell n → Prop where
  | start : Drains debug b c₀ [] c₀
  | arrive {log : List (DrainRecord n)} {c : Cell n} (h : Drains debug b c₀ log c) (links : Fin n → Fin n → Link)
      (doorbell : Fin n → Bool) : Drains debug b c₀ log { c with mesh := { c.mesh with links }, doorbell }
  | drain {log : List (DrainRecord n)} {c c' : Cell n} {visits : List (Fin n × List Op)} {max drained : Nat}
      (h : Drains debug b c₀ log c) (hmax : 0 < max) (hdrain : c.drain debug b max = some (c', visits, drained)) :
      Drains debug b c₀ (log ++ [⟨visits.map Prod.fst, max, drained⟩]) c'

section Drain

variable {n : Nat} {debug : Bool} {max : Nat} {b : Fin n}

private theorem drainSource_nextSource {m m' : Mesh n} {a : Fin n} {drained drained' : Nat} {ops : List Op}
    (h : Mesh.drainSource debug max b m a drained = some (m', ops, drained')) :
    m'.nextSource = m.nextSource ∧ (a = b → drained' = drained) := by
  unfold Mesh.drainSource at h
  split at h
  · cases h
    exact ⟨rfl, fun _ => rfl⟩
  · next hab =>
    obtain ⟨_, -, hret⟩ := bind_eq_some_iff.mp h
    cases hret
    exact ⟨rfl, fun hself => absurd hself hab⟩

/-- A budget runs out in a peer's slot, never in the cell's own. -/
theorem drainFrom_spec {sources : List (Fin n)} {m m' : Mesh n} {drained drained' visited : Nat}
    {visits : List (Fin n × List Op)} (h : Mesh.drainFrom debug max b sources m drained = some (m', visits, drained', visited)) :
    m'.nextSource = m.nextSource ∧ visits.map Prod.fst = sources.take visited ∧
      (drained' < max → sources.length ≤ visited) ∧
      (drained < max → max ≤ drained' → ∃ a, a ≠ b ∧ 0 < visited ∧ sources[visited - 1]? = some a) := by
  induction sources generalizing m drained visits visited with
  | nil =>
    cases h
    exact ⟨rfl, rfl, fun _ => le_rfl, fun hlt hle => absurd hle (by omega)⟩
  | cons a sources ih =>
    unfold Mesh.drainFrom at h
    split at h
    · cases h
      exact ⟨rfl, rfl, fun hlt => absurd hlt (by omega), fun hlt => absurd hlt (by omega)⟩
    · obtain ⟨⟨m₁, ops, drained₁⟩, hsource, h⟩ := bind_eq_some_iff.mp h
      obtain ⟨⟨m₂, later, drained₂, more⟩, hrest, hret⟩ := bind_eq_some_iff.mp h
      cases hret
      obtain ⟨hsame, hself⟩ := drainSource_nextSource hsource
      obtain ⟨hnext, hvisits, hall, hlast⟩ := ih hrest
      refine ⟨hnext.trans hsame, by simp [hvisits], fun hlt => by simpa using hall hlt, fun hlt hle => ?_⟩
      by_cases hmore : drained₁ < max
      · obtain ⟨last, hne, hpos, hget⟩ := hlast hmore hle
        obtain ⟨k, rfl⟩ := Nat.exists_eq_succ_of_ne_zero hpos.ne'
        exact ⟨last, hne, by omega, by simpa using hget⟩
      · -- the budget ran out here, so nothing after this slot was visited
        have hstop : more = 0 := by
          cases sources with
          | nil => cases hrest; rfl
          | cons _ _ => rw [Mesh.drainFrom, if_pos (by omega)] at hrest; cases hrest; rfl
        subst hstop
        exact ⟨a, fun hab => by have := hself hab; omega, by omega, rfl⟩

end Drain

/-- The turn at which a drain that starts at `start` comes to slot `a`. -/
def turnOf (n start a : Nat) : Nat := if start ≤ a then a - start else a + n - start

/-- The slots before the turn of `a`, the cell's own slot `b` apart. -/
def ahead (n start b a : Nat) : Nat :=
  turnOf n start a - if turnOf n start b < turnOf n start a then 1 else 0

section Distance

variable {n start : Nat}

theorem ahead_le (start : Nat) {a b : Nat} (ha : a < n) (hb : b < n) (hab : a ≠ b) : ahead n start b a ≤ n - 2 := by
  grind [ahead, turnOf]

variable (hstart : start < n)
include hstart

theorem mod_eq_iff_turnOf {k a : Nat} (hk : k < n) (ha : a < n) : (start + k) % n = a ↔ turnOf n start a = k := by
  unfold turnOf
  rcases Nat.lt_or_ge (start + k) n with hlt | hge
  · rw [Nat.mod_eq_of_lt hlt]
    split <;> omega
  · rw [Nat.mod_eq_sub_mod hge, Nat.mod_eq_of_lt (by omega)]
    split <;> omega

private theorem ahead_lt {a b visited : Nat} (ha : a < n) (hb : b < n) (hpos : 0 < visited) (hlast : turnOf n start b ≠ visited - 1)
    (hskip : visited ≤ turnOf n start a) : ahead n ((start + visited) % n) b a < ahead n start b a := by
  have hvisited : visited < n := by
    unfold turnOf at hskip
    split at hskip <;> omega
  generalize hnext : (start + visited) % n = next
  have hturn := (mod_eq_iff_turnOf hstart hvisited (hnext ▸ Nat.mod_lt _ (by omega))).mp hnext
  have hlt : next < n := hnext ▸ Nat.mod_lt _ (by omega)
  clear hnext
  grind [ahead, turnOf]

end Distance

section Sources

variable {n : Nat} {m : Mesh n} {b : Fin n} (hstart : m.nextSource b < n)
include hstart

private theorem mem_take_sources {a : Fin n} {visited : Nat} :
    a ∈ (m.sources b).take visited ↔ turnOf n (m.nextSource b) a < visited := by
  have hturn : turnOf n (m.nextSource b) a < n := by
    unfold turnOf
    split <;> omega
  simp only [Mesh.sources, ← map_take, take_range, List.mem_map, mem_range, Fin.ext_iff]
  constructor
  · rintro ⟨k, hk, hmod⟩
    have := (mod_eq_iff_turnOf hstart (by omega) a.isLt).mp hmod
    omega
  · intro hlt
    exact ⟨_, by omega, (mod_eq_iff_turnOf hstart hturn a.isLt).mpr rfl⟩

private theorem sources_nodup : (m.sources b).Nodup := by
  apply List.Nodup.map_on ?_ nodup_range
  intro i hi j hj hij
  rw [mem_range] at hi hj
  have hmod := Fin.ext_iff.mp hij
  exact ((mod_eq_iff_turnOf hstart hi (Nat.mod_lt _ (by omega))).mp rfl).symm.trans
    ((mod_eq_iff_turnOf hstart hj (Nat.mod_lt _ (by omega))).mp hmod.symm)

end Sources

namespace Cell

variable {n : Nat} {b : Fin n}

theorem skip_le (c : Cell n) (x a : Fin n) : (c.skip b x).skipStreak a ≤ c.skipStreak a + if a = x then 1 else 0 := by
  unfold skip
  split_ifs <;> simp_all

private theorem foldl_visit (l : List (Fin n)) (c : Cell n) : (l.foldl (visit b) c).skipStreakMax = c.skipStreakMax ∧
      ∀ a, a ≠ b → (l.foldl (visit b) c).skipStreak a = if a ∈ l then 0 else c.skipStreak a := by
  induction l generalizing c with
  | nil => exact ⟨rfl, fun _ _ => rfl⟩
  | cons x l ih =>
    obtain ⟨hmax, hstreak⟩ := ih (c.visit b x)
    simp only [foldl_cons, hmax]
    refine ⟨by unfold visit; split <;> rfl, fun a ha => ?_⟩
    rw [hstreak a ha]
    by_cases hax : a = x <;> by_cases hxb : x = b <;> simp_all [visit]

private theorem foldl_skip {l : List (Fin n)} (hl : l.Nodup) (c : Cell n) (a : Fin n) :
    (l.foldl (skip b) c).skipStreak a ≤ c.skipStreak a + if a ∈ l then 1 else 0 := by
  induction l generalizing c with
  | nil => exact le_rfl
  | cons x l ih =>
    obtain ⟨hx, hl⟩ := nodup_cons.mp hl
    have hrest := ih hl (c.skip b x)
    have hskip := c.skip_le (b := b) x a
    grind

private theorem foldl_skip_max {l : List (Fin n)} (hl : l.Nodup) {bound : Nat} (c : Cell n) (hmax : c.skipStreakMax ≤ bound)
    (h : ∀ a ∈ l, a ≠ b → c.skipStreak a < bound) : (l.foldl (skip b) c).skipStreakMax ≤ bound := by
  induction l generalizing c with
  | nil => exact hmax
  | cons x l ih =>
    obtain ⟨hx, hl⟩ := nodup_cons.mp hl
    apply ih hl
    · grind [skip]
    · intro a ha hab
      have hskip := c.skip_le (b := b) x a
      grind

/-- A peer's streak and the peers still ahead of it make at most `n - 2`. -/
structure Fair (b : Fin n) (c : Cell n) : Prop where
  cursor : c.mesh.nextSource b < n
  streak : ∀ a, a ≠ b → c.skipStreak a + ahead n (c.mesh.nextSource b) b a ≤ n - 2
  streakMax : c.skipStreakMax ≤ n - 2

theorem Fair.drain {debug : Bool} {c c' : Cell n} {max drained : Nat} {visits : List (Fin n × List Op)} (hfair : Fair b c)
    (hmax : 0 < max) (h : c.drain debug b max = some (c', visits, drained)) :
    Fair b c' ∧ (drained < max → ∀ a, a ∈ visits.map Prod.fst) ∧ ∀ a, a ≠ b → a ∉ visits.map Prod.fst →
      ahead n (c'.mesh.nextSource b) b a < ahead n (c.mesh.nextSource b) b a := by
  obtain ⟨hstart, hstreak, hstreakMax⟩ := hfair
  obtain ⟨⟨mesh, _, _, visited⟩, hfrom, h⟩ := bind_eq_some_iff.mp h
  obtain ⟨hnext, hvisits, hall, hlast⟩ := drainFrom_spec hfrom
  obtain ⟨hmaxKept, hcleared⟩ := foldl_visit (b := b) ((c.mesh.sources b).take visited) { c with mesh }
  rw [show (c.mesh.sources b).length = n from by simp [Mesh.sources]] at hall
  have hmem (a : Fin n) (v : Nat) : a ∈ (c.mesh.sources b).take v ↔ _ := mem_take_sources hstart
  simp only [hmem] at hcleared
  have hturn (a : Fin n) : turnOf n (c.mesh.nextSource b) a < n := by
    unfold turnOf
    split <;> omega
  dsimp only at h
  split at h
  · next hstop =>
    cases h
    obtain ⟨last, hne, hpos, hget⟩ := hlast hmax hstop.1
    have hnodup := sources_nodup hstart
    have hdrop (a : Fin n) (ha : a ∈ (c.mesh.sources b).drop visited) : visited ≤ turnOf n (c.mesh.nextSource b) a :=
      not_lt.mp fun hlt => disjoint_take_drop hnodup le_rfl ((hmem a visited).mpr hlt) ha
    have hown : turnOf n (c.mesh.nextSource b) b ≠ visited - 1 := by
      intro hb
      have hslot := (mod_eq_iff_turnOf hstart (by omega) b.isLt).mpr hb
      rw [Mesh.sources, getElem?_map, getElem?_range (by omega)] at hget
      exact hne (Fin.ext ((Fin.ext_iff.mp (some.inj hget)).symm.trans hslot))
    have hahead (a : Fin n) (ha : visited ≤ turnOf n (c.mesh.nextSource b) a) :=
      ahead_lt hstart a.isLt b.isLt hpos hown ha
    refine ⟨⟨?_, fun a ha => ?_, ?_⟩, fun hlt => absurd hlt (by omega), fun a _ ha => ?_⟩
    · simpa using Nat.mod_lt _ (Fin.pos b)
    · have hbound := foldl_skip (b := b) (hnodup.sublist (drop_sublist visited _))
        (((c.mesh.sources b).take visited).foldl (visit b) { c with mesh }) a
      rw [hcleared a ha] at hbound
      simp only [Function.update_self]
      by_cases hlt : turnOf n (c.mesh.nextSource b) a < visited
      · rw [if_pos hlt, if_neg fun hin => absurd (hdrop a hin) (by omega)] at hbound
        have := ahead_le ((c.mesh.nextSource b + visited) % n) a.isLt b.isLt (Fin.val_ne_of_ne ha)
        omega
      · have := hahead a (by omega)
        have := hstreak a ha
        grind
    · apply foldl_skip_max (hnodup.sublist (drop_sublist visited _)) _ (hmaxKept.trans_le hstreakMax)
      intro a hin ha
      rw [hcleared a ha, if_neg (by have := hdrop a hin; omega)]
      have := hahead a (hdrop a hin)
      have := hstreak a ha
      omega
    · rw [hvisits, hmem] at ha
      simpa using hahead a (by omega)
  · next hstop =>
    cases h
    have hvisited : n ≤ visited := by omega
    refine ⟨⟨?_, fun a ha => ?_, hmaxKept.trans_le hstreakMax⟩, fun _ a => ?_, fun a _ ha => ?_⟩
    · rw [foldl_visit_mesh, hnext]
      exact hstart
    · rw [hcleared a ha, if_pos (by have := hturn a; omega), zero_add]
      exact ahead_le _ a.isLt b.isLt (Fin.val_ne_of_ne ha)
    · rw [hvisits, hmem]
      exact (hturn a).trans_le hvisited
    · rw [hvisits, hmem] at ha
      exact absurd ((hturn a).trans_le hvisited) ha

theorem Fair.new {config : MeshConfig} {m : Mesh n} (hnew : Mesh.new n config = some m) : Fair b (Cell.new m) := by
  have hcursor : m.nextSource b = 0 := by
    simp only [Mesh.new, ite_none_left_eq_some] at hnew
    obtain ⟨-, -, -, hnew⟩ := hnew
    split at hnew
    · cases hnew
      rfl
    · obtain ⟨_, -, hret⟩ := bind_eq_some_iff.mp hnew
      cases hret
      rfl
  refine ⟨hcursor ▸ Fin.pos b, fun a ha => ?_, zero_le⟩
  exact (zero_add _).trans_le (ahead_le _ a.isLt b.isLt (Fin.val_ne_of_ne ha))

end Cell

section Run

variable {n : Nat} {debug : Bool} {b : Fin n} {c₀ c : Cell n} {log : List (DrainRecord n)}

theorem Drains.fair (h : Drains debug b c₀ log c) (hfair : Cell.Fair b c₀) :
    Cell.Fair b c ∧ ∀ r ∈ log, r.drained < r.budget → ∀ a, a ∈ r.visited := by
  induction h with
  | start => exact ⟨hfair, nofun⟩
  | arrive _ _ _ ih => exact ⟨⟨ih.1.cursor, ih.1.streak, ih.1.streakMax⟩, ih.2⟩
  | drain _ hmax hdrain ih =>
    obtain ⟨hfair, hall, -⟩ := ih.1.drain hmax hdrain
    refine ⟨hfair, fun r hr => ?_⟩
    rcases mem_append.mp hr with hr | hr
    · exact ih.2 r hr
    · cases mem_singleton.mp hr
      exact hall

/-- Drains that pass over a peer use up the peers ahead of it. -/
theorem Drains.length_le (h : Drains debug b c₀ log c) (hfair : Cell.Fair b c₀) {a : Fin n} (ha : a ≠ b)
    (hskip : ∀ r ∈ log, a ∉ r.visited) : log.length + ahead n (c.mesh.nextSource b) b a ≤ n - 2 := by
  induction h with
  | start => simpa using ahead_le _ a.isLt b.isLt (Fin.val_ne_of_ne ha)
  | arrive _ _ _ ih => exact ih hskip
  | drain h hmax hdrain ih =>
    have hbefore := ih fun r hr => hskip r (mem_append_left _ hr)
    have hless := ((h.fair hfair).1.drain hmax hdrain).2.2 a ha (hskip _ mem_concat_self)
    rw [length_append, length_singleton]
    omega

end Run

end InfinityDB.Fabric
