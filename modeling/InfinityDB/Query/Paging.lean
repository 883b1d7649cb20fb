import InfinityDB.Query.PageSweep

/-!
# Paged range execution

With edges and keys of the lengths an index admits no page is refused and nothing panics. Together with
the sweep this gives the paging contract over any number of pages, budgets, suspensions and reports.
-/

namespace InfinityDB.Query

open Lib List Option

variable {keyType : IndexKeyType}

/-- A key that the tree's probe accepts and a resume may carry. -/
def KeyFits (keyType : IndexKeyType) (key : Bytes) : Prop := Access.edgeLenOk key.length keyType = true

def EdgeFits (keyType : IndexKeyType) : RangeEdge → Prop
  | .unbounded => True
  | .included key | .excluded key => KeyFits keyType key

theorem KeyFits.admits {key : Bytes} (h : KeyFits keyType key) : (keyScheme keyType).Admits key := by
  unfold KeyFits Access.edgeLenOk at h
  unfold keyScheme
  split at h <;> rename_i hfixed
  · rw [if_pos hfixed]
    exact beq_iff_eq.mp h
  · rw [if_neg hfixed]
    exact of_decide_eq_true (Bool.and_eq_true_iff.mp h).2

/-- Cursors that `next` will not panic on for their key. -/
def Seeks (S : KeyScheme) (c : OrderedCursor) : Prop := c.pos = .start ∨ S.Admits c.keyBuf

theorem seeks_pageStart {lo : RangeEdge} (hlo : EdgeFits keyType lo) {resume : Option PageResume}
    (hresume : ∀ r ∈ resume, KeyFits keyType r.key) : Seeks (keyScheme keyType) (pageStart lo resume).cursor := by
  have hedge : Seeks (keyScheme keyType) lo.start.cursor := by
    cases lo with
    | unbounded => exact .inl rfl
    | included key | excluded key => exact .inr (KeyFits.admits hlo)
  cases resume with
  | none => exact hedge
  | some r =>
    rw [pageStart]
    split
    · exact .inr (hresume r rfl).admits
    · exact hedge

namespace PageChain

/-- Nothing in the chain's state has a length that could panic or be refused. -/
structure Fit (s : PageChain (keyScheme keyType) 32) : Prop where
  typed : s.keyType = keyType
  lower : EdgeFits keyType s.lo
  cursor : Seeks (keyScheme keyType) s.pager.cursor
  keys : ∀ p, s.tree.Present p → KeyFits keyType p.key
  input : ∀ r ∈ s.resume, KeyFits keyType r.key
  served : ∀ r ∈ s.pager.lastRef, KeyFits keyType s.pager.lastKey
  unrefused : ∀ error, s.ended ≠ some (.refused error)

variable {s s' : PageChain (keyScheme keyType) 32} {lo hi : RangeEdge} {origin : Option PageResume}
  {V : Backing (keyScheme keyType)}

theorem Fit.resumePoint (h : s.Fit) : ∀ r ∈ s.resumePoint, KeyFits keyType r.key := by
  intro r hr
  unfold PageChain.resumePoint RangePager.finish at hr
  rcases or_eq_some_iff.mp hr with hr | ⟨-, hr⟩
  · obtain ⟨entryRef, href, rfl⟩ := map_eq_some_iff.mp hr
    exact h.served entryRef (eq_some_of_filter_eq_some href)
  · exact h.input r hr

theorem Fit.new (h : s.Fit) {scanBudget : Nat} (hbudget : 1 ≤ scanBudget) :
    ∃ pager, RangePager.new s.lo s.hi s.resumePoint s.keyType scanBudget s.limitLeft = some (.ok pager) := by
  have hlen : ¬ (s.resumePoint.any fun r => !Access.edgeLenOk r.key.length s.keyType) = true := by
    intro hany
    cases hr : s.resumePoint with
    | none => simp [hr] at hany
    | some r =>
      have hfits := h.resumePoint r hr
      rw [KeyFits, ← h.typed] at hfits
      simp [hr, hfits] at hany
  unfold RangePager.new
  rw [if_neg (Nat.not_lt.mpr hbudget), if_neg hlen]
  exact ⟨_, rfl⟩

theorem Inv.next_isSome (h : s.Inv lo hi origin V) (hfit : s.Fit) (hidle : s.idle < 2 ^ 64) :
    ∃ out, s.pager.next s.tree = some out := by
  unfold RangePager.next
  split
  · exact ⟨_, rfl⟩
  obtain ⟨pos, hpos, haims⟩ := OrderedCursor.position_aims h.backs h.tracks hidle
    fun _ hne => ⟨hfit.cursor.resolve_left hne, h.backs.height_lt (by decide)⟩
  rcases OrderedCursor.next_aimed h.backs hpos haims with ⟨hnext, -⟩ | ⟨p, c, hnext, -⟩
  · rw [run_bind hnext]
    exact ⟨_, rfl⟩
  · rw [run_bind hnext]
    dsimp only
    split
    · exact ⟨_, rfl⟩
    · exact ⟨_, rfl⟩

/-- Budgets are positive and the keys of calls fit. -/
def Proper (keyType : IndexKeyType) : PageEvent → Prop
  | .turn scanBudget => 1 ≤ scanBudget
  | .call call => KeyFits keyType call.pair.key
  | _ => True

theorem Inv.step_isSome (h : s.Inv lo hi origin V) (hfit : s.Fit) {event : PageEvent} (hproper : Proper keyType event)
    (hidle : event = .next → s.idle < 2 ^ 64) : ∃ s', s.step event = some s' := by
  cases event with
  | next =>
    unfold PageChain.step
    dsimp only
    split
    · exact ⟨s, rfl⟩
    · obtain ⟨⟨out, pager⟩, hnext⟩ := h.next_isSome hfit (hidle rfl)
      rw [run_bind hnext]
      cases out with
      | none | some p => exact ⟨_, rfl⟩
  | countMatch =>
    unfold PageChain.step
    dsimp only
    split
    · exact ⟨s, rfl⟩
    · exact ⟨_, rfl⟩
  | turn scanBudget =>
    unfold PageChain.step
    dsimp only
    split
    · exact ⟨s, rfl⟩
    · unfold PageChain.turn
      dsimp only
      split
      · obtain ⟨pager, hnew⟩ := hfit.new hproper
        exact ⟨_, congrArg (Option.map _) hnew⟩
      · exact ⟨_, rfl⟩
  | call call =>
    obtain ⟨reply, m, V', hstep, -⟩ := h.backs.step (by decide) rfl (h.backs.height_lt (by decide)) hproper.admits
    exact ⟨_, run_bind hstep _⟩

theorem Fit.moves (hfit : s.Fit) (h : s.Inv lo hi origin V) {event : PageEvent} (hproper : Proper keyType event)
    (hidle : event = .next → s.idle < 2 ^ 64) (hmoves : s.Moves event s') : s'.Fit := by
  have hseeks {found : Option Pair} {cursor : OrderedCursor}
      (hnext : s.pager.cursor.next s.tree = some (found, cursor)) (hi : s.idle < 2 ^ 64) :
      Seeks (keyScheme keyType) cursor ∧ ∀ p ∈ found, KeyFits keyType p.key := by
    obtain ⟨hisNext, hcursor⟩ := h.visit hi hnext
    cases found with
    | none =>
      have hsame : cursor = s.pager.cursor := hcursor
      exact ⟨by rw [hsame]; exact hfit.cursor, nofun⟩
    | some p =>
      refine ⟨.inr hcursor.2.1, ?_⟩
      rintro q ⟨⟩
      exact hfit.keys p ((h.backs.present_iff p).mpr hisNext.1)
  cases hmoves with
  | past => exact hfit
  | @rest pager hnext =>
    rcases RangePager.next_cases hnext with ⟨-, -, rfl⟩ | ⟨-, found, cursor, hfound, hout⟩
    · exact { hfit with }
    have hcursor := (hseeks hfound (hidle rfl)).1
    have hpager : pager = { s.pager with cursor, done := true } := by
      cases found with
      | none => exact hout.2
      | some p =>
        dsimp only at hout
        split at hout
        · exact absurd hout.1 (by simp)
        · exact hout.2
    subst hpager
    exact { hfit with cursor := hcursor }
  | @hand p pager hnext =>
    rcases RangePager.next_cases hnext with ⟨-, hnone, -⟩ | ⟨-, found, cursor, hfound, hout⟩
    · simp at hnone
    obtain ⟨hcursor, hkey⟩ := hseeks hfound (hidle rfl)
    cases found with
    | none => exact absurd hout.1 (by simp)
    | some q =>
      dsimp only at hout
      split at hout
      · obtain ⟨hq, rfl⟩ := hout
        exact { hfit with cursor := hcursor, served := fun _ _ => hkey q rfl }
      · exact absurd hout.1 (by simp)
  | countMatch =>
    have hsame : s.pager.countMatch.cursor = s.pager.cursor ∧ s.pager.countMatch.lastRef = s.pager.lastRef ∧
        s.pager.countMatch.lastKey = s.pager.lastKey := by
      unfold RangePager.countMatch
      split
      · exact ⟨rfl, rfl, rfl⟩
      · split <;> exact ⟨rfl, rfl, rfl⟩
    obtain ⟨hcursor, href, hkey⟩ := hsame
    exact { hfit with
      cursor := by rw [hcursor]; exact hfit.cursor
      served := by rw [href, hkey]; exact hfit.served }
  | complete => exact { hfit with unrefused := nofun }
  | refuse hnew =>
    obtain ⟨pager, hok⟩ := hfit.new hproper
    exact absurd (hok.symm.trans hnew) nofun
  | fresh hdone hnew =>
    obtain rfl := RangePager.new_ok hnew
    exact { hfit with
      cursor := seeks_pageStart hfit.lower hfit.resumePoint
      input := hfit.resumePoint
      served := nofun }
  | call hcall =>
    obtain ⟨V', hanswers, hb, -⟩ := h.backs.step_of_some (by decide) rfl hcall
    refine { hfit with keys := fun p hp => ?_ }
    rcases hanswers.subset p ((hb.present_iff p).mp hp) with rfl | hold
    · exact hproper
    · exact hfit.keys p ((h.backs.present_iff p).mpr hold)

/-- Run lemma: the whole chain returns and no page is refused. -/
theorem Inv.run_isSome (h : s.Inv lo hi origin V) (hfit : s.Fit) {events : List PageEvent}
    (hproper : ∀ event ∈ events, Proper keyType event) (hfresh : s.FreshPages events) :
    ∃ s', s.run events = some s' ∧ s'.Fit := by
  induction events generalizing s V with
  | nil => exact ⟨s, rfl, hfit⟩
  | cons event events ih =>
    have hhead := hproper event mem_cons_self
    obtain ⟨s₁, hstep⟩ := h.step_isSome hfit hhead hfresh.head
    have hmoves := step_moves hstep
    obtain ⟨V₁, h₁⟩ := h.moves (by decide) rfl hfresh.head hmoves
    obtain ⟨s', hrun, hfit'⟩ := ih h₁ (hfit.moves h hhead hfresh.head hmoves)
      (forall_mem_cons.mp hproper).2 (hfresh.tail hstep)
    exact ⟨s', by rw [run_cons, run_bind hstep, hrun], hfit'⟩

private theorem fit_start {m : IndexTree keyType} {limit : Option Nat} {scanBudget : Nat}
    (h : PageChain.start m lo hi keyType origin limit scanBudget = some (.ok s)) (hlo : EdgeFits keyType lo)
    (hkeys : ∀ p, m.Present p → KeyFits keyType p.key) : s.Fit := by
  have hinput : ∀ r ∈ origin, KeyFits keyType r.key := by
    intro r hr
    obtain rfl := mem_def.mp hr
    by_contra hbad
    have hrefused : (some r).any (fun r => !Access.edgeLenOk r.key.length keyType) = true := by
      simpa [KeyFits] using hbad
    unfold PageChain.start RangePager.new at h
    rw [if_pos hrefused] at h
    split at h
    · exact absurd h nofun
    · exact absurd h nofun
  obtain rfl := start_ok h
  exact ⟨rfl, hlo, seeks_pageStart hlo hinput, hkeys, hinput, nofun, nofun⟩

end PageChain

/-- What a chain has handed out, as long as no epoch came round: an ascending run of candidates in the
range that skips no pair that stayed; over a still tree the first pairs of the range. Where the page
reports no more, the limit is reached or the range was exhausted, and then nothing that stayed is missing.
A call that hands out nothing, with budget and limit left, does report no more. -/
structure HandsOut (lo hi : RangeEdge) (origin : Option PageResume) (limit : Option Nat) {S : KeyScheme} {F : Nat}
    (s : PageChain S F) : Prop where
  ascending : s.handed.Pairwise (· < ·)
  inRange : ∀ p ∈ s.handed, InRange lo hi origin p
  advances : ∀ pager, s.pager.next s.tree = some (none, pager) → s.pager.scanned < s.pager.scanBudget →
    limit ≠ some s.total → pager.finish.more = false
  noMore : s.pager.finish.more = false → limit = some s.total ∨ s.Exhausted lo hi origin
  stayed : ∀ p, InRange lo hi origin p → (∀ m ∈ s.history, m.Present p) →
    (∃ q ∈ s.handed, p ≤ q) ∨ s.pager.finish.more = false ∧ limit ≠ some s.total → s.handed.count p = 1
  still : ∀ chain, (∀ m ∈ s.history, m.leafChain = some chain) →
    s.handed <+: chain.filter (InRange lo hi origin ·) ∧
    (s.pager.finish.more = false → limit ≠ some s.total → s.handed = chain.filter (InRange lo hi origin ·))

variable {S : KeyScheme}

theorem PageChain.Inv.handsOut {F : Nat} {lo hi : RangeEdge} {origin : Option PageResume}
    {s : PageChain S F} {V : Backing S} (h : s.Inv lo hi origin V) {limit : Option Nat} (hcounts : s.Counts limit) :
    HandsOut lo hi origin limit s := by
  have hnoMore : s.pager.finish.more = false → limit = some s.total ∨ s.Exhausted lo hi origin := by
    intro hmore
    have hdone : s.pager.done = true := by simpa [RangePager.finish] using hmore
    exact (h.ends hdone).imp_left hcounts.reached_iff.mpr
  have hexhausted (hmore : s.pager.finish.more = false) (hlimit : limit ≠ some s.total) : s.Exhausted lo hi origin :=
    (hnoMore hmore).resolve_left hlimit
  have hadvances (pager : RangePager) (hnext : s.pager.next s.tree = some (none, pager))
      (hbudget : s.pager.scanned < s.pager.scanBudget) (hlimit : limit ≠ some s.total) :
      pager.finish.more = false := by
    have hdone := RangePager.done_of_next hnext hbudget fun hzero => hlimit (hcounts.reached_iff.mpr hzero)
    simp [RangePager.finish, hdone]
  refine ⟨h.ascending.1, h.ascending.2, hadvances, hnoMore, fun p hin hthere hwhen => ?_, fun chain hstill => ?_⟩
  · rcases hwhen with ⟨q, hq, hle⟩ | ⟨hmore, hlimit⟩
    · exact h.survivor hin hthere hq hle
    · exact h.all_survivors (hexhausted hmore hlimit) hin hthere
  · obtain ⟨hstarts, hwhole⟩ := h.still hstill
    exact ⟨hstarts, fun hmore hlimit => hwhole (hexhausted hmore hlimit)⟩

/-- Paged range execution over any chain of pages on an index tree that changes at will: the matches
never pass the limit and nothing is handed out after it; with fewer than 2^64 changes between two
visits of a cursor the candidates are as `HandsOut` says; with keys of the index's length every call returns. -/
theorem paged_range_execution {keyType : IndexKeyType} {ceiling : UInt32} {calls : List Call} {replies : List Reply}
    {m : IndexTree keyType} (hm : (OrderedMap.new (keyScheme keyType) 32 ceiling).run calls = some (replies, m))
    {lo hi : RangeEdge} {origin : Option PageResume} {limit : Option Nat} {scanBudget : Nat}
    {s₀ : PageChain (keyScheme keyType) 32}
    (hstart : PageChain.start m lo hi keyType origin limit scanBudget = some (.ok s₀)) (events : List PageEvent) :
    (∀ s, s₀.run events = some s → (∀ most, limit = some most → s.total ≤ most) ∧
      (limit = some s.total → ∀ later s', s.run later = some s' → s'.handed = s.handed) ∧
      (s₀.FreshPages events → HandsOut lo hi origin limit s)) ∧
    (s₀.FreshPages events → EdgeFits keyType lo → (∀ p, m.Present p → KeyFits keyType p.key) →
      (∀ event ∈ events, PageChain.Proper keyType event) →
      ∃ s, s₀.run events = some s ∧ ∀ error, s.ended ≠ some (.refused error)) := by
  obtain ⟨V, hb⟩ := (backs_new (keyScheme keyType) 32 ceiling).after_run (by decide) rfl hm
  have hinv := PageChain.inv_start hb hstart
  have hcounts := PageChain.counts_start hstart
  refine ⟨fun s hrun => ?_, fun hfresh hlo hkeys hproper => ?_⟩
  · have hcounts' : s.Counts limit := PageChain.run_induct (fun _ _ _ h hmoves => h.moves hmoves) hcounts hrun
    refine ⟨fun most => hcounts'.total_le, fun hreached later s' => hcounts'.run_reached hreached, fun hfresh => ?_⟩
    obtain ⟨V', hinv'⟩ := hinv.run (by decide) rfl hfresh hrun
    exact hinv'.handsOut hcounts'
  · obtain ⟨s, hrun, hfit⟩ := hinv.run_isSome (PageChain.fit_start hstart hlo hkeys) hproper hfresh
    exact ⟨s, hrun, hfit.unrefused⟩

theorem PageChain.Moves.idle_le {F : Nat} {s s' : PageChain S F} {event : PageEvent}
    (h : s.Moves event s') : s'.idle ≤ s.idle + 1 := by
  cases h with
  | past | rest | countMatch | complete | refuse => exact Nat.le_succ _
  | hand | fresh => exact zero_le
  | call => exact Nat.add_le_add_left (Bool.toNat_le _) _

/-- Short chains never come near the wrap. -/
theorem PageChain.freshPages_of_length {F : Nat} {s : PageChain S F} {events : List PageEvent}
    (h : s.idle + events.length ≤ 2 ^ 64) : s.FreshPages events := by
  intro before after s' hsplit hrun
  have hidle : s'.idle ≤ s.idle + before.length := by
    clear h hsplit
    induction before generalizing s with
    | nil =>
      obtain rfl : s = s' := by simpa [PageChain.run] using hrun
      exact Nat.le_refl _
    | cons event before ih =>
      rw [PageChain.run_cons] at hrun
      obtain ⟨s₁, hstep, hrest⟩ := bind_eq_some_iff.mp hrun
      have hstep' := (PageChain.step_moves hstep).idle_le
      have hrest' := ih hrest
      rw [length_cons]
      omega
  rw [hsplit, length_append, length_cons] at h
  omega

def indexLeaf (refs : List UInt64) (epoch : UInt64) : IndexTree .i64 :=
  ⟨⟨[⟨none, refs.map fun r => ⟨0, (), r⟩⟩], []⟩, Pool.new, KeyHeap.new 0, some 0, 0, refs.length, epoch, 0⟩

/-- Two pages over a tree that changes between them. -/
def twoPages : List PageEvent :=
  [.next, .turn 2, .call (.remove (refPair 0)), .call (.insert (refPair 2)), .next, .countMatch, .next, .turn 1, .next]

private theorem indexLeaf_built : (OrderedMap.new (keyScheme .i64) 32 0).run [.insert (refPair 0), .insert (refPair 1)] =
    some ([.inserted (.ok true), .inserted (.ok true)], indexLeaf [0, 1] 2) :=
  rfl

/-- The first page over the whole of that index. -/
def wholeIndex (limit : Option Nat) (scanBudget : Nat) : PageChain (keyScheme .i64) 32 :=
  ⟨indexLeaf [0, 1] 2, .unbounded, .unbounded, .i64, none, limit,
    ⟨.fromStart, .unbounded, scanBudget, 0, 0, limit, false, [], none⟩, 0, none, [], [indexLeaf [0, 1] 2], 0⟩

theorem paged_range_execution_two_pages :
    ∃ s, PageChain.start (indexLeaf [0, 1] 2) .unbounded .unbounded .i64 none (some 9) 1 =
        some (.ok (wholeIndex (some 9) 1)) ∧
      (wholeIndex (some 9) 1).run twoPages = some s ∧ s.handed = [refPair 0, refPair 1, refPair 2] ∧ s.total = 1 ∧
      s.pager.finish.more = false ∧ HandsOut .unbounded .unbounded none (some 9) s ∧ ∀ error, s.ended ≠ some (.refused error) := by
  have hstart : PageChain.start (indexLeaf [0, 1] 2) .unbounded .unbounded .i64 none (some 9) 1 =
    some (.ok (wholeIndex (some 9) 1)) := rfl
  have h := paged_range_execution indexLeaf_built hstart twoPages
  have hfresh : (wholeIndex (some 9) 1).FreshPages twoPages := PageChain.freshPages_of_length (by decide)
  obtain ⟨s, hrun, hended⟩ := h.2 hfresh trivial (by
      rintro p ⟨chain, hchain, hp⟩
      obtain rfl : [refPair 0, refPair 1] = chain := some.inj hchain
      simp only [mem_cons, not_mem_nil, or_false] at hp
      rcases hp with rfl | rfl <;> rfl)
    (by
      intro event hevent
      simp only [twoPages, mem_cons, not_mem_nil, or_false] at hevent
      rcases hevent with rfl | rfl | rfl | rfl | rfl | rfl | rfl | rfl | rfl
      all_goals first | trivial | exact Nat.le_refl _ | exact Nat.le_succ 1)
  cases hrun
  exact ⟨_, hstart, rfl, rfl, rfl, rfl, (h.1 _ rfl).2.2 hfresh, hended⟩

def flickerPages : List PageEvent := [.call (.insert (refPair 2)), .call (.remove (refPair 2))]

/-- Hand out one candidate, remove it, make 2^64 changes in all, and read the page to its end. -/
def comeRoundPages : List PageEvent :=
  [.next, .call (.remove (refPair 0))] ++ (List.replicate (2 ^ 63 - 1) flickerPages).flatten ++
    [.call (.insert (refPair 2)), .next, .next]

theorem indexLeaf_one (e : UInt64) : (indexLeaf [1] e).Present (refPair 1) := ⟨[refPair 1], rfl, by decide⟩

theorem indexLeaf_one_two (e : UInt64) : (indexLeaf [1, 2] e).Present (refPair 1) :=
  ⟨[refPair 1, refPair 2], rfl, by decide⟩

private theorem flickerPages_run (n : Nat) (s : PageChain (keyScheme .i64) 32) (e : UInt64) (htree : s.tree = indexLeaf [1] e)
    (hthere : ∀ m ∈ s.history, m.Present (refPair 1)) : ∃ history idle, s.run (List.replicate n flickerPages).flatten =
        some { s with tree := indexLeaf [1] (e + UInt64.ofNat (2 * n)), history, idle } ∧
      ∀ m ∈ history, m.Present (refPair 1) := by
  induction n generalizing s e with
  | zero =>
    refine ⟨s.history, s.idle, ?_, hthere⟩
    rw [show e + UInt64.ofNat (2 * 0) = e from UInt64.add_zero e, ← htree]
    rfl
  | succ n ih =>
    obtain ⟨tree, lo, hi, keyType, resume, limit, pager, matched, ended, handed, history, idle⟩ := s
    obtain rfl := htree
    obtain ⟨history', idle', hrun, hthere'⟩ :=
      ih ⟨indexLeaf [1] (e + 1 + 1), lo, hi, keyType, resume, limit, pager, matched, ended, handed,
        history ++ [indexLeaf [1, 2] (e + 1)] ++ [indexLeaf [1] (e + 1 + 1)], idle + 1 + 1⟩ (e + 1 + 1) rfl (by
          intro m hm
          simp only [mem_append, mem_singleton] at hm
          rcases hm with (hm | rfl) | rfl
          · exact hthere m hm
          · exact indexLeaf_one_two _
          · exact indexLeaf_one _)
    refine ⟨history', idle', ?_, hthere'⟩
    rw [replicate_succ, flatten_cons, PageChain.run_append, Nat.mul_succ, add_comm (2 * n) 2,
      UInt64.ofNat_add, show UInt64.ofNat 2 = 1 + 1 from rfl, ← UInt64.add_assoc e, ← UInt64.add_assoc e 1 1]
    exact hrun

/-- After 2^64 changes the page reports that there is no more, with the limit not reached, and a pair
that was there all along is not handed out. -/
theorem page_skips_when_epoch_comes_round :
    ∃ s, PageChain.start (indexLeaf [0, 1] 2) .unbounded .unbounded .i64 none none 8 = some (.ok (wholeIndex none 8)) ∧
      (wholeIndex none 8).run comeRoundPages = some s ∧ s.pager.finish.more = false ∧
      InRange .unbounded .unbounded none (refPair 1) ∧ (∀ m ∈ s.history, m.Present (refPair 1)) ∧
      s.handed = [refPair 0, refPair 2] ∧
      (OrderedMap.new (keyScheme .i64) 32 0).run [.insert (refPair 0), .insert (refPair 1)] =
        some ([.inserted (.ok true), .inserted (.ok true)], indexLeaf [0, 1] 2) := by
  obtain ⟨history, idle, hrun, hthere⟩ := flickerPages_run (2 ^ 63 - 1) { wholeIndex none 8 with
      tree := indexLeaf [1] 3
      pager := ⟨⟨.after, [0, 0, 0, 0, 0, 0, 0, 0], 0, some 0, 0, 2⟩, .unbounded, 8, 1, 0, none, false,
        [0, 0, 0, 0, 0, 0, 0, 0], some 0⟩
      handed := [refPair 0], history := [indexLeaf [0, 1] 2, indexLeaf [1] 3], idle := 1 } 3 rfl (by
        intro m hm
        simp only [mem_cons, not_mem_nil, or_false] at hm
        rcases hm with rfl | rfl
        · exact ⟨[refPair 0, refPair 1], rfl, by decide⟩
        · exact indexLeaf_one _)
  rw [show (3 : UInt64) + UInt64.ofNat (2 * (2 ^ 63 - 1)) = 1 from rfl] at hrun
  refine ⟨{ wholeIndex none 8 with
      tree := indexLeaf [1, 2] 2
      pager := ⟨⟨.after, [0, 0, 0, 0, 0, 0, 0, 0], 2, some 0, 1, 2⟩, .unbounded, 8, 2, 0, none, true,
        [0, 0, 0, 0, 0, 0, 0, 0], some 2⟩
      handed := [refPair 0, refPair 2], history := history ++ [indexLeaf [1, 2] 2], idle := 0 },
    rfl, ?_, rfl, by decide, ?_, rfl, rfl⟩
  · have hfirst : (wholeIndex none 8).run [.next, .call (.remove (refPair 0))] = some _ := rfl
    rw [comeRoundPages, append_assoc, PageChain.run_append, run_bind hfirst, PageChain.run_append]
    exact run_bind hrun _
  · exact forall_mem_append.mpr ⟨hthere, forall_mem_singleton.mpr (indexLeaf_one_two _)⟩

end InfinityDB.Query
