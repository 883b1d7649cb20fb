import InfinityDB.Replay.Strings

/-!
# Replay converges

Loading the images of a fuzzy checkpoint and replaying the records staged since it began gives what the live
store shows. A key that was logged since is settled by its last record, whatever the images say; a key that
was not has been the same all along, so any image of it is right.
-/

namespace InfinityDB.Replay

open Lib List Option

variable {s s' : Store} {key key' : Key} {now later : Nat} {anchor : WallAnchor}

/-- What is left of an image at a reading. -/
def settle (image : Option Entry) (now : Nat) : Option Entry := image.filter fun e => !e.isExpired now

theorem settle_some (e : Entry) (now : Nat) : settle (some e) now = if e.isExpired now then none else some e := by
  rw [settle, filter_some]
  cases e.isExpired now <;> rfl

variable {e : Entry} {shots : List Shot}

theorem isExpired_mono (hle : now ≤ later) (h : e.isExpired now = true) : e.isExpired later = true := by
  obtain ⟨ms, hms, hlt⟩ := (Option.any_eq_true _ _).mp h
  exact (Option.any_eq_true _ _).mpr ⟨ms, hms, decide_eq_true (Nat.lt_of_lt_of_le (of_decide_eq_true hlt) hle)⟩

theorem settle_settle (image : Option Entry) (hle : now ≤ later) : settle (settle image now) later = settle image later := by
  cases image with
  | none => rfl
  | some e =>
    rw [settle_some e now]
    split
    next hexpired =>
      rw [settle_some, if_pos (isExpired_mono hle hexpired)]
      rfl
    · rfl

theorem find_eq_settle : s.find key now = settle (s key) now := rfl

theorem find_reap (hle : now ≤ later) : (s.reap key' now).find key later = s.find key later := by
  rw [Store.reap]
  split
  next hany =>
    by_cases hkey : key = key'
    · obtain ⟨e, he, hexpired⟩ := (Option.any_eq_true _ _).mp hany
      rw [find_eq_settle, find_eq_settle, hkey, Function.update_self, he, settle_some, if_pos (isExpired_mono hle hexpired)]
      rfl
    · rw [find_eq_settle, Function.update_of_ne hkey, find_eq_settle]
  · rfl

/-- The stores agree off the keys. -/
def Only (keys : List Key) (s s' : Store) : Prop := ∀ key ∉ keys, s' key = s key

/-- Every record is within the bounds a write checks. -/
def Bounded (s : Store) : Prop := ∀ key e, s key = some e → checkBounds key e.value = true

theorem only_put : Only [key] s (s.put key e) := by
  intro other hother
  exact Function.update_of_ne (by simpa using hother) _ _

theorem only_del : Only [key] s (s.del key) := by
  intro other hother
  exact Function.update_of_ne (by simpa using hother) _ _

theorem only_reap : Only [key] s (s.reap key now) := by
  rw [Store.reap]
  split
  · exact only_del
  · intro _ _
    rfl

theorem Bounded.put (h : Bounded s) (he : checkBounds key e.value = true) : Bounded (s.put key e) := by
  intro other e' he'
  by_cases hother : other = key
  · rw [hother, Store.put, Function.update_self, some.injEq] at he'
    rw [hother, ← he']
    exact he
  · rw [Store.put, Function.update_of_ne hother] at he'
    exact h other e' he'

theorem Bounded.del (h : Bounded s) (key : Key) : Bounded (s.del key) := by
  intro other e' he'
  by_cases hother : other = key
  · rw [hother, Store.del, Function.update_self] at he'
    simp at he'
  · rw [Store.del, Function.update_of_ne hother] at he'
    exact h other e' he'

theorem Bounded.reap (h : Bounded s) (key : Key) (now : Nat) : Bounded (s.reap key now) := by
  rw [Store.reap]
  split
  · exact h.del key
  · exact h

/-- What a command keeps: the other keys, and the bounds. -/
def Fits (keys : List Key) (s s' : Store) : Prop := Only keys s s' ∧ (Bounded s → Bounded s')

theorem fits_put (he : checkBounds key e.value = true) : Fits [key] s (s.put key e) := ⟨only_put, fun h => h.put he⟩

theorem fits_del : Fits [key] s (s.del key) := ⟨only_del, fun h => h.del key⟩

theorem fits_reap : Fits [key] s (s.reap key now) := ⟨only_reap, fun h => h.reap key now⟩

theorem fits_refl {keys : List Key} : Fits keys s s := ⟨fun _ _ => rfl, id⟩

private theorem fits_set {value : Bytes} {cond : SetCond} {expiry : SetExpire}
    (h : s.set key now value cond expiry = some s') : Fits [key] s s' := by
  rw [Store.set] at h
  split at h
  · simp at h
  rename_i hbounds
  rw [Bool.not_eq_true, Bool.not_eq_false'] at hbounds
  dsimp only at h
  split at h
  · rw [← some.inj h]
    exact fits_reap
  · split at h <;> rw [← some.inj h]
    · exact fits_put hbounds
    · exact fits_put hbounds
    · exact fits_put hbounds
    · exact fits_del

private theorem fits_modify {next : Option Bytes → Option Bytes} (h : s.modify key now next = some s') : Fits [key] s s' := by
  obtain ⟨value, -, h⟩ := bind_eq_some_iff.mp h
  split at h
  next hbounds =>
    rw [← some.inj h]
    exact fits_put hbounds
  · simp at h

private theorem fits_expire {deadline : Option Deadline} {cond : ExpireCond} : Fits [key] s (s.expire key now deadline cond) := by
  rw [Store.expire]
  split
  · exact fits_reap
  rename_i e he
  have hkeep (expiry : Option Nat) : Fits [key] s (s.put key ⟨e.value, expiry⟩) :=
    ⟨only_put, fun h => h.put (h key e (eq_some_of_filter_eq_some he))⟩
  split
  · exact fits_refl
  · split
    · exact hkeep none
    · split
      · exact hkeep _
      · exact fits_del
    · exact fits_del

private theorem fits_rename {source target : Key} {renamed : Bool} (h : s.rename now source target = some (s', renamed)) :
    Fits [source, target] s s' := by
  have hreap : Fits [source, target] s (s.reap source now) :=
    ⟨fun other hother => only_reap other (by simp_all), fits_reap.2⟩
  rw [Store.rename] at h
  split at h
  · cases h
    exact hreap
  split at h
  · cases h
    exact hreap
  · split at h
    next hbounds =>
      cases h
      refine ⟨fun other hother => ?_, fun hb => (hb.put hbounds).del source⟩
      rw [only_del other (by simp_all), only_put other (by simp_all)]
    · simp at h

theorem fits_foldl {α : Type} (step : Store → α → Store) (keyOf : α → Key) (xs : List α)
    (hstep : ∀ x ∈ xs, ∀ s, Fits [keyOf x] s (step s x)) (s : Store) : Fits (xs.map keyOf) s (xs.foldl step s) := by
  induction xs generalizing s with
  | nil => exact fits_refl
  | cons x rest ih =>
    have hfirst := hstep x mem_cons_self s
    have hrest := ih (forall_mem_cons.mp hstep).2 (step s x)
    refine ⟨fun other hother => ?_, fun h => hrest.2 (hfirst.2 h)⟩
    rw [map_cons, mem_cons, not_or] at hother
    rw [foldl_cons, hrest.1 other hother.2, hfirst.1 other (by simpa using hother.1)]

private theorem fits_setPairs {pairs : List (Key × Bytes)} (h : Command.pairsWithinBounds pairs = true) :
    Fits (pairs.map Prod.fst) s (Command.setPairs s pairs) := by
  apply fits_foldl
  intro p hp s
  exact fits_put (List.all_eq_true.mp h p hp)

private theorem fits_reply {keys : List Key} {found : Store} {done : Option Store} (hfound : Fits keys s found)
    (hdone : ∀ s', done = some s' → Fits keys s s') : Fits keys s (Command.reply found done).1 := by
  cases done with
  | none => exact hfound
  | some s' => exact hdone s' rfl

theorem fits_exec (now : Nat) (s : Store) (c : Command) : Fits c.keys s (c.exec now s).1 := by
  cases c with
  | set key value cond expiry => exact fits_reply fits_refl fun _ => fits_set
  | mset pairs =>
    rw [Command.exec]
    split
    next hbounds => exact fits_setPairs hbounds
    · exact fits_refl
  | msetnx pairs =>
    rw [Command.exec]
    split
    · exact fits_refl
    next hbounds =>
      split
      · exact fits_refl
      · exact fits_setPairs (by simpa using hbounds)
  | append key tail => exact fits_reply fits_reap fun _ => fits_modify
  | setRange key offset patch =>
    rw [Command.exec]
    split
    · exact fits_reap
    · exact fits_reply fits_reap fun _ => fits_modify
  | incr key next => exact fits_reply fits_reap fun _ => fits_modify
  | getdel key => exact fits_del
  | del keys =>
    have hall := fits_foldl Store.del id keys (fun key _ s => fits_del) s
    rwa [List.map_id] at hall
  | expire key deadline cond | persist key => exact fits_expire
  | getex key update =>
    cases update with
    | none => exact fits_reap
    | some deadline => exact fits_expire
  | rename source target =>
    rw [Command.exec]
    cases hrename : s.rename now source target with
    | none => exact fits_refl
    | some out => exact fits_rename hrename

private theorem reply_refused {found : Store} {done : Option Store} (h : (Command.reply found done).2 = true) :
    (Command.reply found done).1 = found := by
  rw [Command.reply, isNone_iff_eq_none.mp h]
  rfl

/-- A refused command changes nothing that a later reading shows. -/
private theorem find_refused {c : Command} (hle : now ≤ later) (h : (c.exec now s).2 = true) :
    (c.exec now s).1.find key later = s.find key later := by
  cases c with
  | set key value cond expiry => exact congrArg (Store.find · _ later) (reply_refused h)
  | mset pairs =>
    rw [Command.exec] at h ⊢
    split at h
    · cases h
    next hbounds => rw [if_neg hbounds]
  | msetnx pairs =>
    rw [Command.exec] at h ⊢
    split at h
    next hbounds => rw [if_pos hbounds]
    · split at h <;> cases h
  | append key' | incr key' =>
    exact (congrArg (Store.find · _ later) (reply_refused h)).trans (find_reap hle)
  | setRange key' offset patch =>
    rw [Command.exec] at h ⊢
    split at h
    · cases h
    next hpatch =>
      rw [if_neg hpatch]
      exact (congrArg (Store.find · _ later) (reply_refused h)).trans (find_reap hle)
  | getdel | del | expire | persist | getex => cases h
  | rename source target =>
    rw [Command.exec, Store.rename] at h ⊢
    by_cases hsame : source = target
    · rw [if_pos hsame]
      exact find_reap hle
    rw [if_neg hsame] at h ⊢
    cases hfind : s.find source now with
    | none => exact find_reap hle
    | some e =>
      rw [hfind] at h
      dsimp only at h ⊢
      split at h
      · cases h
      next hbounds =>
        rw [if_neg hbounds]
        rfl

/-- What a command stages nothing for shows as before. -/
private theorem find_other {c : Command} (hle : now ≤ later) (h : key ∉ c.effects (c.exec now s).2) :
    (c.exec now s).1.find key later = s.find key later := by
  rw [Command.effects] at h
  split at h
  next hrefused => exact find_refused hle (Bool.and_eq_true_iff.mp hrefused).1
  · rw [find_eq_settle, (fits_exec now s c).1 key h, find_eq_settle]

/-- The images put one after the other, each as it is at the reading. -/
def restore (now : Nat) (shots : List Shot) (s : Store) : Store :=
  shots.foldl (fun s shot => Function.update s shot.key (settle shot.image now)) s

/-- A shot the store takes back: within the bounds, its deadline exact and not the reading itself. -/
def Shot.Sound (anchor : WallAnchor) (now : Nat) (shot : Shot) : Prop :=
  ∀ e, shot.image = some e → checkBounds shot.key e.value = true ∧ ∀ ms, e.expireAtMs = some ms → anchor.Exact ms ∧ ms ≠ now

theorem WallAnchor.Exact.le {ms : Nat} (h : anchor.Exact ms) : ms ≤ maxExpireMs := by
  rw [Exact, internalFromUnix] at h
  obtain ⟨-, h⟩ := ite_none_right_eq_some.mp h
  rw [some.injEq] at h
  split at h
  · simp at h
  rw [← Deadline.at.inj h]
  exact Nat.min_le_right _ _

private theorem replay_shot {shot : Shot} (h : shot.Sound anchor now) (s : Store) :
    replay anchor now s (shot.records anchor) = some (Function.update s shot.key (settle shot.image now)) := by
  obtain ⟨key, image⟩ := shot
  cases image with
  | none => rfl
  | some e =>
    obtain ⟨hbounds, hdeadline⟩ := h e rfl
    have hset : s.set key now e.value .always .clear = some (s.put key ⟨e.value, none⟩) := if_neg (by simpa using hbounds)
    obtain ⟨value, expiry⟩ := e
    cases expiry with
    | none =>
      change (s.set key now value .always .clear >>= fun s => some s) = _
      rw [hset]
      rfl
    | some ms =>
      obtain ⟨hexact, hne⟩ := hdeadline ms rfl
      have hfind : (s.put key ⟨value, none⟩).find key now = some ⟨value, none⟩ := by
        rw [find_eq_settle, Store.put, Function.update_self]
        rfl
      change (s.set key now value .always .clear >>= fun s => some (s.expire key now
        (some ((anchor.internalFromUnix (anchor.unixFromInternal ms)).getD (.at maxExpireMs))) .always)) = _
      rw [hset, hexact]
      change some ((s.put key ⟨value, none⟩).expire key now (some (.at ms)) .always) = _
      rw [Store.expire, hfind]
      simp only [ExpireCond.applies, Bool.not_true, isNone_some, Bool.false_and, Bool.or_self, Bool.false_eq_true, if_false,
        Nat.min_eq_left hexact.le, settle_some, Entry.isExpired, any_some, decide_eq_true_eq, Store.put, Store.del,
        Function.update_idem]
      by_cases hlt : now < ms
      · rw [if_pos hlt, if_neg (by omega)]
      · rw [if_neg hlt, if_pos (by omega)]

theorem replay_restore (h : ∀ shot ∈ shots, shot.Sound anchor now) (s : Store) :
    replay anchor now s (shots.flatMap (Shot.records anchor)) = some (restore now shots s) := by
  induction shots generalizing s with
  | nil => rfl
  | cons shot rest ih =>
    have hfirst := replay_shot (h shot mem_cons_self) s
    have hrest := ih (forall_mem_cons.mp h).2 (Function.update s shot.key (settle shot.image now))
    rw [replay] at hfirst hrest ⊢
    rw [flatMap_cons, foldlM_append, hfirst]
    exact hrest

theorem restore_append (now : Nat) (shots more : List Shot) (s : Store) :
    restore now (shots ++ more) s = restore now more (restore now shots s) := foldl_append

theorem restore_of_notMem (h : key ∉ shots.map Shot.key) (s : Store) : restore now shots s key = s key := by
  induction shots generalizing s with
  | nil => rfl
  | cons shot rest ih =>
    rw [map_cons, mem_cons, not_or] at h
    exact (ih h.2 _).trans (Function.update_of_ne h.1 _ _)

/-- All images of the key are worth the same. -/
theorem restore_of_mem {v : Option Entry} (hsame : ∀ shot ∈ shots, shot.key = key → settle shot.image now = v)
    (h : key ∈ shots.map Shot.key) (s : Store) : restore now shots s key = v := by
  induction shots generalizing s with
  | nil => simp at h
  | cons shot rest ih =>
    change restore now rest (Function.update s shot.key (settle shot.image now)) key = v
    have hrest := (forall_mem_cons.mp hsame).2
    by_cases hmem : key ∈ rest.map Shot.key
    · exact ih hrest hmem _
    · rw [map_cons, mem_cons] at h
      have hkey := h.resolve_right hmem
      rw [restore_of_notMem hmem, hkey, Function.update_self]
      exact hsame shot mem_cons_self hkey.symm

/-- What happens to the store: commands, expired records freed, and images taken by a checkpoint. -/
inductive Event where
  | command (c : Command)
  | reap (key : Key)
  | image (key : Key)

/-- The live store since the checkpoint began, its images and what was logged. -/
structure Live where
  store : Store
  images : List Shot
  logged : List Shot

namespace Live

def step (live : Live) (now : Nat) : Event → Live
  | .command c =>
    let (s, refused) := c.exec now live.store
    { live with store := s, logged := live.logged ++ stageDurableEffects s now (c.effects refused) }
  | .reap key => { live with store := live.store.reap key now }
  | .image key =>
    match live.store.find key now with
    | none => live
    | some e => { live with images := live.images ++ [⟨key, some e⟩] }

def run (live : Live) (events : List (Nat × Event)) : Live := events.foldl (fun live e => live.step e.1 e.2) live

/-- The readings and the stores of a run, before and after every event. -/
def moments (live : Live) : List (Nat × Event) → List (Nat × Store)
  | [] => []
  | e :: rest => (e.1, live.store) :: (e.1, (live.step e.1 e.2).store) :: (live.step e.1 e.2).moments rest

/-- Every image and every staged key is within the bounds, as the store is. -/
structure Ok (live : Live) : Prop where
  store : Bounded live.store
  shots : ∀ shot ∈ live.images ++ live.logged, ∀ e, shot.image = some e → checkBounds shot.key e.value = true

/-- One key seen from a later reading: settled by the log, or as it was at first. -/
structure Tracks (first : Store) (later : Nat) (live : Live) (key : Key) : Prop where
  logged : key ∈ live.logged.map Shot.key → ∀ s, restore later live.logged s key = live.store.find key later
  unlogged : key ∉ live.logged.map Shot.key → live.store.find key later = first.find key later
  images : key ∉ live.logged.map Shot.key → ∀ shot ∈ live.images, shot.key = key → settle shot.image later = first.find key later

end Live

variable {live : Live} {first : Store} {events : List (Nat × Event)}

private theorem find_bounds (h : Bounded s) (hfind : s.find key now = some e) : checkBounds key e.value = true :=
  h key e (eq_some_of_filter_eq_some hfind)

private theorem staged_keys (s : Store) (now : Nat) (keys : List Key) : (stageDurableEffects s now keys).map Shot.key = keys := by
  rw [stageDurableEffects, List.map_map]
  exact List.map_id keys

namespace Live

theorem Ok.step (h : live.Ok) (now : Nat) (e : Event) : (live.step now e).Ok := by
  cases e with
  | command c =>
    have hs := (fits_exec now live.store c).2 h.store
    refine ⟨hs, ?_⟩
    intro shot hshot e he
    change shot ∈ live.images ++ (live.logged ++ _) at hshot
    rw [← append_assoc, mem_append] at hshot
    rcases hshot with hshot | hshot
    · exact h.shots shot hshot e he
    · obtain ⟨key, -, rfl⟩ := List.mem_map.mp hshot
      exact find_bounds hs he
  | reap key => exact ⟨h.store.reap key now, h.shots⟩
  | image key =>
    rw [Live.step]
    split
    · exact h
    rename_i e hfind
    refine ⟨h.store, ?_⟩
    intro shot hshot e' he'
    rcases mem_append.mp hshot with hshot | hshot
    · rcases mem_append.mp hshot with hshot | hshot
      · exact h.shots shot (mem_append_left _ hshot) e' he'
      · rw [mem_singleton.mp hshot] at he' ⊢
        rw [← some.inj he']
        exact find_bounds h.store hfind
    · exact h.shots shot (mem_append_right _ hshot) e' he'

theorem Tracks.step (h : Tracks first later live key) (hle : now ≤ later) (e : Event) : Tracks first later (live.step now e) key := by
  cases e with
  | command c =>
    have hfind := @find_other live.store key now later c hle
    rw [Live.step]
    generalize c.exec now live.store = out at hfind ⊢
    obtain ⟨s, refused⟩ := out
    dsimp only at hfind ⊢
    generalize c.effects refused = keys at hfind ⊢
    by_cases hkey : key ∈ keys
    · -- a key that is staged: its last record is the newest
      have hmem : key ∈ (stageDurableEffects s now keys).map Shot.key := by rwa [staged_keys]
      have hlogged : key ∈ (live.logged ++ stageDurableEffects s now keys).map Shot.key := by
        rw [map_append]
        exact mem_append_right _ hmem
      refine ⟨fun _ r => ?_, fun hout => absurd hlogged hout, fun hout => absurd hlogged hout⟩
      rw [restore_append]
      refine restore_of_mem ?_ hmem _
      intro shot hshot hsame
      obtain ⟨k, -, rfl⟩ := List.mem_map.mp hshot
      rw [← hsame]
      exact settle_settle _ hle
    · have hout : key ∉ (stageDurableEffects s now keys).map Shot.key := by rwa [staged_keys]
      have hfind := hfind hkey
      have hiff : key ∈ (live.logged ++ stageDurableEffects s now keys).map Shot.key ↔ key ∈ live.logged.map Shot.key := by
        rw [map_append, mem_append]
        exact or_iff_left hout
      refine ⟨fun hin r => ?_, fun hnot => ?_, fun hnot => h.images (fun hin => hnot (hiff.mpr hin))⟩
      · rw [restore_append, restore_of_notMem hout, h.logged (hiff.mp hin), hfind]
      · exact hfind.trans (h.unlogged fun hin => hnot (hiff.mpr hin))
  | reap key' =>
    exact ⟨fun hin r => (h.logged hin r).trans (find_reap hle).symm, fun hnot => (find_reap hle).trans (h.unlogged hnot), h.images⟩
  | image key' =>
    rw [Live.step]
    split
    · exact h
    next e hfind =>
      refine ⟨h.logged, h.unlogged, fun hnot shot hshot hsame => ?_⟩
      rcases mem_append.mp hshot with hshot | hshot
      · exact h.images hnot shot hshot hsame
      · rw [mem_singleton.mp hshot] at hsame ⊢
        rw [← h.unlogged hnot, ← show key' = key from hsame, ← hfind]
        exact settle_settle _ hle

/-- Nothing staged or taken is dropped. -/
theorem run_grows (live : Live) (events : List (Nat × Event)) :
    live.logged <+: (live.run events).logged ∧ live.images ⊆ (live.run events).images := by
  induction events generalizing live with
  | nil => exact ⟨prefix_rfl, List.Subset.refl _⟩
  | cons e rest ih =>
    have hstep : live.logged <+: (live.step e.1 e.2).logged ∧ live.images ⊆ (live.step e.1 e.2).images := by
      rw [step.eq_def]
      split
      · exact ⟨prefix_append _ _, List.Subset.refl _⟩
      · exact ⟨prefix_rfl, List.Subset.refl _⟩
      · split
        · exact ⟨prefix_rfl, List.Subset.refl _⟩
        · exact ⟨prefix_rfl, subset_append_left _ _⟩
    have hrest := ih (live.step e.1 e.2)
    exact ⟨hstep.1.trans hrest.1, List.Subset.trans hstep.2 hrest.2⟩

theorem notMem_logged (live : Live) (events : List (Nat × Event)) (h : key ∉ (live.run events).logged.map Shot.key) :
    key ∉ live.logged.map Shot.key := fun hin => h (map_subset Shot.key (run_grows live events).1.subset hin)

theorem run_ok (h : live.Ok) : (live.run events).Ok := by
  induction events generalizing live with
  | nil => exact h
  | cons e rest ih => exact ih (h.step e.1 e.2)

private theorem run_tracks (h : Tracks first later live key) (hnow : ∀ e ∈ events, e.1 ≤ later) :
    Tracks first later (live.run events) key := by
  induction events generalizing live with
  | nil => exact h
  | cons e rest ih => exact ih (h.step (hnow e mem_cons_self) e.2) (forall_mem_cons.mp hnow).2

/-- A key that is not logged in the run shows the same in every moment of it. -/
private theorem moments_find (h : Tracks first later live key) (hnow : ∀ e ∈ events, e.1 ≤ later)
    (hout : key ∉ (live.run events).logged.map Shot.key) :
    ∀ m ∈ live.moments events, m.1 ≤ later ∧ m.2.find key later = first.find key later := by
  induction events generalizing live with
  | nil => exact fun m hm => absurd hm (by simp [moments])
  | cons e rest ih =>
    have hle := hnow e mem_cons_self
    have hstep := h.step hle e.2
    have hbefore : key ∉ live.logged.map Shot.key := notMem_logged live (e :: rest) hout
    have hafter : key ∉ (live.step e.1 e.2).logged.map Shot.key := notMem_logged (live.step e.1 e.2) rest hout
    intro m hm
    rcases mem_cons.mp hm with rfl | hm
    · exact ⟨hle, h.unlogged hbefore⟩
    · rcases mem_cons.mp hm with rfl | hm
      · exact ⟨hle, hstep.unlogged hafter⟩
      · exact ih hstep (forall_mem_cons.mp hnow).2 hout m hm

/-- A checkpoint begins at the store. -/
def began (first : Store) : Live := ⟨first, [], []⟩

private theorem began_tracks (first : Store) (later : Nat) (key : Key) : Tracks first later (began first) key :=
  ⟨fun hin => absurd hin (by simp [began]), fun _ => rfl, fun _ shot hshot => absurd hshot (by simp [began])⟩

/-- The walk has an image of every key that is there in all its moments. -/
def Covers (first : Store) (begin : Nat) (walk : List (Nat × Event)) : Prop :=
  ∀ key, (∀ m ∈ (begin, first) :: (began first).moments walk, (m.2.find key m.1).isSome) →
    key ∈ ((began first).run walk).images.map Shot.key

/-- The images of the walk, perhaps with later ones, and then the log, put into an empty store, are the live
store at the reading. -/
theorem restore_eq {begin : Nat} {walk rest : List (Nat × Event)} {shots : List Shot} (hbegin : begin ≤ later)
    (hnow : ∀ e ∈ walk ++ rest, e.1 ≤ later) (hcovers : Covers first begin walk) (hwalked : ((began first).run walk).images ⊆ shots)
    (hshots : shots ⊆ ((began first).run (walk ++ rest)).images) (key : Key) :
    (restore later (shots ++ ((began first).run (walk ++ rest)).logged) fun _ => none).find key later =
      ((began first).run (walk ++ rest)).store.find key later := by
  have hsplit : (began first).run (walk ++ rest) = ((began first).run walk).run rest := foldl_append
  have htracks := run_tracks (began_tracks first later key) hnow
  have hwalk : ∀ e ∈ walk, e.1 ≤ later := fun e he => hnow e (mem_append_left _ he)
  generalize hfinal : (began first).run (walk ++ rest) = final at htracks hshots ⊢
  rw [find_eq_settle, restore_append]
  by_cases hlogged : key ∈ final.logged.map Shot.key
  · rw [htracks.logged hlogged]
    exact settle_settle _ (Nat.le_refl _)
  rw [restore_of_notMem hlogged, htracks.unlogged hlogged]
  by_cases himage : key ∈ shots.map Shot.key
  · rw [restore_of_mem (fun shot hshot => htracks.images hlogged shot (hshots hshot)) himage]
    exact settle_settle _ (Nat.le_refl _)
  rw [restore_of_notMem himage]
  -- no image: the key was absent at some moment of the walk, and has not been written since
  rw [← hfinal, hsplit] at hlogged
  have hnot := mt (hcovers key) fun hin => himage (map_subset Shot.key hwalked hin)
  obtain ⟨m, hm, habsent⟩ := not_forall₂.mp hnot
  rw [Bool.not_eq_true, isSome_eq_false_iff, isNone_iff_eq_none] at habsent
  obtain ⟨hle, hsame⟩ : m.1 ≤ later ∧ m.2.find key later = first.find key later := by
    rcases mem_cons.mp hm with rfl | hm
    · exact ⟨hbegin, rfl⟩
    · exact moments_find (began_tracks first later key) hwalk (notMem_logged _ rest hlogged) m hm
  have hnone : m.2.find key later = none := by
    rw [find_eq_settle, ← settle_settle (m.2 key) hle, ← find_eq_settle, habsent]
    rfl
  exact hnone.symm.trans hsame

end Live

def reached (before : List (Nat × Event)) : Store := ((Live.began fun _ => none).run before).store

private theorem reached_bounded (before : List (Nat × Event)) : Bounded (reached before) := by
  refine (Live.run_ok ⟨fun key e he => ?_, fun shot hshot => ?_⟩).store
  · simp [Live.began] at he
  · simp [Live.began] at hshot

/-- Every deadline taken or staged converts exactly and is not the reading. -/
def Live.Timed (live : Live) (anchor : WallAnchor) (now : Nat) : Prop :=
  ∀ shot ∈ live.images ++ live.logged, ∀ e ms, shot.image = some e → e.expireAtMs = some ms → anchor.Exact ms ∧ ms ≠ now

theorem Live.Timed.sound (before : List (Nat × Event)) (h : ((Live.began (reached before)).run events).Timed anchor now) :
    ∀ shot ∈ ((Live.began (reached before)).run events).images ++
      ((Live.began (reached before)).run events).logged, shot.Sound anchor now := by
  have hok : ((Live.began (reached before)).run events).Ok :=
    Live.run_ok ⟨reached_bounded before, fun shot hshot => absurd hshot (by simp [Live.began])⟩
  intro shot hshot e he
  exact ⟨hok.shots shot hshot e he, fun ms hms => h shot hshot e ms he hms⟩

/-- After any commands a checkpoint begins, its walk goes along with further commands, and more follow. At any
later reading, the images and then the records staged since replay without refusal to what the live store
shows: the same keys, values and deadlines. -/
theorem string_replay_converges (anchor : WallAnchor) (before walk rest : List (Nat × Event)) {begin later : Nat}
    (hbegin : begin ≤ later) (hnow : ∀ e ∈ walk ++ rest, e.1 ≤ later) (hcovers : Live.Covers (reached before) begin walk)
    (htimed : ((Live.began (reached before)).run (walk ++ rest)).Timed anchor later) :
    ∃ r, replay anchor later (fun _ => none) ((((Live.began (reached before)).run (walk ++ rest)).images ++
        ((Live.began (reached before)).run (walk ++ rest)).logged).flatMap (Shot.records anchor)) = some r ∧
      ∀ key, r.find key later = ((Live.began (reached before)).run (walk ++ rest)).store.find key later := by
  refine ⟨_, replay_restore (htimed.sound before) _, Live.restore_eq hbegin hnow hcovers ?_ (List.Subset.refl _)⟩
  rw [show (Live.began (reached before)).run (walk ++ rest) = ((Live.began (reached before)).run walk).run rest from foldl_append]
  exact (Live.run_grows _ rest).2

/-- A key set with a deadline before the walk, imaged, then appended to: recovered with both. -/
theorem string_replay_converges_append : ∃ r, replay ⟨100, 1750000000000⟩ 50 (fun _ => none)
        ((((Live.began (reached [(1, .command (.set (0, [97]) [1] .always (.at 60)))])).run
            ([(3, .image (0, [97]))] ++ [(4, .command (.append (0, [97]) [2]))])).images ++
          ((Live.began (reached [(1, .command (.set (0, [97]) [1] .always (.at 60)))])).run
            ([(3, .image (0, [97]))] ++ [(4, .command (.append (0, [97]) [2]))])).logged).flatMap
          (Shot.records ⟨100, 1750000000000⟩)) = some r ∧ r.find (0, [97]) 50 = some ⟨[1, 2], some 60⟩ := by
  obtain ⟨r, hr, hfind⟩ := string_replay_converges ⟨100, 1750000000000⟩ [(1, .command (.set (0, [97]) [1] .always (.at 60)))]
    [(3, .image (0, [97]))] [(4, .command (.append (0, [97]) [2]))] (by decide : 2 ≤ 50) (by decide) (fun key hkey => by
      by_cases hk : key = (0, [97])
      · rw [hk]
        decide
      · have hnone : reached [(1, .command (.set (0, [97]) [1] .always (.at 60)))] key = none := Function.update_of_ne hk _ _
        have h : ((reached [(1, .command (.set (0, [97]) [1] .always (.at 60)))]).find key 2).isSome := hkey _ mem_cons_self
        rw [Store.find, hnone] at h
        cases h)
    (fun shot hshot e ms he hms => by
      have hms : ms = 60 := by
        rcases mem_cons.mp hshot with rfl | hshot
        · exact (some.inj ((congrArg Entry.expireAtMs (some.inj he)).trans hms)).symm
        · rw [mem_singleton.mp hshot] at he
          exact (some.inj ((congrArg Entry.expireAtMs (some.inj he)).trans hms)).symm
      subst hms
      exact ⟨rfl, by decide⟩)
  exact ⟨r, hr, (hfind _).trans rfl⟩

end InfinityDB.Replay
