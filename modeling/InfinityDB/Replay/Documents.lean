import InfinityDB.Replay.Converge

/-!
# Replay of documents

A document carries a lineage, drawn when its key comes to be, and a version
that every write moves on by one. A path write is staged as a delta on the
version before it, or as a full image, and replay passes over a delta whose
version is behind. The rewrite for a deadline moves the version too, also in
replay, so that what follows an image with a deadline is passed over.
-/

namespace InfinityDB.Replay

open List Option

/-- What a path operation makes of a document and in how many places, and the lengths that are read of both. -/
structure DocEngine (α β : Type) where
  plan : β → α → Option (α × Nat)
  canonicalLen : α → Nat
  deltaLen : Key → β → Nat
  operandLen : β → Nat
  headerLen_le : ∀ doc, 8 ≤ canonicalLen doc

structure DocRecord (α : Type) where
  doc : α
  lineage : Nat
  version : Nat
  expireAtMs : Option Nat

structure DocStore (α : Type) where
  docs : Key → Option (DocRecord α)
  nextLineage : Nat

/-- The deltas staged for a document since its full image, and their bytes; only the choice of the next
record reads them. -/
structure DocCadence where
  deltas : Nat
  bytes : Nat

inductive DocCommand (α β : Type) where
  | set (key : Key) (doc : α) (cond : SetCond) (expire : SetExpire)
  | path (key : Key) (op : β) (cadence : DocCadence)
  | del (keys : List Key)
  | expire (key : Key) (deadline : Option Deadline) (cond : ExpireCond)
  | rename (source target : Key)

inductive DocEffect (α β : Type) where
  | docFull (key : Key) (lineage version : Nat) (doc : α)
  | docDelta (key : Key) (lineage baseVersion matchCount postLen : Nat) (op : β)
  | delete (key : Key)
  | expireAt (atUnixMs : Nat) (key : Key)

/-- What is staged after a command: the images of keys, or a delta. -/
inductive Staging (α β : Type) where
  | images (keys : List Key)
  | delta (effect : DocEffect α β)

inductive DocEvent (α β : Type) where
  | command (c : DocCommand α β)
  | image (key : Key)

def docIdocBytesMax : Nat := maxValLen - 15

def nextVersion (version : Nat) : Nat := (version + 1) % 2 ^ 24

variable {α β : Type}

def DocEffect.key : DocEffect α β → Key
  | .docFull key .. | .docDelta key .. | .delete key | .expireAt _ key => key

def resolve (cell : Option (DocRecord α)) (now : Nat) : Option (DocRecord α) := cell.filter fun e => !e.expireAtMs.any (· < now)

/-- `CellStore::expire` on the record of the key. -/
def expireCell (cell : Option (DocRecord α)) (now : Nat) (deadline : Option Deadline) (cond : ExpireCond) : Option (DocRecord α) :=
  (resolve cell now).bind fun e =>
    if !cond.applies deadline e.expireAtMs || (deadline.isNone && e.expireAtMs.isNone) then some e
    else match deadline with
      | none => some { e with version := nextVersion e.version, expireAtMs := none }
      | some (.at ms) =>
        if now < min ms maxExpireMs then some { e with version := nextVersion e.version, expireAtMs := some (min ms maxExpireMs) } else none
      | some .beforeOrigin => none

namespace DocStore

variable (engine : DocEngine α β) (anchor : WallAnchor) (now : Nat) (s : DocStore α)

def put (key : Key) (cell : Option (DocRecord α)) : DocStore α := { s with docs := Function.update s.docs key cell }

/-- `json_set`'s and `rename`'s write: the next version of the document there, or a new lineage. -/
def upsert (key : Key) (doc : α) (expireAtMs : Option Nat) : DocStore α :=
  match resolve (s.docs key) now with
  | some e => s.put key (some ⟨doc, e.lineage, nextVersion e.version, expireAtMs⟩)
  | none => { s.put key (some ⟨doc, s.nextLineage, 1, expireAtMs⟩) with nextLineage := s.nextLineage + 1 }

def jsonSet (key : Key) (doc : α) (cond : SetCond) (expire : SetExpire) : DocStore α × Staging α β :=
  let old := resolve (s.docs key) now
  if maxKeyLen < key.2.length ∨ docIdocBytesMax < engine.canonicalLen doc ∨ !cond.applies old then (s, .images [])
  else match expire with
    | .clear => (s.upsert now key doc none, .images [key])
    | .keep => (s.upsert now key doc (old.bind DocRecord.expireAtMs), .images [key])
    | .at ms => (s.upsert now key doc (some (min ms maxExpireMs)), .images [key])
    | .beforeOrigin => (s.put key none, .images [key])

def rename (source target : Key) : DocStore α × Staging α β :=
  if source = target then (s, .images (if (resolve (s.docs source) now).isSome then [source, target] else []))
  else match resolve (s.docs source) now with
    | none => (s, .images [])
    | some e =>
      if maxKeyLen < target.2.length then (s, .images [])
      else ((s.upsert now target e.doc e.expireAtMs).put source none, .images [source, target])

/-- `json_log_delta_decision`: a delta on the version before, unless there have been many. -/
def logDelta (key : Key) (e : DocRecord α) (op : β) (count : Nat) (cadence : DocCadence) : Staging α β :=
  let current := engine.canonicalLen e.doc
  if 64 ≤ min (cadence.deltas + 1) (2 ^ 16 - 1) ∨ current ≤ min (cadence.bytes + engine.deltaLen key op) (2 ^ 32 - 1) ∨
      current ≤ engine.operandLen op then .images [key]
  else .delta (.docDelta key e.lineage ((e.version + 2 ^ 24 - 1) % 2 ^ 24) count current op)

/-- A path write; matches that a delta cannot count go with a full image. -/
def applyPath (key : Key) (op : β) (cadence : DocCadence) : DocStore α × Staging α β :=
  match resolve (s.docs key) now with
  | none => (s, .images [])
  | some e =>
    match engine.plan op e.doc with
    | none => (s, .images [])
    | some (doc, count) =>
      let e' : DocRecord α := { e with doc := doc, version := nextVersion e.version }
      if docIdocBytesMax < engine.canonicalLen doc then (s, .images [])
      else (s.put key (some e'), if 1 ≤ count ∧ count < 2 ^ 32 then logDelta engine key e' op count cadence else .images [key])

def exec : DocCommand α β → DocStore α × Staging α β
  | .set key doc cond expire => s.jsonSet engine now key doc cond expire
  | .path key op cadence => s.applyPath engine now key op cadence
  | .del keys => (keys.foldl (fun s key => s.put key none) s, .images keys)
  | .expire key deadline cond => (s.put key (expireCell (s.docs key) now deadline cond), .images [key])
  | .rename source target => s.rename now source target

/-- The post-image of the key, its deadline after it, or its delete. -/
def stageFull (key : Key) : List (DocEffect α β) :=
  match resolve (s.docs key) now with
  | none => [.delete key]
  | some e => .docFull key e.lineage e.version e.doc :: (e.expireAtMs.map fun ms => .expireAt (anchor.unixFromInternal ms) key).toList

def stage : Staging α β → List (DocEffect α β)
  | .images keys => keys.flatMap (s.stageFull anchor now)
  | .delta effect => [effect]

def step : DocEvent α β → DocStore α × List (DocEffect α β)
  | .command c => ((s.exec engine now c).1, (s.exec engine now c).1.stage anchor now (s.exec engine now c).2)
  | .image _ => (s, [])

end DocStore

section Replay

variable (engine : DocEngine α β) (anchor : WallAnchor)

def after (s : DocStore α) : List (Nat × DocEvent α β) → DocStore α
  | [] => s
  | e :: rest => after (s.step engine anchor e.1 e.2).1 rest

def staged (s : DocStore α) : List (Nat × DocEvent α β) → List (DocEffect α β)
  | [] => []
  | e :: rest => (s.step engine anchor e.1 e.2).2 ++ staged (s.step engine anchor e.1 e.2).1 rest

/-- A walk takes the image of a key that is there. -/
def walkImage (s : DocStore α) (now : Nat) : DocEvent α β → List (DocEffect α β)
  | .image key => if (resolve (s.docs key) now).isSome then s.stageFull anchor now key else []
  | .command _ => []

def images (s : DocStore α) : List (Nat × DocEvent α β) → List (DocEffect α β)
  | [] => []
  | e :: rest => walkImage anchor s e.1 e.2 ++ images (s.step engine anchor e.1 e.2).1 rest

/-- `replay_json_delta`: passed over without the document or behind it, refused ahead of it. -/
def replayDelta (cell : Option (DocRecord α)) (lineage baseVersion matchCount postLen : Nat) (op : β) : Option (Option (DocRecord α)) :=
  match cell with
  | none => some none
  | some e =>
    let distance := (e.version + 2 ^ 24 - baseVersion) % 2 ^ 24
    if e.lineage ≠ lineage then if lineage < e.lineage then some (some e) else none
    else if distance ≠ 0 then if distance < 2 ^ 23 then some (some e) else none
    else if postLen < 8 then none
    else (engine.plan op e.doc).bind fun out =>
      if out.2 = matchCount ∧ engine.canonicalLen out.1 = postLen then
        some (some { e with doc := out.1, version := nextVersion e.version }) else none

def applyCell (now : Nat) (cell : Option (DocRecord α)) : DocEffect α β → Option (Option (DocRecord α))
  | .docFull key lineage version doc =>
    if maxKeyLen < key.2.length ∨ docIdocBytesMax < engine.canonicalLen doc then none else some (some ⟨doc, lineage, version, none⟩)
  | .docDelta _ lineage baseVersion matchCount postLen op => replayDelta engine (resolve cell now) lineage baseVersion matchCount postLen op
  | .delete _ => some none
  | .expireAt atUnixMs _ => some (expireCell cell now (some ((anchor.internalFromUnix atUnixMs).getD (.at maxExpireMs))) .always)

def replayDocs (now : Nat) (s : Key → Option (DocRecord α)) (effects : List (DocEffect α β)) :
    Option (Key → Option (DocRecord α)) :=
  effects.foldlM (fun s effect => (applyCell engine anchor now (s effect.key) effect).map (Function.update s effect.key)) s

def replayKey (now : Nat) (key : Key) (cell : Option (DocRecord α)) (effects : List (DocEffect α β)) : Option (Option (DocRecord α)) :=
  effects.foldlM (fun cell effect => if effect.key = key then applyCell engine anchor now cell effect else some cell) cell

private theorem replay_of_keys {now : Nat} {effects : List (DocEffect α β)} (s : Key → Option (DocRecord α))
    {final : Key → Option (DocRecord α)}
    (h : ∀ key, replayKey engine anchor now key (s key) effects = some (final key)) :
    replayDocs engine anchor now s effects = some final := by
  induction effects generalizing s with
  | nil => exact congrArg some (funext fun key => some.inj (h key))
  | cons effect rest ih =>
    have hown := h effect.key
    rw [replayKey, foldlM_cons, if_pos rfl] at hown
    obtain ⟨cell, hcell, -⟩ := bind_eq_some_iff.mp hown
    rw [replayDocs, foldlM_cons, hcell]
    apply ih
    intro key
    have hkey := h key
    rw [replayKey, foldlM_cons] at hkey
    by_cases hsame : effect.key = key
    · subst hsame
      rw [if_pos rfl, hcell] at hkey
      rwa [Function.update_self]
    · rw [if_neg hsame] at hkey
      rwa [Function.update_of_ne fun h => hsame h.symm]

end Replay

section Steps

variable {engine : DocEngine α β} {anchor : WallAnchor} {now later : Nat} {s s' s'' : DocStore α} {key : Key}

/-- No deadline is near, and every one converts exactly. -/
def Timed (anchor : WallAnchor) (later : Nat) (s : DocStore α) : Prop :=
  ∀ key e ms, s.docs key = some e → e.expireAtMs = some ms → later < ms ∧ anchor.Exact ms

structure Sound (engine : DocEngine α β) (s : DocStore α) (key : Key) (e : DocRecord α) : Prop where
  lineage : e.lineage < s.nextLineage
  version : e.version < 2 ^ 24
  key : key.2.length ≤ maxKeyLen
  fits : engine.canonicalLen e.doc ≤ docIdocBytesMax

/-- The key later: a newer document, or the same moved on by some versions. -/
structure Newer (s s' : DocStore α) (key : Key) (n : Nat) : Prop where
  next : s.nextLineage ≤ s'.nextLineage
  cell : ∀ e', s'.docs key = some e' → s.nextLineage ≤ e'.lineage ∨
    ∃ e d, s.docs key = some e ∧ e'.lineage = e.lineage ∧ d ≤ n ∧ e'.version = (e.version + d) % 2 ^ 24

/-- What replay makes of the full image: a deadline costs a version. -/
def shown (cell : Option (DocRecord α)) : Option (DocRecord α) :=
  cell.map fun e => if e.expireAtMs.isSome then { e with version := nextVersion e.version } else e

theorem resolve_eq (h : Timed anchor later s) (hle : now ≤ later) (key : Key) : resolve (s.docs key) now = s.docs key := by
  cases he : s.docs key with
  | none => rfl
  | some e =>
    apply filter_some_pos
    cases hms : e.expireAtMs with
    | none => rfl
    | some ms =>
      have := (h key e ms he hms).1
      simp only [any_some, decide_eq_false (show ¬ms < now by omega), Bool.not_false]

theorem Newer.trans {n m : Nat} (h : Newer s s' key n) (h' : Newer s' s'' key m) : Newer s s'' key (n + m) := by
  refine ⟨Nat.le_trans h.next h'.next, ?_⟩
  intro e'' he''
  rcases h'.cell e'' he'' with hnew | ⟨e', d', he', hl', hd', hv'⟩
  · exact Or.inl (Nat.le_trans h.next hnew)
  · rcases h.cell e' he' with hnew | ⟨e, d, he, hl, hd, hv⟩
    · exact Or.inl (hl' ▸ hnew)
    · refine Or.inr ⟨e, d + d', he, hl'.trans hl, by omega, ?_⟩
      rw [hv', hv, Nat.mod_add_mod, add_assoc]

def AllSound (engine : DocEngine α β) (s : DocStore α) : Prop := ∀ key e, s.docs key = some e → Sound engine s key e

/-- What a command makes of the documents: none becomes older, and each moves on by one version at most. -/
structure Moves (engine : DocEngine α β) (s s' : DocStore α) : Prop where
  sound : AllSound engine s'
  newer : ∀ key, Newer s s' key 1

theorem Moves.refl (h : AllSound engine s) : Moves engine s s := by
  refine ⟨h, fun key => ⟨Nat.le_refl _, fun e he => Or.inr ⟨e, 0, he, rfl, zero_le, ?_⟩⟩⟩
  rw [add_zero, Nat.mod_eq_of_lt (h key e he).version]

theorem put_cases {cell : Option (DocRecord α)} {k : Key} {e : DocRecord α} (h : (s.put key cell).docs k = some e) :
    (k = key ∧ cell = some e) ∨ s.docs k = some e := by
  by_cases hk : k = key
  · exact Or.inl ⟨hk, by rwa [hk, show (s.put key cell).docs key = cell from Function.update_self ..] at h⟩
  · exact Or.inr (by rwa [show (s.put key cell).docs k = s.docs k from Function.update_of_ne hk ..] at h)

theorem Moves.put_none (h : Moves engine s s') (key : Key) : Moves engine s (s'.put key none) := by
  have hold : ∀ k e, (s'.put key none).docs k = some e → s'.docs k = some e :=
    fun k e he => (put_cases he).elim (fun hin => by cases hin.2) fun hold => hold
  exact ⟨fun k e he => { h.sound k e (hold k e he) with },
    fun k => ⟨(h.newer k).next, fun e he => (h.newer k).cell e (hold k e he)⟩⟩

theorem moves_upsert (h : AllSound engine s) (hkey : key.2.length ≤ maxKeyLen) {doc : α}
    (hfits : engine.canonicalLen doc ≤ docIdocBytesMax)
    (expireAtMs : Option Nat) : Moves engine s (s.upsert now key doc expireAtMs) := by
  have hsame := Moves.refl h
  rw [DocStore.upsert]
  split
  next e he =>
    have he := eq_some_of_filter_eq_some he
    refine ⟨fun k e' he' => ?_, fun k => ⟨Nat.le_refl _, fun e' he' => ?_⟩⟩
    · rcases put_cases he' with ⟨rfl, heq⟩ | hold
      · exact some.inj heq ▸ ⟨(h k e he).lineage, Nat.mod_lt _ (by decide), hkey, hfits⟩
      · exact { h k e' hold with }
    · rcases put_cases he' with ⟨rfl, heq⟩ | hold
      · exact some.inj heq ▸ Or.inr ⟨e, 1, he, rfl, Nat.le_refl 1, rfl⟩
      · exact (hsame.newer k).cell e' hold
  · refine ⟨fun k e' he' => ?_, fun k => ⟨Nat.le_succ _, fun e' he' => ?_⟩⟩
    · rcases put_cases he' with ⟨rfl, heq⟩ | hold
      · exact some.inj heq ▸ ⟨Nat.lt_succ_self _, (by decide : 1 < 2 ^ 24), hkey, hfits⟩
      · exact { h k e' hold with lineage := Nat.lt_succ_of_lt (h k e' hold).lineage }
    · rcases put_cases he' with ⟨rfl, heq⟩ | hold
      · exact some.inj heq ▸ Or.inl (Nat.le_refl _)
      · exact (hsame.newer k).cell e' hold

/-- What is staged with a change: the images of the keys it names, or one delta on the document before it. -/
inductive Stages (engine : DocEngine α β) (anchor : WallAnchor) (now : Nat) (s s' : DocStore α) : List (DocEffect α β) → Prop
  | images (keys : List Key) (hout : ∀ key, key ∉ keys → s'.docs key = s.docs key) :
    Stages engine anchor now s s' (keys.flatMap (s'.stageFull anchor now))
  | delta {key : Key} {e : DocRecord α} {op : β} {out : α × Nat} (he : s.docs key = some e) (hundated : e.expireAtMs = none)
    (hplan : engine.plan op e.doc = some out)
    (hdocs : s'.docs = Function.update s.docs key (some { e with doc := out.1, version := nextVersion e.version })) :
    Stages engine anchor now s s' [.docDelta key e.lineage e.version out.2 (engine.canonicalLen out.1) op]

private theorem upsert_of_ne {doc : α} {expireAtMs : Option Nat} {k : Key} (hk : k ≠ key) :
    (s.upsert now key doc expireAtMs).docs k = s.docs k := by
  rw [DocStore.upsert]
  split
  · exact Function.update_of_ne hk ..
  · exact Function.update_of_ne hk ..

private theorem foldl_put_none (keys : List Key) (h : Moves engine s s') : Moves engine s (keys.foldl (fun s key => s.put key none) s') ∧
    ∀ key, key ∉ keys → (keys.foldl (fun s key => s.put key none) s').docs key = s'.docs key := by
  induction keys generalizing s' with
  | nil => exact ⟨h, fun _ _ => rfl⟩
  | cons k rest ih =>
    obtain ⟨hmoves, hout⟩ := ih (h.put_none k)
    refine ⟨hmoves, fun key hkey => ?_⟩
    rw [mem_cons, not_or] at hkey
    exact (hout key hkey.2).trans (Function.update_of_ne hkey.1 ..)

private theorem moves_expire (h : AllSound engine s) (key : Key) (deadline : Option Deadline) (cond : ExpireCond) :
    Moves engine s (s.put key (expireCell (s.docs key) now deadline cond)) := by
  rw [expireCell]
  cases hr : resolve (s.docs key) now with
  | none => exact (Moves.refl h).put_none key
  | some e =>
    have he := eq_some_of_filter_eq_some hr
    have hs := h key e he
    have hup : ∀ ms, Moves engine s (s.put key (some ⟨e.doc, e.lineage, nextVersion e.version, ms⟩)) := by
      intro ms
      have hup : Moves engine s (s.upsert now key e.doc ms) := moves_upsert h hs.key hs.fits ms
      rwa [DocStore.upsert, hr] at hup
    rw [bind_some]
    split
    · rw [DocStore.put, ← he, Function.update_eq_self]
      exact Moves.refl h
    · split
      · exact hup none
      · split
        · exact hup _
        · exact (Moves.refl h).put_none key
      · exact (Moves.refl h).put_none key

/-- The command writes no path of a document that has a deadline. -/
def Undated (s : DocStore α) (c : DocCommand α β) : Prop :=
  ∀ key op cadence, c = .path key op cadence → ∀ e, s.docs key = some e → e.expireAtMs = none

theorem exec_spec (h : AllSound engine s) {c : DocCommand α β} (hc : Undated s c) : Moves engine s (s.exec engine now c).1 ∧
    Stages engine anchor now s (s.exec engine now c).1 ((s.exec engine now c).1.stage anchor now (s.exec engine now c).2) := by
  have hnone : Moves engine s s ∧ Stages engine anchor now s s [] := ⟨Moves.refl h, .images [] fun _ _ => rfl⟩
  cases c with
  | set key doc cond expiry =>
    by_cases hok : maxKeyLen < key.2.length ∨ docIdocBytesMax < engine.canonicalLen doc ∨ !cond.applies (resolve (s.docs key) now)
    · simp only [DocStore.exec, DocStore.jsonSet, if_pos hok]
      exact hnone
    · have hup : ∀ ms, Moves engine s (s.upsert now key doc ms) := moves_upsert h (by omega) (by omega)
      simp only [DocStore.exec, DocStore.jsonSet, if_neg hok]
      cases expiry with
      | beforeOrigin => exact ⟨(Moves.refl h).put_none key, .images [key] fun k hk => Function.update_of_ne (ne_of_not_mem_cons hk) ..⟩
      | _ => exact ⟨hup _, .images [key] fun k hk => upsert_of_ne (ne_of_not_mem_cons hk)⟩
  | path key op cadence =>
    rw [DocStore.exec, DocStore.applyPath]
    split
    · exact hnone
    rename_i e hr
    have he := eq_some_of_filter_eq_some hr
    split
    · exact hnone
    rename_i doc count hplan
    dsimp only
    split
    · exact hnone
    rename_i hfits
    have hup : Moves engine s (s.upsert now key doc e.expireAtMs) := moves_upsert h (h key e he).key (Nat.le_of_not_lt hfits) _
    rw [DocStore.upsert, hr] at hup
    have hout : ∀ k, k ∉ [key] → (s.put key (some { e with doc := doc, version := nextVersion e.version })).docs k = s.docs k :=
      fun k hk => Function.update_of_ne (ne_of_not_mem_cons hk) ..
    refine ⟨hup, ?_⟩
    dsimp only
    split
    · rw [DocStore.logDelta]
      dsimp only
      split
      · exact .images [key] hout
      · have hv : (nextVersion e.version + 2 ^ 24 - 1) % 2 ^ 24 = e.version := by
          have := (h key e he).version
          rw [nextVersion]
          omega
        rw [hv]
        exact .delta he (hc key op cadence rfl e he) hplan rfl
    · exact .images [key] hout
  | del keys => exact ⟨(foldl_put_none keys (Moves.refl h)).1, .images keys (foldl_put_none keys (Moves.refl h)).2⟩
  | expire key deadline cond =>
    exact ⟨moves_expire h key deadline cond, .images [key] fun k hk => Function.update_of_ne (ne_of_not_mem_cons hk) ..⟩
  | rename source target =>
    rw [DocStore.exec, DocStore.rename]
    split
    · exact ⟨Moves.refl h, .images _ fun _ _ => rfl⟩
    split
    · exact hnone
    next e he =>
      split
      · exact hnone
      · refine ⟨(moves_upsert h (by omega) (h source e (eq_some_of_filter_eq_some he)).fits _).put_none source, .images _ ?_⟩
        intro k hk
        simp only [mem_cons, not_mem_nil, not_or] at hk
        exact (Function.update_of_ne hk.1 ..).trans (upsert_of_ne hk.2.1)

theorem replayKey_append (R : Option (DocRecord α)) (a b : List (DocEffect α β)) : replayKey engine anchor now key R (a ++ b) =
    (replayKey engine anchor now key R a).bind fun R => replayKey engine anchor now key R b := foldlM_append ..

/-- A staged image sets its key, and only it. -/
theorem replayKey_stageFull (h : AllSound engine s) (ht : Timed anchor later s) (hle : now ≤ later) (k : Key)
    (R : Option (DocRecord α)) :
    replayKey engine anchor later key R (s.stageFull anchor now k) = some (if k = key then shown (s.docs key) else R) := by
  rw [DocStore.stageFull, resolve_eq ht hle]
  cases he : s.docs k with
  | none =>
    by_cases hk : k = key
    · subst hk
      simp [replayKey, DocEffect.key, applyCell, shown, he]
    · simp [replayKey, DocEffect.key, hk]
  | some e =>
    obtain ⟨doc, lineage, version, expireAtMs⟩ := e
    by_cases hk : k = key
    · subst hk
      have hs := h k _ he
      have hfull : ¬(maxKeyLen < k.2.length ∨ docIdocBytesMax < engine.canonicalLen doc) :=
        not_or.mpr ⟨Nat.not_lt.mpr hs.key, Nat.not_lt.mpr hs.fits⟩
      cases expireAtMs with
      | none => simp [replayKey, DocEffect.key, applyCell, shown, he, if_neg hfull]
      | some ms =>
        obtain ⟨hlater, hexact⟩ := ht k _ ms he rfl
        have hmin : min ms maxExpireMs = ms := Nat.min_eq_left hexact.le
        have hbound : later < maxExpireMs := Nat.lt_of_lt_of_le hlater hexact.le
        have hback : anchor.internalFromUnix (anchor.unixFromInternal ms) = some (.at ms) := hexact
        simp [replayKey, DocEffect.key, applyCell, shown, he, if_neg hfull, hback, expireCell, resolve,
          ExpireCond.applies, hmin, hlater, hbound,
          filter_some]
    · cases expireAtMs <;> simp [replayKey, DocEffect.key, hk]

private theorem replayKey_images (h : AllSound engine s) (ht : Timed anchor later s) (hle : now ≤ later) (keys : List Key)
    (R : Option (DocRecord α)) :
    (key ∈ keys → replayKey engine anchor later key R (keys.flatMap (s.stageFull anchor now)) = some (shown (s.docs key))) ∧
      (key ∉ keys → replayKey engine anchor later key R (keys.flatMap (s.stageFull anchor now)) = some R) := by
  induction keys generalizing R with
  | nil => exact ⟨fun hin => absurd hin not_mem_nil, fun _ => rfl⟩
  | cons k rest ih =>
    rw [flatMap_cons, replayKey_append, replayKey_stageFull h ht hle, bind_some]
    constructor
    · intro hin
      by_cases hrest : key ∈ rest
      · exact (ih _).1 hrest
      · have hk : k = key := ((mem_cons.mp hin).resolve_right hrest).symm
        rw [if_pos hk]
        exact (ih _).2 hrest
    · intro hout
      rw [mem_cons, not_or] at hout
      rw [if_neg (Ne.symm hout.1)]
      exact (ih _).2 hout.2

private theorem resolve_shown (h : Timed anchor later s) (key : Key) : resolve (shown (s.docs key)) later = shown (s.docs key) := by
  have hsame := resolve_eq h (Nat.le_refl later) key
  cases he : s.docs key with
  | none => rfl
  | some e =>
    have hkept := (filter_eq_some_iff.mp (he ▸ hsame : resolve (some e) later = some e)).2
    apply filter_some_pos
    dsimp only
    split
    · exact hkept
    · exact hkept

/-- Replay passes over a delta whose document has moved on since. -/
private theorem replayDelta_behind {e e' : DocRecord α} {n : Nat} (h' : AllSound engine s') (hversion : e.version < 2 ^ 24)
    (he' : s'.docs key = some e')
    (hlineage : e'.lineage = e.lineage) (hnext : e'.version = nextVersion e.version) (hnewer : Newer s' s'' key n) (hn : n + 2 < 2 ^ 23)
    (count len : Nat) (op : β) :
    replayDelta engine (shown (s''.docs key)) e.lineage e.version count len op = some (shown (s''.docs key)) := by
  cases he'' : s''.docs key with
  | none => rfl
  | some r =>
    have hlt := (h' key e' he').lineage
    have hr : ∃ v, shown (some r) = some { r with version := v } ∧ (v = r.version ∨ v = nextVersion r.version) := by
      rw [shown, map_some]
      split
      · exact ⟨_, rfl, Or.inr rfl⟩
      · exact ⟨_, rfl, Or.inl rfl⟩
    obtain ⟨v, hshown, hv⟩ := hr
    rw [hshown, replayDelta]
    rcases hnewer.cell r he'' with hnew | ⟨old, d, hold, hsame, hd, hmoved⟩
    · rw [if_pos (show r.lineage ≠ e.lineage by omega), if_pos (show e.lineage < r.lineage by omega)]
    · cases he'.symm.trans hold
      rw [nextVersion] at hnext hv
      rw [if_neg (show ¬r.lineage ≠ e.lineage by omega), if_pos (show (v + 2 ^ 24 - e.version) % 2 ^ 24 ≠ 0 by omega),
        if_pos (show (v + 2 ^ 24 - e.version) % 2 ^ 24 < 2 ^ 23 by omega)]

private theorem stageFull_key (k : Key) : ∃ effect ∈ (s.stageFull anchor now k : List (DocEffect α β)), effect.key = k := by
  rw [DocStore.stageFull]
  split
  · exact ⟨_, mem_singleton_self _, rfl⟩
  · exact ⟨_, mem_cons_self, rfl⟩

/-- A key moves on only with an effect staged for it. -/
theorem Stages.newer {effects : List (DocEffect α β)} (h : Stages engine anchor now s s' effects)
    (hs : AllSound engine s) (hm : Moves engine s s')
    (key : Key) : Newer s s' key (effects.countP (·.key = key)) := by
  have hnamed : (∃ effect ∈ effects, effect.key = key) ∨ s'.docs key = s.docs key := by
    cases h with
    | images keys hout =>
      by_cases hk : key ∈ keys
      · obtain ⟨effect, heffect, hkey⟩ : ∃ effect ∈ (s'.stageFull anchor now key : List (DocEffect α β)),
          effect.key = key := stageFull_key key
        exact Or.inl ⟨effect, mem_flatMap.mpr ⟨_, hk, heffect⟩, hkey⟩
      · exact Or.inr (hout key hk)
    | delta he hundated hplan hdocs =>
      rename_i k e op out
      by_cases hk : k = key
      · exact Or.inl ⟨_, mem_singleton_self _, hk⟩
      · exact Or.inr (hdocs ▸ Function.update_of_ne (Ne.symm hk) ..)
  have hmoves := hm.newer key
  rcases hnamed with ⟨effect, heffect, hkey⟩ | hsame
  · have hpos : 0 < effects.countP (·.key = key) := countP_pos_iff.mpr ⟨effect, heffect, decide_eq_true hkey⟩
    refine ⟨hmoves.next, fun e' he' => (hmoves.cell e' he').imp_right ?_⟩
    rintro ⟨e, d, he, hl, hd, hv⟩
    exact ⟨e, d, he, hl, by omega, hv⟩
  · refine ⟨hmoves.next, fun e' he' => Or.inr ⟨e', 0, hsame ▸ he', rfl, zero_le, ?_⟩⟩
    rw [add_zero, Nat.mod_eq_of_lt (hs key e' (hsame ▸ he')).version]

/-- Every command is read in time, leaves no deadline near, and writes no path of a document that has one. -/
def Steady (engine : DocEngine α β) (anchor : WallAnchor) (later : Nat) (s : DocStore α) : List (Nat × DocEvent α β) → Prop
  | [] => True
  | e :: rest => (e.1 ≤ later ∧ Timed anchor later (s.step engine anchor e.1 e.2).1 ∧ ∀ c, e.2 = .command c → Undated s c) ∧
    Steady engine anchor later (s.step engine anchor e.1 e.2).1 rest

theorem step_spec (h : AllSound engine s) {e : DocEvent α β} (he : ∀ c, e = .command c → Undated s c) :
    Moves engine s (s.step engine anchor now e).1 ∧
    Stages engine anchor now s (s.step engine anchor now e).1 (s.step engine anchor now e).2 := by
  cases e with
  | image key => exact ⟨Moves.refl h, .images [] fun _ _ => rfl⟩
  | command c => exact exec_spec h (he c rfl)

variable {events : List (Nat × DocEvent α β)}

theorem newer_after (h : AllSound engine s) (hrun : Steady engine anchor later s events) (key : Key) :
    Newer s (after engine anchor s events) key ((staged engine anchor s events).countP (·.key = key)) ∧
      AllSound engine (after engine anchor s events) := by
  induction events generalizing s with
  | nil =>
    refine ⟨⟨Nat.le_refl _, fun e he => Or.inr ⟨e, 0, he, rfl, Nat.le_refl _, ?_⟩⟩, h⟩
    rw [add_zero, Nat.mod_eq_of_lt (h key e he).version]
  | cons e rest ih =>
    obtain ⟨⟨hle, ht, hu⟩, hrest⟩ := hrun
    obtain ⟨hm, hst⟩ := step_spec h hu
    have hih := ih hm.sound hrest
    rw [staged, countP_append]
    exact ⟨(hst.newer h hm key).trans hih.1, hih.2⟩

theorem staged_append (s : DocStore α) (events rest : List (Nat × DocEvent α β)) : staged engine anchor s (events ++ rest) =
    staged engine anchor s events ++ staged engine anchor (after engine anchor s events) rest := by
  induction events generalizing s with
  | nil => rfl
  | cons e events ih => rw [cons_append, staged, ih, staged, after, append_assoc]

theorem steady_append {rest : List (Nat × DocEvent α β)} (hrun : Steady engine anchor later s (events ++ rest)) :
    Steady engine anchor later s events := by
  induction events generalizing s with
  | nil => trivial
  | cons e events ih => exact ⟨hrun.1, ih hrun.2⟩

theorem timed_after (ht : Timed anchor later s) (hrun : Steady engine anchor later s events) :
    Timed anchor later (after engine anchor s events) := by
  induction events generalizing s with
  | nil => exact ht
  | cons e events ih => exact ih hrun.1.2.1 hrun.2

private theorem replayKey_delta (R : Option (DocRecord α)) {k : Key} (lineage version count len : Nat) (op : β) :
    replayKey engine anchor later key R [.docDelta k lineage version count len op] =
      if k = key then replayDelta engine (resolve R later) lineage version count len op else some R := by
  rw [replayKey, foldlM_cons, DocEffect.key, applyCell]
  exact bind_fun_some _

/-- What one event stages, put onto what the key shows now or later, shows the key after the event or later. -/
private theorem replayKey_step {e : Nat × DocEvent α β} {rest ahead : List (Nat × DocEvent α β)}
    (h : AllSound engine s) (hrun : Steady engine anchor later s (e :: rest))
    (hshort : (staged engine anchor s (e :: rest)).countP (·.key = key) + 1 < 2 ^ 23) (hahead : ahead <+: e :: rest) :
    ∃ more, more <+: rest ∧
      replayKey engine anchor later key (shown ((after engine anchor s ahead).docs key)) (s.step engine anchor e.1 e.2).2 =
      some (shown ((after engine anchor (s.step engine anchor e.1 e.2).1 more).docs key)) := by
  obtain ⟨⟨hle, ht, hu⟩, hrest⟩ := hrun
  obtain ⟨hm, hst⟩ := step_spec h hu
  rw [staged] at hshort
  generalize hnext : (s.step engine anchor e.1 e.2).1 = s' at *
  generalize (s.step engine anchor e.1 e.2).2 = effects at *
  cases hst with
  | images keys hout =>
    by_cases hk : key ∈ keys
    · refine ⟨[], nil_prefix, ?_⟩
      exact (replayKey_images hm.sound ht hle keys _).1 hk
    · rcases prefix_cons_iff.mp hahead with rfl | ⟨more, rfl, hmore⟩
      · refine ⟨[], nil_prefix, ?_⟩
        rw [(replayKey_images hm.sound ht hle keys _).2 hk, after, after, hout key hk]
      · refine ⟨more, hmore, ?_⟩
        rw [(replayKey_images hm.sound ht hle keys _).2 hk, after, hnext]
  | delta hold hundated hplan hdocs =>
    rename_i k old op out
    by_cases hk : k = key
    · subst hk
      have hnew : s'.docs k = some { old with doc := out.1, version := nextVersion old.version } := hdocs ▸ Function.update_self ..
      rcases prefix_cons_iff.mp hahead with rfl | ⟨more, rfl, tail, rfl⟩
      · refine ⟨[], nil_prefix, ?_⟩
        rw [replayKey_delta, if_pos rfl, after, after, hold, hnew, shown, shown]
        simp [hundated, resolve, filter_some, replayDelta, hplan, Nat.not_lt.mpr (engine.headerLen_le out.1)]
      refine ⟨more, prefix_append _ _, ?_⟩
      have hsteady := steady_append hrest
      have hnewer := (newer_after hm.sound hsteady k).1
      have hown : 0 < List.countP (fun x : DocEffect α β => decide (x.key = k))
          [DocEffect.docDelta k old.lineage old.version out.2 (engine.canonicalLen out.1) op] :=
        countP_pos_iff.mpr ⟨_, mem_singleton_self _, by simp [DocEffect.key]⟩
      rw [staged_append, countP_append, countP_append] at hshort
      rw [replayKey_delta, if_pos rfl, after, hnext, resolve_shown (timed_after ht hsteady)]
      exact replayDelta_behind hm.sound (h k old hold).version hnew rfl rfl hnewer (by omega) _ _ _
    · have hsame : s'.docs key = s.docs key := hdocs ▸ Function.update_of_ne (Ne.symm hk) ..
      rcases prefix_cons_iff.mp hahead with rfl | ⟨more, rfl, hmore⟩
      · refine ⟨[], nil_prefix, ?_⟩
        rw [replayKey_delta, if_neg hk, after, after, hsame]
      · refine ⟨more, hmore, ?_⟩
        rw [replayKey_delta, if_neg hk, after, hnext]

private theorem replayKey_staged {ahead : List (Nat × DocEvent α β)} (h : AllSound engine s) (hrun : Steady engine anchor later s events)
    (hshort : (staged engine anchor s events).countP (·.key = key) + 1 < 2 ^ 23) (hahead : ahead <+: events) :
    replayKey engine anchor later key (shown ((after engine anchor s ahead).docs key)) (staged engine anchor s events) =
      some (shown ((after engine anchor s events).docs key)) := by
  induction events generalizing s ahead with
  | nil =>
    rw [prefix_nil.mp hahead]
    rfl
  | cons e rest ih =>
    obtain ⟨more, hmore, hstep⟩ := replayKey_step h hrun hshort hahead
    obtain ⟨⟨-, -, hu⟩, hrest⟩ := hrun
    rw [staged, countP_append] at hshort
    rw [staged, replayKey_append, hstep]
    exact ih (step_spec h hu).1.sound hrest (by omega) hmore

private theorem replayKey_walkImage (h : AllSound engine s) (ht : Timed anchor later s) (hle : now ≤ later)
    (e : DocEvent α β) (R : Option (DocRecord α)) :
    ∃ R', replayKey engine anchor later key R (walkImage anchor s now e) = some R' ∧
      (R' = shown (s.docs key) ∨ (R' = R ∧ (e = .image key → s.docs key = none))) := by
  cases e with
  | command c => exact ⟨R, rfl, Or.inr ⟨rfl, fun he => by cases he⟩⟩
  | image k =>
    rw [walkImage, resolve_eq ht hle]
    by_cases hsome : (s.docs k).isSome
    · rw [if_pos hsome, replayKey_stageFull h ht hle]
      by_cases hkey : k = key
      · exact ⟨_, rfl, Or.inl (if_pos hkey)⟩
      · exact ⟨_, rfl, Or.inr ⟨if_neg hkey, fun he => absurd (DocEvent.image.inj he) hkey⟩⟩
    · rw [if_neg hsome]
      refine ⟨R, rfl, Or.inr ⟨rfl, fun he => ?_⟩⟩
      rw [← DocEvent.image.inj he]
      exact not_isSome_iff_eq_none.mp hsome

/-- The images of a walk leave the key as it was at some moment of it, or find it absent whenever it is asked for. -/
private theorem replayKey_walk {walk : List (Nat × DocEvent α β)} (h : AllSound engine s) (ht : Timed anchor later s)
    (hrun : Steady engine anchor later s walk)
    (R : Option (DocRecord α)) : ∃ R', replayKey engine anchor later key R (images engine anchor s walk) = some R' ∧
      ((∃ ahead, ahead <+: walk ∧ R' = shown ((after engine anchor s ahead).docs key)) ∨
        (R' = R ∧ ∀ now, (now, .image key) ∈ walk → ∃ ahead, ahead <+: walk ∧
          (after engine anchor s ahead).docs key = none)) := by
  induction walk generalizing s R with
  | nil => exact ⟨R, rfl, Or.inr ⟨rfl, fun now hin => absurd hin not_mem_nil⟩⟩
  | cons e rest ih =>
    obtain ⟨⟨hle, ht', hu⟩, hrest⟩ := hrun
    have hm := (@step_spec _ _ engine anchor e.1 s h e.2 hu).1
    have hlater : ∀ ahead, ahead <+: rest → e :: ahead <+: e :: rest := fun ahead hahead => cons_prefix_cons.mpr ⟨rfl, hahead⟩
    obtain ⟨R₁, hR₁, hfirst⟩ := replayKey_walkImage h ht hle e.2 R
    obtain ⟨R', hR', hwhen⟩ := ih hm.sound ht' hrest R₁
    refine ⟨R', by rw [images, replayKey_append, hR₁, bind_some, hR'], ?_⟩
    rcases hwhen with ⟨ahead, hahead, hshown⟩ | ⟨rfl, habsent⟩
    · exact Or.inl ⟨e :: ahead, hlater ahead hahead, hshown⟩
    · rcases hfirst with hshown | ⟨rfl, hnone⟩
      · exact Or.inl ⟨[], nil_prefix, hshown⟩
      · refine Or.inr ⟨rfl, fun now hin => ?_⟩
        rcases mem_cons.mp hin with rfl | hin
        · exact ⟨[], nil_prefix, hnone rfl⟩
        · obtain ⟨ahead, hahead, hgone⟩ := habsent now hin
          exact ⟨e :: ahead, hlater ahead hahead, hgone⟩

end Steps

/-- The walk asks for every key that is there at all its moments. -/
def CoversDocs (engine : DocEngine α β) (anchor : WallAnchor) (first : DocStore α) (walk : List (Nat × DocEvent α β)) : Prop :=
  ∀ key, (∀ ahead, ahead <+: walk → ((after engine anchor first ahead).docs key).isSome) → ∃ now, (now, .image key) ∈ walk

/-- What a reader sees of a document. -/
def DocRecord.content (e : DocRecord α) : α × Option Nat := (e.doc, e.expireAtMs)

theorem shown_content (cell : Option (DocRecord α)) : (shown cell).map DocRecord.content = cell.map DocRecord.content := by
  cases cell with
  | none => rfl
  | some e =>
    simp only [shown, map_some]
    split
    · rfl
    · rfl

section
variable {engine : DocEngine α β} {anchor : WallAnchor} {later : Nat} {first : DocStore α}
  {before walk rest : List (Nat × DocEvent α β)}

/-- What a run from the empty store leaves is sound and has no deadline near. -/
theorem after_empty (hbefore : Steady engine anchor later ⟨fun _ => none, 1⟩ before) :
    AllSound engine (after engine anchor ⟨fun _ => none, 1⟩ before) ∧
      Timed anchor later (after engine anchor ⟨fun _ => none, 1⟩ before) := by
  have hempty : AllSound engine ⟨fun _ => none, 1⟩ := fun _ _ he => by cases he
  have htempty : Timed anchor later (⟨fun _ => none, 1⟩ : DocStore α) := fun _ _ _ he => by cases he
  exact ⟨(newer_after hempty hbefore (0, [])).2, timed_after htempty hbefore⟩

theorem replayDocs_eq (hs : AllSound engine first) (ht : Timed anchor later first) (hrun : Steady engine anchor later first (walk ++ rest))
    (hcovers : CoversDocs engine anchor first walk)
    (hshort : ∀ key, (staged engine anchor first (walk ++ rest)).countP (·.key = key) + 1 < 2 ^ 23) :
    replayDocs engine anchor later (fun _ => none) (images engine anchor first walk ++ staged engine anchor first (walk ++ rest)) =
      some fun key => shown ((after engine anchor first (walk ++ rest)).docs key) := by
  apply replay_of_keys
  intro key
  obtain ⟨R, hR, hwhen⟩ := replayKey_walk hs ht (steady_append hrun) none
  rw [replayKey_append, hR, bind_some]
  have hahead : ∃ ahead, ahead <+: walk ∧ R = shown ((after engine anchor first ahead).docs key) := by
    rcases hwhen with hahead | ⟨rfl, habsent⟩
    · exact hahead
    · by_cases hasked : ∃ now, (now, .image key) ∈ walk
      · obtain ⟨ahead, hahead, hnone⟩ := habsent _ hasked.choose_spec
        exact ⟨ahead, hahead, by rw [hnone, shown, map_none]⟩
      · obtain ⟨ahead, hahead, hnone⟩ := not_forall₂.mp (mt (hcovers key) hasked)
        rw [Bool.not_eq_true, isSome_eq_false_iff, isNone_iff_eq_none] at hnone
        exact ⟨ahead, hahead, by rw [hnone, shown, map_none]⟩
  obtain ⟨ahead, hahead, rfl⟩ := hahead
  exact replayKey_staged hs hrun (hshort key) (hahead.trans (prefix_append _ _))

end

/-- Where no path of a document with a deadline is written, the images of a checkpoint and the records staged
since it began replay, without refusal, to the documents and deadlines of the live store. -/
theorem doc_replay_converges (engine : DocEngine α β) (anchor : WallAnchor)
    (before walk rest : List (Nat × DocEvent α β)) {later : Nat}
    (hbefore : Steady engine anchor later ⟨fun _ => none, 1⟩ before)
    (hrun : Steady engine anchor later (after engine anchor ⟨fun _ => none, 1⟩ before) (walk ++ rest))
    (hcovers : CoversDocs engine anchor (after engine anchor ⟨fun _ => none, 1⟩ before) walk)
    (hshort : ∀ key, (staged engine anchor (after engine anchor ⟨fun _ => none, 1⟩ before)
      (walk ++ rest)).countP (·.key = key) + 1 < 2 ^ 23) :
    ∃ r, replayDocs engine anchor later (fun _ => none) (images engine anchor (after engine anchor ⟨fun _ => none, 1⟩ before) walk ++
        staged engine anchor (after engine anchor ⟨fun _ => none, 1⟩ before) (walk ++ rest)) = some r ∧
      ∀ key, (r key).map DocRecord.content =
        ((after engine anchor (after engine anchor ⟨fun _ => none, 1⟩ before) (walk ++ rest)).docs key).map DocRecord.content := by
  obtain ⟨hs, ht⟩ := after_empty hbefore
  exact ⟨_, replayDocs_eq hs ht hrun hcovers hshort, fun key => shown_content _⟩

/-- A counter within 300 bytes of document. -/
def counterEngine : DocEngine Nat Nat := ⟨fun k n => some (n + k, 1), fun _ => 300, fun _ _ => 60, fun _ => 9, fun _ => by decide⟩

/-- A document is set, dated and incremented. -/
def datedRun : List (Nat × DocEvent Nat Nat) :=
  [(1, .command (.set (0, [97]) 1 .always .keep)), (2, .command (.expire (0, [97]) (some (.at 200)) .always)),
    (3, .command (.path (0, [97]) 1 ⟨0, 0⟩))]

/-- An increment after `EXPIRE` is lost: replay of the deadline has moved the version past the delta. -/
theorem doc_replay_loses_delta : (replayDocs counterEngine ⟨100, 1750000000000⟩ 50 (fun _ => none)
        (staged counterEngine ⟨100, 1750000000000⟩ ⟨fun _ => none, 1⟩ datedRun)).map
        (fun r => (r (0, [97])).map DocRecord.content) =
      some (some (1, some 200)) ∧
      ((after counterEngine ⟨100, 1750000000000⟩ ⟨fun _ => none, 1⟩ datedRun).docs (0, [97])).map DocRecord.content =
        some (2, some 200) := by
  decide

section Counters
variable {anchor : WallAnchor} {later : Nat} {s : DocStore α}

theorem Timed.put (h : Timed anchor later s) (key : Key) (e : DocRecord α)
    (hdeadline : ∀ ms ∈ e.expireAtMs, later < ms ∧ anchor.Exact ms) : Timed anchor later (s.put key (some e)) := by
  intro k e' ms he' hms
  rcases put_cases he' with ⟨-, heq⟩ | hold
  · cases heq
    exact hdeadline ms hms
  · exact h k e' ms hold hms

/-- One counter that is written by path, and one that has a deadline. -/
def countersBefore : List (Nat × DocEvent Nat Nat) :=
  [(1, .command (.set (1, [97]) 1 .always .keep)), (2, .command (.set (1, [98]) 7 .always (.at 200)))]

/-- The increment falls between the image of the one and the image of the other. -/
def countersWalk : List (Nat × DocEvent Nat Nat) :=
  [(3, .image (1, [98])), (4, .command (.path (1, [97]) 1 ⟨0, 0⟩)), (5, .image (1, [97]))]

def countersRest : List (Nat × DocEvent Nat Nat) :=
  [(6, .command (.path (1, [97]) 1 ⟨1, 60⟩)), (7, .command (.expire (1, [98]) (some (.at 300)) .always))]

private theorem undated_path {key : Key} {e : DocRecord α} (he : s.docs key = some e) (hnone : e.expireAtMs = none)
    (op : β) (cadence : DocCadence) :
    Undated s (.path key op cadence) := by
  intro key' op' cadence' hpath e' he'
  cases hpath
  rw [← some.inj (he.symm.trans he'), hnone]

theorem counters_before : Steady counterEngine ⟨100, 1750000000000⟩ 50 ⟨fun _ => none, 1⟩ countersBefore := by
  have hempty (n : Nat) : Timed ⟨100, 1750000000000⟩ 50 (⟨fun _ => none, n⟩ : DocStore Nat) := fun _ _ _ he => by cases he
  have hfirst := (hempty 3).put (1, [97]) ⟨1, 1, 1, none⟩ nofun
  refine ⟨⟨by decide, (hempty 2).put (1, [97]) ⟨1, 1, 1, none⟩ nofun, ?_⟩,
    ⟨by decide, hfirst.put (1, [98]) ⟨7, 2, 1, some 200⟩ ?_, ?_⟩, trivial⟩
  · rintro c ⟨⟩ _ _ _ ⟨⟩
  · rintro ms ⟨⟩
    exact ⟨by decide, rfl⟩
  · rintro c ⟨⟩ _ _ _ ⟨⟩

def countersFirst : DocStore Nat := after counterEngine ⟨100, 1750000000000⟩ ⟨fun _ => none, 1⟩ countersBefore

theorem counters_run : Steady counterEngine ⟨100, 1750000000000⟩ 50 countersFirst (countersWalk ++ countersRest) := by
  have hbefore := (after_empty counters_before).2
  have hwalk := hbefore.put (1, [97]) ⟨2, 1, 2, none⟩ nofun
  have hpath := hwalk.put (1, [97]) ⟨3, 1, 3, none⟩ nofun
  refine ⟨⟨by decide, hbefore, nofun⟩, ⟨by decide, hwalk, ?_⟩, ⟨by decide, hwalk, nofun⟩, ⟨by decide, hpath, ?_⟩,
    ⟨by decide, hpath.put (1, [98]) ⟨7, 2, 2, some 300⟩ ?_, ?_⟩, trivial⟩
  · rintro c ⟨⟩
    exact undated_path (e := ⟨1, 1, 1, none⟩) rfl rfl _ _
  · rintro c ⟨⟩
    exact undated_path (e := ⟨2, 1, 2, none⟩) rfl rfl _ _
  · rintro ms ⟨⟩
    exact ⟨by decide, rfl⟩
  · rintro c ⟨⟩ _ _ _ ⟨⟩

theorem counters_covered : CoversDocs counterEngine ⟨100, 1750000000000⟩ countersFirst countersWalk := by
  intro key hkey
  by_cases ha : key = (1, [97])
  · exact ⟨5, by rw [ha]; simp [countersWalk]⟩
  by_cases hb : key = (1, [98])
  · exact ⟨3, by rw [hb]; simp [countersWalk]⟩
  -- no other key is there when the walk begins
  have hdocs : countersFirst.docs = Function.update (Function.update (fun _ => none) (1, [97]) (some ⟨1, 1, 1, none⟩))
    (1, [98]) (some ⟨7, 2, 1, some 200⟩) := rfl
  have hfirst : (countersFirst.docs key).isSome := hkey [] nil_prefix
  rw [hdocs, Function.update_of_ne hb, Function.update_of_ne ha] at hfirst
  cases hfirst

/-- Both increments and the later deadline are there, the images being from before them. -/
theorem doc_replay_converges_counters :
    ∃ r, replayDocs counterEngine ⟨100, 1750000000000⟩ 50 (fun _ => none)
        (images counterEngine ⟨100, 1750000000000⟩ countersFirst countersWalk ++
          staged counterEngine ⟨100, 1750000000000⟩ countersFirst (countersWalk ++ countersRest)) = some r ∧
      (r (1, [97])).map DocRecord.content = some (3, none) ∧ (r (1, [98])).map DocRecord.content = some (7, some 300) := by
  obtain ⟨r, hr, hfind⟩ := doc_replay_converges counterEngine ⟨100, 1750000000000⟩ countersBefore countersWalk countersRest
    counters_before counters_run counters_covered fun key => Nat.lt_of_le_of_lt (Nat.succ_le_succ countP_le_length) (by decide)
  exact ⟨r, hr, (hfind _).trans rfl, (hfind _).trans rfl⟩

end Counters

end InfinityDB.Replay
