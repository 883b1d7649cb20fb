import InfinityDB.Replay.Documents

/-!
# A crash after a fuzzy checkpoint

The images of a walk are published once the durable watermark has reached the
begin marker. What a crash then keeps of the log may end before records of
commands that an image already shows. A walk whose last image the watermark
covers at the publication recovers to a state of the live cell, string keys
and documents together.
-/

namespace InfinityDB.Replay

open List Live

/-- What happens in a cell, to its string keys or to its documents. -/
inductive CellEvent (α β : Type) where
  | string (e : Event)
  | doc (e : DocEvent α β)

/-- A key holds strings or documents, never one after the other. -/
structure Cell (α : Type) where
  strings : Store
  docs : DocStore α

variable {α β : Type}

def stringsOf (events : List (Nat × CellEvent α β)) : List (Nat × Event) :=
  events.filterMap fun
    | (now, .string e) => some (now, e)
    | (_, .doc _) => none

def docsOf (events : List (Nat × CellEvent α β)) : List (Nat × DocEvent α β) :=
  events.filterMap fun
    | (now, .doc e) => some (now, e)
    | (_, .string _) => none

section
variable (engine : DocEngine α β) (anchor : WallAnchor)

def reachedCell (before : List (Nat × CellEvent α β)) : Cell α :=
  ⟨reached (stringsOf before), after engine anchor ⟨fun _ => none, 1⟩ (docsOf before)⟩

variable (first : Cell α)

/-- What recovery at a reading asks of the run before the crash: the walk has an image of every key that is
there in all its moments, deadlines convert exactly, none of a string key is the reading, and documents are
as their replay needs them. -/
structure Replayable (later begin : Nat) (walk rest : List (Nat × CellEvent α β)) : Prop where
  start : ∃ before, first = reachedCell engine anchor before ∧ Steady engine anchor later ⟨fun _ => none, 1⟩ (docsOf before)
  begin_le : begin ≤ later
  readings : ∀ e ∈ stringsOf (walk ++ rest), e.1 ≤ later
  covers : Covers first.strings begin (stringsOf walk)
  timed : ((began first.strings).run (stringsOf (walk ++ rest))).Timed anchor later
  steady : Steady engine anchor later first.docs (docsOf (walk ++ rest))
  coversDocs : CoversDocs engine anchor first.docs (docsOf walk)
  short : ∀ key, (staged engine anchor first.docs (docsOf (walk ++ rest))).countP (·.key = key) + 1 < 2 ^ 23

end

section
variable {engine : DocEngine α β} {anchor : WallAnchor} {first : Cell α} {beginLsn watermark kept begin later : Nat}
  {walk rest more tail : List (Nat × CellEvent α β)}

theorem stringsOf_append (walk rest : List (Nat × CellEvent α β)) : stringsOf (walk ++ rest) = stringsOf walk ++ stringsOf rest :=
  filterMap_append

theorem docsOf_append (walk rest : List (Nat × CellEvent α β)) : docsOf (walk ++ rest) = docsOf walk ++ docsOf rest :=
  filterMap_append

theorem run_append (live : Live) (walk rest : List (Nat × Event)) : live.run (walk ++ rest) = (live.run walk).run rest := foldl_append

/-- The string keys, recovered from a log that ends with some of the events after the walk. -/
theorem Replayable.strings (h : Replayable engine anchor first later begin walk (more ++ tail)) :
    ∃ r, replay anchor later (fun _ => none) ((((began first.strings).run (stringsOf walk)).images ++
        ((began first.strings).run (stringsOf (walk ++ more))).logged).flatMap (Shot.records anchor)) = some r ∧
      ∀ key, r.find key later = ((began first.strings).run (stringsOf (walk ++ more))).store.find key later := by
  obtain ⟨before, hfirst, -⟩ := h.start
  have hstart : first.strings = reached (stringsOf before) := congrArg Cell.strings hfirst
  have htimed := h.timed
  have hnow := h.readings
  rw [← append_assoc, stringsOf_append (walk ++ more)] at htimed hnow
  have hgrows := run_grows ((began first.strings).run (stringsOf (walk ++ more))) (stringsOf tail)
  have himages := (run_grows ((began first.strings).run (stringsOf walk)) (stringsOf more)).2
  rw [← run_append] at hgrows
  rw [← run_append, ← stringsOf_append] at himages
  refine ⟨_, replay_restore ?_ _, ?_⟩
  · intro shot hshot
    rw [hstart] at htimed hgrows himages hshot
    apply htimed.sound (stringsOf before)
    rcases mem_append.mp hshot with hshot | hshot
    · exact mem_append_left _ (hgrows.2 (himages hshot))
    · exact mem_append_right _ (hgrows.1.subset hshot)
  · rw [stringsOf_append] at himages hnow ⊢
    apply restore_eq h.begin_le _ h.covers (List.Subset.refl _) himages
    exact fun e he => hnow e (mem_append_left _ he)

theorem Replayable.docs (h : Replayable engine anchor first later begin walk (more ++ tail)) :
    ∃ r, replayDocs engine anchor later (fun _ => none) (images engine anchor first.docs (docsOf walk) ++
        staged engine anchor first.docs (docsOf (walk ++ more))) = some r ∧
      ∀ key, (r key).map DocRecord.content =
        ((after engine anchor first.docs (docsOf (walk ++ more))).docs key).map DocRecord.content := by
  obtain ⟨before, hfirst, hbefore⟩ := h.start
  obtain ⟨hs, ht⟩ := after_empty hbefore
  rw [← show first.docs = after engine anchor ⟨fun _ => none, 1⟩ (docsOf before) from congrArg Cell.docs hfirst] at hs ht
  have hsteady := h.steady
  have hshort := h.short
  rw [← append_assoc, docsOf_append (walk ++ more)] at hsteady hshort
  have hkept := steady_append hsteady
  rw [docsOf_append] at hkept hshort ⊢
  refine ⟨_, replayDocs_eq hs ht hkept h.coversDocs fun key => ?_, fun key => shown_content _⟩
  have hkey := hshort key
  rw [staged_append, countP_append] at hkey
  omega

end

end InfinityDB.Replay
