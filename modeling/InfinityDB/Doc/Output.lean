import InfinityDB.Doc.Patch

/-!
# The output pass of a mutation

`build_output` streams the new tape around the byte edits that `drop_superseded` keeps: it copies the
gaps, writes the replacements and gives every header around an edit its new length. The byte edits
of a document make it the encoding of the rebuilt document.
-/

namespace InfinityDB

open Lib List Option

/-- One byte edit, with the headers whose lengths it changes. -/
structure ByteEdit where
  start : Nat
  stop : Nat
  repl : Bytes
  patch : List Nat

def ByteEdit.delta (e : ByteEdit) : Int := e.repl.length - (e.stop - e.start : Nat)

/-- What the edits add to the length in one header (`patches`). -/
def headerDelta (kept : List ByteEdit) (hdr : Nat) : Int := ((kept.filter fun e => hdr ∈ e.patch).map ByteEdit.delta).sum

/-- The rest of the tape from a position on, rewritten. At one offset the edits go before a header. -/
def stream (delta : Nat → Int) (pos : Nat) (rest : Bytes) (kept : List ByteEdit) : Bytes :=
  if kept.head?.any (·.start ≤ pos) then
    match kept with
    | [] => []
    | e :: kept => e.repl ++ stream delta e.stop (rest.drop (e.stop - pos)) kept
  else
    match rest with
    | [] => []
    | b :: rest =>
      if delta pos = 0 then b :: stream delta (pos + 1) rest kept
      else b :: (leBytes 3 (leValue (rest.take 3) + delta pos).toNat ++ stream delta (pos + 4) (rest.drop 3) kept)
termination_by rest.length + kept.length
decreasing_by all_goals simp <;> omega

def buildOutput (body : Bytes) (kept : List ByteEdit) (maxBody : Nat) : Except ApplyError Bytes :=
  let newLen := (body.length + (kept.map ByteEdit.delta).sum).toNat
  if newLen ≤ maxBody then
    .ok (TapeBuilder.patchHeader (replicate headerLen 0 ++ stream (headerDelta kept) 0 body kept) newLen)
  else .error .tooLarge

def insertAt (anc : List Nat) (pos : Nat) (bytes : Bytes) : List ByteEdit := if bytes = [] then [] else [⟨pos, pos, bytes, anc⟩]

def replaceOr (edits : List Edit) (anc : List Nat) (pos len : Nat) (inner : List ByteEdit) : List ByteEdit :=
  (replacement? edits).elim inner fun value => [⟨pos, pos + len, value.bytes, anc⟩]

mutual

/-- The byte edits of a value at `pos`, in the containers with the headers `anc`: in the order of the tape, without
those inside an edited range. -/
def Doc.cuts (edits : List Edit) (anc : List Nat) (pos : Nat) : Doc → List ByteEdit
  | .scalar value => replaceOr edits anc pos (emitScalar value).length []
  | .arr items => replaceOr edits anc pos (4 + (itemsBytes items).length) (cutsItems edits (anc ++ [pos]) (pos + 4) 0 items)
  | .obj members =>
    replaceOr edits anc pos (4 + (membersBytes members).length) (cutsMembers edits (anc ++ [pos]) (pos + 4) 0 members)

def cutsItems (edits : List Edit) (anc : List Nat) : Nat → Nat → List Doc → List ByteEdit
  | pos, ord, [] => insertAt anc pos (itemsBytes (splices ord edits))
  | pos, ord, item :: items =>
    insertAt anc pos (itemsBytes (splices ord edits)) ++
      (if removes ord edits then [⟨pos, pos + item.bytes.length, [], anc⟩] else item.cuts (under ord edits) anc pos) ++
      cutsItems edits anc (pos + item.bytes.length) (ord + 1) items

def cutsMembers (edits : List Edit) (anc : List Nat) : Nat → Nat → List (Bytes × Doc) → List ByteEdit
  | pos, _, [] => insertAt anc pos (membersBytes (inserted edits))
  | pos, ord, (key, value) :: members =>
    (if removes ord edits then [⟨pos, pos + (emitStr key ++ value.bytes).length, [], anc⟩]
      else value.cuts (under ord edits) anc (pos + (emitStr key).length)) ++
      cutsMembers edits anc (pos + (emitStr key ++ value.bytes).length) (ord + 1) members

end

section Streams
variable {anc : List Nat} {pos hdr : Nat} {old new t : Bytes} {cuts cuts' : List ByteEdit} {delta : Nat → Int}

/-- No edit is due before the next byte. -/
theorem stream_byte {b : UInt8} (h : ∀ e ∈ cuts, pos < e.start) : stream delta pos (b :: t) cuts =
    if delta pos = 0 then b :: stream delta (pos + 1) t cuts
    else b :: (leBytes 3 (leValue (t.take 3) + delta pos).toNat ++ stream delta (pos + 4) (t.drop 3) cuts) := by
  have hnone : ¬ cuts.head?.any (·.start ≤ pos) = true := by
    cases cuts with
    | nil => simp
    | cons e cuts => simpa using h e mem_cons_self
  rw [stream.eq_def, if_neg hnone]

theorem stream_copy (hquiet : ∀ hdr, pos ≤ hdr → hdr < pos + old.length → delta hdr = 0)
    (hlater : ∀ e ∈ cuts, pos + old.length ≤ e.start) :
    stream delta pos (old ++ t) cuts = old ++ stream delta (pos + old.length) t cuts := by
  induction old generalizing pos with
  | nil => rfl
  | cons b old ih =>
    have hpos : pos + (b :: old).length = pos + 1 + old.length := by simp; omega
    rw [hpos] at hquiet hlater ⊢
    rw [cons_append, stream_byte fun e he => by have := hlater e he; omega, if_pos (hquiet pos le_rfl (by omega)),
      ih (fun hdr hlo => hquiet hdr (by omega)) hlater, cons_append]

/-- The bytes `old` at a position become `new` under these edits. -/
structure Streams (anc : List Nat) (pos : Nat) (old new : Bytes) (cuts : List ByteEdit) : Prop where
  starts : ∀ e ∈ cuts, pos ≤ e.start
  patch : ∀ e ∈ cuts, ∃ own, e.patch = anc ++ own ∧ ∀ hdr ∈ own, pos ≤ hdr ∧ hdr < pos + old.length
  grows : (cuts.map ByteEdit.delta).sum = new.length - old.length
  output : ∀ {t : Bytes} {delta : Nat → Int} {later : List ByteEdit},
    (∀ hdr, pos ≤ hdr → hdr < pos + old.length → delta hdr = headerDelta cuts hdr) → (∀ e ∈ later, pos + old.length ≤ e.start) →
    stream delta pos (old ++ t) (cuts ++ later) = new ++ stream delta (pos + old.length) t later

theorem Streams.same (anc : List Nat) (pos : Nat) (old : Bytes) : Streams anc pos old old [] where
  starts := nofun
  patch := nofun
  grows := by simp
  output hdelta hlater := stream_copy (fun hdr hlo hhi => (hdelta hdr hlo hhi).trans rfl) hlater

theorem Streams.cut (anc : List Nat) (pos : Nat) (old new : Bytes) :
    Streams anc pos old new [⟨pos, pos + old.length, new, anc⟩] where
  starts := by simp
  patch := by simp
  grows := by simp [ByteEdit.delta]
  output hdelta hlater := by
    rw [singleton_append, stream.eq_def, if_pos (by simp)]
    simp

/-- The edits change no header of another part. -/
theorem Streams.quiet (h : Streams anc pos old new cuts) (hanc : hdr ∉ anc) (hout : hdr < pos ∨ pos + old.length ≤ hdr) :
    headerDelta cuts hdr = 0 := by
  rw [headerDelta, filter_eq_nil_iff.mpr fun e he => ?_]
  · rfl
  obtain ⟨own, hpatch, hown⟩ := h.patch e he
  grind

theorem Streams.append {old' new' : Bytes} (hanc : ∀ hdr ∈ anc, hdr < pos) (h : Streams anc pos old new cuts)
    (h' : Streams anc (pos + old.length) old' new' cuts') : Streams anc pos (old ++ old') (new ++ new') (cuts ++ cuts') where
  starts e he := (mem_append.mp he).elim (h.starts e) fun he => (Nat.le_add_right _ _).trans (h'.starts e he)
  patch e he := by
    rw [length_append]
    rcases mem_append.mp he with he | he
    · obtain ⟨own, hpatch, hown⟩ := h.patch e he
      exact ⟨own, hpatch, by grind⟩
    · obtain ⟨own, hpatch, hown⟩ := h'.patch e he
      exact ⟨own, hpatch, by grind⟩
  grows := by
    rw [map_append, sum_append, h.grows, h'.grows, length_append, length_append]
    omega
  output {t delta later} hdelta hlater := by
    rw [length_append] at hdelta hlater ⊢
    have hsum (hdr : Nat) : headerDelta (cuts ++ cuts') hdr = headerDelta cuts hdr + headerDelta cuts' hdr := by simp [headerDelta]
    rw [append_assoc, append_assoc, h.output, h'.output, append_assoc, add_assoc]
    · intro hdr hlo hhi
      rw [hdelta hdr (by omega) (by omega), hsum, h.quiet (fun hin => (hanc hdr hin).not_ge (by omega)) (.inr hlo), zero_add]
    · simpa [add_assoc] using hlater
    · intro hdr hlo hhi
      rw [hdelta hdr hlo (by omega), hsum, h'.quiet (fun hin => (hanc hdr hin).not_ge hlo) (.inl hhi), add_zero]
    · intro e he
      exact (mem_append.mp he).elim (h'.starts e) fun he => le_trans (by omega) (hlater e he)

/-- The header around the edited bytes gets their new length, or stays if that is the old one. -/
theorem Streams.enclose {tag : UInt8} (hanc : ∀ hdr ∈ anc, hdr < pos) (hsize : old.length < 2 ^ 24)
    (h : Streams (anc ++ [pos]) (pos + 4) old new cuts) : Streams anc pos (container tag old) (container tag new) cuts where
  starts e he := (Nat.le_add_right _ _).trans (h.starts e he)
  patch e he := by
    obtain ⟨own, hpatch, hown⟩ := h.patch e he
    rw [container_length]
    exact ⟨pos :: own, by rw [hpatch, append_assoc, singleton_append], by grind⟩
  grows := by
    rw [h.grows, container_length, container_length]
    omega
  output {t delta later} hdelta hlater := by
    rw [container_length] at hdelta hlater ⊢
    have hown : delta pos = new.length - old.length := by
      rw [hdelta pos le_rfl (by omega), headerDelta, filter_eq_self.mpr fun e he => ?_, h.grows]
      obtain ⟨own, hpatch, -⟩ := h.patch e he
      simp [hpatch]
    have hquiet (hdr : Nat) (hlo : pos < hdr) (hhi : hdr < pos + 4) : delta hdr = 0 := by
      rw [hdelta hdr (by omega) (by omega)]
      exact h.quiet (by grind) (.inl hhi)
    have hlater' : ∀ e ∈ cuts ++ later, pos + 4 ≤ e.start := fun e he =>
      (mem_append.mp he).elim (h.starts e) fun he => le_trans (by omega) (hlater e he)
    have hstream := @h.output t delta later (fun hdr hlo hhi => hdelta hdr (by omega) (by omega)) (by simpa [add_assoc] using hlater)
    rw [container, container, cons_append, append_assoc, stream_byte fun e he => by have := hlater' e he; omega]
    split
    next hsame =>
      have hlen : new.length = old.length := by omega
      rw [stream_copy (fun hdr hlo hhi => hquiet hdr (by omega) (by simp at hhi; omega)) (by simpa [add_assoc] using hlater'),
        leBytes_length, hstream, hlen]
      simp [add_assoc]
    · have hlen : (leValue (leBytes 3 old.length) + delta pos).toNat = new.length := by
        rw [leValue_leBytes hsize, hown]
        omega
      rw [take_left' (leBytes_length 3 _), drop_left' (leBytes_length 3 _), hstream, hlen]
      simp [add_assoc]

theorem streams_insertAt (anc : List Nat) (pos : Nat) (bytes : Bytes) : Streams anc pos [] bytes (insertAt anc pos bytes) := by
  rw [insertAt]
  split
  next hnil => rw [hnil]; exact .same anc pos []
  · exact .cut anc pos [] bytes

theorem streams_replaceOr {edits : List Edit} {len : Nat} {d : Doc} (hlen : old.length = len) (h : Streams anc pos old d.bytes cuts) :
    Streams anc pos old ((replacement? edits).getD d).bytes (replaceOr edits anc pos len cuts) := by
  rw [replaceOr, ← hlen]
  cases replacement? edits with
  | some value => exact .cut anc pos old value.bytes
  | none => exact h

theorem streams_removeOr (gone : Bool) (h : Streams anc pos old new cuts) :
    Streams anc pos old (if gone then [] else new) (if gone then [⟨pos, pos + old.length, [], anc⟩] else cuts) := by
  cases gone
  · exact h
  · exact .cut anc pos old []

end Streams

mutual

theorem Doc.streams (edits : List Edit) (anc : List Nat) (pos : Nat) (hanc : ∀ hdr ∈ anc, hdr < pos) :
    (d : Doc) → d.bytes.length < 2 ^ 24 → Streams anc pos d.bytes (d.rebuild edits).bytes (d.cuts edits anc pos)
  | .scalar value, _ => streams_replaceOr rfl (.same anc pos _)
  | .arr items, hsize => by
    rw [Doc.bytes, container_length] at hsize
    have hitems := streams_items edits (anc ++ [pos]) (pos + 4) (by grind) 0 items (by omega)
    exact streams_replaceOr (container_length _ _) (.enclose hanc (by omega) hitems)
  | .obj members, hsize => by
    rw [Doc.bytes, container_length] at hsize
    have hmembers := streams_members edits (anc ++ [pos]) (pos + 4) (by grind) 0 members (by omega)
    exact streams_replaceOr (container_length _ _) (.enclose hanc (by omega) hmembers)

theorem streams_items (edits : List Edit) (anc : List Nat) (pos : Nat) (hanc : ∀ hdr ∈ anc, hdr < pos) (ord : Nat) :
    (items : List Doc) → (itemsBytes items).length < 2 ^ 24 →
      Streams anc pos (itemsBytes items) (itemsBytes (rebuildItems edits ord items)) (cutsItems edits anc pos ord items)
  | [], _ => streams_insertAt anc pos _
  | item :: items, hsize => by
    rw [itemsBytes, length_append] at hsize
    have hitem := streams_removeOr (removes ord edits) (item.streams (under ord edits) anc pos hanc (by omega))
    have hlater := streams_items edits anc (pos + item.bytes.length) (by grind) (ord + 1) items (by omega)
    have hall := ((streams_insertAt anc pos (itemsBytes (splices ord edits))).append hanc hitem).append hanc hlater
    simpa [itemsBytes, rebuildItems, cutsItems, itemsBytes_append, apply_ite itemsBytes] using hall

theorem streams_members (edits : List Edit) (anc : List Nat) (pos : Nat) (hanc : ∀ hdr ∈ anc, hdr < pos) (ord : Nat) :
    (members : List (Bytes × Doc)) → (membersBytes members).length < 2 ^ 24 → Streams anc pos (membersBytes members)
      (membersBytes (rebuildMembers edits ord members ++ inserted edits)) (cutsMembers edits anc pos ord members)
  | [], _ => streams_insertAt anc pos _
  | (key, value) :: members, hsize => by
    rw [membersBytes, length_append, length_append] at hsize
    have hvalue := value.streams (under ord edits) anc (pos + (emitStr key).length) (by grind) (by omega)
    have hmember := streams_removeOr (removes ord edits) ((Streams.same anc pos (emitStr key)).append hanc hvalue)
    have hall := hmember.append hanc (streams_members edits anc _ (by grind) (ord + 1) members (by omega))
    simpa [membersBytes, rebuildMembers, cutsMembers, membersBytes_append, apply_ite membersBytes] using hall

end

/-- On the byte edits of a document the output pass gives the rebuilt document, unless that is too large. -/
theorem buildOutput_cuts (d : Doc) (hsize : d.bytes.length < 2 ^ 24) (edits : List Edit) (maxBody : Nat) :
    buildOutput d.bytes (d.cuts edits [] 0) maxBody =
      if (d.rebuild edits).encodedLen ≤ maxBody then .ok (d.rebuild edits).stored else .error .tooLarge := by
  have h := d.streams edits [] 0 nofun hsize
  have hlen : ((d.bytes.length : Int) + ((d.cuts edits [] 0).map ByteEdit.delta).sum).toNat = (d.rebuild edits).bytes.length := by
    rw [h.grows]
    omega
  have hstream := @h.output [] _ [] (fun hdr _ _ => rfl) nofun
  rw [append_nil, append_nil, stream, if_neg (by simp), append_nil] at hstream
  rw [buildOutput, hlen, hstream, ← Doc.bytes_length]
  rfl

end InfinityDB
