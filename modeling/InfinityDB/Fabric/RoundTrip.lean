import InfinityDB.Fabric.CodecExact

/-!
# Ops and their frames

A frame is decoded as the op it was encoded from, alone or in front of others, unless it is a batch that
nests an op in a default namespace; and what is decoded is encoded as the same bytes.
-/

namespace InfinityDB.Fabric

open Lib List Option

def PayloadForm (op : Op) (payload : Bytes) : Prop := op.Sound ∧ encodeLeafPayload op = some payload ∨ BatchForm op payload

theorem decodeFrame_spec (buf : Bytes) :
    DecodesTo (decodeFrame buf) (fun read => ∃ payload rest, buf = frameBytes read.1 payload ++ rest ∧
      read.2 = (frameBytes read.1 payload).length ∧
      payload.length < 2 ^ 32 ∧ PayloadForm read.1 payload) := by
  cases hheader : decodeHeader buf with
  | error error =>
    have hframe : decodeFrame buf = some (.error error) := by
      unfold decodeFrame
      rw [hheader]
    rw [hframe]
    refine ⟨some_ne_none _, fun read => ⟨(fun h => nomatch h), ?_⟩⟩
    rintro ⟨payload, rest, hbuf, -, hfits, -⟩
    have hok := (decodeHeader_ok_iff buf ⟨read.1.opcode, read.1.program, payload, headerLen + payload.length⟩).mpr
      ⟨⟨hfits, rfl, program_opcode⟩, rest, hbuf⟩
    rw [hheader] at hok
    cases hok
  | ok header =>
    obtain ⟨hform, rest, hbuf⟩ := (decodeHeader_ok_iff buf header).mp hheader
    -- the payload under the header's opcode
    have hpayload : DecodesTo (if header.opcode = opBatch then whole (readBatch.on header.payload) else decodeLeaf header)
        (fun op => op.opcode = header.opcode ∧ op.program = header.program ∧ PayloadForm op header.payload) := by
      by_cases hbatch : header.opcode = opBatch
      · rw [if_pos hbatch]
        obtain ⟨hreturns, hok⟩ := whole_decodesTo reads_batch header.payload
        refine ⟨hreturns, fun op => (hok op).trans ⟨fun hform' => ?_, ?_⟩⟩
        · obtain ⟨ops, frames, rfl, -⟩ := id hform'
          have hflag : header.program = false := by
            by_contra hset
            rcases hform.flag (Bool.not_eq_false _ ▸ hset) with h | h <;> rw [hbatch] at h <;> exact absurd h (by decide)
          exact ⟨hbatch.symm, hflag.symm, .inr hform'⟩
        · rintro ⟨hop, -, hleaf | hbatchForm⟩
          · rw [opcode_eq_batch (hop.trans hbatch)] at hleaf
            exact absurd hleaf.2 (some_ne_none _).symm
          · exact hbatchForm
      · rw [if_neg hbatch]
        obtain ⟨hreturns, hok⟩ := decodeLeaf_spec header
        refine ⟨hreturns, fun op => (hok op).trans ⟨?_, ?_⟩⟩
        · rintro ⟨hop, hprogram, hsound, hleaf⟩
          exact ⟨hop, (programIs_iff hform hop).mp hprogram, .inl ⟨hsound, hleaf⟩⟩
        · rintro ⟨hop, hprogram, ⟨hsound, hleaf⟩ | ⟨ops, frames, rfl, -⟩⟩
          · exact ⟨hop, (programIs_iff hform hop).mpr hprogram, hsound, hleaf⟩
          · exact absurd hop.symm hbatch
    have hmatch (op : Op) (payload rest : Bytes) (hfits : payload.length < 2 ^ 32) (hbuf' : buf = frameBytes op payload ++ rest) :
        op.opcode = header.opcode ∧ op.program = header.program ∧ payload = header.payload := by
      have hok := (decodeHeader_ok_iff buf ⟨op.opcode, op.program, payload, headerLen + payload.length⟩).mpr
        ⟨⟨hfits, rfl, program_opcode⟩, rest, hbuf'⟩
      rw [hheader] at hok
      cases hok
      exact ⟨rfl, rfl, rfl⟩
    unfold decodeFrame
    rw [hheader]
    dsimp only
    obtain ⟨hreturns, hok⟩ := hpayload
    cases houtcome : (if header.opcode = opBatch then whole (readBatch.on header.payload) else decodeLeaf header) with
    | none => exact absurd houtcome hreturns
    | some outcome =>
      rw [houtcome] at hok
      cases outcome with
      | error error =>
        refine ⟨some_ne_none _, fun read => ⟨(fun h => nomatch h), ?_⟩⟩
        rintro ⟨payload, rest', hbuf', -, hfits, hpayload⟩
        obtain ⟨hop, hprogram, rfl⟩ := hmatch read.1 payload rest' hfits hbuf'
        cases (hok read.1).mpr ⟨hop, hprogram, hpayload⟩
      | ok op =>
        obtain ⟨hop, hprogram, hpayload⟩ := (hok op).mp rfl
        have hframe : buf = frameBytes op header.payload ++ rest := by rw [frameBytes, hop, hprogram, hbuf]
        have hstop : header.stop = (frameBytes op header.payload).length := by
          rw [frameBytes, length_append, headerBytes_length, hform.stop_eq]
        refine ⟨some_ne_none _, fun read => ⟨?_, ?_⟩⟩
        · intro h
          cases h
          exact ⟨header.payload, rest, hframe, hstop, hform.fits, hpayload⟩
        · obtain ⟨op', used⟩ := read
          rintro ⟨payload, rest', hbuf', hused, hfits, hpayload'⟩
          dsimp only at hbuf' hused hpayload' ⊢
          obtain ⟨hop', hprogram', rfl⟩ := hmatch op' payload rest' hfits hbuf'
          cases (hok op').mpr ⟨hop', hprogram', hpayload'⟩
          rw [hstop, hused]

theorem finishFrame_eq (op : Op) (out payload : Bytes) :
    finishFrame (beginFrame op out ++ payload) out.length =
      if 2 ^ 32 ≤ payload.length then none else some (out ++ frameBytes op payload) := by
  have hdrop : (beginFrame op out ++ payload).drop out.length =
      [codecVersion, op.opcode] ++ leBytes 2 op.headerFlags ++ [0, 0, 0, 0] ++ payload := by
    rw [beginFrame, append_assoc, append_assoc, append_assoc, drop_left]
    simp only [append_assoc]
  have hhead : ([codecVersion, op.opcode] ++ leBytes 2 op.headerFlags).length = 4 := by
    rw [length_append, leBytes_length]
    rfl
  have hlen : ([codecVersion, op.opcode] ++ leBytes 2 op.headerFlags ++ [0, 0, 0, 0]).length = headerLen := by
    rw [length_append, hhead]
    rfl
  have htake : (beginFrame op out ++ payload).take out.length = out := by
    rw [beginFrame, append_assoc, append_assoc, append_assoc, take_left]
  unfold finishFrame
  dsimp only
  rw [hdrop, drop_left' hlen, take_left' hlen, take_left' hhead, htake, headerFlags_eq, append_assoc, append_assoc]
  rfl

def LeafSpelled (op : Op) (frame : Bytes) : Prop :=
  ∃ payload, frame = frameBytes op payload ∧ payload.length < 2 ^ 32 ∧ encodeLeafPayload op = some payload

theorem encodeNested_iff (op : Op) (out written : Bytes) :
    encodeNested op out = some written ↔ ∃ frame, LeafSpelled op frame ∧ written = out ++ frame := by
  unfold encodeNested LeafSpelled
  cases hpayload : encodeLeafPayload op with
  | none => simp
  | some payload =>
    rw [option_some_bind, finishFrame_eq]
    constructor
    · intro h
      obtain ⟨hfits, h⟩ := ite_none_left_eq_some.mp h
      exact ⟨_, ⟨payload, rfl, not_le.mp hfits, rfl⟩, (some.inj h).symm⟩
    · rintro ⟨_, ⟨_, rfl, hfits, heq⟩, rfl⟩
      cases heq
      rw [if_neg (not_le.mpr hfits)]

theorem encodeAllNested_iff (ops : List Op) (out written : Bytes) :
    encodeAllNested ops out = some written ↔ ∃ frames, List.Forall₂ LeafSpelled ops frames ∧ written = out ++ frames.flatten := by
  induction ops generalizing out with
  | nil =>
    constructor
    · intro h
      cases h
      exact ⟨[], .nil, (append_nil _).symm⟩
    · rintro ⟨frames, hframes, rfl⟩
      cases hframes
      rw [flatten_nil, append_nil]
      rfl
  | cons op ops ih =>
    unfold encodeAllNested
    constructor
    · intro h
      obtain ⟨mid, hfirst, hrest⟩ := bind_eq_some_iff.mp h
      obtain ⟨frame, hframe, rfl⟩ := (encodeNested_iff op out mid).mp hfirst
      obtain ⟨frames, hframes, rfl⟩ := (ih _).mp hrest
      exact ⟨frame :: frames, .cons hframe hframes, append_assoc _ _ _⟩
    · rintro ⟨frames, hframes, rfl⟩
      cases hframes with
      | cons hframe hframes =>
        refine bind_eq_some_iff.mpr ⟨_, (encodeNested_iff op out _).mpr ⟨_, hframe, rfl⟩, (ih _).mpr ⟨_, hframes, ?_⟩⟩
        rw [flatten_cons, append_assoc]

def Spelled (op : Op) (payload : Bytes) : Prop :=
  match op with
  | .batch ops => ∃ frames, List.Forall₂ LeafSpelled ops frames ∧ payload = encodeVarint (UInt64.ofNat ops.length) ++ frames.flatten
  | op => encodeLeafPayload op = some payload

theorem encodePayload_iff (op : Op) (out written : Bytes) :
    encodePayload op out = some written ↔ ∃ payload, Spelled op payload ∧ written = out ++ payload := by
  have hleaf (hpayload : encodePayload op out = (encodeLeafPayload op).map (out ++ ·))
      (hspelled : ∀ payload, Spelled op payload ↔ encodeLeafPayload op = some payload) :
      encodePayload op out = some written ↔ ∃ payload, Spelled op payload ∧ written = out ++ payload := by
    rw [hpayload, map_eq_some_iff]
    simp only [hspelled, eq_comm]
  cases op with
  | batch ops =>
    unfold encodePayload Spelled
    dsimp only
    rw [encodeAllNested_iff]
    constructor
    · rintro ⟨frames, hframes, rfl⟩
      exact ⟨_, ⟨frames, hframes, rfl⟩, append_assoc _ _ _⟩
    · rintro ⟨_, ⟨frames, hframes, rfl⟩, rfl⟩
      exact ⟨frames, hframes, (append_assoc _ _ _).symm⟩
  | _ => exact hleaf rfl fun _ => Iff.rfl

/-- What the encoder writes, and when. -/
theorem encode_iff (op : Op) (out written : Bytes) :
    encode op out = some written ↔ refused op = false ∧ ∃ payload, Spelled op payload ∧
      payload.length < 2 ^ 32 ∧ written = out ++ frameBytes op payload := by
  unfold encode
  cases hrefused : refused op with
  | true => simp
  | false =>
    rw [if_neg Bool.false_ne_true]
    constructor
    · intro h
      obtain ⟨mid, hpayload, hfinish⟩ := bind_eq_some_iff.mp h
      obtain ⟨payload, hspelled, rfl⟩ := (encodePayload_iff op _ mid).mp hpayload
      rw [finishFrame_eq] at hfinish
      obtain ⟨hfits, hfinish⟩ := ite_none_left_eq_some.mp hfinish
      exact ⟨rfl, payload, hspelled, not_le.mp hfits, (some.inj hfinish).symm⟩
    · rintro ⟨-, payload, hspelled, hfits, rfl⟩
      refine bind_eq_some_iff.mpr ⟨_, (encodePayload_iff op _ _).mpr ⟨payload, hspelled, rfl⟩, ?_⟩
      rw [finishFrame_eq, if_neg (not_le.mpr hfits)]

/-- Known error codes in their own variants. -/
def Op.canonical : Op → Op
  | .reply token (.err code) => .reply token (.err (.fromU16 code.toU16))
  | op => op

/-- A namespace that may ride its opcode. -/
def Op.Named : Op → Prop
  | .applyNs _ _ _ ns _ _ => applyNsMin ≤ ns.toNat
  | _ => True

/-- No op nested in a batch names a default namespace. -/
def NestedNamed : Op → Prop
  | .batch ops => ∀ op ∈ ops, op.Named
  | _ => True

def batchCount : Op → Nat
  | .batch ops => ops.length
  | _ => 0

private theorem canonical_frame (op : Op) (payload : Bytes) : frameBytes op.canonical payload = frameBytes op payload := by
  cases op with
  | reply token outcome => cases outcome <;> rfl
  | _ => rfl

private theorem canonical_payload (op : Op) : encodeLeafPayload op.canonical = encodeLeafPayload op := by
  cases op with
  | reply token outcome =>
    cases outcome with
    | err code =>
      simp only [Op.canonical, encodeLeafPayload, encodeOutcome, ErrCode.toU16_fromU16]
    | _ => rfl
  | _ => rfl

theorem counted_of_le {value : Bytes} {n : Nat} (hle : (encodeBytes value).length ≤ n) (h : n < 2 ^ 32) : Counted value := by
  rw [encodeBytes, length_append] at hle
  unfold Counted
  omega

private theorem args_counted {args : ApplyArgs} {n : Nat} (hle : (encodeArgs args).length ≤ n) (h : n < 2 ^ 32) : args.Counted := by
  intro arg harg
  obtain ⟨front, back, hsplit⟩ := append_of_mem harg
  refine counted_of_le ?_ h
  rw [encodeArgs, hsplit, flatMap_append, flatMap_cons, length_append, length_append, length_append] at hle
  omega

variable {op : Op} {payload : Bytes}

/-- What the encoder spelled in a frame is sound, up to the namespace. -/
theorem sound_of_spelled (hnamed : op.Named) (hpayload : encodeLeafPayload op = some payload) (hfits : payload.length < 2 ^ 32) :
    op.canonical.Sound := by
  have hle := le_refl payload.length
  cases op with
  | read token slot key =>
    cases hpayload
    exact counted_of_le (by simp only [length_append]; omega) hfits
  | write token slot key value expireAt flags =>
    cases hpayload
    constructor <;> exact counted_of_le (by simp only [length_append]; omega) hfits
  | apply token slot cmd args program =>
    cases hpayload
    exact args_counted (by simp only [length_append]; omega) hfits
  | applyNs token slot cmd ns args program =>
    cases hpayload
    exact ⟨hnamed, args_counted (by simp only [length_append]; omega) hfits⟩
  | batch => cases hpayload
  | reply token outcome =>
    cases hpayload
    cases outcome with
    | bytes value =>
      refine counted_of_le ?_ hfits
      simp only [encodeOutcome, length_append, length_cons]
      omega
    | err code => exact (congrArg ErrCode.fromU16 (ErrCode.toU16_fromU16 _))
    | _ => trivial
  | adoptConn => trivial

private theorem canonical_of_mayNest (h : mayNest op = true) : op.canonical = op := by
  cases op with
  | reply => cases h
  | _ => rfl

theorem nestedForm_iff (op : Op) (frame : Bytes) : NestedForm op frame ↔ mayNest op = true ∧ op.Named ∧ LeafSpelled op frame := by
  constructor
  · rintro ⟨hnest, hsound, hspelled⟩
    refine ⟨hnest, ?_, hspelled⟩
    cases op with
    | applyNs => exact hsound.1
    | _ => trivial
  · rintro ⟨hnest, hnamed, payload, hframe, hfits, hpayload⟩
    have hsound := sound_of_spelled hnamed hpayload hfits
    rw [canonical_of_mayNest hnest] at hsound
    exact ⟨hnest, hsound, payload, hframe, hfits, hpayload⟩

theorem nestedForms_iff (ops : List Op) (frames : List Bytes) :
    List.Forall₂ NestedForm ops frames ↔ (∀ op ∈ ops, mayNest op = true) ∧ (∀ op ∈ ops, op.Named) ∧
      List.Forall₂ LeafSpelled ops frames := by
  constructor
  · intro h
    induction h with
    | nil => exact ⟨(fun op hop => absurd hop not_mem_nil), (fun op hop => absurd hop not_mem_nil), .nil⟩
    | cons hform _ ih =>
      obtain ⟨hnest, hnamed, hspelled⟩ := (nestedForm_iff _ _).mp hform
      exact ⟨forall_mem_cons.mpr ⟨hnest, ih.1⟩, forall_mem_cons.mpr ⟨hnamed, ih.2.1⟩, .cons hspelled ih.2.2⟩
  · rintro ⟨hnest, hnamed, h⟩
    induction h with
    | nil => exact .nil
    | cons hspelled _ ih =>
      obtain ⟨hnest, hnests⟩ := forall_mem_cons.mp hnest
      obtain ⟨hnamed, hnameds⟩ := forall_mem_cons.mp hnamed
      exact .cons ((nestedForm_iff _ _).mpr ⟨hnest, hnamed, hspelled⟩) (ih hnests hnameds)

/-- An op that the encoder writes and the decoder accepts. -/
structure Carried (op : Op) : Prop where
  accepted : refused op = false
  nested : NestedNamed op
  count : batchCount op ≤ maxBatchOps

private theorem payloadForm_of_spelled (hop : Carried op) (hspelled : Spelled op payload) (hfits : payload.length < 2 ^ 32) :
    PayloadForm op.canonical payload := by
  have hleaf (hnamed : op.Named) (hspelled : encodeLeafPayload op = some payload) : PayloadForm op.canonical payload :=
    .inl ⟨sound_of_spelled hnamed hspelled hfits, (canonical_payload op).trans hspelled⟩
  cases op with
  | batch ops =>
    obtain ⟨frames, hframes, rfl⟩ := hspelled
    have hnest : ∀ op ∈ ops, mayNest op = true := by
      have := hop.accepted
      unfold refused at this
      simpa using this
    exact .inr ⟨ops, frames, rfl, hop.count, (nestedForms_iff ops frames).mpr ⟨hnest, hop.nested, hframes⟩, rfl⟩
  | applyNs token slot cmd ns args program => exact hleaf (not_lt.mp (of_decide_eq_false hop.accepted)) hspelled
  | _ => exact hleaf trivial hspelled

private theorem spelled_of_payloadForm (h : PayloadForm op payload) : Carried op ∧ Spelled op payload ∧ op.canonical = op := by
  rcases h with ⟨hsound, hpayload⟩ | ⟨ops, frames, rfl, hcount, hforms, rfl⟩
  · cases op with
    | batch => cases hpayload
    | applyNs token slot cmd ns args program => exact ⟨⟨decide_eq_false (not_lt.mpr hsound.1), trivial, zero_le⟩, hpayload, rfl⟩
    | reply token outcome =>
      refine ⟨⟨rfl, trivial, zero_le⟩, hpayload, ?_⟩
      cases outcome with
      | err code => exact congrArg (fun code => Op.reply token (.err code)) hsound
      | _ => rfl
    | _ => exact ⟨⟨rfl, trivial, zero_le⟩, hpayload, rfl⟩
  · obtain ⟨hnest, hnamed, hspelled⟩ := (nestedForms_iff ops frames).mp hforms
    refine ⟨⟨?_, hnamed, hcount⟩, ⟨frames, hspelled, rfl⟩, rfl⟩
    unfold refused
    simpa using hnest

theorem decodeFrame_append {frame : Bytes} (hop : Carried op) (hframe : encode op [] = some frame) (rest : Bytes) :
    decodeFrame (frame ++ rest) = some (.ok (op.canonical, frame.length)) := by
  obtain ⟨-, payload, hspelled, hfits, rfl⟩ := (encode_iff op [] frame).mp hframe
  refine ((decodeFrame_spec _).ok_iff (op.canonical, _)).mpr ⟨payload, rest, ?_, ?_, hfits, payloadForm_of_spelled hop hspelled hfits⟩
  · dsimp only
    rw [canonical_frame, nil_append]
  · dsimp only
    rw [canonical_frame, nil_append]

/-- An accepted frame was written by the encoder. -/
private theorem encode_of_decode {bytes : Bytes} (h : decode bytes = some (.ok op)) :
    encode op [] = some bytes ∧ Carried op ∧ op.canonical = op := by
  unfold decode at h
  cases hframe : decodeFrame bytes with
  | none =>
    rw [hframe] at h
    cases h
  | some outcome =>
    rw [hframe] at h
    cases outcome with
    | error => cases h
    | ok read =>
      obtain ⟨op', used⟩ := read
      dsimp only at h
      split at h
      · cases h
      rename_i hused
      cases h
      obtain ⟨payload, rest, hbuf, hlen, hfits, hform⟩ := ((decodeFrame_spec bytes).ok_iff (op, used)).mp hframe
      obtain ⟨hcarried, hspelled, hcanonical⟩ := spelled_of_payloadForm hform
      dsimp only at hbuf hlen
      have hrest : rest = [] := by
        have := congrArg List.length hbuf
        rw [length_append] at this
        exact length_eq_zero_iff.mp (by omega)
      rw [hrest, append_nil] at hbuf
      exact ⟨(encode_iff op [] bytes).mpr ⟨hcarried.accepted, payload, hspelled, hfits, hbuf⟩, hcarried, hcanonical⟩

private theorem decode_of_encode {frame : Bytes} (hop : Carried op) (hframe : encode op [] = some frame) :
    decode frame = some (.ok op.canonical) := by
  have happend := decodeFrame_append hop hframe []
  rw [append_nil] at happend
  unfold decode
  rw [happend]
  exact if_neg (not_not.mpr rfl)

private theorem decode_returns (bytes : Bytes) : decode bytes ≠ none := by
  have hreturns := (decodeFrame_spec bytes).returns
  unfold decode
  cases hframe : decodeFrame bytes with
  | none => exact absurd hframe hreturns
  | some outcome =>
    cases outcome with
    | error => exact some_ne_none _
    | ok read =>
      dsimp only
      split <;> exact some_ne_none _

/-- The transport's view of a buffer of frames. -/
def frameAt (buf : Bytes) : Lib.Outcome Op (Option CodecError) :=
  match decodePrefix buf with
  | none => .fault none
  | some (.error error) => .fault (some error)
  | some (.ok (op, used)) => .frame op used

/-- For every op the encoder accepts with at most as many nested ops as a batch may have: its frame is decoded as the op
exactly when no nested op names a default namespace, and a sequence of such frames is split into its ops. Every accepted
byte string is the encoding of what it is decoded as, and the decoder always returns. -/
theorem codec_exact (op : Op) (bytes : Bytes) :
    (∀ out written, encode op out = some written → batchCount op ≤ maxBatchOps →
      ∃ frame, written = out ++ frame ∧ encode op [] = some frame ∧ (decode frame = some (.ok op.canonical) ↔ NestedNamed op)) ∧
    (∀ ops frames, List.Forall₂ (fun op frame => encode op [] = some frame ∧ batchCount op ≤ maxBatchOps ∧
    NestedNamed op) ops frames →
      Consumes frameAt frames.flatten (ops.map Op.canonical) []) ∧
    (∀ decoded, decode bytes = some (.ok decoded) → encode decoded [] = some bytes) ∧ decode bytes ≠ none := by
  refine ⟨?_, ?_, fun decoded h => (encode_of_decode h).1, decode_returns bytes⟩
  · intro out written hencode hcount
    obtain ⟨haccepted, payload, hspelled, hfits, rfl⟩ := (encode_iff op out written).mp hencode
    have hframe : encode op [] = some (frameBytes op payload) := (encode_iff op [] _).mpr ⟨haccepted, payload, hspelled, hfits, rfl⟩
    refine ⟨frameBytes op payload, rfl, hframe, fun hdecode => ?_,
      fun hnested => decode_of_encode ⟨haccepted, hnested, hcount⟩ hframe⟩
    have hcarried := (encode_of_decode hdecode).2.1
    cases op with
    | batch => exact hcarried.nested
    | _ => trivial
  · intro ops frames h
    induction h with
    | nil => exact .nil
    | cons hop _ ih =>
      rename_i op frame ops frames _
      obtain ⟨hframe, hcount, hnested⟩ := hop
      have haccepted := ((encode_iff op [] frame).mp hframe).1
      have hfirst := decodeFrame_append ⟨haccepted, hnested, hcount⟩ hframe frames.flatten
      have hat : frameAt (frame ++ frames.flatten) = .frame op.canonical frame.length := by rw [frameAt, decodePrefix, hfirst]
      rw [flatten_cons, map_cons]
      refine .cons hat ?_
      rw [drop_left]
      exact ih

/-- A reply with a known code in the escape variant, and a batch of a read and of an apply in a named namespace. -/
def sampleReply : Op := .reply 9 (.err (.unknown 2))

def sampleBatch : Op :=
  .batch [.read 1 ⟨7, by decide⟩ [107], .applyNs 2 ⟨7, by decide⟩ 0 16 (.ofArgs [[71], []] (by decide)) true]

theorem codec_exact_sample :
    (∃ frame, encode sampleBatch [1] = some ([1] ++ frame) ∧ decode frame = some (.ok sampleBatch)) ∧
    (∃ first second, encode sampleReply [] = some first ∧ encode sampleBatch [] = some second ∧
      Consumes frameAt (first ++ second) [.reply 9 (.err .notInt), sampleBatch] []) ∧
    (∀ frame, encode sampleReply [] = some frame → decode frame = some (.ok (.reply 9 (.err .notInt))) →
      encode (.reply 9 (.err .notInt)) [] = some frame) := by
  obtain ⟨hround, hsplit, -, -⟩ := codec_exact sampleBatch []
  have hnamed : NestedNamed sampleBatch := by
    simp [NestedNamed, sampleBatch, Op.Named, applyNsMin]
  obtain ⟨written, hwritten⟩ : ∃ written, encode sampleBatch [1] = some written := isSome_iff_exists.mp (by decide +kernel)
  obtain ⟨first, hfirst⟩ : ∃ frame, encode sampleReply [] = some frame := isSome_iff_exists.mp (by decide +kernel)
  obtain ⟨frame, rfl, hframe, hdecode⟩ := hround [1] written hwritten (by decide)
  refine ⟨⟨frame, hwritten, hdecode.mpr hnamed⟩, ⟨first, frame, hfirst, hframe, ?_⟩,
    fun frame _ => (codec_exact sampleReply frame).2.2.1 _⟩
  have := hsplit [sampleReply, sampleBatch] [first, frame]
    (.cons ⟨hfirst, by decide, trivial⟩ (.cons ⟨hframe, by decide, hnamed⟩ .nil))
  rwa [flatten_cons, flatten_singleton] at this

/-- A batch that nests an apply in a default namespace. -/
def defaultNested : Op := .batch [.applyNs 1 ⟨7, by decide⟩ 0 3 (.ofArgs [] (by decide)) false]

/-- The encoder writes it, though it refuses the same op by itself, and the decoder refuses the frame. -/
theorem codec_defaultNested :
    ∃ frame, encode defaultNested [] = some frame ∧ decode frame = some (.error (.applyNsDefault 3)) ∧
      encode (.applyNs 1 ⟨7, by decide⟩ 0 3 (.ofArgs [] (by decide)) false) [] = none :=
  ⟨[0, 4, 0, 0, 25, 0, 0, 0, 1, 0, 6, 0, 0, 16, 0, 0, 0, 1, 0, 0, 0, 0, 0, 0, 0, 7, 0, 0, 3, 0, 0, 0, 0],
    by decide +kernel, rfl, by decide +kernel⟩

end InfinityDB.Fabric
