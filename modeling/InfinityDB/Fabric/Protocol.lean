import InfinityDB.Fabric.Credit

/-!
# Safety of the fabric

What the books say of each directed pair, in every state an interleaving reaches: credits are the budget
less the ops without a drained reply, a ring is never short of a slot, frames arrive once and in order.
Frames must decode for this; the encoder lets through two kinds of batch that the decoder refuses.
-/

namespace InfinityDB.Fabric

open Lib List Option

/-- Slots in use, from the published indices. -/
def Ring.used {α : Type} (r : Ring α) : Nat := wrappingSub r.tail r.head

theorem Ring.Holds.used_eq {α : Type} {r : Ring α} {cap : Nat} {queue : List α} (h : r.Holds cap queue) : r.used = queue.length := by
  obtain ⟨hcap, first, seen, known, hc⟩ := h
  have hlt := hcap.lt
  have hshort := hc.short
  unfold Ring.used
  rw [hc.tail_eq, hc.head_eq, Ring.wrappingSub_mod (by omega) (by omega), Nat.add_sub_cancel_left]

/-- The slots of a link are at most the frames it carries. -/
theorem Queues.slots_le {cap : Nat} {l : Link} {queue : List Op} (h : Queues cap l queue) :
    l.ring.used + l.staged.length ≤ queue.length := by
  obtain ⟨inRing, sealed, opened, hc, rfl⟩ := h
  obtain ⟨msgs, hholds, _, hcount⟩ := hc.slots_le
  rw [hholds.used_eq, length_append]
  omega

theorem Queues.nil_of_empty {cap : Nat} {l : Link} {queue : List Op} (h : Queues cap l queue) (hring : l.ring.used = 0)
    (hstaged : l.staged = []) (hpack : l.pack = []) : queue = [] := by
  obtain ⟨inRing, sealed, opened, hc, rfl⟩ := h
  obtain ⟨msgs, hholds, hslots⟩ := hc.ring
  have hmsgs : msgs = [] := length_eq_zero_iff.mp (hholds.used_eq.symm.trans hring)
  have hsealed := hc.staged
  rw [hmsgs] at hslots
  rw [hstaged] at hsealed
  rw [hc.pack.eq_nil_iff.mp hpack, List.forall₂_nil_right_iff.mp hslots, List.forall₂_nil_right_iff.mp hsealed]
  rfl

namespace World

variable {n : Nat}

/-- What holds of the direction from `a` to `b`. -/
structure PairSafe (w : World n) (a b : Fin n) : Prop where
  credits_le : (w.mesh.links a b).credits ≤ w.mesh.config.dataCredits
  /-- Ops sent whose replies are not drained. -/
  outstanding : w.mesh.config.dataCredits - (w.mesh.links a b).credits = dataOps (w.sent a b) - replies (w.handed b a)
  replies_le : replies (w.handed b a) ≤ dataOps (w.sent a b)
  slots_le : (w.mesh.links a b).ring.used + (w.mesh.links a b).staged.length ≤ w.mesh.config.ringCapacity
  /-- Frames not handed over yet are in the link, in order. -/
  delivered : ∃ queue, Queues w.mesh.config.ringCapacity (w.mesh.links a b) queue ∧
    (w.sent a b).map Op.canonical = w.handed a b ++ queue.map Op.canonical

theorem Inv.pairSafe {w : World n} {old queue : Fin n → Fin n → List Op} (h : w.Inv old queue)
    (hroom : 2 * w.mesh.config.dataCredits ≤ w.mesh.config.ringCapacity) {a b : Fin n} (hab : a ≠ b) : w.PairSafe a b := by
  have hpair := h a b hab
  have hback := h b a hab.symm
  have hbalance := hpair.balance
  have hanswered := hpair.answered
  have hsent : dataOps (w.sent a b) = dataOps (old a b) + dataOps (queue a b) := by rw [hpair.sent_eq, dataOps_append]
  have hhanded : replies (w.handed b a) = replies (old b a) := by rw [hback.handed_eq, replies_canonical]
  have hslots := hpair.queues.slots_le
  have hle := hpair.queue_le hback
  refine ⟨by omega, by omega, by omega, by omega, queue a b, hpair.queues, ?_⟩
  rw [hpair.sent_eq, hpair.handed_eq, map_append]

/-- A flush returns, and leaves nothing staged toward any peer. -/
def FlushPublishes (debug : Bool) (w : World n) : Prop :=
  ∀ a, ∃ w', w.step debug (.flush a) = some w' ∧ ∀ b, a ≠ b → (w'.mesh.links a b).staged = [] ∧ (w'.mesh.links a b).pack = []

/-- A reply that has a frame is taken, whatever the state. -/
def ReplyUnblocked (debug : Bool) (w : World n) : Prop :=
  ∀ a b token outcome, a ≠ b → (encode (.reply token outcome) []).isSome → ∃ w', w.step debug (.reply a b token outcome) = some w'

theorem Inv.flushPublishes {w : World n} {old queue : Fin n → Fin n → List Op} (h : w.Inv old queue)
    (hroom : 2 * w.mesh.config.dataCredits ≤ w.mesh.config.ringCapacity) (debug : Bool) : w.FlushPublishes debug := by
  intro a
  obtain ⟨mesh, hflush, _, _, hpublished⟩ := h.flush hroom a (List.finRange n) [] (nofun)
  refine ⟨{ w with mesh }, ?_, ?_⟩
  · unfold World.step Mesh.flush
    dsimp only
    rw [hflush]
    rfl
  · intro b hab
    exact hpublished b (mem_append_right _ (mem_finRange b)) hab

private theorem replyUnblocked (debug : Bool) (w : World n) : w.ReplyUnblocked debug := by
  intro a b token outcome hab hencode
  obtain ⟨frame, hframe⟩ := isSome_iff_exists.mp hencode
  have hpack := (encode_append _ (w.mesh.links a b).pack _).mpr ⟨frame, hframe, rfl⟩
  unfold World.step Mesh.reply Link.push
  dsimp only
  rw [if_neg hab, hpack]
  exact ⟨_, rfl⟩

/-- Every interleaving of ops the receiver decodes. -/
theorem credit_protocol {config : MeshConfig} {mesh : Mesh n} {debug : Bool} {w : World n}
    (boot : Mesh.new n config = some mesh) (run : Run debug Sends (fresh mesh) w) :
    (∀ a b, a ≠ b → w.PairSafe a b) ∧ w.FlushPublishes debug ∧ w.ReplyUnblocked debug := by
  obtain ⟨hconfig, hroom, hinv⟩ := fresh_inv boot
  have hroom' : 2 * (fresh mesh).mesh.config.dataCredits ≤ (fresh mesh).mesh.config.ringCapacity := by
    change 2 * mesh.config.dataCredits ≤ mesh.config.ringCapacity
    rw [hconfig]
    exact hroom
  obtain ⟨hconfig', old, queue, h⟩ := Run.inv hinv hroom' run
  rw [← hconfig'] at hroom'
  exact ⟨fun a b hab => h.pairSafe hroom' hab, h.flushPublishes hroom' debug, replyUnblocked debug w⟩

/-- Actions in order, while each is legal. -/
inductive Acts (debug : Bool) : World n → List (Action n) → World n → Prop
  | nil {w : World n} : Acts debug w [] w
  | cons {w w' w'' : World n} {action : Action n} {actions : List (Action n)} (legal : w.Legal action)
      (returns : w.step debug action = some w') (rest : Acts debug w' actions w'') : Acts debug w (action :: actions) w''

theorem Acts.run {debug : Bool} {cond : Action n → Prop} {w₀ w w' : World n} {actions : List (Action n)} (h : Acts debug w actions w')
    (hcond : ∀ action ∈ actions, cond action) (hrun : Run debug cond w₀ w) : Run debug cond w₀ w' := by
  induction h with
  | nil => exact hrun
  | cons legal returns _ ih =>
    exact ih (forall_mem_cons.mp hcond).2 (hrun.step legal (hcond _ mem_cons_self) returns)

/-- Runs the actions; the replies must be owed. -/
def act (debug : Bool) (w : World n) : List (Action n) → Option (World n)
  | [] => some w
  | .reply a b token outcome :: actions =>
    if token ∈ w.owed a b then do
      let w ← w.step debug (.reply a b token outcome)
      act debug w actions
    else none
  | action :: actions => do
    let w ← w.step debug action
    act debug w actions

theorem acts_of_act {debug : Bool} {w w' : World n} {actions : List (Action n)}
    (hdata : ∀ a b op, .send a b op ∈ actions → op.isReply = false ∧ op ≠ .batch []) (h : w.act debug actions = some w') :
    Acts debug w actions w' := by
  induction actions generalizing w with
  | nil =>
    cases h
    exact .nil
  | cons action actions ih =>
    have hrest : ∀ a b op, .send a b op ∈ actions → op.isReply = false ∧ op ≠ .batch [] :=
      fun a b op hop => hdata a b op (mem_cons_of_mem _ hop)
    cases action with
    | reply a b token outcome =>
      obtain ⟨howed, h⟩ := ite_none_right_eq_some.mp h
      obtain ⟨w₁, hstep, h⟩ := bind_eq_some_iff.mp h
      exact .cons howed hstep (ih hrest h)
    | send a b op =>
      obtain ⟨w₁, hstep, h⟩ := bind_eq_some_iff.mp h
      exact .cons (hdata a b op mem_cons_self) hstep (ih hrest h)
    | _ =>
      obtain ⟨w₁, hstep, h⟩ := bind_eq_some_iff.mp h
      exact .cons trivial hstep (ih hrest h)

def pairConfig : MeshConfig := ⟨4, 2, by decide, by decide⟩

def sampleRead : Op := .read 5 ⟨8, by decide⟩ [107]

/-- A read and its reply. -/
def roundTrip : List (Action 2) :=
  [.send 0 1 sampleRead, .flush 0, .drain 1 8, .reply 1 0 5 .nil, .flush 1, .drain 0 8]

theorem credit_protocol_roundTrip : ∃ mesh w, Mesh.new 2 pairConfig = some mesh ∧ Run false Sends (fresh mesh) w ∧
    (w.handed 0 1).length = 1 ∧ (w.handed 1 0).length = 1 ∧ ∀ a b, a ≠ b → w.PairSafe a b := by
  obtain ⟨mesh, hboot⟩ : ∃ mesh, Mesh.new 2 pairConfig = some mesh := ⟨_, rfl⟩
  have hact : ((Mesh.new 2 pairConfig).bind fun mesh => (fresh mesh).act false roundTrip).map
      (fun w => ((w.handed 0 1).length, (w.handed 1 0).length)) = some (1, 1) := by decide +kernel
  rw [hboot, bind_some] at hact
  obtain ⟨w, hw, hlengths⟩ := map_eq_some_iff.mp hact
  have hacts : Acts false (fresh mesh) roundTrip w := by
    apply acts_of_act _ hw
    intro a b op hop
    simp only [roundTrip, mem_cons, not_mem_nil, or_false, reduceCtorEq, Action.send.injEq] at hop
    obtain ⟨-, -, rfl⟩ := hop
    exact ⟨rfl, fun hc => by cases hc⟩
  have hrun : Run false Sends (fresh mesh) w := by
    apply hacts.run _ .start
    intro action haction
    simp only [roundTrip, mem_cons, not_mem_nil, or_false] at haction
    rcases haction with rfl | rfl | rfl | rfl | rfl | rfl
    · exact ⟨trivial, zero_le⟩
    all_goals trivial
  exact ⟨mesh, w, hboot, hrun, (Prod.mk.inj hlengths).1, (Prod.mk.inj hlengths).2, (credit_protocol hboot hrun).1⟩

/-- A batch that nests an op of a default namespace, and a read behind it in the same slot. -/
def lostFrames : List (Action 2) := [.send 0 1 defaultNested, .send 0 1 sampleRead, .flush 0, .drain 1 8]

/-- Both frames are gone: neither handed over nor in the link. With debug assertions the drain panics. -/
theorem fabric_lostFrames : ∃ mesh w, Mesh.new 2 pairConfig = some mesh ∧ Run false (fun _ => True) (fresh mesh) w ∧
    (w.sent 0 1).length = 2 ∧ w.handed 0 1 = [] ∧ ¬ w.PairSafe 0 1 ∧ (fresh mesh).act true lostFrames = none := by
  obtain ⟨mesh, hboot⟩ : ∃ mesh, Mesh.new 2 pairConfig = some mesh := ⟨_, rfl⟩
  have hact : ((Mesh.new 2 pairConfig).bind fun mesh => (fresh mesh).act false lostFrames).map
      (fun w => ((w.sent 0 1).length, (w.handed 0 1).length, (w.mesh.links 0 1).ring.used, (w.mesh.links 0 1).staged.length,
        (w.mesh.links 0 1).pack.length)) = some (2, 0, 0, 0, 0) := by decide +kernel
  have hdebug : ((Mesh.new 2 pairConfig).bind fun mesh => (fresh mesh).act true lostFrames).isNone = true := by decide +kernel
  rw [hboot, bind_some] at hact hdebug
  obtain ⟨w, hw, hstate⟩ := map_eq_some_iff.mp hact
  simp only [Prod.mk.injEq] at hstate
  obtain ⟨hsent, hhanded, hring, hstaged, hpack⟩ := hstate
  have hacts : Acts false (fresh mesh) lostFrames w := by
    apply acts_of_act _ hw
    intro a b op hop
    simp only [lostFrames, mem_cons, not_mem_nil, or_false, reduceCtorEq, Action.send.injEq] at hop
    rcases hop with ⟨-, -, rfl⟩ | ⟨-, -, rfl⟩
    · exact ⟨rfl, fun hc => by cases hc⟩
    · exact ⟨rfl, fun hc => by cases hc⟩
  refine ⟨mesh, w, hboot, hacts.run (fun _ _ => trivial) .start, hsent, length_eq_zero_iff.mp hhanded, ?_,
    isNone_iff_eq_none.mp hdebug⟩
  intro hsafe
  obtain ⟨queue, hqueue, heq⟩ := hsafe.delivered
  have hlen := congrArg List.length heq
  rw [hqueue.nil_of_empty hring (length_eq_zero_iff.mp hstaged) (length_eq_zero_iff.mp hpack), length_map, hsent,
    length_append, hhanded] at hlen
  exact absurd hlen (by decide)

end World

end InfinityDB.Fabric
