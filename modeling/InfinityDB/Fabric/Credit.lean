import InfinityDB.Fabric.Packing

/-!
# The credit protocol

Every data op is somewhere: in a frame on its way, owed at the receiver, or in a reply on its way back.
The credits of a pair are what is left of the budget. Frames of one direction are at most the data ops of
that direction and the replies to the other, each within one budget, so a ring of twice the budget has a
slot for every frame.
-/

namespace InfinityDB.Fabric

open Lib List Option

def dataOps (ops : List Op) : Nat := (ops.flatMap Op.tokens).length

def replies (ops : List Op) : Nat := (ops.filter Op.isReply).length

@[simp] theorem dataOps_append (xs ys : List Op) : dataOps (xs ++ ys) = dataOps xs + dataOps ys := by
  simp [dataOps, flatMap_append]

@[simp] theorem replies_append (xs ys : List Op) : replies (xs ++ ys) = replies xs + replies ys := by
  simp [replies]

private theorem canonical_tokens (op : Op) : op.canonical.tokens = op.tokens := by
  cases op with
  | reply token outcome => cases outcome <;> rfl
  | _ => rfl

private theorem canonical_isReply (op : Op) : op.canonical.isReply = op.isReply := by
  cases op with
  | reply token outcome => cases outcome <;> rfl
  | _ => rfl

private theorem dataOps_canonical (ops : List Op) : dataOps (ops.map Op.canonical) = dataOps ops := by
  induction ops with
  | nil => rfl
  | cons op ops ih => simp_all [dataOps, canonical_tokens]

theorem replies_canonical (ops : List Op) : replies (ops.map Op.canonical) = replies ops := by
  induction ops with
  | nil => rfl
  | cons op ops ih =>
    simp only [replies, map_cons, filter_cons, canonical_isReply] at ih ⊢
    split <;> simp [ih]

/-- A frame that a credit or an owed reply accounts for. -/
def Accounted (op : Op) : Prop := op.isReply = true ∨ op.tokens ≠ []

variable {ops : List Op}

/-- Frames are at most the ops they hold and the replies. -/
private theorem length_le_counts (h : ∀ op ∈ ops, Accounted op) : ops.length ≤ dataOps ops + replies ops := by
  induction ops with
  | nil => exact le_rfl
  | cons op ops ih =>
    have hrest := ih (forall_mem_cons.mp h).2
    have hsplit : op :: ops = [op] ++ ops := rfl
    rw [hsplit, dataOps_append, replies_append, length_append, length_singleton]
    have hone : 1 ≤ dataOps [op] + replies [op] := by
      rcases h op mem_cons_self with hreply | htokens
      · simp [replies, hreply]
      · have hpos := length_pos_iff.mpr htokens
        simp only [dataOps, flatMap_cons, flatMap_nil, append_nil]
        omega
    omega

theorem nestedTokens_length (h : ops.all mayNest = true) : (ops.flatMap Op.leafTokens).length = ops.length := by
  induction ops with
  | nil => rfl
  | cons op ops ih =>
    rw [all_cons, Bool.and_eq_true] at h
    rw [flatMap_cons, length_append, ih h.2, length_cons]
    cases op with
    | batch | reply | adoptConn => cases h.1
    | _ => exact add_comm _ _

theorem Carried.batch_tokens (h : Carried (.batch ops)) : (Op.batch ops).tokens.length = ops.length := by
  have haccepted := h.accepted
  unfold refused at haccepted
  exact nestedTokens_length (by simpa using haccepted)

/-- A data op costs what it is owed. -/
theorem creditCost_eq {op : Op} (hop : Carried op) (hdata : op.isReply = false) : creditCost op = dataOps [op] := by
  have hsingle : dataOps [op] = op.tokens.length := by simp [dataOps]
  rw [hsingle]
  cases op with
  | batch ops =>
    have hcount : ops.length ≤ maxBatchOps := hop.count
    rw [hop.batch_tokens]
    unfold creditCost maxBatchOps at *
    exact Nat.mod_eq_of_lt (by omega)
  | reply => cases hdata
  | _ => rfl

private theorem counted_of_data {op : Op} (hop : Carried op) (hdata : op.isReply = false) (hne : op ≠ .batch []) : Accounted op := by
  right
  cases op with
  | batch ops =>
    intro hnil
    have hlen := hop.batch_tokens
    rw [hnil] at hlen
    exact hne (congrArg Op.batch (length_eq_zero_iff.mp hlen.symm))
  | reply => cases hdata
  | _ => simp [Op.tokens, Op.leafTokens]

private theorem carried_reply (token : FabricToken) (outcome : Outcome) : Carried (.reply token outcome) :=
  ⟨rfl, trivial, zero_le⟩

/-- Everything of one directed pair: frames handed over (`old`) and on their way (`queue`), the same of the
way back, and what the receiver owes. -/
structure Books (credits cap : Nat) (l : Link) (sent handed old queue oldBack queueBack : List Op)
    (owed : List FabricToken) : Prop where
  queues : Queues cap l queue
  sent_eq : sent = old ++ queue
  handed_eq : handed = old.map Op.canonical
  accounted : ∀ op ∈ queue, Accounted op
  balance : l.credits + dataOps queue + owed.length + replies queueBack = credits
  answered : dataOps old = owed.length + replies oldBack + replies queueBack

namespace Books

variable {credits cap : Nat} {l l' : Link} {sent handed old queue oldBack queueBack : List Op} {owed : List FabricToken} {op : Op}

private theorem replies_data (hdata : op.isReply = false) : replies [op] = 0 := by simp [replies, hdata]

private theorem dataOps_reply (token : FabricToken) (outcome : Outcome) : dataOps [.reply token outcome] = 0 := rfl

private theorem replies_reply (token : FabricToken) (outcome : Outcome) : replies [.reply token outcome] = 1 := rfl

variable (h : Books credits cap l sent handed old queue oldBack queueBack owed)

include h

private theorem send (hop : Carried op) (hdata : op.isReply = false) (hne : op ≠ .batch []) (hcost : creditCost op ≤ l.credits)
    (hpush : { l with credits := l.credits - creditCost op }.push op = some l') :
    Books credits cap l' (sent ++ [op]) handed old (queue ++ [op]) oldBack queueBack owed := by
  have hbalance := h.balance
  have hcredits := Link.push_credits hpush
  have hqueues : Queues cap { l with credits := l.credits - creditCost op } queue := h.queues.congr rfl rfl rfl
  rw [creditCost_eq hop hdata] at hcost hcredits
  refine ⟨?_, ?_, h.handed_eq, ?_, ?_, h.answered⟩
  · exact hqueues.push hop hpush
  · rw [h.sent_eq, append_assoc]
  · rw [forall_mem_append]
    exact ⟨h.accounted, forall_mem_singleton.mpr (counted_of_data hop hdata hne)⟩
  · rw [dataOps_append]
    dsimp only at hcredits
    omega

private theorem sendBack (hdata : op.isReply = false) :
    Books credits cap l sent handed old queue oldBack (queueBack ++ [op]) owed := by
  have hreplies := replies_data hdata
  refine { h with balance := ?_, answered := ?_ }
  · rw [replies_append, hreplies, add_zero]
    exact h.balance
  · rw [replies_append, hreplies, add_zero]
    exact h.answered

private theorem reply {token : FabricToken} {outcome : Outcome} (hpush : l.push (.reply token outcome) = some l') :
    Books credits cap l' (sent ++ [.reply token outcome]) handed old (queue ++ [.reply token outcome]) oldBack queueBack owed := by
  refine ⟨h.queues.push (carried_reply token outcome) hpush, ?_, h.handed_eq, ?_, ?_, h.answered⟩
  · rw [h.sent_eq, append_assoc]
  · rw [forall_mem_append]
    exact ⟨h.accounted, forall_mem_singleton.mpr (.inl rfl)⟩
  · rw [dataOps_append, dataOps_reply, Link.push_credits hpush]
    exact h.balance

private theorem replyBack {token : FabricToken} {outcome : Outcome} (howed : token ∈ owed) :
    Books credits cap l sent handed old queue oldBack (queueBack ++ [.reply token outcome]) (owed.erase token) := by
  have hlen := length_erase_of_mem howed
  have hpos := length_pos_of_mem howed
  have hbalance := h.balance
  have hanswered := h.answered
  refine { h with balance := ?_, answered := ?_ }
  · rw [replies_append, replies_reply]
    omega
  · rw [replies_append, replies_reply]
    omega

private theorem relink (hqueues : Queues cap l' queue) (hcredits : l'.credits = l.credits) :
    Books credits cap l' sent handed old queue oldBack queueBack owed :=
  { h with queues := hqueues, balance := hcredits ▸ h.balance }

theorem drain {front rest : List Op} {ring : Ring Bytes} (hqueue : queue = front ++ rest) (hrest : Queues cap { l with ring } rest) :
    Books credits cap { l with ring } sent (handed ++ front.map Op.canonical) (old ++ front) rest oldBack queueBack
      (owed ++ (front.map Op.canonical).flatMap Op.tokens) := by
  have hbalance := h.balance
  have hanswered := h.answered
  have htokens : ((front.map Op.canonical).flatMap Op.tokens).length = dataOps front := dataOps_canonical front
  rw [hqueue, dataOps_append] at hbalance
  refine ⟨hrest, ?_, ?_, ?_, ?_, ?_⟩
  · rw [h.sent_eq, hqueue, append_assoc]
  · rw [h.handed_eq, map_append]
  · intro op hop
    exact h.accounted op (hqueue ▸ mem_append_right _ hop)
  · rw [length_append, htokens]
    dsimp only
    omega
  · rw [length_append, htokens, dataOps_append]
    omega

private theorem drainBack {front rest : List Op} (hqueue : queueBack = front ++ rest) :
    Books credits cap { l with credits := l.credits + ((front.map Op.canonical).filter Op.isReply).length } sent handed old queue
      (oldBack ++ front) rest owed := by
  have hbalance := h.balance
  have hanswered := h.answered
  have hreplies : ((front.map Op.canonical).filter Op.isReply).length = replies front := replies_canonical front
  rw [hqueue, replies_append] at hbalance hanswered
  refine { h with queues := h.queues.congr rfl rfl rfl, balance := ?_, answered := ?_ }
  · dsimp only
    rw [hreplies]
    omega
  · rw [replies_append]
    omega

/-- Frames on their way fit a ring of two budgets. -/
theorem queue_le {l' : Link} {sent' handed' : List Op} {owed' : List FabricToken}
    (hback : Books credits cap l' sent' handed' oldBack queueBack old queue owed') : queue.length ≤ 2 * credits := by
  have hcounts := length_le_counts h.accounted
  have hout := h.balance
  have hin := hback.balance
  omega

end Books

namespace World

variable {n : Nat}

/-- The books of every pair agree. -/
def Inv (w : World n) (old queue : Fin n → Fin n → List Op) : Prop :=
  ∀ a b, a ≠ b → Books w.mesh.config.dataCredits w.mesh.config.ringCapacity (w.mesh.links a b) (w.sent a b) (w.handed a b)
    (old a b) (queue a b) (old b a) (queue b a) (w.owed b a)

end World

theorem setPair_same {n : Nat} {α : Type} (f : Fin n → Fin n → α) (a b : Fin n) (value : α) : setPair f a b value a b = value :=
  if_pos ⟨rfl, rfl⟩

theorem setPair_other {n : Nat} {α : Type} (f : Fin n → Fin n → α) {a b x y : Fin n} (value : α) (h : ¬ (x = a ∧ y = b)) :
    setPair f a b value x y = f x y := if_neg h

namespace World

variable {n : Nat} {w : World n} {old queue : Fin n → Fin n → List Op}

variable {a b : Fin n}

theorem Inv.send (h : w.Inv old queue) {op : Op} {l' : Link} (hab : a ≠ b) (hop : Carried op) (hdata : op.isReply = false)
    (hne : op ≠ .batch []) (hcost : creditCost op ≤ (w.mesh.links a b).credits)
    (hpush : { w.mesh.links a b with credits := (w.mesh.links a b).credits - creditCost op }.push op = some l') :
    Inv { w with mesh := w.mesh.setLink a b l', sent := extend w.sent a b [op] } old (extend queue a b [op]) := by
  intro x y hxy
  have hpair := h x y hxy
  dsimp only [extend, Mesh.setLink]
  by_cases hforth : x = a ∧ y = b
  · obtain ⟨rfl, rfl⟩ := hforth
    rw [setPair_same, setPair_same, setPair_same, setPair_other _ _ (fun hc => hab hc.2)]
    exact hpair.send hop hdata hne hcost hpush
  · rw [setPair_other _ _ hforth, setPair_other _ _ hforth, setPair_other _ _ hforth]
    by_cases hback : y = a ∧ x = b
    · obtain ⟨rfl, rfl⟩ := hback
      rw [setPair_same]
      exact hpair.sendBack hdata
    · rw [setPair_other _ _ hback]
      exact hpair

theorem Inv.reply (h : w.Inv old queue) {token : FabricToken} {outcome : Outcome} {l' : Link} (hab : a ≠ b)
    (howed : token ∈ w.owed a b) (hpush : (w.mesh.links a b).push (.reply token outcome) = some l') : Inv { w with
      mesh := w.mesh.setLink a b l'
      sent := extend w.sent a b [.reply token outcome]
      owed := setPair w.owed a b ((w.owed a b).erase token) } old (extend queue a b [.reply token outcome]) := by
  intro x y hxy
  have hpair := h x y hxy
  dsimp only [extend, Mesh.setLink]
  by_cases hforth : x = a ∧ y = b
  · obtain ⟨rfl, rfl⟩ := hforth
    have hno : ¬ (y = x ∧ x = y) := fun hc => hab hc.2
    rw [setPair_same, setPair_same, setPair_same, setPair_other _ _ hno, setPair_other _ _ hno]
    exact hpair.reply hpush
  · rw [setPair_other _ _ hforth, setPair_other _ _ hforth, setPair_other _ _ hforth]
    by_cases hback : y = a ∧ x = b
    · obtain ⟨rfl, rfl⟩ := hback
      rw [setPair_same, setPair_same]
      exact hpair.replyBack howed
    · rw [setPair_other _ _ hback, setPair_other _ _ hback]
      exact hpair

theorem Inv.flushTo (h : w.Inv old queue) (hroom : 2 * w.mesh.config.dataCredits ≤ w.mesh.config.ringCapacity) (hab : a ≠ b) :
    ∃ l', (w.mesh.links a b).flush = some l' ∧ l'.staged = [] ∧ l'.pack = [] ∧
      Inv { w with mesh := w.mesh.setLink a b l' } old queue := by
  have hpair := h a b hab
  have hle := hpair.queue_le (h b a hab.symm)
  obtain ⟨l', hflush, hqueues, hstaged, hpack, hcredits⟩ := Link.flush_spec hpair.queues (by omega)
  refine ⟨l', hflush, hstaged, hpack, ?_⟩
  intro x y hxy
  have hxy' := h x y hxy
  dsimp only [Mesh.setLink]
  by_cases hforth : x = a ∧ y = b
  · obtain ⟨rfl, rfl⟩ := hforth
    rw [setPair_same]
    exact hpair.relink hqueues hcredits
  · rw [setPair_other _ _ hforth]
    exact hxy'

/-- Links of `a` that a flush has served. -/
def Published (m : Mesh n) (a : Fin n) (served : List (Fin n)) : Prop :=
  ∀ b ∈ served, a ≠ b → (m.links a b).staged = [] ∧ (m.links a b).pack = []

theorem Inv.flush (h : w.Inv old queue) (hroom : 2 * w.mesh.config.dataCredits ≤ w.mesh.config.ringCapacity) (a : Fin n)
    (cells served : List (Fin n)) (hserved : Published w.mesh a served) :
    ∃ mesh, cells.foldlM (Mesh.flushTo a) w.mesh = some mesh ∧ mesh.config = w.mesh.config ∧ Inv { w with mesh } old queue ∧
      Published mesh a (served ++ cells) := by
  induction cells generalizing w served with
  | nil => exact ⟨w.mesh, rfl, rfl, h, by rwa [append_nil]⟩
  | cons b cells ih =>
    rw [foldlM_cons]
    by_cases hab : a = b
    · have hskip : Mesh.flushTo a w.mesh b = some w.mesh := if_pos hab
      have hserved' : Published w.mesh a (served ++ [b]) := by
        intro c hc hac
        rcases mem_append.mp hc with hc | hc
        · exact hserved c hc hac
        · exact absurd (hab.trans (mem_singleton.mp hc).symm) hac
      obtain ⟨mesh, hmesh, hconfig, hinv, hpub⟩ := ih h hroom (served ++ [b]) hserved'
      rw [hskip, option_some_bind]
      exact ⟨mesh, hmesh, hconfig, hinv, by rwa [append_assoc] at hpub⟩
    · obtain ⟨l', hflush, hstaged, hpack, hinv⟩ := h.flushTo hroom hab
      have hstep : Mesh.flushTo a w.mesh b = some (w.mesh.setLink a b l') := by
        unfold Mesh.flushTo
        rw [if_neg hab, hflush]
        rfl
      have hserved' : Published (w.mesh.setLink a b l') a (served ++ [b]) := by
        intro c hc hac
        dsimp only [Mesh.setLink]
        by_cases hcb : c = b
        · subst hcb
          rw [setPair_same]
          exact ⟨hstaged, hpack⟩
        · rw [setPair_other _ _ (fun hc => hcb hc.2)]
          rcases mem_append.mp hc with hc | hc
          · exact hserved c hc hac
          · exact absurd (mem_singleton.mp hc) hcb
      obtain ⟨mesh, hmesh, hconfig, hinv', hpub⟩ := ih hinv hroom (served ++ [b]) hserved'
      rw [hstep, option_some_bind]
      exact ⟨mesh, hmesh, hconfig, hinv', by rwa [append_assoc] at hpub⟩

theorem Inv.drainSource (h : w.Inv old queue) (debug : Bool) (max : Nat) (a b : Fin n) (drained : Nat) :
    ∃ mesh ops drained' old' queue', w.mesh.drainSource debug max b a drained = some (mesh, ops, drained') ∧
      mesh.config = w.mesh.config ∧ Inv (absorb b { w with mesh } (a, ops)) old' queue' := by
  unfold Mesh.drainSource
  by_cases hab : a = b
  · rw [if_pos hab]
    refine ⟨w.mesh, [], drained, old, queue, rfl, rfl, ?_⟩
    intro x y hxy
    have hpair := h x y hxy
    dsimp only [absorb, extend]
    rw [setPair_other _ _ (fun hc => hxy (hc.1.trans (hab.trans hc.2.symm))),
      setPair_other _ _ (fun hc => hxy (hc.2.trans (hab.trans hc.1.symm)))]
    exact hpair
  · rw [if_neg hab]
    dsimp only
    generalize wrappingSub (w.mesh.links a b).ring.tail (w.mesh.links a b).ring.consumerHead + 1 = turns
    obtain ⟨ring, front, rest, drained', hloop, hqueue, hrest⟩ :=
      @Queues.drain debug max _ turns drained _ _ (h a b hab).queues
    rw [hloop, option_some_bind]
    dsimp only
    have hba : ¬ (b = a ∧ a = b) := fun hc => hab hc.2
    refine ⟨_, _, _, extend old a b front, setPair queue a b rest, rfl, rfl, ?_⟩
    intro x y hxy
    have hpair := h x y hxy
    dsimp only [absorb, extend, Mesh.setLink]
    by_cases hforth : x = a ∧ y = b
    · obtain ⟨rfl, rfl⟩ := hforth
      rw [setPair_other _ _ (fun hc => hba ⟨hc.2, hc.1⟩), setPair_same, setPair_same, setPair_same, setPair_same, setPair_same,
        setPair_other _ _ hba, setPair_other _ _ hba]
      exact hpair.drain hqueue hrest
    · by_cases hback : x = b ∧ y = a
      · obtain ⟨rfl, rfl⟩ := hback
        rw [setPair_same, setPair_other _ _ hforth, setPair_other _ _ hforth, setPair_other _ _ hforth, setPair_other _ _ hforth,
          setPair_same, setPair_same, setPair_other _ _ (fun hc => hab hc.1)]
        exact hpair.drainBack hqueue
      · have hback' : ¬ (y = a ∧ x = b) := fun hc => hback ⟨hc.2, hc.1⟩
        have hforth' : ¬ (y = b ∧ x = a) := fun hc => hforth ⟨hc.2, hc.1⟩
        rw [setPair_other _ _ hback, setPair_other _ _ hforth, setPair_other _ _ hforth, setPair_other _ _ hforth,
          setPair_other _ _ hforth, setPair_other _ _ hback', setPair_other _ _ hback', setPair_other _ _ hforth']
        exact hpair

theorem Inv.drainFrom (h : w.Inv old queue) (debug : Bool) (max : Nat) (b : Fin n) (sources : List (Fin n)) (drained : Nat) :
    ∃ mesh visits drained' visited old' queue',
      Mesh.drainFrom debug max b sources w.mesh drained = some (mesh, visits, drained', visited) ∧
      mesh.config = w.mesh.config ∧ Inv (visits.foldl (absorb b) { w with mesh }) old' queue' := by
  induction sources generalizing w old queue drained with
  | nil => exact ⟨w.mesh, [], drained, 0, old, queue, rfl, rfl, h⟩
  | cons a sources ih =>
    unfold Mesh.drainFrom
    by_cases hbudget : max ≤ drained
    · rw [if_pos hbudget]
      exact ⟨w.mesh, [], drained, 0, old, queue, rfl, rfl, h⟩
    · obtain ⟨mesh₁, ops, drained₁, old₁, queue₁, hsource, hconfig₁, hinv₁⟩ := h.drainSource debug max a b drained
      obtain ⟨mesh₂, visits, drained₂, visited, old₂, queue₂, hfrom, hconfig₂, hinv₂⟩ := ih hinv₁ drained₁
      change Mesh.drainFrom debug max b sources mesh₁ drained₁ = _ at hfrom
      rw [if_neg hbudget, hsource, option_some_bind]
      dsimp only
      rw [hfrom, option_some_bind]
      exact ⟨mesh₂, (a, ops) :: visits, drained₂, visited + 1, old₂, queue₂, rfl, hconfig₂.trans hconfig₁, hinv₂⟩

/-- Callbacks do not see the mesh. -/
private theorem foldl_absorb_mesh (b : Fin n) (visits : List (Fin n × List Op)) (w : World n) (mesh : Mesh n) :
    visits.foldl (absorb b) { w with mesh } = { visits.foldl (absorb b) w with mesh } := by
  induction visits generalizing w with
  | nil => rfl
  | cons visit visits ih => exact ih (absorb b w visit)

theorem Inv.drain (h : w.Inv old queue) (debug : Bool) (b : Fin n) (max : Nat) :
    ∃ w' old' queue', w.step debug (.drain b max) = some w' ∧ w'.mesh.config = w.mesh.config ∧ w'.Inv old' queue' := by
  obtain ⟨mesh, visits, drained, visited, old', queue', hfrom, hconfig, hinv⟩ := h.drainFrom debug max b (w.mesh.sources b) 0
  have hmoved (nextSource : Fin n → Nat) : Inv (visits.foldl (absorb b) { w with mesh := { mesh with nextSource } }) old' queue' := by
    rw [foldl_absorb_mesh] at hinv ⊢
    exact hinv
  have hmesh (mesh' : Mesh n) : (visits.foldl (absorb b) { w with mesh := mesh' }).mesh = mesh' := by
    rw [foldl_absorb_mesh]
  unfold World.step Mesh.drain
  dsimp only
  rw [hfrom, option_some_bind]
  dsimp only
  split
  · exact ⟨_, old', queue', rfl, by rw [hmesh]; exact hconfig, hmoved _⟩
  · exact ⟨_, old', queue', rfl, by rw [hmesh]; exact hconfig, hinv⟩

/-- Ops whose frame the receiver decodes. -/
def Decodable (op : Op) : Prop := NestedNamed op ∧ batchCount op ≤ maxBatchOps

/-- What an action may send. -/
def Sends : Action n → Prop
  | .send _ _ op => Decodable op
  | _ => True

private theorem push_carried {l l' : Link} {op : Op} (hop : Decodable op) (h : l.push op = some l') : Carried op := by
  obtain ⟨pack, hpack, _⟩ := bind_eq_some_iff.mp h
  exact ⟨((encode_iff op _ _).mp hpack).1, hop.1, hop.2⟩

theorem Inv.step (h : w.Inv old queue) (hroom : 2 * w.mesh.config.dataCredits ≤ w.mesh.config.ringCapacity) {debug : Bool}
    {action : Action n} {w' : World n} (hlegal : w.Legal action) (hsends : Sends action) (hstep : w.step debug action = some w') :
    w'.mesh.config = w.mesh.config ∧ ∃ old' queue', w'.Inv old' queue' := by
  cases action with
  | send a b op =>
    obtain ⟨⟨mesh, result⟩, hsend, hstep⟩ := bind_eq_some_iff.mp hstep
    obtain ⟨_, hsend⟩ := ite_none_left_eq_some.mp hsend
    obtain ⟨hab, hsend⟩ := ite_none_left_eq_some.mp hsend
    dsimp only at hsend
    split at hsend
    · cases hsend
      cases hstep
      exact ⟨rfl, old, queue, h⟩
    next hcost =>
      obtain ⟨l', hpush, hsend⟩ := bind_eq_some_iff.mp hsend
      cases hsend
      cases hstep
      exact ⟨rfl, old, _, h.send hab (push_carried hsends hpush) hlegal.1 hlegal.2 (not_lt.mp hcost) hpush⟩
  | reply a b token outcome =>
    obtain ⟨mesh, hreply, hstep⟩ := bind_eq_some_iff.mp hstep
    obtain ⟨hab, hreply⟩ := ite_none_left_eq_some.mp hreply
    obtain ⟨l', hpush, hreply⟩ := bind_eq_some_iff.mp hreply
    cases hreply
    cases hstep
    exact ⟨rfl, old, _, h.reply hab hlegal hpush⟩
  | flush a =>
    obtain ⟨mesh, hflush, hstep⟩ := bind_eq_some_iff.mp hstep
    obtain ⟨mesh', hflush', hconfig, hinv, _⟩ := h.flush hroom a (List.finRange n) [] (nofun)
    cases hstep
    rw [Mesh.flush, hflush'] at hflush
    cases hflush
    exact ⟨hconfig, old, queue, hinv⟩
  | drain b max =>
    obtain ⟨w'', old', queue', hdrain, hconfig, hinv⟩ := h.drain debug b max
    rw [hdrain] at hstep
    cases hstep
    exact ⟨hconfig, old', queue', hinv⟩

/-- Interleavings of legal actions, each meeting the condition on what is sent. -/
inductive Run (debug : Bool) (cond : Action n → Prop) (w₀ : World n) : World n → Prop
  | start : Run debug cond w₀ w₀
  | step {w w' : World n} {action : Action n} (run : Run debug cond w₀ w) (legal : w.Legal action) (meets : cond action)
      (returns : w.step debug action = some w') : Run debug cond w₀ w'

theorem fresh_inv {config : MeshConfig} {mesh : Mesh n} (h : Mesh.new n config = some mesh) :
    mesh.config = config ∧ 2 * config.dataCredits ≤ config.ringCapacity ∧ (fresh mesh).Inv (fun _ _ => []) (fun _ _ => []) := by
  obtain ⟨hn, h⟩ := ite_none_left_eq_some.mp h
  obtain ⟨_, h⟩ := ite_none_left_eq_some.mp h
  obtain ⟨hroom, h⟩ := ite_none_left_eq_some.mp h
  by_cases hone : n = 1
  · rw [if_pos hone] at h
    cases h
    refine ⟨rfl, not_lt.mp hroom, ?_⟩
    intro a b hab
    subst hone
    exact absurd (Subsingleton.elim a b) hab
  · rw [if_neg hone] at h
    obtain ⟨ring, hring, h⟩ := bind_eq_some_iff.mp h
    cases h
    refine ⟨rfl, not_lt.mp hroom, ?_⟩
    intro a b _
    have hholds := Ring.new_holds config.capacity_lt hring
    refine ⟨⟨[], [], [], ⟨⟨[], hholds, .nil⟩, .nil, .nil⟩, rfl⟩, rfl, rfl, ?_, rfl, rfl⟩
    intro op hop
    exact absurd hop not_mem_nil

theorem Run.inv {debug : Bool} {w₀ w : World n} {old queue : Fin n → Fin n → List Op} (h : w₀.Inv old queue)
    (hroom : 2 * w₀.mesh.config.dataCredits ≤ w₀.mesh.config.ringCapacity) (hrun : Run debug Sends w₀ w) :
    w.mesh.config = w₀.mesh.config ∧ ∃ old' queue', w.Inv old' queue' := by
  induction hrun with
  | start => exact ⟨rfl, old, queue, h⟩
  | step _ legal meets returns ih =>
    obtain ⟨hconfig, old', queue', hinv⟩ := ih
    obtain ⟨hconfig', hinv'⟩ := hinv.step (by rw [hconfig]; exact hroom) legal meets returns
    exact ⟨hconfig'.trans hconfig, hinv'⟩

end World

end InfinityDB.Fabric
