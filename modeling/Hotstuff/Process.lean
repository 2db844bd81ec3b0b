import Mathlib.Logic.Relation
import Hotstuff.Selection
import Hotstuff.PendingQueue

/-! The process around a worker: a client that imports and finalizes blocks of a tree, the two
notification streams, the task that polls them into the queue, and the worker that reads
the queue and asks the client for the finalized number directly. -/
namespace Hotstuff

variable {B : BlockT}

/-! ### Blocks -/

/-- The tree of blocks; the number of a block is above its parent's. -/
structure Chain (B : BlockT) where
  parent : B.Hash → Option B.Hash
  number : B.Hash → B.Number
  rises : ∀ hash parentHash, parent hash = some parentHash → number parentHash < number hash

namespace Chain

variable (chain : Chain B)

def Descends (hash ancestor : B.Hash) : Prop :=
  Relation.ReflTransGen (fun x y => chain.parent x = some y) hash ancestor

def StrictlyDescends (hash ancestor : B.Hash) : Prop :=
  Relation.TransGen (fun x y => chain.parent x = some y) hash ancestor

variable {chain}

theorem Descends.number_le {hash ancestor : B.Hash} (descends : chain.Descends hash ancestor) :
    chain.number ancestor ≤ chain.number hash := by
  induction descends with
  | refl => exact le_refl _
  | tail _ edge ih => exact le_trans (le_of_lt (chain.rises _ _ edge)) ih

theorem strictlyDescends_of_number {tip hash ancestor : B.Hash} (first : chain.Descends tip hash)
    (second : chain.Descends tip ancestor) (lower : chain.number ancestor < chain.number hash) :
    chain.StrictlyDescends hash ancestor := by
  have unique : Relator.RightUnique fun x y => chain.parent x = some y := by
    intro x y z hy hz
    exact Option.some.inj (hy.symm.trans hz)
  rcases Relation.ReflTransGen.total_of_right_unique unique first second with below | above
  · rcases Relation.reflTransGen_iff_eq_or_transGen.mp below with same | strict
    · rw [same] at lower
      exact absurd lower (lt_irrefl _)
    · exact strict
  · exact absurd lower (not_lt.mpr (Descends.number_le above))

end Chain

/-! ### The process -/

/-- The queue of the node's worker is the one that the poll fills. -/
structure Process (B : BlockT) where
  node : Node B
  /-- What the client has imported. -/
  blocks : List B.Hash
  best : B.Hash
  imports : List (ImportNotification B)
  finalities : List (FinalityNotification B)

/-- `notify` is the client's choice, which need not notify of every finalized block. -/
inductive Happening (B : BlockT) where
  | importBlock (hash : B.Hash) (isNewBest : Bool)
  | finalize (hash : B.Hash) (notify : Bool)
  | poll (imports finalities : Nat)
  | act (a : Action B) (notify : Bool)
  | surroundings (env : Environment B)

namespace Process

def client (p : Process B) : Client B := p.node.worker.client

def queue (p : Process B) : Option (List (BlockInfo B)) := p.node.worker.pendingFinalizeQueue

def pollQueue (p : Process B) (imports finalities : Nat) : Process B :=
  let q := PendingFinalizeBlockQueue.poll ⟨p.queue⟩
    ⟨p.imports.take imports, p.finalities.take finalities⟩
  { p with
    node := { p.node with worker := { p.node.worker with pendingFinalizeQueue := q.queue } }
    imports := p.imports.drop imports
    finalities := p.finalities.drop finalities }

def act (chain : Chain B) (p : Process B) (a : Action B) (notify : Bool) : Process B :=
  let node := p.node.step a
  let hash := node.worker.client.finalizedHash
  { p with
    node := node
    finalities := p.finalities ++
      if notify ∧ hash ≠ p.client.finalizedHash then [⟨hash, chain.number hash⟩] else [] }

/-- The finalized block and the queue are not for the surroundings to change. -/
def surround (p : Process B) (env : Environment B) : Process B :=
  { p with node := { p.node with worker := p.node.worker.observe { env with
    client := { p.client with
      status := env.client.status, finalizeBlock := env.client.finalizeBlock }
    pendingFinalizeQueue := p.queue } } }

def step (chain : Chain B) (p : Process B) : Happening B → Process B
  | .importBlock hash isNewBest =>
    { p with
      blocks := p.blocks ++ [hash]
      best := if isNewBest then hash else p.best
      imports := p.imports ++ [⟨hash, chain.number hash, isNewBest⟩] }
  | .finalize hash notify =>
    { p with
      node := { p.node with worker := { p.node.worker with
        client := { p.client with
          finalizedHash := hash, finalizedNumber := chain.number hash } } }
      finalities := p.finalities ++ if notify then [⟨hash, chain.number hash⟩] else [] }
  | .poll imports finalities => p.pollQueue imports finalities
  | .act (.environment _) _ => p
  | .act a notify => p.act chain a notify
  | .surroundings env => p.surround env

def run (chain : Chain B) (p : Process B) (happenings : List (Happening B)) : Process B :=
  Runs.run (step chain) p happenings

/-- A process that starts, with the queue that `PendingFinalizeBlockQueue::new` returns. -/
structure Starts (p : Process B) : Prop where
  queue : p.queue = some []
  imports : p.imports = []

/-! ### What the queue carries -/

/-- The new best blocks on their way to the worker, notified and queued. -/
structure Carries (chain : Chain B) (good : B.Hash → Prop) (p : Process B) : Prop where
  imports : ∀ n ∈ p.imports, n.isNewBest = true → n.number = chain.number n.hash ∧ good n.hash
  queue : ∀ list, p.queue = some list → ∀ info ∈ list,
    ∃ hash, good hash ∧ info = ⟨some hash, chain.number hash⟩

theorem Starts.carries {p : Process B} (starts : p.Starts) (chain : Chain B)
    (good : B.Hash → Prop) : Carries chain good p := by
  constructor
  · intro n member
    rw [starts.imports] at member
    cases member
  · intro list lock info member
    rw [starts.queue] at lock
    cases lock
    cases member

variable {chain : Chain B} {good good' : B.Hash → Prop} {p : Process B}

theorem Carries.imp (carries : Carries chain good p) (keeps : ∀ hash, good hash → good' hash) :
    Carries chain good' p := by
  constructor
  · intro n member best
    obtain ⟨number, holds⟩ := carries.imports n member best
    exact ⟨number, keeps _ holds⟩
  · intro list lock info member
    obtain ⟨hash, holds, same⟩ := carries.queue list lock info member
    exact ⟨hash, keeps hash holds, same⟩

theorem Carries.of_eq {p' : Process B} (carries : Carries chain good p)
    (imports : p'.imports = p.imports) (queue : p'.queue = p.queue) : Carries chain good p' :=
  ⟨imports ▸ carries.imports, queue ▸ carries.queue⟩

theorem Carries.poll (carries : Carries chain good p) (imports finalities : Nat) :
    Carries chain good (p.pollQueue imports finalities) := by
  constructor
  · intro n member
    exact carries.imports n (List.mem_of_mem_drop member)
  · intro list lock info member
    rcases PendingFinalizeBlockQueue.mem_poll lock member with ⟨before, old, queued⟩ | new
    · exact carries.queue before old info queued
    · obtain ⟨n, ready, rfl⟩ := List.mem_map.mp new
      obtain ⟨sent, best⟩ := List.mem_filter.mp ready
      obtain ⟨number, holds⟩ := carries.imports n (List.mem_of_mem_take sent) best
      exact ⟨n.hash, holds, by rw [number]⟩

theorem act_queue (p : Process B) {a : Action B} (own : ∀ env, a ≠ .environment env)
    (notify : Bool) : (p.act chain a notify).queue = p.queue :=
  (Node.step_frame own).1

theorem Carries.step (carries : Carries chain good p) {e : Happening B}
    (keeps : ∀ hash, good hash → good' hash)
    (joins : ∀ hash, e = .importBlock hash true → good' hash) :
    Carries chain good' (p.step chain e) := by
  have kept := carries.imp keeps
  cases e with
  | importBlock hash isNewBest =>
    constructor
    · intro n member best
      rcases List.mem_append.mp member with old | new
      · exact kept.imports n old best
      · cases List.mem_singleton.mp new
        cases best
        exact ⟨rfl, joins hash rfl⟩
    · exact kept.queue
  | finalize hash notify => exact kept.of_eq rfl rfl
  | poll imports finalities => exact kept.poll imports finalities
  | act a notify =>
    cases a with
    | environment env => exact kept
    | timer | receive | resume => exact kept.of_eq rfl (act_queue p (by simp) notify)
  | surroundings env => exact kept.of_eq rfl rfl

theorem run_carries_blocks (chain : Chain B) {p : Process B} (starts : p.Starts)
    (happenings : List (Happening B)) :
    Carries chain (· ∈ (p.run chain happenings).blocks) (p.run chain happenings) := by
  have keep (p : Process B) (e : Happening B) (carries : Carries chain (· ∈ p.blocks) p) :
      Carries chain (· ∈ (p.step chain e).blocks) (p.step chain e) := by
    apply carries.step
    · intro hash member
      cases e with
      | importBlock => exact List.mem_append_left _ member
      | act a => cases a <;> exact member
      | _ => exact member
    · rintro hash rfl
      exact List.mem_append_right _ List.mem_cons_self
  exact Runs.invariant (step chain) keep (starts.carries chain _) happenings

/-! ### Runs without a reorganisation -/

/-- A new best block descends from the one before. The block that is finalized after a step
of the client or of the worker, with its number, is below the best block. -/
def Linear (chain : Chain B) (p : Process B) : Happening B → Prop
  | .importBlock hash true => chain.StrictlyDescends hash p.best
  | .finalize hash _ => chain.Descends p.best hash
  | .act a notify =>
    (p.step chain (.act a notify)).client.finalizedNumber =
        chain.number (p.step chain (.act a notify)).client.finalizedHash ∧
      chain.Descends p.best (p.step chain (.act a notify)).client.finalizedHash
  | _ => True

/-- The best block has the finalized one and all that the queue carries below it. -/
structure Aligned (chain : Chain B) (p : Process B) : Prop where
  carries : Carries chain (chain.Descends p.best) p
  number : p.client.finalizedNumber = chain.number p.client.finalizedHash
  finalized : chain.Descends p.best p.client.finalizedHash

theorem Aligned.step (aligned : Aligned chain p) {e : Happening B} (linear : Linear chain p e) :
    Aligned chain (p.step chain e) := by
  cases e with
  | importBlock hash isNewBest =>
    cases isNewBest with
    | false =>
      refine ⟨?_, aligned.number, aligned.finalized⟩
      exact aligned.carries.step (fun _ h => h) (by simp)
    | true =>
      have above : chain.Descends hash p.best := linear.to_reflTransGen
      refine ⟨?_, aligned.number, above.trans aligned.finalized⟩
      apply aligned.carries.step
      · intro other below
        exact above.trans below
      · rintro _ ⟨⟩
        exact Relation.ReflTransGen.refl
  | finalize hash notify => exact ⟨aligned.carries.of_eq rfl rfl, rfl, linear⟩
  | poll imports finalities =>
    exact ⟨aligned.carries.poll imports finalities, aligned.number, aligned.finalized⟩
  | act a notify =>
    obtain ⟨number, finalized⟩ := linear
    cases a with
    | environment env => exact aligned
    | timer | receive | resume =>
      exact ⟨aligned.carries.of_eq rfl (act_queue p (by simp) notify), number, finalized⟩
  | surroundings env => exact ⟨aligned.carries.of_eq rfl rfl, aligned.number, aligned.finalized⟩

/-! ### The payloads -/

/-- Whatever the streams, the polls and the worker have done: while a block is in process, a
payload that is not empty names a block the client has imported as its best, with its
number, and above the finalized number. Without a reorganisation it is a strict descendant
of the finalized block. The worker is any with the client and the queue of the process, as
no handler changes them before it asks for a payload. -/
theorem payload_while_processing (chain : Chain B) (p₀ : Process B) (starts : p₀.Starts)
    (happenings : List (Happening B)) (w w' : ConsensusWorker B) (block : BlockInfo B)
    (payload : Payload B) (client : w.client = (p₀.run chain happenings).client)
    (queue : w.pendingFinalizeQueue = (p₀.run chain happenings).queue)
    (processing : w.processingBlock = some block)
    (chosen : w.getProposalPayload = (w', some payload))
    (nonempty : payload.blockHash ≠ B.emptyPayloadHash) :
    payload.blockHash ∈ (p₀.run chain happenings).blocks ∧
      payload.blockNumber = chain.number payload.blockHash ∧
      (p₀.run chain happenings).client.finalizedNumber < payload.blockNumber ∧
      (p₀.client.finalizedNumber = chain.number p₀.client.finalizedHash →
        chain.Descends p₀.best p₀.client.finalizedHash →
        Runs.Along (step chain) (Linear chain) p₀ happenings →
        chain.StrictlyDescends payload.blockHash
          (p₀.run chain happenings).client.finalizedHash) := by
  obtain ⟨_, _, chooses⟩ := ConsensusWorker.getProposalPayload_chooses chosen
  cases chooses with
  | working | exhausted => exact absurd rfl nonempty
  | front _ idle => cases idle.symm.trans processing
  | @next list _ found lock _ _ member above =>
    have lock' : (p₀.run chain happenings).queue = some list := queue.symm.trans lock
    have above' : (p₀.run chain happenings).client.finalizedNumber < found.number :=
      client ▸ above
    obtain ⟨hash, imported, rfl⟩ :=
      (run_carries_blocks chain starts happenings).queue list lock' found member
    refine ⟨imported, rfl, above', fun number finalized linear => ?_⟩
    have aligned : Aligned chain (p₀.run chain happenings) :=
      Runs.invariant_along (step chain) (fun _ _ aligned linear => aligned.step linear)
        ⟨starts.carries chain _, number, finalized⟩ linear
    obtain ⟨hash', below, same⟩ := aligned.carries.queue list lock' _ member
    cases same
    apply Chain.strictlyDescends_of_number below aligned.finalized
    rw [← aligned.number]
    exact above'

/-! ### A fork -/

/-- Above the block 2 stand the fork 11, 12 and the longer one 21, 22, 23. -/
def forkParent : Terms.Term → Option Terms.Term
  | .leaf 11 | .leaf 21 => some (.leaf 2)
  | .leaf 12 => some (.leaf 11)
  | .leaf 22 => some (.leaf 21)
  | .leaf 23 => some (.leaf 22)
  | _ => none

def forkNumber : Terms.Term → Nat
  | .leaf 11 | .leaf 21 => 1
  | .leaf 12 | .leaf 22 => 2
  | .leaf 23 => 3
  | _ => 0

def fork : Chain symbolic where
  parent := forkParent
  number := forkNumber
  rises := by
    intro hash parentHash edge
    unfold forkParent at edge
    split at edge <;> cases edge <;> decide

def alone : Process symbolic where
  node := Setup.start { Symbolic.setup 0 0 with
    client := { Symbolic.client with finalizeBlock := fun hash => .ok (forkNumber hash) }
    queue := some [] }
  blocks := [.leaf 2]
  best := .leaf 2
  imports := []
  finalities := []

theorem alone_starts : alone.Starts := ⟨rfl, rfl⟩

def onShorterFork (p : Process symbolic) : Happening symbolic → Bool
  | .act a notify =>
    let client := (p.step fork (.act a notify)).client
    p.best = .leaf 12 ∧ client.finalizedNumber = forkNumber client.finalizedHash ∧
      (client.finalizedHash = .leaf 2 ∨ client.finalizedHash = .leaf 11)
  | _ => false

theorem linear_of_onShorterFork (p : Process symbolic) (e : Happening symbolic)
    (checked : onShorterFork p e = true) : Linear fork p e := by
  cases e with
  | act a notify =>
    obtain ⟨best, number, below⟩ := of_decide_eq_true checked
    refine ⟨number, ?_⟩
    rw [best]
    rcases below with first | second
    · rw [first]
      exact .tail (.single (b := .leaf 11) rfl) rfl
    · rw [second]
      exact .single rfl
  | _ => cases checked

/-- The blocks 11 and 12 are imported as best blocks and 21 beside them. In its second view
change the worker finalizes 11, which the queue still has in front, and the next payload is
of 12. -/
theorem payload_while_processing_fork :
    let p := alone.run fork
      ([.importBlock (.leaf 11) true, .importBlock (.leaf 12) true, .importBlock (.leaf 21) false,
          .poll 3 0] ++
        (.act .timer true :: List.replicate 6 (.act .resume true)) ++
        [.act .timer true, .act .resume true, .act .resume true])
    p.client.finalizedHash = .leaf 11 ∧ p.node.worker.processingBlock = some ⟨some (.leaf 11), 1⟩ ∧
      p.node.worker.getProposalPayload.2 = some ⟨.leaf 12, 2⟩ ∧
      fork.StrictlyDescends (.leaf 12) (.leaf 11) := by
  intro p
  have finalized : p.client.finalizedHash = .leaf 11 := by decide +kernel
  have processing : p.node.worker.processingBlock = some ⟨some (.leaf 11), 1⟩ := by
    decide +kernel
  have chosen : p.node.worker.getProposalPayload.2 = some ⟨.leaf 12, 2⟩ := by decide +kernel
  have edge : fork.StrictlyDescends (.leaf 12) (.leaf 11) := .single rfl
  refine ⟨finalized, processing, chosen, ?_⟩
  have descends := (payload_while_processing fork alone alone_starts _ p.node.worker
    p.node.worker.getProposalPayload.1 _ _ rfl rfl processing (Prod.ext rfl chosen)
    (by decide)).2.2.2 rfl .refl ?_
  · exact finalized ▸ descends
  · rw [List.append_assoc, Runs.along_append]
    refine ⟨⟨.single rfl, edge, trivial, trivial, trivial⟩, ?_⟩
    apply Runs.Along.imp _ linear_of_onShorterFork
    decide +kernel

theorem not_strictlyDescends_fork : ¬ fork.StrictlyDescends (.leaf 12) (.leaf 21) := by
  have below {ancestor : symbolic.Hash} (h : fork.StrictlyDescends (.leaf 12) ancestor) :
      ancestor = .leaf 11 ∨ ancestor = .leaf 2 := by
    induction h with
    | single edge =>
      cases edge
      exact .inl rfl
    | tail _ edge ih =>
      rcases ih with rfl | rfl
      · cases edge
        exact .inr rfl
      · cases edge
  intro descends
  rcases below descends with same | same <;> cases same

/-- The worker votes for an empty payload after the block 11. Then the client moves to the
longer fork and finalizes 21, the queue drops 11, and the next proposal is of the block 12,
which the finalized block rules out. -/
theorem abandoned_block_proposed :
    let p := alone.run fork
      ([.importBlock (.leaf 11) true, .importBlock (.leaf 12) true, .poll 2 0, .act .timer false] ++
        List.replicate 4 (.act .resume false) ++
        [.importBlock (.leaf 21) false, .importBlock (.leaf 22) false, .importBlock (.leaf 23) true,
          .finalize (.leaf 21) true, .poll 3 1])
    p.node.worker.processingBlock = some ⟨some symbolic.emptyPayloadHash, 1⟩ ∧
      p.client.finalizedHash = .leaf 21 ∧
      p.queue = some [⟨some (.leaf 12), 2⟩, ⟨some (.leaf 23), 3⟩] ∧
      p.node.worker.getProposalPayload.2 = some ⟨.leaf 12, 2⟩ ∧
      ((p.step fork (.act .resume false)).node.worker.desk.record.getLast?.map
        fun u => u.proposal.payload) = some ⟨.leaf 12, 2⟩ ∧
      ¬ fork.StrictlyDescends (.leaf 12) (.leaf 21) := by
  refine ⟨by decide +kernel, by decide +kernel, by decide +kernel, by decide +kernel,
    by decide +kernel, not_strictlyDescends_fork⟩

end Process

end Hotstuff
