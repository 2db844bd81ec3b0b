import Hotstuff.PendingQueue
import Hotstuff.Settling

/-! The liveness of the protocol: from a proposal on, from a stalled view on, and from the start
of the nodes on, for the blocks that their clients import. -/
namespace Hotstuff

variable {B : BlockT}

/-! ### What the client tells -/

/-- The client has imported the blocks: it knows them and can finalize them. -/
def Client.importing (client : Client B) (news : List (ImportNotification B)) : Client B :=
  { client with
    status := fun hash =>
      if news.any fun n => n.hash = hash then .ok .inChain else client.status hash
    finalizeBlock := fun hash =>
      match news.find? fun n => n.hash = hash with
      | some n => .ok n.number
      | none => client.finalizeBlock hash }

/-- What the worker finds when the client has sent the notifications and the queue has been
polled. -/
def ConsensusWorker.notified (w : ConsensusWorker B) (ready : Ready B) : Environment B where
  client := w.client.importing ready.imports
  pendingFinalizeQueue := (PendingFinalizeBlockQueue.poll ⟨w.pendingFinalizeQueue⟩ ready).queue
  getError := w.synchronizer.store.getError
  setError := w.synchronizer.store.setError
  signWith := w.state.keystore.signWith

/-- The client tells of blocks it has imported and of the block it has finalized. -/
def ConsensusWorker.Notices (w : ConsensusWorker B) (env : Environment B) : Prop :=
  ∃ ready : Ready B, (∀ n ∈ ready.finalities,
    n.hash = w.client.finalizedHash ∧ n.number = w.client.finalizedNumber) ∧ env = w.notified ready

/-- Blocks one above the other. -/
structure Ascending (blocks : List (Payload B)) : Prop where
  nonempty : ∀ b ∈ blocks, b.blockHash ≠ B.emptyPayloadHash
  rising : blocks.Pairwise fun a b => a.blockNumber < b.blockNumber ∧ a.blockHash ≠ b.blockHash

def Payload.notice (block : Payload B) : ImportNotification B :=
  ⟨block.blockHash, block.blockNumber, true⟩

def Client.Takes (client : Client B) (blocks : List (Payload B)) : Prop :=
  ∀ b ∈ blocks, client.status b.blockHash = .ok .inChain ∧
    client.finalizeBlock b.blockHash = .ok b.blockNumber

section Blocks

variable {blocks finished rest : List (Payload B)} {b : Payload B}

theorem Ascending.find_notice (ascending : Ascending blocks) (member : b ∈ blocks) :
    (blocks.map Payload.notice).find? (fun n => n.hash = b.blockHash) = some b.notice := by
  have rising := ascending.rising
  clear ascending
  induction blocks with
  | nil => cases member
  | cons a rest ih =>
    obtain ⟨above, rising⟩ := List.pairwise_cons.mp rising
    rcases List.mem_cons.mp member with rfl | later
    · simp [Payload.notice]
    · rw [List.map_cons, List.find?_cons_of_neg (by simp [Payload.notice, (above b later).2])]
      exact ih later rising

theorem Ascending.takes (ascending : Ascending blocks) (client : Client B) :
    (client.importing (blocks.map Payload.notice)).Takes blocks := by
  intro b member
  have found := ascending.find_notice member
  have known : ((blocks.map Payload.notice).any fun n => n.hash = b.blockHash) = true :=
    List.any_eq_true.mpr ⟨b.notice, List.mem_map_of_mem member, by simp [Payload.notice]⟩
  exact ⟨by simp only [Client.importing, known, if_true],
    by simp only [Client.importing, found, Payload.notice]⟩

theorem Ascending.above (ascending : Ascending (finished ++ b :: rest)) :
    ∀ a ∈ finished, a.blockNumber < b.blockNumber ∧ a.blockHash ≠ b.blockHash :=
  fun a member => (List.pairwise_append.mp ascending.rising).2.2 a member b List.mem_cons_self

theorem Ascending.below (ascending : Ascending (finished ++ b :: rest)) :
    ∀ c ∈ rest, b.blockNumber < c.blockNumber ∧ b.blockHash ≠ c.blockHash :=
  (List.pairwise_cons.mp (List.pairwise_append.mp ascending.rising).2.1).1

theorem newBest_notices (blocks : List (Payload B)) :
    newBest (blocks.map Payload.notice) = blocks.map Payload.info := by
  have all : (blocks.map Payload.notice).filter ImportNotification.isNewBest =
      blocks.map Payload.notice := by
    refine List.filter_eq_self.mpr fun n member => ?_
    obtain ⟨b, _, rfl⟩ := List.mem_map.mp member
    rfl
  rw [newBest, all, List.map_map]
  rfl

theorem popFinalized_info (above : ∀ c ∈ rest, b.blockNumber < c.blockNumber) :
    PendingFinalizeBlockQueue.popFinalized b.blockNumber (b.info :: rest.map Payload.info) =
      rest.map Payload.info := by
  rw [PendingFinalizeBlockQueue.popFinalized,
    if_neg (show ¬ b.blockNumber < b.info.number from lt_irrefl _)]
  cases rest with
  | nil => rfl
  | cons c rest => exact if_pos (above c List.mem_cons_self)

end Blocks

/-! ### One block after the other -/

/-- The node has had the blocks `finished` and nothing else proposed and finalized; the blocks
of `blocks` are in its queue. -/
structure Node.Backlog (client : Client B) (finished blocks : List (Payload B)) (n : Node B) :
    Prop where
  answers : client.Agrees n.worker.client
  queue : n.worker.pendingFinalizeQueue = some (blocks.map Payload.info)
  awaits : ∀ b ∈ blocks, n.worker.client.Awaits b
  stores : ∀ key q, n.worker.synchronizer.Stores key q →
    q.payload.blockHash = B.emptyPayloadHash ∨ ∃ b ∈ finished, q.payload.blockHash = b.blockHash
  asks : ∀ b ∈ finished, ∃ m, (m, .finalizeBlock b.blockHash) ∈ n.worker.trace
  tip : ∀ b, finished.getLast? = some b →
    n.worker.client.finalizedHash = b.blockHash ∧ n.worker.client.finalizedNumber = b.blockNumber

def Node.finality (n : Node B) : Environment B :=
  n.worker.notified ⟨[], [⟨n.worker.client.finalizedHash, n.worker.client.finalizedNumber⟩]⟩

def Node.requeued (n : Node B) (queue : Option (List (BlockInfo B))) : Node B :=
  { n with worker := { n.worker with pendingFinalizeQueue := queue } }

section Node

variable {n n' : Node B} {client : Client B} {finished rest : List (Payload B)} {b : Payload B}
  {authorities : AuthorityList B} {id : B.AuthorityId} {view : ViewNumber}

theorem Node.step_finality (n : Node B) : n.step (.environment n.finality) =
    n.requeued (n.worker.pendingFinalizeQueue.map
      (PendingFinalizeBlockQueue.popFinalized n.worker.client.finalizedNumber)) := rfl

theorem Node.Stalled.requeued (stalled : n.Stalled authorities id view)
    (queue : Option (List (BlockInfo B))) : (n.requeued queue).Stalled authorities id view :=
  { stalled with able := stalled.able.of_eq rfl rfl _ rfl }

theorem Node.Backlog.unproposed (backlog : n.Backlog client finished (b :: rest))
    (ascending : Ascending (finished ++ b :: rest)) {key : B.Hash} {q : Proposal B}
    (stores : n.worker.synchronizer.Stores key q) : q.payload.blockHash ≠ b.blockHash := by
  intro same
  rcases backlog.stores key q stores with empty | ⟨a, member, other⟩
  · exact ascending.nonempty b (by simp) (same.symm.trans empty)
  · exact (ascending.above a member).2 (other.symm.trans same)

theorem Node.Backlog.follows (backlog : n.Backlog client finished (b :: rest))
    (ascending : Ascending (finished ++ b :: rest)) (takes : client.Takes (finished ++ b :: rest))
    (able : n.worker.Able authorities id)
    (older : ∀ key q, n.worker.synchronizer.Stores key q → q.view < view) :
    n.worker.Follows authorities id client b view [] := by
  refine ⟨able, ⟨_, backlog.queue⟩, backlog.awaits b List.mem_cons_self, backlog.answers, ?_,
    by simp, fun key q stores => .inr ⟨older key q stores, fun ours => ?_⟩⟩
  · intro key q number stores other answer
    rcases backlog.stores key q stores with empty | ⟨a, member, same⟩
    · exact absurd (.inr empty) other
    · rw [same, (takes a (List.mem_append_left _ member)).2] at answer
      exact Except.ok.inj answer ▸ (ascending.above a member).1
  · exact absurd ours (backlog.unproposed ascending stores)

theorem Node.Backlog.shrinks (backlog : n.Backlog client finished (b :: rest))
    (ascending : Ascending (finished ++ b :: rest)) (takes : client.Takes (finished ++ b :: rest))
    (answers : client.Agrees n'.worker.client) (finalizes : n'.Finalizes client b.blockHash)
    (attends : Node.Attends b n n') :
    (n'.step (.environment n'.finality)).Backlog client (finished ++ [b]) rest := by
  obtain ⟨hash, number⟩ := finalizes.done b.blockNumber (takes b (by simp)).2
  rw [Node.step_finality]
  refine ⟨answers, ?_, fun c member => ?_, fun key q stores => ?_, fun a member => ?_, ?_⟩
  · change n'.worker.pendingFinalizeQueue.map _ = _
    rw [attends.queue, backlog.queue, number]
    exact congrArg some (popFinalized_info fun c member => (ascending.below c member).1)
  · obtain ⟨above, apart⟩ := ascending.below c member
    exact ⟨number ▸ above, hash ▸ apart⟩
  · rcases attends.stores key q stores with old | ours | empty
    · refine (backlog.stores key q old).imp_right fun ⟨a, member, same⟩ => ⟨a, ?_, same⟩
      exact List.mem_append_left _ member
    · exact .inr ⟨b, by simp, ours⟩
    · exact .inl empty
  · rcases List.mem_append.mp member with old | new
    · exact (backlog.asks a old).imp fun _ entry => attends.trace entry
    · rw [List.mem_singleton.mp new]
      exact finalizes.asks
  · intro a last
    rw [List.getLast?_append_of_ne_nil _ (by simp), List.getLast?_singleton] at last
    cases last
    exact ⟨hash, number⟩

end Node

namespace System

variable {sys : System B} {keys : B.AuthorityId → Keystore B} {highs : B.AuthorityId → QC B}
  {clients : B.AuthorityId → Client B} {finished blocks rest : List (Payload B)} {b : Payload B}
  {view : ViewNumber} {origin world : World B}

theorem Resting.finality (resting : sys.Resting keys highs view world) :
    sys.Resting keys highs view (after world fun i => [.environment (world i).finality]) :=
  { resting with stalled := fun i honest => (resting.stalled i honest).requeued _ }

theorem Resting.waiting (resting : sys.Resting keys highs view world)
    (backlog : ∀ i, sys.committee.Honest i → (world i).Backlog (clients i) finished (b :: rest))
    (ascending : Ascending (finished ++ b :: rest))
    (takes : ∀ i, sys.committee.Honest i → (clients i).Takes (finished ++ b :: rest))
    (room : view < view + 1) : sys.Waiting keys highs clients b view world := by
  refine { resting with
    follows := fun i honest => ?_
    front := fun i honest => ⟨_, (backlog i honest).queue⟩
    certified := fun i _ honest _ q stores => (backlog i honest).unproposed ascending stores }
  refine (backlog i honest).follows ascending (takes i honest) (resting.stalled i honest).able ?_
  exact fun key q stores => UInt64.lt_of_le_of_lt (resting.older i honest key q stores) room

theorem Resting.turn (widths : FixedWidth B) (ideal : CollisionFree B)
    (resting : sys.Resting keys highs view world)
    (backlog : ∀ i, sys.committee.Honest i → (world i).Backlog (clients i) finished (b :: rest))
    (ascending : Ascending (finished ++ b :: rest))
    (takes : ∀ i, sys.committee.Honest i → (clients i).Takes (finished ++ b :: rest))
    (several : 1 < sys.authorities.length)
    (fits : view.toNat + sys.authorities.length + 2 < UInt64.size)
    (sofar : sys.Reaches ConsensusWorker.Notices origin world) :
    ∃ highs' view' world', sys.Reaches ConsensusWorker.Notices origin world' ∧
      view'.toNat ≤ view.toNat + sys.authorities.length + 2 ∧
      sys.Resting keys highs' view' world' ∧
      ∀ i, sys.committee.Honest i → (world' i).Backlog (clients i) (finished ++ [b]) rest := by
  have waiting := resting.waiting backlog ascending takes (lt_next (by omega))
  have known : ∀ i, sys.committee.Honest i → (clients i).Knows b :=
    fun i honest => .inr (takes i honest b (by simp)).1
  obtain ⟨world', view', reached, bound, ⟨highs', resting'⟩, answers, finalizes, attends⟩ :=
    waiting.turn widths ideal (ascending.nonempty b (by simp)) known several fits sofar
  refine ⟨highs', view', _, reached.surroundings fun i _ => ⟨_, ?_, rfl⟩, bound,
    resting'.finality, fun i honest => ?_⟩
  · intro n member
    rw [List.mem_singleton.mp member]
    exact ⟨rfl, rfl⟩
  · exact (backlog i honest).shrinks ascending (takes i honest) (answers i honest)
      (finalizes i honest) (attends i honest)

/-- All blocks of the queue are finalized, one after the other. -/
theorem Resting.drains (widths : FixedWidth B) (ideal : CollisionFree B)
    (resting : sys.Resting keys highs view world)
    (backlog : ∀ i, sys.committee.Honest i → (world i).Backlog (clients i) finished blocks)
    (ascending : Ascending (finished ++ blocks))
    (takes : ∀ i, sys.committee.Honest i → (clients i).Takes (finished ++ blocks))
    (several : 1 < sys.authorities.length)
    (fits : view.toNat + (sys.authorities.length + 2) * blocks.length < UInt64.size)
    (sofar : sys.Reaches ConsensusWorker.Notices origin world) :
    ∃ highs' view' world', sys.Reaches ConsensusWorker.Notices origin world' ∧
      view'.toNat ≤ view.toNat + (sys.authorities.length + 2) * blocks.length ∧
      sys.Resting keys highs' view' world' ∧
      ∀ i, sys.committee.Honest i → (world' i).Backlog (clients i) (finished ++ blocks) [] := by
  induction blocks generalizing finished highs view world with
  | nil =>
    rw [List.append_nil]
    exact ⟨highs, view, world, sofar, Nat.le_add_right _ _, resting, backlog⟩
  | cons b rest ih =>
    rw [List.length_cons, Nat.mul_succ] at fits ⊢
    obtain ⟨highs₁, view₁, world₁, reached, bound, resting, backlog⟩ :=
      resting.turn widths ideal backlog ascending takes several (by omega) sofar
    rw [List.append_cons] at ascending takes ⊢
    obtain ⟨highs', view', world', reached, bound', settled⟩ :=
      ih resting backlog ascending takes (by omega) reached
    exact ⟨highs', view', world', reached, by omega, settled⟩

end System

/-! ### The start -/

def Node.imports (n : Node B) (blocks : List (Payload B)) : Environment B :=
  n.worker.notified ⟨blocks.map Payload.notice, []⟩

theorem Node.step_imports {n : Node B} (queue : n.worker.pendingFinalizeQueue = some [])
    (blocks : List (Payload B)) : n.step (.environment (n.imports blocks)) =
      { n with worker := { n.worker with
          client := n.worker.client.importing (blocks.map Payload.notice)
          pendingFinalizeQueue := some (blocks.map Payload.info) } } := by
  have polled : (PendingFinalizeBlockQueue.poll ⟨n.worker.pendingFinalizeQueue⟩
      ⟨blocks.map Payload.notice, []⟩).queue = some (blocks.map Payload.info) := by
    rw [queue, ← newBest_notices]
    exact congrArg PendingFinalizeBlockQueue.queue (PendingFinalizeBlockQueue.foldl_onImport [] _)
  simp only [Node.step, ConsensusWorker.observe, Node.imports, ConsensusWorker.notified, polled]

namespace System

variable {sys : System B} {blocks : List (Payload B)} {i : B.AuthorityId}

/-- A node before its first step: nothing is queued or stored, and its client has the blocks
still to finalize. -/
structure Fresh (sys : System B) (blocks : List (Payload B)) (i : B.AuthorityId) : Prop where
  able : (sys.node i).start.worker.Able sys.authorities i
  queue : (sys.node i).queue = some []
  empty : ∀ key q, ¬ (sys.node i).synchronizer.Stores key q
  awaits : ∀ b ∈ blocks, (sys.node i).client.Awaits b

theorem start_state (sys : System B) (i : B.AuthorityId) : (sys.start i).worker.state =
    ConsensusState.new (sys.node i).keystore sys.authorities sys.nonempty := by
  have same : ∀ authorities (nonempty : 0 < authorities.length), authorities = sys.authorities →
      ConsensusState.new (sys.node i).keystore authorities nonempty =
        ConsensusState.new (sys.node i).keystore sys.authorities sys.nonempty := by
    rintro _ _ rfl
    rfl
  exact same _ _ (sys.shared i)

/-- All clients import the blocks; then the first timers fire. -/
def awake (sys : System B) (blocks : List (Payload B)) : World B :=
  after (after sys.start fun i => [.environment ((sys.start i).imports blocks)])
    fun _ => [.timer, .resume]

theorem awake_reaches (sys : System B) (blocks : List (Payload B)) :
    sys.Reaches ConsensusWorker.Notices sys.start (sys.awake blocks) := by
  have told : sys.Reaches ConsensusWorker.Notices sys.start
      (after sys.start fun i => [.environment ((sys.start i).imports blocks)]) :=
    (Reaches.refl _).surroundings fun i _ =>
      ⟨_, fun _ member => absurd member List.not_mem_nil, rfl⟩
  refine told.phase fun i _ a own => ?_
  simp only [List.mem_cons, List.not_mem_nil, or_false] at own
  rcases own with rfl | rfl <;> trivial

theorem Fresh.wakes (fresh : sys.Fresh blocks i) (several : 1 < sys.authorities.length) :
    (sys.awake blocks i).Stalled sys.authorities i 1 ∧
      (sys.awake blocks i).worker.state.keystore = (sys.node i).keystore ∧
      (sys.awake blocks i).worker.state.highQc = QC.default ∧
      (sys.awake blocks i).worker.client =
        (sys.node i).client.importing (blocks.map Payload.notice) ∧
      (sys.awake blocks i).worker.synchronizer = (sys.node i).synchronizer ∧
      (sys.awake blocks i).worker.pendingFinalizeQueue = some (blocks.map Payload.info) := by
  have told := Node.step_imports (n := sys.start i) fresh.queue blocks
  have same : sys.awake blocks i = Runs.run Node.step
      ((sys.start i).step (.environment ((sys.start i).imports blocks))) [.timer, .resume] := rfl
  rw [same, told]
  exact Node.wakes (fresh.able.of_eq rfl rfl _ rfl) rfl (sys.start_state i) several

theorem awake_resting (ideal : CollisionFree B)
    (fresh : ∀ i, sys.committee.Honest i → sys.Fresh blocks i)
    (several : 1 < sys.authorities.length) :
    sys.Resting (fun i => (sys.node i).keystore) (fun _ => QC.default) 1 (sys.awake blocks) := by
  have wakes := fun i (honest : sys.committee.Honest i) => (fresh i honest).wakes several
  have empty : ∀ i, sys.committee.Honest i → ∀ key q,
      ¬ (sys.awake blocks i).worker.synchronizer.Stores key q := by
    intro i honest key q stores
    obtain ⟨_, _, _, _, synchronizer, _⟩ := wakes i honest
    exact (fresh i honest).empty key q (synchronizer ▸ stores)
  exact ⟨fun i honest => (wakes i honest).2.1, fun i honest => (wakes i honest).2.2.1,
    fun i honest => (wakes i honest).1, fun _ _ p same => absurd same (ideal.ne_default _),
    fun i honest key q stores => absurd stores (empty i honest key q),
    fun i honest key q stores => absurd stores (empty i honest key q)⟩

theorem Fresh.backlog (fresh : sys.Fresh blocks i) (several : 1 < sys.authorities.length) :
    (sys.awake blocks i).Backlog ((sys.node i).client.importing (blocks.map Payload.notice)) []
      blocks := by
  obtain ⟨_, _, _, client, synchronizer, queue⟩ := fresh.wakes several
  refine ⟨by rw [client]; exact ⟨rfl, rfl⟩, queue, fun b member => ?_, fun key q stores => ?_,
    fun b member => absurd member List.not_mem_nil, fun b last => by cases last⟩
  · rw [client]
    exact ⟨(fresh.awaits b member).unfinished, (fresh.awaits b member).new⟩
  · exact absurd (synchronizer ▸ stores) (fresh.empty key q)

theorem Backs.mono {keys : B.AuthorityId → Keystore B} {world world' : World B}
    {p₀ p₁ p₂ : Proposal B} {voters₁ voters₂ : List B.AuthorityId}
    (backs : sys.Backs keys p₀ p₁ p₂ voters₁ voters₂ world)
    (rounds : sys.Rounds p₀.view voters₁ voters₂)
    (grows : ∀ i, sys.committee.Honest i → (world i).worker.trace ⊆ (world' i).worker.trace) :
    sys.Backs keys p₀ p₁ p₂ voters₁ voters₂ world' where
  first := backs.first.imp_right fun said => said.imp fun _ => (grows _ backs.first.1 ·)
  second := backs.second.imp_right fun said => said.imp fun _ => (grows _ backs.second.1 ·)
  votes₁ j hj := (backs.votes₁ j hj).imp fun _ => (grows j (rounds.enough₁.honest j hj) ·)
  votes₂ j hj := (backs.votes₂ j hj).imp fun _ => (grows j (rounds.enough₂.honest j hj) ·)

end System

/-- The client has been asked for all of the blocks and has finalized the last; none waits. -/
structure Node.Clears (n : Node B) (blocks : List (Payload B)) : Prop where
  asks : ∀ b ∈ blocks, ∃ m, (m, .finalizeBlock b.blockHash) ∈ n.worker.trace
  tip : ∀ b, blocks.getLast? = some b →
    n.worker.client.finalizedHash = b.blockHash ∧ n.worker.client.finalizedNumber = b.blockNumber
  queue : n.worker.pendingFinalizeQueue = some []

/-! ### A system to run -/

namespace Symbolic

open Terms

/-- Four authorities, one of them faulty. The clients know no block yet. -/
def live : System symbolic where
  authorities := authorities 4
  distinct := (system 3 ({1} : Finset Nat) (by decide)).distinct
  faulty := {1}
  few := (system 3 ({1} : Finset Nat) (by decide)).few
  node i := { setup 3 i with
    client := ⟨fun _ => .ok .unknown, .leaf 2, 0, fun _ => .error "unknown block"⟩
    queue := some [] }
  shared _ := rfl

def liveBlocks : List (Payload symbolic) := [⟨.leaf 7, 1⟩, ⟨.leaf 8, 2⟩]

def livePeers (i : Nat) : List Nat := [0, 2, 3].filter (· ≠ i)

theorem live_honest (i : Nat) : live.committee.Honest i ↔ i ∈ [0, 2, 3] := by
  change i ∈ (authorities 4).ids.toFinset ∧ i ∉ ({1} : Finset Nat) ↔ _
  simp only [List.mem_toFinset, Finset.mem_singleton]
  have ids : (authorities 4).ids = [0, 1, 2, 3] := by decide
  rw [ids]
  simp only [List.mem_cons, List.not_mem_nil, or_false]
  omega

theorem liveBlocks_ascending : Ascending liveBlocks :=
  ⟨by decide, by simp [liveBlocks]⟩

theorem live_fresh (i : Nat) (honest : live.committee.Honest i) : live.Fresh liveBlocks i := by
  have member := (live_honest i).mp honest
  refine ⟨⟨rfl, ?_, keystore_signs i, fun _ => rfl, fun _ => rfl, decode_encode⟩, rfl, ?_, ?_⟩
  · simp only [List.mem_cons, List.not_mem_nil, or_false] at member
    rcases member with rfl | rfl | rfl <;> decide
  · rintro key q ⟨data, found, _⟩
    cases found
  · intro b member
    simp only [liveBlocks, List.mem_cons, List.not_mem_nil, or_false] at member
    rcases member with rfl | rfl
    · exact ⟨show (0 : Nat) < 1 by decide, show Term.leaf 2 ≠ Term.leaf 7 by decide⟩
    · exact ⟨show (0 : Nat) < 2 by decide, show Term.leaf 2 ≠ Term.leaf 8 by decide⟩

theorem live_enough (i : Nat) (honest : live.committee.Honest i) : live.Enough i (livePeers i) := by
  have member := (live_honest i).mp honest
  refine ⟨?_, fun j hj => (live_honest j).mpr (List.mem_of_mem_filter hj), ?_⟩
  · simp only [List.mem_cons, List.not_mem_nil, or_false] at member
    rcases member with rfl | rfl | rfl <;> decide
  · simp only [List.mem_cons, List.not_mem_nil, or_false] at member
    rcases member with rfl | rfl | rfl <;> decide

theorem live_rounds : live.Rounds 2 (livePeers 3) (livePeers 0) where
  several := by decide
  room := by decide
  first := (live_honest 3).mpr (by decide)
  second := (live_honest 0).mpr (by decide)
  enough₁ := live_enough 3 ((live_honest 3).mpr (by decide))
  enough₂ := live_enough 0 ((live_honest 0).mpr (by decide))

def liveClient : Client symbolic :=
  (live.node 0).client.importing (liveBlocks.map Payload.notice)

theorem liveClient_takes : liveClient.Takes liveBlocks := liveBlocks_ascending.takes _

theorem live_waiting : live.Waiting (fun i => (live.node i).keystore) (fun _ => QC.default)
    (fun _ => liveClient) ⟨.leaf 7, 1⟩ 1 (live.awake liveBlocks) :=
  (System.awake_resting symbolic_collisionFree live_fresh live_rounds.several).waiting
    (fun i honest => (live_fresh i honest).backlog live_rounds.several) liveBlocks_ascending
    (fun _ _ => liveClient_takes) (by decide)

end Symbolic

/-! ### Liveness -/

/-- A valid proposal of a new block that every honest node is about to hear is finalized by all
of them after two rounds with honest leaders, in every order of the steps of different nodes.
The messages the nodes receive on the way are messages that honest nodes have gossiped. -/
theorem proposed_block_finalized (sys : System B) (widths : FixedWidth B) (ideal : CollisionFree B)
    (keys : B.AuthorityId → Keystore B) (clients : B.AuthorityId → Client B) (world : World B)
    (p₀ : Proposal B) (voters₁ voters₂ : List B.AuthorityId)
    (ready : sys.Ready keys clients p₀.payload p₀.view [] p₀ world)
    (valid : sys.Valid p₀) (nonempty : p₀.payload.blockHash ≠ B.emptyPayloadHash)
    (known : ∀ i, sys.committee.Honest i → (clients i).Knows p₀.payload)
    (rounds : sys.Rounds p₀.view voters₁ voters₂) :
    ∃ p₁ p₂, ∀ actions : List (B.AuthorityId × Action B),
      (∀ i, sys.committee.Honest i →
        Runs.own i actions = sys.commitRounds keys p₀ p₁ p₂ voters₁ voters₂ i) →
      let final := Runs.run (Runs.many Node.step) world actions
      sys.Backs keys p₀ p₁ p₂ voters₁ voters₂ final ∧
      ∀ i, sys.committee.Honest i → (final i).Finalizes (clients i) p₀.payload.blockHash := by
  obtain ⟨p₁, p₂, row, _⟩ := ready.inRow widths ideal valid nonempty known rounds
  refine ⟨p₁, p₂, fun actions own => ?_⟩
  have last : ∀ i, sys.committee.Honest i → Runs.run (Runs.many Node.step) world actions i =
      (System.after (System.after world (sys.round keys p₀ voters₁)) (sys.round keys p₁ voters₂)
        i).step (hearProposal p₂ i) := by
    intro i honest
    rw [System.run_after world _ (own i honest), System.after_after]
    simp [System.after, System.commitRounds, Runs.run_append]
  refine ⟨row.backs.mono rounds fun i honest => ?_, fun i honest => ?_⟩
  · rw [last i honest]
    exact Node.run_trace _ [hearProposal p₂ i]
  · rw [last i honest]
    exact (row.closes widths ideal nonempty rounds honest).finalizes

theorem proposed_block_finalized_live : ∃ world p₀ p₁ p₂ actions,
    Symbolic.live.Ready (fun i => (Symbolic.live.node i).keystore) (fun _ => Symbolic.liveClient)
      p₀.payload p₀.view [] p₀ world ∧
    Symbolic.live.Backs (fun i => (Symbolic.live.node i).keystore) p₀ p₁ p₂ (Symbolic.livePeers 3)
      (Symbolic.livePeers 0) (Runs.run (Runs.many Node.step) world actions) ∧
    ∀ i ∈ [0, 2, 3],
      (Runs.run (Runs.many Node.step) world actions i).worker.client.finalizedHash = .leaf 7 ∧
      (Runs.run (Runs.many Node.step) world actions i).worker.client.finalizedNumber = 1 := by
  obtain ⟨p₀, payload, opened, valid, _, ready, _⟩ := Symbolic.live_waiting.changes (by decide)
    ((Symbolic.live_honest 2).mpr (by decide)) Symbolic.live_enough Symbolic.live_rounds.several
  rw [← opened, ← payload] at ready
  have taken := Symbolic.liveClient_takes p₀.payload (by rw [payload]; decide)
  obtain ⟨p₁, p₂, all⟩ := proposed_block_finalized Symbolic.live symbolic_fixedWidth
    symbolic_collisionFree _ _ _ p₀ (Symbolic.livePeers 3) (Symbolic.livePeers 0) ready valid
    (by rw [payload]; decide) (fun i _ => .inr taken.1) (opened ▸ Symbolic.live_rounds)
  obtain ⟨backs, finalizes⟩ := all ([0, 2, 3].flatMap fun i =>
    (Symbolic.live.commitRounds _ p₀ p₁ p₂ (Symbolic.livePeers 3) (Symbolic.livePeers 0) i).map
      fun a => (i, a)) fun i honest =>
    Runs.own_flatMap _ (by decide) ((Symbolic.live_honest i).mp honest)
  refine ⟨_, p₀, p₁, p₂, _, ready, backs, fun i hi => ?_⟩
  have done := (finalizes i ((Symbolic.live_honest i).mpr hi)).done _ taken.2
  rwa [payload] at done

/-- Honest nodes that are stuck in a view get the block at the front of their queues finalized,
whoever the faulty authorities are: there is a run of their own steps, in which they receive what
they have gossiped before, and in every order of these steps they finalize the block within one
rotation of leaders and two views. -/
theorem stalled_view_recovers (sys : System B) (widths : FixedWidth B) (ideal : CollisionFree B)
    (keys : B.AuthorityId → Keystore B) (highs : B.AuthorityId → QC B)
    (clients : B.AuthorityId → Client B) (world : World B) (block : Payload B) (view : ViewNumber)
    (waiting : sys.Waiting keys highs clients block view world)
    (nonempty : block.blockHash ≠ B.emptyPayloadHash)
    (known : ∀ i, sys.committee.Honest i → (clients i).Knows block)
    (several : 1 < sys.authorities.length)
    (room : view.toNat + sys.authorities.length + 2 < UInt64.size) :
    ∃ actions, Runs.Along (Runs.many Node.step) (sys.Causal fun _ _ => False) world actions ∧
      ∀ actions', (∀ i, sys.committee.Honest i → Runs.own i actions' = Runs.own i actions) →
        ∀ i, sys.committee.Honest i →
          let n := Runs.run (Runs.many Node.step) world actions' i
          n.Finalizes (clients i) block.blockHash ∧
            n.worker.state.view.toNat ≤ view.toNat + sys.authorities.length + 2 := by
  obtain ⟨world', view', ⟨actions, causal, same⟩, bound, ⟨_, resting⟩, _, finalizes, _⟩ :=
    waiting.turn widths ideal nonempty known several room (System.Reaches.refl world)
  refine ⟨actions, causal, fun actions' own i honest => ?_⟩
  rw [Runs.many_run, own i honest, ← Runs.many_run, same i honest]
  exact ⟨finalizes i honest, (resting.stalled i honest).here ▸ bound⟩

theorem stalled_view_recovers_live : ∃ actions,
    Runs.Along (Runs.many Node.step) (Symbolic.live.Causal fun _ _ => False)
      (Symbolic.live.awake Symbolic.liveBlocks) actions ∧
    ∀ i ∈ [0, 2, 3],
      let n := Runs.run (Runs.many Node.step) (Symbolic.live.awake Symbolic.liveBlocks) actions i
      n.worker.client.finalizedHash = .leaf 7 ∧ n.worker.client.finalizedNumber = 1 := by
  have taken := Symbolic.liveClient_takes ⟨.leaf 7, 1⟩ (by decide)
  obtain ⟨actions, causal, all⟩ := stalled_view_recovers Symbolic.live symbolic_fixedWidth
    symbolic_collisionFree _ _ _ _ ⟨.leaf 7, 1⟩ 1 Symbolic.live_waiting (by decide)
    (fun i _ => .inr taken.1) Symbolic.live_rounds.several (by decide)
  refine ⟨actions, causal, fun i hi => ?_⟩
  exact (all actions (fun _ _ => rfl) i ((Symbolic.live_honest i).mpr hi)).1.done _ taken.2

/-- From the start the honest nodes alone can get all blocks finalized that their clients
import: there is a run of their own steps, in which they receive what they have gossiped before
and hear from their clients of these blocks and of what is finalized. Every block takes them no
more than one rotation of leaders and two views. -/
theorem imported_blocks_finalized (sys : System B) (widths : FixedWidth B) (ideal : CollisionFree B)
    (blocks : List (Payload B)) (ascending : Ascending blocks)
    (fresh : ∀ i, sys.committee.Honest i → sys.Fresh blocks i)
    (several : 1 < sys.authorities.length)
    (room : 1 + (sys.authorities.length + 2) * blocks.length < UInt64.size) :
    ∃ actions, Runs.Along (Runs.many Node.step) (sys.Causal ConsensusWorker.Notices) sys.start
        actions ∧
      ∀ actions', (∀ i, sys.committee.Honest i → Runs.own i actions' = Runs.own i actions) →
        ∀ i, sys.committee.Honest i → (sys.run actions' i).Clears blocks ∧
          (sys.run actions' i).worker.state.view.toNat ≤
            1 + (sys.authorities.length + 2) * blocks.length := by
  obtain ⟨_, view, world, ⟨actions, causal, same⟩, bound, resting, backlog⟩ :=
    (System.awake_resting ideal fresh several).drains widths ideal
      (fun i honest => (fresh i honest).backlog several) ascending
      (fun _ _ => ascending.takes _) several room (sys.awake_reaches blocks)
  refine ⟨actions, causal, fun actions' own i honest => ?_⟩
  have final : sys.run actions' i = world i := by
    rw [sys.run_node, own i honest, ← sys.run_node]
    exact same i honest
  rw [final]
  exact ⟨⟨(backlog i honest).asks, (backlog i honest).tip, (backlog i honest).queue⟩,
    (resting.stalled i honest).here ▸ bound⟩

theorem imported_blocks_finalized_live : ∃ actions,
    Runs.Along (Runs.many Node.step) (Symbolic.live.Causal ConsensusWorker.Notices)
      Symbolic.live.start actions ∧
    ∀ i ∈ [0, 2, 3], (Symbolic.live.run actions i).Clears Symbolic.liveBlocks ∧
      (Symbolic.live.run actions i).worker.client.finalizedHash = .leaf 8 := by
  obtain ⟨actions, causal, all⟩ := imported_blocks_finalized Symbolic.live symbolic_fixedWidth
    symbolic_collisionFree Symbolic.liveBlocks Symbolic.liveBlocks_ascending Symbolic.live_fresh
    Symbolic.live_rounds.several (by decide)
  refine ⟨actions, causal, fun i hi => ?_⟩
  obtain ⟨clears, _⟩ := all actions (fun _ _ => rfl) i ((Symbolic.live_honest i).mpr hi)
  exact ⟨clears, (clears.tip _ rfl).1⟩

end Hotstuff
