import Hotstuff.ViewChange

/-! A block on its way to be finalized, at one node: what the node must not have stored or
finalized already, what it keeps while it hears one proposal after the other, and what the third
of them commits. -/
namespace Hotstuff

variable {B : BlockT}

open ConsensusWorker

/-! ### The block on its way -/

/-- The client has the block still to finalize. -/
structure Client.Awaits (client : Client B) (block : Payload B) : Prop where
  unfinished : client.finalizedNumber < block.blockNumber
  new : client.finalizedHash ≠ block.blockHash

/-- The clients give the same answers; what they have finalized may differ. -/
structure Client.Agrees (client client' : Client B) : Prop where
  status : client'.status = client.status
  finalizeBlock : client'.finalizeBlock = client.finalizeBlock

theorem Client.Agrees.trans {a b c : Client B} (first : a.Agrees b) (second : b.Agrees c) :
    a.Agrees c :=
  ⟨second.status.trans first.status, second.finalizeBlock.trans first.finalizeBlock⟩

theorem Client.Agrees.knows {client client' : Client B} (agrees : client.Agrees client')
    {payload : Payload B} (known : client.Knows payload) : client'.Knows payload := by
  unfold Client.Knows
  rwa [agrees.status]

/-- The proposal is for the block, or it is one of the empty ones that commit it. -/
def Proposal.Serves (p : Proposal B) (block : Payload B) : Prop :=
  p.payload.blockHash = block.blockHash ∨ p.payload.blockHash = B.emptyPayloadHash

namespace Synchronizer

def Stores (s : Synchronizer B) (key : B.Hash) (q : Proposal B) : Prop :=
  ∃ data, s.store.aux key = some data ∧ s.decode data = .ok q

def Childless (s : Synchronizer B) (key : B.Hash) : Prop :=
  ∀ other q, s.Stores other q → q.parentHash ≠ key

/-- What the client would finalize of the other blocks proposed so far is below the block. -/
def Below (s : Synchronizer B) (answers : B.Hash → Except String B.Number) (block : Payload B) :
    Prop :=
  ∀ key q number, s.Stores key q → ¬ q.Serves block →
    answers q.payload.blockHash = .ok number → number < block.blockNumber

variable {s : Synchronizer B} {key : B.Hash} {p q parent grandpa : Proposal B}

theorem Stores.unique {q' : Proposal B} (stores : s.Stores key q) (again : s.Stores key q') :
    q = q' := by
  obtain ⟨data, found, decoded⟩ := stores
  obtain ⟨data', found', decoded'⟩ := again
  cases Option.some.inj (found.symm.trans found')
  exact Except.ok.inj (decoded.symm.trans decoded')

theorem saved_holds (codec : s.decode (s.encode p) = .ok p) : (s.saved p).Holds p :=
  ⟨s.encode p, by simp [saved], codec⟩

theorem Holds.saved (holds : s.Holds q) (apart : q.digest ≠ p.digest) : (s.saved p).Holds q := by
  obtain ⟨data, found, decoded⟩ := holds
  exact ⟨data, by simp [Synchronizer.saved, apart, found], decoded⟩

theorem Stores.of_saved (codec : s.decode (s.encode p) = .ok p)
    (stores : (s.saved p).Stores key q) : key = p.digest ∧ q = p ∨ s.Stores key q := by
  by_cases here : key = p.digest
  · subst here
    exact .inl ⟨rfl, stores.unique (saved_holds codec)⟩
  · obtain ⟨data, found, decoded⟩ := stores
    simp only [saved, Function.update_of_ne here] at found
    exact .inr ⟨data, found, decoded⟩

theorem Childless.saved (codec : s.decode (s.encode p) = .ok p) (childless : s.Childless key)
    (other : p.parentHash ≠ key) : (s.saved p).Childless key := by
  intro place q stores
  rcases stores.of_saved codec with ⟨_, rfl⟩ | old
  · exact other
  · exact childless place q old

theorem Below.saved {answers : B.Hash → Except String B.Number} {block : Payload B}
    (codec : s.decode (s.encode p) = .ok p) (below : s.Below answers block)
    (serves : p.Serves block) : (s.saved p).Below answers block := by
  intro place q number stores other
  rcases stores.of_saved codec with ⟨_, rfl⟩ | old
  · exact absurd serves other
  · exact below place q number old other

theorem saved_parent (reads : ∀ key, s.store.getError key = none) (holds : s.Holds parent)
    (apart : parent.digest ≠ q.digest) (link : p.parentHash = parent.digest) :
    (s.saved q).getProposalParent p = .ok parent := by
  obtain ⟨data, found, decoded⟩ := holds.saved apart
  have reads : (s.saved q).store.getError parent.digest = none := reads _
  simp [getProposalParent, Store.get, reads, link, found, decoded]

theorem ancestors_stored (found : s.getProposalAncestors p = .ok (parent, grandpa)) :
    s.Stores p.parentHash parent ∧ s.Stores parent.parentHash grandpa := by
  obtain ⟨first, second⟩ := getProposalAncestors_ok found
  exact ⟨getProposalParent_ok first, getProposalParent_ok second⟩

end Synchronizer

section Commit

variable {w : ConsensusWorker B} {p parent grandpa : Proposal B} {block : Payload B}

theorem tryFinalize_agrees (w : ConsensusWorker B) (p : Proposal B) :
    w.client.Agrees (w.tryFinalize p).client := by
  unfold tryFinalize
  split
  · exact ⟨rfl, rfl⟩
  · split
    · dsimp only
      split
      · split <;> exact ⟨rfl, rfl⟩
      · exact ⟨rfl, rfl⟩
    · exact ⟨rfl, rfl⟩

theorem tryFinalize_awaits (awaits : w.client.Awaits block)
    (below : w.synchronizer.Below w.client.finalizeBlock block)
    (spares : ∀ parent grandpa, w.synchronizer.getProposalAncestors p = .ok (parent, grandpa) →
      parent.view = grandpa.view + 1 → grandpa.payload.blockHash ≠ block.blockHash) :
    (w.tryFinalize p).client.Awaits block := by
  unfold tryFinalize
  split
  · exact awaits
  · rename_i parent grandpa found
    split
    · rename_i consecutive
      have other := spares parent grandpa found consecutive
      dsimp only
      split
      · rename_i allowed
        split
        · exact awaits
        · rename_i number answer
          obtain ⟨_, stored⟩ := Synchronizer.ancestors_stored found
          have apart : ¬ grandpa.Serves block := fun serves => serves.elim other allowed.1
          exact ⟨below _ grandpa number stored apart answer, other⟩
      · exact awaits
    · exact awaits

theorem tryFinalize_finalizes
    (found : w.synchronizer.getProposalAncestors p = .ok (parent, grandpa))
    (consecutive : parent.view = grandpa.view + 1)
    (nonempty : grandpa.payload.blockHash ≠ B.emptyPayloadHash)
    (new : w.client.finalizedHash ≠ grandpa.payload.blockHash) :
    (∃ m, (m, .finalizeBlock grandpa.payload.blockHash) ∈ (w.tryFinalize p).trace) ∧
      ∀ number, w.client.finalizeBlock grandpa.payload.blockHash = .ok number →
        (w.tryFinalize p).client.finalizedHash = grandpa.payload.blockHash ∧
          (w.tryFinalize p).client.finalizedNumber = number := by
  have asked : ∀ w' : ConsensusWorker B, w'.trace = ((w.emit (.canFinalize p parent grandpa)).emit
      (.finalizeBlock grandpa.payload.blockHash)).trace →
      ∃ m, (m, .finalizeBlock grandpa.payload.blockHash) ∈ w'.trace := by
    intro w' same
    rw [same]
    exact ⟨_, List.mem_append_right _ (List.mem_singleton.mpr rfl)⟩
  have allowed : grandpa.payload.blockHash ≠ B.emptyPayloadHash ∧
      grandpa.payload.blockHash ≠ (w.emit (.canFinalize p parent grandpa)).client.finalizedHash :=
    ⟨nonempty, new.symm⟩
  unfold tryFinalize
  rw [found]
  dsimp only
  rw [if_pos consecutive, if_pos allowed]
  split
  · rename_i refused
    refine ⟨asked _ rfl, fun number answer => ?_⟩
    rw [show w.client.finalizeBlock _ = _ from refused] at answer
    cases answer
  · rename_i number' answer'
    refine ⟨asked _ rfl, fun number answer => ⟨rfl, ?_⟩⟩
    rw [show w.client.finalizeBlock _ = _ from answer'] at answer
    exact Except.ok.inj answer

end Commit

/-- The node has asked its client to finalize the block, and the client has done so unless it
refuses. -/
structure Node.Finalizes (n : Node B) (client : Client B) (hash : B.Hash) : Prop where
  asks : ∃ m, (m, .finalizeBlock hash) ∈ n.worker.trace
  done : ∀ number, client.finalizeBlock hash = .ok number →
    n.worker.client.finalizedHash = hash ∧ n.worker.client.finalizedNumber = number

/-! ### One node -/

/-- What a node keeps while the block is on its way: it has stored the proposals of `chain`, and
all the others it has are older than `since`; those of them for the block, if any, have come to
nothing. -/
structure ConsensusWorker.Follows (w : ConsensusWorker B) (authorities : AuthorityList B)
    (id : B.AuthorityId) (client : Client B) (block : Payload B) (since : ViewNumber)
    (chain : List (Proposal B)) : Prop where
  able : w.Able authorities id
  lock : ∃ queue, w.pendingFinalizeQueue = some queue
  awaits : w.client.Awaits block
  answers : client.Agrees w.client
  below : w.synchronizer.Below client.finalizeBlock block
  holds : ∀ q ∈ chain, w.synchronizer.Holds q
  rest : ∀ key q, w.synchronizer.Stores key q → q ∈ chain ∨ q.view < since ∧
    (q.payload.blockHash = block.blockHash → w.synchronizer.Childless key)

/-- The proposal `p` does not go on from another proposal of the block. -/
def ConsensusWorker.Reopens (w : ConsensusWorker B) (block : Payload B) (chain : List (Proposal B))
    (p : Proposal B) : Prop :=
  ∀ q, w.synchronizer.Stores p.parentHash q → q ∈ chain ∨ q.payload.blockHash ≠ block.blockHash

def ConsensusWorker.Spares (w : ConsensusWorker B) (block : Payload B) (p : Proposal B) : Prop :=
  ∀ parent grandpa, (w.synchronizer.saved p).getProposalAncestors p = .ok (parent, grandpa) →
    parent.view = grandpa.view + 1 → grandpa.payload.blockHash ≠ block.blockHash

/-- The node is to hear `p` next: its author has just proposed it, for the others it is on its
way. -/
structure Node.Expects (n : Node B) (id : B.AuthorityId) (p : Proposal B) : Prop where
  pending : n.pending = if id = p.author then some (.proposal p) else none
  view : n.worker.state.view = p.view ∨
    n.worker.state.view = p.qc.view ∧ p.qc.view + 1 = p.view
  fresh : n.worker.state.lastVotedView < p.view
  high : n.worker.state.highQc.view < p.view
  tallies : ∀ view digest, p.view ≤ view →
    n.worker.state.aggregator.votesAggregator view digest = Maker.new

/-- The node has heard `p` and voted for it; the leader of the next view is to count its vote. -/
structure Node.Heard (n : Node B) (id : B.AuthorityId) (p : Proposal B) : Prop where
  pending : n.pending = if id = n.worker.state.viewLeader (p.view + 1) then
    some (.vote (n.worker.state.keystore.vote id p)) else none
  view : n.worker.state.view = p.view
  voted : n.worker.state.lastVotedView = p.view
  high : n.worker.state.highQc.view < p.view
  tallies : ∀ view digest, p.view ≤ view →
    n.worker.state.aggregator.votesAggregator view digest = Maker.new
  processing : n.worker.processingBlock =
    some ⟨some p.payload.blockHash, p.payload.blockNumber⟩

/-- Of the queue, the counted timeouts and the store, only the store has changed: the node has
got the proposals `new`. -/
structure Node.Keeps (new : List (Proposal B)) (n n' : Node B) : Prop where
  queue : n'.worker.pendingFinalizeQueue = n.worker.pendingFinalizeQueue
  timeouts : n'.worker.state.aggregator.timeoutsAggregators =
    n.worker.state.aggregator.timeoutsAggregators
  stores : ∀ key q, n'.worker.synchronizer.Stores key q →
    n.worker.synchronizer.Stores key q ∨ q ∈ new

theorem Node.Keeps.trans {first second : List (Proposal B)} {n n' n'' : Node B}
    (one : Node.Keeps first n n') (two : Node.Keeps second n' n'') :
    Node.Keeps (first ++ second) n n'' := by
  refine ⟨two.queue.trans one.queue, two.timeouts.trans one.timeouts, fun key q stores => ?_⟩
  rcases two.stores key q stores with old | new
  · exact (one.stores key q old).imp_right (List.mem_append_left _)
  · exact .inr (List.mem_append_right _ new)

structure Node.Primed (n : Node B) (authorities : AuthorityList B) (id : B.AuthorityId)
    (keystore : Keystore B) (client : Client B) (block : Payload B) (since : ViewNumber)
    (chain : List (Proposal B)) (p : Proposal B) : Prop where
  key : n.worker.state.keystore = keystore
  follows : n.worker.Follows authorities id client block since chain
  reopens : n.worker.Reopens block chain p
  expects : n.Expects id p

def hearProposal (p : Proposal B) (id : B.AuthorityId) : Action B :=
  if id = p.author then .resume else .receive (.propose p)

section Node

variable {n n' : Node B} {authorities : AuthorityList B} {id : B.AuthorityId}
  {keystore : Keystore B} {client : Client B} {block : Payload B} {since : ViewNumber}
  {chain : List (Proposal B)} {p p' : Proposal B} {r : Outcome B}

theorem Node.Expects.entered (expects : n.Expects id p) :
    n.entered (hearProposal p id) = some (.proposal p) := by
  have pending := expects.pending
  unfold hearProposal
  split
  · rename_i author
    rwa [if_pos author] at pending
  · rename_i other
    rw [if_neg other] at pending
    simp [Node.entered, pending, Call.ofMessage]

theorem Node.Expects.hears (expects : n.Expects id p) (able : n.worker.Able authorities id)
    (known : n.worker.client.Knows p.payload)
    (verified : n.worker.state.verifyProposal p = .ok ()) (past : p.qc.view < p.view) :
    ∃ r, Hears (n.worker.emit (.handled (.proposal p))) id p r ∧
      n.step (hearProposal p id) = ⟨r.1, Outcome.next r⟩ := by
  have current : p.view = advanced n.worker.state.view p.qc.view := by
    unfold advanced
    rcases expects.view with here | ⟨before, next⟩
    · rw [here, if_neg fun same => UInt64.lt_irrefl _ (same ▸ past)]
    · rw [if_pos before.symm, before, next]
  refine ⟨_, handleProposal_hears (able.of_eq rfl rfl _ rfl) known verified current expects.fresh,
    ?_⟩
  rw [Node.step_entered expects.entered]
  rfl

theorem Node.Expects.heard (expects : n.Expects id p) (past : p.qc.view < p.view)
    (hears : Hears (n.worker.emit (.handled (.proposal p))) id p r) :
    Node.Heard ⟨r.1, Outcome.next r⟩ id p := by
  have state := hears.state
  refine ⟨?_, by rw [state], by rw [state], ?_, ?_, hears.processing⟩
  · have next := hears.next
    dsimp only
    rw [next, state]
    rfl
  · rw [state]
    change (n.worker.state.moment.highQcAfter p.qc).view < p.view
    unfold Moment.highQcAfter
    split
    · exact past
    · exact expects.high
  · rw [state]
    exact expects.tallies

theorem Hears.keeps (hears : Hears (n.worker.emit (.handled (.proposal p))) id p r)
    (able : n.worker.Able authorities id) : Node.Keeps [p] n ⟨r.1, Outcome.next r⟩ := by
  refine ⟨hears.queue, by rw [hears.state]; rfl, fun key q stores => ?_⟩
  rw [hears.synchronizer] at stores
  rcases stores.of_saved (able.codec p) with ⟨_, rfl⟩ | old
  · exact .inr (List.mem_singleton.mpr rfl)
  · exact .inl old

theorem Hears.able (hears : Hears (n.worker.emit (.handled (.proposal p))) id p r)
    (able : n.worker.Able authorities id) : r.1.Able authorities id :=
  able.of_eq (by rw [hears.state]; rfl) (by rw [hears.state]; rfl) _ hears.synchronizer

theorem Hears.agrees (hears : Hears (n.worker.emit (.handled (.proposal p))) id p r) :
    n.worker.client.Agrees r.1.client := by
  have kept : ((n.worker.emit (.handled (.proposal p))).saved p).client = n.worker.client :=
    congrArg Desk.client (saved_desk (n.worker.emit (.handled (.proposal p))) p)
  have same := tryFinalize_agrees ((n.worker.emit (.handled (.proposal p))).saved p) p
  rw [hears.client]
  exact kept ▸ same

theorem ConsensusWorker.Follows.awaits_hears
    (follows : n.worker.Follows authorities id client block since chain)
    (hears : Hears (n.worker.emit (.handled (.proposal p))) id p r) (serves : p.Serves block)
    (spares : n.worker.Spares block p) : r.1.client.Awaits block := by
  have kept : ((n.worker.emit (.handled (.proposal p))).saved p).client = n.worker.client :=
    congrArg Desk.client (saved_desk (n.worker.emit (.handled (.proposal p))) p)
  have below := follows.below.saved (follows.able.codec p) serves
  rw [← follows.answers.finalizeBlock, ← kept] at below
  rw [hears.client]
  exact tryFinalize_awaits (kept ▸ follows.awaits) below spares

theorem ConsensusWorker.Follows.hears
    (follows : n.worker.Follows authorities id client block since chain)
    (hears : Hears (n.worker.emit (.handled (.proposal p))) id p r) (serves : p.Serves block)
    (apart : ∀ q ∈ chain, q.digest ≠ p.digest) (reopens : n.worker.Reopens block chain p)
    (spares : n.worker.Spares block p) :
    r.1.Follows authorities id client block since (chain ++ [p]) := by
  have codec := follows.able.codec p
  refine ⟨hears.able follows.able, ?_, follows.awaits_hears hears serves spares,
    follows.answers.trans hears.agrees, ?_, ?_, ?_⟩
  · rw [hears.queue]
    exact follows.lock
  · rw [hears.synchronizer]
    exact follows.below.saved codec serves
  · rw [hears.synchronizer]
    intro q hq
    rcases List.mem_append.mp hq with old | new
    · exact (follows.holds q old).saved (apart q old)
    · rw [List.mem_singleton.mp new]
      exact Synchronizer.saved_holds codec
  · rw [hears.synchronizer]
    intro key q stores
    rcases stores.of_saved codec with ⟨_, rfl⟩ | old
    · exact .inl (by simp)
    · rcases follows.rest key q old with chained | ⟨older, childless⟩
      · exact .inl (List.mem_append_left _ chained)
      · by_cases known : q ∈ chain
        · exact .inl (List.mem_append_left _ known)
        · refine .inr ⟨older, fun ours => (childless ours).saved codec ?_⟩
          rintro rfl
          exact (reopens q old).elim known fun differs => differs ours

theorem ConsensusWorker.Follows.spares {w : ConsensusWorker B}
    (follows : w.Follows authorities id client block since []) (opened : p.view = since)
    (reopens : w.Reopens block [] p) (room : p.view < p.view + 1) : w.Spares block p := by
  intro parent grandpa found consecutive same
  have codec := follows.able.codec p
  obtain ⟨stored, stored'⟩ := Synchronizer.ancestors_stored found
  have older : ∀ key q, w.synchronizer.Stores key q → q.view < p.view := fun key q old =>
    opened ▸ ((follows.rest key q old).resolve_left List.not_mem_nil).1
  -- A grandparent that is `p` itself has a view too many; an older one of the block has no child.
  rcases stored'.of_saved codec with ⟨_, first⟩ | old
  · rw [first] at consecutive
    rw [← consecutive] at room
    rcases stored.of_saved codec with ⟨_, again⟩ | old
    · rw [again] at room
      exact UInt64.lt_irrefl _ room
    · exact UInt64.lt_irrefl _ (UInt64.lt_trans room (older _ parent old))
  · have childless := ((follows.rest _ grandpa old).resolve_left List.not_mem_nil).2 same
    rcases stored.of_saved codec with ⟨_, rfl⟩ | old'
    · exact (reopens grandpa old).resolve_left List.not_mem_nil same
    · exact childless _ parent old' rfl

theorem ConsensusWorker.Follows.later {w : ConsensusWorker B}
    (follows : w.Follows authorities id client block since []) (room : since < since + 1) :
    w.Follows authorities id client block (since + 1) [] := by
  refine { follows with rest := fun key q stores => ?_ }
  obtain ⟨older, childless⟩ := (follows.rest key q stores).resolve_left List.not_mem_nil
  exact .inr ⟨UInt64.lt_trans older room, childless⟩

theorem ConsensusWorker.Follows.abandons
    (follows : n.worker.Follows authorities id client block since [])
    (hears : Hears (n.worker.emit (.handled (.proposal p))) id p r) (opened : p.view = since)
    (serves : p.Serves block) (reopens : n.worker.Reopens block [] p) (room : since < since + 1)
    (childless : (n.worker.synchronizer.saved p).Childless p.digest) :
    r.1.Follows authorities id client block (since + 1) [] := by
  have codec := follows.able.codec p
  have heard := follows.hears hears serves (by simp) reopens
    (follows.spares opened reopens (opened ▸ room))
  refine { heard with holds := by simp, rest := ?_ }
  rw [hears.synchronizer]
  intro key q stores
  rcases stores.of_saved codec with ⟨rfl, rfl⟩ | old
  · exact .inr ⟨opened ▸ room, fun _ => childless⟩
  · obtain ⟨older, sofar⟩ := (follows.rest key q old).resolve_left List.not_mem_nil
    refine .inr ⟨UInt64.lt_trans older room, fun ours => (sofar ours).saved codec ?_⟩
    rintro rfl
    exact (reopens q old).resolve_left List.not_mem_nil ours

theorem ConsensusWorker.Follows.reopens {w : ConsensusWorker B}
    (follows : w.Follows authorities id client block since (chain ++ [p]))
    (succeeds : Succeeds authorities p p') : w.Reopens block (chain ++ [p]) p' := by
  intro q stores
  rw [Proposal.parentHash, succeeds.parent] at stores
  have last : p ∈ chain ++ [p] := by simp
  exact .inl (stores.unique (follows.holds p last) ▸ last)

structure Node.Heeds (authorities : AuthorityList B) (id : B.AuthorityId) (keystore : Keystore B)
    (client : Client B) (block : Payload B) (since : ViewNumber) (chain : List (Proposal B))
    (p : Proposal B) (n n' : Node B) : Prop where
  key : n'.worker.state.keystore = keystore
  follows : n'.worker.Follows authorities id client block since (chain ++ [p])
  heard : n'.Heard id p
  hashes : n'.worker.proposalHashQueue = n.worker.proposalHashQueue ++ [p.payload.blockHash]
  keeps : Node.Keeps [p] n n'
  told : id ≠ n'.worker.state.viewLeader (p.view + 1) →
    ∃ m, (m, .gossip (.vote (keystore.vote id p))) ∈ n'.worker.trace

theorem Node.Primed.heeds
    (primed : n.Primed authorities id keystore client block since chain p)
    (known : client.Knows p.payload) (verified : n.worker.state.verifyProposal p = .ok ())
    (past : p.qc.view < p.view) (serves : p.Serves block)
    (apart : ∀ q ∈ chain, q.digest ≠ p.digest) (spares : n.worker.Spares block p) :
    Node.Heeds authorities id keystore client block since chain p n
      (n.step (hearProposal p id)) := by
  obtain ⟨rfl, follows, reopens, expects⟩ := primed
  obtain ⟨r, hears, stepped⟩ :=
    expects.hears follows.able (follows.answers.knows known) verified past
  rw [stepped]
  refine ⟨by rw [hears.state]; rfl, follows.hears hears serves apart reopens spares,
    expects.heard past hears, hears.hashes, hears.keeps follows.able, fun follower => ?_⟩
  refine hears.told fun leader => follower ?_
  rw [hears.state]
  exact leader

/-- A round at one node: it has heard `p`, and `p'` on top of `p` is what it is to hear next. -/
structure Node.Turns (authorities : AuthorityList B) (id : B.AuthorityId) (keystore : Keystore B)
    (client : Client B) (block : Payload B) (since : ViewNumber) (chain : List (Proposal B))
    (p p' : Proposal B) (n n' : Node B) : Prop where
  primed : n'.Primed authorities id keystore client block since (chain ++ [p]) p'
  adopts : n'.worker.state.moment.highQcAfter p'.qc = p'.qc
  keeps : Node.Keeps [p] n n'

theorem Node.Heeds.follower
    (heeds : Node.Heeds authorities id keystore client block since chain p n n')
    (follower : id ≠ n'.worker.state.viewLeader (p.view + 1))
    (succeeds : Succeeds authorities p p') (other : id ≠ p'.author) (room : p.view < p.view + 1) :
    Node.Turns authorities id keystore client block since chain p p' n n' := by
  have heard := heeds.heard
  have later : p.view < p'.view := succeeds.view ▸ room
  refine ⟨⟨heeds.key, heeds.follows, heeds.follows.reopens succeeds, ?_, .inr ⟨?_, ?_⟩,
    heard.voted ▸ later, UInt64.lt_trans heard.high later, ?_⟩, ?_, heeds.keeps⟩
  · rw [heard.pending, if_neg follower, if_neg other]
  · exact heard.view.trans succeeds.base.symm
  · rw [succeeds.base, succeeds.view]
  · exact fun view digest from_ => heard.tallies view digest
      (UInt64.le_trans (UInt64.le_of_lt later) from_)
  · exact if_pos ⟨UInt64.le_of_eq (heard.view.trans succeeds.base.symm),
      succeeds.base.symm ▸ heard.high⟩

theorem Node.Heard.collector (heard : n.Heard id p)
    (follows : n.worker.Follows authorities id client block since chain)
    (leader : id = n.worker.state.viewLeader (p.view + 1))
    (number : p.payload.blockNumber = block.blockNumber)
    (due : ¬ Spent n.worker.proposalHashQueue) : Collector n.worker authorities id p :=
  ⟨follows.able, heard.view, heard.high, leader, follows.lock, heard.processing,
    number ▸ follows.awaits.unfinished, due⟩

theorem Leads.follows {w w' : ConsensusWorker B} (leads : Leads w p p' w')
    (follows : w.Follows authorities id client block since chain) :
    w'.Follows authorities id client block since chain := by
  obtain ⟨aggregator, state⟩ := leads.state
  refine ⟨?_, leads.queue ▸ follows.lock, leads.client ▸ follows.awaits,
    leads.client ▸ follows.answers, leads.synchronizer ▸ follows.below,
    leads.synchronizer ▸ follows.holds, leads.synchronizer ▸ follows.rest⟩
  exact follows.able.of_eq (by rw [state]) (by rw [state]) w.synchronizer.store.aux
    leads.synchronizer

theorem Node.Heeds.leader {n'' : Node B}
    (heeds : Node.Heeds authorities id keystore client block since chain p n n')
    (leads : Leads n'.worker p p' n''.worker) (succeeds : Succeeds authorities p p')
    (author : p'.author = id) (pending : n''.pending = some (.proposal p'))
    (room : p.view < p.view + 1) :
    Node.Turns authorities id keystore client block since chain p p' n n'' := by
  have heard := heeds.heard
  have follows := leads.follows heeds.follows
  obtain ⟨aggregator, state⟩ := leads.state
  have later : p.view < p'.view := succeeds.view ▸ room
  have counted : Node.Keeps [] n' n'' :=
    ⟨leads.queue, leads.timeouts, fun key q stores => .inl (leads.synchronizer ▸ stores)⟩
  refine ⟨⟨by rw [state]; exact heeds.key, follows, follows.reopens succeeds, ?_, .inl ?_, ?_, ?_,
    ?_⟩, ?_, heeds.keeps.trans counted⟩
  · rw [if_pos author.symm, pending]
  · rw [state, succeeds.view]
  · rw [state]
    exact heard.voted ▸ later
  · rw [state]
    exact succeeds.base ▸ later
  · exact fun view digest from_ => leads.above view digest (UInt64.lt_of_lt_of_le later from_)
  · rw [state]
    exact ite_self _

theorem Enters.keeps {w : ConsensusWorker B} {view : ViewNumber}
    (enters : Enters (n.worker.timed view) view w)
    (follows : n.worker.Follows authorities id client block since chain) :
    w.Follows authorities id client block since chain := by
  have synchronizer : w.synchronizer = n.worker.synchronizer := enters.synchronizer
  have same : w.client = n.worker.client := enters.client
  exact ⟨enters.able (follows.able.of_eq rfl rfl _ rfl), enters.queue ▸ follows.lock,
    same ▸ follows.awaits, same ▸ follows.answers, synchronizer ▸ follows.below,
    synchronizer ▸ follows.holds, synchronizer ▸ follows.rest⟩

theorem Enters.expects {view : ViewNumber}
    (enters : Enters (n.worker.timed view) view n'.worker)
    (stalled : n.Stalled authorities id view) (opened : p.view = view + 1)
    (pending : n'.pending = if id = p.author then some (.proposal p) else none)
    (room : view < view + 1) : n'.Expects id p := by
  obtain ⟨timeouts, state⟩ := enters.state
  refine ⟨pending, .inl ?_, ?_, ?_, ?_⟩
  · rw [state, opened]
  · rw [state, opened]
    exact room
  · rw [state, opened]
    exact UInt64.lt_trans stalled.high room
  · rw [state, opened]
    exact fun later digest from_ => stalled.tallies later digest (UInt64.lt_of_lt_of_le room from_)

theorem Node.Heard.rests (heard : n.Heard id p) (able : n.worker.Able authorities id)
    (sound : n.worker.state.highQc.Sound authorities)
    (timeouts : ∀ later, p.view ≤ later →
      n.worker.state.aggregator.timeoutsAggregators later = Maker.new)
    (several : 1 < authorities.length) :
    (n.step .resume).Stalled authorities id p.view ∧
      ∃ votes trace, (n.step .resume).worker = { n.worker with
        state := { n.worker.state with
          aggregator := { n.worker.state.aggregator with votesAggregator := votes } }
        trace := trace } := by
  -- Only the leader of the next view has a call left: its own vote, which alone is not enough.
  have pending := heard.pending
  split at pending
  · have valid := able.authorities.symm ▸ able.vote_verifies p
    obtain ⟨counted, idle⟩ := (Collecting.start heard.tallies).enter (j := id) heard.view
      List.not_mem_nil valid (by rw [able.authorities, List.length_nil]; omega)
    rw [Node.resume pending]
    have above := counted.above
    obtain ⟨votes, trace, frame⟩ := counted.frame
    refine ⟨⟨?_, idle, ?_, ?_, ?_, ?_, ?_, above⟩, votes, trace, frame⟩
    · exact able.of_eq (by rw [frame]) (by rw [frame]) n.worker.synchronizer.store.aux
        (by rw [frame])
    · rw [frame]
      exact heard.view
    · rw [frame]
      exact UInt64.le_of_eq heard.voted
    · rw [frame]
      exact heard.high
    · rw [frame]
      exact sound
    · rw [frame]
      exact timeouts
  · have still : n.step .resume = n := by simp [Node.step, Node.entered, pending]
    rw [still]
    exact ⟨⟨able, pending, heard.view, UInt64.le_of_eq heard.voted, heard.high, sound, timeouts,
      fun later digest above => heard.tallies later digest (UInt64.le_of_lt above)⟩, _, _, rfl⟩

end Node

theorem Node.run_trace (n : Node B) (actions : List (Action B)) :
    n.worker.trace ⊆ (Runs.run Node.step n actions).worker.trace := by
  have keep : ∀ n' a, n.worker.trace <+: n'.worker.trace →
      n.worker.trace <+: (Node.step n' a).worker.trace :=
    fun n' a sofar => sofar.trans (n'.step_trace a)
  exact (Runs.invariant Node.step keep List.prefix_rfl actions).subset

/-! ### Three proposals in a row -/

section Chain

variable {n : Node B} {authorities : AuthorityList B} {id : B.AuthorityId} {keystore : Keystore B}
  {client : Client B} {p₀ p₁ p₂ : Proposal B}

theorem Node.Primed.spares
    (primed : n.Primed authorities id keystore client p₀.payload p₀.view [p₀] p₁)
    (succeeds : Succeeds authorities p₀ p₁) (apart : p₀.digest ≠ p₁.digest)
    (nonempty : p₀.payload.blockHash ≠ B.emptyPayloadHash) (room : p₀.view < p₀.view + 1) :
    n.worker.Spares p₀.payload p₁ := by
  intro parent grandpa found consecutive same
  have follows := primed.follows
  have first := Synchronizer.saved_parent (p := p₁) follows.able.reads
    (follows.holds p₀ (by simp)) apart succeeds.parent
  obtain ⟨_, stored⟩ := Synchronizer.ancestors_stored found
  cases first.symm.trans (getProposalAncestors_ok found).1
  rcases stored.of_saved (follows.able.codec p₁) with ⟨_, rfl⟩ | old
  · rw [succeeds.payload] at same
    exact nonempty same.symm
  · rcases follows.rest _ grandpa old with chained | ⟨_, childless⟩
    · rw [List.mem_singleton.mp chained] at consecutive
      rw [← consecutive] at room
      exact UInt64.lt_irrefl _ room
    · exact childless same _ p₀ (follows.holds p₀ (by simp)) rfl

structure Node.Closes (authorities : AuthorityList B) (id : B.AuthorityId) (keystore : Keystore B)
    (client : Client B) (block : Payload B) (p : Proposal B) (n n' : Node B) : Prop where
  key : n'.worker.state.keystore = keystore
  able : n'.worker.Able authorities id
  answers : client.Agrees n'.worker.client
  finalizes : n'.Finalizes client block.blockHash
  heard : n'.Heard id p
  high : n'.worker.state.highQc = n.worker.state.moment.highQcAfter p.qc
  keeps : Node.Keeps [p] n n'

/-- The third proposal of a chain commits the block of the first. -/
theorem Node.Primed.commits
    (primed : n.Primed authorities id keystore client p₀.payload p₀.view [p₀, p₁] p₂)
    (verified : n.worker.state.verifyProposal p₂ = .ok ()) (past : p₂.qc.view < p₂.view)
    (one : Succeeds authorities p₀ p₁) (two : Succeeds authorities p₁ p₂)
    (apart : p₀.digest ≠ p₂.digest) (apart' : p₁.digest ≠ p₂.digest)
    (nonempty : p₀.payload.blockHash ≠ B.emptyPayloadHash) :
    Node.Closes authorities id keystore client p₀.payload p₂ n (n.step (hearProposal p₂ id)) := by
  obtain ⟨rfl, follows, reopens, expects⟩ := primed
  have able := follows.able
  obtain ⟨r, hears, stepped⟩ := expects.hears able (.inl (by rw [two.payload])) verified past
  have first := Synchronizer.saved_parent (p := p₂) able.reads (follows.holds p₁ (by simp)) apart'
    two.parent
  have second := Synchronizer.saved_parent (p := p₁) able.reads (follows.holds p₀ (by simp)) apart
    one.parent
  have found : (n.worker.synchronizer.saved p₂).getProposalAncestors p₂ = .ok (p₁, p₀) := by
    simp only [Synchronizer.getProposalAncestors, first, second]
  have kept : ((n.worker.emit (.handled (.proposal p₂))).saved p₂).client = n.worker.client :=
    congrArg Desk.client (saved_desk (n.worker.emit (.handled (.proposal p₂))) p₂)
  obtain ⟨⟨m, asked⟩, finalized⟩ := tryFinalize_finalizes
    (w := (n.worker.emit (.handled (.proposal p₂))).saved p₂) found one.view nonempty
    (kept ▸ follows.awaits.new)
  rw [stepped]
  refine ⟨by rw [hears.state]; rfl, hears.able able, follows.answers.trans hears.agrees,
    ⟨⟨m, hears.trace asked⟩, fun number answer => ?_⟩, expects.heard past hears,
    by rw [hears.state]; rfl, hears.keeps able⟩
  rw [hears.client]
  exact finalized number (by rw [kept, follows.answers.finalizeBlock, answer])

end Chain

end Hotstuff
