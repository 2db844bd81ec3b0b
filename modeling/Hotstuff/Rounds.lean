import Hotstuff.Finality
import Hotstuff.Selection
import Hotstuff.Votes

/-! One round at one node, as equations: what a node that can sign and store ends up with when
it hears a proposal, and when the votes for one reach the leader of the next view. -/
namespace Hotstuff

variable {B : BlockT}

open ConsensusWorker

/-! ### What a node signs -/

namespace Keystore

variable (k : Keystore B) (id : B.AuthorityId)

def signature (digest : B.Hash) : Option B.AuthoritySignature :=
  match k.signWith id digest with
  | .ok signature => signature
  | .error _ => none

def vote (p : Proposal B) : Vote B :=
  ⟨p.digest, p.view, id, k.signature id (B.hashOf (voteData p.digest p.view))⟩

def timeout (highQc : QC B) (view : ViewNumber) : Timeout B :=
  ⟨highQc, view, id, k.signature id (B.hashOf (timeoutData view highQc.view))⟩

variable {k id}

theorem signature_verifies (signs : k.Signs) (holds : k.hasKeys id = true)
    {authorities : AuthorityList B} (member : id ∈ authorities.ids) (digest : B.Hash) :
    verifySigned authorities id (k.signature id digest) digest = .ok () := by
  obtain ⟨s, answer, valid⟩ := signs id digest holds
  exact (verifySigned_ok ..).mpr ⟨member, s, by simp [signature, answer], valid⟩

theorem sign_eq {s : ConsensusState B} (signs : s.keystore.Signs)
    (holds : s.keystore.hasKeys id = true) (digest : B.Hash) :
    s.sign id digest = .ok (s.keystore.signature id digest) := by
  obtain ⟨signature, answer, _⟩ := signs id digest holds
  simp [ConsensusState.sign, Keystore.signature, answer]

end Keystore

/-! ### Nodes that work -/

/-- The node of the authority `id` can sign, and its store takes and returns proposals. -/
structure ConsensusWorker.Able (w : ConsensusWorker B) (authorities : AuthorityList B)
    (id : B.AuthorityId) : Prop where
  authorities : w.state.authorities = authorities
  own : w.state.localAuthorityId = some id
  signs : w.state.keystore.Signs
  reads : ∀ key, w.synchronizer.store.getError key = none
  writes : ∀ key, w.synchronizer.store.setError key = none
  codec : ∀ p, w.synchronizer.decode (w.synchronizer.encode p) = .ok p

namespace ConsensusWorker.Able

variable {w w' : ConsensusWorker B} {authorities : AuthorityList B} {id : B.AuthorityId}

theorem holds (able : w.Able authorities id) : w.state.keystore.hasKeys id = true :=
  (ConsensusState.localAuthorityId_some able.own).2

theorem member (able : w.Able authorities id) : id ∈ authorities.ids :=
  able.authorities ▸ (ConsensusState.localAuthorityId_some able.own).1

theorem vote_verifies (able : w.Able authorities id) (p : Proposal B) :
    (w.state.keystore.vote id p).verify authorities = .ok () :=
  Keystore.signature_verifies able.signs able.holds able.member _

theorem timeout_verifies (able : w.Able authorities id) {qc : QC B} (sound : qc.Sound authorities)
    (view : ViewNumber) : (w.state.keystore.timeout id qc view).verify authorities = .ok () :=
  (Timeout.verify_ok _ _).mpr ⟨(verifySigned_ok ..).mp
    (Keystore.signature_verifies able.signs able.holds able.member _), sound.carried⟩

/-- The authorities, the keystore and all of the synchronizer but the contents of its store
are what `Able` reads. -/
theorem of_eq (able : w.Able authorities id)
    (same : w'.state.authorities = w.state.authorities)
    (keystore : w'.state.keystore = w.state.keystore) (aux : B.Hash → Option (List B.Byte))
    (synchronizer : w'.synchronizer =
      { w.synchronizer with store := { w.synchronizer.store with aux := aux } }) :
    w'.Able authorities id where
  authorities := same.trans able.authorities
  own := by
    rw [← able.own]
    simp only [ConsensusState.localAuthorityId, same, keystore]
  signs := keystore ▸ able.signs
  reads := by rw [synchronizer]; exact able.reads
  writes := by rw [synchronizer]; exact able.writes
  codec := by rw [synchronizer]; exact able.codec

theorem makeVote (able : w.Able authorities id) {p : Proposal B}
    (fresh : w.state.lastVotedView < p.view) :
    w.state.makeVote p =
      ({ w.state with lastVotedView := p.view }, some (w.state.keystore.vote id p)) := by
  have raised : max w.state.lastVotedView p.view = p.view := if_pos (UInt64.le_of_lt fresh)
  have signed := Keystore.sign_eq (s := { w.state with lastVotedView := p.view }) able.signs
    able.holds (B.hashOf (voteData p.digest p.view))
  unfold ConsensusState.makeVote
  rw [able.own]
  dsimp only
  rw [if_neg (UInt64.not_le.mpr fresh), raised]
  simp only [Vote.digest, signed]
  rfl

theorem makeTimeout (able : w.Able authorities id) :
    w.state.makeTimeout = .ok (w.state.keystore.timeout id w.state.highQc w.state.view) := by
  unfold ConsensusState.makeTimeout
  rw [able.own]
  simp only [Timeout.digest, Keystore.sign_eq able.signs able.holds]
  rfl

theorem makeProposal (able : w.Able authorities id) (payload : Payload B) (tc : Option (TC B)) :
    ∃ p, w.state.makeProposal payload tc = .ok p := by
  unfold ConsensusState.makeProposal
  rw [able.own]
  simp only [Proposal.digest, Keystore.sign_eq able.signs able.holds]
  exact ⟨_, rfl⟩

end ConsensusWorker.Able

/-! ### A proposal is heard -/

def Synchronizer.saved (s : Synchronizer B) (p : Proposal B) : Synchronizer B :=
  { s with store := { s.store with
    aux := Function.update s.store.aux p.digest (some (s.encode p)) } }

/-- The worker when `handle_proposal` comes to the commit rule. -/
def ConsensusWorker.saved (w : ConsensusWorker B) (p : Proposal B) : ConsensusWorker B :=
  { ((w.emit (.verified p)).handleQc p.qc).handleProposalTc p.tc with
    synchronizer := w.synchronizer.saved p }

/-- What has become of a worker that has heard `p` and voted for it. -/
structure Hears (w : ConsensusWorker B) (id : B.AuthorityId) (p : Proposal B) (r : Outcome B) :
    Prop where
  state : r.1.state = { w.state with
    view := p.view, lastVotedView := p.view, highQc := w.state.moment.highQcAfter p.qc }
  synchronizer : r.1.synchronizer = w.synchronizer.saved p
  client : r.1.client = ((w.saved p).tryFinalize p).client
  queue : r.1.pendingFinalizeQueue = w.pendingFinalizeQueue
  processing : r.1.processingBlock = some ⟨some p.payload.blockHash, p.payload.blockNumber⟩
  hashes : r.1.proposalHashQueue = w.proposalHashQueue ++ [p.payload.blockHash]
  next : Outcome.next r = if id = w.state.viewLeader (p.view + 1) then
    some (.vote (w.state.keystore.vote id p)) else none
  trace : ((w.saved p).tryFinalize p).trace ⊆ r.1.trace
  told : id ≠ w.state.viewLeader (p.view + 1) →
    ∃ m, (m, .gossip (.vote (w.state.keystore.vote id p))) ∈ r.1.trace

section Hearing

variable {w : ConsensusWorker B} {authorities : AuthorityList B} {id : B.AuthorityId}
  {p : Proposal B}

theorem handleProposal_saved (able : w.Able authorities id) (known : w.client.Knows p.payload)
    (verified : w.state.verifyProposal p = .ok ()) :
    w.handleProposal p = ((w.saved p).tryFinalize p).voteFor p := by
  have payload : w.checkPayload p.payload = .ok true := by
    unfold checkPayload
    rcases known with empty | status
    · rw [if_pos empty]
    · split
      · rfl
      · rw [status]
  have stored : w.synchronizer.saveProposal p = .ok (w.synchronizer.saved p) := by
    simp [Synchronizer.saveProposal, Store.set, able.writes, Synchronizer.saved]
  simp [handleProposal, payload, verified, stored, ConsensusWorker.saved]

theorem saved_state (w : ConsensusWorker B) (p : Proposal B) :
    ((w.saved p).tryFinalize p).state = (w.handleQc p.qc).state := by
  rw [(tryFinalize_frame _ p).1]
  change ((((w.emit (.verified p)).handleQc p.qc).handleProposalTc p.tc)).state = _
  rw [handleProposalTc_state, handleQc_state, handleQc_state]
  rfl

theorem saved_desk (w : ConsensusWorker B) (p : Proposal B) : (w.saved p).desk = w.desk := by
  have certified :
      (((w.emit (.verified p)).handleQc p.qc).handleProposalTc p.tc).desk = w.desk := by
    rw [handleProposalTc_desk, handleQc_desk, emit_desk _ rfl]
  exact certified

theorem tryFinalize_synchronizer (w : ConsensusWorker B) (p : Proposal B) :
    (w.tryFinalize p).synchronizer = w.synchronizer := by
  unfold tryFinalize
  split
  · rfl
  · split
    · dsimp only
      split
      · split <;> rfl
      · rfl
    · rfl

/-- The worker once it has voted. -/
def ConsensusWorker.voted (w : ConsensusWorker B) (id : B.AuthorityId) (p : Proposal B) :
    ConsensusWorker B :=
  { { w with state := { w.state with lastVotedView := p.view } }.emit
      (.voted p (w.state.keystore.vote id p)) with
    proposalHashQueue := w.proposalHashQueue ++ [p.payload.blockHash]
    processingBlock := some ⟨some p.payload.blockHash, p.payload.blockNumber⟩ }

theorem voteFor_eq (able : w.Able authorities id) (current : p.view = w.state.view)
    (fresh : w.state.lastVotedView < p.view) :
    w.voteFor p =
      if id = w.state.viewLeader (p.view + 1) then
        (w.voted id p).call (.vote (w.state.keystore.vote id p))
      else ((w.voted id p).emit (.gossip (.vote (w.state.keystore.vote id p)))).done := by
  have leads : (w.voted id p).state.localAuthorityId =
      some ((w.voted id p).state.viewLeader ((w.voted id p).state.view + 1)) ↔
      id = w.state.viewLeader (p.view + 1) := by
    rw [current]
    change w.state.localAuthorityId = some (w.state.viewLeader (w.state.view + 1)) ↔ _
    rw [able.own, Option.some.injEq]
  unfold voteFor
  rw [if_neg (not_not.mpr current), able.makeVote fresh]
  exact if_congr leads rfl rfl

theorem handleProposal_hears (able : w.Able authorities id) (known : w.client.Knows p.payload)
    (verified : w.state.verifyProposal p = .ok ())
    (current : p.view = advanced w.state.view p.qc.view)
    (fresh : w.state.lastVotedView < p.view) : Hears w id p (w.handleProposal p) := by
  have state := saved_state w p
  have synchronizer := tryFinalize_synchronizer (w.saved p) p
  obtain ⟨client, _, desk⟩ := tryFinalize_desk (w.saved p) p
  rw [saved_desk] at desk
  obtain ⟨kept, keystore⟩ := handleQc_kept w p.qc
  rw [handleProposal_saved able known verified]
  -- The commit rule has been tried; what follows is the vote of the worker `w'`.
  generalize tried : (w.saved p).tryFinalize p = w' at state desk synchronizer
  have able' : w'.Able authorities id :=
    able.of_eq (state ▸ kept) (state ▸ keystore) _ synchronizer
  have leader := ConsensusState.viewLeader_congr (state ▸ kept) (p.view + 1)
  have voter : w'.state.keystore = w.state.keystore := state ▸ keystore
  have voted : (w'.voted id p).state = { w.state with
      view := p.view, lastVotedView := p.view, highQc := w.state.moment.highQcAfter p.qc } := by
    change { w'.state with lastVotedView := p.view } = _
    rw [state, handleQc_state, current]
    rfl
  rw [voteFor_eq able' (by rw [state, handleQc_view, current])
    (by rw [state, handleQc_state]; exact fresh), leader, voter]
  have queue : w'.pendingFinalizeQueue = w.pendingFinalizeQueue := congrArg Desk.pending desk
  have hashes : w'.proposalHashQueue = w.proposalHashQueue := congrArg Desk.hashes desk
  split
  · rename_i leads
    refine ⟨voted, synchronizer, by rw [tried]; rfl, queue, rfl, ?_, ?_, ?_,
      fun other => absurd leads other⟩
    · exact congrArg (· ++ _) hashes
    · rw [if_pos leads]; rfl
    · rw [tried]; exact List.subset_append_left _ _
  · rename_i follows
    refine ⟨voted, synchronizer, by rw [tried]; rfl, queue, rfl, ?_, ?_, ?_, fun _ => ?_⟩
    · exact congrArg (· ++ _) hashes
    · rw [if_neg follows]; rfl
    · rw [tried]
      exact fun x hx => List.mem_append_left _ (List.mem_append_left _ hx)
    · exact ⟨_, List.mem_append_right _ (List.mem_singleton.mpr rfl)⟩

end Hearing

/-! ### Votes are collected -/

theorem Maker.append_new {α : Type} (m : Maker B α) {voter : B.AuthorityId}
    (new : voter ∉ m.votes.map Prod.fst) (ballot : α) (authorities : AuthorityList B) :
    (m.append voter (some ballot) authorities).1.votes = m.votes ++ [(voter, ballot)] ∧
      (m.append voter (some ballot) authorities).2 =
        if authorities.length * 2 / 3 < m.votes.length + 1
          then .ok (some (m.votes ++ [(voter, ballot)])) else .ok none := by
  have weight : (m.push voter ballot new).weight = m.votes.length + 1 := by
    simp [Maker.push, m.counted]
  unfold Maker.append
  rw [dif_neg new]
  dsimp only
  rw [weight]
  split
  · rename_i few
    rw [if_neg (by omega)]
    exact ⟨rfl, rfl⟩
  · rename_i many
    rw [if_pos (by omega)]
    exact ⟨rfl, rfl⟩

/-- The maker that counts the votes for a proposal. -/
def Aggregator.tally (a : Aggregator B) (p : Proposal B) : QCMaker B :=
  a.votesAggregator p.view (B.hashOf (voteData p.digest p.view))

theorem addVote_new {s : ConsensusState B} {k : Keystore B} {j : B.AuthorityId} {p : Proposal B}
    (valid : (k.vote j p).verify s.authorities = .ok ())
    (new : j ∉ (s.aggregator.tally p).votes.map Prod.fst) :
    ∃ signature, B.verify signature (B.hashOf (voteData p.digest p.view)) j = true ∧
      ((s.addVote (k.vote j p)).1.aggregator.tally p).votes =
        (s.aggregator.tally p).votes ++ [(j, signature)] ∧
      (s.addVote (k.vote j p)).2 =
        if s.authorities.length * 2 / 3 < (s.aggregator.tally p).votes.length + 1
          then .ok (some ⟨p.digest, p.view, (s.aggregator.tally p).votes ++ [(j, signature)]⟩)
          else .ok none := by
  obtain ⟨_, signature, signed, verifies⟩ := (Vote.verify_ok _ _).mp valid
  obtain ⟨votes, result⟩ := Maker.append_new (s.aggregator.tally p) new signature s.authorities
  have appended : Maker.append (s.aggregator.tally p) j (k.vote j p).signature s.authorities =
      Maker.append (s.aggregator.tally p) j (some signature) s.authorities := by rw [signed]
  refine ⟨signature, verifies, ?_, ?_⟩
  · rw [← votes, ← appended]
    simp [ConsensusState.addVote, Aggregator.addVote, Aggregator.tally, QCMaker.append,
      Keystore.vote, Vote.digest]
  · change (Maker.append (s.aggregator.tally p) j (k.vote j p).signature s.authorities).2.map _ = _
    rw [appended, result]
    split <;> rfl

theorem addVote_other {s : ConsensusState B} {v : Vote B} {view : ViewNumber}
    (other : view ≠ v.view) (digest : B.Hash) :
    (s.addVote v).1.aggregator.votesAggregator view digest =
      s.aggregator.votesAggregator view digest := by
  simp [ConsensusState.addVote, Aggregator.addVote, Function.update_of_ne other]

/-- Since `w₀` the worker has only counted votes for `p`, those of the voters `ids`. -/
structure Collecting (w₀ : ConsensusWorker B) (p : Proposal B) (ids : List B.AuthorityId)
    (w : ConsensusWorker B) : Prop where
  frame : ∃ votes trace, w = { w₀ with
    state := { w₀.state with aggregator := { w₀.state.aggregator with votesAggregator := votes } }
    trace := trace }
  voters : (w.state.aggregator.tally p).votes.map Prod.fst = ids
  valid : ∀ x ∈ (w.state.aggregator.tally p).votes,
    B.verify x.2 (B.hashOf (voteData p.digest p.view)) x.1 = true
  above : ∀ view digest, p.view < view →
    w.state.aggregator.votesAggregator view digest = Maker.new

namespace Collecting

variable {w₀ w : ConsensusWorker B} {p : Proposal B} {ids : List B.AuthorityId} {k : Keystore B}
  {j : B.AuthorityId}

theorem emit (sofar : Collecting w₀ p ids w) (e : Event B) : Collecting w₀ p ids (w.emit e) := by
  obtain ⟨⟨votes, trace, rfl⟩, voters, valid, above⟩ := sofar
  exact ⟨⟨_, _, rfl⟩, voters, valid, above⟩

theorem addVote (sofar : Collecting w₀ p ids w) (new : j ∉ ids)
    (valid : (k.vote j p).verify w₀.state.authorities = .ok ()) :
    Collecting w₀ p (ids ++ [j]) { w with state := (w.state.addVote (k.vote j p)).1 } ∧
      (w.state.addVote (k.vote j p)).2 =
        if w₀.state.authorities.length * 2 / 3 < ids.length + 1
          then .ok (some ⟨p.digest, p.view,
            ((w.state.addVote (k.vote j p)).1.aggregator.tally p).votes⟩) else .ok none := by
  obtain ⟨⟨others, trace, same⟩, voters, counted, above⟩ := sofar
  have authorities : w.state.authorities = w₀.state.authorities := by rw [same]
  rw [← voters] at new
  obtain ⟨signature, verifies, votes, result⟩ := addVote_new (authorities ▸ valid) new
  have size : ids.length = (w.state.aggregator.tally p).votes.length := by
    rw [← voters, List.length_map]
  rw [result, votes, authorities, size]
  refine ⟨⟨⟨_, trace, by rw [same]; rfl⟩, ?_, ?_, ?_⟩, rfl⟩
  · rw [votes, List.map_append, voters]
    rfl
  · rw [votes]
    intro x hx
    rcases List.mem_append.mp hx with old | last
    · exact counted x old
    · rw [List.mem_singleton.mp last]
      exact verifies
  · intro view digest later
    rw [← above view digest later]
    exact addVote_other (fun same => UInt64.lt_irrefl _ (same ▸ later)) digest

theorem counts (sofar : Collecting w₀ p ids w) (view : w₀.state.view = p.view) (new : j ∉ ids)
    (valid : (k.vote j p).verify w₀.state.authorities = .ok ())
    (few : ids.length < w₀.state.authorities.length * 2 / 3) :
    ∃ w', w.handleVote (k.vote j p) = w'.done ∧ Collecting w₀ p (ids ++ [j]) w' := by
  obtain ⟨counted, result⟩ := sofar.addVote new valid
  obtain ⟨⟨votes, trace, same⟩, _⟩ := sofar
  have verified : w.state.verifyVote (k.vote j p) = .ok () := by
    rw [ConsensusState.verifyVote_ok, same]
    exact ⟨UInt64.le_of_eq view, valid⟩
  rw [if_neg (by omega)] at result
  refine ⟨_, ?_, counted⟩
  simp [handleVote, verified, result]

end Collecting

/-- The leader of the next view has a payload: the block in process is not finalized yet, so
it is the empty one, and that one is not withheld. -/
theorem proposeOnQc_working {w : ConsensusWorker B} {queue : List (BlockInfo B)}
    {block : BlockInfo B} {p : Proposal B} (lock : w.pendingFinalizeQueue = some queue)
    (processing : w.processingBlock = some block)
    (unfinished : w.client.finalizedNumber < block.number)
    (due : ¬ Spent w.proposalHashQueue)
    (made : w.state.makeProposal ⟨B.emptyPayloadHash, block.number⟩ none = .ok p) :
    w.proposeOnQc =
      { w with proposalHashQueue := pushed w.proposalHashQueue B.emptyPayloadHash }.propose p := by
  have chosen : w.getProposalPayload = (w, some ⟨B.emptyPayloadHash, block.number⟩) := by
    simp [getProposalPayload, lock, processing, unfinished]
  have kept :
      withheld ⟨B.emptyPayloadHash, block.number⟩ 0 w.proposalHashQueue.reverse = false := by
    rw [← Bool.not_eq_true, withheld_iff]
    exact fun stops => due stops.2
  simp only [proposeOnQc, chosen, kept, Bool.false_eq_true, if_false, made]
  rfl

theorem ConsensusWorker.Able.offer {w : ConsensusWorker B} {authorities : AuthorityList B}
    {id : B.AuthorityId} (able : w.Able authorities id)
    (sound : w.state.highQc.Sound authorities) (payload : Payload B) (tc : Option (TC B)) :
    ∃ p, w.state.makeProposal payload tc = .ok p ∧ p.qc = w.state.highQc ∧ p.tc = tc ∧
      p.payload = payload ∧ p.view = w.state.view ∧ p.author = id ∧
      p.verify authorities = .ok () := by
  obtain ⟨p, made⟩ := able.makeProposal payload tc
  obtain ⟨carried, attached, chosen, view, author⟩ := ConsensusState.makeProposal_ok made
  have signed := ConsensusState.makeProposal_verifies able.signs made
  rw [able.authorities] at signed
  have own : p.author = id := Option.some.inj (author.symm.trans able.own)
  refine ⟨p, made, carried, attached, chosen, view, own, ?_⟩
  exact (Proposal.verify_ok _ _).mpr ⟨(verifySigned_ok ..).mp signed, carried ▸ sound.carried⟩

/-- `p'` is the proposal of the next leader on the certificate for `p`. -/
structure Succeeds (authorities : AuthorityList B) (p p' : Proposal B) : Prop where
  parent : p'.qc.proposalHash = p.digest
  base : p'.qc.view = p.view
  view : p'.view = p.view + 1
  payload : p'.payload = ⟨B.emptyPayloadHash, p.payload.blockNumber⟩
  verified : p'.verify authorities = .ok ()

/-- What has become of a worker that has collected the votes for `p` and proposes `p'`. -/
structure Leads (w₀ : ConsensusWorker B) (p p' : Proposal B) (w : ConsensusWorker B) : Prop where
  state : ∃ aggregator, w.state = { w₀.state with
    view := p.view + 1, highQc := p'.qc, aggregator := aggregator }
  above : ∀ view digest, p.view < view →
    w.state.aggregator.votesAggregator view digest = Maker.new
  timeouts : w.state.aggregator.timeoutsAggregators = w₀.state.aggregator.timeoutsAggregators
  client : w.client = w₀.client
  synchronizer : w.synchronizer = w₀.synchronizer
  queue : w.pendingFinalizeQueue = w₀.pendingFinalizeQueue
  told : ∃ m, (m, .gossip (.propose p')) ∈ w.trace

/-- A worker that is to collect the votes for `p` and to lead the view after it. -/
structure Collector (w : ConsensusWorker B) (authorities : AuthorityList B) (id : B.AuthorityId)
    (p : Proposal B) : Prop where
  able : w.Able authorities id
  view : w.state.view = p.view
  high : w.state.highQc.view < p.view
  leader : id = w.state.viewLeader (p.view + 1)
  lock : ∃ queue, w.pendingFinalizeQueue = some queue
  processing : w.processingBlock = some ⟨some p.payload.blockHash, p.payload.blockNumber⟩
  unfinished : w.client.finalizedNumber < p.payload.blockNumber
  due : ¬ Spent w.proposalHashQueue

namespace Collecting

variable {w₀ w : ConsensusWorker B} {authorities : AuthorityList B} {id : B.AuthorityId}
  {p : Proposal B} {ids : List B.AuthorityId} {qc : QC B}

theorem certificate (sofar : Collecting w₀ p ids w)
    (many : authorities.length * 2 / 3 < ids.length) :
    (⟨p.digest, p.view, (w.state.aggregator.tally p).votes⟩ : QC B).verify authorities =
      .ok () := by
  have size : ids.length = (w.state.aggregator.tally p).votes.length := by
    rw [← sofar.voters, List.length_map]
  exact (QC.verify_ok _ _).mpr ⟨(w.state.aggregator.tally p).distinct, size ▸ many, sofar.valid⟩

theorem desk (sofar : Collecting w₀ p ids w) :
    w.desk = { w₀.desk with record := w.desk.record } := by
  obtain ⟨⟨votes, trace, rfl⟩, _⟩ := sofar
  rfl

theorem synchronizer (sofar : Collecting w₀ p ids w) : w.synchronizer = w₀.synchronizer := by
  obtain ⟨⟨votes, trace, rfl⟩, _⟩ := sofar
  rfl

theorem state (sofar : Collecting w₀ p ids w) :
    w.state = { w₀.state with aggregator := w.state.aggregator } := by
  obtain ⟨⟨votes, trace, rfl⟩, _⟩ := sofar
  rfl

theorem timeouts (sofar : Collecting w₀ p ids w) :
    w.state.aggregator.timeoutsAggregators = w₀.state.aggregator.timeoutsAggregators := by
  obtain ⟨⟨votes, trace, rfl⟩, _⟩ := sofar
  rfl

/-- The certificate leads the collector into the next view. -/
theorem handleQc_state (sofar : Collecting w₀ p ids w) (collector : Collector w₀ authorities id p)
    (certified : qc.view = p.view) :
    (w.handleQc qc).state = { w₀.state with
      view := p.view + 1, highQc := qc, aggregator := w.state.aggregator } := by
  have view : w.state.view = qc.view := by rw [sofar.state, certified]; exact collector.view
  have high : w.state.highQc.view < qc.view := by rw [sofar.state, certified]; exact collector.high
  rw [ConsensusWorker.handleQc_state, if_pos ⟨UInt64.le_of_eq view, high⟩, advanced,
    if_pos view.symm, view, certified]
  conv_lhs => rw [sofar.state]

theorem proposes (sofar : Collecting w₀ p ids w) (collector : Collector w₀ authorities id p)
    (hash : qc.proposalHash = p.digest) (certified : qc.view = p.view)
    (verified : qc.verify authorities = .ok ()) :
    ∃ w' p', (w.handleQc qc).proposeOnQc = w'.call (.proposal p') ∧ Succeeds authorities p p' ∧
      p'.author = id ∧ Leads w₀ p p' w' := by
  have state := sofar.handleQc_state collector certified
  have synchronizer : (w.handleQc qc).synchronizer = w₀.synchronizer := by
    rw [handleQc_synchronizer, sofar.synchronizer]
  have desk : (w.handleQc qc).desk = { w₀.desk with record := w.desk.record } := by
    rw [handleQc_desk, sofar.desk]
  have above := sofar.above
  have timeouts := sofar.timeouts
  generalize (w.handleQc qc) = w' at state synchronizer desk
  have able : w'.Able authorities id := collector.able.of_eq (by rw [state]) (by rw [state])
    w₀.synchronizer.store.aux synchronizer
  have sound : w'.state.highQc.Sound authorities := by rw [state]; exact .inr verified
  obtain ⟨p', made, carried, _, payload, view, author, passes⟩ :=
    able.offer sound ⟨B.emptyPayloadHash, p.payload.blockNumber⟩ none
  rw [state] at carried view
  obtain ⟨queue, lock⟩ := collector.lock
  have client : w'.client = w₀.client := congrArg Desk.client desk
  have queued : w'.pendingFinalizeQueue = w₀.pendingFinalizeQueue := congrArg Desk.pending desk
  have processing : w'.processingBlock = w₀.processingBlock := congrArg Desk.processing desk
  have hashes : w'.proposalHashQueue = w₀.proposalHashQueue := congrArg Desk.hashes desk
  have proposed := proposeOnQc_working (queued.trans lock) (processing.trans collector.processing)
    (client ▸ collector.unfinished) (hashes ▸ collector.due) made
  refine ⟨_, p', proposed, ⟨carried ▸ hash, carried ▸ certified, view, payload, passes⟩, author, ?_⟩
  refine ⟨⟨w.state.aggregator, carried ▸ state⟩, ?_, ?_, client, synchronizer, queued, ?_⟩
  · intro view digest later
    change w'.state.aggregator.votesAggregator view digest = _
    rw [state]
    exact above view digest later
  · change w'.state.aggregator.timeoutsAggregators = _
    rw [state]
    exact timeouts
  · exact ⟨_, List.mem_append_right _ (List.mem_singleton.mpr rfl)⟩

theorem completes {k : Keystore B} {j : B.AuthorityId} (sofar : Collecting w₀ p ids w)
    (collector : Collector w₀ authorities id p) (new : j ∉ ids)
    (valid : (k.vote j p).verify authorities = .ok ())
    (last : ids.length = authorities.length * 2 / 3) :
    ∃ w' p', w.handleVote (k.vote j p) = w'.call (.proposal p') ∧ Succeeds authorities p p' ∧
      p'.author = id ∧ Leads w₀ p p' w' := by
  have able := collector.able
  obtain ⟨counted, result⟩ := sofar.addVote new (able.authorities.symm ▸ valid)
  rw [able.authorities, if_pos (by omega)] at result
  have verified : w.state.verifyVote (k.vote j p) = .ok () := by
    rw [ConsensusState.verifyVote_ok, sofar.state]
    exact ⟨UInt64.le_of_eq collector.view, able.authorities.symm ▸ valid⟩
  have many : authorities.length * 2 / 3 < (ids ++ [j]).length := by simp; omega
  have certificate := counted.certificate many
  have marked := counted.emit (.collected ⟨p.digest, p.view,
    ((w.state.addVote (k.vote j p)).1.aggregator.tally p).votes⟩)
  have state := marked.handleQc_state collector (show (⟨p.digest, p.view,
    ((w.state.addVote (k.vote j p)).1.aggregator.tally p).votes⟩ : QC B).view = p.view from rfl)
  obtain ⟨w', p', proposed, rest⟩ := marked.proposes collector rfl rfl certificate
  refine ⟨w', p', ?_, rest⟩
  rw [← proposed]
  simp only [handleVote, verified, result]
  refine if_pos ?_
  rw [state]
  exact collector.able.own.trans (congrArg some collector.leader)

end Collecting

/-! ### At a node -/

theorem Node.enter_vote (n : Node B) (v : Vote B) : n.enter (.vote v) =
    ⟨((n.worker.emit (.handled (.vote v))).handleVote v).1,
      Outcome.next ((n.worker.emit (.handled (.vote v))).handleVote v)⟩ := rfl

theorem Node.receive_vote {n : Node B} (idle : n.pending = none) (v : Vote B) :
    n.step (.receive (.vote v)) = n.enter (.vote v) :=
  step_entered (by simp [entered, idle, Call.ofMessage])

theorem Node.resume {n : Node B} {c : Call B} (called : n.pending = some c) :
    n.step .resume = n.enter c :=
  step_entered called

section Collect

variable {w₀ : ConsensusWorker B} {n : Node B} {authorities : AuthorityList B}
  {id : B.AuthorityId} {p : Proposal B} {ids : List B.AuthorityId}
  {keys : B.AuthorityId → Keystore B}

/-- The vote of `j` for `p` comes in. -/
def hearVote (keys : B.AuthorityId → Keystore B) (p : Proposal B) (j : B.AuthorityId) : Action B :=
  .receive (.vote ((keys j).vote j p))

theorem Collecting.enter {j : B.AuthorityId} {k : Keystore B} (sofar : Collecting w₀ p ids n.worker)
    (view : w₀.state.view = p.view) (new : j ∉ ids)
    (valid : (k.vote j p).verify w₀.state.authorities = .ok ())
    (few : ids.length < w₀.state.authorities.length * 2 / 3) :
    Collecting w₀ p (ids ++ [j]) (n.enter (.vote (k.vote j p))).worker ∧
      (n.enter (.vote (k.vote j p))).pending = none := by
  obtain ⟨w', counted, collecting⟩ :=
    (sofar.emit (.handled (.vote (k.vote j p)))).counts view new valid few
  rw [n.enter_vote, counted]
  exact ⟨collecting, rfl⟩

theorem Collecting.start {w : ConsensusWorker B} (tallies : ∀ view digest, p.view ≤ view →
    w.state.aggregator.votesAggregator view digest = Maker.new) : Collecting w p [] w := by
  have empty : w.state.aggregator.tally p = Maker.new := tallies p.view _ (UInt64.le_refl _)
  refine ⟨⟨_, _, rfl⟩, by rw [empty]; rfl, by rw [empty]; exact List.forall_mem_nil _, ?_⟩
  exact fun view digest later => tallies view digest (UInt64.le_of_lt later)

/-- The leader of the next view handles its own vote and those of two thirds of the others:
it has a certificate and proposes on it. -/
theorem Node.collects (keys : B.AuthorityId → Keystore B)
    (collector : Collector n.worker authorities id p)
    (tallies : ∀ view digest, p.view ≤ view →
      n.worker.state.aggregator.votesAggregator view digest = Maker.new)
    (pending : n.pending = some (.vote (n.worker.state.keystore.vote id p)))
    (voters : List B.AuthorityId) (distinct : (id :: voters).Nodup)
    (valid : ∀ j ∈ voters, ((keys j).vote j p).verify authorities = .ok ())
    (size : voters.length = authorities.length * 2 / 3) (several : 1 < authorities.length) :
    ∃ p', Succeeds authorities p p' ∧ p'.author = id ∧
      Leads n.worker p p' (Runs.run Node.step n (.resume :: voters.map (hearVote keys p))).worker ∧
      (Runs.run Node.step n (.resume :: voters.map (hearVote keys p))).pending =
        some (.proposal p') := by
  have able := collector.able
  have own := (Collecting.start tallies).enter (j := id) collector.view (by simp)
    (able.authorities.symm ▸ able.vote_verifies p)
    (by rw [able.authorities, List.length_nil]; omega)
  rw [Runs.run_cons, Node.resume pending]
  cases voters with
  | nil =>
    rw [List.length_nil] at size
    omega
  | cons first rest =>
    have size' : [id].length + rest.length = authorities.length * 2 / 3 := by
      rw [← size, List.length_singleton, List.length_cons, Nat.add_comm]
    refine Runs.reach Node.step
      (fun ids n' => Collecting n.worker p ids n'.worker ∧ n'.pending = none)
      (fun n' => ∃ p', Succeeds authorities p p' ∧ p'.author = id ∧
        Leads n.worker p p' n'.worker ∧ n'.pending = some (.proposal p'))
      (fun j => ((keys j).vote j p).verify authorities = .ok ()) ?_ ?_ own distinct valid size'
    · intro ids n' j sofar new valid few
      rw [hearVote, Node.receive_vote sofar.2]
      exact sofar.1.enter collector.view new (able.authorities.symm ▸ valid)
        (able.authorities.symm ▸ few)
    · intro ids n' j sofar new valid last
      obtain ⟨w', p', completed, succeeds, author, leads⟩ :=
        (sofar.1.emit (.handled (.vote ((keys j).vote j p)))).completes collector new valid last
      refine ⟨p', succeeds, author, ?_⟩
      rw [hearVote, Node.receive_vote sofar.2, Node.enter_vote, completed]
      exact ⟨leads, rfl⟩

end Collect

end Hotstuff
