import Hotstuff.Node

/-! Every handler body is a chain of moves. A move is one change of the worker together
with all the code has established when it makes it, so an invariant is checked move by
move and no later proof opens a handler again. -/
namespace Hotstuff

variable {B : BlockT}

/-- What a target does to a view that is not ahead of it. -/
def advanced (view target : ViewNumber) : ViewNumber := if target = view then view + 1 else view

def Event.quiet : Event B → Bool
  | .gossip _ | .setSyncForkRequest _ _ | .resetTimer => true
  | _ => false

/-- What `handle_qc` makes of `highQc` in a state. -/
def Moment.highQcAfter (m : Moment B) (qc : QC B) : QC B :=
  if m.view ≤ qc.view ∧ m.highQc.view < qc.view then qc else m.highQc

/-- The view of a certificate a leader may propose on. -/
def Event.certView : Event B → Option ViewNumber
  | .acceptTc tc => some tc.view
  | .collected qc => some qc.view
  | _ => none

def Event.isProposed : Event B → Bool
  | .proposed _ => true
  | _ => false

namespace ConsensusWorker

@[simp] theorem emit_state (w : ConsensusWorker B) (e : Event B) : (w.emit e).state = w.state :=
  rfl

@[simp] theorem emit_trace (w : ConsensusWorker B) (e : Event B) :
    (w.emit e).trace = w.trace ++ [(w.state.moment, e)] := rfl

@[simp] theorem emit_synchronizer (w : ConsensusWorker B) (e : Event B) :
    (w.emit e).synchronizer = w.synchronizer := rfl

@[simp] theorem advanceView_trace (w : ConsensusWorker B) (v : ViewNumber) :
    (w.advanceView v).trace = w.trace := rfl

@[simp] theorem advanceView_synchronizer (w : ConsensusWorker B) (v : ViewNumber) :
    (w.advanceView v).synchronizer = w.synchronizer := rfl

theorem advanceView_state (w : ConsensusWorker B) (target : ViewNumber)
    (ahead : w.state.view ≤ target) :
    (w.advanceView target).state = { w.state with view := advanced w.state.view target } := by
  unfold advanceView ConsensusState.advanceViewFromTarget advanced
  dsimp only
  split
  · rename_i reached
    have same : target = w.state.view := UInt64.le_antisymm reached ahead
    simp [same]
  · rename_i short
    have other : target ≠ w.state.view := by
      rintro rfl
      exact short (UInt64.le_refl _)
    simp [other]

@[simp] theorem advanceView_highQc (w : ConsensusWorker B) (target : ViewNumber) :
    (w.advanceView target).state.highQc = w.state.highQc := by
  unfold advanceView ConsensusState.advanceViewFromTarget
  dsimp only
  split <;> rfl

@[simp] theorem advanceView_lastVotedView (w : ConsensusWorker B) (target : ViewNumber) :
    (w.advanceView target).state.lastVotedView = w.state.lastVotedView := by
  unfold advanceView ConsensusState.advanceViewFromTarget
  dsimp only
  split <;> rfl

@[simp] theorem advanceView_aggregator (w : ConsensusWorker B) (target : ViewNumber) :
    (w.advanceView target).state.aggregator = w.state.aggregator := by
  unfold advanceView ConsensusState.advanceViewFromTarget
  dsimp only
  split <;> rfl

theorem advanceView_kept (w : ConsensusWorker B) (target : ViewNumber) :
    (w.advanceView target).state.authorities = w.state.authorities ∧
      (w.advanceView target).state.keystore = w.state.keystore := by
  unfold advanceView ConsensusState.advanceViewFromTarget
  dsimp only
  split <;> exact ⟨rfl, rfl⟩

theorem handleQc_ahead (w : ConsensusWorker B) (qc : QC B) (ahead : w.state.view ≤ qc.view) :
    w.handleQc qc =
      let w' := (w.emit (.acceptQc qc)).advanceView qc.view
      { w' with state := w'.state.updateHighQc qc }.emit .resetTimer :=
  if_pos ahead

theorem handleQc_behind (w : ConsensusWorker B) (qc : QC B) (behind : ¬ w.state.view ≤ qc.view) :
    w.handleQc qc = w.emit (.acceptQc qc) :=
  if_neg behind

/-- `handle_qc`: the view follows a certificate for the view itself, and `highQc` follows
one that is neither older than the view nor than itself. -/
theorem handleQc_state (w : ConsensusWorker B) (qc : QC B) :
    (w.handleQc qc).state = { w.state with
      view := advanced w.state.view qc.view
      highQc := if w.state.view ≤ qc.view ∧ w.state.highQc.view < qc.view then qc
        else w.state.highQc } := by
  by_cases ahead : w.state.view ≤ qc.view
  · have moved := advanceView_state (w.emit (.acceptQc qc)) qc.view ahead
    rw [handleQc_ahead w qc ahead]
    dsimp only [emit_state] at moved ⊢
    rw [moved]
    unfold ConsensusState.updateHighQc
    by_cases higher : w.state.highQc.view < qc.view <;> simp [higher, ahead]
  · have other : qc.view ≠ w.state.view := by
      intro same
      exact ahead (same ▸ UInt64.le_refl _)
    simp [handleQc_behind w qc ahead, ahead, advanced, other]

theorem handleQc_view (w : ConsensusWorker B) (qc : QC B) :
    (w.handleQc qc).state.view = advanced w.state.view qc.view := by
  rw [handleQc_state]

theorem handleQc_kept (w : ConsensusWorker B) (qc : QC B) :
    (w.handleQc qc).state.authorities = w.state.authorities ∧
      (w.handleQc qc).state.keystore = w.state.keystore := by
  rw [handleQc_state]
  exact ⟨rfl, rfl⟩

@[simp] theorem handleQc_aggregator (w : ConsensusWorker B) (qc : QC B) :
    (w.handleQc qc).state.aggregator = w.state.aggregator := by
  rw [handleQc_state]

theorem handleQc_trace (w : ConsensusWorker B) (qc : QC B) :
    (w.handleQc qc).trace = w.trace ++ (w.state.moment, .acceptQc qc) ::
      if w.state.view ≤ qc.view then [((w.handleQc qc).state.moment, .resetTimer)] else [] := by
  by_cases ahead : w.state.view ≤ qc.view
  · rw [if_pos ahead, handleQc_ahead w qc ahead]
    simp
  · simp [handleQc_behind w qc ahead, ahead]

@[simp] theorem handleQc_synchronizer (w : ConsensusWorker B) (qc : QC B) :
    (w.handleQc qc).synchronizer = w.synchronizer := by
  by_cases ahead : w.state.view ≤ qc.view
  · rw [handleQc_ahead w qc ahead]; rfl
  · rw [handleQc_behind w qc ahead]; rfl

/-- The TC of a proposal moves nothing that the consensus reads. -/
theorem handleProposalTc_state (w : ConsensusWorker B) (tc : Option (TC B)) :
    (w.handleProposalTc tc).state = w.state := by
  cases tc with
  | none => rfl
  | some tc =>
    unfold handleProposalTc
    dsimp only
    split
    · rename_i ahead
      have other : tc.view ≠ w.state.view := by
        intro same
        exact UInt64.lt_irrefl _ (same ▸ ahead)
      have moved := advanceView_state w tc.view (UInt64.le_of_lt ahead)
      simpa [advanced, other] using moved
    · rfl

@[simp] theorem handleProposalTc_synchronizer (w : ConsensusWorker B) (tc : Option (TC B)) :
    (w.handleProposalTc tc).synchronizer = w.synchronizer := by
  unfold handleProposalTc
  split
  · rfl
  · split <;> rfl

end ConsensusWorker

open ConsensusWorker

def Silent (before after : List (Moment B × Event B)) : Prop :=
  ∀ x ∈ after, x.2.isProposed = true → x ∈ before

/-- When a leader proposes: a certificate was accepted in this call, the view is what that
certificate made of it, and the call has not proposed before. -/
structure MayPropose (w₀ w : ConsensusWorker B) : Prop where
  first : Silent w₀.trace w.trace
  certified : ∃ m e target, (m, e) ∈ w.trace ∧ e.certView = some target ∧
    w₀.state.view ≤ target ∧ (m.view = w₀.state.view ∨ m.view = w₀.state.view + 1) ∧
    w.state.view = advanced m.view target

/-- The moves of a call `c` entered in the state `w₀`. -/
inductive Move (w₀ : ConsensusWorker B) (c : Call B) :
    ConsensusWorker B → ConsensusWorker B → Prop where
  | note {w : ConsensusWorker B} (e : Event B) (quiet : e.quiet = true) : Move w₀ c w (w.emit e)
  /-- The client, the block in process and the queue of payload hashes. -/
  | scratch {w : ConsensusWorker B} (client : Client B) (processing : Option (BlockInfo B))
      (hashes : List B.Hash) :
      Move w₀ c w { w with
        client := client, processingBlock := processing, proposalHashQueue := hashes }
  | verified (p : Proposal B) (called : c = .proposal p)
      (passed : w₀.state.verifyProposal p = .ok ()) :
      Move w₀ c w₀ ((w₀.emit (.verified p)).handleQc p.qc)
  | proposalTc {w : ConsensusWorker B} (tc : TC B) (ahead : w.state.view < tc.view) :
      Move w₀ c w (w.advanceView tc.view)
  | save {w : ConsensusWorker B} (p : Proposal B) (s : Synchronizer B)
      (called : c = .proposal p) (seen : (w₀.state.moment, .verified p) ∈ w.trace)
      (saved : w₀.synchronizer.saveProposal p = .ok s) :
      Move w₀ c w { w with synchronizer := s }
  | canFinalize {w : ConsensusWorker B} (p parent grandpa : Proposal B)
      (called : c = .proposal p) (seen : (w₀.state.moment, .verified p) ∈ w.trace)
      (saved : w₀.synchronizer.saveProposal p = .ok w.synchronizer)
      (found : w.synchronizer.getProposalAncestors p = .ok (parent, grandpa))
      (consecutive : parent.view = grandpa.view + 1) :
      Move w₀ c w (w.emit (.canFinalize p parent grandpa))
  | finalize {w : ConsensusWorker B} (p parent grandpa : Proposal B)
      (called : c = .proposal p) (seen : (w₀.state.moment, .verified p) ∈ w.trace)
      (saved : w₀.synchronizer.saveProposal p = .ok w.synchronizer)
      (found : w.synchronizer.getProposalAncestors p = .ok (parent, grandpa))
      (consecutive : parent.view = grandpa.view + 1)
      (nonempty : grandpa.payload.blockHash ≠ B.emptyPayloadHash) :
      Move w₀ c w (w.emit (.finalizeBlock grandpa.payload.blockHash))
  | vote {w : ConsensusWorker B} (p : Proposal B) (v : Vote B) (s : ConsensusState B)
      (called : c = .proposal p) (passed : w₀.state.verifyProposal p = .ok ())
      (seen : (w₀.state.moment, .verified p) ∈ w.trace)
      (state : w.state = ((w₀.emit (.verified p)).handleQc p.qc).state)
      (current : p.view = w.state.view) (made : w.state.makeVote p = (s, some v)) :
      Move w₀ c w ({ w with state := s }.emit (.voted p v))
  | voteFails {w : ConsensusWorker B} (p : Proposal B) (s : ConsensusState B)
      (made : w.state.makeVote p = (s, none)) : Move w₀ c w { w with state := s }
  | timeoutQc (t : Timeout B) (called : c = .timeout t) (fresh : w₀.state.view ≤ t.view)
      (passed : w₀.state.verifyTimeout t = .ok ()) : Move w₀ c w₀ (w₀.handleQc t.highQc)
  | addTimeout {w : ConsensusWorker B} (t : Timeout B) (called : c = .timeout t)
      (passed : w₀.state.verifyTimeout t = .ok ()) :
      Move w₀ c w { w with state := (w.state.addTimeout t).1 }
  | formedTc {w : ConsensusWorker B} (t : Timeout B) (tc : TC B) (called : c = .timeout t)
      (view : tc.view = t.view)
      (votes : tc.votes = (w.state.aggregator.timeoutsAggregators t.view).votes)
      (quorum : w.state.authorities.length * 2 / 3 < tc.votes.length) :
      Move w₀ c w (if w.state.view ≤ tc.view then (w.emit (.acceptTc tc)).advanceView tc.view
        else w.emit (.acceptTc tc))
  | receivedTc (tc : TC B) (called : c = .tc tc) (passed : w₀.state.verifyTc tc = .ok ()) :
      Move w₀ c w₀ ((w₀.emit (.acceptTc tc)).advanceView tc.view)
  | addVote (v : Vote B) (called : c = .vote v) (passed : w₀.state.verifyVote v = .ok ()) :
      Move w₀ c w₀ { w₀ with state := (w₀.state.addVote v).1 }
  | collected {w : ConsensusWorker B} (v : Vote B) (qc : QC B) (called : c = .vote v)
      (passed : w₀.state.verifyVote v = .ok ()) (moment : w.state.moment = w₀.state.moment)
      (start : w.trace = w₀.trace) (hash : qc.proposalHash = v.proposalHash)
      (view : qc.view = v.view)
      (votes : qc.votes = (w.state.aggregator.votesAggregator v.view v.digest).votes)
      (quorum : w.state.authorities.length * 2 / 3 < qc.votes.length) :
      Move w₀ c w ((w.emit (.collected qc)).handleQc qc)
  | timer {w : ConsensusWorker B} (called : c = .localTimer) :
      Move w₀ c w ({ w with state := w.state.increaseLastVotedView }.emit .localTimer)
  | timedOut {w : ConsensusWorker B} (t : Timeout B) (called : c = .localTimer)
      (raised : w.state.view ≤ w.state.lastVotedView) (made : w.state.makeTimeout = .ok t) :
      Move w₀ c w (w.emit (.timedOut t))
  | propose {w : ConsensusWorker B} (payload : Payload B) (tc : Option (TC B)) (p : Proposal B)
      (made : w.state.makeProposal payload tc = .ok p) (may : MayPropose w₀ w) :
      Move w₀ c w (w.emit (.proposed p))

abbrev Moves (w₀ : ConsensusWorker B) (c : Call B) := Relation.ReflTransGen (Move w₀ c)

section Handlers

variable {w₀ : ConsensusWorker B} {c : Call B}

theorem getProposalPayload_frame (w : ConsensusWorker B) :
    ∃ processing, (w.getProposalPayload).1 = { w with processingBlock := processing } := by
  unfold getProposalPayload
  split
  · exact ⟨_, rfl⟩
  · split
    · split
      · exact ⟨_, rfl⟩
      · split <;> exact ⟨_, rfl⟩
    · split <;> exact ⟨_, rfl⟩

theorem propose_moves {w : ConsensusWorker B} {payload : Payload B} {tc : Option (TC B)}
    {p : Proposal B} (sofar : Moves w₀ c w₀ w) (may : MayPropose w₀ w)
    (made : w.state.makeProposal payload tc = .ok p) : Moves w₀ c w₀ (w.propose p).1 :=
  (sofar.tail (.propose payload tc p made may)).tail (.note _ rfl)

theorem generateProposal_moves {w : ConsensusWorker B} (tc : Option (TC B))
    (sofar : Moves w₀ c w₀ w) (may : MayPropose w₀ w) :
    Moves w₀ c w₀ (w.generateProposal tc).1 := by
  obtain ⟨processing, frame⟩ := getProposalPayload_frame w
  have chosen := sofar.tail (.scratch w.client processing w.proposalHashQueue)
  unfold generateProposal
  split
  · rename_i w' h
    rw [h] at frame
    exact frame ▸ chosen
  · rename_i w' payload h
    rw [h] at frame
    dsimp only at frame
    subst frame
    split
    · exact chosen
    · rename_i p made
      exact propose_moves chosen ⟨may.first, may.certified⟩ made

theorem handleLocalTimer_moves (w₀ : ConsensusWorker B) :
    Moves w₀ .localTimer w₀ w₀.handleLocalTimer.1 := by
  have reset : Moves w₀ .localTimer w₀ (w₀.emit .resetTimer) := .single (.note .resetTimer rfl)
  have fired := reset.tail (.timer rfl)
  unfold handleLocalTimer
  dsimp only
  split
  · exact fired
  · rename_i t made
    have raised := (w₀.state.increaseLastVotedView_le).2
    exact (fired.tail (.timedOut t rfl raised made)).tail (.note _ rfl)

theorem Silent.refl (before : List (Moment B × Event B)) : Silent before before :=
  fun _ hx _ => hx

theorem Silent.snoc {before after : List (Moment B × Event B)} (sofar : Silent before after)
    {m : Moment B} {e : Event B} (other : e.isProposed = false) :
    Silent before (after ++ [(m, e)]) := by
  intro x hx proposed
  rcases List.mem_append.mp hx with old | new
  · exact sofar x old proposed
  · rw [List.mem_singleton.mp new, other] at proposed
    cases proposed

theorem Silent.handleQc {before : List (Moment B × Event B)} {w : ConsensusWorker B}
    (sofar : Silent before w.trace) (qc : QC B) : Silent before (w.handleQc qc).trace := by
  by_cases ahead : w.state.view ≤ qc.view
  · rw [handleQc_ahead w qc ahead]
    simp only [emit_trace, advanceView_trace]
    exact (sofar.snoc rfl).snoc rfl
  · rw [handleQc_behind w qc ahead]
    exact sofar.snoc rfl

theorem handleTc_moves (w₀ : ConsensusWorker B) (tc : TC B) :
    Moves w₀ (.tc tc) w₀ (w₀.handleTc tc).1 := by
  unfold handleTc
  split
  · exact .refl
  · rename_i passed
    have ahead := ((w₀.state.verifyTc_ok tc).mp passed).1
    have accepted : Moves w₀ (.tc tc) w₀ _ := .single (.receivedTc tc rfl passed)
    have reset := accepted.tail (.note .resetTimer rfl)
    have cleared := reset.tail (.scratch w₀.client none w₀.proposalHashQueue)
    dsimp only
    split
    · have silent : Silent w₀.trace (((w₀.emit (.acceptTc tc)).advanceView tc.view).emit
          .resetTimer).trace := ((Silent.refl w₀.trace).snoc rfl).snoc rfl
      refine generateProposal_moves none cleared ⟨silent, ?_⟩
      refine ⟨w₀.state.moment, .acceptTc tc, tc.view, by simp, rfl, ahead, .inl rfl, ?_⟩
      exact congrArg ConsensusState.view (advanceView_state (w₀.emit (.acceptTc tc)) tc.view ahead)
    · exact cleared

theorem formedTc_view (w : ConsensusWorker B) (tc : TC B) :
    (if w.state.view ≤ tc.view then (w.emit (.acceptTc tc)).advanceView tc.view
      else w.emit (.acceptTc tc)).state.view = advanced w.state.view tc.view := by
  split
  · rename_i ahead
    exact congrArg ConsensusState.view (advanceView_state (w.emit (.acceptTc tc)) tc.view ahead)
  · rename_i behind
    have other : tc.view ≠ w.state.view := by
      intro same
      exact behind (same ▸ UInt64.le_refl _)
    simp [advanced, other]

theorem announceTc_moves {w : ConsensusWorker B} {tc : TC B} (sofar : Moves w₀ c w₀ w)
    (may : MayPropose w₀ w) : Moves w₀ c w₀ (w.announceTc tc).1 := by
  have gossiped := sofar.tail (.note (.gossip (.tc tc)) rfl)
  unfold announceTc
  dsimp only
  split
  · obtain ⟨m, e, target, mark, rest⟩ := may.certified
    exact generateProposal_moves (some tc)
      (gossiped.tail (.scratch w.client none w.proposalHashQueue))
      ⟨may.first.snoc rfl, m, e, target, List.mem_append_left _ mark, rest⟩
  · exact gossiped

theorem handleFormedTc_ahead {w : ConsensusWorker B} {tc : TC B} (ahead : w.state.view ≤ tc.view) :
    w.handleFormedTc tc =
      (((w.emit (.acceptTc tc)).advanceView tc.view).emit .resetTimer).announceTc tc :=
  congrArg (announceTc · tc) (if_pos ahead)

theorem handleFormedTc_behind {w : ConsensusWorker B} {tc : TC B}
    (behind : ¬ w.state.view ≤ tc.view) :
    w.handleFormedTc tc = (w.emit (.acceptTc tc)).announceTc tc :=
  congrArg (announceTc · tc) (if_neg behind)

theorem handleFormedTc_moves {w : ConsensusWorker B} {t : Timeout B} {tc : TC B}
    (sofar : Moves w₀ (.timeout t) w₀ w) (silent : Silent w₀.trace w.trace)
    (view : tc.view = t.view) (fresh : w₀.state.view ≤ t.view)
    (votes : tc.votes = (w.state.aggregator.timeoutsAggregators t.view).votes)
    (quorum : w.state.authorities.length * 2 / 3 < tc.votes.length)
    (kept : w.state.view = w₀.state.view ∨ w.state.view = w₀.state.view + 1) :
    Moves w₀ (.timeout t) w₀ (w.handleFormedTc tc).1 := by
  have accepted := sofar.tail (.formedTc t tc rfl view votes quorum)
  have entered := formedTc_view w tc
  by_cases ahead : w.state.view ≤ tc.view
  · rw [if_pos ahead] at accepted entered
    rw [handleFormedTc_ahead ahead]
    refine announceTc_moves (accepted.tail (.note .resetTimer rfl)) ⟨(silent.snoc rfl).snoc rfl, ?_⟩
    exact ⟨w.state.moment, .acceptTc tc, tc.view, by simp, rfl, view ▸ fresh, kept, entered⟩
  · rw [if_neg ahead] at accepted entered
    rw [handleFormedTc_behind ahead]
    refine announceTc_moves accepted ⟨silent.snoc rfl, ?_⟩
    exact ⟨w.state.moment, .acceptTc tc, tc.view, by simp, rfl, view ▸ fresh, kept, entered⟩

theorem advanced_or (view target : ViewNumber) :
    advanced view target = view ∨ advanced view target = view + 1 := by
  unfold advanced
  split
  · exact .inr rfl
  · exact .inl rfl

theorem handleTimeout_moves (w₀ : ConsensusWorker B) (t : Timeout B) :
    Moves w₀ (.timeout t) w₀ (w₀.handleTimeout t).1 := by
  unfold handleTimeout
  split
  · exact .refl
  · rename_i fresh
    have fresh : w₀.state.view ≤ t.view := UInt64.not_lt.mp fresh
    split
    · exact .refl
    · rename_i passed
      have accepted : Moves w₀ (.timeout t) w₀ _ := .single (.timeoutQc t rfl fresh passed)
      have added := accepted.tail (.addTimeout t rfl passed)
      have silent := (Silent.refl w₀.trace).handleQc t.highQc
      have moved := congrArg ConsensusState.view (handleQc_state w₀ t.highQc)
      dsimp only
      split
      · exact added
      · exact added
      · rename_i tc formed
        obtain ⟨view, votes, quorum⟩ := Aggregator.addTimeout_some formed
        exact handleFormedTc_moves added silent view fresh votes quorum
          (moved ▸ advanced_or w₀.state.view t.highQc.view)

theorem proposeOnQc_moves {w : ConsensusWorker B} (sofar : Moves w₀ c w₀ w)
    (may : MayPropose w₀ w) : Moves w₀ c w₀ w.proposeOnQc.1 := by
  obtain ⟨processing, frame⟩ := getProposalPayload_frame w
  have chosen := sofar.tail (.scratch w.client processing w.proposalHashQueue)
  unfold proposeOnQc
  split
  · rename_i w' h
    rw [h] at frame
    exact frame ▸ chosen
  · rename_i w' payload h
    rw [h] at frame
    dsimp only at frame
    subst frame
    split
    · exact chosen
    · have queued := sofar.tail (.scratch w.client processing
        ((if 3 < w.proposalHashQueue.length then [] else w.proposalHashQueue) ++
          [payload.blockHash]))
      dsimp only
      split
      · exact queued
      · rename_i p made
        exact propose_moves queued ⟨may.first, may.certified⟩ made

theorem handleVote_moves (w₀ : ConsensusWorker B) (v : Vote B) :
    Moves w₀ (.vote v) w₀ (w₀.handleVote v).1 := by
  unfold handleVote
  split
  · exact .refl
  · rename_i passed
    have fresh := ((w₀.state.verifyVote_ok v).mp passed).1
    have added : Moves w₀ (.vote v) w₀ _ := .single (.addVote v rfl passed)
    dsimp only
    split
    · exact added
    · exact added
    · rename_i qc formed
      obtain ⟨hash, view, votes, quorum⟩ := Aggregator.addVote_some formed
      have accepted := added.tail (.collected v qc rfl passed rfl rfl hash view votes quorum)
      split
      · refine proposeOnQc_moves accepted ⟨?_, ?_⟩
        · exact Silent.handleQc ((Silent.refl w₀.trace).snoc rfl) qc
        · refine ⟨w₀.state.moment, .collected qc, qc.view, ?_, rfl, view ▸ fresh, .inl rfl, ?_⟩
          · rw [handleQc_trace]
            exact List.mem_append_left _ (List.mem_append_right _ (List.mem_singleton.mpr rfl))
          · rw [handleQc_state]
            rfl
      · exact accepted

theorem handleProposalTc_moves {w : ConsensusWorker B} (sofar : Moves w₀ c w₀ w)
    (tc : Option (TC B)) : Moves w₀ c w₀ (w.handleProposalTc tc) := by
  cases tc with
  | none => exact sofar
  | some tc =>
    unfold handleProposalTc
    dsimp only
    split
    · rename_i ahead
      exact (sofar.tail (.proposalTc tc ahead)).tail (.note .resetTimer rfl)
    · exact sofar

theorem handleProposalTc_trace (w : ConsensusWorker B) (tc : Option (TC B)) :
    w.trace ⊆ (w.handleProposalTc tc).trace := by
  cases tc with
  | none => exact List.Subset.refl _
  | some tc =>
    unfold handleProposalTc
    dsimp only
    split
    · exact List.subset_append_left _ _
    · exact List.Subset.refl _

theorem tryFinalize_moves {w : ConsensusWorker B} {p : Proposal B}
    (sofar : Moves w₀ (.proposal p) w₀ w) (seen : (w₀.state.moment, .verified p) ∈ w.trace)
    (saved : w₀.synchronizer.saveProposal p = .ok w.synchronizer) :
    Moves w₀ (.proposal p) w₀ (w.tryFinalize p) := by
  unfold tryFinalize
  split
  · exact sofar
  · rename_i parent grandpa found
    split
    · rename_i consecutive
      have reached := sofar.tail (.canFinalize p parent grandpa rfl seen saved found consecutive)
      dsimp only
      split
      · rename_i allowed
        have asked := reached.tail (.finalize p parent grandpa rfl
          (List.mem_append_left _ seen) saved found consecutive allowed.1)
        split
        · exact asked
        · rename_i number _
          exact asked.tail (.scratch { w.client with
            finalizedHash := grandpa.payload.blockHash, finalizedNumber := number }
            w.processingBlock w.proposalHashQueue)
      · exact reached
    · exact sofar

theorem tryFinalize_frame (w : ConsensusWorker B) (p : Proposal B) :
    (w.tryFinalize p).state = w.state ∧ w.trace ⊆ (w.tryFinalize p).trace := by
  unfold tryFinalize
  split
  · exact ⟨rfl, List.Subset.refl _⟩
  · split
    · dsimp only
      split
      · split
        · exact ⟨rfl, fun x hx => List.mem_append_left _ (List.mem_append_left _ hx)⟩
        · exact ⟨rfl, fun x hx => List.mem_append_left _ (List.mem_append_left _ hx)⟩
      · exact ⟨rfl, List.subset_append_left _ _⟩
    · exact ⟨rfl, List.Subset.refl _⟩

theorem voteFor_moves {w : ConsensusWorker B} {p : Proposal B}
    (sofar : Moves w₀ (.proposal p) w₀ w) (passed : w₀.state.verifyProposal p = .ok ())
    (seen : (w₀.state.moment, .verified p) ∈ w.trace)
    (state : w.state = ((w₀.emit (.verified p)).handleQc p.qc).state) :
    Moves w₀ (.proposal p) w₀ (w.voteFor p).1 := by
  unfold voteFor
  split
  · exact sofar
  · rename_i current
    have current : p.view = w.state.view := not_not.mp current
    split
    · rename_i s made
      exact sofar.tail (.voteFails p s made)
    · rename_i s v made
      have voted := sofar.tail (.vote p v s rfl passed seen state current made)
      have noted := voted.tail (.scratch w.client
        (some ⟨some p.payload.blockHash, p.payload.blockNumber⟩)
        (w.proposalHashQueue ++ [p.payload.blockHash]))
      dsimp only
      split
      · exact noted
      · exact noted.tail (.note (.gossip (.vote v)) rfl)

theorem handleProposal_moves (w₀ : ConsensusWorker B) (p : Proposal B) :
    Moves w₀ (.proposal p) w₀ (w₀.handleProposal p).1 := by
  unfold handleProposal
  split
  · exact .refl
  · exact .single (.note _ rfl)
  · split
    · exact .refl
    · rename_i passed
      have accepted : Moves w₀ (.proposal p) w₀ _ := .single (.verified p rfl passed)
      have followed := handleProposalTc_moves accepted p.tc
      -- The mark set before `handle_qc` stays in the trace to the end of the call.
      have mark : (w₀.state.moment, .verified p) ∈
          ((w₀.emit (.verified p)).handleQc p.qc).trace := by
        rw [handleQc_trace]
        simp
      have kept := handleProposalTc_trace ((w₀.emit (.verified p)).handleQc p.qc) p.tc
      have same := handleProposalTc_state ((w₀.emit (.verified p)).handleQc p.qc) p.tc
      dsimp only
      split
      · exact followed
      · rename_i synchronizer saved
        have saved : w₀.synchronizer.saveProposal p = .ok synchronizer := by simpa using saved
        have stored := followed.tail (.save p synchronizer rfl (kept mark) saved)
        have frame := tryFinalize_frame
          { ((w₀.emit (.verified p)).handleQc p.qc).handleProposalTc p.tc with
            synchronizer := synchronizer } p
        exact voteFor_moves (tryFinalize_moves stored (kept mark) saved) passed
          (frame.2 (kept mark)) (frame.1.trans same)

theorem handle_moves (w₀ : ConsensusWorker B) (c : Call B) :
    Moves w₀ c w₀ (w₀.handle c).1 := by
  cases c with
  | localTimer => exact handleLocalTimer_moves w₀
  | timeout t => exact handleTimeout_moves w₀ t
  | proposal p => exact handleProposal_moves w₀ p
  | vote v => exact handleVote_moves w₀ v
  | tc tc => exact handleTc_moves w₀ tc

end Handlers

/-! ### Invariants of nodes -/

/-- What the code has established when it notes down an event in the call `c` entered in
`w₀`; `w` is the worker right before the note and `m` the moment of it. -/
def Cause (w₀ : ConsensusWorker B) (c : Call B) (w : ConsensusWorker B) (m : Moment B) :
    Event B → Prop
  | .handled _ => False
  | .localTimer => m.view ≤ m.lastVotedView
  | .timedOut t => m = w.state.moment ∧ m.view ≤ m.lastVotedView ∧ w.state.makeTimeout = .ok t
  | .verified p => c = .proposal p ∧ m = w₀.state.moment ∧ w₀.state.verifyProposal p = .ok ()
  | .voted p v => c = .proposal p ∧ w₀.state.verifyProposal p = .ok () ∧
      (w₀.state.moment, .verified p) ∈ w.trace ∧
      w.state = ((w₀.emit (.verified p)).handleQc p.qc).state ∧ p.view = w.state.view ∧
      ∃ s, w.state.makeVote p = (s, some v) ∧ m = s.moment
  | .collected qc => ∃ v : Vote B, qc.proposalHash = v.proposalHash ∧ qc.view = v.view ∧
      qc.votes = (w.state.aggregator.votesAggregator v.view v.digest).votes ∧
      w.state.authorities.length * 2 / 3 < qc.votes.length
  | .canFinalize p parent grandpa => c = .proposal p ∧
      (w₀.state.moment, .verified p) ∈ w.trace ∧
      w.synchronizer.getProposalAncestors p = .ok (parent, grandpa) ∧
      parent.view = grandpa.view + 1
  | _ => True

theorem mem_handleQc {w : ConsensusWorker B} {qc : QC B} {m : Moment B} {e : Event B}
    (entry : (m, e) ∈ (w.handleQc qc).trace) : (m, e) ∈ w.trace ∨
      m = w.state.moment ∧ e = .acceptQc qc ∨
      m = (w.handleQc qc).state.moment ∧ e = .resetTimer := by
  rw [handleQc_trace] at entry
  rcases List.mem_append.mp entry with old | new
  · exact .inl old
  · rcases List.mem_cons.mp new with mark | reset
    · cases mark
      exact .inr (.inl ⟨rfl, rfl⟩)
    · split at reset
      · cases List.mem_singleton.mp reset
        exact .inr (.inr ⟨rfl, rfl⟩)
      · cases reset

/-- `w'` has noted down nothing since `w` but entries with the property. -/
def Adds (P : Moment B → Event B → Prop) (w w' : ConsensusWorker B) : Prop :=
  ∃ new, w'.trace = w.trace ++ new ∧ ∀ m e, (m, e) ∈ new → P m e

namespace Adds

variable {P Q : Moment B → Event B → Prop} {w w' w'' : ConsensusWorker B}

theorem of_eq (same : w'.trace = w.trace) : Adds P w w' := ⟨[], by simp [same], by simp⟩

theorem refl : Adds P w w := of_eq rfl

theorem trans (first : Adds P w w') (second : Adds P w' w'') : Adds P w w'' := by
  obtain ⟨new, grown, holds⟩ := first
  obtain ⟨new', grown', holds'⟩ := second
  refine ⟨new ++ new', by rw [grown', grown, List.append_assoc], fun m e entry => ?_⟩
  exact (List.mem_append.mp entry).elim (holds m e) (holds' m e)

theorem emit (sofar : Adds P w w') {e : Event B} (holds : P w'.state.moment e) :
    Adds P w (w'.emit e) := by
  refine sofar.trans ⟨[(w'.state.moment, e)], rfl, fun m e entry => ?_⟩
  cases List.mem_singleton.mp entry
  exact holds

theorem advanceView (sofar : Adds P w w') (view : ViewNumber) : Adds P w (w'.advanceView view) :=
  sofar.trans (.of_eq rfl)

theorem mono (sofar : Adds P w w') (weaker : ∀ m e, P m e → Q m e) : Adds Q w w' := by
  obtain ⟨new, grown, holds⟩ := sofar
  exact ⟨new, grown, fun m e entry => weaker m e (holds m e entry)⟩

theorem entry (sofar : Adds P w w') {m : Moment B} {e : Event B} (found : (m, e) ∈ w'.trace) :
    (m, e) ∈ w.trace ∨ P m e := by
  obtain ⟨new, grown, holds⟩ := sofar
  rw [grown] at found
  exact (List.mem_append.mp found).imp_right (holds m e)

theorem handleQc (qc : QC B) (accepts : ∀ m, P m (.acceptQc qc)) (resets : ∀ m, P m .resetTimer) :
    Adds P w (w.handleQc qc) := by
  refine ⟨_, handleQc_trace w qc, fun m e entry => ?_⟩
  rcases List.mem_cons.mp entry with mark | reset
  · cases mark
    exact accepts _
  · split at reset
    · cases List.mem_singleton.mp reset
      exact resets _
    · cases reset

theorem handleProposalTc (tc : Option (TC B)) (resets : ∀ m, P m .resetTimer) :
    Adds P w (w.handleProposalTc tc) := by
  unfold ConsensusWorker.handleProposalTc
  split
  · exact .refl
  · split
    · exact (Adds.refl.advanceView _).emit (resets _)
    · exact .refl

/-- The part of `handle_proposal` that follows the certificates of the proposal. -/
theorem certificates (p : Proposal B) (verified : ∀ m, P m (.verified p))
    (accepts : ∀ m, P m (.acceptQc p.qc)) (resets : ∀ m, P m .resetTimer) :
    Adds P w (((w.emit (.verified p)).handleQc p.qc).handleProposalTc p.tc) := by
  have marked : Adds P w (w.emit (.verified p)) := Adds.refl.emit (verified _)
  exact (marked.trans (.handleQc p.qc accepts resets)).trans (.handleProposalTc p.tc resets)

theorem tryFinalize (p : Proposal B)
    (reaches : ∀ m parent grandpa, P m (.canFinalize p parent grandpa))
    (asks : ∀ m hash, P m (.finalizeBlock hash)) : Adds P w (w.tryFinalize p) := by
  unfold ConsensusWorker.tryFinalize
  split
  · exact .refl
  · rename_i parent grandpa _
    split
    · have reached : Adds P w (w.emit (.canFinalize p parent grandpa)) :=
        Adds.refl.emit (reaches _ _ _)
      dsimp only
      split
      · have asked := reached.emit (asks _ grandpa.payload.blockHash)
        split
        · exact asked
        · exact asked.trans (.of_eq rfl)
      · exact reached
    · exact .refl

end Adds

def Appends (w₀ : ConsensusWorker B) (c : Call B) (w : ConsensusWorker B)
    (before after : List (Moment B × Event B)) : Prop :=
  ∃ new, after = before ++ new ∧ ∀ m e, (m, e) ∈ new → Cause w₀ c w m e

section Appends

variable {w₀ w : ConsensusWorker B} {c : Call B}

theorem Move.appends {w' : ConsensusWorker B} (move : Move w₀ c w w') :
    Appends w₀ c w w.trace w'.trace := by
  change Adds (Cause w₀ c w) w w'
  have followed : ∀ (u : ConsensusWorker B) qc, Adds (Cause w₀ c w) u (u.handleQc qc) :=
    fun _ qc => .handleQc qc (fun _ => trivial) fun _ => trivial
  cases move with
  | scratch | save | voteFails | addVote | addTimeout | proposalTc => exact .of_eq rfl
  | note e quiet => exact Adds.refl.emit (by cases e <;> trivial)
  | finalize | propose => exact Adds.refl.emit trivial
  | receivedTc tc =>
    have marked : Adds (Cause w₀ c w₀) w₀ (w₀.emit (.acceptTc tc)) := Adds.refl.emit trivial
    exact marked.advanceView tc.view
  | formedTc t tc =>
    have marked : Adds (Cause w₀ c w) w (w.emit (.acceptTc tc)) := Adds.refl.emit trivial
    split
    · exact marked.advanceView tc.view
    · exact marked
  | canFinalize p parent grandpa called seen saved found consecutive =>
    exact Adds.refl.emit ⟨called, seen, found, consecutive⟩
  | timer called => exact (Adds.of_eq rfl).emit (w.state.increaseLastVotedView_le).2
  | timedOut t called raised made => exact Adds.refl.emit ⟨rfl, raised, made⟩
  | vote p v s called passed seen state current made =>
    exact (Adds.of_eq rfl).emit ⟨called, passed, seen, state, current, s, made, rfl⟩
  | timeoutQc t => exact followed w₀ t.highQc
  | verified p called passed =>
    have noted : Adds (Cause w₀ c w₀) w₀ (w₀.emit (.verified p)) :=
      Adds.refl.emit ⟨called, rfl, passed⟩
    exact noted.trans (followed _ p.qc)
  | collected v qc called passed moment start hash view votes quorum =>
    have noted : Adds (Cause w₀ c w) w (w.emit (.collected qc)) :=
      Adds.refl.emit ⟨v, hash, view, votes, quorum⟩
    exact noted.trans (followed _ qc)

theorem Move.trace_prefix {w' : ConsensusWorker B} (move : Move w₀ c w w') :
    w.trace <+: w'.trace := by
  obtain ⟨new, grown, _⟩ := move.appends
  exact ⟨new, grown.symm⟩

end Appends

/-- Induction on the moves of a call. -/
theorem handle_induction {w : ConsensusWorker B} {c : Call B} (P : ConsensusWorker B → Prop)
    (start : P w) (keep : ∀ u v, P u → Move w c u v → P v) : P (w.handle c).1 := by
  have chain : ∀ u, Moves w c w u → P u := by
    intro u moves
    induction moves with
    | refl => exact start
    | tail _ last ih => exact keep _ _ ih last
  exact chain _ (handle_moves w c)

theorem handle_trace (w : ConsensusWorker B) (c : Call B) : w.trace <+: (w.handle c).1.trace :=
  handle_induction (fun u => w.trace <+: u.trace) List.prefix_rfl fun _ _ sofar move =>
    sofar.trans move.trace_prefix

theorem Node.step_trace (n : Node B) (a : Action B) :
    n.worker.trace <+: (n.step a).worker.trace := by
  rcases n.step_cases a with ⟨env, seen⟩ | ⟨c, _, entered⟩
  · exact ⟨[], by rw [seen, List.append_nil]; rfl⟩
  · rw [entered]
    exact (List.prefix_append _ _).trans (handle_trace (n.worker.emit (.handled c)) c)

theorem handle_entries {w : ConsensusWorker B} {c : Call B} {m : Moment B} {e : Event B} :
    (m, e) ∈ (w.handle c).1.trace → (m, e) ∈ w.trace ∨ ∃ w', Cause w c w' m e := by
  refine handle_induction (fun u => (m, e) ∈ u.trace → (m, e) ∈ w.trace ∨ ∃ w', Cause w c w' m e)
    .inl fun u v sofar move entry => ?_
  obtain ⟨new, grown, causes⟩ := move.appends
  rw [grown] at entry
  rcases List.mem_append.mp entry with old | added
  · exact sofar old
  · exact .inr ⟨_, causes m e added⟩

theorem Node.step_entries {n : Node B} {a : Action B} {m : Moment B} {e : Event B}
    (entry : (m, e) ∈ (n.step a).worker.trace) : (m, e) ∈ n.worker.trace ∨
      ∃ c, n.entered a = some c ∧ (m = n.worker.state.moment ∧ e = .handled c ∨
        ∃ w, Cause (n.worker.emit (.handled c)) c w m e) := by
  rcases n.step_cases a with ⟨env, seen⟩ | ⟨c, entered, stepped⟩
  · rw [seen] at entry
    exact .inl entry
  · rw [stepped] at entry
    rcases handle_entries entry with noted | cause
    · rcases List.mem_append.mp noted with old | added
      · exact .inl old
      · cases List.mem_singleton.mp added
        exact .inr ⟨c, entered, .inl ⟨rfl, rfl⟩⟩
    · exact .inr ⟨c, entered, .inr cause⟩

/-- What never changes in the life of a node. -/
structure Base (g : Setup B) (w : ConsensusWorker B) : Prop where
  authorities : w.state.authorities = g.authorities
  hasKeys : w.state.keystore.hasKeys = g.keystore.hasKeys
  encode : w.synchronizer.encode = g.synchronizer.encode
  decode : w.synchronizer.decode = g.synchronizer.decode

theorem Base.of_eq {g : Setup B} {w w' : ConsensusWorker B} (base : Base g w)
    (authorities : w'.state.authorities = w.state.authorities)
    (keystore : w'.state.keystore = w.state.keystore)
    (encode : w'.synchronizer.encode = w.synchronizer.encode)
    (decode : w'.synchronizer.decode = w.synchronizer.decode) : Base g w' :=
  ⟨authorities.trans base.authorities, (congrArg _ keystore).trans base.hasKeys,
    encode.trans base.encode, decode.trans base.decode⟩

theorem Base.verifyProposal {g : Setup B} {w : ConsensusWorker B} (base : Base g w)
    (p : Proposal B) : w.state.verifyProposal p = g.start.worker.state.verifyProposal p :=
  ConsensusState.verifyProposal_congr base.authorities p

theorem Base.localAuthorityId {g : Setup B} {w : ConsensusWorker B} (base : Base g w) :
    w.state.localAuthorityId = g.start.worker.state.localAuthorityId := by
  simp only [ConsensusState.localAuthorityId, base.authorities, base.hasKeys]
  rfl

theorem saveProposal_ok (s : Synchronizer B) (p : Proposal B) :
    (∃ s', s.saveProposal p = .ok s') ↔ s.store.setError p.digest = none := by
  unfold Synchronizer.saveProposal Store.set
  cases s.store.setError p.digest <;> simp

theorem saveProposal_codec {s s' : Synchronizer B} {p : Proposal B}
    (saved : s.saveProposal p = .ok s') :
    s' = { s with store := { s.store with
      aux := Function.update s.store.aux p.digest (some (s.encode p)) } } := by
  unfold Synchronizer.saveProposal Store.set at saved
  split at saved
  · cases saved
  · rename_i store stored
    split at stored
    · cases stored
    · cases stored
      cases saved
      rfl

/-- No handler changes the authorities or the keystore. -/
theorem Move.kept {w₀ w w' : ConsensusWorker B} {c : Call B} (move : Move w₀ c w w') :
    w'.state.authorities = w.state.authorities ∧ w'.state.keystore = w.state.keystore := by
  cases move with
  | note | scratch | save | canFinalize | finalize | timer | timedOut | propose | addTimeout
  | addVote => exact ⟨rfl, rfl⟩
  | verified p | timeoutQc t | collected v qc => exact handleQc_kept _ _
  | proposalTc tc | receivedTc tc => exact advanceView_kept _ _
  | formedTc t tc =>
    split
    · exact advanceView_kept _ _
    · exact ⟨rfl, rfl⟩
  | vote p v s called passed seen state current made =>
    obtain ⟨rfl, _⟩ := ConsensusState.makeVote_some made
    exact ⟨rfl, rfl⟩
  | voteFails p s made =>
    rcases ConsensusState.makeVote_none made with rfl | ⟨_, rfl⟩ <;> exact ⟨rfl, rfl⟩

theorem handle_kept (w : ConsensusWorker B) (c : Call B) :
    (w.handle c).1.state.authorities = w.state.authorities ∧
      (w.handle c).1.state.keystore = w.state.keystore :=
  handle_induction (fun u => u.state.authorities = w.state.authorities ∧
    u.state.keystore = w.state.keystore) ⟨rfl, rfl⟩ fun _ _ sofar move =>
      ⟨move.kept.1.trans sofar.1, move.kept.2.trans sofar.2⟩

theorem Move.base {g : Setup B} {w₀ w w' : ConsensusWorker B} {c : Call B}
    (move : Move w₀ c w w') (base₀ : Base g w₀) (base : Base g w) : Base g w' := by
  obtain ⟨authorities, keystore⟩ := move.kept
  cases move with
  | note | scratch | canFinalize | finalize | timer | timedOut | propose | addTimeout
  | addVote | vote | voteFails | proposalTc | receivedTc =>
    exact base.of_eq authorities keystore rfl rfl
  | verified p | timeoutQc t | collected v qc =>
    exact base.of_eq authorities keystore (by simp) (by simp)
  | formedTc t tc =>
    exact base.of_eq authorities keystore (by split <;> rfl) (by split <;> rfl)
  | save p s called seen saved =>
    have stored := saveProposal_codec saved
    subst stored
    exact ⟨base.authorities, base.hasKeys, base₀.encode, base₀.decode⟩

/-- A state inside the call `c` that was entered in `w₀`. -/
structure During (g : Setup B) (w₀ : ConsensusWorker B) (c : Call B) (w : ConsensusWorker B) :
    Prop where
  base₀ : Base g w₀
  base : Base g w
  entered : (w₀.state.moment, .handled c) ∈ w₀.trace
  grown : w₀.trace <+: w.trace

theorem During.handled {g : Setup B} {w₀ w : ConsensusWorker B} {c : Call B}
    (during : During g w₀ c w) : (w₀.state.moment, .handled c) ∈ w.trace :=
  during.grown.subset during.entered

/-- An invariant of workers: it holds at the start, neither the environment nor the entry
of a call breaks it, and every move keeps it. -/
structure Invariant (g : Setup B) (Inv : ConsensusWorker B → Prop) : Prop where
  start : Inv g.start.worker
  observe : ∀ w env, Inv w → Inv (ConsensusWorker.observe w env)
  enter : ∀ w c, Inv w → Inv (ConsensusWorker.emit w (.handled c))
  move : ∀ w₀ c w w', During g w₀ c w → Inv w₀ → Inv w → Move w₀ c w w' → Inv w'

/-- What every move of one call keeps, next to an invariant, holds when the call ends. -/
theorem Invariant.during {g : Setup B} {Inv : ConsensusWorker B → Prop} (inv : Invariant g Inv)
    {w : ConsensusWorker B} (c : Call B) (base : Base g w) (holds : Inv w)
    (P : ConsensusWorker B → Prop) (start : P (w.emit (.handled c)))
    (step : ∀ u v, During g (w.emit (.handled c)) c u → Inv u → P u →
      Move (w.emit (.handled c)) c u v → P v) :
    let after := ((w.emit (.handled c)).handle c).1
    During g (w.emit (.handled c)) c after ∧ Inv after ∧ P after := by
  have entry : Base g (w.emit (.handled c)) := base.of_eq rfl rfl rfl rfl
  have first := inv.enter w c holds
  have entered : (w.state.moment, .handled c) ∈ (w.emit (.handled c)).trace :=
    List.mem_append_right _ (List.mem_singleton.mpr rfl)
  refine handle_induction (fun u => During g (w.emit (.handled c)) c u ∧ Inv u ∧ P u)
    ⟨⟨entry, entry, entered, List.prefix_rfl⟩, first, start⟩ ?_
  rintro u v ⟨during, sofar, property⟩ move
  refine ⟨⟨entry, move.base entry during.base, entered, ?_⟩, ?_, ?_⟩
  · exact during.grown.trans move.trace_prefix
  · exact inv.move _ _ _ _ during first sofar move
  · exact step u v during sofar property move

theorem Invariant.handle {g : Setup B} {Inv : ConsensusWorker B → Prop} (inv : Invariant g Inv)
    {w : ConsensusWorker B} (c : Call B) (base : Base g w) (holds : Inv w) :
    Base g ((w.emit (.handled c)).handle c).1 ∧ Inv ((w.emit (.handled c)).handle c).1 := by
  obtain ⟨during, kept, _⟩ := inv.during c base holds (fun _ => True) trivial
    fun _ _ _ _ _ _ => trivial
  exact ⟨during.base, kept⟩

theorem Invariant.run {g : Setup B} {Inv : ConsensusWorker B → Prop} (inv : Invariant g Inv)
    (actions : List (Action B)) :
    Base g (g.run actions).worker ∧ Inv (g.run actions).worker := by
  have start : Base g g.start.worker := ⟨rfl, rfl, rfl, rfl⟩
  have keep : ∀ (n : Node B) (a : Action B), Base g n.worker ∧ Inv n.worker →
      Base g (n.step a).worker ∧ Inv (n.step a).worker := by
    rintro n a ⟨base, holds⟩
    rcases n.step_cases a with ⟨env, seen⟩ | ⟨c, _, entered⟩
    · rw [seen]
      exact ⟨⟨base.authorities, base.hasKeys, base.encode, base.decode⟩, inv.observe _ _ holds⟩
    · rw [entered]
      exact inv.handle c base holds
  exact Runs.invariant Node.step keep ⟨start, inv.start⟩ actions

/-- Invariants of single entries: whatever follows from the cause of an event and lasts as
the history grows holds of all events, next to the invariant `Inv` it may rely on. -/
theorem Invariant.entries {g : Setup B} {Inv : ConsensusWorker B → Prop} (inv : Invariant g Inv)
    (Φ : List (Moment B × Event B) → Moment B → Event B → Prop)
    (lasts : ∀ trace new m e, Φ trace m e → Φ (trace ++ new) m e)
    (entered : ∀ trace m c, Φ trace m (.handled c))
    (caused : ∀ w₀ c w new m e, During g w₀ c w → Inv w → (m, e) ∈ new → Cause w₀ c w m e →
      Φ (w.trace ++ new) m e) :
    Invariant g fun w => Inv w ∧ ∀ m e, (m, e) ∈ w.trace → Φ w.trace m e where
  start := ⟨inv.start, fun _ _ entry => (nomatch entry)⟩
  observe w env holds := ⟨inv.observe w env holds.1, holds.2⟩
  enter w c holds := by
    refine ⟨inv.enter w c holds.1, fun m e entry => ?_⟩
    rcases List.mem_append.mp entry with old | new
    · exact lasts _ _ m e (holds.2 m e old)
    · cases List.mem_singleton.mp new
      exact entered _ _ c
  move w₀ c w w' during holds₀ holds move := by
    refine ⟨inv.move w₀ c w w' during holds₀.1 holds.1 move, fun m e entry => ?_⟩
    obtain ⟨new, grown, causes⟩ := move.appends
    rw [grown] at entry ⊢
    rcases List.mem_append.mp entry with old | added
    · exact lasts _ _ m e (holds.2 m e old)
    · exact caused w₀ c w new m e during holds.1 added (causes m e added)

end Hotstuff
