import Hotstuff.Rounds

/-! A view that ends without a certificate, at one node: its timer fires, the timeouts of the
others come in, and the leader of the next view proposes from the front of its queue. -/
namespace Hotstuff

variable {B : BlockT}

open ConsensusWorker

/-- Since `w₀` the worker has only counted timeouts of the view, those of the voters `ids`. -/
structure Gathering (w₀ : ConsensusWorker B) (view : ViewNumber) (ids : List B.AuthorityId)
    (w : ConsensusWorker B) : Prop where
  frame : ∃ timeouts trace, w = { w₀ with
    state := { w₀.state with
      aggregator := { w₀.state.aggregator with timeoutsAggregators := timeouts } }
    trace := trace }
  voters : (w.state.aggregator.timeoutsAggregators view).votes.map Prod.fst = ids
  others : ∀ later, later ≠ view → w.state.aggregator.timeoutsAggregators later =
    w₀.state.aggregator.timeoutsAggregators later

structure Timeout.Ends (t : Timeout B) (authorities : AuthorityList B) (view : ViewNumber) :
    Prop where
  here : t.view = view
  past : t.highQc.view < view
  verified : t.verify authorities = .ok ()

namespace Gathering

variable {w₀ w : ConsensusWorker B} {view : ViewNumber} {ids : List B.AuthorityId} {t : Timeout B}

theorem emit (sofar : Gathering w₀ view ids w) (e : Event B) :
    Gathering w₀ view ids (w.emit e) := by
  obtain ⟨⟨timeouts, trace, rfl⟩, voters, others⟩ := sofar
  exact ⟨⟨_, _, rfl⟩, voters, others⟩

theorem addTimeout (sofar : Gathering w₀ view ids w) (new : t.voter ∉ ids) (here : t.view = view)
    (verified : t.verify w₀.state.authorities = .ok ()) :
    Gathering w₀ view (ids ++ [t.voter]) { w with state := (w.state.addTimeout t).1 } ∧
      if w₀.state.authorities.length * 2 / 3 < ids.length + 1
        then ∃ tc, (w.state.addTimeout t).2 = .ok (some tc) ∧ tc.view = view
        else (w.state.addTimeout t).2 = .ok none := by
  obtain ⟨⟨timeouts, trace, rfl⟩, voters, others⟩ := sofar
  subst here
  obtain ⟨⟨_, signature, signed, _⟩, _⟩ := (t.verify_ok _).mp verified
  have size : ids.length = (timeouts t.view).votes.length := by rw [← voters, List.length_map]
  rw [← voters] at new
  obtain ⟨votes, result⟩ := Maker.append_new (timeouts t.view) new (signature, t.view)
    w₀.state.authorities
  have appended : TCMaker.append (timeouts t.view) t w₀.state.authorities =
      ((Maker.append (timeouts t.view) t.voter (some (signature, t.view)) w₀.state.authorities).1,
        (Maker.append (timeouts t.view) t.voter (some (signature, t.view))
          w₀.state.authorities).2.map (Option.map fun votes => ⟨t.view, votes⟩)) := by
    simp only [TCMaker.append, signed, Option.map_some]
  refine ⟨⟨⟨_, trace, rfl⟩, ?_, ?_⟩, ?_⟩
  · simp only [ConsensusState.addTimeout, Aggregator.addTimeout, Function.update_self]
    rw [appended, votes, List.map_append]
    exact congrArg (· ++ [t.voter]) voters
  · intro later other
    simp only [ConsensusState.addTimeout, Aggregator.addTimeout, Function.update_of_ne other]
    exact others later other
  · simp only [ConsensusState.addTimeout, Aggregator.addTimeout]
    rw [appended, result, size]
    split
    · exact ⟨_, rfl, rfl⟩
    · rfl

theorem state (sofar : Gathering w₀ view ids w) : w.state = { w₀.state with
    aggregator := { w₀.state.aggregator with
      timeoutsAggregators := w.state.aggregator.timeoutsAggregators } } := by
  obtain ⟨⟨timeouts, trace, rfl⟩, _, _⟩ := sofar
  rfl

theorem handleTimeout (sofar : Gathering w₀ view ids w) (current : w₀.state.view = view)
    (new : t.voter ∉ ids) (ends : t.Ends w₀.state.authorities view) :
    ∃ w', Gathering w₀ view (ids ++ [t.voter]) w' ∧
      if w₀.state.authorities.length * 2 / 3 < ids.length + 1
        then ∃ tc, w.handleTimeout t = w'.handleFormedTc tc ∧ tc.view = view
        else w.handleTimeout t = w'.done := by
  have here : w.state.view = view := by rw [sofar.state]; exact current
  have fresh : ¬ t.view < w.state.view := by
    rw [here, ends.here]
    exact UInt64.lt_irrefl _
  have verified : w.state.verifyTimeout t = .ok () := by
    rw [sofar.state]
    exact ends.verified
  -- The certificate in the timeout is behind: nothing happens before the timeout is added.
  have behind : w.handleQc t.highQc = w.emit (.acceptQc t.highQc) :=
    handleQc_behind w _ (by rw [here]; exact UInt64.not_le.mpr ends.past)
  obtain ⟨gathered, result⟩ :=
    (sofar.emit (.acceptQc t.highQc)).addTimeout new ends.here ends.verified
  refine ⟨_, gathered, ?_⟩
  unfold ConsensusWorker.handleTimeout
  rw [if_neg fresh, verified]
  simp only [behind]
  split at result
  · obtain ⟨tc, formed, same⟩ := result
    rw [if_pos ‹_›]
    exact ⟨tc, by rw [formed], same⟩
  · rw [if_neg ‹_›, result]

end Gathering

/-- What has become of a worker that has left the view with a timeout certificate. -/
structure Enters (w₀ : ConsensusWorker B) (view : ViewNumber) (w : ConsensusWorker B) :
    Prop where
  state : ∃ timeouts, w.state = { w₀.state with
    view := view + 1
    aggregator := { w₀.state.aggregator with timeoutsAggregators := timeouts } }
  others : ∀ later, later ≠ view → w.state.aggregator.timeoutsAggregators later =
    w₀.state.aggregator.timeoutsAggregators later
  client : w.client = w₀.client
  synchronizer : w.synchronizer = w₀.synchronizer
  queue : w.pendingFinalizeQueue = w₀.pendingFinalizeQueue

/-- The proposal by which the leader opens the view after `view`. -/
structure Opens (w₀ : ConsensusWorker B) (authorities : AuthorityList B) (id : B.AuthorityId)
    (view : ViewNumber) (block : BlockInfo B) (p : Proposal B) : Prop where
  carries : p.qc = w₀.state.highQc
  payload : p.payload = ⟨block.hash.getD B.emptyPayloadHash, block.number⟩
  view : p.view = view + 1
  author : p.author = id
  verified : p.verify authorities = .ok ()

section Formed

variable {w₀ w : ConsensusWorker B} {authorities : AuthorityList B} {id : B.AuthorityId}
  {view : ViewNumber} {ids : List B.AuthorityId} {tc : TC B}

theorem Gathering.enters (sofar : Gathering w₀ view ids w) (current : w₀.state.view = view)
    (here : tc.view = view) :
    Enters w₀ view (((w.emit (.acceptTc tc)).advanceView tc.view).emit .resetTimer) := by
  obtain ⟨⟨timeouts, trace, rfl⟩, _, others⟩ := sofar
  have state := advanceView_state ({ w₀ with
    state := { w₀.state with
      aggregator := { w₀.state.aggregator with timeoutsAggregators := timeouts } }
    trace := trace }.emit (.acceptTc tc)) tc.view (by rw [here]; exact UInt64.le_of_eq current)
  refine ⟨⟨timeouts, ?_⟩, fun later other => ?_, rfl, rfl, rfl⟩
  · rw [emit_state, state, here]
    simp only [emit_state, advanced, current, if_true]
  · rw [emit_state, state]
    exact others later other

theorem Enters.able (enters : Enters w₀ view w) (able : w₀.Able authorities id) :
    w.Able authorities id := by
  obtain ⟨timeouts, state⟩ := enters.state
  exact able.of_eq (by rw [state]) (by rw [state]) w₀.synchronizer.store.aux
    enters.synchronizer

theorem Enters.isLeader (enters : Enters w₀ view w) (able : w₀.Able authorities id) :
    w.state.isLeader = true ↔ id = w₀.state.viewLeader (view + 1) := by
  obtain ⟨timeouts, state⟩ := enters.state
  rw [ConsensusState.isLeader_iff, (enters.able able).own, Option.some.injEq, state]
  rfl

theorem Enters.follows (enters : Enters w₀ view w) (tc : TC B) (able : w₀.Able authorities id)
    (follower : id ≠ w₀.state.viewLeader (view + 1)) :
    ∃ w', w.announceTc tc = w'.done ∧ Enters w₀ view w' := by
  refine ⟨w.emit (.gossip (.tc tc)), ?_, enters.state, enters.others, enters.client,
    enters.synchronizer, enters.queue⟩
  unfold announceTc
  exact if_neg fun leads => follower ((enters.isLeader able).mp leads)

theorem Enters.leads (enters : Enters w₀ view w) (tc : TC B) (able : w₀.Able authorities id)
    (sound : w₀.state.highQc.Sound authorities) (leader : id = w₀.state.viewLeader (view + 1))
    {block : BlockInfo B} {rest : List (BlockInfo B)}
    (queued : w₀.pendingFinalizeQueue = some (block :: rest)) :
    ∃ w' p, w.announceTc tc = w'.call (.proposal p) ∧ Enters w₀ view w' ∧
      Opens w₀ authorities id view block p ∧ ∃ m, (m, .gossip (.propose p)) ∈ w'.trace := by
  obtain ⟨timeouts, state⟩ := enters.state
  have able' := enters.able able
  have isLeader := (enters.isLeader able).mpr leader
  obtain ⟨p, made, carried, _, payload, entered, author, verified⟩ := able'.offer
    (by rw [state]; exact sound) ⟨block.hash.getD B.emptyPayloadHash, block.number⟩ (some tc)
  rw [state] at carried entered
  -- No block is in process any more, so the leader takes the first one of the queue.
  have chosen : { w.emit (.gossip (.tc tc)) with processingBlock := none }.getProposalPayload =
      ({ w.emit (.gossip (.tc tc)) with processingBlock := some block },
        some ⟨block.hash.getD B.emptyPayloadHash, block.number⟩) := by
    have lock : (w.emit (.gossip (.tc tc))).pendingFinalizeQueue = some (block :: rest) :=
      enters.queue.trans queued
    simp [getProposalPayload, lock]
  have announced : w.announceTc tc =
      { w.emit (.gossip (.tc tc)) with processingBlock := some block }.propose p := by
    unfold announceTc generateProposal
    rw [if_pos (by exact isLeader), chosen]
    dsimp only
    rw [emit_state, made]
  refine ⟨_, p, announced,
    ⟨⟨timeouts, state⟩, enters.others, enters.client, enters.synchronizer, enters.queue⟩,
    ⟨carried, payload, entered, author, verified⟩, ?_⟩
  exact ⟨_, List.mem_append_right _ (List.mem_singleton.mpr rfl)⟩

end Formed

/-! ### At a node -/

/-- A node that waits in `view` with a certificate of an earlier one; no timeout has been counted
for this view or a later one, and no vote for a later one. -/
structure Node.Stalled (n : Node B) (authorities : AuthorityList B) (id : B.AuthorityId)
    (view : ViewNumber) : Prop where
  able : n.worker.Able authorities id
  idle : n.pending = none
  here : n.worker.state.view = view
  voted : n.worker.state.lastVotedView ≤ view
  high : n.worker.state.highQc.view < view
  sound : n.worker.state.highQc.Sound authorities
  timeouts : ∀ later, view ≤ later →
    n.worker.state.aggregator.timeoutsAggregators later = Maker.new
  tallies : ∀ later digest, view < later →
    n.worker.state.aggregator.votesAggregator later digest = Maker.new

def hearTimeout (keys : B.AuthorityId → Keystore B) (highs : B.AuthorityId → QC B)
    (view : ViewNumber) (j : B.AuthorityId) : Action B :=
  .receive (.timeout ((keys j).timeout j (highs j) view))

/-- The worker after its timer: it will not vote in this view any more. -/
def ConsensusWorker.timed (w : ConsensusWorker B) (view : ViewNumber) : ConsensusWorker B :=
  { w with state := { w.state with lastVotedView := view } }

variable {n : Node B} {authorities : AuthorityList B} {id : B.AuthorityId} {view : ViewNumber}
  {keys : B.AuthorityId → Keystore B} {highs : B.AuthorityId → QC B}

theorem Node.receive_timeout (idle : n.pending = none) (t : Timeout B) :
    n.step (.receive (.timeout t)) = n.enter (.timeout t) :=
  step_entered (by simp [entered, idle, Call.ofMessage])

theorem Node.enter_timeout (n : Node B) (t : Timeout B) : n.enter (.timeout t) =
    ⟨((n.worker.emit (.handled (.timeout t))).handleTimeout t).1,
      Outcome.next ((n.worker.emit (.handled (.timeout t))).handleTimeout t)⟩ := rfl

section Timeouts

variable {w₀ : ConsensusWorker B} {ids : List B.AuthorityId} {t : Timeout B}

theorem Gathering.enter (sofar : Gathering w₀ view ids n.worker) (current : w₀.state.view = view)
    (new : t.voter ∉ ids) (ends : t.Ends w₀.state.authorities view)
    (few : ids.length < w₀.state.authorities.length * 2 / 3) :
    Gathering w₀ view (ids ++ [t.voter]) (n.enter (.timeout t)).worker ∧
      (n.enter (.timeout t)).pending = none := by
  obtain ⟨w', gathered, result⟩ :=
    (sofar.emit (.handled (.timeout t))).handleTimeout current new ends
  rw [if_neg (by omega)] at result
  rw [Node.enter_timeout, result]
  exact ⟨gathered, rfl⟩

/-- With one timeout more there is a certificate, and the node leaves the view. -/
theorem Gathering.completes (sofar : Gathering w₀ view ids n.worker)
    (current : w₀.state.view = view) (new : t.voter ∉ ids)
    (ends : t.Ends w₀.state.authorities view)
    (last : ids.length = w₀.state.authorities.length * 2 / 3) :
    ∃ w tc, Enters w₀ view w ∧
      n.enter (.timeout t) = ⟨(w.announceTc tc).1, Outcome.next (w.announceTc tc)⟩ := by
  obtain ⟨w', gathered, result⟩ :=
    (sofar.emit (.handled (.timeout t))).handleTimeout current new ends
  rw [if_pos (by omega)] at result
  obtain ⟨tc, formed, here⟩ := result
  have ahead : w'.state.view ≤ tc.view := by
    rw [gathered.state, here]
    exact UInt64.le_of_eq current
  refine ⟨_, tc, gathered.enters current here, ?_⟩
  rw [Node.enter_timeout, formed, handleFormedTc_ahead ahead]

end Timeouts

namespace Node

/-- The timer fires: the node gossips its timeout and is about to handle it. -/
theorem fires (able : n.worker.Able authorities id) (idle : n.pending = none)
    (here : n.worker.state.view = view) (voted : n.worker.state.lastVotedView ≤ view) :
    (∃ trace, (n.step .timer).worker = { n.worker.timed view with trace := trace }) ∧
      (n.step .timer).pending =
        some (.timeout (n.worker.state.keystore.timeout id n.worker.state.highQc view)) ∧
      ∃ m, (m, .gossip (.timeout (n.worker.state.keystore.timeout id n.worker.state.highQc view))) ∈
        (n.step .timer).worker.trace := by
  have raised : n.worker.state.increaseLastVotedView =
      { n.worker.state with lastVotedView := view } := by
    have above : max n.worker.state.lastVotedView n.worker.state.view = view := by
      rw [here]
      exact if_pos voted
    unfold ConsensusState.increaseLastVotedView
    rw [above]
  have entered : n.entered .timer = some .localTimer := by simp [Node.entered, idle]
  have able' : (n.worker.timed view).Able authorities id := able.of_eq rfl rfl _ rfl
  have made : { n.worker.state with lastVotedView := view }.makeTimeout =
      .ok (n.worker.state.keystore.timeout id n.worker.state.highQc view) := by
    have made := able'.makeTimeout
    rw [show (n.worker.timed view).state.view = view from here] at made
    exact made
  rw [step_entered entered]
  simp only [enter, ConsensusWorker.handle, handleLocalTimer, emit_state, raised, made]
  exact ⟨⟨_, rfl⟩, rfl, _, List.mem_append_right _ (List.mem_singleton.mpr rfl)⟩

namespace Stalled

theorem ends (stalled : n.Stalled authorities id view) :
    (n.worker.state.keystore.timeout id n.worker.state.highQc view).Ends authorities view :=
  ⟨rfl, stalled.high, stalled.able.timeout_verifies stalled.sound view⟩

theorem timer (stalled : n.Stalled authorities id view) :
    Gathering (n.worker.timed view) view [] (n.step .timer).worker ∧
      (n.step .timer).pending =
        some (.timeout (n.worker.state.keystore.timeout id n.worker.state.highQc view)) ∧
      ∃ m, (m, .gossip (.timeout (n.worker.state.keystore.timeout id n.worker.state.highQc view))) ∈
        (n.step .timer).worker.trace := by
  obtain ⟨⟨trace, timed⟩, pending, told⟩ := Node.fires stalled.able stalled.idle stalled.here
    stalled.voted
  refine ⟨⟨⟨_, trace, timed⟩, ?_, fun later _ => by rw [timed]⟩, pending, told⟩
  rw [timed]
  change (n.worker.state.aggregator.timeoutsAggregators view).votes.map Prod.fst = []
  rw [stalled.timeouts view (UInt64.le_refl _)]
  rfl

theorem gathers (stalled : n.Stalled authorities id view) {peers : List B.AuthorityId}
    (distinct : (id :: peers).Nodup)
    (valid : ∀ j ∈ peers, ((keys j).timeout j (highs j) view).Ends authorities view)
    (size : peers.length = authorities.length * 2 / 3) (several : 1 < authorities.length) :
    ∃ w tc, Enters (n.worker.timed view) view w ∧
      Runs.run Node.step n (.timer :: .resume :: peers.map (hearTimeout keys highs view)) =
        ⟨(w.announceTc tc).1, Outcome.next (w.announceTc tc)⟩ := by
  have same : (n.worker.timed view).state.authorities = authorities := stalled.able.authorities
  obtain ⟨started, pending, _⟩ := stalled.timer
  have own := started.enter stalled.here (by simp) (same.symm ▸ stalled.ends)
    (by rw [same, List.length_nil]; omega)
  rw [Runs.run_cons, Runs.run_cons, Node.resume pending]
  cases peers with
  | nil =>
    rw [List.length_nil] at size
    omega
  | cons first rest =>
    have size' : [id].length + rest.length = authorities.length * 2 / 3 := by
      rw [← size, List.length_singleton, List.length_cons, Nat.add_comm]
    refine Runs.reach Node.step
      (fun ids n' => Gathering (n.worker.timed view) view ids n'.worker ∧ n'.pending = none)
      (fun n' => ∃ w tc, Enters (n.worker.timed view) view w ∧
        n' = ⟨(w.announceTc tc).1, Outcome.next (w.announceTc tc)⟩)
      (fun j => ((keys j).timeout j (highs j) view).Ends authorities view) ?_ ?_ own distinct valid
      size'
    · intro ids n' j sofar new ends few
      rw [hearTimeout, receive_timeout sofar.2]
      exact sofar.1.enter stalled.here new (same.symm ▸ ends) (same.symm ▸ few)
    · intro ids n' j sofar new ends last
      rw [hearTimeout, receive_timeout sofar.2]
      exact sofar.1.completes stalled.here new (same.symm ▸ ends) (same.symm ▸ last)

theorem follows (stalled : n.Stalled authorities id view) {peers : List B.AuthorityId}
    (distinct : (id :: peers).Nodup)
    (valid : ∀ j ∈ peers, ((keys j).timeout j (highs j) view).Ends authorities view)
    (size : peers.length = authorities.length * 2 / 3) (several : 1 < authorities.length)
    (follower : id ≠ n.worker.state.viewLeader (view + 1)) :
    let n' := Runs.run Node.step n (.timer :: .resume :: peers.map (hearTimeout keys highs view))
    Enters (n.worker.timed view) view n'.worker ∧ n'.pending = none := by
  obtain ⟨w, tc, enters, reached⟩ := stalled.gathers distinct valid size several
  obtain ⟨w', announced, entered⟩ := enters.follows tc (stalled.able.of_eq rfl rfl _ rfl) follower
  rw [reached, announced]
  exact ⟨entered, rfl⟩

theorem leads (stalled : n.Stalled authorities id view) {peers : List B.AuthorityId}
    (distinct : (id :: peers).Nodup)
    (valid : ∀ j ∈ peers, ((keys j).timeout j (highs j) view).Ends authorities view)
    (size : peers.length = authorities.length * 2 / 3) (several : 1 < authorities.length)
    (leader : id = n.worker.state.viewLeader (view + 1)) {block : BlockInfo B}
    {rest : List (BlockInfo B)} (queued : n.worker.pendingFinalizeQueue = some (block :: rest)) :
    let n' := Runs.run Node.step n (.timer :: .resume :: peers.map (hearTimeout keys highs view))
    Enters (n.worker.timed view) view n'.worker ∧
      ∃ p, Opens (n.worker.timed view) authorities id view block p ∧
        n'.pending = some (.proposal p) ∧ ∃ m, (m, .gossip (.propose p)) ∈ n'.worker.trace := by
  obtain ⟨w, tc, enters, reached⟩ := stalled.gathers distinct valid size several
  obtain ⟨w', p, announced, entered, opens, told⟩ := enters.leads tc
    (stalled.able.of_eq rfl rfl _ rfl) stalled.sound leader queued
  rw [reached, announced]
  exact ⟨entered, p, opens, rfl, told⟩

theorem next {n' : Node B} (stalled : n.Stalled authorities id view) (room : view < view + 1)
    (able : n'.worker.Able authorities id) (idle : n'.pending = none)
    (here : n'.worker.state.view = view + 1) (voted : n'.worker.state.lastVotedView ≤ view + 1)
    (high : n'.worker.state.highQc = n.worker.state.highQc)
    (others : ∀ later, later ≠ view → n'.worker.state.aggregator.timeoutsAggregators later =
      n.worker.state.aggregator.timeoutsAggregators later)
    (votes : n'.worker.state.aggregator.votesAggregator =
      n.worker.state.aggregator.votesAggregator) : n'.Stalled authorities id (view + 1) := by
  refine ⟨able, idle, here, voted, high ▸ UInt64.lt_trans stalled.high room, high ▸ stalled.sound,
    fun later above => ?_, fun later digest above => ?_⟩
  · have beyond : view < later := UInt64.lt_of_lt_of_le room above
    rw [others later (UInt64.ne_of_lt beyond).symm]
    exact stalled.timeouts later (UInt64.le_of_lt beyond)
  · rw [votes]
    exact stalled.tallies later digest (UInt64.lt_trans room above)

end Stalled

end Node

section Waiting

variable {n n' : Node B} {authorities : AuthorityList B} {id : B.AuthorityId} {view : ViewNumber}

theorem Enters.stalled (enters : Enters (n.worker.timed view) view n'.worker)
    (stalled : n.Stalled authorities id view) (idle : n'.pending = none)
    (room : view < view + 1) : n'.Stalled authorities id (view + 1) := by
  obtain ⟨timeouts, state⟩ := enters.state
  refine stalled.next room (enters.able (stalled.able.of_eq rfl rfl _ rfl)) idle ?_ ?_ ?_
    enters.others ?_
  · rw [state]
  · rw [state]
    exact UInt64.le_of_lt room
  · rw [state]
    rfl
  · rw [state]
    rfl

variable {block : BlockInfo B} {p : Proposal B} {r : Outcome B}

theorem Hears.high (hears : Hears (n'.worker.emit (.handled (.proposal p))) id p r)
    (enters : Enters (n.worker.timed view) view n'.worker)
    (opens : Opens (n.worker.timed view) authorities id view block p) :
    r.1.state.highQc = n.worker.state.highQc := by
  obtain ⟨timeouts, state⟩ := enters.state
  rw [hears.state]
  dsimp only
  unfold Moment.highQcAfter
  split
  · exact opens.carries
  · rw [emit_state, state]
    rfl

theorem Hears.stalled (hears : Hears (n'.worker.emit (.handled (.proposal p))) id p r)
    (enters : Enters (n.worker.timed view) view n'.worker)
    (stalled : n.Stalled authorities id view)
    (opens : Opens (n.worker.timed view) authorities id view block p)
    (idle : Outcome.next r = none) (room : view < view + 1) :
    Node.Stalled ⟨r.1, Outcome.next r⟩ authorities id (view + 1) := by
  obtain ⟨timeouts, state⟩ := enters.state
  have heard := hears.state
  have able := (enters.able (stalled.able.of_eq rfl rfl _ rfl)).of_eq
    (by rw [heard]; rfl) (by rw [heard]; rfl) _ hears.synchronizer
  refine stalled.next room able idle ?_ ?_ (hears.high enters opens) (fun later other => ?_) ?_
  · rw [heard, opens.view]
  · rw [heard, opens.view]
    exact UInt64.le_refl _
  · rw [heard]
    exact enters.others later other
  · rw [heard, emit_state, state]
    rfl

end Waiting

/-! ### The first view -/

/-- A fresh node handles its own timeout of view 0 and is in view 1 by it: the default
certificate in the timeout counts as one of view 0. -/
theorem handleTimeout_first {w : ConsensusWorker B} {t : Timeout B} {authorities : AuthorityList B}
    (same : w.state.authorities = authorities) (several : 1 < authorities.length)
    (fresh : w.state.view = 0)
    (unused : w.state.aggregator = Aggregator.new) (first : t.view = 0)
    (carries : t.highQc = QC.default) (verified : t.verify authorities = .ok ()) :
    ∃ w' : ConsensusWorker B, w.handleTimeout t = w'.done ∧ w'.desk = w.desk ∧
      w'.synchronizer = w.synchronizer ∧
      (∀ later, 1 ≤ later → w'.state.aggregator.timeoutsAggregators later = Maker.new) ∧
      ∃ timeouts,
        w'.state = { w.state with view := 1, aggregator := ⟨fun _ _ => Maker.new, timeouts⟩ } := by
  have certified : t.highQc.view = 0 := by rw [carries]; rfl
  have state : (w.handleQc t.highQc).state = { w.state with view := 1 } := by
    have level : ¬ (w.state.view ≤ t.highQc.view ∧ w.state.highQc.view < t.highQc.view) := by
      rw [certified]
      exact fun higher => UInt64.not_lt_zero higher.2
    rw [handleQc_state, if_neg level, certified, fresh]
    rfl
  have kept : (w.handleQc t.highQc).state.authorities = authorities := by rw [state]; exact same
  have start : Gathering (w.handleQc t.highQc) t.view [] (w.handleQc t.highQc) :=
    ⟨⟨_, _, rfl⟩, by rw [state, unused]; rfl, fun _ _ => rfl⟩
  obtain ⟨⟨⟨timeouts, trace, counted⟩, _, others⟩, result⟩ :=
    start.addTimeout List.not_mem_nil rfl (kept.symm ▸ verified)
  rw [kept, if_neg (by rw [List.length_nil]; omega)] at result
  refine ⟨{ w.handleQc t.highQc with state := ((w.handleQc t.highQc).state.addTimeout t).1 }, ?_,
    handleQc_desk w t.highQc, handleQc_synchronizer w t.highQc, ?_, timeouts, ?_⟩
  · have passed : w.state.verifyTimeout t = .ok () := by
      rw [ConsensusState.verifyTimeout, same]
      exact verified
    unfold handleTimeout
    rw [if_neg (by rw [first, fresh]; exact UInt64.lt_irrefl _), passed]
    simp only [result]
  · intro later above
    have other : later ≠ t.view := by
      rintro rfl
      rw [first] at above
      exact absurd above (by decide)
    refine (others later other).trans ?_
    rw [state, unused]
    rfl
  · have added := congrArg ConsensusWorker.state counted
    dsimp only at added ⊢
    rw [added, state, unused]
    rfl

/-- A fresh node leaves view 0 by its own timer and waits in view 1. -/
theorem Node.wakes {n : Node B} {authorities : AuthorityList B} {id : B.AuthorityId}
    {keystore : Keystore B} {nonempty : 0 < authorities.length}
    (able : n.worker.Able authorities id) (idle : n.pending = none)
    (fresh : n.worker.state = ConsensusState.new keystore authorities nonempty)
    (several : 1 < authorities.length) :
    let n' := Runs.run Node.step n [.timer, .resume]
    n'.Stalled authorities id 1 ∧ n'.worker.state.keystore = keystore ∧
      n'.worker.state.highQc = QC.default ∧ n'.worker.client = n.worker.client ∧
      n'.worker.synchronizer = n.worker.synchronizer ∧
      n'.worker.pendingFinalizeQueue = n.worker.pendingFinalizeQueue := by
  obtain ⟨⟨trace, timed⟩, pending, _⟩ := Node.fires able idle
    (show n.worker.state.view = 0 by rw [fresh]; rfl) (by rw [fresh]; exact UInt64.le_refl _)
  rw [fresh] at pending
  have started : (n.step .timer).worker.state =
      ConsensusState.new keystore authorities nonempty := by
    rw [timed]
    change { n.worker.state with lastVotedView := 0 } = _
    rw [fresh]
    rfl
  have verified : (keystore.timeout id QC.default 0).verify authorities = .ok () := by
    have verified := able.timeout_verifies (.inl rfl) 0
    rwa [fresh] at verified
  obtain ⟨w', handled, desk, synchronizer, timeouts, others, state⟩ := handleTimeout_first
    (w := (n.step .timer).worker.emit (.handled (.timeout (keystore.timeout id QC.default 0))))
    (by rw [emit_state, started]; rfl) several (by rw [emit_state, started]; rfl)
    (by rw [emit_state, started]; rfl) rfl rfl verified
  have woken : Runs.run Node.step n [.timer, .resume] = ⟨w', none⟩ := by
    change (n.step .timer).step .resume = _
    rw [Node.resume pending, Node.enter_timeout]
    exact congrArg (fun r : Outcome B => (⟨r.1, Outcome.next r⟩ : Node B)) handled
  rw [emit_state, started] at state
  rw [timed] at desk synchronizer
  have same : w'.Able authorities id := able.of_eq (by rw [state, fresh])
    (by rw [state, fresh]) n.worker.synchronizer.store.aux synchronizer
  have voted : w'.state.lastVotedView = 0 := by rw [state]; rfl
  have high : w'.state.highQc = QC.default := by rw [state]; rfl
  intro n'
  rw [show n' = ⟨w', none⟩ from woken]
  refine ⟨⟨same, rfl, by rw [state], by rw [voted]; decide, by rw [high]; exact UInt64.zero_lt_one,
    .inl high, timeouts, ?_⟩, by rw [state]; rfl, high, congrArg Desk.client desk, synchronizer,
    congrArg Desk.pending desk⟩
  rw [state]
  exact fun _ _ _ => rfl

end Hotstuff
