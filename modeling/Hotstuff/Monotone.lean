import Hotstuff.Evidence

/-! What grows with every call: the view, the last voted view and the view of `highQc`. The
view does so until the addition in `advance_view_from_target` wraps around. -/
namespace Hotstuff

variable {B : BlockT}

open ConsensusWorker

/-- The addition `view + 1` made there does not overflow. The guards on both sides let it
happen for a target equal to the view only. -/
def Fits (x : Moment B × Event B) : Prop :=
  x.2.target = some x.1.view → x.1.view.toNat + 1 < UInt64.size

instance : DecidablePred (Fits (B := B)) := fun _ => inferInstanceAs (Decidable (_ → _))

theorem Fits.room {x : Moment B × Event B} (fits : Fits x) {target : ViewNumber}
    (called : x.2.target = some target) : x.1.view = target → target + 1 ≠ 0 := by
  rintro rfl zero
  have bound := fits called
  have wrapped := congrArg UInt64.toNat zero
  rw [UInt64.toNat_add] at wrapped
  change (x.1.view.toNat + 1) % UInt64.size = 0 at wrapped
  rw [Nat.mod_eq_of_lt bound] at wrapped
  cases wrapped

/-! ### The view -/

section Rising

variable {w₀ w w' : ConsensusWorker B} {c : Call B}

theorem Move.view_le (move : Move w₀ c w w') (fits : ∀ x ∈ w'.trace, Fits x) :
    w.state.view ≤ w'.state.view := by
  rcases move.view_cases with same | ⟨next, _, e, mark, target⟩
  · exact UInt64.le_of_eq same.symm
  · have room : w.state.view + 1 ≠ 0 := (fits _ mark).room target rfl
    rw [next]
    grind

/-- No entry was made in a view above the present one. -/
def Rising (w : ConsensusWorker B) : Prop :=
  (∀ x ∈ w.trace, Fits x) → ∀ x ∈ w.trace, x.1.view ≤ w.state.view

theorem Rising.move (rising : Rising w) (move : Move w₀ c w w') : Rising w' := by
  intro fits x entry
  have le := move.view_le fits
  rcases move.noted entry with old | now | now
  · have before := rising (fun y hy => fits y (move.trace_prefix.subset hy)) x old
    exact UInt64.le_trans before le
  · rw [now]
    exact le
  · rw [now]
    exact UInt64.le_refl _

theorem rising (g : Setup B) : Invariant g Rising where
  start _ := List.forall_mem_nil _
  observe _ _ rising := rising
  enter w c rising fits x entry := by
    rcases List.mem_append.mp entry with old | new
    · exact rising (fun y hy => fits y (List.mem_append_left _ hy)) x old
    · rw [List.mem_singleton.mp new]
      exact UInt64.le_refl _
  move _ _ _ _ _ _ rising move := rising.move move

end Rising

/-! ### The gossip validator -/

section Synced

variable {w : ConsensusWorker B}

theorem handleQc_networkView (synced : w.networkView = w.state.view) (qc : QC B) :
    (w.handleQc qc).networkView = (w.handleQc qc).state.view := by
  by_cases ahead : w.state.view ≤ qc.view
  · rw [handleQc_ahead w qc ahead]
    simp only [emit_state, ConsensusState.updateHighQc]
    split <;> rfl
  · rw [handleQc_behind w qc ahead]
    exact synced

theorem synced (g : Setup B) : Invariant g fun w => w.networkView = w.state.view where
  start := rfl
  observe _ _ synced := synced
  enter _ _ synced := synced
  move w₀ c w w' _ _ synced move := by
    cases move with
    | note | scratch | save | canFinalize | finalize | timer | timedOut | propose | addVote
    | addTimeout => exact synced
    | vote p v s called passed seen state current made =>
      obtain ⟨rfl, _⟩ := ConsensusState.makeVote_some made
      exact synced
    | voteFails p s made =>
      rcases ConsensusState.makeVote_none made with rfl | ⟨_, rfl⟩ <;> exact synced
    | verified p => exact handleQc_networkView (w := w₀.emit (.verified p)) synced p.qc
    | timeoutQc t => exact handleQc_networkView synced t.highQc
    | collected v qc => exact handleQc_networkView (w := w.emit (.collected qc)) synced qc
    | proposalTc | receivedTc => rfl
    | formedTc t tc =>
      split
      · rfl
      · exact synced

end Synced

/-! ### The last voted view -/

section LastVotedView

variable (w : ConsensusWorker B)

theorem voteFor_lastVotedView (p : Proposal B) :
    (w.voteFor p).1.state.lastVotedView = w.state.lastVotedView ∨
      (w.voteFor p).1.state.lastVotedView = w.state.view := by
  unfold voteFor
  split
  · exact .inl rfl
  · rename_i current
    have current : p.view = w.state.view := not_not.mp current
    split
    · rename_i s made
      rcases ConsensusState.makeVote_none made with rfl | ⟨_, rfl⟩
      · exact .inl rfl
      · exact .inr current
    · rename_i s v made
      obtain ⟨rfl, _⟩ := ConsensusState.makeVote_some made
      dsimp only
      split <;> exact .inr current

theorem handleProposal_lastVotedView (p : Proposal B) :
    (w.handleProposal p).1.state.lastVotedView = w.state.lastVotedView ∨
      (w.handleProposal p).1.state.lastVotedView = (w.handleProposal p).1.state.view := by
  unfold handleProposal
  split
  · exact .inl rfl
  · exact .inl rfl
  · split
    · exact .inl rfl
    · have kept : (((w.emit (.verified p)).handleQc p.qc).handleProposalTc
          p.tc).state.lastVotedView = w.state.lastVotedView := by
        rw [handleProposalTc_state, handleQc_state]
        rfl
      dsimp only
      split
      · exact .inl kept
      · rename_i s _
        have voted := voteFor_lastVotedView ({ ((w.emit (.verified p)).handleQc
          p.qc).handleProposalTc p.tc with synchronizer := s }.tryFinalize p) p
        rw [← (voteFor_position _ p).1, (tryFinalize_frame _ p).1] at voted
        exact voted.imp_left fun same => same.trans kept

theorem handleFormedTc_lastVotedView (tc : TC B) :
    (w.handleFormedTc tc).1.state.lastVotedView = w.state.lastVotedView := by
  by_cases ahead : w.state.view ≤ tc.view
  · rw [handleFormedTc_ahead ahead, announceTc_state]
    exact advanceView_lastVotedView _ _
  · rw [handleFormedTc_behind ahead, announceTc_state]
    rfl

theorem handleTimeout_lastVotedView (t : Timeout B) :
    (w.handleTimeout t).1.state.lastVotedView = w.state.lastVotedView := by
  have kept : (w.handleQc t.highQc).state.lastVotedView = w.state.lastVotedView := by
    rw [handleQc_state]
  unfold handleTimeout
  split
  · rfl
  · split
    · rfl
    · dsimp only
      split
      · exact kept
      · exact kept
      · rename_i tc _
        exact (handleFormedTc_lastVotedView _ tc).trans kept

theorem handleVote_lastVotedView (v : Vote B) :
    (w.handleVote v).1.state.lastVotedView = w.state.lastVotedView := by
  unfold handleVote
  split
  · rfl
  · dsimp only
    split
    · rfl
    · rfl
    · split
      · rw [proposeOnQc_state, handleQc_state]
        rfl
      · simp only [done, handleQc_state]
        rfl

theorem handleTc_lastVotedView (tc : TC B) :
    (w.handleTc tc).1.state.lastVotedView = w.state.lastVotedView := by
  unfold handleTc
  split
  · rfl
  · dsimp only
    split
    · rw [generateProposal_state]
      exact advanceView_lastVotedView _ _
    · exact advanceView_lastVotedView _ _

theorem handleLocalTimer_lastVotedView :
    w.handleLocalTimer.1.state.lastVotedView = w.state.lastVotedView ∨
      w.handleLocalTimer.1.state.lastVotedView = w.handleLocalTimer.1.state.view := by
  have raised : max w.state.lastVotedView w.state.view = w.state.lastVotedView ∨
      max w.state.lastVotedView w.state.view = w.state.view := by
    change (if _ then _ else _) = _ ∨ (if _ then _ else _) = _
    split
    · exact .inr rfl
    · exact .inl rfl
  unfold handleLocalTimer
  dsimp only
  split <;> exact raised

/-- A call leaves the last voted view as it is or sets it to the view it ends in. -/
theorem handle_lastVotedView (c : Call B) :
    (w.handle c).1.state.lastVotedView = w.state.lastVotedView ∨
      (w.handle c).1.state.lastVotedView = (w.handle c).1.state.view := by
  cases c with
  | localTimer => exact handleLocalTimer_lastVotedView w
  | proposal p => exact handleProposal_lastVotedView w p
  | timeout t => exact .inl (handleTimeout_lastVotedView w t)
  | vote v => exact .inl (handleVote_lastVotedView w v)
  | tc tc => exact .inl (handleTc_lastVotedView w tc)

end LastVotedView

/-! ### Runs -/

/-- Nothing falls from one state to a later one. -/
structure Grows (s s' : ConsensusState B) : Prop where
  view : s.view ≤ s'.view
  lastVotedView : s.lastVotedView ≤ s'.lastVotedView
  highQc : s.highQc.view ≤ s'.highQc.view

theorem Grows.of_eq {s s' : ConsensusState B} (same : s'.moment = s.moment) : Grows s s' := by
  have view : s'.view = s.view := congrArg Moment.view same
  have lastVotedView : s'.lastVotedView = s.lastVotedView := congrArg Moment.lastVotedView same
  have highQc : s'.highQc = s.highQc := congrArg Moment.highQc same
  exact ⟨view ▸ UInt64.le_refl _, lastVotedView ▸ UInt64.le_refl _, highQc ▸ UInt64.le_refl _⟩

theorem Grows.trans {s s' s'' : ConsensusState B} (first : Grows s s') (second : Grows s' s'') :
    Grows s s'' :=
  ⟨UInt64.le_trans first.view second.view,
    UInt64.le_trans first.lastVotedView second.lastVotedView,
    UInt64.le_trans first.highQc second.highQc⟩

namespace Setup

variable {g : Setup B} {actions : List (Action B)}

theorem step_grows {a : Action B} (fits : ∀ x ∈ (g.run (actions ++ [a])).worker.trace, Fits x) :
    Grows (g.run actions).worker.state (g.run (actions ++ [a])).worker.state ∧
      ((g.run actions).worker.state.lastVotedView ≤ (g.run actions).worker.state.view →
        (g.run (actions ++ [a])).worker.state.lastVotedView ≤
          (g.run (actions ++ [a])).worker.state.view) := by
  have high := ((rising g).run (actions ++ [a])).2 fits
  have history := ((chronicle g).run (actions ++ [a])).2
  rw [run_snoc] at high history ⊢
  cases entered : (g.run actions).entered a with
  | none =>
    obtain ⟨env, seen⟩ := Node.step_not_entered entered
    rw [seen]
    exact ⟨.of_eq rfl, id⟩
  | some c =>
    rw [Node.step_entered entered] at high history ⊢
    -- The mark of the call tells the state it was entered in.
    have mark : ((g.run actions).worker.state.moment, .handled c) ∈
        ((g.run actions).enter c).worker.trace :=
      (handle_trace ((g.run actions).worker.emit (.handled c)) c).subset (by simp)
    obtain ⟨lastVotedView, highQc⟩ := history.bounded _ mark
    refine ⟨⟨high _ mark, lastVotedView, highQc⟩, fun below => ?_⟩
    rcases handle_lastVotedView ((g.run actions).worker.emit (.handled c)) c with same | last
    · exact UInt64.le_trans (UInt64.le_trans (UInt64.le_of_eq same) below) (high _ mark)
    · exact UInt64.le_of_eq last

theorem trace_prefix {first second : List (Action B)} (before : first <+: second) :
    (g.run first).worker.trace <+: (g.run second).worker.trace := by
  obtain ⟨rest, rfl⟩ := before
  induction rest using List.reverseRecOn with
  | nil => exact ⟨[], by rw [List.append_nil, List.append_nil]⟩
  | append_singleton rest a ih =>
    rw [← List.append_assoc, run_snoc]
    exact ih.trans (Node.step_trace _ a)

theorem run_grows {first second : List (Action B)} (before : first <+: second)
    (fits : ∀ x ∈ (g.run second).worker.trace, Fits x) :
    Grows (g.run first).worker.state (g.run second).worker.state := by
  obtain ⟨rest, rfl⟩ := before
  induction rest using List.reverseRecOn with
  | nil => rw [List.append_nil]; exact .of_eq rfl
  | append_singleton rest a ih =>
    rw [← List.append_assoc] at fits ⊢
    have earlier := trace_prefix (g := g) (List.prefix_append (first ++ rest) [a])
    exact (ih fun x hx => fits x (earlier.subset hx)).trans (step_grows fits).1

theorem run_lastVotedView (fits : ∀ x ∈ (g.run actions).worker.trace, Fits x) :
    (g.run actions).worker.state.lastVotedView ≤ (g.run actions).worker.state.view := by
  induction actions using List.reverseRecOn with
  | nil => exact UInt64.le_refl _
  | append_singleton actions a ih =>
    have earlier := trace_prefix (g := g) (List.prefix_append actions [a])
    exact (step_grows fits).2 (ih fun x hx => fits x (earlier.subset hx))

end Setup

/-- In a run in which no `view + 1` overflows, the view, the last voted view and the view of
`highQc` never fall from one point to a later one, the last voted view is not above the view, and
the gossip validator has the view of the worker. -/
theorem worker_state_monotone (g : Setup B) (actions : List (Action B))
    (fits : ∀ x ∈ (g.run actions).worker.trace, Fits x) (first second : List (Action B))
    (before : first <+: second) (within : second <+: actions) :
    let worker := (g.run second).worker
    (g.run first).worker.state.view ≤ worker.state.view ∧
      (g.run first).worker.state.lastVotedView ≤ worker.state.lastVotedView ∧
      (g.run first).worker.state.highQc.view ≤ worker.state.highQc.view ∧
      worker.state.lastVotedView ≤ worker.state.view ∧
      worker.networkView = worker.state.view := by
  have fits' : ∀ x ∈ (g.run second).worker.trace, Fits x :=
    fun x hx => fits x ((Setup.trace_prefix within).subset hx)
  obtain ⟨view, lastVotedView, highQc⟩ := Setup.run_grows before fits'
  exact ⟨view, lastVotedView, highQc, Setup.run_lastVotedView fits', ((synced g).run second).2⟩

theorem worker_state_monotone_alone :
    let g := Symbolic.setup 0 0
    let actions : List (Action symbolic) := .timer :: List.replicate 5 .resume
    (∀ x ∈ (g.run actions).worker.trace, Fits x) ∧
      (g.run actions).worker.networkView = (g.run actions).worker.state.view ∧
      (g.run [.timer]).worker.state.view ≤ (g.run actions).worker.state.view := by
  intro g actions
  have fits : ∀ x ∈ (g.run actions).worker.trace, Fits x := by decide +kernel
  obtain ⟨view, _, _, _, network⟩ := worker_state_monotone g actions fits [.timer] actions
    (List.prefix_append [Action.timer] _) List.prefix_rfl
  exact ⟨fits, network, view⟩

namespace Symbolic

/-- A node on its own that has nothing to propose. -/
def idle : Setup symbolic := { setup 0 0 with queue := some [] }

def climb (views : Nat) : List (Action symbolic) :=
  (List.range views).map fun v => .receive (.tc (timeoutCertificate [0] (UInt64.ofNat v) 0))

structure Waits (n : Node symbolic) (view : ViewNumber) : Prop where
  pending : n.pending = none
  view : n.worker.state.view = view
  authorities : n.worker.state.authorities = Symbolic.authorities 1
  queue : n.worker.pendingFinalizeQueue = some []

theorem verify_own (view : ViewNumber) :
    (timeoutCertificate [0] view 0).verify (authorities 1) = .ok () := by
  rw [TC.verify_ok]
  refine ⟨by simp [timeoutCertificate], by simp [timeoutCertificate, authorities], ?_⟩
  intro v hv
  cases List.mem_singleton.mp hv
  exact (symbolic_verify _ _ _).mpr rfl

theorem generateProposal_idle {w : ConsensusWorker symbolic}
    (queue : w.pendingFinalizeQueue = some []) (processing : w.processingBlock = none)
    (tc : Option (TC symbolic)) :
    w.generateProposal tc = w.done := by
  have payload : w.getProposalPayload = (w, none) := by
    simp [getProposalPayload, queue, processing]
  rw [generateProposal, payload]

theorem Waits.step {n : Node symbolic} {view : ViewNumber} (waits : Waits n view) :
    Waits (n.step (.receive (.tc (timeoutCertificate [0] view 0)))) (view + 1) := by
  obtain ⟨pending, rfl, authorities, queue⟩ := waits
  have entered : n.entered (.receive (.tc (timeoutCertificate [0] n.worker.state.view 0))) =
      some (.tc (timeoutCertificate [0] n.worker.state.view 0)) := by
    simp [Node.entered, pending, Call.ofMessage]
  rw [Node.step_entered entered]
  generalize same : timeoutCertificate [0] n.worker.state.view 0 = tc
  have view : tc.view = n.worker.state.view := by rw [← same]; rfl
  have verified : (n.worker.emit (.handled (.tc tc))).state.verifyTc tc = .ok () := by
    rw [ConsensusState.verifyTc_ok, emit_state, authorities, view, ← same]
    exact ⟨UInt64.le_refl _, verify_own _⟩
  have ended : ∀ w : ConsensusWorker symbolic, w.state.verifyTc tc = .ok () →
      w.pendingFinalizeQueue = some [] → w.handleTc tc =
        { ((w.emit (.acceptTc tc)).advanceView tc.view).emit .resetTimer with
          processingBlock := none }.done := by
    intro w verified queue
    rw [handleTc, verified]
    dsimp only
    split
    · exact generateProposal_idle (w := { ((w.emit (.acceptTc tc)).advanceView tc.view).emit
        .resetTimer with processingBlock := none }) queue rfl none
    · rfl
  have after := ended _ verified queue
  refine ⟨?_, ?_, ?_, ?_⟩
  · rw [Node.enter, handle, after]
    rfl
  · have moved := (handleTc_position _ tc verified).1
    rw [emit_state, view, advanced, if_pos rfl] at moved
    exact moved
  · exact (handle_kept (n.worker.emit (.handled (.tc tc))) (.tc tc)).1.trans authorities
  · rw [Node.enter, handle, after]
    exact queue

theorem climb_succ (views : Nat) : climb (views + 1) =
    climb views ++ [.receive (.tc (timeoutCertificate [0] (UInt64.ofNat views) 0))] := by
  simp [climb, List.range_succ]

theorem climb_prefix (views : Nat) : climb views <+: climb (views + 1) := by
  rw [climb_succ]
  exact List.prefix_append _ _

theorem climb_waits (views : Nat) : Waits (idle.run (climb views)) (UInt64.ofNat views) := by
  induction views with
  | zero => exact ⟨rfl, rfl, rfl, rfl⟩
  | succ views ih =>
    rw [climb_succ, Setup.run_snoc, UInt64.ofNat_add]
    exact ih.step

end Symbolic

/- After as many timeout certificates as there are views the node is in view 0 again. -/
theorem view_wraps_around : ∃ first second, first <+: second ∧
    (Symbolic.idle.run first).worker.state.view = 18446744073709551615 ∧
    (Symbolic.idle.run second).worker.state.view = 0 := by
  refine ⟨Symbolic.climb 18446744073709551615, Symbolic.climb (18446744073709551615 + 1),
    ?_, ?_, ?_⟩
  · exact Symbolic.climb_prefix 18446744073709551615
  · rw [(Symbolic.climb_waits 18446744073709551615).view]
    rfl
  · rw [(Symbolic.climb_waits (18446744073709551615 + 1)).view]
    rfl

end Hotstuff
