import Hotstuff.Views

/-! When a leader keeps to one proposal a view. -/
namespace Hotstuff

variable {B : BlockT}

open ConsensusWorker

def Event.qcView : Event B → Option ViewNumber
  | .acceptQc qc => some qc.view
  | _ => none

/-- No certificate a leader may propose on is for a view above the node's, and none the node
follows is for the last view there is. -/
structure Timely (trace : List (Moment B × Event B)) : Prop where
  reached : ∀ x ∈ trace, ∀ target ∈ x.2.certView, target ≤ x.1.view ∧ target + 1 ≠ 0
  room : ∀ x ∈ trace, ∀ target ∈ x.2.qcView, x.1.view = target → target + 1 ≠ 0

instance (trace : List (Moment B × Event B)) : Decidable (Timely trace) :=
  decidable_of_iff
    ((∀ x ∈ trace, x.2.certView.all fun target => target ≤ x.1.view ∧ target + 1 ≠ 0) ∧
      ∀ x ∈ trace, x.2.qcView.all fun target => x.1.view = target → target + 1 ≠ 0)
    (by simp only [Option.all_eq_true, decide_eq_true_eq]
        exact ⟨fun h => ⟨h.1, h.2⟩, fun h => ⟨h.reached, h.room⟩⟩)

theorem Timely.of_subset {trace trace' : List (Moment B × Event B)} (timely : Timely trace')
    (grown : trace ⊆ trace') : Timely trace :=
  ⟨fun x entry => timely.reached x (grown entry), fun x entry => timely.room x (grown entry)⟩

def ProposalOrder (x y : Moment B × Event B) : Prop :=
  ∀ p q, x.2 = .proposed p → y.2 = .proposed q → p.view < q.view

/-- In a timely history proposals have climbing views, up to the view of the node. -/
structure Climbing (w : ConsensusWorker B) : Prop where
  ordered : w.trace.Pairwise ProposalOrder
  bounded : ∀ m p, (m, .proposed p) ∈ w.trace → p.view ≤ w.state.view

def LeaderInv (w : ConsensusWorker B) : Prop := Timely w.trace → Climbing w

namespace LeaderInv

variable {w₀ w w' : ConsensusWorker B} {c : Call B}

theorem extend (inv : LeaderInv w) (new : List (Moment B × Event B))
    (trace : w'.trace = w.trace ++ new) (other : ∀ x ∈ new, x.2.isProposed = false)
    (kept : Timely w'.trace → w.state.view ≤ w'.state.view) : LeaderInv w' := by
  intro timely
  have before := inv (timely.of_subset (trace ▸ List.subset_append_left _ _))
  have none : ∀ x ∈ new, ∀ p, x.2 ≠ .proposed p := by
    intro x hx p same
    have silent := other x hx
    rw [same] at silent
    cases silent
  refine ⟨?_, ?_⟩
  · rw [trace]
    refine Runs.ordered_append before.ordered ?_
    intro y hy x p q _ same
    exact absurd same (none y hy q)
  · intro m p entry
    rw [trace] at entry
    rcases List.mem_append.mp entry with old | added
    · exact UInt64.le_trans (before.bounded m p old) (kept timely)
    · exact absurd rfl (none _ added p)

theorem emit (inv : LeaderInv w) (e : Event B) (other : e.isProposed = false) :
    LeaderInv (w.emit e) :=
  inv.extend [(w.state.moment, e)] rfl
    (fun x hx => by rw [List.mem_singleton.mp hx]; exact other) fun _ => UInt64.le_refl _

theorem frame (inv : LeaderInv w) (trace : w'.trace = w.trace)
    (kept : w'.state.view = w.state.view) : LeaderInv w' :=
  inv.extend [] (by simp [trace]) (by simp) fun _ => kept ▸ UInt64.le_refl _

theorem handleQc (inv : LeaderInv w) (qc : QC B) : LeaderInv (w.handleQc qc) := by
  refine inv.extend _ (handleQc_trace w qc) ?_ ?_
  · intro x hx
    rcases List.mem_cons.mp hx with rfl | reset
    · rfl
    · split at reset
      · rw [List.mem_singleton.mp reset]; rfl
      · cases reset
  · intro timely
    rw [handleQc_view]
    refine Certificate.le_advanced fun same =>
      timely.room (w.state.moment, .acceptQc qc) ?_ qc.view rfl same
    rw [handleQc_trace]
    simp

theorem acceptTc (inv : LeaderInv w) (tc : TC B)
    (trace : w'.trace = w.trace ++ [(w.state.moment, .acceptTc tc)])
    (moved : w'.state.view = advanced w.state.view tc.view) : LeaderInv w' := by
  refine inv.extend _ trace (by simp [Event.isProposed]) fun timely => ?_
  rw [moved]
  refine Certificate.le_advanced fun _ =>
    (timely.reached (w.state.moment, .acceptTc tc) ?_ tc.view rfl).2
  rw [trace]
  simp

theorem entered_view (may : MayPropose w₀ w) (timely : Timely w.trace) :
    w₀.state.view < w.state.view := by
  obtain ⟨m, e, target, entry, cert, fresh, near, moved⟩ := may.certified
  obtain ⟨reached, room⟩ := timely.reached (m, e) entry target cert
  rw [moved]
  unfold advanced
  split <;> grind

theorem propose (inv₀ : LeaderInv w₀) (inv : LeaderInv w) (grown : w₀.trace ⊆ w.trace)
    (may : MayPropose w₀ w) {p : Proposal B} (view : p.view = w.state.view) :
    LeaderInv (w.emit (.proposed p)) := by
  intro timely
  have sofar := timely.of_subset (List.subset_append_left w.trace _)
  have before := inv sofar
  have early := inv₀ (sofar.of_subset grown)
  refine ⟨?_, ?_⟩
  · refine Runs.ordered_snoc before.ordered ?_
    intro x hx q r first second
    cases second
    -- The call has made no proposal yet, so `q` is from before it.
    have old : x ∈ w₀.trace := may.first x hx (by rw [first]; rfl)
    obtain ⟨m, e⟩ := x
    dsimp only at first
    subst first
    rw [view]
    exact UInt64.lt_of_le_of_lt (early.bounded m q old) (entered_view may sofar)
  · intro m q entry
    rcases List.mem_append.mp entry with old | new
    · exact before.bounded m q old
    · cases List.mem_singleton.mp new
      exact view ▸ UInt64.le_refl _

theorem move {g : Setup B} (during : During g w₀ c w) (inv₀ : LeaderInv w₀) (inv : LeaderInv w)
    (move : Move w₀ c w w') : LeaderInv w' := by
  cases move with
  | note e quiet => exact inv.emit e (by cases e <;> first | rfl | cases quiet)
  | scratch | save | addTimeout | addVote => exact inv.frame rfl rfl
  | canFinalize | finalize | timedOut => exact inv.emit _ rfl
  | timer =>
    exact inv.extend [(_, .localTimer)] rfl (by simp [Event.isProposed]) fun _ => UInt64.le_refl _
  | verified p => exact (inv.emit (.verified p) rfl).handleQc p.qc
  | timeoutQc t => exact inv.handleQc t.highQc
  | collected v qc => exact (inv.emit (.collected qc) rfl).handleQc qc
  | proposalTc tc ahead =>
    have moved := congrArg ConsensusState.view (advanceView_state w tc.view (UInt64.le_of_lt ahead))
    have other : tc.view ≠ w.state.view := fun same => UInt64.lt_irrefl _ (same ▸ ahead)
    exact inv.frame rfl (moved.trans (if_neg other))
  | receivedTc tc called passed =>
    have ahead := ((ConsensusState.verifyTc_ok _ tc).mp passed).1
    exact inv.acceptTc tc rfl (congrArg ConsensusState.view
      (advanceView_state (w₀.emit (.acceptTc tc)) tc.view ahead))
  | formedTc t tc =>
    exact inv.acceptTc tc (by split <;> rfl) (formedTc_view w tc)
  | vote p v s called passed seen state current made =>
    obtain ⟨rfl, _⟩ := ConsensusState.makeVote_some made
    exact inv.extend [(_, .voted p v)] rfl (by simp [Event.isProposed]) fun _ => UInt64.le_refl _
  | voteFails p s made =>
    rcases ConsensusState.makeVote_none made with rfl | ⟨_, rfl⟩ <;> exact inv.frame rfl rfl
  | propose payload tc p made may =>
    exact propose inv₀ inv during.grown.subset may (ConsensusState.makeProposal_ok made).2.2.2.1

end LeaderInv

theorem leaderInv (g : Setup B) : Invariant g LeaderInv where
  start := fun _ => ⟨List.Pairwise.nil, fun _ _ entry => (nomatch entry)⟩
  observe _ _ inv := inv.frame rfl rfl
  enter _ c inv := inv.emit (.handled c) rfl
  move _ _ _ _ during inv₀ inv move := inv₀.move during inv move

/-- In a timely run a leader signs no two proposals of one view. -/
theorem no_leader_equivocation (g : Setup B) (actions : List (Action B))
    (timely : Timely (g.run actions).worker.trace) :
    ∀ m p m' p', (m, .proposed p) ∈ (g.run actions).worker.trace →
      (m', .proposed p') ∈ (g.run actions).worker.trace → p.view = p'.view →
      p.digest = p'.digest := by
  intro m p m' p' first second same
  have climbing := ((leaderInv g).run actions).2 timely
  rcases Runs.ordered_total climbing.ordered first second with equal | order | order
  · cases equal
    rfl
  · exact absurd same (UInt64.ne_of_lt (order p p' rfl rfl))
  · exact absurd same.symm (UInt64.ne_of_lt (order p' p rfl rfl))

/- A node on its own leads every view and proposes in views 1 and 2. -/
theorem no_leader_equivocation_alone :
    let trace := ((Symbolic.setup 0 0).run (.timer :: List.replicate 5 .resume)).worker.trace
    (trace.filter (·.2.isProposed)).length = 2 ∧ Timely trace ∧
      ∀ m p m' p', (m, .proposed p) ∈ trace → (m', .proposed p') ∈ trace → p.view = p'.view →
        p.digest = p'.digest :=
  ⟨by decide +kernel, by decide +kernel, no_leader_equivocation _ _ (by decide +kernel)⟩

/- The leader of view 1 is sent the same timeout certificate of view 100 twice, and between
the two the block at the head of its queue changes. -/
theorem leader_equivocates :
    let opening := Symbolic.signProposal ⟨QC.default, none, ⟨.leaf 7, 1⟩, 2, 2, none⟩
    let tc := Symbolic.timeoutCertificate [0, 2, 3] 100 0
    let trace := ((Symbolic.setup 3 1).run [.receive (.propose opening), .receive (.tc tc), .resume,
      .environment (Symbolic.environment 1 [⟨some (.leaf 8), 2⟩]), .receive (.tc tc)]).worker.trace
    let first := Symbolic.signProposal ⟨QC.default, none, ⟨.leaf 7, 1⟩, 1, 1, none⟩
    let second := Symbolic.signProposal ⟨QC.default, none, ⟨.leaf 8, 2⟩, 1, 1, none⟩
    (∃ x ∈ trace, x.2 = .proposed first) ∧ (∃ x ∈ trace, x.2 = .proposed second) ∧
      first.view = second.view ∧ first.digest ≠ second.digest := by
  decide +kernel

end Hotstuff
