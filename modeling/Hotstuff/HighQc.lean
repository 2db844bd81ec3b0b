import Hotstuff.Views

/-! `high_qc` against the certificates a node has accepted. -/
namespace Hotstuff

variable {B : BlockT}

open ConsensusWorker

/-- The view is the maximum of 0 and the views of the accepted certificates. -/
structure IsHighest (trace : List (Moment B × Event B)) (view : ViewNumber) : Prop where
  bound : ∀ m qc, (m, .acceptQc qc) ∈ trace → qc.view ≤ view
  attained : view = 0 ∨ ∃ m qc, (m, .acceptQc qc) ∈ trace ∧ qc.view = view

def Unaccepting (before after : List (Moment B × Event B)) : Prop :=
  ∀ m qc, (m, .acceptQc qc) ∈ after → (m, .acceptQc qc) ∈ before

/-- A call accepts no certificate, or one, in the state it is entered in. -/
def AcceptsOne (w₀ w : ConsensusWorker B) : Prop :=
  Unaccepting w₀.trace w.trace ∧ w.state.highQc = w₀.state.highQc ∨
    ∃ qc, (w₀.state.moment, .acceptQc qc) ∈ w.trace ∧
      (∀ m' qc', (m', .acceptQc qc') ∈ w.trace →
        (m', .acceptQc qc') ∈ w₀.trace ∨ m' = w₀.state.moment ∧ qc' = qc) ∧
      w.state.highQc = w₀.state.moment.highQcAfter qc

namespace AcceptsOne

variable {w₀ w w' : ConsensusWorker B} {c : Call B}

theorem frame (one : AcceptsOne w₀ w) (grown : w.trace ⊆ w'.trace)
    (none : Unaccepting w.trace w'.trace) (same : w'.state.highQc = w.state.highQc) :
    AcceptsOne w₀ w' := by
  rcases one with ⟨sofar, kept⟩ | ⟨qc, entry, only, made⟩
  · exact .inl ⟨fun m qc entry => sofar m qc (none m qc entry), same.trans kept⟩
  · exact .inr ⟨qc, grown entry, fun m' qc' found => only m' qc' (none m' qc' found),
      same.trans made⟩

theorem unaccepting_snoc (trace : List (Moment B × Event B)) (m : Moment B) (e : Event B)
    (other : ∀ qc, e ≠ .acceptQc qc) : Unaccepting trace (trace ++ [(m, e)]) := by
  intro m' qc entry
  rcases List.mem_append.mp entry with old | new
  · exact old
  · exact absurd (congrArg Prod.snd (List.mem_singleton.mp new)).symm (other qc)

theorem emit (one : AcceptsOne w₀ w) (e : Event B) (other : ∀ qc, e ≠ .acceptQc qc) :
    AcceptsOne w₀ (w.emit e) :=
  one.frame (List.subset_append_left _ _) (unaccepting_snoc _ _ _ other) rfl

theorem of_handleQc (w₀ w : ConsensusWorker B) (moment : w.state.moment = w₀.state.moment)
    (start : Unaccepting w₀.trace w.trace) (qc : QC B) : AcceptsOne w₀ (w.handleQc qc) := by
  refine .inr ⟨qc, ?_, ?_, ?_⟩
  · rw [handleQc_trace, moment]
    simp
  · intro m' qc' entry
    rw [handleQc_trace, moment] at entry
    rcases List.mem_append.mp entry with old | new
    · exact .inl (start m' qc' old)
    · split at new
      · simp only [List.mem_cons, Prod.mk.injEq, Event.acceptQc.injEq, reduceCtorEq, and_false,
          List.not_mem_nil, or_false] at new
        exact .inr new
      · simp only [List.mem_singleton, Prod.mk.injEq, Event.acceptQc.injEq] at new
        exact .inr new
  · rw [handleQc_state, ← moment]
    rfl

theorem move (one : AcceptsOne w₀ w) (move : Move w₀ c w w') : AcceptsOne w₀ w' := by
  cases move with
  | note e quiet =>
    refine one.emit e ?_
    rintro qc rfl
    cases quiet
  | scratch | save | addVote | addTimeout =>
    exact one.frame (List.Subset.refl _) (fun _ _ h => h) rfl
  | canFinalize | finalize | timedOut | propose => exact one.emit _ (by simp)
  | timer =>
    exact one.frame (List.subset_append_left _ _) (unaccepting_snoc _ _ _ (by simp)) rfl
  | proposalTc tc =>
    exact one.frame (List.Subset.refl _) (fun _ _ h => h) (advanceView_highQc _ _)
  | receivedTc tc =>
    exact one.frame (List.subset_append_left _ _) (unaccepting_snoc _ _ _ (by simp))
      (advanceView_highQc _ _)
  | formedTc t tc =>
    split
    · exact one.frame (List.subset_append_left _ _) (unaccepting_snoc _ _ _ (by simp))
        (advanceView_highQc _ _)
    · exact one.emit _ (by simp)
  | vote p v s called passed seen state current made =>
    obtain ⟨rfl, _⟩ := ConsensusState.makeVote_some made
    exact one.frame (List.subset_append_left _ _) (unaccepting_snoc _ _ _ (by simp)) rfl
  | voteFails p s made =>
    rcases ConsensusState.makeVote_none made with rfl | ⟨_, rfl⟩ <;>
      exact one.frame (List.Subset.refl _) (fun _ _ h => h) rfl
  | verified p =>
    have none := unaccepting_snoc w₀.trace w₀.state.moment (.verified p) (by simp)
    exact of_handleQc w₀ (w₀.emit (.verified p)) rfl none p.qc
  | timeoutQc t => exact of_handleQc w₀ w₀ rfl (fun _ _ h => h) t.highQc
  | collected v qc called passed moment start =>
    have none := unaccepting_snoc w.trace w.state.moment (.collected qc) (by simp)
    exact of_handleQc w₀ (w.emit (.collected qc)) moment
      (fun m qc' entry => start ▸ none m qc' entry) qc

end AcceptsOne

theorem handle_acceptsOne (w : ConsensusWorker B) (c : Call B) : AcceptsOne w (w.handle c).1 :=
  handle_induction (AcceptsOne w) (.inl ⟨fun _ _ h => h, rfl⟩) fun _ _ one move => one.move move

theorem Node.step_acceptsOne (n : Node B) (a : Action B) :
    AcceptsOne n.worker (n.step a).worker := by
  rcases n.step_cases a with ⟨env, seen⟩ | ⟨c, _, entered⟩
  · rw [seen]
    exact .inl ⟨fun _ _ h => h, rfl⟩
  · rw [entered]
    have none := AcceptsOne.unaccepting_snoc n.worker.trace n.worker.state.moment (.handled c)
      (by simp)
    rcases handle_acceptsOne (n.worker.emit (.handled c)) c with
      ⟨quiet, kept⟩ | ⟨qc, entry, only, made⟩
    · exact .inl ⟨fun m qc entry => none m qc (quiet m qc entry), kept⟩
    · exact .inr ⟨qc, entry, fun m qc' found => (only m qc' found).imp_left (none m qc'), made⟩

/-- Every certificate the run accepts is for a view not behind the node's or not above the
`highQc` it has at that moment. -/
def Setup.DropsNone (g : Setup B) (actions : List (Action B)) : Prop :=
  ∀ m qc, (m, .acceptQc qc) ∈ (g.run actions).worker.trace →
    m.view ≤ qc.view ∨ qc.view ≤ m.highQc.view

/-- A call keeps `highQc` the highest exactly if the certificate it accepts is not dropped. -/
theorem AcceptsOne.highest {w w' : ConsensusWorker B} (one : AcceptsOne w w')
    (grown : w.trace ⊆ w'.trace) (highest : IsHighest w.trace w.state.highQc.view) :
    IsHighest w'.trace w'.state.highQc.view ↔
      ∀ m qc, (m, .acceptQc qc) ∈ w'.trace → (m, .acceptQc qc) ∈ w.trace ∨
        m.view ≤ qc.view ∨ qc.view ≤ m.highQc.view := by
  rcases one with ⟨none, kept⟩ | ⟨qc, entry, only, made⟩
  · rw [kept]
    refine ⟨fun _ m qc entry => .inl (none m qc entry), fun _ => ⟨?_, ?_⟩⟩
    · exact fun m qc entry => highest.bound m qc (none m qc entry)
    · refine highest.attained.imp_right ?_
      rintro ⟨m, qc, entry, same⟩
      exact ⟨m, qc, grown entry, same⟩
  · rw [made, Moment.highQcAfter]
    have position : w.state.moment.highQc = w.state.highQc := rfl
    split
    · rename_i taken
      refine ⟨fun _ m' qc' found => ?_, fun _ => ⟨?_, .inr ⟨_, qc, entry, rfl⟩⟩⟩
      · rcases only m' qc' found with old | ⟨rfl, rfl⟩
        · exact .inl old
        · exact .inr (.inl taken.1)
      · intro m' qc' found
        rcases only m' qc' found with old | ⟨rfl, rfl⟩
        · exact UInt64.le_trans (highest.bound m' qc' old) (UInt64.le_of_lt taken.2)
        · exact UInt64.le_refl _
    · rename_i left
      rw [position]
      constructor
      · intro after m' qc' found
        rcases only m' qc' found with old | ⟨rfl, rfl⟩
        · exact .inl old
        · exact .inr (.inr (after.bound _ qc' found))
      · intro allowed
        refine ⟨fun m' qc' found => ?_, ?_⟩
        · rcases only m' qc' found with old | ⟨rfl, rfl⟩
          · exact highest.bound m' qc' old
          · -- The certificate was not taken, so it is not above `highQc` if it is not behind.
            rcases allowed _ qc' found with old | reached | below
            · exact highest.bound _ qc' old
            · exact UInt64.not_lt.mp fun above => left ⟨reached, above⟩
            · exact below
        · refine highest.attained.imp_right ?_
          rintro ⟨m, qc, entry, same⟩
          exact ⟨m, qc, grown entry, same⟩

/-- `high_qc` is the highest certificate the node has accepted, all along a run, exactly if
every accepted certificate above it comes while the node has not passed its view. -/
theorem high_qc_is_highest_iff (g : Setup B) (actions : List (Action B)) :
    (∀ first, first <+: actions →
      IsHighest (g.run first).worker.trace (g.run first).worker.state.highQc.view) ↔
    g.DropsNone actions := by
  induction actions using List.reverseRecOn with
  | nil =>
    refine ⟨fun _ _ _ entry => (nomatch entry), fun _ first before => ?_⟩
    rw [List.prefix_nil.mp before]
    exact ⟨fun _ _ entry => (nomatch entry), .inl rfl⟩
  | append_singleton actions a ih =>
    have grown : (g.run actions).worker.trace ⊆ (g.run (actions ++ [a])).worker.trace := by
      rw [g.run_snoc]
      exact ((g.run actions).step_trace a).subset
    have step : IsHighest (g.run actions).worker.trace (g.run actions).worker.state.highQc.view →
        (IsHighest (g.run (actions ++ [a])).worker.trace
          (g.run (actions ++ [a])).worker.state.highQc.view ↔ _) :=
      fun highest => AcceptsOne.highest (g.run_snoc actions a ▸ (g.run actions).step_acceptsOne a)
        grown highest
    constructor
    · intro all
      have before := ih.mp fun first sofar => all first (sofar.trans (List.prefix_append _ _))
      intro m qc entry
      rcases (step (all actions (List.prefix_append _ _))).mp (all _ List.prefix_rfl) m qc entry
        with old | kept
      · exact before m qc old
      · exact kept
    · intro kept first sofar
      have all := ih.mpr fun m qc entry => kept m qc (grown entry)
      rcases List.prefix_concat_iff.mp sofar with rfl | earlier
      · exact (step (all actions List.prefix_rfl)).mpr fun m qc entry => .inr (kept m qc entry)
      · exact all first earlier

/- Node 0 of four gets from view 1 to view 2 by a timeout certificate; the certificate of
view 1 then comes in with the proposal of view 2, is accepted and dropped. -/
theorem high_qc_not_highest :
    let payload : Payload symbolic := ⟨.leaf 7, 1⟩
    let first := Symbolic.signProposal ⟨QC.default, none, payload, 1, 1, none⟩
    let second := Symbolic.signProposal
      ⟨Symbolic.certificate [1, 2, 3] first.digest 1, none, payload, 2, 2, none⟩
    let worker := ((Symbolic.setup 3 0).run [.receive (.propose first),
      .receive (.tc (Symbolic.timeoutCertificate [1, 2, 3] 1 0)),
      .receive (.propose second)]).worker
    (∃ x ∈ worker.trace, x.2 = .acceptQc second.qc) ∧
      worker.state.highQc.view < second.qc.view := by
  decide +kernel

end Hotstuff
