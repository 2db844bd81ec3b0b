import Hotstuff.Gossip

/-! Which certificates the handlers act on, and which of them have been verified. -/
namespace Hotstuff

variable {B : BlockT}

open ConsensusWorker

/-- Neither the view nor `highQc` has moved, and the timer was not reset. -/
structure Untouched (w w' : ConsensusWorker B) : Prop where
  view : w'.state.view = w.state.view
  highQc : w'.state.highQc = w.state.highQc
  timer : Adds (fun _ e => e ≠ .resetTimer) w w'

namespace Untouched

variable {w w' w'' : ConsensusWorker B}

theorem refl : Untouched w w := ⟨rfl, rfl, .refl⟩

theorem trans (first : Untouched w w') (second : Untouched w' w'') : Untouched w w'' :=
  ⟨second.view.trans first.view, second.highQc.trans first.highQc, first.timer.trans second.timer⟩

theorem emit {e : Event B} (other : e ≠ .resetTimer) : Untouched w (w.emit e) :=
  ⟨rfl, rfl, Adds.refl.emit other⟩

theorem not_reset : ¬ Untouched w (w'.emit .resetTimer) ∨ ¬ w.trace <+: w'.trace := by
  by_cases grown : w.trace <+: w'.trace
  · refine .inl fun untouched => ?_
    obtain ⟨new, trace, quiet⟩ := untouched.timer
    obtain ⟨more, same⟩ := grown
    rw [emit_trace, ← same, List.append_assoc] at trace
    have reset : (w'.state.moment, Event.resetTimer) ∈ new := by
      rw [← List.append_cancel_left trace]
      simp
    exact quiet _ _ reset rfl
  · exact .inr grown

end Untouched

namespace Certificate

/-- The part of a handler that processes a certificate received with the call: `before` and
`after` are the worker on both sides of it, in the call entered in `w`. -/
def Processes (w before after : ConsensusWorker B) : Certificate B → Prop
  | proposalQc p => w.Receives p ∧ before = w.emit (.verified p) ∧ after = before.handleQc p.qc
  | proposalTc p tc => w.Receives p ∧ p.tc = some tc ∧
      before = (w.emit (.verified p)).handleQc p.qc ∧ after = before.handleProposalTc (some tc)
  | timeoutQc t => (w.state.view ≤ t.view ∧ w.state.verifyTimeout t = .ok ()) ∧ before = w ∧
      after = before.handleQc t.highQc
  | receivedTc tc => w.state.verifyTc tc = .ok () ∧ before = w.emit (.acceptTc tc) ∧
      after = (before.advanceView tc.view).emit .resetTimer
  | formedTc _ _ | collectedQc _ _ => False

/-- The handler advances the view, resets the timer or replaces `highQc` on the certificate. -/
def Used (w : ConsensusWorker B) (cert : Certificate B) : Prop :=
  ∃ before after, cert.Processes w before after ∧ ¬ Untouched before after

def Verified (authorities : AuthorityList B) : Certificate B → Prop
  | proposalQc p => p.qc.eq QC.default = true ∨ p.qc.verify authorities = .ok ()
  | timeoutQc t => t.highQc.eq QC.default = true ∨ t.highQc.verify authorities = .ok ()
  | collectedQc _ qc => qc.verify authorities = .ok ()
  | proposalTc _ tc | formedTc _ tc | receivedTc tc => tc.verify authorities = .ok ()

theorem proposalTc_used {w : ConsensusWorker B} {p : Proposal B} {tc : TC B}
    (received : w.Receives p) (carried : p.tc = some tc)
    (ahead : advanced w.state.view p.qc.view < tc.view) : (proposalTc p tc).Used w := by
  refine ⟨_, _, ⟨received, carried, rfl, rfl⟩, ?_⟩
  have guard : ((w.emit (.verified p)).handleQc p.qc).state.view < tc.view := by
    rw [handleQc_view]
    exact ahead
  simp only [handleProposalTc, if_pos guard]
  exact Untouched.not_reset.resolve_right (not_not.mpr List.prefix_rfl)

/-- All the received certificates that are acted on have been verified, unless it is the one
that no check of a proposal looks at. -/
theorem verified_of_used {w : ConsensusWorker B} {cert : Certificate B} (used : cert.Used w) :
    cert.Verified w.state.authorities ∨ ∃ p tc, cert = proposalTc p tc ∧ w.Receives p ∧
      p.tc = some tc ∧ advanced w.state.view p.qc.view < tc.view := by
  obtain ⟨before, after, processes, acts⟩ := used
  cases cert with
  | proposalQc p =>
    obtain ⟨⟨_, passed⟩, _⟩ := processes
    have verified := ((w.state.verifyProposal_ok p).mp passed).2
    exact .inl ((p.verify_ok _).mp verified).2
  | timeoutQc t =>
    obtain ⟨⟨_, passed⟩, _⟩ := processes
    exact .inl ((t.verify_ok _).mp passed).2
  | receivedTc tc => exact .inl ((w.state.verifyTc_ok tc).mp processes.1).2
  | formedTc | collectedQc => exact processes.elim
  | proposalTc p tc =>
    obtain ⟨received, carried, rfl, rfl⟩ := processes
    by_cases ahead : ((w.emit (.verified p)).handleQc p.qc).state.view < tc.view
    · rw [handleQc_view] at ahead
      exact .inr ⟨p, tc, rfl, received, carried, ahead⟩
    · simp only [handleProposalTc, if_neg ahead] at acts
      exact absurd .refl acts

/-! ### Nothing else moves -/

theorem untouched_of_tail {w w' : ConsensusWorker B} {s : ConsensusState B}
    (view : w'.state.view = w.state.view) (highQc : w'.state.highQc = w.state.highQc)
    (adds : Adds (Tail s) w w') : Untouched w w' :=
  ⟨view, highQc, adds.mono fun _ _ tail => tail.2⟩

theorem handleProposal_untouched {w : ConsensusWorker B} {p : Proposal B}
    (unused : ∀ cert : Certificate B, cert.call = .proposal p → ¬ cert.Used w) :
    Untouched w (w.handleProposal p).1 := by
  -- A part of the handler that is not used leaves the worker untouched.
  have idle (cert : Certificate B) {before after} (called : cert.call = .proposal p)
      (processes : cert.Processes w before after) : Untouched before after :=
    not_not.mp fun acts => unused cert called ⟨_, _, processes, acts⟩
  unfold handleProposal
  split
  · exact .refl
  · exact .emit nofun
  · rename_i payload
    split
    · exact .refl
    · rename_i verified
      have received : w.Receives p := ⟨payload, verified⟩
      have first : Untouched w (w.emit (.verified p)) := .emit nofun
      have second := first.trans (idle (proposalQc p) rfl ⟨received, rfl, rfl⟩)
      have third : Untouched w (((w.emit (.verified p)).handleQc p.qc).handleProposalTc p.tc) := by
        cases carried : p.tc with
        | none => exact second
        | some tc =>
          exact second.trans (idle (proposalTc p tc) rfl ⟨received, carried, rfl, rfl⟩)
      dsimp only
      split
      · exact third
      · rename_i s _
        have state := (tryFinalize_frame { ((w.emit (.verified p)).handleQc p.qc).handleProposalTc
          p.tc with synchronizer := s } p).1
        obtain ⟨view, highQc⟩ := voteFor_position ({ ((w.emit (.verified p)).handleQc
          p.qc).handleProposalTc p.tc with synchronizer := s }.tryFinalize p) p
        rw [state] at view highQc
        exact third.trans (untouched_of_tail view highQc (finishProposal_adds s p))

/-- A call other than that of the timer moves nothing unless it uses a received certificate or
forms one of its own. -/
theorem used_or_formed {w : ConsensusWorker B} {c : Call B} (other : c ≠ .localTimer)
    (touched : ¬ Untouched w (w.handle c).1) :
    ∃ cert : Certificate B, cert.call = c ∧ (cert.Used w ∨ cert.Accepted w ∧
      ((∃ t tc, cert = formedTc t tc) ∨ ∃ v qc, cert = collectedQc v qc)) := by
  cases c with
  | localTimer => exact absurd rfl other
  | proposal p =>
    by_contra none
    push Not at none
    exact touched (handleProposal_untouched fun cert called => (none cert called).1)
  | tc tc =>
    by_cases verified : w.state.verifyTc tc = .ok ()
    · refine ⟨receivedTc tc, rfl, .inl ⟨_, _, ⟨verified, rfl, rfl⟩, ?_⟩⟩
      exact Untouched.not_reset.resolve_right (not_not.mpr List.prefix_rfl)
    · rw [handle, (handleTc_rejected w tc verified).1] at touched
      exact absurd .refl touched
  | vote v =>
    by_cases verified : w.state.verifyVote v = .ok ()
    · by_cases complete : ∃ qc, (w.state.addVote v).2 = .ok (some qc)
      · obtain ⟨qc, formed⟩ := complete
        exact ⟨collectedQc v qc, rfl, .inr ⟨⟨verified, formed⟩, .inr ⟨v, qc, rfl⟩⟩⟩
      · rw [handle, handleVote_counted w v verified (not_exists.mp complete)] at touched
        exact absurd ⟨rfl, rfl, .of_eq rfl⟩ touched
    · rw [handle, (handleVote_rejected w v verified).1] at touched
      exact absurd .refl touched
  | timeout t =>
    by_cases accepted : w.state.view ≤ t.view ∧ w.state.verifyTimeout t = .ok ()
    · by_cases complete : ∃ tc, ((w.handleQc t.highQc).state.addTimeout t).2 = .ok (some tc)
      · obtain ⟨tc, formed⟩ := complete
        exact ⟨formedTc t tc, rfl, .inr ⟨⟨accepted, formed⟩, .inl ⟨t, tc, rfl⟩⟩⟩
      · -- Only the `high_qc` of the timeout is left to act on.
        refine ⟨timeoutQc t, rfl, .inl ⟨_, _, ⟨accepted, rfl, rfl⟩, fun untouched => ?_⟩⟩
        rw [handle, handleTimeout_counted w t accepted (not_exists.mp complete)] at touched
        exact touched (untouched.trans ⟨rfl, rfl, .of_eq rfl⟩)
    · rw [handle, (handleTimeout_rejected w t accepted).1] at touched
      exact absurd .refl touched

end Certificate

/-- In any state a call acts on verified certificates only, exactly if it does not bring a
proposal whose TC is ahead of the view its QC leaves the node in and fails verification. -/
theorem acts_on_verified_iff (w : ConsensusWorker B) (c : Call B) :
    (c ≠ .localTimer → ¬ Untouched w (w.handle c).1 → ∃ cert : Certificate B, cert.call = c ∧
      (cert.Used w ∨ cert.Accepted w ∧
        ((∃ t tc, cert = .formedTc t tc) ∨ ∃ v qc, cert = .collectedQc v qc))) ∧
    ((∀ cert : Certificate B, cert.call = c → cert.Used w →
        cert.Verified w.state.authorities) ↔
      ∀ p tc, c = .proposal p → w.Receives p → p.tc = some tc →
        advanced w.state.view p.qc.view < tc.view → tc.verify w.state.authorities = .ok ()) := by
  refine ⟨Certificate.used_or_formed, ?_, ?_⟩
  · rintro verified p tc rfl received carried ahead
    exact verified (.proposalTc p tc) rfl (Certificate.proposalTc_used received carried ahead)
  · rintro condition cert rfl used
    rcases Certificate.verified_of_used used with verified | ⟨p, tc, rfl, received, carried, ahead⟩
    · exact verified
    · exact condition p tc rfl received carried ahead

/- A signed proposal of view 1 with a grafted TC that nobody has signed resets the timer. -/
theorem acts_on_unverified :
    let w := (Symbolic.setup 3 0).start.worker
    let tc : TC symbolic := ⟨7, []⟩
    let p := Symbolic.signProposal ⟨QC.default, some tc, ⟨.leaf 7, 1⟩, 1, 1, none⟩
    (Certificate.proposalTc p tc).Used w ∧ tc.verify w.state.authorities ≠ .ok () :=
  ⟨Certificate.proposalTc_used ⟨by decide +kernel, by decide +kernel⟩ rfl (by decide +kernel),
    by decide +kernel⟩

end Hotstuff
