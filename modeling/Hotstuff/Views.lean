import Hotstuff.Moves
import Hotstuff.Symbolic
import Mathlib.Data.List.Induction

/-! How a call moves the view and `highQc`, and which certificates the view keeps up with. -/
namespace Hotstuff

variable {B : BlockT}

namespace ConsensusWorker

theorem getProposalPayload_state {w w' : ConsensusWorker B} {payload : Option (Payload B)}
    (chosen : w.getProposalPayload = (w', payload)) : w'.state = w.state := by
  obtain ⟨processing, frame⟩ := getProposalPayload_frame w
  rw [chosen] at frame
  rw [show w' = _ from frame]

theorem generateProposal_state (w : ConsensusWorker B) (tc : Option (TC B)) :
    (w.generateProposal tc).1.state = w.state := by
  unfold generateProposal
  split
  · rename_i chosen
    exact getProposalPayload_state chosen
  · rename_i chosen
    have same := getProposalPayload_state chosen
    split <;> exact same

theorem proposeOnQc_state (w : ConsensusWorker B) : w.proposeOnQc.1.state = w.state := by
  unfold proposeOnQc
  split
  · rename_i chosen
    exact getProposalPayload_state chosen
  · rename_i chosen
    have same := getProposalPayload_state chosen
    split
    · exact same
    · dsimp only
      split <;> exact same

theorem voteFor_position (w : ConsensusWorker B) (p : Proposal B) :
    (w.voteFor p).1.state.view = w.state.view ∧ (w.voteFor p).1.state.highQc = w.state.highQc := by
  unfold voteFor
  split
  · exact ⟨rfl, rfl⟩
  · split
    · rename_i s made
      rcases ConsensusState.makeVote_none made with rfl | ⟨_, rfl⟩ <;> exact ⟨rfl, rfl⟩
    · rename_i s v made
      obtain ⟨rfl, _⟩ := ConsensusState.makeVote_some made
      dsimp only
      split <;> exact ⟨rfl, rfl⟩

theorem handleLocalTimer_position (w : ConsensusWorker B) :
    w.handleLocalTimer.1.state.view = w.state.view ∧
      w.handleLocalTimer.1.state.highQc = w.state.highQc := by
  unfold handleLocalTimer
  dsimp only
  split <;> exact ⟨rfl, rfl⟩

/-- A proposal counts as received when its payload is known and its checks pass. -/
def Receives (w : ConsensusWorker B) (p : Proposal B) : Prop :=
  w.checkPayload p.payload = .ok true ∧ w.state.verifyProposal p = .ok ()

/-- The certificate of a received proposal is all in it that moves the view. -/
theorem handleProposal_position (w : ConsensusWorker B) (p : Proposal B) :
    (w.Receives p → (w.handleProposal p).1.state.view = (w.handleQc p.qc).state.view ∧
      (w.handleProposal p).1.state.highQc = (w.handleQc p.qc).state.highQc) ∧
    (¬ w.Receives p → (w.handleProposal p).1.state = w.state) := by
  unfold handleProposal
  cases payload : w.checkPayload p.payload with
  | error e => exact ⟨fun received => absurd received.1 (by simp [payload]), fun _ => rfl⟩
  | ok known =>
    cases known with
    | false => exact ⟨fun received => absurd received.1 (by simp [payload]), fun _ => rfl⟩
    | true =>
      cases verified : w.state.verifyProposal p with
      | error e => exact ⟨fun received => absurd received.2 (by simp [verified]), fun _ => rfl⟩
      | ok passed =>
        refine ⟨fun _ => ?_, fun missing => absurd ⟨payload, verified⟩ missing⟩
        have certified : (((w.emit (.verified p)).handleQc p.qc).handleProposalTc p.tc).state =
            (w.handleQc p.qc).state := by
          rw [handleProposalTc_state, handleQc_state, handleQc_state]
          rfl
        dsimp only
        split
        · exact ⟨congrArg ConsensusState.view certified, congrArg ConsensusState.highQc certified⟩
        · rename_i s saved
          have voted := voteFor_position ({ ((w.emit (.verified p)).handleQc p.qc).handleProposalTc
            p.tc with synchronizer := s }.tryFinalize p) p
          rw [(tryFinalize_frame _ p).1] at voted
          exact certified ▸ voted

theorem announceTc_state (w : ConsensusWorker B) (tc : TC B) :
    (w.announceTc tc).1.state = w.state := by
  unfold announceTc
  dsimp only
  split
  · exact generateProposal_state _ _
  · rfl

theorem handleFormedTc_position (w : ConsensusWorker B) (tc : TC B) :
    (w.handleFormedTc tc).1.state.view = advanced w.state.view tc.view ∧
      (w.handleFormedTc tc).1.state.highQc = w.state.highQc := by
  have entered := formedTc_view w tc
  by_cases ahead : w.state.view ≤ tc.view
  · rw [if_pos ahead] at entered
    rw [handleFormedTc_ahead ahead, announceTc_state]
    exact ⟨entered, advanceView_highQc _ _⟩
  · rw [if_neg ahead] at entered
    rw [handleFormedTc_behind ahead, announceTc_state]
    exact ⟨entered, rfl⟩

theorem handleTimeout_position (w : ConsensusWorker B) (t : Timeout B)
    (fresh : w.state.view ≤ t.view) (verified : w.state.verifyTimeout t = .ok ()) :
    (w.handleTimeout t).1.state.view =
        (match ((w.handleQc t.highQc).state.addTimeout t).2 with
        | .ok (some tc) => advanced (w.handleQc t.highQc).state.view tc.view
        | _ => (w.handleQc t.highQc).state.view) ∧
      (w.handleTimeout t).1.state.highQc = (w.handleQc t.highQc).state.highQc := by
  unfold handleTimeout
  rw [if_neg (UInt64.not_lt.mpr fresh), verified]
  dsimp only
  split
  · rename_i e formed
    rw [formed]
    exact ⟨rfl, rfl⟩
  · rename_i formed
    rw [formed]
    exact ⟨rfl, rfl⟩
  · rename_i tc formed
    rw [formed]
    exact handleFormedTc_position _ tc

theorem handleVote_position (w : ConsensusWorker B) (v : Vote B)
    (verified : w.state.verifyVote v = .ok ()) :
    (w.handleVote v).1.state.view =
        (match (w.state.addVote v).2 with
        | .ok (some qc) => (w.handleQc qc).state.view
        | _ => w.state.view) ∧
      (w.handleVote v).1.state.highQc =
        (match (w.state.addVote v).2 with
        | .ok (some qc) => (w.handleQc qc).state.highQc
        | _ => w.state.highQc) := by
  unfold handleVote
  rw [verified]
  dsimp only
  split
  · rename_i e formed
    rw [formed]
    exact ⟨rfl, rfl⟩
  · rename_i formed
    rw [formed]
    exact ⟨rfl, rfl⟩
  · rename_i qc formed
    rw [formed]
    have collected : ∀ o : Outcome B,
        o.1.state = (({ w with state := (w.state.addVote v).1 }.emit (.collected qc)).handleQc
          qc).state → o.1.state.view = (w.handleQc qc).state.view ∧
          o.1.state.highQc = (w.handleQc qc).state.highQc := by
      intro o same
      rw [same, handleQc_state, handleQc_state]
      exact ⟨rfl, rfl⟩
    split
    · exact collected _ (proposeOnQc_state _)
    · exact collected _ rfl

theorem handleTc_position (w : ConsensusWorker B) (tc : TC B)
    (verified : w.state.verifyTc tc = .ok ()) :
    (w.handleTc tc).1.state.view = advanced w.state.view tc.view ∧
      (w.handleTc tc).1.state.highQc = w.state.highQc := by
  have ahead := ((w.state.verifyTc_ok tc).mp verified).1
  have moved := congrArg ConsensusState.view
    (advanceView_state (w.emit (.acceptTc tc)) tc.view ahead)
  unfold handleTc
  rw [verified]
  dsimp only
  split
  · rw [generateProposal_state]
    exact ⟨moved, advanceView_highQc _ _⟩
  · exact ⟨moved, advanceView_highQc _ _⟩

/-! A message that fails the checks of its handler leaves the worker as it is, and no call
comes after it. -/

theorem handleTimeout_rejected (w : ConsensusWorker B) (t : Timeout B)
    (rejected : ¬ (w.state.view ≤ t.view ∧ w.state.verifyTimeout t = .ok ())) :
    (w.handleTimeout t).1 = w ∧ ∀ c, (w.handleTimeout t).2 ≠ .ok (some c) := by
  unfold handleTimeout
  split
  · exact ⟨rfl, nofun⟩
  · rename_i fresh
    split
    · exact ⟨rfl, nofun⟩
    · rename_i passed
      exact absurd ⟨UInt64.not_lt.mp fresh, passed⟩ rejected

theorem handleVote_rejected (w : ConsensusWorker B) (v : Vote B)
    (rejected : w.state.verifyVote v ≠ .ok ()) :
    (w.handleVote v).1 = w ∧ ∀ c, (w.handleVote v).2 ≠ .ok (some c) := by
  unfold handleVote
  split
  · exact ⟨rfl, nofun⟩
  · rename_i passed
    exact absurd passed rejected

theorem handleTc_rejected (w : ConsensusWorker B) (tc : TC B)
    (rejected : w.state.verifyTc tc ≠ .ok ()) :
    (w.handleTc tc).1 = w ∧ ∀ c, (w.handleTc tc).2 ≠ .ok (some c) := by
  unfold handleTc
  split
  · exact ⟨rfl, nofun⟩
  · rename_i passed
    exact absurd passed rejected

/-! An accepted message that completes no certificate is counted, and that is all. -/

theorem handleTimeout_counted (w : ConsensusWorker B) (t : Timeout B)
    (accepted : w.state.view ≤ t.view ∧ w.state.verifyTimeout t = .ok ())
    (incomplete : ∀ tc, ((w.handleQc t.highQc).state.addTimeout t).2 ≠ .ok (some tc)) :
    (w.handleTimeout t).1 = { w.handleQc t.highQc with
      state := ((w.handleQc t.highQc).state.addTimeout t).1 } := by
  unfold handleTimeout
  rw [if_neg (UInt64.not_lt.mpr accepted.1), accepted.2]
  dsimp only
  split
  · rfl
  · rfl
  · rename_i tc formed
    exact absurd formed (incomplete tc)

theorem handleVote_counted (w : ConsensusWorker B) (v : Vote B)
    (verified : w.state.verifyVote v = .ok ())
    (incomplete : ∀ qc, (w.state.addVote v).2 ≠ .ok (some qc)) :
    (w.handleVote v).1 = { w with state := (w.state.addVote v).1 } := by
  unfold handleVote
  rw [verified]
  dsimp only
  split
  · rfl
  · rfl
  · rename_i qc formed
    exact absurd formed (incomplete qc)

end ConsensusWorker

open ConsensusWorker

/-- A certificate by the way it comes into a handler. -/
inductive Certificate (B : BlockT) where
  | proposalQc (proposal : Proposal B)
  | proposalTc (proposal : Proposal B) (tc : TC B)
  | timeoutQc (timeout : Timeout B)
  | formedTc (timeout : Timeout B) (tc : TC B)
  | collectedQc (vote : Vote B) (qc : QC B)
  | receivedTc (tc : TC B)

namespace Certificate

def call : Certificate B → Call B
  | proposalQc p | proposalTc p _ => .proposal p
  | timeoutQc t | formedTc t _ => .timeout t
  | collectedQc v _ => .vote v
  | receivedTc tc => .tc tc

def view : Certificate B → ViewNumber
  | proposalQc p => p.qc.view
  | timeoutQc t => t.highQc.view
  | collectedQc _ qc => qc.view
  | proposalTc _ tc | formedTc _ tc | receivedTc tc => tc.view

def Accepted (w : ConsensusWorker B) : Certificate B → Prop
  | proposalQc p => w.Receives p
  | proposalTc p tc => w.Receives p ∧ p.tc = some tc ∧ tc.verify w.state.authorities = .ok ()
  | timeoutQc t => w.state.view ≤ t.view ∧ w.state.verifyTimeout t = .ok ()
  | formedTc t tc => (w.state.view ≤ t.view ∧ w.state.verifyTimeout t = .ok ()) ∧
      ((w.handleQc t.highQc).state.addTimeout t).2 = .ok (some tc)
  | collectedQc v qc => w.state.verifyVote v = .ok () ∧ (w.state.addVote v).2 = .ok (some qc)
  | receivedTc tc => w.state.verifyTc tc = .ok ()

/-- The certificate is for the view the node is in. A TC formed on a timeout may also be for
the view after, if the certificate in that timeout is for the view; the TC of a proposal has
to come with such a certificate. -/
def InStep (current : ViewNumber) : Certificate B → Prop
  | proposalTc p tc => tc.view = current ∧ p.qc.view = current
  | formedTc t tc => tc.view = current ∨ t.highQc.view = current ∧ tc.view = current + 1
  | cert => cert.view = current

/-- The view once the handler has processed the certificate. Only in `handle_timeout` another
one may come after it. -/
def after (w : ConsensusWorker B) : Certificate B → ViewNumber
  | timeoutQc t => (w.handleQc t.highQc).state.view
  | cert => (w.handle cert.call).1.state.view

theorem lt_advanced {current target : ViewNumber} (ahead : current ≤ target) :
    target < advanced current target ↔ target = current ∧ target + 1 ≠ 0 := by
  unfold advanced
  split <;> grind

theorem lt_advanced_twice {current first second : ViewNumber} (ahead : current ≤ second) :
    second < advanced (advanced current first) second ↔
      (second = current ∨ first = current ∧ second = current + 1) ∧ second + 1 ≠ 0 := by
  unfold advanced
  split <;> split <;> grind

theorem lt_advanced_other {current first second : ViewNumber} (ahead : current ≤ second) :
    second < advanced current first ↔
      (second = current ∧ first = current) ∧ second + 1 ≠ 0 := by
  unfold advanced
  split <;> grind

theorem exceeded_iff {w : ConsensusWorker B} {cert : Certificate B} (accepted : cert.Accepted w)
    (ahead : w.state.view ≤ cert.view) :
    cert.view < cert.after w ↔ cert.InStep w.state.view ∧ cert.view + 1 ≠ 0 := by
  cases cert with
  | proposalQc p =>
    simp only [after, call, handle, ((handleProposal_position w p).1 accepted).1, handleQc_view]
    exact lt_advanced ahead
  | proposalTc p tc =>
    simp only [after, call, handle, ((handleProposal_position w p).1 accepted.1).1, handleQc_view]
    exact lt_advanced_other ahead
  | timeoutQc t =>
    simp only [after, handleQc_view]
    exact lt_advanced ahead
  | formedTc t tc =>
    obtain ⟨⟨fresh, verified⟩, formed⟩ := accepted
    simp only [after, call, handle, (handleTimeout_position w t fresh verified).1, formed,
      handleQc_view]
    exact lt_advanced_twice ahead
  | collectedQc v qc =>
    simp only [after, call, handle, (handleVote_position w v accepted.1).1, accepted.2,
      handleQc_view]
    exact lt_advanced ahead
  | receivedTc tc =>
    simp only [after, call, handle, (handleTc_position w tc accepted).1]
    exact lt_advanced ahead

theorem le_advanced {current target : ViewNumber} (room : current = target → target + 1 ≠ 0) :
    current ≤ advanced current target := by
  unfold advanced
  split <;> grind

def Room (w : ConsensusWorker B) (c : Call B) : Prop :=
  ∀ cert : Certificate B, cert.call = c → cert.Accepted w → w.state.view ≤ cert.view →
    cert.view + 1 ≠ 0

theorem Room.of_eq {w : ConsensusWorker B} {c : Call B} (room : Room w c) (cert : Certificate B)
    (entered : cert.call = c) (accepted : cert.Accepted w) :
    w.state.view = cert.view → cert.view + 1 ≠ 0 :=
  fun same => room cert entered accepted (same ▸ UInt64.le_refl _)

theorem timeout_view_le {w : ConsensusWorker B} {t : Timeout B} (room : Room w (.timeout t))
    (accepted : (timeoutQc t).Accepted w) :
    w.state.view ≤ (w.handleQc t.highQc).state.view ∧
      (w.handleQc t.highQc).state.view ≤ (w.handleTimeout t).1.state.view := by
  refine ⟨?_, ?_⟩
  · rw [handleQc_view]
    exact le_advanced (room.of_eq (.timeoutQc t) rfl accepted)
  · rw [(handleTimeout_position w t accepted.1 accepted.2).1]
    split
    · rename_i tc formed
      have fresh : w.state.view ≤ tc.view := (Aggregator.addTimeout_some formed).1 ▸ accepted.1
      exact le_advanced fun _ => room (.formedTc t tc) rfl ⟨accepted, formed⟩ fresh
    · exact UInt64.le_refl _

theorem view_le {w : ConsensusWorker B} {c : Call B} (room : Room w c) :
    w.state.view ≤ (w.handle c).1.state.view := by
  cases c with
  | localTimer =>
    simp only [handle, (handleLocalTimer_position w).1]
    exact UInt64.le_refl _
  | proposal p =>
    by_cases received : w.Receives p
    · simp only [handle, ((handleProposal_position w p).1 received).1, handleQc_view]
      exact le_advanced (room.of_eq (.proposalQc p) rfl received)
    · simp only [handle, (handleProposal_position w p).2 received]
      exact UInt64.le_refl _
  | timeout t =>
    by_cases accepted : w.state.view ≤ t.view ∧ w.state.verifyTimeout t = .ok ()
    · obtain ⟨first, second⟩ := timeout_view_le room accepted
      exact UInt64.le_trans first second
    · simp only [handle, (handleTimeout_rejected w t accepted).1]
      exact UInt64.le_refl _
  | vote v =>
    by_cases verified : w.state.verifyVote v = .ok ()
    · simp only [handle, (handleVote_position w v verified).1]
      split
      · rename_i qc formed
        rw [handleQc_view]
        exact le_advanced (room.of_eq (.collectedQc v qc) rfl ⟨verified, formed⟩)
      · exact UInt64.le_refl _
    · simp only [handle, (handleVote_rejected w v verified).1]
      exact UInt64.le_refl _
  | tc tc =>
    by_cases verified : w.state.verifyTc tc = .ok ()
    · simp only [handle, (handleTc_position w tc verified).1]
      exact le_advanced (room.of_eq (.receivedTc tc) rfl verified)
    · simp only [handle, (handleTc_rejected w tc verified).1]
      exact UInt64.le_refl _

theorem after_le {w : ConsensusWorker B} {cert : Certificate B} (room : Room w cert.call)
    (accepted : cert.Accepted w) : cert.after w ≤ (w.handle cert.call).1.state.view := by
  cases cert with
  | timeoutQc t => exact (timeout_view_le room accepted).2
  | proposalQc | proposalTc | formedTc | collectedQc | receivedTc => exact UInt64.le_refl _

theorem highQc_cases (w : ConsensusWorker B) (c : Call B) :
    (w.handle c).1.state.highQc = w.state.highQc ∨
      ∃ cert : Certificate B, cert.call = c ∧ cert.Accepted w ∧
        cert.view = (w.handle c).1.state.highQc.view := by
  have kept : ∀ qc : QC B, (w.handleQc qc).state.highQc = w.state.highQc ∨
      (w.handleQc qc).state.highQc = qc := by
    intro qc
    rw [handleQc_state]
    dsimp only
    split
    · exact .inr rfl
    · exact .inl rfl
  cases c with
  | localTimer => exact .inl (handleLocalTimer_position w).2
  | proposal p =>
    by_cases received : w.Receives p
    · simp only [handle, ((handleProposal_position w p).1 received).2]
      rcases kept p.qc with same | taken
      · exact .inl same
      · exact .inr ⟨.proposalQc p, rfl, received, by rw [taken]; rfl⟩
    · exact .inl (congrArg _ ((handleProposal_position w p).2 received))
  | timeout t =>
    by_cases accepted : w.state.view ≤ t.view ∧ w.state.verifyTimeout t = .ok ()
    · simp only [handle, (handleTimeout_position w t accepted.1 accepted.2).2]
      rcases kept t.highQc with same | taken
      · exact .inl same
      · exact .inr ⟨.timeoutQc t, rfl, accepted, by rw [taken]; rfl⟩
    · exact .inl (congrArg (·.state.highQc) (handleTimeout_rejected w t accepted).1)
  | vote v =>
    by_cases verified : w.state.verifyVote v = .ok ()
    · simp only [handle, (handleVote_position w v verified).2]
      split
      · rename_i qc formed
        rcases kept qc with same | taken
        · exact .inl same
        · exact .inr ⟨.collectedQc v qc, rfl, ⟨verified, formed⟩, by rw [taken]; rfl⟩
      · exact .inl rfl
    · exact .inl (congrArg (·.state.highQc) (handleVote_rejected w v verified).1)
  | tc tc =>
    by_cases verified : w.state.verifyTc tc = .ok ()
    · exact .inl (handleTc_position w tc verified).2
    · exact .inl (congrArg (·.state.highQc) (handleTc_rejected w tc verified).1)

end Certificate

def Setup.AcceptedIn (g : Setup B) (actions : List (Action B)) (cert : Certificate B)
    (w : ConsensusWorker B) : Prop :=
  ∃ first a, first ++ [a] <+: actions ∧ (g.run first).entered a = some cert.call ∧
    w = (g.run first).worker.emit (.handled cert.call) ∧ cert.Accepted w

/-- Every certificate that the run accepts and that is not behind is in step. -/
def Setup.KeepsUp (g : Setup B) (actions : List (Action B)) : Prop :=
  ∀ cert w, g.AcceptedIn actions cert w → w.state.view ≤ cert.view →
    cert.InStep w.state.view ∧ cert.view + 1 ≠ 0

namespace Setup

variable {g : Setup B}

theorem AcceptedIn.mono {first actions : List (Action B)} (before : first <+: actions)
    {cert : Certificate B} {w : ConsensusWorker B} (accepted : g.AcceptedIn first cert w) :
    g.AcceptedIn actions cert w := by
  obtain ⟨sofar, a, here, rest⟩ := accepted
  exact ⟨sofar, a, here.trans before, rest⟩

theorem AcceptedIn.passed {actions : List (Action B)} {cert : Certificate B}
    {w : ConsensusWorker B} (accepted : g.AcceptedIn actions cert w) : cert.Accepted w := by
  obtain ⟨_, _, _, _, _, passed⟩ := accepted
  exact passed

theorem acceptedIn_snoc {actions : List (Action B)} {a : Action B} {cert : Certificate B}
    {w : ConsensusWorker B} (accepted : g.AcceptedIn (actions ++ [a]) cert w) :
    g.AcceptedIn actions cert w ∨ (g.run actions).entered a = some cert.call ∧
      w = (g.run actions).worker.emit (.handled cert.call) ∧ cert.Accepted w := by
  obtain ⟨first, b, here, rest⟩ := accepted
  rcases List.prefix_concat_iff.mp here with same | earlier
  · obtain ⟨rfl, last⟩ := List.append_inj' same rfl
    cases last
    exact .inr rest
  · exact .inl ⟨first, b, earlier, rest⟩

theorem keepsUp_step {actions : List (Action B)} {a : Action B}
    (keeps : g.KeepsUp (actions ++ [a]))
    (bound : ∀ cert w, g.AcceptedIn actions cert w → cert.view < (g.run actions).worker.state.view)
    (high : (g.run actions).worker.state.highQc.view = 0 ∨
      (g.run actions).worker.state.highQc.view < (g.run actions).worker.state.view) :
    (∀ cert w, g.AcceptedIn (actions ++ [a]) cert w →
      cert.view < (g.run (actions ++ [a])).worker.state.view) ∧
    ((g.run (actions ++ [a])).worker.state.highQc.view = 0 ∨
      (g.run (actions ++ [a])).worker.state.highQc.view <
        (g.run (actions ++ [a])).worker.state.view) := by
  cases idle : (g.run actions).entered a with
  | none =>
    have same : (g.run (actions ++ [a])).worker.state.view = (g.run actions).worker.state.view ∧
        (g.run (actions ++ [a])).worker.state.highQc = (g.run actions).worker.state.highQc := by
      rw [run_snoc]
      obtain ⟨env, seen⟩ := Node.step_not_entered idle
      rw [seen]
      exact ⟨rfl, rfl⟩
    rw [same.1, same.2]
    refine ⟨fun cert w accepted => ?_, high⟩
    rcases acceptedIn_snoc accepted with old | ⟨entered, _⟩
    · exact bound cert w old
    · rw [idle] at entered
      cases entered
  | some c =>
    have step : (g.run (actions ++ [a])).worker =
        (((g.run actions).worker.emit (.handled c)).handle c).1 := by
      rw [run_snoc, Node.step_entered idle]
      rfl
    -- Everything the call accepts is accepted in the run, so the run keeps up with it.
    have here : ∀ cert : Certificate B, cert.call = c →
        cert.Accepted ((g.run actions).worker.emit (.handled c)) →
        g.AcceptedIn (actions ++ [a]) cert ((g.run actions).worker.emit (.handled c)) := by
      rintro cert rfl accepted
      exact ⟨actions, a, List.prefix_rfl, idle, rfl, accepted⟩
    have room : Certificate.Room ((g.run actions).worker.emit (.handled c)) c :=
      fun cert entered accepted ahead => (keeps cert _ (here cert entered accepted) ahead).2
    have grown := Certificate.view_le room
    have new : ∀ cert : Certificate B, cert.call = c →
        cert.Accepted ((g.run actions).worker.emit (.handled c)) →
        cert.view < (((g.run actions).worker.emit (.handled c)).handle c).1.state.view := by
      intro cert entered accepted
      by_cases ahead : (g.run actions).worker.state.view ≤ cert.view
      · have passed := (Certificate.exceeded_iff accepted ahead).mpr
          (keeps cert _ (here cert entered accepted) ahead)
        subst entered
        exact UInt64.lt_of_lt_of_le passed (Certificate.after_le room accepted)
      · exact UInt64.lt_of_lt_of_le (UInt64.not_le.mp ahead) grown
    rw [step]
    refine ⟨fun cert w accepted => ?_, ?_⟩
    · rcases acceptedIn_snoc accepted with old | ⟨entered, rfl, accepted⟩
      · exact UInt64.lt_of_lt_of_le (bound cert w old) grown
      · rw [idle] at entered
        cases entered
        exact new cert rfl accepted
    · rcases Certificate.highQc_cases ((g.run actions).worker.emit (.handled c)) c with
        same | ⟨cert, entered, accepted, view⟩
      · rw [same]
        exact high.imp_right fun below => UInt64.lt_of_lt_of_le below grown
      · exact .inr (view ▸ new cert entered accepted)

theorem KeepsUp.mono {first actions : List (Action B)} (before : first <+: actions)
    (keeps : g.KeepsUp actions) : g.KeepsUp first :=
  fun cert w accepted => keeps cert w (accepted.mono before)

theorem KeepsUp.bound {actions : List (Action B)} (keeps : g.KeepsUp actions) :
    (∀ cert w, g.AcceptedIn actions cert w → cert.view < (g.run actions).worker.state.view) ∧
    ((g.run actions).worker.state.highQc.view = 0 ∨
      (g.run actions).worker.state.highQc.view < (g.run actions).worker.state.view) := by
  induction actions using List.reverseRecOn with
  | nil =>
    refine ⟨?_, .inl rfl⟩
    rintro cert w ⟨first, a, here, _⟩
    simp at here
  | append_singleton actions a ih =>
    obtain ⟨bound, high⟩ := ih (keeps.mono (List.prefix_append _ _))
    exact keepsUp_step keeps bound high

end Setup

/-- Which certificates the view keeps up with. The comparison in `advance_view_from_target`
lets the view follow a certificate only from the certificate's own view; so the view exceeds
an accepted certificate that is not behind exactly if that is in step, and it exceeds all that
a run accepts, at every point of the run, exactly if all of them are. -/
theorem view_catch_up (g : Setup B) (actions : List (Action B)) :
    (∀ (w : ConsensusWorker B) (cert : Certificate B), cert.Accepted w →
      w.state.view ≤ cert.view →
      (cert.view < cert.after w ↔ cert.InStep w.state.view ∧ cert.view + 1 ≠ 0)) ∧
    (g.KeepsUp actions ↔ ∀ first, first <+: actions →
      (∀ cert w, g.AcceptedIn first cert w → w.state.view ≤ cert.view →
        cert.view < cert.after w) ∧
      (∀ cert w, g.AcceptedIn first cert w → cert.view < (g.run first).worker.state.view) ∧
      (1 ≤ (g.run first).worker.state.highQc.view →
        (g.run first).worker.state.highQc.view < (g.run first).worker.state.view)) := by
  refine ⟨fun w cert accepted ahead => Certificate.exceeded_iff accepted ahead, ?_⟩
  constructor
  · intro keeps first before
    have keeps := keeps.mono before
    refine ⟨?_, keeps.bound.1, ?_⟩
    · intro cert w accepted ahead
      exact (Certificate.exceeded_iff accepted.passed ahead).mpr (keeps cert w accepted ahead)
    · intro positive
      rcases keeps.bound.2 with zero | below
      · rw [zero] at positive
        exact absurd positive (by decide)
      · exact below
  · intro exceeded cert w accepted ahead
    exact (Certificate.exceeded_iff accepted.passed ahead).mp
      ((exceeded actions List.prefix_rfl).1 cert w accepted ahead)

/- A node in view 0 accepts a timeout certificate of view 5 and stays in view 0. -/
theorem view_stays_behind :
    let tc := Symbolic.timeoutCertificate [1, 2, 3] 5 0
    let worker := ((Symbolic.setup 3 0).run [.receive (.tc tc)]).worker
    (⟨0, 0, QC.default⟩, .acceptTc tc) ∈ worker.trace ∧ ¬ tc.view < worker.state.view := by
  decide +kernel

end Hotstuff
