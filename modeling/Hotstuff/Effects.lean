import Hotstuff.Gossip
import Hotstuff.Network

/-! What a handler body adds to the history, said once for all events that other nodes or the
aggregator depend on. -/
namespace Hotstuff

variable {B : BlockT}

open ConsensusWorker

/-- The timeout passes the checks of `handle_timeout`, and the certificate in it is followed
before it is counted. -/
def ConsensusWorker.Completes (w : ConsensusWorker B) (t : Timeout B) (tc : TC B) : Prop :=
  w.state.view ≤ t.view ∧ w.state.verifyTimeout t = .ok () ∧
    ((w.handleQc t.highQc).state.addTimeout t).2 = .ok (some tc)

/-- A message of a node's own, told in the state `m`: its view and certificate are those of the
state. -/
def ConsensusMessage.OwnIn (m : Moment B) : ConsensusMessage B → Prop
  | .propose p => p.view = m.view ∧ p.qc = m.highQc
  | .vote v => v.view = m.view
  | .timeout t => t.view = m.view ∧ t.highQc = m.highQc
  | .tc _ | .syncRequest _ _ | .phantom => False

theorem ConsensusMessage.OwnIn.view {m : Moment B} {message : ConsensusMessage B}
    (own : message.OwnIn m) : message.view = m.view := by
  cases message with
  | propose | timeout => exact own.1
  | vote => exact own
  | tc | syncRequest | phantom => exact own.elim

/-- The TC a message carries along. -/
def ConsensusMessage.tc? : ConsensusMessage B → Option (TC B)
  | .propose p => p.tc
  | _ => none

/-- What is true of an entry made by the call `c` in `w`. -/
def Noted (w : ConsensusWorker B) (c : Call B) (m : Moment B) : Event B → Prop
  | .handled _ => False
  | .gossip (.tc tc) => (m.view = tc.view + 1 ∨ m.view ≤ tc.view) ∧
      ∃ t, c = .timeout t ∧ w.Completes t tc
  | .gossip message => message.OwnIn m ∧
      ∀ tc ∈ message.tc?, ∃ t, c = .timeout t ∧ w.Completes t tc
  | .collected qc => ∃ v, c = .vote v ∧ w.state.verifyVote v = .ok () ∧
      (w.state.addVote v).2 = .ok (some qc)
  | _ => True

/-- An entry that tells no certificate but those a message of the node's own carries along. -/
def Event.Plain (formed : Option (TC B)) (m : Moment B) : Event B → Prop
  | .handled _ | .collected _ => False
  | .gossip message => message.OwnIn m ∧ ∀ tc ∈ message.tc?, tc ∈ formed
  | _ => True

theorem Event.Plain.noted {w : ConsensusWorker B} {c : Call B} {formed : Option (TC B)}
    {m : Moment B} {e : Event B} (plain : e.Plain formed m)
    (completes : ∀ tc ∈ formed, ∃ t, c = .timeout t ∧ w.Completes t tc) : Noted w c m e := by
  cases e with
  | handled | collected => exact plain.elim
  | gossip message =>
    cases message with
    | tc | syncRequest | phantom => exact plain.1.elim
    | propose | vote | timeout =>
      exact ⟨plain.1, fun tc carried => completes tc (plain.2 tc carried)⟩
  | _ => trivial

namespace ConsensusWorker

variable {w : ConsensusWorker B}

/-- The parts of the handlers tell plain events only. -/
abbrev Plainly (formed : Option (TC B)) (w w' : ConsensusWorker B) : Prop :=
  Adds (fun m e => e.Plain formed m) w w'

theorem propose_plainly {payload : Payload B} {tc : Option (TC B)} {p : Proposal B}
    (made : w.state.makeProposal payload tc = .ok p) : Plainly tc w (w.propose p).1 := by
  obtain ⟨qc, carried, _, view, _⟩ := ConsensusState.makeProposal_ok made
  have noted : Plainly tc w (w.emit (.proposed p)) := Adds.refl.emit trivial
  exact noted.emit ⟨⟨view, qc⟩, fun _ own => carried ▸ own⟩

theorem generateProposal_plainly (w : ConsensusWorker B) (tc : Option (TC B)) :
    Plainly tc w (w.generateProposal tc).1 := by
  unfold generateProposal
  split
  · rename_i chosen
    exact .of_eq (getProposalPayload_trace chosen)
  · rename_i w' payload chosen
    have silent : Plainly tc w w' := .of_eq (getProposalPayload_trace chosen)
    split
    · exact silent
    · rename_i p made
      exact silent.trans (propose_plainly made)

theorem proposeOnQc_plainly (w : ConsensusWorker B) : Plainly none w w.proposeOnQc.1 := by
  unfold proposeOnQc
  split
  · rename_i chosen
    exact .of_eq (getProposalPayload_trace chosen)
  · rename_i w' payload chosen
    have silent : Plainly none w w' := .of_eq (getProposalPayload_trace chosen)
    split
    · exact silent
    · dsimp only
      split
      · exact silent.trans (.of_eq rfl)
      · rename_i p made
        refine (silent.trans (.of_eq rfl)).trans ?_
        exact propose_plainly (w := { w' with proposalHashQueue := _ }) made

theorem voteFor_plainly (w : ConsensusWorker B) (p : Proposal B) :
    Plainly none w (w.voteFor p).1 := by
  unfold voteFor
  split
  · exact .refl
  · rename_i current
    split
    · exact .of_eq rfl
    · rename_i s v made
      obtain ⟨rfl, _, _, view, _⟩ := ConsensusState.makeVote_some made
      have noted : Plainly none w ({ w with state := { w.state with lastVotedView := p.view } }.emit
        (.voted p v)) := (Adds.of_eq rfl).emit trivial
      dsimp only
      split
      · exact noted.trans (.of_eq rfl)
      · exact (noted.trans (.of_eq rfl)).emit
          ⟨view.trans (not_not.mp current), fun _ carried => by cases carried⟩

theorem handleProposal_plainly (w : ConsensusWorker B) (p : Proposal B) :
    Plainly none w (w.handleProposal p).1 := by
  unfold handleProposal
  split
  · exact .refl
  · exact Adds.refl.emit trivial
  · split
    · exact .refl
    · have timed : Plainly none w (((w.emit (.verified p)).handleQc p.qc).handleProposalTc p.tc) :=
        .certificates p (fun _ => trivial) (fun _ => trivial) fun _ => trivial
      dsimp only
      split
      · exact timed
      · rename_i s _
        have saved : Plainly none w
            { ((w.emit (.verified p)).handleQc p.qc).handleProposalTc p.tc with
              synchronizer := s } := timed.trans (.of_eq rfl)
        have committed := saved.trans (.tryFinalize p (fun _ _ _ => trivial) fun _ _ => trivial)
        exact committed.trans (voteFor_plainly _ p)

theorem handleLocalTimer_plainly (w : ConsensusWorker B) :
    Plainly none w w.handleLocalTimer.1 := by
  have reset : Plainly none w (w.emit .resetTimer) := Adds.refl.emit trivial
  have raised : Plainly none w { w.emit .resetTimer with state := w.state.increaseLastVotedView } :=
    reset.trans (.of_eq rfl)
  have fired := raised.emit (e := .localTimer) trivial
  unfold handleLocalTimer
  dsimp only
  split
  · exact fired
  · rename_i t made
    have noted := fired.emit (e := .timedOut t) trivial
    obtain ⟨high, view, _⟩ := ConsensusState.makeTimeout_ok made
    exact noted.emit ⟨⟨view, high⟩, nofun⟩

theorem handleTc_plainly (w : ConsensusWorker B) (tc : TC B) :
    Plainly none w (w.handleTc tc).1 := by
  unfold handleTc
  split
  · exact .refl
  · have marked : Plainly none w (w.emit (.acceptTc tc)) := Adds.refl.emit trivial
    have reset := (marked.advanceView tc.view).emit (e := .resetTimer) trivial
    dsimp only
    split
    · exact (reset.trans (.of_eq rfl)).trans (generateProposal_plainly _ none)
    · exact reset.trans (.of_eq rfl)

theorem handleVote_noted (w : ConsensusWorker B) (v : Vote B) :
    Adds (Noted w (.vote v)) w (w.handleVote v).1 := by
  unfold handleVote
  split
  · exact .refl
  · rename_i passed
    have added : Adds (Noted w (.vote v)) w { w with state := (w.state.addVote v).1 } := .of_eq rfl
    dsimp only
    split
    · exact added
    · exact added
    · rename_i qc formed
      have followed := (added.emit (e := .collected qc) ⟨v, rfl, passed, formed⟩).trans
        (.handleQc qc (fun _ => trivial) fun _ => trivial)
      split
      · exact followed.trans ((proposeOnQc_plainly _).mono fun _ _ plain => plain.noted nofun)
      · exact followed

/-- Once a certificate for a view not below the own one is followed, the view is the one after
it, or has not passed it. -/
theorem advanced_beside {view current target : ViewNumber} (fresh : view ≤ target)
    (moved : current = view ∨ current = view + 1) :
    advanced current target = target + 1 ∨ advanced current target ≤ target := by
  unfold advanced
  split
  · rename_i here
    exact .inl (by rw [here])
  · rcases moved with rfl | rfl
    · exact .inr fresh
    · by_cases here : view = target
      · exact .inl (by rw [here])
      · exact .inr (by grind)

theorem announceTc_noted {w w' : ConsensusWorker B} {t : Timeout B} {tc : TC B}
    (completes : w.Completes t tc)
    (beside : w'.state.view = tc.view + 1 ∨ w'.state.view ≤ tc.view) :
    Adds (Noted w (.timeout t)) w' (w'.announceTc tc).1 := by
  have told : Adds (Noted w (.timeout t)) w' (w'.emit (.gossip (.tc tc))) :=
    Adds.refl.emit ⟨beside, t, rfl, completes⟩
  unfold announceTc
  dsimp only
  split
  · refine (told.trans (.of_eq rfl)).trans
      ((generateProposal_plainly _ (some tc)).mono fun _ _ plain => plain.noted ?_)
    rintro tc' ⟨rfl⟩
    exact ⟨t, rfl, completes⟩
  · exact told

/-- The certificate is told in the view it has led to. -/
theorem handleFormedTc_noted {w : ConsensusWorker B} {t : Timeout B} {tc : TC B}
    (completes : w.Completes t tc) :
    let w' := { w.handleQc t.highQc with state := ((w.handleQc t.highQc).state.addTimeout t).1 }
    Adds (Noted w (.timeout t)) w' (w'.handleFormedTc tc).1 := by
  intro w'
  have current : w'.state.view = w.state.view ∨ w'.state.view = w.state.view + 1 := by
    rw [show w'.state.view = _ from handleQc_view w t.highQc]
    exact advanced_or _ _
  have fresh : w.state.view ≤ tc.view := by
    rw [(Aggregator.addTimeout_some completes.2.2).1]
    exact completes.1
  have beside := advanced_beside fresh current
  rw [← formedTc_view w' tc] at beside
  have marked : Adds (Noted w (.timeout t)) w' (w'.emit (.acceptTc tc)) := Adds.refl.emit trivial
  by_cases ahead : w'.state.view ≤ tc.view
  · rw [if_pos ahead] at beside
    rw [handleFormedTc_ahead ahead]
    have reset := (marked.advanceView tc.view).emit (e := .resetTimer) trivial
    exact reset.trans (announceTc_noted completes beside)
  · rw [if_neg ahead] at beside
    rw [handleFormedTc_behind ahead]
    exact marked.trans (announceTc_noted completes beside)

theorem handleTimeout_noted (w : ConsensusWorker B) (t : Timeout B) :
    Adds (Noted w (.timeout t)) w (w.handleTimeout t).1 := by
  unfold handleTimeout
  split
  · exact .refl
  · rename_i fresh
    split
    · exact .refl
    · rename_i passed
      have followed : Adds (Noted w (.timeout t)) w (w.handleQc t.highQc) :=
        .handleQc t.highQc (fun _ => trivial) fun _ => trivial
      have added : Adds (Noted w (.timeout t)) w { w.handleQc t.highQc with
        state := ((w.handleQc t.highQc).state.addTimeout t).1 } := followed.trans (.of_eq rfl)
      dsimp only
      split
      · exact added
      · exact added
      · rename_i tc formed
        exact added.trans (handleFormedTc_noted ⟨UInt64.not_lt.mp fresh, passed, formed⟩)

theorem handle_noted (w : ConsensusWorker B) (c : Call B) : Adds (Noted w c) w (w.handle c).1 := by
  cases c with
  | localTimer => exact (handleLocalTimer_plainly w).mono fun _ _ plain => plain.noted nofun
  | timeout t => exact handleTimeout_noted w t
  | proposal p => exact (handleProposal_plainly w p).mono fun _ _ plain => plain.noted nofun
  | vote v => exact handleVote_noted w v
  | tc tc => exact (handleTc_plainly w tc).mono fun _ _ plain => plain.noted nofun

end ConsensusWorker

/-- Every entry of a run is the mark of a call, or was made by the call of one of its steps. -/
theorem Setup.noted_at (g : Setup B) (actions : List (Action B)) {m : Moment B} {e : Event B}
    (entry : (m, e) ∈ (g.run actions).worker.trace) :
    ∃ before a c, before ++ [a] <+: actions ∧ (g.run before).entered a = some c ∧
      (e = .handled c ∨ Noted ((g.run before).worker.emit (.handled c)) c m e) := by
  induction actions using List.reverseRecOn with
  | nil => cases entry
  | append_singleton actions a ih =>
    by_cases old : (m, e) ∈ (g.run actions).worker.trace
    · obtain ⟨before, b, c, here, rest⟩ := ih old
      exact ⟨before, b, c, here.trans (List.prefix_append ..), rest⟩
    · rw [g.run_snoc] at entry
      rcases (g.run actions).step_cases a with ⟨env, seen⟩ | ⟨c, entered, stepped⟩
      · rw [seen] at entry
        exact absurd entry old
      · refine ⟨actions, a, c, List.prefix_rfl, entered, ?_⟩
        rw [stepped] at entry
        have adds := handle_noted ((g.run actions).worker.emit (.handled c)) c
        rcases adds.entry entry with before | new
        · have mark := (List.mem_append.mp before).resolve_left old
          exact .inl (congrArg Prod.snd (List.mem_singleton.mp mark))
        · exact .inr new

/-- A message is told in its own view, or in one that has not passed it; a TC also in the view
after its own. -/
theorem Setup.told_beside (g : Setup B) (actions : List (Action B)) {m : Moment B}
    {message : ConsensusMessage B}
    (told : (m, .gossip message) ∈ (g.run actions).worker.trace) :
    (m.view = message.view + 1 ∨ m.view ≤ message.view) ∧
      ((∀ tc, message ≠ .tc tc) → message.view = m.view) := by
  obtain ⟨before, a, c, _, _, mark | noted⟩ := g.noted_at actions told
  · cases mark
  · cases message with
    | tc tc => exact ⟨noted.1, fun other => absurd rfl (other tc)⟩
    | _ => exact ⟨.inr (UInt64.le_of_eq noted.1.view.symm), fun _ => noted.1.view⟩

/-- A message told in a view is not old for a validator that has not passed that view. -/
theorem not_outdated {told view messageView : ViewNumber}
    (beside : told = messageView + 1 ∨ told ≤ messageView) (reached : view ≤ told) :
    ¬ Outdated view messageView := by
  rintro ⟨above, below⟩
  rcases beside with rfl | le <;> grind

/-- Whatever a node gossips is kept by every validator whose view has not passed the one it is
told in, its own among them. A proposal, vote or timeout is discarded exactly by those that are
two views ahead or more. -/
theorem gossip_kept_until_two_ahead (g : Setup B) (actions : List (Action B)) (m : Moment B)
    (message : ConsensusMessage B)
    (told : (m, .gossip message) ∈ (g.run actions).worker.trace)
    (decode : List B.Byte → Except String (ConsensusMessage B)) (topicName data : List B.Byte)
    (decoded : decode data = .ok message) :
    let validator := fun view : ViewNumber => (⟨decode, topicName, view⟩ : GossipValidator B)
    (∀ view ≤ m.view, (validator view).validate data =
      some (.processAndKeep (B.hash topicName))) ∧
    ((∀ tc, message ≠ .tc tc) → ∀ view,
      (validator view).validate data = some .discard ↔ 1 < view ∧ m.view < view - 1) := by
  intro validator
  have verdict : ∀ view, (validator view).validate data = some
      (if Outdated view message.view then .discard else .processAndKeep (B.hash topicName)) :=
    fun view => (validate_iff _ data _).mpr (.inl ⟨message, decoded, rfl⟩)
  obtain ⟨beside, own⟩ := g.told_beside actions told
  refine ⟨fun view reached => ?_, fun other view => ?_⟩
  · rw [verdict, if_neg (not_outdated beside reached)]
  · rw [verdict, own other]
    by_cases old : Outdated view m.view
    · simp only [if_pos old, true_iff]
      exact old
    · simp only [if_neg old, Option.some.injEq, reduceCtorEq, false_iff]
      exact old

/- Node 2 of four times out in its first view. -/
theorem gossip_kept_until_two_ahead_timer :
    let t := Symbolic.signTimeout ⟨QC.default, 0, 2, none⟩
    let validator := fun view : ViewNumber =>
      (⟨fun _ => .ok (.timeout t), [], view⟩ : GossipValidator symbolic)
    (∃ x ∈ ((Symbolic.setup 3 2).run [.timer]).worker.trace, x.2 = .gossip (.timeout t)) ∧
      (validator 0).validate [] = some (.processAndKeep (symbolic.hash [])) ∧
      (validator 2).validate [] = some .discard := by
  intro t validator
  have told : ∃ x ∈ ((Symbolic.setup 3 2).run [.timer]).worker.trace, x.2 = .gossip (.timeout t) ∧
      x.1.view = 0 := by decide +kernel
  obtain ⟨⟨m, _⟩, entry, rfl, view⟩ := told
  obtain ⟨kept, discarded⟩ := gossip_kept_until_two_ahead (Symbolic.setup 3 2) [.timer] m
    (.timeout t) entry (fun _ => .ok (.timeout t)) [] [] rfl
  refine ⟨⟨_, entry, rfl⟩, kept 0 (view ▸ UInt64.le_refl _), (discarded nofun 2).mpr ?_⟩
  rw [show m.view = 0 from view]
  decide

end Hotstuff
