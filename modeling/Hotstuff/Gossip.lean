import Hotstuff.Evidence

/-! What the handlers add to the history: the messages a node gossips pass the checks of its
peers. -/
namespace Hotstuff

variable {B : BlockT}

open ConsensusWorker

/-! ### Signing -/

/-- The keystore signs for the keys it holds, with signatures that verify. -/
def Keystore.Signs (k : Keystore B) : Prop :=
  ∀ id digest, k.hasKeys id = true →
    ∃ s, k.signWith id digest = .ok (some s) ∧ B.verify s digest id = true

namespace ConsensusState

variable {s : ConsensusState B}

theorem localAuthorityId_some {id : B.AuthorityId} (own : s.localAuthorityId = some id) :
    id ∈ s.authorities.ids ∧ s.keystore.hasKeys id = true := by
  obtain ⟨a, found, rfl⟩ := Option.map_eq_some_iff.mp own
  have holds := List.find?_some found
  exact ⟨List.mem_map_of_mem (List.mem_of_find?_eq_some found), holds⟩

theorem isLeader_iff : s.isLeader = true ↔ s.localAuthorityId = some (s.viewLeader s.view) := by
  unfold isLeader
  cases s.localAuthorityId <;> simp

variable (signs : s.keystore.Signs)
include signs

theorem sign_verifies {id : B.AuthorityId} {digest : B.Hash}
    {signature : Option B.AuthoritySignature} (own : s.localAuthorityId = some id)
    (signed : s.sign id digest = .ok signature) :
    verifySigned s.authorities id signature digest = .ok () := by
  obtain ⟨member, holds⟩ := localAuthorityId_some own
  obtain ⟨sig, answer, valid⟩ := signs id digest holds
  unfold sign at signed
  rw [answer] at signed
  cases signed
  exact (verifySigned_ok ..).mpr ⟨member, sig, rfl, valid⟩

theorem makeProposal_verifies {payload : Payload B} {tc : Option (TC B)} {p : Proposal B}
    (made : s.makeProposal payload tc = .ok p) :
    verifySigned s.authorities p.author p.signature p.digest = .ok () := by
  unfold makeProposal at made
  split at made
  · cases made
  · rename_i own
    dsimp only at made
    split at made
    · cases made
    · rename_i signed
      cases made
      exact sign_verifies signs own signed

theorem makeTimeout_verifies {t : Timeout B} (made : s.makeTimeout = .ok t) :
    verifySigned s.authorities t.voter t.signature t.digest = .ok () := by
  unfold makeTimeout at made
  split at made
  · cases made
  · rename_i own
    dsimp only at made
    split at made
    · cases made
    · rename_i signed
      cases made
      exact sign_verifies signs own signed

theorem makeVote_verifies {s' : ConsensusState B} {p : Proposal B} {v : Vote B}
    (made : s.makeVote p = (s', some v)) : v.verify s.authorities = .ok () := by
  unfold makeVote at made
  split at made
  · cases made
  · rename_i own
    split at made
    · cases made
    · dsimp only at made
      split at made
      · cases made
      · rename_i signed
        cases made
        exact sign_verifies signs own signed

end ConsensusState

/-! ### The parts of the handlers -/

/-- What is true of a message when a node in the state `s` gossips it. -/
def Issued (s : ConsensusState B) (m : Moment B) : Event B → Prop
  | .gossip (.propose p) => p.author = s.viewLeader p.view ∧
      verifySigned s.authorities p.author p.signature p.digest = .ok () ∧ p.qc = m.highQc
  | .gossip (.vote v) => v.verify s.authorities = .ok ()
  | .gossip (.timeout t) =>
      verifySigned s.authorities t.voter t.signature t.digest = .ok () ∧ t.highQc = m.highQc
  | _ => True

theorem Issued.congr {s s' : ConsensusState B} (same : s.authorities = s'.authorities)
    {m : Moment B} {e : Event B} (issued : Issued s m e) : Issued s' m e := by
  cases e with
  | gossip message =>
    cases message with
    | propose p =>
      obtain ⟨leader, signed, qc⟩ := issued
      exact ⟨ConsensusState.viewLeader_congr same _ ▸ leader, same ▸ signed, qc⟩
    | vote v => exact (congrArg v.verify same).symm.trans issued
    | timeout t => exact ⟨same ▸ issued.1, issued.2⟩
    | _ => trivial
  | _ => trivial

/-- An entry of the part of a handler that comes after the certificates: it may gossip, but
the timer is left alone. -/
def Tail (s : ConsensusState B) (m : Moment B) (e : Event B) : Prop :=
  (s.keystore.Signs → Issued s m e) ∧ e ≠ .resetTimer

namespace ConsensusWorker

variable {w : ConsensusWorker B}

theorem getProposalPayload_trace {w' : ConsensusWorker B} {payload : Option (Payload B)}
    (chosen : w.getProposalPayload = (w', payload)) : w'.trace = w.trace := by
  obtain ⟨processing, frame⟩ := getProposalPayload_frame w
  rw [chosen] at frame
  rw [show w' = _ from frame]

theorem propose_adds
    (leader : w.state.localAuthorityId = some (w.state.viewLeader w.state.view))
    {payload : Payload B} {tc : Option (TC B)} {p : Proposal B}
    (made : w.state.makeProposal payload tc = .ok p) : Adds (Tail w.state) w (w.propose p).1 := by
  obtain ⟨qc, _, _, view, author⟩ := ConsensusState.makeProposal_ok made
  have own : p.author = w.state.viewLeader p.view := by
    rw [view]
    exact Option.some.inj (author.symm.trans leader)
  have noted : Adds (Tail w.state) w (w.emit (.proposed p)) :=
    Adds.refl.emit ⟨fun _ => trivial, nofun⟩
  refine noted.emit ⟨fun signs => ⟨own, ?_, qc⟩, nofun⟩
  exact ConsensusState.makeProposal_verifies signs made

theorem generateProposal_adds
    (leader : w.state.localAuthorityId = some (w.state.viewLeader w.state.view))
    (tc : Option (TC B)) : Adds (Tail w.state) w (w.generateProposal tc).1 := by
  unfold generateProposal
  split
  · rename_i chosen
    exact .of_eq (getProposalPayload_trace chosen)
  · rename_i w' payload chosen
    have state := getProposalPayload_state chosen
    have silent : Adds (Tail w.state) w w' := .of_eq (getProposalPayload_trace chosen)
    split
    · exact silent
    · rename_i p made
      rw [← state] at leader silent ⊢
      exact silent.trans (propose_adds leader made)

theorem proposeOnQc_adds
    (leader : w.state.localAuthorityId = some (w.state.viewLeader w.state.view)) :
    Adds (Tail w.state) w w.proposeOnQc.1 := by
  unfold proposeOnQc
  split
  · rename_i chosen
    exact .of_eq (getProposalPayload_trace chosen)
  · rename_i w' payload chosen
    have state := getProposalPayload_state chosen
    have silent : Adds (Tail w.state) w w' := .of_eq (getProposalPayload_trace chosen)
    split
    · exact silent
    · dsimp only
      split
      · exact silent.trans (.of_eq rfl)
      · rename_i p made
        rw [← state] at leader silent ⊢
        refine silent.trans ?_
        exact propose_adds (w := { w' with proposalHashQueue := _ }) leader made

theorem announceTc_adds (tc : TC B) : Adds (Tail w.state) w (w.announceTc tc).1 := by
  have told : Adds (Tail w.state) w (w.emit (.gossip (.tc tc))) :=
    Adds.refl.emit ⟨fun _ => trivial, nofun⟩
  unfold announceTc
  dsimp only
  split
  · rename_i leads
    refine told.trans ?_
    exact generateProposal_adds (w := { w.emit (.gossip (.tc tc)) with processingBlock := none })
      (ConsensusState.isLeader_iff.mp leads) (some tc)
  · exact told

theorem voteFor_adds (p : Proposal B) : Adds (Tail w.state) w (w.voteFor p).1 := by
  unfold voteFor
  split
  · exact .refl
  · split
    · exact .of_eq rfl
    · rename_i s v made
      have noted : Adds (Tail w.state) w ({ w with state := s }.emit (.voted p v)) :=
        (Adds.of_eq rfl).emit ⟨fun _ => trivial, nofun⟩
      dsimp only
      split
      · exact noted.trans (.of_eq rfl)
      · refine (noted.trans (.of_eq rfl)).emit ⟨fun signs => ?_, nofun⟩
        exact ConsensusState.makeVote_verifies signs made

/-- The end of `handle_proposal`, once the proposal is saved. -/
theorem finishProposal_adds (s : Synchronizer B) (p : Proposal B) :
    Adds (Tail w.state) w (({ w with synchronizer := s }.tryFinalize p).voteFor p).1 := by
  have state := (tryFinalize_frame { w with synchronizer := s } p).1
  have committed : Adds (Tail w.state) w ({ w with synchronizer := s }.tryFinalize p) :=
    (Adds.of_eq rfl).trans (.tryFinalize p (fun _ _ _ => ⟨fun _ => trivial, nofun⟩)
      fun _ _ => ⟨fun _ => trivial, nofun⟩)
  have voted := voteFor_adds (w := { w with synchronizer := s }.tryFinalize p) p
  rw [state] at voted
  exact committed.trans voted

/-! ### Whole handlers -/

variable (signs : w.state.keystore.Signs)
include signs

theorem handleLocalTimer_issued : Adds (Issued w.state) w w.handleLocalTimer.1 := by
  have reset : Adds (Issued w.state) w (w.emit .resetTimer) := Adds.refl.emit trivial
  have raised : Adds (Issued w.state) w
      { w.emit .resetTimer with state := w.state.increaseLastVotedView } := reset.trans (.of_eq rfl)
  have fired := raised.emit (e := .localTimer) trivial
  unfold handleLocalTimer
  dsimp only
  split
  · exact fired
  · rename_i t made
    have verifies := ConsensusState.makeTimeout_verifies (s := w.state.increaseLastVotedView)
      signs made
    have noted := fired.emit (e := .timedOut t) trivial
    exact noted.emit ⟨verifies, (ConsensusState.makeTimeout_ok made).1⟩

theorem handleFormedTc_issued (tc : TC B) : Adds (Issued w.state) w (w.handleFormedTc tc).1 := by
  have marked : Adds (Issued w.state) w (w.emit (.acceptTc tc)) := Adds.refl.emit trivial
  by_cases ahead : w.state.view ≤ tc.view
  · obtain ⟨authorities, keystore⟩ := advanceView_kept (w.emit (.acceptTc tc)) tc.view
    have reset := (marked.advanceView tc.view).emit (e := .resetTimer) trivial
    rw [handleFormedTc_ahead ahead]
    refine reset.trans ((announceTc_adds tc).mono fun m e tail => ?_)
    exact (tail.1 (keystore ▸ signs)).congr authorities
  · rw [handleFormedTc_behind ahead]
    exact marked.trans ((announceTc_adds tc).mono fun _ _ tail => tail.1 signs)

theorem handleTimeout_issued (t : Timeout B) : Adds (Issued w.state) w (w.handleTimeout t).1 := by
  unfold handleTimeout
  split
  · exact .refl
  · split
    · exact .refl
    · have followed : Adds (Issued w.state) w (w.handleQc t.highQc) :=
        .handleQc t.highQc (fun _ => trivial) (fun _ => trivial)
      obtain ⟨authorities, keystore⟩ := handleQc_kept w t.highQc
      have added : Adds (Issued w.state) w { w.handleQc t.highQc with
        state := ((w.handleQc t.highQc).state.addTimeout t).1 } := followed.trans (.of_eq rfl)
      dsimp only
      split
      · exact added
      · exact added
      · rename_i tc _
        have formed := handleFormedTc_issued (w := { w.handleQc t.highQc with
          state := ((w.handleQc t.highQc).state.addTimeout t).1 }) (keystore ▸ signs) tc
        exact added.trans (formed.mono fun _ _ issued => issued.congr authorities)

theorem handleProposal_issued (p : Proposal B) :
    Adds (Issued w.state) w (w.handleProposal p).1 := by
  unfold handleProposal
  split
  · exact .refl
  · exact Adds.refl.emit trivial
  · split
    · exact .refl
    · have timed : Adds (Issued w.state) w
          (((w.emit (.verified p)).handleQc p.qc).handleProposalTc p.tc) :=
        .certificates p (fun _ => trivial) (fun _ => trivial) fun _ => trivial
      have same : (((w.emit (.verified p)).handleQc p.qc).handleProposalTc p.tc).state =
          ((w.emit (.verified p)).handleQc p.qc).state := handleProposalTc_state _ _
      obtain ⟨authorities, keystore⟩ := handleQc_kept (w.emit (.verified p)) p.qc
      dsimp only
      split
      · exact timed
      · rename_i s _
        refine timed.trans ((finishProposal_adds s p).mono fun m e tail => ?_)
        have kept : (((w.emit (.verified p)).handleQc p.qc).handleProposalTc p.tc).state.keystore =
          w.state.keystore := by rw [same, keystore]; rfl
        refine (tail.1 (kept ▸ signs)).congr ?_
        rw [same, authorities]
        rfl

theorem handleVote_issued (v : Vote B) : Adds (Issued w.state) w (w.handleVote v).1 := by
  unfold handleVote
  split
  · exact .refl
  · have added : Adds (Issued w.state) w { w with state := (w.state.addVote v).1 } := .of_eq rfl
    dsimp only
    split
    · exact added
    · exact added
    · rename_i qc _
      have followed := (added.emit (e := .collected qc) trivial).trans
        (.handleQc qc (fun _ => trivial) (fun _ => trivial))
      obtain ⟨authorities, keystore⟩ :=
        handleQc_kept ({ w with state := (w.state.addVote v).1 }.emit (.collected qc)) qc
      split
      · rename_i leads
        refine followed.trans ((proposeOnQc_adds leads).mono fun m e tail => ?_)
        exact (tail.1 (keystore ▸ signs)).congr authorities
      · exact followed

theorem handleTc_issued (tc : TC B) : Adds (Issued w.state) w (w.handleTc tc).1 := by
  unfold handleTc
  split
  · exact .refl
  · obtain ⟨authorities, keystore⟩ := advanceView_kept (w.emit (.acceptTc tc)) tc.view
    have marked : Adds (Issued w.state) w (w.emit (.acceptTc tc)) := Adds.refl.emit trivial
    have reset := (marked.advanceView tc.view).emit (e := .resetTimer) trivial
    dsimp only
    split
    · rename_i leads
      have proposed := generateProposal_adds
        (w := { ((w.emit (.acceptTc tc)).advanceView tc.view).emit .resetTimer with
          processingBlock := none }) (ConsensusState.isLeader_iff.mp leads) none
      refine (reset.trans (.of_eq rfl)).trans (proposed.mono fun m e tail => ?_)
      exact (tail.1 (keystore ▸ signs)).congr authorities
    · exact reset.trans (.of_eq rfl)

theorem handle_issued (c : Call B) : Adds (Issued w.state) w (w.handle c).1 := by
  cases c with
  | localTimer => exact handleLocalTimer_issued signs
  | timeout t => exact handleTimeout_issued signs t
  | proposal p => exact handleProposal_issued signs p
  | vote v => exact handleVote_issued signs v
  | tc tc => exact handleTc_issued signs tc

end ConsensusWorker

/-! ### `high_qc` -/

/-- The default certificate itself, or one that verifies. Equality of certificates in the
source ignores the votes; here it does not. -/
def QC.Sound (authorities : AuthorityList B) (qc : QC B) : Prop :=
  qc = QC.default ∨ qc.verify authorities = .ok ()

theorem QC.Sound.carried {authorities : AuthorityList B} {qc : QC B}
    (sound : qc.Sound authorities) :
    qc.eq QC.default = true ∨ qc.verify authorities = .ok () := by
  refine Or.imp_left ?_ sound
  rintro rfl
  exact (QC.eq_default _).mpr ⟨rfl, rfl⟩

structure SoundHigh (g : Setup B) (w : ConsensusWorker B) : Prop where
  prov : Provenance g w
  present : w.state.highQc.Sound g.authorities
  past : ∀ x ∈ w.trace, x.1.highQc.Sound g.authorities

namespace SoundHigh

variable {g : Setup B} {w₀ w w' : ConsensusWorker B} {c : Call B}

/-- A certificate that replaces another one is above it, so it is not for view 0 and does not
pass as the default one. -/
theorem handleQc (high : w.state.highQc.Sound g.authorities) {qc : QC B}
    (carried : qc.eq QC.default = true ∨ qc.verify g.authorities = .ok ()) :
    (w.handleQc qc).state.highQc.Sound g.authorities := by
  rw [handleQc_state]
  dsimp only
  split
  · rename_i taken
    rcases carried with default | verified
    · rw [(qc.eq_default.mp default).2] at taken
      exact absurd taken.2 UInt64.not_lt_zero
    · exact .inr verified
  · exact high

theorem highQc (during : During g w₀ c w) (sound : SoundHigh g w) (move : Move w₀ c w w') :
    w'.state.highQc.Sound g.authorities := by
  have high := sound.present
  cases move with
  | note | scratch | save | canFinalize | finalize | timer | timedOut | propose | addVote
  | addTimeout => exact high
  | proposalTc | receivedTc =>
    rw [advanceView_highQc]
    exact high
  | formedTc t tc =>
    split
    · rw [advanceView_highQc]
      exact high
    · exact high
  | vote p v s called passed seen state current made =>
    obtain ⟨rfl, _⟩ := ConsensusState.makeVote_some made
    exact high
  | voteFails p s made =>
    rcases ConsensusState.makeVote_none made with rfl | ⟨_, rfl⟩ <;> exact high
  | verified p called passed =>
    have checked := ((ConsensusState.verifyProposal_ok _ p).mp passed).2
    rw [during.base.authorities, Proposal.verify_ok] at checked
    exact handleQc (w := w₀.emit (.verified p)) high checked.2
  | timeoutQc t called fresh passed =>
    rw [ConsensusState.verifyTimeout, during.base.authorities, Timeout.verify_ok] at passed
    exact handleQc high passed.2
  | collected v qc called passed moment start hash view votes quorum =>
    have valid := (sound.prov.collected during.base hash view votes quorum).1
    exact handleQc (w := w.emit (.collected qc)) high (.inr valid)

theorem move (during : During g w₀ c w) (sound : SoundHigh g w) (move : Move w₀ c w w') :
    SoundHigh g w' := by
  have after := sound.highQc during move
  refine ⟨sound.prov.move during move, after, fun x entry => ?_⟩
  rcases move.noted entry with old | here | here
  · exact sound.past x old
  · rw [here]
    exact sound.present
  · rw [here]
    exact after

end SoundHigh

theorem soundHigh (g : Setup B) : Invariant g (SoundHigh g) where
  start := ⟨(provenance g).start, .inl rfl, List.forall_mem_nil _⟩
  observe w env sound := ⟨(provenance g).observe w env sound.prov, sound.present, sound.past⟩
  enter w c sound := by
    refine ⟨(provenance g).enter w c sound.prov, sound.present, fun x entry => ?_⟩
    rcases List.mem_append.mp entry with old | new
    · exact sound.past x old
    · rw [List.mem_singleton.mp new]
      exact sound.present
  move _ _ _ _ during _ sound move := sound.move during move

/-! ### Honest nodes -/

/-- The keystore signs, at the start and after every change of the surroundings. -/
structure Setup.Signs (g : Setup B) (actions : List (Action B)) : Prop where
  start : g.keystore.Signs
  environment : ∀ env, .environment env ∈ actions →
    (⟨g.keystore.hasKeys, env.signWith⟩ : Keystore B).Signs

theorem Setup.Signs.issued {g : Setup B} {actions : List (Action B)} (signs : g.Signs actions) :
    (g.run actions).worker.state.keystore.Signs ∧
      ∀ m e, (m, e) ∈ (g.run actions).worker.trace → Issued g.start.worker.state m e := by
  induction actions using List.reverseRecOn with
  | nil => exact ⟨signs.start, fun _ _ entry => absurd entry List.not_mem_nil⟩
  | append_singleton actions a ih =>
    obtain ⟨ready, sofar⟩ := ih ⟨signs.start, fun env mem =>
      signs.environment env (List.mem_append_left _ mem)⟩
    have base := ((provenance g).run actions).1
    rw [g.run_snoc]
    cases entered : (g.run actions).entered a with
    | some c =>
      rw [Node.step_entered entered]
      refine ⟨?_, fun m e entry => ?_⟩
      · have kept := (handle_kept ((g.run actions).worker.emit (.handled c)) c).2
        exact kept.symm ▸ ready
      · have adds := handle_issued (w := (g.run actions).worker.emit (.handled c)) ready c
        rcases adds.entry entry with noted | issued
        · rcases List.mem_append.mp noted with old | new
          · exact sofar m e old
          · cases List.mem_singleton.mp new
            trivial
        · exact issued.congr base.authorities
    | none =>
      cases a with
      | environment env =>
        refine ⟨?_, sofar⟩
        have answers := signs.environment env (List.mem_append_right _ (List.mem_singleton.mpr rfl))
        rw [← base.hasKeys] at answers
        exact answers
      | timer | receive | resume =>
        simp only [Node.step, entered]
        exact ⟨ready, sofar⟩

theorem Symbolic.keystore_signs (id : Nat) : (Symbolic.keystore id).Signs := by
  intro a digest holds
  have own : a = id := of_decide_eq_true holds
  exact ⟨(a, digest), by simp [Symbolic.keystore, own], (symbolic_verify ..).mpr rfl⟩

/-- Whatever a node whose keystore signs has received, the proposals, votes and timeouts it
gossips pass at every node with its authorities, in any state of that node: the certificate
they carry is its `high_qc`, which is the default one or verifies, and it proposes as the
leader of the view it is in. -/
theorem honest_messages_accepted (g : Setup B) (actions : List (Action B))
    (signs : g.Signs actions) :
    ((g.run actions).worker.state.highQc = QC.default ∨
      (g.run actions).worker.state.highQc.verify g.authorities = .ok ()) ∧
    ∀ (s : ConsensusState B) (m : Moment B), s.authorities = g.authorities →
      (∀ p, (m, .gossip (.propose p)) ∈ (g.run actions).worker.trace →
        s.verifyProposal p = .ok ()) ∧
      (∀ v, (m, .gossip (.vote v)) ∈ (g.run actions).worker.trace →
        v.verify s.authorities = .ok ()) ∧
      ∀ t, (m, .gossip (.timeout t)) ∈ (g.run actions).worker.trace →
        s.verifyTimeout t = .ok () := by
  have sound := ((soundHigh g).run actions).2
  have issued := signs.issued.2
  refine ⟨sound.present, fun s m same => ⟨fun p entry => ?_, fun v entry => ?_, fun t entry => ?_⟩⟩
  · obtain ⟨leader, signed, qc⟩ : Issued s m (.gossip (.propose p)) :=
      (issued m _ entry).congr same.symm
    have carried := (sound.past _ entry).carried
    refine (s.verifyProposal_ok p).mpr ⟨leader, (p.verify_ok _).mpr ⟨?_, ?_⟩⟩
    · exact (verifySigned_ok ..).mp signed
    · rw [qc, same]
      exact carried
  · exact Issued.congr (e := .gossip (.vote v)) same.symm (issued m _ entry)
  · obtain ⟨signed, qc⟩ : Issued s m (.gossip (.timeout t)) :=
      (issued m _ entry).congr same.symm
    have carried := (sound.past _ entry).carried
    refine (t.verify_ok _).mpr ⟨(verifySigned_ok ..).mp signed, ?_⟩
    rw [qc, same]
    exact carried

/- Node 2 of four votes, collects the votes of 0 and 3 for the proposal of view 1, proposes in
view 2, votes for its own proposal and times out. -/
theorem honest_messages_accepted_leader :
    let first := Symbolic.signProposal ⟨QC.default, none, ⟨.leaf 7, 1⟩, 1, 1, none⟩
    let vote := fun a => Symbolic.signVote ⟨first.digest, 1, a, none⟩
    let qc := Symbolic.certificate [2, 0, 3] first.digest 1
    let second := Symbolic.signProposal ⟨qc, none, ⟨symbolic.emptyPayloadHash, 1⟩, 2, 2, none⟩
    let actions : List (Action symbolic) := [.receive (.propose first), .resume,
      .receive (.vote (vote 0)), .receive (.vote (vote 3)), .resume, .timer]
    (Symbolic.setup 3 2).Signs actions ∧
      (⟨2, 1, qc⟩, .gossip (.propose second)) ∈ ((Symbolic.setup 3 2).run actions).worker.trace ∧
      ∀ s : ConsensusState symbolic, s.authorities = Symbolic.authorities 4 →
        s.verifyProposal second = .ok () := by
  intro first vote qc second actions
  have signs : (Symbolic.setup 3 2).Signs actions :=
    ⟨Symbolic.keystore_signs 2, fun env mem => by simp [actions] at mem⟩
  have told : (⟨2, 1, qc⟩, .gossip (.propose second)) ∈
      ((Symbolic.setup 3 2).run actions).worker.trace := by
    decide +kernel
  exact ⟨signs, told, fun s same =>
    ((honest_messages_accepted (Symbolic.setup 3 2) actions signs).2 s _ same).1 second told⟩

end Hotstuff
