import Hotstuff.Import
import Hotstuff.Views

/-! Inputs without a signature of an authority: which of them a node is blind to. -/
namespace Hotstuff

variable {B : BlockT}

namespace ConsensusWorker

/-! ### The history is never read -/

def retrace (w : ConsensusWorker B) (trace : List (Moment B × Event B)) : ConsensusWorker B :=
  { w with trace := trace }

/-- The outcomes agree but for the history. -/
def Alike (o o' : Outcome B) : Prop := ∃ trace, o' = (o.1.retrace trace, o.2)

variable (w : ConsensusWorker B) (trace : List (Moment B × Event B))

theorem handleQc_retrace (qc : QC B) :
    ∃ trace', (w.retrace trace).handleQc qc = (w.handleQc qc).retrace trace' := by
  by_cases ahead : w.state.view ≤ qc.view
  · rw [handleQc_ahead w qc ahead, handleQc_ahead (w.retrace trace) qc ahead]
    exact ⟨_, rfl⟩
  · rw [handleQc_behind w qc ahead, handleQc_behind (w.retrace trace) qc ahead]
    exact ⟨_, rfl⟩

theorem handleProposalTc_retrace (tc : Option (TC B)) :
    ∃ trace', (w.retrace trace).handleProposalTc tc =
      (w.handleProposalTc tc).retrace trace' := by
  cases tc with
  | none => exact ⟨_, rfl⟩
  | some tc =>
    unfold handleProposalTc
    dsimp only [retrace]
    by_cases ahead : w.state.view < tc.view <;> simp only [ahead, if_true, if_false] <;>
      exact ⟨_, rfl⟩

theorem getProposalPayload_retrace :
    (w.retrace trace).getProposalPayload =
      (w.getProposalPayload.1.retrace trace, w.getProposalPayload.2) := by
  obtain ⟨state, networkView, client, synchronizer, processing, queue, hashes, old⟩ := w
  unfold getProposalPayload retrace
  dsimp only
  cases queue with
  | none => rfl
  | some queue =>
    cases processing with
    | none => cases queue <;> rfl
    | some processing =>
      dsimp only
      split
      · rfl
      · cases queue.find? fun elem => decide (client.finalizedNumber < elem.number) <;> rfl

theorem generateProposal_retrace (tc : Option (TC B)) :
    Alike (w.generateProposal tc) ((w.retrace trace).generateProposal tc) := by
  unfold generateProposal
  rw [getProposalPayload_retrace]
  obtain ⟨u, payload⟩ := w.getProposalPayload
  cases payload with
  | none => exact ⟨_, rfl⟩
  | some payload =>
    dsimp only [retrace]
    cases u.state.makeProposal payload tc <;> exact ⟨_, rfl⟩

theorem proposeOnQc_retrace : Alike w.proposeOnQc (w.retrace trace).proposeOnQc := by
  unfold proposeOnQc
  rw [getProposalPayload_retrace]
  obtain ⟨u, payload⟩ := w.getProposalPayload
  cases payload with
  | none => exact ⟨_, rfl⟩
  | some payload =>
    dsimp only [retrace]
    split
    · exact ⟨_, rfl⟩
    · cases u.state.makeProposal payload none <;> exact ⟨_, rfl⟩

theorem handleLocalTimer_retrace : Alike w.handleLocalTimer (w.retrace trace).handleLocalTimer := by
  unfold handleLocalTimer
  dsimp only [retrace, emit]
  cases w.state.increaseLastVotedView.makeTimeout <;> exact ⟨_, rfl⟩

theorem announceTc_retrace (tc : TC B) :
    Alike (w.announceTc tc) ((w.retrace trace).announceTc tc) := by
  unfold announceTc
  dsimp only [retrace, emit]
  split
  · exact generateProposal_retrace { w.emit (.gossip (.tc tc)) with processingBlock := none }
      (trace ++ [(w.state.moment, .gossip (.tc tc))]) (some tc)
  · exact ⟨_, rfl⟩

theorem handleFormedTc_retrace (tc : TC B) :
    Alike (w.handleFormedTc tc) ((w.retrace trace).handleFormedTc tc) := by
  by_cases ahead : w.state.view ≤ tc.view
  · rw [handleFormedTc_ahead ahead, handleFormedTc_ahead (w := w.retrace trace) ahead]
    exact announceTc_retrace (((w.emit (.acceptTc tc)).advanceView tc.view).emit .resetTimer) _ tc
  · rw [handleFormedTc_behind ahead, handleFormedTc_behind (w := w.retrace trace) ahead]
    exact announceTc_retrace (w.emit (.acceptTc tc)) _ tc

theorem handleTimeout_retrace (t : Timeout B) :
    Alike (w.handleTimeout t) ((w.retrace trace).handleTimeout t) := by
  obtain ⟨trace', followed⟩ := handleQc_retrace w trace t.highQc
  unfold handleTimeout
  rw [followed]
  generalize w.handleQc t.highQc = u
  dsimp only [retrace]
  by_cases stale : t.view < w.state.view
  · simp only [stale, if_true]
    exact ⟨_, rfl⟩
  · simp only [stale, if_false]
    cases w.state.verifyTimeout t with
    | error e => exact ⟨_, rfl⟩
    | ok _ =>
      dsimp only
      obtain ⟨s, formed⟩ := u.state.addTimeout t
      rcases formed with e | _ | tc
      · exact ⟨_, rfl⟩
      · exact ⟨_, rfl⟩
      · exact handleFormedTc_retrace { u with state := s } trace' tc

theorem tryFinalize_retrace (p : Proposal B) :
    ∃ trace', (w.retrace trace).tryFinalize p = (w.tryFinalize p).retrace trace' := by
  obtain ⟨state, networkView, client, synchronizer, processing, queue, hashes, old⟩ := w
  unfold tryFinalize
  dsimp only [retrace, emit]
  split
  · exact ⟨_, rfl⟩
  · split
    · split
      · split <;> exact ⟨_, rfl⟩
      · exact ⟨_, rfl⟩
    · exact ⟨_, rfl⟩

theorem voteFor_retrace (p : Proposal B) : Alike (w.voteFor p) ((w.retrace trace).voteFor p) := by
  unfold voteFor
  dsimp only [retrace, emit]
  by_cases current : p.view = w.state.view
  · simp only [current, ne_eq, not_true_eq_false, if_false]
    rcases w.state.makeVote p with ⟨s, _ | v⟩
    · exact ⟨_, rfl⟩
    · by_cases next : s.localAuthorityId = some (s.viewLeader (s.view + 1)) <;>
        simp only [next, if_true, if_false] <;> exact ⟨_, rfl⟩
  · simp only [current, ne_eq, not_false_eq_true, if_true]
    exact ⟨_, rfl⟩

theorem handleProposal_retrace (p : Proposal B) :
    Alike (w.handleProposal p) ((w.retrace trace).handleProposal p) := by
  obtain ⟨first, followed⟩ := handleQc_retrace (w.emit (.verified p))
    (trace ++ [(w.state.moment, .verified p)]) p.qc
  obtain ⟨second, timed⟩ :=
    handleProposalTc_retrace ((w.emit (.verified p)).handleQc p.qc) first p.tc
  have accepted : (((w.retrace trace).emit (.verified p)).handleQc p.qc).handleProposalTc p.tc =
      (((w.emit (.verified p)).handleQc p.qc).handleProposalTc p.tc).retrace second :=
    (congrArg (handleProposalTc · p.tc) followed).trans timed
  have payload : (w.retrace trace).checkPayload p.payload = w.checkPayload p.payload := rfl
  have verified : (w.retrace trace).state.verifyProposal p = w.state.verifyProposal p := rfl
  unfold handleProposal
  dsimp only
  rw [accepted, payload, verified]
  generalize ((w.emit (.verified p)).handleQc p.qc).handleProposalTc p.tc = u
  rcases w.checkPayload p.payload with e | _ | _
  · exact ⟨_, rfl⟩
  · exact ⟨_, rfl⟩
  · cases w.state.verifyProposal p with
    | error e => exact ⟨_, rfl⟩
    | ok _ =>
      dsimp only [retrace]
      cases u.synchronizer.saveProposal p with
      | error e => exact ⟨_, rfl⟩
      | ok s =>
        obtain ⟨third, tried⟩ := tryFinalize_retrace { u with synchronizer := s } second p
        dsimp only [retrace] at tried ⊢
        rw [tried]
        exact voteFor_retrace ({ u with synchronizer := s }.tryFinalize p) third p

theorem handleVote_retrace (v : Vote B) :
    Alike (w.handleVote v) ((w.retrace trace).handleVote v) := by
  have led : ∀ (u u' : ConsensusWorker B) trace, u' = u.retrace trace → Alike
      (if u.state.localAuthorityId = some (u.state.viewLeader u.state.view) then u.proposeOnQc
        else u.done)
      (if u'.state.localAuthorityId = some (u'.state.viewLeader u'.state.view) then u'.proposeOnQc
        else u'.done) := by
    rintro u _ trace rfl
    dsimp only [retrace]
    by_cases leads : u.state.localAuthorityId = some (u.state.viewLeader u.state.view)
    · simp only [leads, if_true]
      exact proposeOnQc_retrace u trace
    · simp only [leads, if_false]
      exact ⟨_, rfl⟩
  unfold handleVote
  dsimp only [retrace]
  cases w.state.verifyVote v with
  | error e => exact ⟨_, rfl⟩
  | ok _ =>
    dsimp only
    cases (w.state.addVote v).2 with
    | error e => exact ⟨_, rfl⟩
    | ok formed =>
      cases formed with
      | none => exact ⟨_, rfl⟩
      | some qc =>
        obtain ⟨trace', followed⟩ := handleQc_retrace
          ({ w with state := (w.state.addVote v).1 }.emit (.collected qc))
          (trace ++ [((w.state.addVote v).1.moment, .collected qc)]) qc
        exact led _ _ trace' followed

theorem handleTc_retrace (tc : TC B) : Alike (w.handleTc tc) ((w.retrace trace).handleTc tc) := by
  unfold handleTc
  dsimp only [retrace]
  cases w.state.verifyTc tc with
  | error e => exact ⟨_, rfl⟩
  | ok _ =>
    dsimp only [advanceView, emit]
    by_cases leads : (w.state.advanceViewFromTarget tc.view).isLeader
    · simp only [leads, if_true]
      exact generateProposal_retrace
        { ((w.emit (.acceptTc tc)).advanceView tc.view).emit .resetTimer with
          processingBlock := none } _ none
    · simp only [leads]
      exact ⟨_, rfl⟩

theorem handle_retrace (c : Call B) : Alike (w.handle c) ((w.retrace trace).handle c) := by
  cases c with
  | localTimer => exact handleLocalTimer_retrace w trace
  | timeout t => exact handleTimeout_retrace w trace t
  | proposal p => exact handleProposal_retrace w trace p
  | vote v => exact handleVote_retrace w trace v
  | tc tc => exact handleTc_retrace w trace tc

end ConsensusWorker

open ConsensusWorker

/-- A node but for its history: the consensus state with its counts, the store of proposals,
the block in process, the client with its finalized block, and the call in hand. -/
def Node.forget (n : Node B) : Node B := { n with worker := n.worker.retrace [] }

theorem Node.forget_eq {n n' : Node B} (same : n.forget = n'.forget) :
    n' = ⟨n.worker.retrace n'.worker.trace, n.pending⟩ := by
  obtain ⟨w, pending⟩ := n
  obtain ⟨w', pending'⟩ := n'
  cases w
  cases w'
  simp only [forget, retrace, Node.mk.injEq, ConsensusWorker.mk.injEq] at same
  simp only [retrace, Node.mk.injEq, ConsensusWorker.mk.injEq, and_true]
  tauto

theorem Node.enter_blind {n n' : Node B} (same : n.forget = n'.forget) (c : Call B) :
    (n.enter c).forget = (n'.enter c).forget := by
  rw [forget_eq same]
  obtain ⟨trace, alike⟩ := handle_retrace (n.worker.emit (.handled c))
    (n'.worker.trace ++ [(n.worker.state.moment, .handled c)]) c
  have entered : ((n.worker.retrace n'.worker.trace).emit (.handled c)).handle c =
    (((n.worker.emit (.handled c)).handle c).1.retrace trace,
      ((n.worker.emit (.handled c)).handle c).2) := alike
  simp only [enter, entered]
  rfl

theorem Node.absorb_blind (n n' : Node B) (a : Input B) (same : n.forget = n'.forget) :
    (n.absorb a).forget = (n'.absorb a).forget := by
  have pending : n.forget.pending = n'.forget.pending := congrArg Node.pending same
  change n.pending = n'.pending at pending
  cases a with
  | justification hash number justification =>
    rw [forget_eq same]
    rfl
  | action a =>
    cases a with
    | environment env =>
      rw [forget_eq same]
      rfl
    | timer | receive | resume =>
      simp only [absorb, step, entered, ← pending]
      split
      · exact enter_blind same _
      · exact same

/-! ### Inputs of outsiders -/

/-- The signatures in a message, each with the id and the digest it is meant for. -/
def ConsensusMessage.attached :
    ConsensusMessage B → List (B.AuthorityId × B.AuthoritySignature × B.Hash)
  | .propose p => (p.signature.toList.map fun s => (p.author, s, p.digest)) ++ p.qc.ballots ++
      p.tc.toList.flatMap TC.ballots
  | .vote v => v.signature.toList.map fun s => (v.voter, s, v.digest)
  | .timeout t => (t.signature.toList.map fun s => (t.voter, s, t.digest)) ++ t.highQc.ballots
  | .tc c => c.ballots
  | .syncRequest _ _ | .phantom => []

/-- No valid signature made with an authority's key. -/
def Unsigned (authorities : AuthorityList B)
    (attached : List (B.AuthorityId × B.AuthoritySignature × B.Hash)) : Prop :=
  ∀ x ∈ attached, x.1 ∈ authorities.ids → B.verify x.2.1 x.2.2 x.1 = false

instance (authorities : AuthorityList B)
    (attached : List (B.AuthorityId × B.AuthoritySignature × B.Hash)) :
    Decidable (Unsigned authorities attached) :=
  inferInstanceAs (Decidable (∀ x ∈ attached, x.1 ∈ authorities.ids → _ = false))

theorem Unsigned.rejects {authorities : AuthorityList B}
    {attached : List (B.AuthorityId × B.AuthoritySignature × B.Hash)}
    (unsigned : Unsigned authorities attached) {id : B.AuthorityId}
    {signature : Option B.AuthoritySignature} {digest : B.Hash}
    (listed : ∀ s, signature = some s → (id, s, digest) ∈ attached) :
    ¬ (id ∈ authorities.ids ∧ ∃ s, signature = some s ∧ B.verify s digest id = true) := by
  rintro ⟨member, s, own, valid⟩
  have invalid := unsigned _ (listed s own) member
  rw [valid] at invalid
  cases invalid

namespace Input

/- No format of justifications is fixed anywhere, so what signatures one holds is a parameter. -/
variable (reading : Justification B → List (B.AuthorityId × B.AuthoritySignature × B.Hash))

def Outside (authorities : AuthorityList B) : Input B → Prop
  | .action (.receive m) => Unsigned authorities m.attached
  | .justification _ _ j => Unsigned authorities (reading j)
  | .action .timer | .action .resume | .action (.environment _) => False

instance (authorities : AuthorityList B) : DecidablePred (Outside reading authorities) :=
  fun a => by
    cases a with
    | action a => cases a <;> unfold Outside <;> infer_instance
    | justification => unfold Outside; infer_instance

/-- Neither a timeout certificate that passes `verify_tc` nor a justification by which the
client finalizes another block. -/
def Harmless (n : Node B) : Input B → Prop
  | .action (.receive (.tc c)) => n.pending = none → n.worker.state.verifyTc c ≠ .ok ()
  | .justification hash _ _ => ∀ number, n.worker.client.finalizeBlock hash = .ok number →
      hash = n.worker.client.finalizedHash ∧ number = n.worker.client.finalizedNumber
  | _ => True

variable {reading} {n : Node B}

/-- A call that changes nothing but the history and calls nothing. -/
theorem enter_forget {c : Call B} (idle : n.pending = none)
    (trace : List (Moment B × Event B))
    (left : ((n.worker.emit (.handled c)).handle c).1 = n.worker.retrace trace)
    (ended : ∀ next, ((n.worker.emit (.handled c)).handle c).2 ≠ .ok (some next)) :
    (n.enter c).forget = n.forget := by
  have ended' : (n.enter c).pending = none := by
    cases result : ((n.worker.emit (.handled c)).handle c).2 with
    | error e => simp only [Node.enter, result]
    | ok next =>
      cases next with
      | none => simp only [Node.enter, result]
      | some next => exact absurd result (ended next)
  unfold Node.forget
  rw [ended', idle]
  exact congrArg (fun w => Node.mk (w.retrace []) none) left

theorem handleProposal_unsigned {w : ConsensusWorker B} {p : Proposal B}
    (unsigned : Unsigned w.state.authorities (ConsensusMessage.propose p).attached) :
    (∃ trace, (w.handleProposal p).1 = w.retrace trace) ∧
      ∀ next, (w.handleProposal p).2 ≠ .ok (some next) := by
  unfold handleProposal
  split
  · exact ⟨⟨_, rfl⟩, nofun⟩
  · exact ⟨⟨_, rfl⟩, nofun⟩
  · split
    · exact ⟨⟨_, rfl⟩, nofun⟩
    · rename_i passed
      obtain ⟨_, verified⟩ := (w.state.verifyProposal_ok p).mp passed
      refine absurd ((p.verify_ok _).mp verified).1 (unsigned.rejects fun s own => ?_)
      simp [ConsensusMessage.attached, own]

theorem verifyTimeout_unsigned {s : ConsensusState B} {t : Timeout B}
    (unsigned : Unsigned s.authorities (ConsensusMessage.timeout t).attached) :
    s.verifyTimeout t ≠ .ok () := by
  intro verified
  refine absurd ((t.verify_ok _).mp verified).1 (unsigned.rejects fun sig own => ?_)
  simp [ConsensusMessage.attached, own]

theorem verifyVote_unsigned {s : ConsensusState B} {v : Vote B}
    (unsigned : Unsigned s.authorities (ConsensusMessage.vote v).attached) :
    s.verifyVote v ≠ .ok () := by
  intro verified
  have checked := ((s.verifyVote_ok v).mp verified).2
  refine absurd ((v.verify_ok _).mp checked) (unsigned.rejects fun sig own => ?_)
  simp [ConsensusMessage.attached, own]

theorem receive_stays {m : ConsensusMessage B}
    (unsigned : Unsigned n.worker.state.authorities m.attached)
    (harmless : (Input.action (.receive m)).Harmless n) :
    (n.step (.receive m)).forget = n.forget := by
  simp only [Node.step, Node.entered]
  cases pending : n.pending with
  | some c => rfl
  | none =>
    cases m with
    | propose p =>
      obtain ⟨⟨trace, left⟩, ended⟩ :=
        handleProposal_unsigned (w := n.worker.emit (.handled (.proposal p))) unsigned
      exact enter_forget pending trace left ended
    | vote v =>
      obtain ⟨left, ended⟩ := handleVote_rejected (n.worker.emit (.handled (.vote v))) v
        (verifyVote_unsigned unsigned)
      exact enter_forget pending _ left ended
    | timeout t =>
      obtain ⟨left, ended⟩ := handleTimeout_rejected (n.worker.emit (.handled (.timeout t))) t
        fun accepted => verifyTimeout_unsigned unsigned accepted.2
      exact enter_forget pending _ left ended
    | tc c =>
      obtain ⟨left, ended⟩ := handleTc_rejected (n.worker.emit (.handled (.tc c))) c
        (harmless pending)
      exact enter_forget pending _ left ended
    | syncRequest | phantom => rfl

theorem Outside.stays {authorities : AuthorityList B} {a : Input B}
    (same : n.worker.state.authorities = authorities) (outside : a.Outside reading authorities)
    (harmless : a.Harmless n) : (n.absorb a).forget = n.forget := by
  cases a with
  | action a =>
    cases a with
    | receive m => exact receive_stays (same ▸ outside) harmless
    | timer | resume | environment => exact outside.elim
  | justification hash number j =>
    simp only [Node.absorb, JustificationImport.importJustification,
      HotstuffBlockImport.importJustification]
    cases answer : n.worker.client.finalizeBlock hash with
    | error e => rfl
    | ok finalized =>
      obtain ⟨rfl, rfl⟩ := harmless finalized answer
      rfl

end Input

theorem Node.absorb_authorities (n : Node B) (a : Input B) :
    (n.absorb a).worker.state.authorities = n.worker.state.authorities := by
  cases a with
  | justification => rfl
  | action a =>
    rcases n.step_cases a with ⟨env, seen⟩ | ⟨c, _, entered⟩
    · exact congrArg (·.worker.state.authorities) seen
    · refine (congrArg (·.worker.state.authorities) entered).trans ?_
      exact (handle_kept (n.worker.emit (.handled c)) c).1

/-- A run in which no certificate of outsiders passes `verify_tc`, and no justification of
outsiders makes the client finalize another block: each of their inputs leaves the node as it
is, and without all of them the node ends up the same. -/
theorem outsiders_cannot_influence (g : Setup B)
    (reading : Justification B → List (B.AuthorityId × B.AuthoritySignature × B.Hash))
    (inputs : List (Input B))
    (harmless : Runs.Along Node.absorb
      (fun n a => a.Outside reading g.authorities → a.Harmless n) g.start inputs) :
    (∀ first a, first ++ [a] <+: inputs → a.Outside reading g.authorities →
      (g.absorb (first ++ [a])).forget = (g.absorb first).forget) ∧
    (g.absorb (inputs.filter fun a => ¬ a.Outside reading g.authorities)).forget =
      (g.absorb inputs).forget := by
  have guarded := harmless.and_invariant Node.absorb
    (I := fun n => n.worker.state.authorities = g.authorities)
    (fun n a same => (n.absorb_authorities a).trans same) rfl
  refine ⟨?_, ?_⟩
  · rintro first a ⟨rest, rfl⟩ outside
    obtain ⟨sofar, _⟩ := (Runs.along_append ..).mp guarded
    obtain ⟨_, same, allowed⟩ := (Runs.along_snoc ..).mp sofar
    unfold Setup.absorb
    rw [Runs.run_snoc]
    exact outside.stays same (allowed outside)
  · exact Runs.purge Node.absorb Node.forget Node.absorb_blind
      (fun n a outside allowed => outside.stays allowed.1 (allowed.2 outside)) rfl guarded

/- Two outsiders, a vote of the one and a timeout certificate of the other, and a timer. -/
theorem outsiders_cannot_influence_alone :
    let g := Symbolic.setup 3 0
    let vote : Input symbolic :=
      .action (.receive (.vote (Symbolic.signVote ⟨.leaf 9, 0, 10, none⟩)))
    let tc : Input symbolic := .action (.receive (.tc (Symbolic.timeoutCertificate [11] 0 0)))
    vote.Outside (fun _ => []) g.authorities ∧ tc.Outside (fun _ => []) g.authorities ∧
      (g.absorb [vote, tc, .action .timer]).forget = (g.absorb [.action .timer]).forget := by
  intro g vote tc
  have outside : vote.Outside (fun _ => []) g.authorities := by decide +kernel
  have outside' : tc.Outside (fun _ => []) g.authorities := by decide +kernel
  have rejected : (g.absorb [vote]).worker.state.verifyTc
      (Symbolic.timeoutCertificate [11] 0 0) ≠ .ok () := by decide +kernel
  have purged : ([vote, tc, .action .timer].filter
      fun a => ¬ a.Outside (fun _ => []) g.authorities) = [.action .timer] := by
    have own : ¬ (Input.action .timer).Outside (fun _ => []) g.authorities := fun never => never
    simp [outside, outside', own]
  have whole := (outsiders_cannot_influence g (fun _ => []) [vote, tc, .action .timer]
    ⟨fun _ => trivial, fun _ _ => rejected, fun never => never.elim, trivial⟩).2
  rw [purged] at whole
  exact ⟨outside, outside', whole.symm⟩

/- A timeout certificate of three outsiders moves a node on, and an empty justification
finalizes a block. -/
theorem outsiders_influence :
    let g := Symbolic.setup 3 0
    let tc : Input symbolic :=
      .action (.receive (.tc (Symbolic.timeoutCertificate [10, 11, 12] 0 0)))
    let justification : Input symbolic := .justification (.leaf 9) 5 ([], [])
    (tc.Outside (fun _ => []) g.authorities ∧
      (g.absorb [tc]).worker.state.view ≠ (g.absorb []).worker.state.view) ∧
    justification.Outside (fun _ => []) g.authorities ∧
      (g.absorb [justification]).worker.client.finalizedHash ≠
        (g.absorb []).worker.client.finalizedHash := by
  decide +kernel

end Hotstuff
