import Hotstuff.History
import Hotstuff.Symbolic

/-! The voting discipline of one node, over every run. -/
namespace Hotstuff

variable {B : BlockT}

open ConsensusWorker

/-- Votes have strictly increasing views, none follows the timer of its view or of a later
one, and each is for a verified proposal of the leader of the node's view. -/
theorem vote_discipline (g : Setup B) (actions : List (Action B)) :
    let trace := (g.run actions).worker.trace
    (∀ m p v m' p' v', Before trace (m, .voted p v) (m', .voted p' v') → v.view < v'.view) ∧
    (∀ m m' p v, Before trace (m, .localTimer) (m', .voted p v) → m.view < v.view) ∧
    ∀ m p v, (m, .voted p v) ∈ trace → LawfulVote g.start.worker.state m p v ∧
      ∃ m', Before trace (m', .verified p) (m, .voted p v) := by
  obtain ⟨_, history, recorded⟩ := (recorded g).run actions
  refine ⟨?_, ?_, ?_⟩
  · intro m p v m' p' v' before
    obtain ⟨lawful, _, _, adopts⟩ := recorded m (.voted p v) before.first
    have later := (history.order before).2.2 p' v' rfl
    rwa [adopts.lastVotedView, ← lawful.view] at later
  · intro m m' p v before
    have given : m.view ≤ m.lastVotedView := recorded m .localTimer before.first
    exact UInt64.lt_of_le_of_lt given ((history.order before).2.2 p v rfl)
  · intro m p v voted
    obtain ⟨lawful, m', before, _⟩ := recorded m _ voted
    exact ⟨lawful, m', before⟩

/-! ### The rule -/

/-- A valid timeout certificate of the view before `p` that knows nothing above its branch. -/
def TC.Excuses (tc : TC B) (authorities : AuthorityList B) (p : Proposal B) : Prop :=
  tc.verify authorities = .ok () ∧ tc.view + 1 = p.view ∧ ∀ v ∈ tc.votes, v.2.2 ≤ p.qc.view

instance (tc : TC B) (authorities : AuthorityList B) (p : Proposal B) :
    Decidable (tc.Excuses authorities p) :=
  inferInstanceAs (Decidable (_ ∧ _ ∧ _))

/-- The rule of the two-chain protocol for a vote cast at `m`: the branch is not older than
the highest certificate known, or a timeout certificate of the view before excuses it. -/
def SafeVote (authorities : AuthorityList B) (m : Moment B) (p : Proposal B) : Prop :=
  m.highQc.view ≤ p.qc.view ∨ ∃ tc ∈ p.tc, tc.Excuses authorities p

instance (authorities : AuthorityList B) (m : Moment B) (p : Proposal B) :
    Decidable (SafeVote authorities m p) :=
  inferInstanceAs (Decidable (_ ∨ ∃ tc ∈ p.tc, tc.Excuses authorities p))

def ConsensusWorker.emitted (w : ConsensusWorker B) (o : Outcome B) :
    List (Moment B × Event B) :=
  o.1.trace.drop w.trace.length

def ConsensusWorker.VotesFor (w : ConsensusWorker B) (p : Proposal B) : Prop :=
  ∃ m v, (m, .voted p v) ∈ w.emitted (w.handleProposal p)

/-- The rule of the code. -/
structure ConsensusWorker.MayVote (w : ConsensusWorker B) (p : Proposal B) : Prop where
  payload : w.checkPayload p.payload = .ok true
  verified : w.state.verifyProposal p = .ok ()
  saved : ∃ s, w.synchronizer.saveProposal p = .ok s
  current : p.view = advanced w.state.view p.qc.view
  fresh : w.state.lastVotedView < p.view
  signed : ∃ id signature, w.state.localAuthorityId = some id ∧
    w.state.keystore.signWith id (B.hashOf (voteData p.digest p.view)) = .ok signature

namespace ConsensusWorker

def Voteless (w w' : ConsensusWorker B) : Prop :=
  ∃ new, w'.trace = w.trace ++ new ∧ ∀ m p v, (m, .voted p v) ∉ new

theorem Voteless.of_adds {w w' : ConsensusWorker B}
    (adds : Adds (fun _ e => ∀ p v, e ≠ .voted p v) w w') : Voteless w w' := by
  obtain ⟨new, grown, other⟩ := adds
  exact ⟨new, grown, fun m p v voted => other m _ voted p v rfl⟩

/-- After the checks that precede it, the vote is decided by the view, the last voted view
and the keystore alone. -/
theorem voteFor_trace (w : ConsensusWorker B) (p : Proposal B) :
    ∃ new, (w.voteFor p).1.trace = w.trace ++ new ∧
      ((∃ m v, (m, .voted p v) ∈ new) ↔
        p.view = w.state.view ∧ ∃ s v, w.state.makeVote p = (s, some v)) ∧
      ∀ m q v, (m, .voted q v) ∈ new → m.highQc = w.state.highQc := by
  unfold voteFor
  split
  · rename_i elsewhere
    exact ⟨[], by simp [done], by simp [elsewhere], by simp⟩
  · rename_i current
    have current : p.view = w.state.view := not_not.mp current
    split
    · rename_i s made
      exact ⟨[], by simp [done], by simp [made], by simp⟩
    · rename_i s v made
      have kept : s.moment.highQc = w.state.highQc := by
        rw [(ConsensusState.makeVote_some made).1]
        rfl
      dsimp only
      split
      · refine ⟨[(s.moment, .voted p v)], rfl, by simp [current, made], ?_⟩
        intro m q u voted
        cases List.mem_singleton.mp voted
        exact kept
      · refine ⟨[(s.moment, .voted p v), (s.moment, .gossip (.vote v))], ?_,
          by simp [current, made], ?_⟩
        · exact List.append_assoc w.trace [_] [_]
        · intro m q u voted
          simp only [List.mem_cons, Prod.mk.injEq, reduceCtorEq, and_false, List.not_mem_nil,
            or_false] at voted
          rw [voted.1]
          exact kept

theorem emitted_of_trace {w : ConsensusWorker B} {o : Outcome B} {new : List (Moment B × Event B)}
    (grown : o.1.trace = w.trace ++ new) : w.emitted o = new := by
  rw [emitted, grown, List.drop_left]

theorem handleProposal_reaches {w : ConsensusWorker B} {p : Proposal B} {s : Synchronizer B}
    (payload : w.checkPayload p.payload = .ok true) (verified : w.state.verifyProposal p = .ok ())
    (saved : w.synchronizer.saveProposal p = .ok s) :
    ∃ w', w.handleProposal p = w'.voteFor p ∧ Voteless w w' ∧
      w'.state = (w.handleQc p.qc).state := by
  refine ⟨{ ((w.emit (.verified p)).handleQc p.qc).handleProposalTc p.tc with
    synchronizer := s }.tryFinalize p, ?_, .of_adds ?_, ?_⟩
  · simp [handleProposal, payload, verified, saved]
  · have certified := Adds.certificates (P := fun _ e => ∀ p v, e ≠ .voted p v) (w := w) p
      (by simp) (by simp) (by simp)
    exact (certified.trans (.of_eq rfl)).trans (.tryFinalize p (by simp) (by simp))
  · rw [(tryFinalize_frame _ p).1, handleProposalTc_state, handleQc_state, handleQc_state]
    rfl

/-- The ways out before the vote. -/
theorem handleProposal_leaves {w : ConsensusWorker B} {p : Proposal B}
    (stops : ¬ (w.checkPayload p.payload = .ok true ∧ w.state.verifyProposal p = .ok () ∧
      ∃ s, w.synchronizer.saveProposal p = .ok s)) : Voteless w (w.handleProposal p).1 := by
  refine .of_adds ?_
  unfold handleProposal
  split
  · exact .refl
  · exact Adds.refl.emit (by simp)
  · rename_i payload
    split
    · exact .refl
    · rename_i verified
      dsimp only
      split
      · exact .certificates p (by simp) (by simp) (by simp)
      · rename_i s saved
        exact absurd ⟨payload, verified, s, by simpa using saved⟩ stops

/-- What `handle_proposal` does to the history: it emits a vote for `p` by the rule of the
code, and `highQc` at that moment is what the certificate of `p` has made of it. -/
theorem handleProposal_votes (w : ConsensusWorker B) (p : Proposal B) :
    (w.VotesFor p ↔ w.MayVote p) ∧ ∀ m q v, (m, .voted q v) ∈ w.emitted (w.handleProposal p) →
      m.highQc = (w.handleQc p.qc).state.highQc := by
  by_cases stored : w.checkPayload p.payload = .ok true ∧ w.state.verifyProposal p = .ok () ∧
      ∃ s, w.synchronizer.saveProposal p = .ok s
  · obtain ⟨payload, verified, s, saved⟩ := stored
    obtain ⟨w', whole, ⟨new, grown, none⟩, state⟩ := handleProposal_reaches payload verified saved
    obtain ⟨new', grown', rule, high⟩ := voteFor_trace w' p
    have entries : w.emitted (w.handleProposal p) = new ++ new' :=
      emitted_of_trace (by rw [whole, grown', grown, List.append_assoc])
    have late : ∀ m q v, (m, .voted q v) ∈ new ++ new' ↔ (m, .voted q v) ∈ new' := by
      intro m q v
      simp [none m q v]
    simp only [VotesFor, entries, late]
    refine ⟨?_, fun m q v voted => state ▸ high m q v voted⟩
    rw [rule, ConsensusState.makeVote_iff, state, handleQc_state]
    constructor
    · rintro ⟨current, fresh, id, signature, own, signed⟩
      exact ⟨payload, verified, ⟨s, saved⟩, current, fresh, id, signature, own, signed⟩
    · rintro ⟨_, _, _, current, fresh, id, signature, own, signed⟩
      exact ⟨current, fresh, id, signature, own, signed⟩
  · obtain ⟨new, grown, quiet⟩ := handleProposal_leaves stored
    simp only [VotesFor, emitted_of_trace grown]
    refine ⟨⟨fun ⟨m, v, voted⟩ => absurd voted (quiet m p v), fun may => ?_⟩,
      fun m q v voted => absurd voted (quiet m q v)⟩
    exact absurd ⟨may.payload, may.verified, may.saved⟩ stored

/-- The rule by which votes are cast. It asks for a verified proposal of the node's view,
above the last voted one; neither `highQc` nor the TC of the proposal takes part, so a
vote for a branch older than `highQc` is cast whenever such a proposal comes in. -/
theorem voting_rule (w : ConsensusWorker B) (p : Proposal B) :
    (w.VotesFor p ↔ w.MayVote p) ∧
    (∀ highQc tc, { w with state := { w.state with highQc := highQc } }.VotesFor
      { p with tc := tc } ↔ w.VotesFor p) ∧
    ∀ m v, (m, .voted p v) ∈ w.emitted (w.handleProposal p) →
      (m.highQc.view ≤ p.qc.view ↔ w.state.highQc.view ≤ p.qc.view) := by
  refine ⟨(handleProposal_votes w p).1, ?_, ?_⟩
  · intro highQc tc
    rw [(handleProposal_votes _ _).1, (handleProposal_votes w p).1]
    have saved : (∃ s, w.synchronizer.saveProposal { p with tc := tc } = .ok s) ↔
        ∃ s, w.synchronizer.saveProposal p = .ok s := by
      rw [saveProposal_ok, saveProposal_ok]
      rfl
    constructor
    · rintro ⟨payload, verified, stored, current, fresh, signed⟩
      exact ⟨payload, verified, saved.mp stored, current, fresh, signed⟩
    · rintro ⟨payload, verified, stored, current, fresh, signed⟩
      exact ⟨payload, verified, saved.mpr stored, current, fresh, signed⟩
  · intro m v voted
    rw [(handleProposal_votes w p).2 m p v voted, handleQc_state]
    dsimp only
    split
    · rename_i replaced
      exact ⟨fun _ => UInt64.le_of_lt replaced.2, fun _ => UInt64.le_refl _⟩
    · rfl

end ConsensusWorker

/- Node 0 of four reaches view 3 holding a certificate of view 1 and then votes for a
proposal of the leader of view 3 that extends nothing and carries no TC. -/
theorem voting_rule_unsafe :
    let payload : Payload symbolic := ⟨.leaf 7, 1⟩
    let first := Symbolic.signProposal ⟨QC.default, none, payload, 1, 1, none⟩
    let second := Symbolic.signProposal
      ⟨Symbolic.certificate [1, 2, 3] first.digest 1, none, payload, 2, 2, none⟩
    let stale := Symbolic.signProposal ⟨QC.default, none, payload, 3, 3, none⟩
    let trace := ((Symbolic.setup 3 0).run [.receive (.propose first), .receive (.propose second),
      .receive (.tc (Symbolic.timeoutCertificate [1, 2, 3] 2 1)),
      .receive (.propose stale)]).worker.trace
    ∃ x ∈ trace, x.2 = .voted stale (Symbolic.signVote ⟨stale.digest, 3, 0, none⟩) ∧
      ¬ SafeVote (Symbolic.authorities 4) x.1 stale := by
  decide +kernel

end Hotstuff
