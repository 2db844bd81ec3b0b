import Hotstuff.History
import Hotstuff.Views

/-! What stands behind the certificates and the views of a node: messages it has handled. -/
namespace Hotstuff

variable {B : BlockT}

open ConsensusWorker

/-- A ballot in the maker of `view` and `digest` is the signature of a verified vote. -/
def VoteBehind (authorities : AuthorityList B) (trace : List (Moment B × Event B))
    (view : ViewNumber) (digest : B.Hash) (id : B.AuthorityId) (signature : B.AuthoritySignature) :
    Prop :=
  ∃ v : Vote B, Handled trace (.vote v) ∧ v.verify authorities = .ok () ∧ v.view = view ∧
    v.digest = digest ∧ v.voter = id ∧ v.signature = some signature

def TimeoutBehind (authorities : AuthorityList B) (trace : List (Moment B × Event B))
    (view : ViewNumber) (id : B.AuthorityId) (signature : B.AuthoritySignature) : Prop :=
  ∃ t : Timeout B, Handled trace (.timeout t) ∧ t.verify authorities = .ok () ∧ t.view = view ∧
    t.voter = id ∧ t.signature = some signature

/-- The aggregator holds nothing but verified messages. -/
structure Provenance (g : Setup B) (w : ConsensusWorker B) : Prop where
  votes : ∀ view digest, ∀ x ∈ (w.state.aggregator.votesAggregator view digest).votes,
    VoteBehind g.authorities w.trace view digest x.1 x.2
  timeouts : ∀ view, ∀ x ∈ (w.state.aggregator.timeoutsAggregators view).votes,
    TimeoutBehind g.authorities w.trace view x.1 x.2.1

namespace Provenance

variable {g : Setup B} {w w' : ConsensusWorker B}

theorem mono (prov : Provenance g w) (same : w'.state.aggregator = w.state.aggregator)
    (grown : w.trace ⊆ w'.trace) : Provenance g w' := by
  refine ⟨?_, ?_⟩
  · intro view digest x hx
    rw [same] at hx
    obtain ⟨v, handled, rest⟩ := prov.votes view digest x hx
    exact ⟨v, handled.mono grown, rest⟩
  · intro view x hx
    rw [same] at hx
    obtain ⟨t, handled, rest⟩ := prov.timeouts view x hx
    exact ⟨t, handled.mono grown, rest⟩

theorem addVote (prov : Provenance g w) {v : Vote B} (handled : Handled w.trace (.vote v))
    (verified : v.verify g.authorities = .ok ()) :
    Provenance g { w with state := (w.state.addVote v).1 } := by
  refine ⟨?_, prov.timeouts⟩
  intro view digest x hx
  simp only [ConsensusState.addVote, Aggregator.addVote] at hx
  by_cases bucket : view = v.view ∧ digest = v.digest
  · obtain ⟨rfl, rfl⟩ := bucket
    rw [Function.update_self, Function.update_self] at hx
    rcases Maker.append_votes (w.state.aggregator.votesAggregator v.view v.digest) v.voter
      v.signature w.state.authorities with ⟨same, _⟩ | ⟨_, b, signed, grown⟩
    · rw [QCMaker.append, same] at hx
      exact prov.votes _ _ x hx
    · rw [QCMaker.append, grown] at hx
      rcases List.mem_append.mp hx with old | new
      · exact prov.votes _ _ x old
      · rw [List.mem_singleton.mp new]
        exact ⟨v, handled, verified, rfl, rfl, rfl, signed⟩
  · refine prov.votes view digest x ?_
    by_cases sameView : view = v.view
    · subst sameView
      have other : digest ≠ v.digest := fun h => bucket ⟨rfl, h⟩
      rwa [Function.update_self, Function.update_of_ne other] at hx
    · rwa [Function.update_of_ne sameView] at hx

theorem addTimeout (prov : Provenance g w) {t : Timeout B}
    (handled : Handled w.trace (.timeout t)) (verified : t.verify g.authorities = .ok ()) :
    Provenance g { w with state := (w.state.addTimeout t).1 } := by
  refine ⟨prov.votes, ?_⟩
  intro view x hx
  simp only [ConsensusState.addTimeout, Aggregator.addTimeout] at hx
  by_cases bucket : view = t.view
  · subst bucket
    rw [Function.update_self] at hx
    rcases Maker.append_votes (w.state.aggregator.timeoutsAggregators t.view) t.voter
      (t.signature.map fun s => (s, t.view)) w.state.authorities with
      ⟨same, _⟩ | ⟨_, b, signed, grown⟩
    · rw [TCMaker.append, same] at hx
      exact prov.timeouts _ x hx
    · rw [TCMaker.append, grown] at hx
      rcases List.mem_append.mp hx with old | new
      · exact prov.timeouts _ x old
      · obtain ⟨s, own, rfl⟩ := Option.map_eq_some_iff.mp signed
        rw [List.mem_singleton.mp new]
        exact ⟨t, handled, verified, rfl, rfl, own⟩
  · rw [Function.update_of_ne bucket] at hx
    exact prov.timeouts view x hx

theorem move {w₀ : ConsensusWorker B} {c : Call B} (during : During g w₀ c w)
    (prov : Provenance g w) (move : Move w₀ c w w') : Provenance g w' := by
  have grown := move.trace_prefix.subset
  have handled : Handled w.trace c := ⟨_, during.handled⟩
  cases move with
  | note | scratch | save | canFinalize | finalize | timer | timedOut | propose =>
    exact prov.mono rfl grown
  | verified | timeoutQc | collected => exact prov.mono (handleQc_aggregator _ _) grown
  | proposalTc | receivedTc => exact prov.mono (advanceView_aggregator _ _) grown
  | formedTc t tc =>
    refine prov.mono ?_ grown
    split
    · exact advanceView_aggregator _ _
    · rfl
  | vote p v s called passed seen state current made =>
    exact prov.mono (by rw [(ConsensusState.makeVote_some made).1]; rfl) grown
  | voteFails p s made =>
    rcases ConsensusState.makeVote_none made with rfl | ⟨_, rfl⟩ <;> exact prov.mono rfl grown
  | addVote v called passed =>
    subst called
    have verified := ((w.state.verifyVote_ok v).mp passed).2
    exact prov.addVote handled (during.base.authorities ▸ verified)
  | addTimeout t called passed =>
    subst called
    exact prov.addTimeout handled (during.base₀.authorities ▸ passed)

end Provenance

theorem provenance (g : Setup B) : Invariant g (Provenance g) where
  start := ⟨fun _ _ => List.forall_mem_nil _, fun _ => List.forall_mem_nil _⟩
  observe _ _ prov := prov.mono rfl (List.Subset.refl _)
  enter _ _ prov := prov.mono rfl (List.subset_append_left _ _)
  move _ _ _ _ during _ prov move := prov.move during move

/-- The messages of the history contain a quorum for the view. -/
inductive Quorum (authorities : AuthorityList B) (trace : List (Moment B × Event B))
    (view : ViewNumber) : Prop where
  | proposal (p : Proposal B) (handled : Handled trace (.proposal p)) (same : p.qc.view = view)
      (passed : p.qc.verify authorities = .ok ())
  | timeout (t : Timeout B) (handled : Handled trace (.timeout t)) (same : t.highQc.view = view)
      (passed : t.highQc.verify authorities = .ok ())
  | collected (qc : QC B) (same : qc.view = view) (passed : qc.verify authorities = .ok ())
      (votes : ∀ x ∈ qc.votes, VoteBehind authorities trace view qc.digest x.1 x.2)
  | timeouts (signers : List B.AuthorityId) (distinct : signers.Nodup)
      (many : authorities.length * 2 / 3 < signers.length)
      (signed : ∀ id ∈ signers, ∃ signature, TimeoutBehind authorities trace view id signature)
  | tc (tc : TC B) (handled : Handled trace (.tc tc)) (same : tc.view = view)
      (passed : tc.verify authorities = .ok ())

def DefaultSeen (trace : List (Moment B × Event B)) : Prop :=
  (∃ p : Proposal B, Handled trace (.proposal p) ∧ p.qc.eq QC.default = true) ∨
    ∃ t : Timeout B, Handled trace (.timeout t) ∧ t.highQc.eq QC.default = true

def Left (g : Setup B) (trace : List (Moment B × Event B)) (view : ViewNumber) : Prop :=
  Quorum g.authorities trace view ∨ view = 0 ∧ DefaultSeen trace

section Monotone

variable {trace trace' : List (Moment B × Event B)} (grown : trace ⊆ trace')
include grown

theorem Quorum.mono {authorities : AuthorityList B} {view : ViewNumber}
    (quorum : Quorum authorities trace view) : Quorum authorities trace' view := by
  cases quorum with
  | proposal p handled same passed => exact .proposal p (handled.mono grown) same passed
  | timeout t handled same passed => exact .timeout t (handled.mono grown) same passed
  | tc tc handled same passed => exact .tc tc (handled.mono grown) same passed
  | collected qc same passed votes =>
    refine .collected qc same passed fun x hx => ?_
    obtain ⟨v, handled, rest⟩ := votes x hx
    exact ⟨v, handled.mono grown, rest⟩
  | timeouts signers distinct many signed =>
    refine .timeouts signers distinct many fun id hid => ?_
    obtain ⟨signature, t, handled, rest⟩ := signed id hid
    exact ⟨signature, t, handled.mono grown, rest⟩

theorem Left.mono {g : Setup B} {view : ViewNumber} (left : Left g trace view) :
    Left g trace' view := by
  rcases left with quorum | ⟨zero, ⟨p, handled, default⟩ | ⟨t, handled, default⟩⟩
  · exact .inl (quorum.mono grown)
  · exact .inr ⟨zero, .inl ⟨p, handled.mono grown, default⟩⟩
  · exact .inr ⟨zero, .inr ⟨t, handled.mono grown, default⟩⟩

end Monotone

/-- The argument of the `advance_view_from_target` that comes after an entry. -/
def Event.target : Event B → Option ViewNumber
  | .acceptQc qc => some qc.view
  | .acceptTc tc => some tc.view
  | _ => none

/-- On what a move leaves the view it starts in: a certificate for that very view. -/
inductive Leaves (w₀ : ConsensusWorker B) (c : Call B) (w : ConsensusWorker B) : Prop where
  | proposalQc (p : Proposal B) (called : c = .proposal p) (start : w = w₀)
      (passed : w₀.state.verifyProposal p = .ok ()) (same : p.qc.view = w.state.view)
  | timeoutQc (t : Timeout B) (called : c = .timeout t) (start : w = w₀)
      (passed : w₀.state.verifyTimeout t = .ok ()) (same : t.highQc.view = w.state.view)
  | collected (v : Vote B) (qc : QC B) (moment : w.state.moment = w₀.state.moment)
      (hash : qc.proposalHash = v.proposalHash) (view : qc.view = v.view)
      (votes : qc.votes = (w.state.aggregator.votesAggregator v.view v.digest).votes)
      (quorum : w.state.authorities.length * 2 / 3 < qc.votes.length)
      (same : qc.view = w.state.view)
  | formedTc (t : Timeout B) (tc : TC B) (view : tc.view = t.view)
      (votes : tc.votes = (w.state.aggregator.timeoutsAggregators t.view).votes)
      (quorum : w.state.authorities.length * 2 / 3 < tc.votes.length)
      (same : tc.view = w.state.view)
  | receivedTc (tc : TC B) (called : c = .tc tc) (start : w = w₀)
      (passed : w₀.state.verifyTc tc = .ok ()) (same : tc.view = w.state.view)

theorem handleQc_mark (w : ConsensusWorker B) (qc : QC B) :
    (w.state.moment, .acceptQc qc) ∈ (w.handleQc qc).trace := by
  rw [handleQc_trace]
  simp

/-- A move keeps the view, or goes on to the next one on a certificate it notes down. -/
theorem Move.view_cases {w₀ w w' : ConsensusWorker B} {c : Call B} (move : Move w₀ c w w') :
    w'.state.view = w.state.view ∨ w'.state.view = w.state.view + 1 ∧ Leaves w₀ c w ∧
      ∃ e : Event B, (w.state.moment, e) ∈ w'.trace ∧ e.target = some w.state.view := by
  -- A certificate for another view is followed by no advance.
  have follows : ∀ (e : Event B) target, e.target = some target → (w.state.moment, e) ∈ w'.trace →
      w'.state.view = advanced w.state.view target → (target = w.state.view → Leaves w₀ c w) →
      w'.state.view = w.state.view ∨ w'.state.view = w.state.view + 1 ∧ Leaves w₀ c w ∧
        ∃ e : Event B, (w.state.moment, e) ∈ w'.trace ∧ e.target = some w.state.view := by
    intro e target called mark moved leaves
    unfold advanced at moved
    split at moved
    · rename_i same
      exact .inr ⟨moved, leaves same, e, mark, same ▸ called⟩
    · exact .inl moved
  cases move with
  | note | scratch | save | canFinalize | finalize | timer | timedOut | propose | addVote
  | addTimeout => exact .inl rfl
  | vote p v s called passed seen state current made =>
    obtain ⟨rfl, _⟩ := ConsensusState.makeVote_some made
    exact .inl rfl
  | voteFails p s made =>
    rcases ConsensusState.makeVote_none made with rfl | ⟨_, rfl⟩ <;> exact .inl rfl
  | proposalTc tc ahead =>
    rw [advanceView_state w tc.view (UInt64.le_of_lt ahead), advanced,
      if_neg (UInt64.ne_of_lt ahead).symm]
    exact .inl rfl
  | verified p called passed =>
    exact follows _ _ rfl (handleQc_mark (w₀.emit (.verified p)) p.qc) (handleQc_view _ _)
      (.proposalQc p called rfl passed)
  | timeoutQc t called fresh passed =>
    exact follows _ _ rfl (handleQc_mark w₀ t.highQc) (handleQc_view _ _)
      (.timeoutQc t called rfl passed)
  | collected v qc called passed moment start hash view votes quorum =>
    exact follows _ _ rfl (handleQc_mark (w.emit (.collected qc)) qc) (handleQc_view _ _)
      (.collected v qc moment hash view votes quorum)
  | formedTc t tc called view votes quorum =>
    refine follows (.acceptTc tc) _ rfl ?_ (formedTc_view w tc) (.formedTc t tc view votes quorum)
    split <;> simp
  | receivedTc tc called passed =>
    have ahead := ((ConsensusState.verifyTc_ok _ tc).mp passed).1
    have moved := congrArg ConsensusState.view
      (advanceView_state (w₀.emit (.acceptTc tc)) tc.view ahead)
    exact follows (.acceptTc tc) _ rfl (by simp) moved (.receivedTc tc called rfl passed)

section Advance

variable {g : Setup B} {w₀ w w' : ConsensusWorker B} {c : Call B}

theorem Provenance.collected (prov : Provenance g w) (base : Base g w) {v : Vote B} {qc : QC B}
    (hash : qc.proposalHash = v.proposalHash) (view : qc.view = v.view)
    (votes : qc.votes = (w.state.aggregator.votesAggregator v.view v.digest).votes)
    (quorum : w.state.authorities.length * 2 / 3 < qc.votes.length) :
    qc.verify g.authorities = .ok () ∧
      ∀ x ∈ qc.votes, VoteBehind g.authorities w.trace qc.view qc.digest x.1 x.2 := by
  have digest : qc.digest = v.digest := by rw [QC.digest, Vote.digest, hash, view]
  have behind : ∀ x ∈ qc.votes, VoteBehind g.authorities w.trace qc.view qc.digest x.1 x.2 := by
    intro x hx
    rw [votes] at hx
    rw [view, digest]
    exact prov.votes v.view v.digest x hx
  refine ⟨(qc.verify_ok g.authorities).mpr ⟨?_, base.authorities ▸ quorum, ?_⟩, behind⟩
  · rw [votes]
    exact (w.state.aggregator.votesAggregator v.view v.digest).distinct
  · intro x hx
    obtain ⟨u, _, verified, _, same, voter, signed⟩ := behind x hx
    obtain ⟨_, s, own, valid⟩ := (u.verify_ok g.authorities).mp verified
    rw [signed] at own
    cases own
    rw [← same, ← voter]
    exact valid

/-- A collected certificate verifies, with a handled vote behind each of its signatures. -/
def Collected (authorities : AuthorityList B) (trace : List (Moment B × Event B)) :
    Event B → Prop
  | .collected qc => qc.verify authorities = .ok () ∧
      ∀ x ∈ qc.votes, VoteBehind authorities trace qc.view qc.digest x.1 x.2
  | _ => True

theorem Collected.append {authorities : AuthorityList B} {trace : List (Moment B × Event B)}
    {e : Event B} (new : List (Moment B × Event B)) (collected : Collected authorities trace e) :
    Collected authorities (trace ++ new) e := by
  cases e with
  | collected qc =>
    refine ⟨collected.1, fun x hx => ?_⟩
    obtain ⟨v, handled, rest⟩ := collected.2 x hx
    exact ⟨v, handled.mono (List.subset_append_left _ _), rest⟩
  | _ => trivial

theorem collected_votes (g : Setup B) : Invariant g fun w => Provenance g w ∧
    ∀ m e, (m, e) ∈ w.trace → Collected g.authorities w.trace e := by
  refine (provenance g).entries (fun trace _ e => Collected g.authorities trace e)
    (fun _ new _ _ known => known.append new) (fun _ _ _ => trivial) ?_
  intro _ _ w new _ e during prov _ cause
  cases e with
  | collected qc =>
    obtain ⟨v, hash, view, votes, quorum⟩ := cause
    have sofar : Collected g.authorities w.trace (.collected qc) :=
      prov.collected during.base hash view votes quorum
    exact sofar.append new
  | _ => trivial

theorem left_of_carried {trace : List (Moment B × Event B)} {qc : QC B}
    (passed : qc.eq QC.default = true ∨ qc.verify g.authorities = .ok ())
    (quorum : qc.verify g.authorities = .ok () → Quorum g.authorities trace qc.view)
    (default : qc.eq QC.default = true → DefaultSeen trace) : Left g trace qc.view := by
  rcases passed with same | verified
  · exact .inr ⟨(qc.eq_default.mp same).2, default same⟩
  · exact .inl (quorum verified)

theorem Move.view (during : During g w₀ c w) (prov : Provenance g w) (move : Move w₀ c w w') :
    w'.state.view = w.state.view ∨
      w'.state.view = w.state.view + 1 ∧ Left g w'.trace w.state.view := by
  have grown := move.trace_prefix.subset
  have handled : Handled w'.trace c := (Handled.mono ⟨_, during.handled⟩ grown)
  refine move.view_cases.imp_right fun ⟨next, leaves, _⟩ => ⟨next, ?_⟩
  cases leaves with
  | proposalQc p called start passed same =>
    subst called
    have checked := ((ConsensusState.verifyProposal_ok _ p).mp passed).2
    rw [← start, during.base.authorities, Proposal.verify_ok] at checked
    refine same ▸ left_of_carried checked.2 ?_ ?_
    · exact fun valid => .proposal p handled rfl valid
    · exact fun default => .inl ⟨p, handled, default⟩
  | timeoutQc t called start passed same =>
    subst called
    rw [← start, ConsensusState.verifyTimeout, during.base.authorities, Timeout.verify_ok] at passed
    refine same ▸ left_of_carried passed.2 ?_ ?_
    · exact fun valid => .timeout t handled rfl valid
    · exact fun default => .inr ⟨t, handled, default⟩
  | collected v qc moment hash view votes quorum same =>
    obtain ⟨valid, behind⟩ := prov.collected during.base hash view votes quorum
    rw [← same]
    exact .inl (Quorum.mono grown (.collected qc rfl valid behind))
  | formedTc t tc view votes quorum same =>
    refine .inl (Quorum.mono grown (.timeouts (tc.votes.map Prod.fst) ?_ ?_ ?_))
    · rw [votes]
      exact (w.state.aggregator.timeoutsAggregators t.view).distinct
    · rw [List.length_map]
      exact during.base.authorities ▸ quorum
    · intro id hid
      obtain ⟨x, hx, rfl⟩ := List.mem_map.mp hid
      rw [votes] at hx
      rw [← same, view]
      exact ⟨x.2.1, prov.timeouts t.view x hx⟩
  | receivedTc tc called start passed same =>
    subst called
    have checked := ((ConsensusState.verifyTc_ok _ tc).mp passed).2
    rw [← start, during.base.authorities] at checked
    exact .inl (.tc tc handled same checked)

theorem noted_handleQc {x : Moment B × Event B} {qc : QC B} (entry : x ∈ (w.handleQc qc).trace) :
    x ∈ w.trace ∨ x.1 = w.state.moment ∨ x.1 = (w.handleQc qc).state.moment := by
  rcases mem_handleQc entry with old | ⟨moment, _⟩ | ⟨moment, _⟩
  · exact .inl old
  · exact .inr (.inl moment)
  · exact .inr (.inr moment)

/-- A move notes down the state it starts in or the one it ends in. -/
theorem Move.noted (move : Move w₀ c w w') {x : Moment B × Event B} (entry : x ∈ w'.trace) :
    x ∈ w.trace ∨ x.1 = w.state.moment ∨ x.1 = w'.state.moment := by
  have last : ∀ {m : Moment B} {e : Event B}, x ∈ w.trace ++ [(m, e)] → x ∈ w.trace ∨ x.1 = m := by
    intro m e entry
    rcases List.mem_append.mp entry with old | new
    · exact .inl old
    · rw [List.mem_singleton.mp new]
      exact .inr rfl
  cases move with
  | scratch | save | voteFails | addVote | addTimeout | proposalTc => exact .inl entry
  | note | canFinalize | finalize | timedOut | propose | receivedTc =>
    exact (last entry).imp_right .inl
  | timer | vote => exact (last entry).imp_right .inr
  | timeoutQc t => exact noted_handleQc entry
  | verified p =>
    rcases noted_handleQc entry with earlier | new
    · exact (last earlier).imp_right .inl
    · exact .inr new
  | collected v qc =>
    rcases noted_handleQc entry with earlier | new
    · exact (last earlier).imp_right .inl
    · exact .inr new
  | formedTc t tc =>
    split at entry <;> exact (last entry).imp_right .inl

end Advance

/-- Every view below the present one, and every one the node was in and is no more in, was
left with a quorum, view 0 perhaps on the default certificate. -/
structure Justified (g : Setup B) (w : ConsensusWorker B) : Prop where
  prov : Provenance g w
  below : ∀ u, u < w.state.view → Left g w.trace u
  visited : ∀ x ∈ w.trace, x.1.view ≠ w.state.view → Left g w.trace x.1.view

theorem Justified.move {g : Setup B} {w₀ w w' : ConsensusWorker B} {c : Call B}
    (during : During g w₀ c w) (just : Justified g w) (move : Move w₀ c w w') :
    Justified g w' := by
  have grown := move.trace_prefix.subset
  refine ⟨just.prov.move during move, ?_, ?_⟩
  · intro u below
    rcases move.view during just.prov with same | ⟨next, left⟩
    · exact (just.below u (same ▸ below)).mono grown
    · have reached : u < w.state.view ∨ u = w.state.view := by grind
      rcases reached with earlier | rfl
      · exact (just.below u earlier).mono grown
      · exact left
  · intro x entry elsewhere
    rcases move.view during just.prov with same | ⟨next, left⟩
    · rcases move.noted entry with old | here | here
      · exact (just.visited x old (same ▸ elsewhere)).mono grown
      · exact absurd ((congrArg Moment.view here).trans same.symm) elsewhere
      · exact absurd (congrArg Moment.view here) elsewhere
    · by_cases here : x.1.view = w.state.view
      · exact here ▸ left
      · rcases move.noted entry with old | now | now
        · exact (just.visited x old here).mono grown
        · exact absurd (congrArg Moment.view now) here
        · exact absurd (congrArg Moment.view now) elsewhere

theorem justified (g : Setup B) : Invariant g (Justified g) where
  start := ⟨(provenance g).start, fun u below => absurd below UInt64.not_lt_zero,
    List.forall_mem_nil _⟩
  observe w env just := ⟨(provenance g).observe w env just.prov, just.below, just.visited⟩
  enter w c just := by
    have grown : w.trace ⊆ (w.emit (.handled c)).trace := List.subset_append_left _ _
    refine ⟨(provenance g).enter w c just.prov, fun u below => (just.below u below).mono grown, ?_⟩
    intro x entry elsewhere
    rcases List.mem_append.mp entry with old | new
    · exact (just.visited x old elsewhere).mono grown
    · rw [List.mem_singleton.mp new] at elsewhere
      exact absurd rfl elsewhere
  move _ _ _ _ during _ just move := just.move during move

/-- A node passes no view without a quorum for it among the messages it has handled, but for
view 0 on the default certificate; and what a proposal carries as its TC does not move it. -/
theorem every_view_justified (g : Setup B) (actions : List (Action B)) :
    let worker := (g.run actions).worker
    (∀ u, 1 ≤ u → u < worker.state.view → Quorum g.authorities worker.trace u) ∧
    (∀ x ∈ worker.trace, x.1.view ≠ worker.state.view → Quorum g.authorities worker.trace x.1.view ∨
      x.1.view = 0 ∧ DefaultSeen worker.trace) ∧
    ∀ (w : ConsensusWorker B) (p : Proposal B) (tc : Option (TC B)),
      (w.handleProposal { p with tc := tc }).1.state.view =
        (w.handleProposal p).1.state.view := by
  have just := ((justified g).run actions).2
  refine ⟨?_, just.visited, ?_⟩
  · intro u positive below
    rcases just.below u below with quorum | ⟨rfl, _⟩
    · exact quorum
    · exact absurd positive (by decide)
  · intro w p tc
    by_cases received : w.Receives p
    · have same : w.Receives { p with tc := tc } := received
      rw [((handleProposal_position w _).1 same).1, ((handleProposal_position w p).1 received).1]
    · have same : ¬ w.Receives { p with tc := tc } := received
      rw [(handleProposal_position w _).2 same, (handleProposal_position w p).2 received]

end Hotstuff
