import Mathlib.Data.List.Perm.Subperm
import Hotstuff.Effects
import Hotstuff.Wire

/-! The size of what a node gossips. The signers in a certificate are not checked against the
authorities, so the certificates of others come in any length; a node passes on the longest it
takes, and none of its own is longer than the list of authorities. -/
namespace Hotstuff

variable {B : BlockT}

open ConsensusWorker

/-- The certificate a handler follows. -/
def Call.qc? : Call B → Option (QC B)
  | .proposal p => some p.qc
  | .timeout t => some t.highQc
  | .localTimer | .vote _ | .tc _ => none

/-- The certificate in a message that the handler of the message follows. -/
def ConsensusMessage.qc? (message : ConsensusMessage B) : Option (QC B) :=
  (Call.ofMessage message).bind Call.qc?

/-! ### The call in tail position -/

namespace ConsensusWorker

/-- A call in tail position is given the certificate the worker ends with. -/
def Passes (r : Outcome B) : Prop :=
  ∀ next, r.2 = .ok (some next) → ∀ qc ∈ next.qc?, qc = r.1.state.highQc

theorem done_passes (w : ConsensusWorker B) : Passes w.done := nofun

theorem fail_passes (w : ConsensusWorker B) (e : HotstuffError B) : Passes (w.fail e) :=
  nofun

theorem propose_passes {w : ConsensusWorker B} {payload : Payload B} {tc : Option (TC B)}
    {p : Proposal B} (made : w.state.makeProposal payload tc = .ok p) :
    Passes (w.propose p) := by
  rintro _ ⟨⟩ _ ⟨⟩
  exact (ConsensusState.makeProposal_ok made).1

theorem generateProposal_passes (w : ConsensusWorker B) (tc : Option (TC B)) :
    Passes (w.generateProposal tc) := by
  unfold generateProposal
  split
  · exact done_passes _
  · split
    · exact fail_passes _ _
    · rename_i made
      exact propose_passes made

theorem proposeOnQc_passes (w : ConsensusWorker B) : Passes w.proposeOnQc := by
  unfold proposeOnQc
  split
  · exact done_passes _
  · rename_i w' payload chosen
    split
    · exact done_passes _
    · dsimp only
      split
      · exact fail_passes _ _
      · rename_i p made
        exact propose_passes (w := { w' with proposalHashQueue := _ }) made

theorem announceTc_passes (w : ConsensusWorker B) (tc : TC B) :
    Passes (w.announceTc tc) := by
  unfold announceTc
  dsimp only
  split
  · exact generateProposal_passes _ _
  · exact done_passes _

theorem handleTimeout_passes (w : ConsensusWorker B) (t : Timeout B) :
    Passes (w.handleTimeout t) := by
  unfold handleTimeout
  split
  · exact done_passes _
  · split
    · exact fail_passes _ _
    · dsimp only
      split
      · exact fail_passes _ _
      · exact done_passes _
      · exact announceTc_passes _ _

theorem handleProposal_passes (w : ConsensusWorker B) (p : Proposal B) :
    Passes (w.handleProposal p) := by
  unfold handleProposal
  split
  · exact fail_passes _ _
  · exact done_passes _
  · split
    · exact fail_passes _ _
    · dsimp only
      split
      · exact fail_passes _ _
      · unfold voteFor
        split
        · exact done_passes _
        · split
          · exact done_passes _
          · dsimp only
            split
            · rintro _ ⟨⟩ _ ⟨⟩
            · exact done_passes _

theorem handleVote_passes (w : ConsensusWorker B) (v : Vote B) :
    Passes (w.handleVote v) := by
  unfold handleVote
  split
  · exact fail_passes _ _
  · dsimp only
    split
    · exact fail_passes _ _
    · exact done_passes _
    · split
      · exact proposeOnQc_passes _
      · exact done_passes _

theorem handle_passes (w : ConsensusWorker B) (c : Call B) : Passes (w.handle c) := by
  cases c with
  | localTimer =>
    change Passes w.handleLocalTimer
    unfold handleLocalTimer
    dsimp only
    split
    · exact fail_passes _ _
    · rename_i made
      rintro _ ⟨⟩ _ ⟨⟩
      exact (ConsensusState.makeTimeout_ok made).1
  | timeout t => exact handleTimeout_passes w t
  | proposal p => exact handleProposal_passes w p
  | vote v => exact handleVote_passes w v
  | tc tc =>
    change Passes (w.handleTc tc)
    unfold handleTc
    split
    · exact fail_passes _ _
    · dsimp only
      split
      · exact generateProposal_passes _ _
      · exact done_passes _

end ConsensusWorker

/-! ### The certificates of a node -/

section Bound

variable {bound : Nat} {w w' w₀ : ConsensusWorker B} {c : Call B} {g : Setup B}

/-- Every `highQc` of the history is within the bound. -/
structure Slim (bound : Nat) (w : ConsensusWorker B) : Prop where
  now : w.state.highQc.votes.length ≤ bound
  before : ∀ x ∈ w.trace, x.1.highQc.votes.length ≤ bound

theorem Slim.of_eq (slim : Slim bound w) (high : w'.state.highQc = w.state.highQc)
    (trace : w'.trace = w.trace) : Slim bound w' :=
  ⟨high ▸ slim.now, trace ▸ slim.before⟩

theorem Slim.emit (slim : Slim bound w) (e : Event B) : Slim bound (w.emit e) := by
  refine ⟨slim.now, fun x entry => ?_⟩
  rcases List.mem_append.mp entry with old | new
  · exact slim.before x old
  · rw [List.mem_singleton.mp new]
    exact slim.now

theorem Slim.advanceView (slim : Slim bound w) (target : ViewNumber) :
    Slim bound (w.advanceView target) :=
  slim.of_eq (advanceView_highQc w target) rfl

theorem Slim.handleQc (slim : Slim bound w) {qc : QC B} (small : qc.votes.length ≤ bound) :
    Slim bound (w.handleQc qc) := by
  have marked := slim.emit (.acceptQc qc)
  by_cases ahead : w.state.view ≤ qc.view
  · rw [handleQc_ahead w qc ahead]
    have moved := marked.advanceView qc.view
    have updated : Slim bound { (w.emit (.acceptQc qc)).advanceView qc.view with
        state := ((w.emit (.acceptQc qc)).advanceView qc.view).state.updateHighQc qc } := by
      refine ⟨?_, moved.before⟩
      dsimp only
      unfold ConsensusState.updateHighQc
      split
      · exact small
      · exact moved.now
    exact updated.emit .resetTimer
  · rw [handleQc_behind w qc ahead]
    exact marked

/-- No list of distinct authorities is longer than theirs. -/
theorem length_le_authorities {authorities : AuthorityList B} {α : Type}
    {votes : List (B.AuthorityId × α)} (distinct : (votes.map Prod.fst).Nodup)
    (known : ∀ x ∈ votes, x.1 ∈ authorities.ids) : votes.length ≤ authorities.length := by
  have inside : votes.map Prod.fst ⊆ authorities.ids := by
    intro id member
    obtain ⟨x, hx, rfl⟩ := List.mem_map.mp member
    exact known x hx
  have shorter := (List.Nodup.subperm distinct inside).length_le
  rwa [List.length_map, AuthorityList.ids, List.length_map] at shorter

theorem Provenance.votes_le (prov : Provenance g w) (view : ViewNumber) (digest : B.Hash) :
    (w.state.aggregator.votesAggregator view digest).votes.length ≤ g.authorities.length := by
  refine length_le_authorities (w.state.aggregator.votesAggregator view digest).distinct ?_
  intro x hx
  obtain ⟨v, _, verified, _, _, voter, _⟩ := prov.votes view digest x hx
  exact voter ▸ ((v.verify_ok _).mp verified).1

theorem Provenance.timeouts_le (prov : Provenance g w) (view : ViewNumber) :
    (w.state.aggregator.timeoutsAggregators view).votes.length ≤ g.authorities.length := by
  refine length_le_authorities (w.state.aggregator.timeoutsAggregators view).distinct ?_
  intro x hx
  obtain ⟨t, _, verified, _, voter, _⟩ := prov.timeouts view x hx
  exact voter ▸ ((t.verify_ok _).mp verified).1.1

theorem Provenance.completes_le (prov : Provenance g w) (base : Base g w) {t : Timeout B}
    {tc : TC B} (handled : Handled w.trace (.timeout t)) (completes : w.Completes t tc) :
    tc.votes.length ≤ g.authorities.length := by
  obtain ⟨_, passed, formed⟩ := completes
  have grown : w.trace ⊆ (w.handleQc t.highQc).trace := by
    rw [handleQc_trace]
    exact List.subset_append_left _ _
  have followed : Provenance g (w.handleQc t.highQc) := prov.mono (handleQc_aggregator _ _) grown
  have verified : t.verify g.authorities = .ok () := base.authorities ▸ passed
  have added := followed.addTimeout (handled.mono grown) verified
  rw [(Aggregator.addTimeout_some formed).2.1]
  exact added.timeouts_le t.view

/-- The calls of a history follow certificates within the bound. -/
def Fed (bound : Nat) (trace : List (Moment B × Event B)) : Prop :=
  ∀ c, Handled trace c → ∀ qc ∈ c.qc?, qc.votes.length ≤ bound

theorem Slim.move (few : g.authorities.length ≤ bound) (prov : Provenance g w)
    (small : ∀ qc ∈ c.qc?, qc.votes.length ≤ bound) (slim : Slim bound w)
    (move : Move w₀ c w w') : Slim bound w' := by
  cases move with
  | note | canFinalize | finalize | timedOut | propose => exact slim.emit _
  | scratch | save | addVote | addTimeout => exact slim.of_eq rfl rfl
  | verified p called =>
    subst called
    exact (slim.emit (.verified p)).handleQc (small _ rfl)
  | timeoutQc t called =>
    subst called
    exact slim.handleQc (small _ rfl)
  | collected v qc called passed moment start hash view votes =>
    refine (slim.emit (.collected qc)).handleQc ?_
    rw [votes]
    exact Nat.le_trans (prov.votes_le v.view v.digest) few
  | proposalTc tc => exact slim.advanceView tc.view
  | receivedTc tc => exact (slim.emit (.acceptTc tc)).advanceView tc.view
  | formedTc t tc =>
    split
    · exact (slim.emit (.acceptTc tc)).advanceView tc.view
    · exact slim.emit (.acceptTc tc)
  | timer =>
    have raised : Slim bound { w with state := w.state.increaseLastVotedView } :=
      slim.of_eq rfl rfl
    exact raised.emit .localTimer
  | vote p v s called passed seen state current made =>
    obtain ⟨rfl, _⟩ := ConsensusState.makeVote_some made
    have voted : Slim bound { w with state := { w.state with lastVotedView := p.view } } :=
      slim.of_eq rfl rfl
    exact voted.emit (.voted p v)
  | voteFails p s made =>
    rcases ConsensusState.makeVote_none made with rfl | ⟨_, rfl⟩ <;> exact slim.of_eq rfl rfl

theorem slim (g : Setup B) (few : g.authorities.length ≤ bound) : Invariant g fun w =>
    Provenance g w ∧ (Fed bound w.trace → Slim bound w) where
  start := ⟨(provenance g).start, fun _ => ⟨Nat.zero_le _, List.forall_mem_nil _⟩⟩
  observe w env := by
    rintro ⟨prov, light⟩
    exact ⟨(provenance g).observe w env prov, fun fed => (light fed).of_eq rfl rfl⟩
  enter w c := by
    rintro ⟨prov, light⟩
    refine ⟨(provenance g).enter w c prov, fun fed => (light fun c' handled => ?_).emit _⟩
    exact fed c' (handled.mono (List.subset_append_left _ _))
  move w₀ c w w' during first sofar move := by
    refine ⟨sofar.1.move during move, fun fed => ?_⟩
    have before : Fed bound w.trace :=
      fun c' handled => fed c' (handled.mono move.trace_prefix.subset)
    exact Slim.move few sofar.1 (before c ⟨_, during.handled⟩) (sofar.2 before) move

/-! ### A step of the node -/

/-- The call that an action enters has waited, or it is that of the message received. -/
theorem Node.entered_small {n : Node B} {a : Action B} (entered : n.entered a = some c)
    (waiting : ∀ c ∈ n.pending, ∀ qc ∈ c.qc?, qc.votes.length ≤ bound)
    (received : ∀ message, .receive message = a → ∀ qc ∈ message.qc?, qc.votes.length ≤ bound) :
    ∀ qc ∈ c.qc?, qc.votes.length ≤ bound := by
  intro qc followed
  cases a with
  | environment => cases entered
  | resume => exact waiting c entered qc followed
  | timer =>
    simp only [Node.entered] at entered
    split at entered
    · cases entered
      cases followed
    · cases entered
  | receive message =>
    simp only [Node.entered] at entered
    split at entered
    · refine received message rfl qc ?_
      rw [ConsensusMessage.qc?, entered]
      exact followed
    · cases entered

theorem Fed.enter {n : Node B} (fed : Fed bound n.worker.trace)
    (small : ∀ qc ∈ c.qc?, qc.votes.length ≤ bound) : Fed bound (n.enter c).worker.trace := by
  intro c' handled qc followed
  obtain ⟨m, entry⟩ := handled
  rcases (handle_noted (n.worker.emit (.handled c)) c).entry entry with old | new
  · rcases List.mem_append.mp old with before | mark
    · exact fed c' ⟨m, before⟩ qc followed
    · cases List.mem_singleton.mp mark
      exact small qc followed
  · exact new.elim

theorem Slim.pending {n : Node B} (slim : Slim bound (n.enter c).worker) :
    ∀ next ∈ (n.enter c).pending, ∀ qc ∈ next.qc?, qc.votes.length ≤ bound := by
  intro next called qc followed
  have last : ((n.worker.emit (.handled c)).handle c).2 = .ok (some next) := by
    simp only [Node.enter, Option.mem_def] at called
    split at called
    · rename_i ended
      rw [ended, called]
    · cases called
  rw [handle_passes _ c next last qc followed]
  exact slim.now

/-- What a node has been given, and so what it has, stays within the bound. -/
theorem Setup.slim_run (g : Setup B) (few : g.authorities.length ≤ bound)
    (actions : List (Action B))
    (received : ∀ message, .receive message ∈ actions → ∀ qc ∈ message.qc?,
      qc.votes.length ≤ bound) :
    Slim bound (g.run actions).worker ∧
      ∀ c ∈ (g.run actions).pending, ∀ qc ∈ c.qc?, qc.votes.length ≤ bound := by
  suffices all : Fed bound (g.run actions).worker.trace ∧
      ∀ c ∈ (g.run actions).pending, ∀ qc ∈ c.qc?, qc.votes.length ≤ bound from
    ⟨((slim g few).run actions).2.2 all.1, all.2⟩
  induction actions using List.reverseRecOn with
  | nil => exact ⟨fun c => by rintro ⟨m, ⟨⟩⟩, nofun⟩
  | append_singleton actions a ih =>
    obtain ⟨fed, waiting⟩ := ih fun message member =>
      received message (List.mem_append_left _ member)
    have light := ((slim g few).run (actions ++ [a])).2.2
    rw [g.run_snoc] at light ⊢
    rcases (g.run actions).step_cases a with ⟨env, seen⟩ | ⟨c, entered, stepped⟩
    · rw [seen]
      exact ⟨fed, waiting⟩
    · rw [stepped] at light ⊢
      have after := fed.enter (Node.entered_small entered waiting fun message last =>
        received message (List.mem_append_right _ (List.mem_singleton.mpr last)))
      exact ⟨after, (light after).pending⟩

/-- No list of votes a node tells is longer than the bound. -/
theorem Setup.told_small (g : Setup B) (few : g.authorities.length ≤ bound)
    (actions : List (Action B))
    (received : ∀ message, .receive message ∈ actions → ∀ qc ∈ message.qc?,
      qc.votes.length ≤ bound) {m : Moment B} {message : ConsensusMessage B}
    (told : (m, .gossip message) ∈ (g.run actions).worker.trace) :
    message.qcVotes ≤ bound ∧ message.tcVotes ≤ bound := by
  have high := (g.slim_run few actions received).1.before _ told
  obtain ⟨before, a, c, _, _, mark | noted⟩ := g.noted_at actions told
  · cases mark
  obtain ⟨base, prov⟩ := (provenance g).run before
  -- a TC is formed by the node itself, in answer to a timeout
  have formed : ∀ tc, (∃ t, c = .timeout t ∧
      ((g.run before).worker.emit (.handled c)).Completes t tc) → tc.votes.length ≤ bound := by
    rintro tc ⟨t, rfl, completes⟩
    have entry : Handled ((g.run before).worker.emit (.handled (.timeout t))).trace (.timeout t) :=
      ⟨_, List.mem_append_right _ (List.mem_singleton.mpr rfl)⟩
    have entered := (provenance g).enter _ (.timeout t) prov
    exact Nat.le_trans (entered.completes_le (base.of_eq rfl rfl rfl rfl) entry completes) few
  cases message with
  | propose p =>
    obtain ⟨⟨_, qc⟩, carried⟩ := noted
    refine ⟨(congrArg (fun qc => qc.votes.length) qc).trans_le high, ?_⟩
    simp only [ConsensusMessage.tcVotes]
    cases own : p.tc with
    | none => exact Nat.zero_le _
    | some tc => exact formed tc (carried tc own)
  | timeout t =>
    obtain ⟨⟨_, qc⟩, _⟩ := noted
    exact ⟨(congrArg (fun qc => qc.votes.length) qc).trans_le high, Nat.zero_le _⟩
  | tc tc => exact ⟨Nat.zero_le _, formed tc noted.2⟩
  | vote | syncRequest | phantom => exact ⟨Nat.zero_le _, Nat.zero_le _⟩

end Bound

/-- The largest notification peers take (`hotstuff_peers_set_config`). -/
def maxNotificationSize : Nat := 1024 * 1024

/-- A node whose peers send certificates of at most `bound` votes gossips no list of votes that is
longer, whatever its authorities do. With a codec that takes so many bytes for each vote, its
messages stay below what peers take as long as that many votes do, and are read back by them. -/
theorem gossip_within_limit (codec : MessageCodec B) (rest qcVote tcVote limit : Nat)
    (sized : codec.Sized rest qcVote tcVote) (lossless : codec.Lossless limit) (g : Setup B)
    (actions : List (Action B)) (bound : Nat) (few : g.authorities.length ≤ bound)
    (received : ∀ message, .receive message ∈ actions → ∀ qc ∈ message.qc?,
      qc.votes.length ≤ bound) (m : Moment B) (message : ConsensusMessage B)
    (told : (m, .gossip message) ∈ (g.run actions).worker.trace) :
    message.qcVotes ≤ bound ∧ message.tcVotes ≤ bound ∧
      (rest + (qcVote + tcVote) * bound ≤ maxNotificationSize →
        (codec.encode message).length ≤ maxNotificationSize) ∧
      (bound < limit → ∀ more, codec.decode (codec.encode message ++ more) = .ok message) := by
  obtain ⟨qc, tc⟩ := g.told_small few actions received told
  refine ⟨qc, tc, fun room => ?_, fun readable more => ?_⟩
  · calc (codec.encode message).length
        ≤ rest + qcVote * message.qcVotes + tcVote * message.tcVotes := sized.length_le message
      _ ≤ rest + qcVote * bound + tcVote * bound :=
          Nat.add_le_add (Nat.add_le_add_left (Nat.mul_le_mul_left _ qc) _)
            (Nat.mul_le_mul_left _ tc)
      _ = rest + (qcVote + tcVote) * bound := by rw [Nat.add_mul, Nat.add_assoc]
      _ ≤ maxNotificationSize := room
  · exact lossless message more (Nat.lt_of_le_of_lt qc readable) (Nat.lt_of_le_of_lt tc readable)

/- Node 2 of four forms a TC from the timeouts of the others. -/
theorem gossip_within_limit_tc :
    let actions := [0, 1, 3].map fun id => .receive (.timeout (Wire.wordsTimeout 1 id))
    let message := .tc ⟨1, [0, 1, 3].map fun id =>
      (id, Wire.wordsSign id (Wire.wordsTimeout 1 id).digest, 1)⟩
    (∃ x ∈ ((Wire.wordsSetup 2).run actions).worker.trace, x.2 = .gossip message) ∧
      (Wire.words.codec.encode message).length ≤ maxNotificationSize ∧
      Wire.words.codec.decode (Wire.words.codec.encode message ++ [7]) = .ok message := by
  intro actions message
  have told : ∃ x ∈ ((Wire.wordsSetup 2).run actions).worker.trace, x.2 = .gossip message := by
    decide +kernel
  obtain ⟨⟨m, _⟩, entry, rfl⟩ := told
  have small : ∀ message, .receive message ∈ actions → ∀ qc ∈ message.qc?,
      qc.votes.length ≤ 4 := by
    intro message member qc followed
    obtain ⟨id, _, same⟩ := List.mem_map.mp member
    cases same
    cases followed
    exact Nat.zero_le 4
  obtain ⟨_, _, size, back⟩ := gossip_within_limit Wire.words.codec _ _ _ _
    (Wire.codec_sized Wire.words) (Wire.codec_lossless Wire.words) (Wire.wordsSetup 2) actions 4
    (by decide) small m message entry
  exact ⟨⟨_, entry, rfl⟩, size (by decide), back (by decide) [7]⟩

end Hotstuff
