import Mathlib.Data.List.Dedup
import Mathlib.Data.List.DropRight
import Mathlib.Data.List.Infix
import Hotstuff.Selection
import Hotstuff.History

/-! Empty proposals and the check that withholds them. The check reads `proposal_hash_queue`,
to which the leader adds a payload when it proposes and every voter, the leader included,
when it votes. -/
namespace Hotstuff

variable {B : BlockT}

/-- `handle_vote` forms a certificate as the leader and returns because of the check. -/
def ConsensusWorker.withholds (w : ConsensusWorker B) (v : Vote B) : Bool :=
  match w.state.verifyVote v, (w.state.addVote v).2 with
  | .ok _, .ok (some qc) =>
    let w := ({ w with state := (w.state.addVote v).1 }.emit (.collected qc)).handleQc qc
    if w.state.localAuthorityId = some (w.state.viewLeader w.state.view) then
      match w.getProposalPayload with
      | (w, some payload) => withheld payload 0 w.proposalHashQueue.reverse
      | (_, none) => false
    else false
  | _, _ => false

/-- The two most recent distinct proposals exist and are empty. -/
def LastTwoEmpty (proposals : List (Proposal B)) : Prop :=
  (proposals.dedup.rtake 2).length = 2 ∧
    ∀ p ∈ proposals.dedup.rtake 2, p.payload.blockHash = B.emptyPayloadHash

instance (proposals : List (Proposal B)) : Decidable (LastTwoEmpty proposals) :=
  inferInstanceAs (Decidable (_ ∧ _))

/-- The proposals the node has made or voted for, in order. -/
def Node.undertaken (n : Node B) : List (Proposal B) :=
  n.worker.desk.record.map Undertaking.proposal

/-- A step at which the check would count two votes: when a vote completes a certificate that
leaves the node the leader, its keystore answers, and the last two entries of its record, as
far as there are so many, are votes and not a proposal of its own. -/
def Node.CountsVotes (n : Node B) (a : Action B) : Prop :=
  ∀ v, n.entered a = some (.vote v) → n.worker.state.LeadsOn v →
    n.worker.state.keystore.Answers ∧ ∀ u ∈ n.worker.desk.record.rtake 2, ∃ p, u = .voted p

/-- The votes at the end of the record stand at the end of `proposal_hash_queue`, as far as
it reaches back. -/
structure Desk.Tallied (d : Desk B) : Prop where
  short : d.hashes.length ≤ d.record.length
  votes : ∀ (older : List (Undertaking B)) (votes : List (Proposal B)),
    d.record = older ++ votes.map Undertaking.voted →
    votes.map (fun p => p.payload.blockHash) <:+ d.hashes ∨
      d.hashes <:+ votes.map fun p => p.payload.blockHash

namespace Desk.Tallied

theorem voted {d : Desk B} (tallied : d.Tallied) (p : Proposal B) :
    ({ d with
      hashes := d.hashes ++ [p.payload.blockHash]
      record := d.record ++ [.voted p] } : Desk B).Tallied := by
  constructor
  · simpa using tallied.short
  · intro older votes same
    rcases List.eq_nil_or_concat votes with rfl | ⟨votes, q, rfl⟩
    · exact .inl (List.nil_suffix)
    · have split : d.record ++ [.voted p] =
          (older ++ votes.map Undertaking.voted) ++ [.voted q] := by simpa using same
      obtain ⟨rest, last⟩ := List.append_inj' split rfl
      cases last
      simp only [List.concat_eq_append, List.map_append, List.map_cons, List.map_nil]
      rcases tallied.votes older votes rest with ⟨t, h⟩ | ⟨t, h⟩
      · exact .inl ⟨t, by rw [← h, List.append_assoc]⟩
      · exact .inr ⟨t, by rw [← h, List.append_assoc]⟩

theorem proposed {d : Desk B} (p : Proposal B) {hashes : List B.Hash}
    (short : hashes.length ≤ d.record.length + 1) :
    ({ d with hashes := hashes, record := d.record ++ [.proposed p] } : Desk B).Tallied := by
  constructor
  · simpa using short
  · intro older votes same
    rcases List.eq_nil_or_concat votes with rfl | ⟨votes, q, rfl⟩
    · exact .inl (List.nil_suffix)
    · -- the record ends with a proposal, not with a vote
      have split : d.record ++ [.proposed p] =
          (older ++ votes.map Undertaking.voted) ++ [.voted q] := by simpa using same
      cases (List.append_inj' split rfl).2

theorem length_pushed_le (hashes : List B.Hash) (hash : B.Hash) :
    (pushed hashes hash).length ≤ hashes.length + 1 := by
  unfold pushed
  split <;> simp

theorem rests {d d' : Desk B} (tallied : d.Tallied) (rests : d.Rests d') : d'.Tallied := by
  constructor
  · rw [rests.hashes, rests.record]
    exact tallied.short
  · rw [rests.hashes, rests.record]
    exact tallied.votes

theorem works {w : ConsensusWorker B} {c : Call B} {d : Desk B} {next : Option (Call B)}
    (tallied : w.desk.Tallied) (works : Works w c d next)
    (answers : ∀ v, c = .vote v → w.state.LeadsOn v → w.state.keystore.Answers) : d.Tallied := by
  cases works with
  | rest => exact tallied
  | tried => exact ⟨tallied.short, tallied.votes⟩
  | voted p client => exact ⟨(tallied.voted p).short, (tallied.voted p).votes⟩
  | dropped | unsigned | withheld => exact ⟨tallied.short, tallied.votes⟩
  | proposed processing payload p =>
    have made := proposed (d := w.desk) p (Nat.le_succ_of_le tallied.short)
    exact ⟨made.short, made.votes⟩
  | unsignedOnQc v _ _ called leads _ refused => exact absurd (answers v called leads) refused
  | proposedOnQc v processing payload p =>
    have made := proposed (d := w.desk) p
      (Nat.le_trans (length_pushed_le _ payload.blockHash) (Nat.succ_le_succ tallied.short))
    exact ⟨made.short, made.votes⟩

end Desk.Tallied

theorem Node.step_tallied {n : Node B} {a : Action B} (tallied : n.worker.desk.Tallied)
    (counts : n.CountsVotes a) : (n.step a).worker.desk.Tallied := by
  rcases n.step_desk a with rests | ⟨c, entered, works⟩
  · exact tallied.rests rests
  · have start : (n.worker.emit (.handled c)).desk.Tallied := (n.handled_desk c).symm ▸ tallied
    apply start.works works
    intro v called leads
    exact (counts v (called ▸ entered) leads).1

theorem Setup.run_tallied (g : Setup B) {actions : List (Action B)}
    (counts : Runs.Along Node.step Node.CountsVotes g.start actions) :
    (g.run actions).worker.desk.Tallied := by
  have start : g.start.worker.desk.Tallied := by
    constructor
    · exact Nat.le_refl 0
    · intro older votes _
      exact .inr List.nil_suffix
  exact Runs.invariant_along Node.step (fun n a => Node.step_tallied) start counts

/-! ### What the check has seen -/

theorem ConsensusWorker.withholds_cases {w : ConsensusWorker B} {v : Vote B}
    (withholds : w.withholds v = true) :
    ∃ qc w' payload, w.state.verifyVote v = .ok () ∧ (w.state.addVote v).2 = .ok (some qc) ∧
      let certified := ({ w with state := (w.state.addVote v).1 }.emit (.collected qc)).handleQc qc
      certified.state.localAuthorityId = some (certified.state.viewLeader certified.state.view) ∧
        certified.getProposalPayload = (w', some payload) ∧
        withheld payload 0 w'.proposalHashQueue.reverse = true := by
  unfold ConsensusWorker.withholds at withholds
  split at withholds
  · rename_i qc verified added
    dsimp only at withholds
    split at withholds
    · rename_i leader
      split at withholds
      · rename_i w' payload chosen
        exact ⟨qc, w', payload, verified, added, leader, chosen, withholds⟩
      · cases withholds
    · cases withholds
  · cases withholds

theorem ConsensusWorker.withholds_spent {w : ConsensusWorker B} {v : Vote B}
    (withholds : w.withholds v = true) : w.state.LeadsOn v ∧ Spent w.proposalHashQueue := by
  obtain ⟨qc, w', payload, verified, added, leader, chosen, stopped⟩ := withholds_cases withholds
  obtain ⟨processing, rfl, _⟩ := getProposalPayload_chooses chosen
  obtain ⟨_, view, _⟩ := Aggregator.addVote_some added
  have certified : (({ w with state := (w.state.addVote v).1 }.emit (.collected qc)).handleQc
      qc).desk = w.desk := (handleQc_desk _ qc).trans (emit_desk _ rfl)
  have hashes : _ = w.proposalHashQueue := congrArg Desk.hashes certified
  have spent := ((withheld_iff payload _).mp stopped).2
  rw [handleQc_state, view] at leader
  exact ⟨⟨verified, ⟨qc, added⟩, leader⟩, hashes ▸ spent⟩

theorem ConsensusWorker.handleVote_withholds {w : ConsensusWorker B} {v : Vote B}
    (withholds : w.withholds v = true) : (w.handleVote v).2 = .ok none := by
  obtain ⟨qc, w', payload, verified, added, leader, chosen, stopped⟩ := withholds_cases withholds
  simp only [handleVote, verified, added]
  rw [if_pos leader]
  simp only [proposeOnQc, chosen, stopped, ↓reduceIte]
  rfl

/-- The views of a node's votes rise. -/
theorem Setup.votes_rise (g : Setup B) (actions : List (Action B)) :
    (g.run actions).worker.desk.record.Pairwise fun u u' =>
      ∀ p p', u = .voted p → u' = .voted p' → p.view < p'.view := by
  obtain ⟨_, history, recorded⟩ := (recorded g).run actions
  apply List.pairwise_filterMap.mpr
  apply history.ordered.imp_of_mem
  rintro ⟨m, e⟩ ⟨m', e'⟩ first second order u made u' made' p p' rfl rfl
  have vote {e : Event B} {p : Proposal B} (made : Undertaking.ofEvent e = some (.voted p)) :
      ∃ v, e = .voted p v := by
    cases e <;> simp_all [Undertaking.ofEvent]
  obtain ⟨v, rfl⟩ := vote made
  obtain ⟨v', rfl⟩ := vote made'
  obtain ⟨_, _, _, adopts⟩ := recorded m _ first
  obtain ⟨lawful', _⟩ := recorded m' _ second
  have above := order.2.2 p' v' rfl
  rwa [adopts.lastVotedView, lawful'.view] at above

theorem lastTwoEmpty_of_end {proposals : List (Proposal B)} {p q : Proposal B}
    (ends : [p, q] <:+ proposals) (distinct : p ≠ q)
    (first : p.payload.blockHash = B.emptyPayloadHash)
    (second : q.payload.blockHash = B.emptyPayloadHash) : LastTwoEmpty proposals := by
  obtain ⟨older, rfl⟩ := ends
  have pair : [p, q].dedup = [p, q] := List.Nodup.dedup (by simp [distinct])
  obtain ⟨rest, kept⟩ := List.suffix_union_right older [p, q]
  have recent : (older ++ [p, q]).dedup.rtake 2 = [p, q] := by
    rw [List.dedup_append, pair, ← kept]
    simpa using List.rtake_concat_succ (rest ++ [p]) 1 q
  rw [LastTwoEmpty, recent]
  simp [first, second]

/-- The last two entries of a record that is long enough, all of them votes. -/
theorem two_votes {record : List (Undertaking B)} (long : 2 ≤ record.length)
    (votes : ∀ u ∈ record.rtake 2, ∃ p, u = .voted p) :
    ∃ older p q, record = older ++ [p, q].map Undertaking.voted := by
  rcases List.eq_nil_or_concat record with rfl | ⟨rest, u', rfl⟩
  · simp at long
  rcases List.eq_nil_or_concat rest with rfl | ⟨older, u, rfl⟩
  · simp at long
  simp only [List.concat_eq_append, List.rtake_concat_succ, List.rtake_zero, List.nil_append,
    List.mem_append, List.mem_singleton, forall_eq_or_imp, forall_eq] at votes
  obtain ⟨⟨p, rfl⟩, ⟨q, rfl⟩⟩ := votes
  exact ⟨older, p, q, by simp⟩

/-- Whenever the check withholds a proposal in a run in which it counts votes, the handler returns
without one, and the two most recent proposals the node has made or voted for are different and
empty. -/
theorem withheld_after_two_empty (g : Setup B) (actions : List (Action B))
    (counts : Runs.Along Node.step Node.CountsVotes g.start actions) :
    ∀ before a v, before ++ [a] <+: actions → (g.run before).entered a = some (.vote v) →
      ((g.run before).worker.emit (.handled (.vote v))).withholds v = true →
      (((g.run before).worker.emit (.handled (.vote v))).handleVote v).2 = .ok none ∧
        LastTwoEmpty (g.run before).undertaken := by
  intro before a v here entered withholds
  refine ⟨ConsensusWorker.handleVote_withholds withholds, ?_⟩
  have guarded := (Runs.along_snoc Node.step _ _ _ _).mp (counts.of_prefix Node.step here)
  obtain ⟨leads, spent⟩ := ConsensusWorker.withholds_spent withholds
  have votes := (guarded.2 v entered leads).2
  have tallied := g.run_tallied guarded.1
  obtain ⟨rest, hashes⟩ : Spent (g.run before).worker.desk.hashes := spent
  have long : 2 ≤ (g.run before).worker.desk.record.length := by
    have short := tallied.short
    rw [hashes] at short
    simp at short
    omega
  obtain ⟨older, p, q, record⟩ := two_votes long votes
  have same : [p.payload.blockHash, q.payload.blockHash] =
      [B.emptyPayloadHash, B.emptyPayloadHash] := by
    rcases tallied.votes older [p, q] record with ⟨t, h⟩ | ⟨t, h⟩
    · rw [hashes] at h
      exact (List.append_inj' h rfl).2
    · rw [hashes, ← List.append_assoc] at h
      exact (List.append_inj' (h.trans (List.nil_append _).symm) rfl).2.symm
  have rise := g.votes_rise before
  rw [record, List.pairwise_append] at rise
  have order : p.view < q.view := (List.pairwise_cons.mp rise.2.1).1 _ (by simp) p q rfl rfl
  have distinct : p ≠ q := by
    rintro rfl
    exact UInt64.lt_irrefl _ order
  apply lastTwoEmpty_of_end _ distinct (List.cons.inj same).1
    (List.cons.inj (List.cons.inj same).2).1
  exact ⟨older.map Undertaking.proposal, by simp [Node.undertaken, record, Undertaking.proposal]⟩

theorem Keystore.Signs.answers {k : Keystore B} (signs : k.Signs) : k.Answers := by
  intro id digest e holds error
  obtain ⟨_, answer, _⟩ := signs id digest holds
  rw [error] at answer
  cases answer

def Undertaking.isVoted : Undertaking B → Bool
  | .voted _ => true
  | .proposed _ => false

/-- Runs of a node that only votes. -/
theorem countsVotes_of_voter {g : Setup B} {actions : List (Action B)} (signs : g.Signs actions)
    (voter : ∀ before ∈ actions.inits, (g.run before).worker.desk.record.all Undertaking.isVoted) :
    Runs.Along Node.step Node.CountsVotes g.start actions := by
  apply (Runs.along_iff Node.step _ _ _).mpr
  intro before a here v _ _
  have earlier : before <+: actions := (List.prefix_append _ _).trans here
  have signs' : g.Signs before :=
    ⟨signs.start, fun env mem => signs.environment env (earlier.subset mem)⟩
  refine ⟨signs'.issued.1.answers, fun u member => ?_⟩
  have kept := List.mem_of_mem_drop member
  have vote := List.all_eq_true.mp (voter before ((List.mem_inits _ _).mpr earlier)) u kept
  cases u with
  | voted p => exact ⟨p, rfl⟩
  | proposed p => cases vote

/-- Node 0 votes in the views 1 to 3, for a block and for two empty payloads, and withholds the
third one when the votes of view 3 make it the leader. -/
theorem withheld_after_two_votes :
    let first := Symbolic.signProposal ⟨QC.default, none, ⟨.leaf 7, 1⟩, 1, 1, none⟩
    let second := Symbolic.signProposal ⟨Symbolic.certificate [0, 1, 2] first.digest 1, none,
      ⟨symbolic.emptyPayloadHash, 1⟩, 2, 2, none⟩
    let third := Symbolic.signProposal ⟨Symbolic.certificate [0, 1, 2] second.digest 2, none,
      ⟨symbolic.emptyPayloadHash, 1⟩, 3, 3, none⟩
    let vote := fun a => Symbolic.signVote ⟨third.digest, 3, a, none⟩
    let before : List (Action symbolic) := [.receive (.propose first), .receive (.propose second),
      .receive (.propose third), .resume, .receive (.vote (vote 1))]
    let n := (Symbolic.setup 3 0).run before
    (n.worker.emit (.handled (.vote (vote 2)))).withholds (vote 2) = true ∧
      ((n.worker.emit (.handled (.vote (vote 2)))).handleVote (vote 2)).2 = .ok none ∧
      LastTwoEmpty n.undertaken := by
  intro first second third vote before n
  have signs : (Symbolic.setup 3 0).Signs (before ++ [.receive (.vote (vote 2))]) :=
    ⟨Symbolic.keystore_signs 0, fun env mem => by simp [before] at mem⟩
  have counts := countsVotes_of_voter signs (by decide +kernel)
  have stopped : (n.worker.emit (.handled (.vote (vote 2)))).withholds (vote 2) = true := by
    decide +kernel
  have idle : n.entered (.receive (.vote (vote 2))) = some (.vote (vote 2)) := by decide +kernel
  exact ⟨stopped, withheld_after_two_empty _ _ counts before _ _ (List.prefix_refl _) idle stopped⟩

/-- Node 2 votes for a block in view 1 and proposes once in view 2, an empty payload. Votes of
view 4 reach it while it is still there and make a certificate, and its one empty proposal,
counted when it was made and when it was voted for, withholds the next. -/
theorem withheld_after_one_empty :
    let first := Symbolic.signProposal ⟨QC.default, none, ⟨.leaf 7, 1⟩, 1, 1, none⟩
    let vote := fun a => Symbolic.signVote ⟨first.digest, 1, a, none⟩
    let later := fun a => Symbolic.signVote ⟨.leaf 9, 4, a, none⟩
    let n := (Symbolic.setup 3 2).run [.receive (.propose first), .resume,
      .receive (.vote (vote 0)), .receive (.vote (vote 3)), .resume,
      .receive (.vote (later 0)), .receive (.vote (later 1))]
    n.entered (.receive (.vote (later 3))) = some (.vote (later 3)) ∧
      (n.worker.emit (.handled (.vote (later 3)))).withholds (later 3) = true ∧
      ¬ LastTwoEmpty n.undertaken := by
  decide +kernel

end Hotstuff
