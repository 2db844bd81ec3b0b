import Hotstuff.Chains
import Hotstuff.Monotone

/-! The additions on views. Whatever faulty authorities send, no honest node is in a higher view
than honest nodes have handled calls, since a node advances one view at a time and two in one
call only after an honest authority was in the second one. The views of stored proposals are
bounded in that way only if a quorum of authorities has voted for them. -/
namespace Hotstuff

variable {B : BlockT}

open ConsensusWorker

/-! ### What is bounded -/

/-- The worker is in no view above `bound` and never was. -/
structure Within (bound : Nat) (w : ConsensusWorker B) : Prop where
  view : w.state.view.toNat ≤ bound
  noted : ∀ x ∈ w.trace, x.1.view.toNat ≤ bound

theorem Within.mono {bound bound' : Nat} {w : ConsensusWorker B} (within : Within bound w)
    (le : bound ≤ bound') : Within bound' w :=
  ⟨within.view.trans le, fun x entry => (within.noted x entry).trans le⟩

theorem toNat_succ_le (view : ViewNumber) : (view + 1).toNat ≤ view.toNat + 1 := by
  rw [UInt64.toNat_add]
  exact Nat.mod_le _ _

section Move

variable {w₀ w w' : ConsensusWorker B} {c : Call B} {bound : Nat}

/-- A TC formed in a view that somebody has been in before the call. -/
def FormsVisited (bound : Nat) (w : ConsensusWorker B) : Prop :=
  ∀ tc : TC B, tc.votes = (w.state.aggregator.timeoutsAggregators tc.view).votes →
    w.state.authorities.length * 2 / 3 < tc.votes.length → tc.view.toNat ≤ bound

theorem Leaves.view_le (start : w₀.state.view.toNat ≤ bound) (visited : FormsVisited bound w)
    (leaves : Leaves w₀ c w) : w.state.view.toNat ≤ bound := by
  cases leaves with
  | proposalQc _ _ same | timeoutQc _ _ same | receivedTc _ _ same =>
    rw [same]
    exact start
  | collected v qc moment =>
    have same : w.state.view = w₀.state.view := congrArg Moment.view moment
    rw [same]
    exact start
  | formedTc t tc view votes quorum same =>
    rw [← view] at votes
    rw [← same]
    exact visited tc votes quorum

theorem Move.view_within (start : w₀.state.view.toNat ≤ bound) (visited : FormsVisited bound w)
    (within : w.state.view.toNat ≤ bound + 1) (move : Move w₀ c w w') :
    w'.state.view.toNat ≤ bound + 1 := by
  rcases move.view_cases with same | ⟨next, leaves, _⟩
  · rw [same]
    exact within
  · rw [next]
    exact (toNat_succ_le _).trans (Nat.succ_le_succ (leaves.view_le start visited))

theorem Within.move (start : w₀.state.view.toNat ≤ bound) (visited : FormsVisited bound w)
    (within : Within (bound + 1) w) (move : Move w₀ c w w') : Within (bound + 1) w' := by
  have view := move.view_within start visited within.view
  refine ⟨view, fun x entry => ?_⟩
  rcases move.noted entry with old | now | now
  · exact within.noted x old
  · rw [now]
    exact within.view
  · rw [now]
    exact view

theorem Move.handled (move : Move w₀ c w w') {d : Call B} (handled : Handled w'.trace d) :
    Handled w.trace d := by
  obtain ⟨m, entry⟩ := handled
  obtain ⟨new, grown, causes⟩ := move.appends
  rw [grown] at entry
  rcases List.mem_append.mp entry with old | added
  · exact ⟨m, old⟩
  · exact (causes m _ added).elim

end Move

/-! ### The views of a run -/

namespace System

variable (sys : System B)

/-- The number of calls that honest nodes have entered. -/
def steps (actions : List (B.AuthorityId × Action B)) : Nat :=
  Runs.tally (Runs.many Node.step)
    (fun world x => decide (x.1 ∉ sys.faulty) && ((world x.1).entered x.2).isSome) sys.start actions

theorem steps_snoc (actions : List (B.AuthorityId × Action B)) (x : B.AuthorityId × Action B) :
    sys.steps (actions ++ [x]) = sys.steps actions +
      if x.1 ∉ sys.faulty ∧ ((sys.run actions x.1).entered x.2).isSome = true then 1 else 0 := by
  have last := Runs.tally_append (Runs.many Node.step)
    (fun world x => decide (x.1 ∉ sys.faulty) && ((world x.1).entered x.2).isSome) sys.start
    actions [x]
  simp only [Runs.tally, Nat.add_zero, Bool.and_eq_true, decide_eq_true_eq] at last
  exact last

variable {sys} (widths : FixedWidth B) (ideal : CollisionFree B)
  {actions : List (B.AuthorityId × Action B)}
include widths ideal

/-- An honest signer of a timeout was in its view. -/
theorem timeoutBehind_visited {bound : Nat}
    (within : ∀ j ∉ sys.faulty, Within bound (sys.run actions j).worker)
    {trace : List (Moment B × Event B)}
    (backed : ∀ t, Handled trace (.timeout t) → ∀ s ∈ (Call.timeout t).signatures,
      sys.Backed (sys.run actions) s)
    {view : ViewNumber} {id : B.AuthorityId} {signature : B.AuthoritySignature}
    (honest : sys.committee.Honest id)
    (behind : TimeoutBehind sys.authorities trace view id signature) : view.toNat ≤ bound := by
  obtain ⟨t, handled, verified, rfl, rfl, own⟩ := behind
  obtain ⟨⟨_, s, own', valid⟩, _⟩ := (t.verify_ok _).mp verified
  cases own.symm.trans own'
  have signed := backed t handled signature (by simp [Call.signatures, own]) t.voter t.digest honest
    valid
  obtain ⟨m, t', entry, view, _⟩ := sys.signed_timeout widths ideal signed
  obtain ⟨current, _⟩ := (sys.recorded actions t.voter).2 m _ entry
  rw [← view, current]
  exact (within t.voter honest.2).noted _ entry

theorem formsVisited {bound : Nat}
    (within : ∀ j ∉ sys.faulty, Within bound (sys.run actions j).worker) {i : B.AuthorityId}
    {w : ConsensusWorker B} (base : Base (sys.node i) w) (prov : Provenance (sys.node i) w)
    (backed : ∀ t, Handled w.trace (.timeout t) → ∀ s ∈ (Call.timeout t).signatures,
      sys.Backed (sys.run actions) s) : FormsVisited bound w := by
  intro tc votes many
  rw [base.authorities, sys.shared] at many
  have behind : ∀ x ∈ tc.votes, TimeoutBehind sys.authorities w.trace tc.view x.1 x.2.1 := by
    intro x hx
    rw [votes] at hx
    rw [← sys.shared i]
    exact prov.timeouts tc.view x hx
  have distinct : (tc.votes.map Prod.fst).Nodup := by
    rw [votes]
    exact Maker.distinct _
  have quorum := sys.quorum_of_ids distinct (by rwa [List.length_map]) (by
    intro id hid
    obtain ⟨x, hx, rfl⟩ := List.mem_map.mp hid
    obtain ⟨t, _, verified, _, voter, _⟩ := behind x hx
    exact voter ▸ ((t.verify_ok _).mp verified).1.1)
  obtain ⟨id, hid, honest⟩ := quorum.honest
  obtain ⟨x, hx, rfl⟩ := List.mem_map.mp (List.mem_toFinset.mp hid)
  exact timeoutBehind_visited widths ideal within backed honest (behind x hx)

/-- One call takes the views of honest nodes up by one at most. -/
theorem handle_within (lawful : sys.Lawful actions) {bound : Nat}
    (within : ∀ j ∉ sys.faulty, Within bound (sys.run actions j).worker) {i : B.AuthorityId}
    (honest : i ∉ sys.faulty) {c : Call B}
    (unforged : ∀ s ∈ c.signatures, sys.Backed (sys.run actions) s) :
    Within (bound + 1) (((sys.run actions i).worker.emit (.handled c)).handle c).1 := by
  obtain ⟨base, prov⟩ : Base (sys.node i) (sys.run actions i).worker ∧
      Provenance (sys.node i) (sys.run actions i).worker := by
    rw [sys.run_node]
    exact (provenance _).run _
  have start : Within bound ((sys.run actions i).worker.emit (.handled c)) := by
    refine ⟨(within i honest).view, fun x hx => ?_⟩
    rcases List.mem_append.mp hx with old | new
    · exact (within i honest).noted x old
    · rw [List.mem_singleton.mp new]
      exact (within i honest).view
  -- The timeouts in the aggregator were handled before the call or are the one it handles.
  have backed : ∀ d, Handled ((sys.run actions i).worker.emit (.handled c)).trace d →
      ∀ s ∈ d.signatures, sys.Backed (sys.run actions) s := by
    rintro d ⟨m, mark⟩
    rcases List.mem_append.mp mark with old | new
    · exact sys.handled_backed lawful honest ⟨m, old⟩
    · cases List.mem_singleton.mp new
      exact unforged
  obtain ⟨_, _, _, whole⟩ := (provenance (sys.node i)).during c base prov (fun u =>
    (∀ d, Handled u.trace d → Handled ((sys.run actions i).worker.emit (.handled c)).trace d) ∧
      Within (bound + 1) u)
    ⟨fun _ => id, start.mono (Nat.le_succ _)⟩ (by
      rintro u v during prov ⟨marks, sofar⟩ move
      refine ⟨fun d handled => marks d (move.handled handled), ?_⟩
      refine sofar.move start.view (formsVisited widths ideal within during.base prov ?_) move
      exact fun t handled => backed _ (marks _ handled))
  exact whole

theorem run_within (lawful : sys.Lawful actions) :
    ∀ i ∉ sys.faulty, Within (sys.steps actions) (sys.run actions i).worker := by
  induction actions using List.reverseRecOn with
  | nil => exact fun _ _ => ⟨Nat.zero_le _, List.forall_mem_nil _⟩
  | append_singleton actions x ih =>
    obtain ⟨lawful, unforged⟩ := (Runs.along_snoc _ _ _ actions x).mp lawful
    intro i honest
    have grown : sys.steps actions ≤ sys.steps (actions ++ [x]) := by
      rw [steps_snoc]
      exact Nat.le_add_right _ _
    have before := (ih lawful i honest).mono grown
    rw [run_snoc]
    unfold Runs.many
    by_cases moved : i = x.1
    · subst moved
      rw [Function.update_self]
      cases entered : (sys.run actions x.1).entered x.2 with
      | none =>
        obtain ⟨env, seen⟩ := Node.step_not_entered entered
        rw [seen]
        exact ⟨before.view, before.noted⟩
      | some c =>
        have counted : sys.steps (actions ++ [x]) = sys.steps actions + 1 := by
          rw [steps_snoc, if_pos ⟨honest, by rw [entered]; rfl⟩]
        rw [Node.step_entered entered, counted]
        exact handle_within widths ideal lawful (ih lawful) honest (unforged honest c entered)
    · rw [Function.update_of_ne moved]
      exact before

end System

/-! ### The additions of a call -/

/-- None of the additions on views exceeds `u64::MAX` in the call `c` entered in `w`: not `view + 1`
in `advance_view_from_target`, not `self.state.view() + 1` once a vote is made, and not
`grandpa.view + 1` once both ancestors are found. -/
structure AdditionsFit (w : ConsensusWorker B) (c : Call B) : Prop where
  advance : ∀ x ∈ (w.handle c).1.trace, Fits x
  vote : ∀ m p v, (m, .voted p v) ∈ (w.handle c).1.trace → m.view.toNat + 1 < UInt64.size
  commit : ∀ p s parent grandpa, c = .proposal p → w.Receives p →
    w.synchronizer.saveProposal p = .ok s → s.getProposalAncestors p = .ok (parent, grandpa) →
    grandpa.view.toNat + 1 < UInt64.size

theorem handleProposal_seen {w : ConsensusWorker B} {p : Proposal B} (received : w.Receives p)
    {s : Synchronizer B} (saved : w.synchronizer.saveProposal p = .ok s) :
    (w.state.moment, .verified p) ∈ (w.handleProposal p).1.trace := by
  have mark : (w.state.moment, .verified p) ∈ ((w.emit (.verified p)).handleQc p.qc).trace := by
    rw [handleQc_trace]
    simp
  have kept := handleProposalTc_trace ((w.emit (.verified p)).handleQc p.qc) p.tc mark
  have saved' : (((w.emit (.verified p)).handleQc p.qc).handleProposalTc
      p.tc).synchronizer.saveProposal p = .ok s := by simpa using saved
  unfold handleProposal
  rw [received.1, received.2]
  dsimp only
  rw [saved']
  have finalized := (tryFinalize_frame { ((w.emit (.verified p)).handleQc p.qc).handleProposalTc
    p.tc with synchronizer := s } p).2 kept
  obtain ⟨new, grown, _⟩ := voteFor_trace ({ ((w.emit (.verified p)).handleQc
    p.qc).handleProposalTc p.tc with synchronizer := s }.tryFinalize p) p
  rw [grown]
  exact List.mem_append_left _ finalized

namespace System

variable {sys : System B} (widths : FixedWidth B) (ideal : CollisionFree B)
  {actions : List (B.AuthorityId × Action B)} (lawful : sys.Lawful actions)
  (members : sys.MembersOnly actions) {i : B.AuthorityId} (honest : i ∉ sys.faulty)
include widths ideal lawful members honest

/-- What an accepted proposal builds on was voted for by an honest authority in its own view. -/
theorem parent_within {m : Moment B} {p parent : Proposal B}
    (seen : (m, .verified p) ∈ (sys.run actions i).worker.trace)
    (link : p.qc.proposalHash = parent.digest) : parent.view.toNat ≤ sys.steps actions := by
  have byMembers := verified_along (fun _ p => p.ByMembers sys.authorities) members honest seen
  have certified := (linked_certified widths ideal lawful honest seen byMembers link).2
  obtain ⟨k, y, authority, ⟨n, v, voted⟩, _, view⟩ := certified.voter
  obtain ⟨lawfulVote, _⟩ := (sys.recorded actions k).2 n _ voted
  have bound := (run_within widths ideal lawful k authority.2).noted _ voted
  rw [← lawfulVote.current] at bound
  change y.view.toNat = parent.view.toNat at view
  omega

variable (codec : ∀ i ∉ sys.faulty, ∀ p,
    (sys.node i).synchronizer.decode ((sys.node i).synchronizer.encode p) = .ok p)
  (fresh : ∀ i ∉ sys.faulty, ∀ key, (sys.node i).synchronizer.store.aux key = none)
include codec fresh

theorem canFinalize_consecutive (short : sys.steps actions < UInt64.size - 2) {m : Moment B}
    {q p g : Proposal B}
    (reached : (m, .canFinalize q p g) ∈ (sys.run actions i).worker.trace) :
    p.view.toNat = g.view.toNat + 1 := by
  have chained : Chained (sys.run actions i).worker.trace (.canFinalize q p g) := by
    rw [sys.run_node] at reached ⊢
    exact ((canFinalize_chained _ (codec i honest) (fresh i honest)).run _).2.2 m _ reached
  obtain ⟨link, _, consecutive, ⟨_, seen⟩, _⟩ := chained
  have bound := parent_within widths ideal lawful members honest seen link
  have fits : g.view.toNat + 1 < UInt64.size := by omega
  rw [consecutive, UInt64.toNat_add]
  exact Nat.mod_eq_of_lt fits

omit lawful members in
/-- The ancestors are looked up in the store as it is with the proposal itself saved. -/
theorem grandpa_within {x : B.AuthorityId × Action B} (lawful : sys.Lawful (actions ++ [x]))
    (members : sys.MembersOnly (actions ++ [x])) (mine : x.1 = i) {p : Proposal B}
    (entered : (sys.run actions i).entered x.2 = some (.proposal p))
    (received : ((sys.run actions i).worker.emit (.handled (.proposal p))).Receives p)
    {s : Synchronizer B} (saved : (sys.run actions i).worker.synchronizer.saveProposal p = .ok s)
    {parent grandpa : Proposal B} (found : s.getProposalAncestors p = .ok (parent, grandpa)) :
    grandpa.view.toNat ≤ sys.steps (actions ++ [x]) := by
  generalize entry : (sys.run actions i).worker.emit (.handled (.proposal p)) = w at received
  obtain ⟨base, inv⟩ : Base (sys.node i) w ∧ StoreInv (sys.node i) w := by
    rw [← entry, sys.run_node]
    obtain ⟨base, inv⟩ := (storeInv _ (codec i honest) (fresh i honest)).run (Runs.own i actions)
    exact ⟨base.of_eq rfl rfl rfl rfl, inv.frame rfl (List.subset_append_left _ _)⟩
  have written : w.synchronizer.saveProposal p = .ok s := entry ▸ saved
  have seen : (w.state.moment, .verified p) ∈ (w.emit (.verified p)).trace :=
    List.mem_append_right _ (List.mem_singleton.mpr rfl)
  have stored := inv.save (List.subset_append_left _ _) base (codec i honest) seen written
  have base' : Base (sys.node i) { w.emit (.verified p) with synchronizer := s } := by
    rw [saveProposal_codec written]
    exact ⟨base.authorities, base.hasKeys, base.encode, base.decode⟩
  have grown : (w.emit (.verified p)).trace ⊆ (sys.run (actions ++ [x]) i).worker.trace := by
    subst mine
    rw [run_snoc, Runs.many, Function.update_self, Node.step_entered entered]
    have after : ((sys.run actions x.1).enter (.proposal p)).worker = (w.handleProposal p).1 :=
      entry ▸ rfl
    intro y hy
    rw [after]
    rcases List.mem_append.mp hy with old | new
    · exact (handle_trace w (.proposal p)).subset old
    · rw [List.mem_singleton.mp new]
      exact handleProposal_seen received written
  obtain ⟨first, second⟩ := getProposalAncestors_ok found
  obtain ⟨_, _, _, parentSeen⟩ := stored.parent base' first
  obtain ⟨link, _⟩ := stored.parent base' second
  exact parent_within widths ideal lawful members honest (grown parentSeen) link

end System

/-- In a run of fewer than `2^64 - 2` calls in which no certificate of an accepted proposal has a
signer from outside, no addition on views overflows, and the commit test compares true views. -/
theorem view_additions_fit (sys : System B) (widths : FixedWidth B) (ideal : CollisionFree B)
    (codec : ∀ i ∉ sys.faulty, ∀ p,
      (sys.node i).synchronizer.decode ((sys.node i).synchronizer.encode p) = .ok p)
    (fresh : ∀ i ∉ sys.faulty, ∀ key, (sys.node i).synchronizer.store.aux key = none)
    (actions : List (B.AuthorityId × Action B)) (lawful : sys.Lawful actions)
    (short : sys.steps actions < UInt64.size - 2) (members : sys.MembersOnly actions)
    (first : List (B.AuthorityId × Action B)) (x : B.AuthorityId × Action B)
    (before : first ++ [x] <+: actions) (honest : x.1 ∉ sys.faulty) (c : Call B)
    (entered : (sys.run first x.1).entered x.2 = some c) :
    AdditionsFit ((sys.run first x.1).worker.emit (.handled c)) c ∧
      ∀ m q p g, (m, .canFinalize q p g) ∈ (sys.run (first ++ [x]) x.1).worker.trace →
        p.view.toNat = g.view.toNat + 1 := by
  have lawful' : sys.Lawful (first ++ [x]) := lawful.of_prefix _ before
  have members' : sys.MembersOnly (first ++ [x]) := members.of_prefix _ before
  have short' : sys.steps (first ++ [x]) < UInt64.size - 2 :=
    Nat.lt_of_le_of_lt (Runs.tally_prefix _ _ _ before) short
  have noted := (System.run_within widths ideal lawful' x.1 honest).noted
  have after : (sys.run (first ++ [x]) x.1).worker =
      (((sys.run first x.1).worker.emit (.handled c)).handle c).1 := by
    rw [System.run_snoc, Runs.many, Function.update_self, Node.step_entered entered]
    rfl
  rw [after] at noted
  refine ⟨⟨?_, ?_, ?_⟩, ?_⟩
  · intro y entry _
    have bound := noted y entry
    omega
  · intro m p v entry
    have bound := noted _ entry
    change m.view.toNat ≤ _ at bound
    omega
  · rintro p s parent grandpa rfl received saved found
    have bound := System.grandpa_within widths ideal honest codec fresh lawful' members' rfl
      entered received saved found
    omega
  · exact fun m q p g reached => System.canFinalize_consecutive widths ideal lawful' members'
      honest codec fresh short' reached

/- The call in which node 3 takes up its own proposal and finalizes the first one. -/
theorem view_additions_fit_rounds :
    let sys := Symbolic.system 3 {1} (by decide)
    let first : List (symbolic.AuthorityId × Action symbolic) := Symbolic.rounds.take 12
    let x : symbolic.AuthorityId × Action symbolic := (3, .resume)
    sys.Lawful Symbolic.rounds ∧ sys.steps Symbolic.rounds < UInt64.size - 2 ∧
      AdditionsFit ((sys.run first x.1).worker.emit (.handled (.proposal Symbolic.third)))
        (.proposal Symbolic.third) ∧
      (∃ m, (m, .canFinalize Symbolic.third Symbolic.second Symbolic.round.1) ∈
        (sys.run (first ++ [x]) x.1).worker.trace) ∧
      Symbolic.second.view.toNat = Symbolic.round.1.view.toNat + 1 := by
  intro sys first x
  have lawful : sys.Lawful Symbolic.rounds := Symbolic.lawful (by decide +kernel)
  have accepts : sys.AcceptsOnly Symbolic.rounds := by decide +kernel
  have short : sys.steps Symbolic.rounds < UInt64.size - 2 := by decide +kernel
  have entered : (sys.run first x.1).entered x.2 = some (.proposal Symbolic.third) := by
    decide +kernel
  have reached : ∃ y ∈ (sys.run (first ++ [x]) x.1).worker.trace,
      y.2 = .canFinalize Symbolic.third Symbolic.second Symbolic.round.1 := by decide +kernel
  have here : first ++ [x] <+: Symbolic.rounds := by
    have next : Symbolic.rounds.take 13 = first ++ [x] := List.take_add_one
    exact next ▸ List.take_prefix 13 Symbolic.rounds
  obtain ⟨fit, consecutive⟩ := view_additions_fit sys symbolic_fixedWidth symbolic_collisionFree
    (fun _ _ => Symbolic.decode_encode) (fun _ _ _ => rfl) Symbolic.rounds lawful short
    accepts.membersOnly first x here (by decide) _ entered
  obtain ⟨⟨m, _⟩, entry, rfl⟩ := reached
  exact ⟨lawful, short, fit, ⟨m, entry⟩, consecutive m _ _ _ entry⟩

/- Authority 0 of five is faulty and leads the views 0, 5 and the last one there is. On
certificates signed by keys of no authority its proposal of view 0 follows that of the last view,
and node 1 finalizes the block of it. -/
theorem view_addition_wraps :
    let forged := fun (p : Proposal symbolic) =>
      Symbolic.certificate [10, 11, 12, 13] p.digest p.view
    let g := Symbolic.signProposal ⟨QC.default, none, ⟨.leaf 7, 1⟩, 18446744073709551615, 0, none⟩
    let p := Symbolic.signProposal ⟨forged g, none, ⟨.leaf 8, 1⟩, 0, 0, none⟩
    let q := Symbolic.signProposal ⟨forged p, none, ⟨.leaf 9, 1⟩, 5, 0, none⟩
    let sys := Symbolic.system 4 {0} (by decide)
    let actions := [g, p, q].map fun x => (1, .receive (.propose x))
    sys.Lawful actions ∧ sys.steps actions = 3 ∧ 1 ∉ sys.faulty ∧
      ¬ g.view.toNat + 1 < UInt64.size ∧
      (∃ x ∈ (sys.run actions 1).worker.trace, x.2 = .canFinalize q p g) ∧
      ∃ x ∈ (sys.run actions 1).worker.trace, x.2 = .finalizeBlock (.leaf 7) :=
  ⟨Symbolic.lawful (by decide +kernel), by decide +kernel, by decide, by decide, by decide +kernel,
    by decide +kernel⟩

end Hotstuff
