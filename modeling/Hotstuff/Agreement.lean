import Hotstuff.Finality
import Hotstuff.System
import Hotstuff.Votes

/-! Agreement on what is committed, for runs in which the certificates that honest nodes
accept are signed by authorities and the two-chain voting rule happens to be kept. -/
namespace Hotstuff

variable {B : BlockT}

open ConsensusWorker

/-- The proposal is for the view in which its certificate leaves the node, and above the last
vote. -/
def MayBeVoted (m : Moment B) (p : Proposal B) : Prop :=
  p.view = advanced m.view p.qc.view ∧ m.lastVotedView < p.view

/-- The signers of the certificate are authorities, which its verification does not ask. -/
def Proposal.ByMembers (authorities : AuthorityList B) (p : Proposal B) : Prop :=
  p.qc.eq QC.default = true ∨ ∀ x ∈ p.qc.votes, x.1 ∈ authorities.ids

instance (authorities : AuthorityList B) (p : Proposal B) :
    Decidable (p.ByMembers authorities) :=
  inferInstanceAs (Decidable (_ ∨ _))

/-- What the code does not look at when a proposal `p` passes `verify_proposal` in a state
`m`: who has signed its certificate and, for a vote, whether `handle_qc` takes that certificate
up and whether `p` is on a safe branch. -/
structure Acceptable (authorities : AuthorityList B) (m : Moment B) (p : Proposal B) :
    Prop where
  members : p.ByMembers authorities
  kept : MayBeVoted m p → m.view ≤ p.qc.view ∨ p.qc.view ≤ m.highQc.view
  safe : MayBeVoted m p → m.highQc.view ≤ p.qc.view ∨
    ∃ tc ∈ p.tc, tc.Excuses authorities p ∧ ∀ v ∈ tc.votes, v.1 ∈ authorities.ids

instance (authorities : AuthorityList B) (m : Moment B) (p : Proposal B) :
    Decidable (Acceptable authorities m p) :=
  have : Decidable (MayBeVoted m p) := inferInstanceAs (Decidable (_ ∧ _))
  decidable_of_iff
    (p.ByMembers authorities ∧
      (MayBeVoted m p → m.view ≤ p.qc.view ∨ p.qc.view ≤ m.highQc.view) ∧
      (MayBeVoted m p → m.highQc.view ≤ p.qc.view ∨
        ∃ tc ∈ p.tc, tc.Excuses authorities p ∧ ∀ v ∈ tc.votes, v.1 ∈ authorities.ids))
    ⟨fun h => ⟨h.1, h.2.1, h.2.2⟩, fun h => ⟨h.members, h.kept, h.safe⟩⟩

/-- Parent links between digests; a digest fixes the parent it names. -/
def Extends (p q : Proposal B) : Prop :=
  Relation.ReflTransGen
    (fun k k' => ∃ x : Proposal B, x.digest = k ∧ x.qc.proposalHash = k') p.digest q.digest

theorem Adopts.base_le {m m' : Moment B} {p : Proposal B} {authorities : AuthorityList B}
    (adopts : Adopts m' p m) (acceptable : Acceptable authorities m' p) :
    p.qc.view ≤ m.highQc.view := by
  rw [adopts.highQc, Moment.highQcAfter]
  split
  · exact UInt64.le_refl _
  · rename_i ignored
    rcases acceptable.kept ⟨adopts.view, adopts.fresh⟩ with ahead | known
    · exact UInt64.not_lt.mp fun higher => ignored ⟨ahead, higher⟩
    · exact known

theorem Adopts.highQc_le {m m' : Moment B} {p : Proposal B} (adopts : Adopts m' p m)
    (safe : m'.highQc.view ≤ p.qc.view) : m.highQc.view ≤ p.qc.view := by
  rw [adopts.highQc, Moment.highQcAfter]
  split
  · exact UInt64.le_refl _
  · exact safe

namespace System

variable (sys : System B)

/-- The steps in which an honest node accepts nothing but acceptable proposals. -/
def Accepting (world : World B) (x : B.AuthorityId × Action B) : Prop :=
  x.1 ∉ sys.faulty → ∀ p, (world x.1).entered x.2 = some (.proposal p) →
    (world x.1).worker.state.verifyProposal p = .ok () →
    Acceptable sys.authorities (world x.1).worker.state.moment p

instance (world : World B) (x : B.AuthorityId × Action B) : Decidable (sys.Accepting world x) :=
  match entered : (world x.1).entered x.2 with
  | some (.proposal p) =>
    decidable_of_iff (x.1 ∉ sys.faulty → (world x.1).worker.state.verifyProposal p = .ok () →
      Acceptable sys.authorities (world x.1).worker.state.moment p) (by simp [Accepting, entered])
  | some .localTimer | some (.timeout _) | some (.vote _) | some (.tc _) | none =>
    .isTrue (by simp [Accepting, entered])

def AcceptsOnly (actions : List (B.AuthorityId × Action B)) : Prop :=
  Runs.Along (Runs.many Node.step) sys.Accepting sys.start actions

instance (actions : List (B.AuthorityId × Action B)) : Decidable (sys.AcceptsOnly actions) :=
  inferInstanceAs (Decidable (Runs.Along (Runs.many Node.step) sys.Accepting sys.start actions))

/-- The steps in which no certificate of a proposal that an honest node accepts has a signer
from outside. -/
def Enrolled (world : World B) (x : B.AuthorityId × Action B) : Prop :=
  x.1 ∉ sys.faulty → ∀ p, (world x.1).entered x.2 = some (.proposal p) →
    (world x.1).worker.state.verifyProposal p = .ok () → p.ByMembers sys.authorities

def MembersOnly (actions : List (B.AuthorityId × Action B)) : Prop :=
  Runs.Along (Runs.many Node.step) sys.Enrolled sys.start actions

section Run

variable {sys} {actions : List (B.AuthorityId × Action B)}

theorem AcceptsOnly.membersOnly (accepts : sys.AcceptsOnly actions) : sys.MembersOnly actions :=
  accepts.imp _ fun _ _ accepting honest p entered passed =>
    (accepting honest p entered passed).members

/-- What is demanded of the proposals honest nodes accept holds of those they have verified. -/
theorem verified_along (Φ : Moment B → Proposal B → Prop)
    (guarded : Runs.Along (Runs.many Node.step) (fun world x => x.1 ∉ sys.faulty → ∀ p,
      (world x.1).entered x.2 = some (.proposal p) →
      (world x.1).worker.state.verifyProposal p = .ok () → Φ (world x.1).worker.state.moment p)
      sys.start actions)
    {i : B.AuthorityId} (honest : i ∉ sys.faulty) {m : Moment B} {p : Proposal B}
    (seen : (m, .verified p) ∈ (sys.run actions i).worker.trace) : Φ m p := by
  refine sys.entries_along (fun _ i m e => i ∉ sys.faulty → ∀ p, e = .verified p → Φ m p)
    (fun _ _ _ _ _ sofar => sofar) ?_ guarded i m _ seen honest p rfl
  rintro world x c m e accepting entered (mark | ⟨_, cause⟩) honest p rfl
  · cases mark
  · obtain ⟨rfl, rfl, passed⟩ := cause
    exact accepting honest p entered passed

theorem verified_acceptable (accepts : sys.AcceptsOnly actions) {i : B.AuthorityId}
    (honest : i ∉ sys.faulty) {m : Moment B} {p : Proposal B}
    (seen : (m, .verified p) ∈ (sys.run actions i).worker.trace) :
    Acceptable sys.authorities m p :=
  verified_along (Acceptable sys.authorities) accepts honest seen

end Run

section Rooted

variable {sys} (widths : FixedWidth B) (ideal : CollisionFree B)
  {actions : List (B.AuthorityId × Action B)}

theorem carried_certified {p : Proposal B}
    (passed : p.verify sys.authorities = .ok ()) (members : p.ByMembers sys.authorities)
    (backed : ∀ s ∈ (Call.proposal p).signatures, sys.Backed (sys.run actions) s) :
    p.qc.eq QC.default = true ∨
      (sys.votes widths ideal actions).Certified p.qc.proposalHash p.qc.view.toNat := by
  rcases ((p.verify_ok _).mp passed).2 with default | verified
  · exact .inl default
  · rcases members with default | members
    · exact .inl default
    · refine .inr (sys.certified_of_verified widths ideal verified members fun x hx => ?_)
      refine backed x.2 ?_
      simp only [Call.signatures, List.mem_append, List.mem_map]
      exact .inl (.inr ⟨x, hx, rfl⟩)

/-- The first vote of an honest authority for the digest of `x` came when a quorum had voted
for its parent, so the voters of that quorum vote for `x` in later views only. -/
def Rooted (sys : System B) (actions : List (B.AuthorityId × Action B)) (x : Proposal B) : Prop :=
  x.parentHash = B.defaultHash ∨ ∃ signers, sys.committee.Quorum signers ∧
    ∀ c ∈ signers, sys.committee.Honest c → ∃ z, sys.Voted actions c z ∧
      z.digest = x.parentHash ∧ ∀ y, sys.Voted actions c y → y.digest = x.digest → z.view < y.view

theorem run_snoc (sys : System B) (actions : List (B.AuthorityId × Action B))
    (x : B.AuthorityId × Action B) :
    sys.run (actions ++ [x]) = Runs.many Node.step (sys.run actions) x :=
  Runs.run_snoc _ _ actions x

theorem Voted.later {c : B.AuthorityId} {z : Proposal B} (voted : sys.Voted actions c z)
    (x : B.AuthorityId × Action B) : sys.Voted (actions ++ [x]) c z := by
  obtain ⟨m, v, entry⟩ := voted
  refine ⟨m, v, ?_⟩
  rw [run_snoc]
  exact (trace_grows _ x c).subset entry

theorem Voted.above {c : B.AuthorityId} {y z : Proposal B} {x : B.AuthorityId × Action B}
    (voted : sys.Voted actions c z) (new : sys.Voted (actions ++ [x]) c y)
    (first : ¬ sys.Voted actions c y) : z.view < y.view := by
  obtain ⟨m, v, entry⟩ := voted
  obtain ⟨m', v', entry'⟩ := new
  obtain ⟨_, _, _, adopts⟩ := (sys.recorded actions c).2 m _ entry
  obtain ⟨history, entries⟩ := sys.recorded (actions ++ [x]) c
  obtain ⟨lawful, _⟩ := entries m' _ entry'
  obtain ⟨more, grown⟩ := trace_grows (sys.run actions) x c
  rw [← run_snoc] at grown
  have added : (m', .voted y v') ∈ more := by
    rw [← grown] at entry'
    exact (List.mem_append.mp entry').resolve_left fun old => first ⟨m', v', old⟩
  have above := (history.order (grown ▸ Before.of_mem entry added)).2.2 y v' rfl
  rwa [adopts.lastVotedView, lawful.view] at above

theorem Rooted.later {p : Proposal B} (rooted : sys.Rooted actions p)
    (x : B.AuthorityId × Action B) : sys.Rooted (actions ++ [x]) p := by
  rcases rooted with root | ⟨signers, quorum, voters⟩
  · exact .inl root
  · refine .inr ⟨signers, quorum, fun c hc honest => ?_⟩
    obtain ⟨z, voted, parent, before⟩ := voters c hc honest
    refine ⟨z, voted.later x, parent, fun y new same => ?_⟩
    by_cases old : sys.Voted actions c y
    · exact before y old same
    · exact voted.above new old

include widths ideal

/-- Induction on the run: the first vote for a digest is cast on a certificate whose votes are
already there. -/
theorem voted_rooted (lawful : sys.Lawful actions) (members : sys.MembersOnly actions) :
    ∀ i, sys.committee.Honest i → ∀ p, sys.Voted actions i p → sys.Rooted actions p := by
  induction actions using List.reverseRecOn with
  | nil => exact fun _ _ _ ⟨_, _, entry⟩ => absurd entry List.not_mem_nil
  | append_singleton actions x ih =>
    obtain ⟨lawful, unforged⟩ := (Runs.along_snoc _ _ _ actions x).mp lawful
    obtain ⟨members, enrolled⟩ := (Runs.along_snoc _ _ _ actions x).mp members
    rintro i honest p ⟨m, v, entry⟩
    by_cases earlier : ∃ k y, sys.committee.Honest k ∧ sys.Voted actions k y ∧ y.digest = p.digest
    · obtain ⟨k, y, honest', voted, same⟩ := earlier
      have parent := (Proposal.digest_injective widths ideal.injective same).2.2.2
      have rooted := (ih lawful members k honest' y voted).later x
      simp only [Rooted, Proposal.parentHash, same, parent] at rooted ⊢
      exact rooted
    · rw [run_snoc] at entry
      rcases step_entries entry with old | ⟨rfl, c, entered, ⟨_, mark⟩ | ⟨_, cause⟩⟩
      · exact absurd ⟨i, p, honest, ⟨m, v, old⟩, rfl⟩ earlier
      · cases mark
      · obtain ⟨rfl, passed, _⟩ := cause
        have checked := ((ConsensusState.verifyProposal_ok _ p).mp passed).2
        rw [emit_state, sys.authorities_run] at checked
        rcases carried_certified widths ideal checked (enrolled honest.2 p entered passed)
          (unforged honest.2 _ entered) with default | ⟨signers, quorum, voters⟩
        · exact .inl (p.qc.eq_default.mp default).1
        · refine .inr ⟨signers, quorum, fun c hc honest' => ?_⟩
          obtain ⟨z, voted, parent, _⟩ := voters c hc honest'
          refine ⟨z, Voted.later voted x, parent, fun y new same => ?_⟩
          exact Voted.above voted new fun old => earlier ⟨c, y, honest', old, same⟩

end Rooted

section Certified

variable {sys} (widths : FixedWidth B) (ideal : CollisionFree B)
  {actions : List (B.AuthorityId × Action B)} (lawful : sys.Lawful actions)
  {i : B.AuthorityId} (honest : i ∉ sys.faulty) {m : Moment B} {p : Proposal B}
  (seen : (m, .verified p) ∈ (sys.run actions i).worker.trace)
  (members : p.ByMembers sys.authorities)
include lawful honest seen members

theorem verified_certified : p.qc.eq QC.default = true ∨
    (sys.votes widths ideal actions).Certified p.qc.proposalHash p.qc.view.toNat := by
  obtain ⟨passed, handled⟩ := (sys.recorded actions i).2 m _ seen
  have checked : p.verify (sys.node i).authorities = .ok () :=
    ((ConsensusState.verifyProposal_ok _ p).mp passed).2
  rw [sys.shared] at checked
  exact carried_certified widths ideal checked members (sys.handled_backed lawful honest handled)

theorem linked_certified {parent : Proposal B} (link : p.qc.proposalHash = parent.digest) :
    parent.view = p.qc.view ∧
      (sys.votes widths ideal actions).Certified parent.digest parent.view.toNat := by
  rcases verified_certified widths ideal lawful honest seen members with default | certified
  · exact absurd (link.symm.trans (p.qc.eq_default.mp default).1) (ideal.ne_default _)
  · obtain ⟨_, y, _, _, key, view⟩ := certified.voter
    have same : parent.view = p.qc.view := UInt64.toNat_inj.mp
      (((sys.votes widths ideal actions).key_view y parent (key.trans link)).symm.trans view)
    rw [link, ← same] at certified
    exact ⟨same, certified⟩

end Certified

section Safe

variable {sys} (widths : FixedWidth B) (ideal : CollisionFree B)
  {actions : List (B.AuthorityId × Action B)} (lawful : sys.Lawful actions)
  (accepts : sys.AcceptsOnly actions)
include lawful accepts

theorem voted_anchored {i : B.AuthorityId} (honest : sys.committee.Honest i) {p : Proposal B}
    (voted : sys.Voted actions i p) : (sys.votes widths ideal actions).Anchored p := by
  have rooted := voted_rooted widths ideal lawful accepts.membersOnly i honest p voted
  obtain ⟨m, v, entry⟩ := voted
  obtain ⟨_, m', before, _⟩ := (sys.recorded actions i).2 m _ entry
  have members := (verified_acceptable accepts honest.2 before.first).members
  rcases verified_certified widths ideal lawful honest.2 before.first members with
    default | certified
  · obtain ⟨parent, base⟩ := p.qc.eq_default.mp default
    exact .inl ⟨parent, congrArg UInt64.toNat base⟩
  · obtain ⟨_, y, _, _, key, view⟩ := certified.voter
    rcases rooted with root | ⟨signers, quorum, voters⟩
    · exact absurd (key.trans root) (ideal.ne_default _)
    · refine .inr ⟨signers, quorum, fun c hc honest' => ?_⟩
      obtain ⟨z, voted, parent, before⟩ := voters c hc honest'
      refine ⟨z, voted, parent, ?_, fun y new same => UInt64.lt_iff_toNat_lt.mp (before y new same)⟩
      exact ((sys.votes widths ideal actions).key_view z y (parent.trans key.symm)).trans view

omit lawful in
/-- A node that votes for `p` and knows nothing above its certificate has voted on nothing
above it. -/
theorem above_of_highQc {i : B.AuthorityId} (honest : i ∉ sys.faulty) {m m' : Moment B}
    {p : Proposal B} {v : Vote B} (voted : (m, .voted p v) ∈ (sys.run actions i).worker.trace)
    (adopts : Adopts m' p m) (safe : m'.highQc.view ≤ p.qc.view) :
    (sys.votes widths ideal actions).Above i p := by
  rintro y ⟨n, u, entry⟩ earlier
  obtain ⟨history, entries⟩ := sys.recorded actions i
  obtain ⟨lawful, n', before, adopts'⟩ := entries n _ entry
  have earlier : y.view < p.view := UInt64.lt_iff_toNat_lt.mpr earlier
  have base := adopts'.base_le (verified_acceptable accepts honest before.first)
  rcases history.total entry voted with same | order | order
  · cases same
    exact absurd earlier (UInt64.lt_irrefl _)
  · have high := UInt64.le_trans order.2.1 (adopts.highQc_le safe)
    exact UInt64.le_iff_toNat_le.mp (UInt64.le_trans base high)
  · have later := order.2.2 y u rfl
    rw [adopts.lastVotedView, lawful.view] at later
    exact absurd (UInt64.lt_trans later earlier) (UInt64.lt_irrefl _)

omit lawful in
/-- A node whose timeout of the view before `p` knows nothing above the certificate of `p` has
voted on nothing above it: all its earlier votes came before that timeout. -/
theorem above_of_timeout {i : B.AuthorityId} (honest : i ∉ sys.faulty) {p : Proposal B}
    {view high : ViewNumber} (next : view + 1 = p.view) (known : high ≤ p.qc.view)
    (signed : (sys.run actions i).Signed (B.hashOf (timeoutData view high))) :
    (sys.votes widths ideal actions).Above i p := by
  obtain ⟨m, t, entry, rfl, rfl⟩ := sys.signed_timeout widths ideal signed
  rintro y ⟨n, u, voted⟩ earlier
  obtain ⟨history, entries⟩ := sys.recorded actions i
  obtain ⟨lawful, n', before, adopts⟩ := entries n _ voted
  obtain ⟨current, highQc, raised⟩ := entries m _ entry
  have earlier : y.view < p.view := UInt64.lt_iff_toNat_lt.mpr earlier
  have base := adopts.base_le (verified_acceptable accepts honest before.first)
  rcases history.total voted entry with same | order | order
  · cases same
  · have high := UInt64.le_trans order.2.1 (highQc ▸ known)
    exact UInt64.le_iff_toNat_le.mp (UInt64.le_trans base high)
  · have later := order.2.2 y u rfl
    rw [lawful.view] at later
    have below : y.view ≤ t.view := by grind
    have above := UInt64.lt_of_le_of_lt (current ▸ raised) later
    exact absurd (UInt64.lt_of_lt_of_le above below) (UInt64.lt_irrefl _)

theorem voted_rule {i : B.AuthorityId} (honest : sys.committee.Honest i) {p : Proposal B}
    (voted : sys.Voted actions i p) : (sys.votes widths ideal actions).Above i p ∨
      ∃ signers, sys.committee.Quorum signers ∧
        ∀ c ∈ signers, sys.committee.Honest c → (sys.votes widths ideal actions).Above c p := by
  obtain ⟨m, v, entry⟩ := voted
  obtain ⟨_, entries⟩ := sys.recorded actions i
  obtain ⟨_, m', before, adopts⟩ := entries m _ entry
  obtain ⟨_, handled⟩ := entries m' _ before.first
  have acceptable := verified_acceptable accepts honest.2 before.first
  rcases acceptable.safe ⟨adopts.view, adopts.fresh⟩ with safe | ⟨tc, carried, excuses, members⟩
  · exact .inl (above_of_highQc widths ideal accepts honest.2 entry adopts safe)
  · obtain ⟨verified, next, known⟩ := excuses
    obtain ⟨distinct, many, valid⟩ := (tc.verify_ok _).mp verified
    refine .inr ⟨(tc.votes.map Prod.fst).toFinset, ?_, fun c hc honest' => ?_⟩
    · refine sys.quorum_of_ids distinct (by rwa [List.length_map]) ?_
      exact List.forall_mem_map.mpr members
    · obtain ⟨x, hx, rfl⟩ := List.mem_map.mp (List.mem_toFinset.mp hc)
      have brought : x.2.1 ∈ (Call.proposal p).signatures := by
        simp only [Call.signatures, List.mem_append, List.mem_flatMap, List.mem_map]
        exact .inr ⟨tc, Option.mem_toList.mpr carried, x, hx, rfl⟩
      have signed := sys.handled_backed lawful honest.2 handled _ brought x.1 _ honest' (valid x hx)
      exact above_of_timeout widths ideal accepts honest'.2 next (known x hx) signed

theorem votes_safe : (sys.votes widths ideal actions).Safe where
  anchored _ _ honest voted := voted_anchored widths ideal lawful accepts honest voted
  rule _ _ honest voted := voted_rule widths ideal lawful accepts honest voted

/-- The commit condition of the code is a commit of the committee. -/
theorem canFinalize_commits
    (codec : ∀ i ∉ sys.faulty, ∀ p,
      (sys.node i).synchronizer.decode ((sys.node i).synchronizer.encode p) = .ok p)
    (fresh : ∀ i ∉ sys.faulty, ∀ key, (sys.node i).synchronizer.store.aux key = none)
    {i : B.AuthorityId} (honest : i ∉ sys.faulty) {m : Moment B} {q p g : Proposal B}
    (reached : (m, .canFinalize q p g) ∈ (sys.run actions i).worker.trace) :
    (sys.votes widths ideal actions).Commits g p := by
  have chained : Chained (sys.run actions i).worker.trace (.canFinalize q p g) := by
    rw [sys.run_node] at reached ⊢
    exact ((canFinalize_chained _ (codec i honest) (fresh i honest)).run _).2.2 m _ reached
  obtain ⟨grandpaLink, parentLink, consecutive, ⟨_, parent⟩, _, seen⟩ := chained
  have first := (linked_certified widths ideal lawful honest parent
    (verified_acceptable accepts honest parent).members grandpaLink).2
  have second := (linked_certified widths ideal lawful honest seen
    (verified_acceptable accepts honest seen).members parentLink).2
  refine ⟨first, second, grandpaLink, ?_⟩
  -- The view of a certified proposal is not 0, so the addition has not wrapped.
  obtain ⟨k, y, authority, voted, _, view⟩ := second.voter
  have positive := (sys.votes widths ideal actions).positive k y authority voted
  have bound := g.view.toNat_lt
  rw [view, consecutive, UInt64.toNat_add] at positive
  change p.view.toNat = g.view.toNat + 1
  rw [consecutive, UInt64.toNat_add]
  change 0 < (g.view.toNat + 1) % 2 ^ 64 at positive
  change (g.view.toNat + 1) % 2 ^ 64 = g.view.toNat + 1
  omega

end Safe

end System

/-- Agreement. In every run that unforgeable signatures leave and in which honest nodes accept
nothing but acceptable proposals, whatever honest nodes find committed lies on one chain. -/
theorem commits_agree (sys : System B) (widths : FixedWidth B) (ideal : CollisionFree B)
    (codec : ∀ i ∉ sys.faulty, ∀ p,
      (sys.node i).synchronizer.decode ((sys.node i).synchronizer.encode p) = .ok p)
    (fresh : ∀ i ∉ sys.faulty, ∀ key, (sys.node i).synchronizer.store.aux key = none)
    (actions : List (B.AuthorityId × Action B)) (lawful : sys.Lawful actions)
    (accepts : sys.AcceptsOnly actions) (i j : B.AuthorityId) (hi : i ∉ sys.faulty)
    (hj : j ∉ sys.faulty) (m m' : Moment B) (q p g q' p' g' : Proposal B)
    (one : (m, .canFinalize q p g) ∈ (sys.run actions i).worker.trace)
    (other : (m', .canFinalize q' p' g') ∈ (sys.run actions j).worker.trace) :
    Extends g g' ∨ Extends g' g := by
  have safe := System.votes_safe widths ideal lawful accepts
  have first := System.canFinalize_commits widths ideal lawful accepts codec fresh hi one
  have second := System.canFinalize_commits widths ideal lawful accepts codec fresh hj other
  exact Consensus.Votes.agreement safe first second

namespace Symbolic

def empty : Payload symbolic := ⟨symbolic.emptyPayloadHash, 1⟩

def second : Proposal symbolic :=
  signProposal ⟨certificate [2, 0, 3] round.1.digest 1, none, empty, 2, 2, none⟩

def third : Proposal symbolic :=
  signProposal ⟨certificate [3, 0, 2] second.digest 2, none, empty, 3, 3, none⟩

def fourth : Proposal symbolic :=
  signProposal ⟨certificate [0, 3, 2] third.digest 3, none, ⟨.leaf 8, 2⟩, 4, 0, none⟩

/-- Three more rounds after the first, each led by the next authority. -/
def rounds : List (Nat × Action symbolic) :=
  let vote := fun (p : Proposal symbolic) a =>
    .receive (.vote (signVote ⟨p.digest, p.view, a, none⟩))
  let surroundings := { environment 0 [⟨some (.leaf 8), 2⟩] with
    client := { client with finalizedNumber := 1 } }
  round.2 ++ [(2, .resume), (0, .receive (.propose second)), (3, .receive (.propose second)),
    (3, .resume), (3, vote second 0), (3, vote second 2), (3, .resume),
    (0, .receive (.propose third)), (2, .receive (.propose third)), (0, .resume),
    (0, vote third 3), (0, .environment surroundings), (0, vote third 2), (0, .resume)]

end Symbolic

theorem commits_agree_rounds :
    let sys := Symbolic.system 3 {1} (by decide)
    let trace := fun i => (sys.run Symbolic.rounds i).worker.trace
    sys.Lawful Symbolic.rounds ∧ sys.AcceptsOnly Symbolic.rounds ∧
      (∃ x ∈ trace 3, x.2 = .canFinalize Symbolic.third Symbolic.second Symbolic.round.1) ∧
      (∃ x ∈ trace 0, x.2 = .canFinalize Symbolic.fourth Symbolic.third Symbolic.second) ∧
      (Extends Symbolic.round.1 Symbolic.second ∨ Extends Symbolic.second Symbolic.round.1) := by
  intro sys trace
  have lawful : sys.Lawful Symbolic.rounds := Symbolic.lawful (by decide +kernel)
  have accepts : sys.AcceptsOnly Symbolic.rounds := by decide +kernel
  have one : ∃ x ∈ trace 3, x.2 = .canFinalize Symbolic.third Symbolic.second
    Symbolic.round.1 := by decide +kernel
  have other : ∃ x ∈ trace 0, x.2 = .canFinalize Symbolic.fourth Symbolic.third
    Symbolic.second := by decide +kernel
  refine ⟨lawful, accepts, one, other, ?_⟩
  obtain ⟨⟨m, _⟩, entry, rfl⟩ := one
  obtain ⟨⟨m', _⟩, entry', rfl⟩ := other
  exact commits_agree sys symbolic_fixedWidth symbolic_collisionFree
    (fun _ _ => Symbolic.decode_encode) (fun _ _ _ => rfl) _ lawful accepts 3 0 (by decide)
    (by decide) _ _ _ _ _ _ _ _ entry entry'

theorem not_extends_of_root (widths : FixedWidth B) (ideal : CollisionFree B) {p q : Proposal B}
    (root : p.qc.proposalHash = B.defaultHash) (other : p.digest ≠ q.digest) : ¬ Extends p q := by
  intro chain
  rcases chain.cases_head with same | ⟨_, ⟨x, digest, rfl⟩, rest⟩
  · exact other same
  · rw [(Proposal.digest_injective widths ideal.injective digest).2.2.2, root] at rest
    rcases rest.cases_head with same | ⟨_, ⟨y, digest, _⟩, _⟩
    · exact ideal.ne_default _ same.symm
    · exact ideal.ne_default _ digest

/- Two of seven authorities are faulty, and lead views 3 and 4. Certificates signed by keys
of no authority let them commit a proposal at node 0, and then one on another branch. -/
theorem commits_fork :
    let forged := fun (p : Proposal symbolic) =>
      Symbolic.certificate [10, 11, 12, 13, 14] p.digest p.view
    let g := fun a => Symbolic.signProposal ⟨QC.default, none, ⟨.leaf a, 1⟩, 3, 3, none⟩
    let p := fun a => Symbolic.signProposal ⟨forged (g a), none, ⟨.leaf a, 1⟩, 4, 4, none⟩
    let q := fun a => Symbolic.signProposal ⟨forged (p a), none, ⟨.leaf a, 1⟩, 10, 3, none⟩
    let sys := Symbolic.system 6 {3, 4} (by decide)
    let actions := [g 7, p 7, q 7, g 8, p 8, q 8].map fun x => (0, .receive (.propose x))
    sys.Lawful actions ∧ 0 ∉ sys.faulty ∧
      (∃ x ∈ (sys.run actions 0).worker.trace, x.2 = .canFinalize (q 7) (p 7) (g 7)) ∧
      (∃ x ∈ (sys.run actions 0).worker.trace, x.2 = .canFinalize (q 8) (p 8) (g 8)) ∧
      ¬ (Extends (g 7) (g 8) ∨ Extends (g 8) (g 7)) := by
  refine ⟨Symbolic.lawful (by decide +kernel), by decide, by decide +kernel, by decide +kernel, ?_⟩
  rintro (forward | backward)
  · exact not_extends_of_root symbolic_fixedWidth symbolic_collisionFree rfl (by decide) forward
  · exact not_extends_of_root symbolic_fixedWidth symbolic_collisionFree rfl (by decide) backward

end Hotstuff
