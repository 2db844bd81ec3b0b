import Hotstuff.Agreement

/-! The chains of the store: how the views of a proposal, of its certificate and of its parent
compare. Nothing in the source compares them when a proposal is accepted, so a leader can put
any certificate under its own proposal; once a quorum has voted for a proposal, though, its
certificate is older than itself. -/
namespace Hotstuff

variable {B : BlockT}

instance (s : Synchronizer B) (p : Proposal B) : Decidable (s.Holds p) :=
  decidable_of_iff ((s.store.aux p.digest).any fun data => s.decode data = .ok p) (by
    simp only [Synchronizer.Holds, Option.any_eq_true, decide_eq_true_eq])

structure Synchronizer.Links (s : Synchronizer B) (p parent : Proposal B) : Prop where
  stored : s.Holds p
  parentStored : s.Holds parent
  link : p.qc.proposalHash = parent.digest

theorem StoreInv.seen {g : Setup B} {w : ConsensusWorker B} (inv : StoreInv g w)
    (base : Base g w) {p : Proposal B} (held : w.synchronizer.Holds p) :
    ∃ m, (m, .verified p) ∈ w.trace := by
  obtain ⟨data, stored, decoded⟩ := held
  obtain ⟨q, m, again, _, seen⟩ := inv _ data stored
  rw [← base.decode, decoded] at again
  cases again
  exact ⟨m, seen⟩

namespace System

variable {sys : System B} (widths : FixedWidth B) (ideal : CollisionFree B)
  (codec : ∀ i ∉ sys.faulty, ∀ p,
    (sys.node i).synchronizer.decode ((sys.node i).synchronizer.encode p) = .ok p)
  (fresh : ∀ i ∉ sys.faulty, ∀ key, (sys.node i).synchronizer.store.aux key = none)
  {actions : List (B.AuthorityId × Action B)} {i : B.AuthorityId} (honest : i ∉ sys.faulty)
include codec fresh honest

theorem stored_seen {p : Proposal B} (held : (sys.run actions i).worker.synchronizer.Holds p) :
    ∃ m, (m, .verified p) ∈ (sys.run actions i).worker.trace := by
  rw [sys.run_node] at held ⊢
  obtain ⟨base, inv⟩ := (storeInv _ (codec i honest) (fresh i honest)).run (Runs.own i actions)
  exact inv.seen base held

variable (lawful : sys.Lawful actions)
include widths ideal lawful

theorem parent_view {p parent : Proposal B}
    (links : (sys.run actions i).worker.synchronizer.Links p parent)
    (members : ∀ x ∈ p.qc.votes, x.1 ∈ sys.authorities.ids) : parent.view = p.qc.view := by
  obtain ⟨m, seen⟩ := stored_seen codec fresh honest links.stored
  exact (linked_certified widths ideal lawful honest seen (.inr members) links.link).1

variable (members : sys.MembersOnly actions)
include members

theorem stored_linked {p parent : Proposal B}
    (links : (sys.run actions i).worker.synchronizer.Links p parent) :
    parent.view = p.qc.view ∧
      (sys.votes widths ideal actions).Certified parent.digest parent.view.toNat := by
  obtain ⟨m, seen⟩ := stored_seen codec fresh honest links.stored
  have byMembers := verified_along (fun _ p => p.ByMembers sys.authorities) members honest seen
  exact linked_certified widths ideal lawful honest seen byMembers links.link

/-- The quorum that has voted for `p` and the one behind the certificate of `p` share an honest
authority, and that has voted for the parent of `p` in an earlier view. -/
theorem certificate_older {q p : Proposal B}
    (links : (sys.run actions i).worker.synchronizer.Links q p)
    (nondefault : p.qc.eq QC.default = false) : p.qc.view < p.view := by
  have certified := (stored_linked widths ideal codec fresh honest lawful members links).2
  obtain ⟨signers, quorum, voters⟩ := certified
  obtain ⟨m, seen⟩ := stored_seen codec fresh honest links.parentStored
  have byMembers := verified_along (fun _ p => p.ByMembers sys.authorities) members honest seen
  rcases verified_certified widths ideal lawful honest seen byMembers with default | parent
  · rw [nondefault] at default
    cases default
  obtain ⟨_, z, _, _, zKey, zView⟩ := parent.voter
  obtain ⟨k, signer, authority⟩ := quorum.honest
  obtain ⟨y, voted, key, _⟩ := voters k signer authority
  have same := (Proposal.digest_injective widths ideal.injective key).2.2
  rcases voted_rooted widths ideal lawful members k authority y voted with
    root | ⟨signers', quorum', voters'⟩
  · exact absurd (zKey.trans (same.2.symm.trans root)) (ideal.ne_default _)
  obtain ⟨c, first, second, authority'⟩ := quorum.meet quorum'
  obtain ⟨y', voted', key', view'⟩ := voters c first authority'
  obtain ⟨z', _, parentKey, before⟩ := voters' c second authority'
  have earlier := before y' voted' (key'.trans key.symm)
  have zSame := (sys.votes widths ideal actions).key_view z' z
    (parentKey.trans (same.2.trans zKey.symm))
  have zView' : z'.view = p.qc.view := UInt64.toNat_inj.mp (zSame.trans zView)
  have yView' : y'.view = p.view := UInt64.toNat_inj.mp view'
  rwa [zView', yView'] at earlier

theorem parent_below {q p parent : Proposal B}
    (above : (sys.run actions i).worker.synchronizer.Links q p)
    (links : (sys.run actions i).worker.synchronizer.Links p parent) : parent.view < p.view := by
  have nondefault : p.qc.eq QC.default = false := by
    by_contra default
    have root := (p.qc.eq_default.mp (Bool.eq_true_of_not_eq_false default)).1
    exact ideal.ne_default _ (links.link.symm.trans root)
  rw [(stored_linked widths ideal codec fresh honest lawful members links).1]
  exact certificate_older widths ideal codec fresh honest lawful members above nondefault

theorem ancestor_below {p ancestor : Proposal B}
    (chain : Relation.TransGen (sys.run actions i).worker.synchronizer.Links p ancestor) :
    ∀ q, (sys.run actions i).worker.synchronizer.Links q p → ancestor.view < p.view := by
  -- The chain is followed downwards; each of its proposals but the first has a child on it.
  induction chain using Relation.TransGen.head_induction_on with
  | single links =>
    exact fun q above => parent_below widths ideal codec fresh honest lawful members above links
  | head links _ ih =>
    intro q above
    have next := parent_below widths ideal codec fresh honest lawful members above links
    exact UInt64.lt_trans (ih _ links) next

end System

/-- What is proposed on what is certified: in the store of an honest node the view of a parent
is that of the certificate for it, and along every chain the views increase to the last
proposal but one; to the last one as well if its certificate is older than itself. -/
theorem stored_chains_increase (sys : System B) (widths : FixedWidth B) (ideal : CollisionFree B)
    (codec : ∀ i ∉ sys.faulty, ∀ p,
      (sys.node i).synchronizer.decode ((sys.node i).synchronizer.encode p) = .ok p)
    (fresh : ∀ i ∉ sys.faulty, ∀ key, (sys.node i).synchronizer.store.aux key = none)
    (actions : List (B.AuthorityId × Action B)) (lawful : sys.Lawful actions)
    (i : B.AuthorityId) (honest : i ∉ sys.faulty) :
    let store := (sys.run actions i).worker.synchronizer
    (∀ p parent, store.Links p parent → (∀ x ∈ p.qc.votes, x.1 ∈ sys.authorities.ids) →
      parent.view = p.qc.view) ∧
    (sys.MembersOnly actions →
      (∀ q p, store.Links q p → p.qc.eq QC.default = false → p.qc.view < p.view) ∧
      (∀ q p ancestor, store.Links q p → Relation.TransGen store.Links p ancestor →
        ancestor.view < p.view) ∧
      ∀ p ancestor, Relation.TransGen store.Links p ancestor → p.qc.view < p.view →
        ancestor.view < p.view) := by
  refine ⟨fun p parent links signers =>
    System.parent_view widths ideal codec fresh honest lawful links signers, fun members => ?_⟩
  refine ⟨fun q p links nondefault => System.certificate_older widths ideal codec fresh honest
    lawful members links nondefault, ?_, ?_⟩
  · intro q p ancestor above chain
    exact System.ancestor_below widths ideal codec fresh honest lawful members chain q above
  · intro p ancestor chain older
    rcases Relation.TransGen.head'_iff.mp chain with ⟨parent, links, rest⟩
    have view := (System.stored_linked widths ideal codec fresh honest lawful members links).1
    rw [← view] at older
    rcases Relation.reflTransGen_iff_eq_or_transGen.mp rest with rfl | rest
    · exact older
    · exact UInt64.lt_trans (System.ancestor_below widths ideal codec fresh honest lawful members
        rest p links) older

theorem stored_chains_increase_rounds :
    let sys := Symbolic.system 3 {1} (by decide)
    let store := (sys.run Symbolic.rounds 0).worker.synchronizer
    store.Links Symbolic.third Symbolic.second ∧ store.Links Symbolic.second Symbolic.round.1 ∧
      Symbolic.round.1.view < Symbolic.second.view := by
  intro sys store
  have held : ∀ p ∈ [Symbolic.third, Symbolic.second, Symbolic.round.1], store.Holds p := by
    decide +kernel
  have above : store.Links Symbolic.third Symbolic.second :=
    ⟨held _ (by simp), held _ (by simp), by decide +kernel⟩
  have links : store.Links Symbolic.second Symbolic.round.1 :=
    ⟨held _ (by simp), held _ (by simp), by decide +kernel⟩
  have accepts : sys.AcceptsOnly Symbolic.rounds := by decide +kernel
  refine ⟨above, links, ?_⟩
  exact ((stored_chains_increase sys symbolic_fixedWidth symbolic_collisionFree
    (fun _ _ => Symbolic.decode_encode) (fun _ _ _ => rfl) _ (Symbolic.lawful (by decide +kernel))
    0 (by decide)).2 accepts.membersOnly).2.1 _ _ _ above (.single links)

/- After the round of view 1 its faulty leader proposes once more in that view, on the genuine
certificate of the round; node 0 stores it. -/
theorem stored_on_own_view :
    let sys := Symbolic.system 3 {1} (by decide)
    let p := Symbolic.signProposal
      ⟨Symbolic.certificate [2, 0, 3] Symbolic.round.1.digest 1, none, ⟨.leaf 8, 1⟩, 1, 1, none⟩
    let actions := Symbolic.round.2 ++ [(0, .receive (.propose p))]
    sys.Lawful actions ∧ sys.MembersOnly actions ∧ 0 ∉ sys.faulty ∧
      (sys.run actions 0).worker.synchronizer.Holds p ∧ p.qc.eq QC.default = false ∧
      ¬ p.qc.view < p.view := by
  intro sys p actions
  have accepts : sys.AcceptsOnly actions := by decide +kernel
  exact ⟨Symbolic.lawful (by decide +kernel), accepts.membersOnly, by decide, by decide +kernel,
    by decide +kernel, by decide +kernel⟩

end Hotstuff
