import Hotstuff.Counting

/-! Certificates made by `add_timeout` against the check of `TC::verify`. -/
namespace Hotstuff

variable {B : BlockT}

/-- The first timeout of its voter for its view in a sequence: the one a maker counts. -/
def Counted (timeouts : List (Timeout B)) (t : Timeout B) : Prop :=
  ∃ before after, timeouts = before ++ t :: after ∧
    ∀ u ∈ before, u.view = t.view → u.voter ≠ t.voter

def Timeout.Ballot (t : Timeout B) (x : B.AuthorityId × B.AuthoritySignature × ViewNumber) : Prop :=
  x.1 = t.voter ∧ t.signature = some x.2.1 ∧ x.2.2 = t.view

structure Counts (timeouts : List (Timeout B)) (a : Aggregator B) : Prop where
  ballots : ∀ view x, x ∈ (a.timeoutsAggregators view).votes ↔
    ∃ t, Counted timeouts t ∧ t.view = view ∧ t.Ballot x
  voters : ∀ view id, id ∈ (a.timeoutsAggregators view).votes.map Prod.fst ↔
    ∃ t ∈ timeouts, t.view = view ∧ t.voter = id

theorem Timeout.ballot_iff (t : Timeout B) (view : ViewNumber)
    (x : B.AuthorityId × B.AuthoritySignature × ViewNumber) :
    (if t.view = view then t.signature.map fun s => (t.voter, s, t.view) else none) = some x ↔
      t.view = view ∧ t.Ballot x := by
  rw [Option.ite_none_right_eq_some, Option.map_eq_some_iff]
  refine and_congr_right fun _ => ⟨?_, ?_⟩
  · rintro ⟨s, own, rfl⟩
    exact ⟨rfl, own, rfl⟩
  · rintro ⟨voter, own, third⟩
    exact ⟨x.2.1, own, Prod.ext voter.symm (Prod.ext rfl third.symm)⟩

theorem counts_addTimeouts (authorities : AuthorityList B) (timeouts : List (Timeout B))
    (signed : ∀ t ∈ timeouts, ∃ s, t.signature = some s) :
    Counts timeouts (Aggregator.addTimeouts authorities timeouts) := by
  have ballot : ∀ t ∈ timeouts, ∃ x, t.Ballot x := by
    intro t ht
    obtain ⟨s, own⟩ := signed t ht
    exact ⟨(t.voter, s, t.view), rfl, own, rfl⟩
  refine ⟨fun view x => ?_, fun view id => ?_⟩
  · rw [addTimeouts_maker, Maker.collect_votes, signedCasts_timeoutsFor, Firsts.mem_filterMap]
    simp only [Timeout.ballot_iff]
    constructor
    · rintro ⟨before, t, after, split, ⟨here, own⟩, first⟩
      refine ⟨t, ⟨before, after, split, fun u hu same voter => ?_⟩, here, own⟩
      obtain ⟨y, cast⟩ := ballot u (by simp [split, hu])
      exact first u hu y ⟨same.trans here, cast⟩ (cast.1.trans (voter.trans own.1.symm))
    · rintro ⟨t, ⟨before, after, split, first⟩, here, own⟩
      refine ⟨before, t, after, split, ⟨here, own⟩, fun u hu y cast voter => ?_⟩
      exact first u hu (cast.1.trans here.symm) (cast.2.1.symm.trans (voter.trans own.1))
  · rw [addTimeouts_maker, Maker.collect_votes, signedCasts_timeoutsFor, Firsts.mem_keys]
    simp only [List.mem_map, List.mem_filterMap, Timeout.ballot_iff]
    constructor
    · rintro ⟨x, ⟨t, ht, here, own⟩, rfl⟩
      exact ⟨t, ht, here, own.1.symm⟩
    · rintro ⟨t, ht, here, rfl⟩
      obtain ⟨x, own⟩ := ballot t ht
      exact ⟨x, ⟨t, ht, here, own⟩, own.1⟩

/-- When the signature of a verified timeout is valid for what `TC::verify` hashes. -/
theorem ballot_valid_iff (widths : FixedWidth B) (ideal : CollisionFree B)
    (bind : SignaturesBind B) {authorities : AuthorityList B} {t : Timeout B}
    (verified : t.verify authorities = .ok ())
    {x : B.AuthorityId × B.AuthoritySignature × ViewNumber} (ballot : t.Ballot x) :
    B.verify x.2.1 (B.hashOf (timeoutData t.view x.2.2)) x.1 = true ↔
      t.highQc.view = t.view := by
  obtain ⟨voter, signature, third⟩ := ballot
  obtain ⟨⟨_, s, own, valid⟩, _⟩ := (t.verify_ok authorities).mp verified
  rw [signature] at own
  cases own
  rw [voter, third]
  constructor
  · intro again
    have same := ideal.injective (bind _ _ _ _ valid again)
    exact (timeoutData_injective widths same).2
  · intro equal
    rw [Timeout.digest, equal] at valid
    exact valid

/-- The third component of a ballot is the view where the signature has that of `high_qc`;
so a certificate that `add_timeout` makes of verified timeouts is accepted, by `TC::verify`
and by every node that has not passed its view, exactly if the two agree in all of them. -/
theorem formed_tc_verifies_iff (widths : FixedWidth B) (ideal : CollisionFree B)
    (bind : SignaturesBind B) (authorities : AuthorityList B) (timeouts : List (Timeout B))
    (t : Timeout B) (verified : ∀ u ∈ timeouts ++ [t], u.verify authorities = .ok ()) (tc : TC B)
    (formed : ((Aggregator.addTimeouts authorities timeouts).addTimeout t authorities).2 =
      .ok (some tc)) :
    (tc.verify authorities = .ok () ↔
      ∀ u, Counted (timeouts ++ [t]) u → u.view = t.view → u.highQc.view = u.view) ∧
    ∀ s : ConsensusState B, s.authorities = authorities → s.view ≤ tc.view →
      (s.verifyTc tc = .ok () ↔
        ∀ u, Counted (timeouts ++ [t]) u → u.view = t.view → u.highQc.view = u.view) := by
  obtain ⟨view, votes, quorum⟩ := Aggregator.addTimeout_some formed
  rw [← addTimeouts_snoc] at votes
  have signed : ∀ u ∈ timeouts ++ [t], ∃ s, u.signature = some s := by
    intro u hu
    obtain ⟨⟨_, s, own, _⟩, _⟩ := (u.verify_ok authorities).mp (verified u hu)
    exact ⟨s, own⟩
  have counts := counts_addTimeouts authorities (timeouts ++ [t]) signed
  have member : ∀ u, Counted (timeouts ++ [t]) u → u ∈ timeouts ++ [t] := by
    rintro u ⟨before, after, split, _⟩
    rw [split]
    simp
  have accepts : tc.verify authorities = .ok () ↔
      ∀ u, Counted (timeouts ++ [t]) u → u.view = t.view → u.highQc.view = u.view := by
    rw [TC.verify_ok, votes, view]
    constructor
    · rintro ⟨_, _, valid⟩ u counted here
      obtain ⟨s, own⟩ := signed u (member u counted)
      have ballot : u.Ballot (u.voter, s, u.view) := ⟨rfl, own, rfl⟩
      have passed := valid _ ((counts.ballots t.view _).mpr ⟨u, counted, here, ballot⟩)
      rw [← here] at passed
      exact (ballot_valid_iff widths ideal bind (verified u (member u counted)) ballot).mp passed
    · intro agree
      refine ⟨Maker.distinct _, votes ▸ quorum, fun x hx => ?_⟩
      obtain ⟨u, counted, here, ballot⟩ := (counts.ballots t.view x).mp hx
      rw [← here]
      exact (ballot_valid_iff widths ideal bind (verified u (member u counted)) ballot).mpr
        (agree u counted here)
  refine ⟨accepts, ?_⟩
  rintro s rfl reached
  rw [ConsensusState.verifyTc_ok]
  exact ⟨fun h => accepts.mp h.2, fun agree => ⟨reached, accepts.mpr agree⟩⟩

/- Three of four authorities time out in view 1 with a QC of that view; the second timeout of
authority 0, with an older one, is not counted. -/
theorem formed_tc_verifies_iff_duplicate :
    let high := Symbolic.certificate [0, 1, 2] (.leaf 9) 1
    let t := fun a => Symbolic.signTimeout ⟨high, 1, a, none⟩
    let again := Symbolic.signTimeout ⟨QC.default, 1, 0, none⟩
    let timeouts := [t 0, again, t 1]
    let authorities := Symbolic.authorities 4
    let tc := Symbolic.timeoutCertificate [0, 1, 3] 1 1
    (∀ u ∈ timeouts ++ [t 3], u.verify authorities = .ok ()) ∧
    ((Aggregator.addTimeouts authorities timeouts).addTimeout (t 3) authorities).2 =
      .ok (some tc) ∧
    tc.verify authorities = .ok () ∧
    ∀ u, Counted (timeouts ++ [t 3]) u → u.view = 1 → u.highQc.view = u.view := by
  intro high t again timeouts authorities tc
  have verified : ∀ u ∈ timeouts ++ [t 3], u.verify authorities = .ok () := by decide +kernel
  have formed : ((Aggregator.addTimeouts authorities timeouts).addTimeout (t 3) authorities).2 =
      .ok (some tc) := by decide +kernel
  have accepted : tc.verify authorities = .ok () := by decide +kernel
  exact ⟨verified, formed, accepted, (formed_tc_verifies_iff symbolic_fixedWidth
    symbolic_collisionFree symbolic_signaturesBind authorities timeouts (t 3) verified tc
    formed).1.mp accepted⟩

/- A node on its own that times out in view 1 makes a certificate no node accepts. -/
theorem formed_tc_rejected :
    let t := Symbolic.signTimeout ⟨QC.default, 1, 0, none⟩
    let tc : TC symbolic := ⟨1, [(0, (0, t.digest), 1)]⟩
    t.verify (Symbolic.authorities 1) = .ok () ∧
    (Aggregator.new.addTimeout t (Symbolic.authorities 1)).2 = .ok (some tc) ∧
    tc.verify (Symbolic.authorities 1) ≠ .ok () := by
  decide +kernel

end Hotstuff
