import Hotstuff.Lib.Firsts
import Hotstuff.State
import Hotstuff.Symbolic

/-! What the aggregator counts: over any sequence of calls a maker holds the first signed ballot
of every voter, in the order in which they came. -/
namespace Hotstuff

variable {B : BlockT} {α : Type}

/-! ### One maker -/

/-- A call of `append`: the voter, and the ballot if the message is signed. -/
abbrev Cast (B : BlockT) (α : Type) := B.AuthorityId × Option α

def Maker.collect (authorities : AuthorityList B) (casts : List (Cast B α)) : Maker B α :=
  casts.foldl (fun m c => (m.append c.1 c.2 authorities).1) Maker.new

def signedCasts (casts : List (Cast B α)) : List (B.AuthorityId × α) :=
  casts.filterMap fun c => c.2.map (c.1, ·)

/-- The number of distinct voters among the signed ballots. -/
def voterCount (casts : List (Cast B α)) : Nat :=
  ((signedCasts casts).map Prod.fst).toFinset.card

/-- The voter has cast no signed ballot so far. -/
def Fresh (casts : List (Cast B α)) (voter : B.AuthorityId) : Prop :=
  ∀ c ∈ casts, c.1 = voter → c.2 = none

theorem fresh_iff (casts : List (Cast B α)) (voter : B.AuthorityId) :
    Fresh casts voter ↔ voter ∉ (signedCasts casts).map Prod.fst := by
  simp only [Fresh, signedCasts, List.mem_map, List.mem_filterMap, Option.map_eq_some_iff,
    not_exists, not_and]
  constructor
  · rintro unsigned _ ⟨c, hc, b, own, rfl⟩ rfl
    rw [unsigned c hc rfl] at own
    cases own
  · intro absent c hc same
    cases own : c.2 with
    | none => rfl
    | some b => exact absurd same (absent (c.1, b) ⟨c, hc, b, own, rfl⟩)

theorem signedCasts_snoc (casts : List (Cast B α)) (voter : B.AuthorityId) (ballot : Option α) :
    signedCasts (casts ++ [(voter, ballot)]) =
      signedCasts casts ++ (ballot.map (voter, ·)).toList := by
  cases ballot <;> simp [signedCasts]

theorem Maker.collect_snoc (authorities : AuthorityList B) (casts : List (Cast B α))
    (c : Cast B α) : Maker.collect authorities (casts ++ [c]) =
      ((Maker.collect authorities casts).append c.1 c.2 authorities).1 := by
  simp [Maker.collect]

theorem Maker.collect_votes (authorities : AuthorityList B) (casts : List (Cast B α)) :
    (Maker.collect authorities casts).votes = Firsts.firsts (signedCasts casts) := by
  induction casts using List.reverseRecOn with
  | nil => rfl
  | append_singleton casts c ih =>
    obtain ⟨voter, ballot⟩ := c
    rw [collect_snoc, signedCasts_snoc]
    rcases (Maker.collect authorities casts).append_votes voter ballot authorities with
      ⟨same, known | missing⟩ | ⟨fresh, b, own, grown⟩
    · rw [ih, Firsts.mem_keys] at known
      rw [same, ih]
      cases ballot with
      | none => simp
      | some b => exact (Firsts.snoc_known known).symm
    · rw [same, ih, missing]
      simp
    · rw [ih, Firsts.mem_keys] at fresh
      rw [grown, ih, own]
      exact (Firsts.snoc_new fresh).symm

/-- When a call returns a certificate, and what is in it. -/
theorem Maker.collect_some (authorities : AuthorityList B) (casts : List (Cast B α))
    (voter : B.AuthorityId) (ballot : Option α) (votes : List (B.AuthorityId × α)) :
    ((Maker.collect authorities casts).append voter ballot authorities).2 = .ok (some votes) ↔
      ballot.isSome = true ∧ Fresh casts voter ∧
        authorities.length * 2 / 3 + 1 ≤ voterCount (casts ++ [(voter, ballot)]) ∧
        votes = Firsts.firsts (signedCasts (casts ++ [(voter, ballot)])) := by
  rw [Maker.append_some, collect_votes, Firsts.mem_keys, ← fresh_iff, voterCount, ← Firsts.length,
    signedCasts_snoc]
  cases ballot with
  | none => simp
  | some b =>
    simp only [Option.some.injEq, exists_eq_left', Option.isSome_some, true_and,
      Option.map_some, Option.toList_some]
    constructor
    · rintro ⟨fresh, rfl, many⟩
      rw [Firsts.snoc_new ((fresh_iff casts voter).mp fresh)]
      exact ⟨fresh, many, rfl⟩
    · rintro ⟨fresh, many, rfl⟩
      rw [Firsts.snoc_new ((fresh_iff casts voter).mp fresh)] at many ⊢
      exact ⟨fresh, rfl, many⟩

theorem Maker.collect_map_some {γ : Type} (authorities : AuthorityList B)
    (casts : List (Cast B α)) (voter : B.AuthorityId) (ballot : Option α)
    (make : List (B.AuthorityId × α) → γ) (made : γ) :
    ((Maker.collect authorities casts).append voter ballot authorities).2.map (Option.map make) =
        .ok (some made) ↔
      ballot.isSome = true ∧ Fresh casts voter ∧
        authorities.length * 2 / 3 + 1 ≤ voterCount (casts ++ [(voter, ballot)]) ∧
        made = make (Firsts.firsts (signedCasts (casts ++ [(voter, ballot)]))) := by
  rw [map_ok_some]
  constructor
  · rintro ⟨ballots, returned, rfl⟩
    obtain ⟨signed, fresh, many, rfl⟩ := (collect_some ..).mp returned
    exact ⟨signed, fresh, many, rfl⟩
  · rintro ⟨signed, fresh, many, rfl⟩
    exact ⟨_, (collect_some ..).mpr ⟨signed, fresh, many, rfl⟩, rfl⟩

theorem Maker.collect_unsigned (authorities : AuthorityList B) (casts : List (Cast B α))
    (voter : B.AuthorityId) (fresh : Fresh casts voter) :
    (Maker.collect authorities casts).append voter none authorities =
      (Maker.collect authorities casts, .error .nullSignature) := by
  rw [fresh_iff, ← Firsts.mem_keys, ← collect_votes authorities] at fresh
  rw [Maker.append, dif_neg fresh]

/-! ### Votes -/

def Aggregator.addVotes (authorities : AuthorityList B) (votes : List (Vote B)) : Aggregator B :=
  votes.foldl (fun a v => (a.addVote v authorities).1) Aggregator.new

theorem addVotes_snoc (authorities : AuthorityList B) (votes : List (Vote B)) (v : Vote B) :
    Aggregator.addVotes authorities (votes ++ [v]) =
      ((Aggregator.addVotes authorities votes).addVote v authorities).1 := by
  simp [Aggregator.addVotes]

def Vote.cast (v : Vote B) : Cast B B.AuthoritySignature := (v.voter, v.signature)

/-- The votes for one view and proposal, as calls of the maker for it. -/
def votesFor (view : ViewNumber) (proposalHash : B.Hash) (votes : List (Vote B)) :
    List (Cast B B.AuthoritySignature) :=
  (votes.filter fun v => v.view = view ∧ v.proposalHash = proposalHash).map Vote.cast

theorem votesFor_snoc (view : ViewNumber) (proposalHash : B.Hash) (votes : List (Vote B))
    (v : Vote B) : votesFor view proposalHash (votes ++ [v]) = votesFor view proposalHash votes ++
      if v.view = view ∧ v.proposalHash = proposalHash then [v.cast] else [] := by
  unfold votesFor
  split
  · rename_i here
    simp [here]
  · rename_i elsewhere
    simp [elsewhere]

section Votes

variable (widths : FixedWidth B) (injective : Function.Injective B.hashOf)
  (authorities : AuthorityList B)
include widths injective

/-- The maker found by the digest of a pair has been given the votes for that pair. -/
theorem addVotes_maker (votes : List (Vote B)) (view : ViewNumber) (proposalHash : B.Hash) :
    (Aggregator.addVotes authorities votes).votesAggregator view
        (B.hashOf (voteData proposalHash view)) =
      Maker.collect authorities (votesFor view proposalHash votes) := by
  induction votes using List.reverseRecOn with
  | nil => rfl
  | append_singleton votes v ih =>
    rw [addVotes_snoc, votesFor_snoc]
    simp only [Aggregator.addVote]
    by_cases here : v.view = view ∧ v.proposalHash = proposalHash
    · obtain ⟨rfl, rfl⟩ := here
      have digest : B.hashOf (voteData v.proposalHash v.view) = v.digest := rfl
      rw [digest] at ih ⊢
      rw [Function.update_self, Function.update_self, if_pos ⟨rfl, rfl⟩, Maker.collect_snoc, ← ih]
      rfl
    · rw [if_neg here, List.append_nil, ← ih]
      by_cases sameView : view = v.view
      · subst sameView
        have other : B.hashOf (voteData proposalHash v.view) ≠ v.digest := by
          intro same
          exact here ⟨rfl, (voteData_injective widths (injective same)).1.symm⟩
        rw [Function.update_self, Function.update_of_ne other]
      · rw [Function.update_of_ne sameView]

theorem addVote_result (votes : List (Vote B)) (v : Vote B) :
    ((Aggregator.addVotes authorities votes).addVote v authorities).2 =
      (QCMaker.append (Maker.collect authorities (votesFor v.view v.proposalHash votes)) v
        authorities).2 := by
  rw [← addVotes_maker widths injective]
  rfl

theorem addVote_some_iff (votes : List (Vote B)) (v : Vote B) (qc : QC B) :
    ((Aggregator.addVotes authorities votes).addVote v authorities).2 = .ok (some qc) ↔
      v.signature.isSome = true ∧ Fresh (votesFor v.view v.proposalHash votes) v.voter ∧
        authorities.length * 2 / 3 + 1 ≤
          voterCount (votesFor v.view v.proposalHash (votes ++ [v])) ∧
        qc = ⟨v.proposalHash, v.view,
          Firsts.firsts (signedCasts (votesFor v.view v.proposalHash (votes ++ [v])))⟩ := by
  rw [addVote_result widths injective, votesFor_snoc, if_pos ⟨rfl, rfl⟩]
  exact Maker.collect_map_some authorities _ v.voter v.signature _ qc

/-- The signatures of a certificate are those of votes for its pair. -/
theorem addVote_verifies (votes : List (Vote B)) (v : Vote B) (qc : QC B)
    (returned : ((Aggregator.addVotes authorities votes).addVote v authorities).2 = .ok (some qc))
    (verified : ∀ u ∈ votes ++ [v], u.verify authorities = .ok ()) :
    qc.verify authorities = .ok () := by
  obtain ⟨_, _, many, rfl⟩ := (addVote_some_iff widths injective authorities votes v qc).mp returned
  refine (QC.verify_ok _ authorities).mpr ⟨Firsts.nodup_keys _, ?_, ?_⟩
  · rw [voterCount, ← Firsts.length] at many
    exact many
  · intro x hx
    have kept := Firsts.mem_of_mem hx
    obtain ⟨c, hc, own⟩ := List.mem_filterMap.mp kept
    obtain ⟨u, hu, rfl⟩ := List.mem_map.mp hc
    obtain ⟨s, signature, rfl⟩ := Option.map_eq_some_iff.mp own
    simp only [List.mem_filter, decide_eq_true_eq] at hu
    obtain ⟨_, s', own', valid⟩ := (u.verify_ok authorities).mp (verified u hu.1)
    cases signature.symm.trans own'
    rw [Vote.digest, hu.2.1, hu.2.2] at valid
    exact valid

theorem addVote_unsigned (votes : List (Vote B)) (v : Vote B) (unsigned : v.signature = none)
    (fresh : Fresh (votesFor v.view v.proposalHash votes) v.voter) :
    (Aggregator.addVotes authorities votes).addVote v authorities =
      (Aggregator.addVotes authorities votes, .error .nullSignature) := by
  have maker : (Aggregator.addVotes authorities votes).votesAggregator v.view v.digest =
      Maker.collect authorities (votesFor v.view v.proposalHash votes) :=
    addVotes_maker widths injective authorities votes v.view v.proposalHash
  have kept := Maker.collect_unsigned authorities _ v.voter fresh
  rw [← maker] at kept
  have appended : QCMaker.append ((Aggregator.addVotes authorities votes).votesAggregator v.view
      v.digest) v authorities = ((Aggregator.addVotes authorities votes).votesAggregator v.view
        v.digest, .error .nullSignature) := by
    simp only [QCMaker.append, unsigned, kept]
    rfl
  simp only [Aggregator.addVote, appended, Function.update_eq_self]

/-- Votes for other pairs make no difference. -/
theorem addVote_own_pair (votes : List (Vote B)) (v : Vote B) :
    ((Aggregator.addVotes authorities votes).addVote v authorities).2 =
      ((Aggregator.addVotes authorities (votes.filter fun u =>
        u.view = v.view ∧ u.proposalHash = v.proposalHash)).addVote v authorities).2 := by
  rw [addVote_result widths injective, addVote_result widths injective, votesFor, votesFor,
    List.filter_filter]
  simp

end Votes

/-! ### Timeouts -/

def Aggregator.addTimeouts (authorities : AuthorityList B) (timeouts : List (Timeout B)) :
    Aggregator B :=
  timeouts.foldl (fun a t => (a.addTimeout t authorities).1) Aggregator.new

theorem addTimeouts_snoc (authorities : AuthorityList B) (timeouts : List (Timeout B))
    (t : Timeout B) : Aggregator.addTimeouts authorities (timeouts ++ [t]) =
      ((Aggregator.addTimeouts authorities timeouts).addTimeout t authorities).1 := by
  simp [Aggregator.addTimeouts]

def Timeout.cast (t : Timeout B) : Cast B (B.AuthoritySignature × ViewNumber) :=
  (t.voter, t.signature.map fun s => (s, t.view))

def timeoutsFor (view : ViewNumber) (timeouts : List (Timeout B)) :
    List (Cast B (B.AuthoritySignature × ViewNumber)) :=
  (timeouts.filter fun t => t.view = view).map Timeout.cast

theorem signedCasts_timeoutsFor (view : ViewNumber) (timeouts : List (Timeout B)) :
    signedCasts (timeoutsFor view timeouts) = timeouts.filterMap fun t =>
      if t.view = view then t.signature.map fun s => (t.voter, s, t.view) else none := by
  simp [signedCasts, timeoutsFor, List.filterMap_map, List.filterMap_filter, Timeout.cast,
    Function.comp_def]

theorem addTimeouts_maker (authorities : AuthorityList B) (timeouts : List (Timeout B))
    (view : ViewNumber) :
    (Aggregator.addTimeouts authorities timeouts).timeoutsAggregators view =
      Maker.collect authorities (timeoutsFor view timeouts) := by
  induction timeouts using List.reverseRecOn with
  | nil => rfl
  | append_singleton timeouts t ih =>
    rw [addTimeouts_snoc]
    simp only [Aggregator.addTimeout, timeoutsFor, List.filter_append, List.map_append]
    by_cases here : t.view = view
    · subst here
      rw [Function.update_self, ih]
      simp [timeoutsFor, Maker.collect_snoc, TCMaker.append, Timeout.cast]
    · rw [Function.update_of_ne (Ne.symm here), ih]
      simp [here, timeoutsFor]

theorem addTimeout_some_iff (authorities : AuthorityList B) (timeouts : List (Timeout B))
    (t : Timeout B) (tc : TC B) :
    ((Aggregator.addTimeouts authorities timeouts).addTimeout t authorities).2 = .ok (some tc) ↔
      t.signature.isSome = true ∧ Fresh (timeoutsFor t.view timeouts) t.voter ∧
        authorities.length * 2 / 3 + 1 ≤ voterCount (timeoutsFor t.view (timeouts ++ [t])) ∧
        tc = ⟨t.view, Firsts.firsts (signedCasts (timeoutsFor t.view (timeouts ++ [t])))⟩ := by
  have calls : timeoutsFor t.view (timeouts ++ [t]) = timeoutsFor t.view timeouts ++ [t.cast] := by
    simp [timeoutsFor]
  have signed : (t.signature.map fun s => (s, t.view)).isSome = t.signature.isSome :=
    Option.isSome_map ..
  rw [Aggregator.addTimeout, addTimeouts_maker, calls, ← signed]
  exact Maker.collect_map_some authorities _ t.voter _ _ tc

/-- The aggregator counts exactly, over every sequence of calls. -/
theorem aggregator_counts_exactly (widths : FixedWidth B)
    (injective : Function.Injective B.hashOf) (authorities : AuthorityList B) :
    (∀ (votes : List (Vote B)) (v : Vote B),
      let a := Aggregator.addVotes authorities votes
      let casts := votesFor v.view v.proposalHash
      (∀ qc, (a.addVote v authorities).2 = .ok (some qc) ↔
        v.signature.isSome = true ∧ Fresh (casts votes) v.voter ∧
          authorities.length * 2 / 3 + 1 ≤ voterCount (casts (votes ++ [v])) ∧
          qc = ⟨v.proposalHash, v.view, Firsts.firsts (signedCasts (casts (votes ++ [v])))⟩) ∧
      (∀ qc, (a.addVote v authorities).2 = .ok (some qc) →
        (∀ u ∈ votes ++ [v], u.verify authorities = .ok ()) → qc.verify authorities = .ok ()) ∧
      (v.signature = none → Fresh (casts votes) v.voter →
        a.addVote v authorities = (a, .error .nullSignature)) ∧
      (a.addVote v authorities).2 = ((Aggregator.addVotes authorities (votes.filter fun u =>
        u.view = v.view ∧ u.proposalHash = v.proposalHash)).addVote v authorities).2) ∧
    ∀ (timeouts : List (Timeout B)) (t : Timeout B) (tc : TC B),
      let casts := timeoutsFor t.view
      ((Aggregator.addTimeouts authorities timeouts).addTimeout t authorities).2 = .ok (some tc) ↔
        t.signature.isSome = true ∧ Fresh (casts timeouts) t.voter ∧
          authorities.length * 2 / 3 + 1 ≤ voterCount (casts (timeouts ++ [t])) ∧
          tc = ⟨t.view, Firsts.firsts (signedCasts (casts (timeouts ++ [t])))⟩ := by
  refine ⟨fun votes v => ⟨?_, ?_, ?_, ?_⟩, fun timeouts t tc =>
    addTimeout_some_iff authorities timeouts t tc⟩
  · exact addVote_some_iff widths injective authorities votes v
  · exact addVote_verifies widths injective authorities votes v
  · exact addVote_unsigned widths injective authorities votes v
  · exact addVote_own_pair widths injective authorities votes v

/- Three votes of four authorities for one proposal, with one for another and a repeated one in
between. -/
theorem aggregator_counts_exactly_three :
    let vote := fun hash a => Symbolic.signVote ⟨.leaf hash, 1, a, none⟩
    let votes := [vote 5 2, vote 6 0, vote 5 2, vote 5 0]
    let qc := Symbolic.certificate [2, 0, 3] (.leaf 5) 1
    ((Aggregator.addVotes (Symbolic.authorities 4) votes).addVote (vote 5 3)
      (Symbolic.authorities 4)).2 = .ok (some qc) ∧
    qc.verify (Symbolic.authorities 4) = .ok () := by
  intro vote votes qc
  obtain ⟨counts, verifies, _⟩ := (aggregator_counts_exactly symbolic_fixedWidth
    symbolic_collisionFree.injective (Symbolic.authorities 4)).1 votes (vote 5 3)
  have returned := (counts qc).mpr ⟨rfl, by unfold Fresh; decide +kernel, by decide +kernel,
    by decide +kernel⟩
  exact ⟨returned, verifies qc returned (by decide +kernel)⟩

end Hotstuff
