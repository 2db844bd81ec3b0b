import Hotstuff.Counting
import Hotstuff.Effects

/-! The aggregator over whole runs: what it holds is what the node was given and has verified,
no quorum among it is missed, and no certificate is told without one. -/
namespace Hotstuff

variable {B : BlockT}

open ConsensusWorker

/-! ### Reading the history -/

/-- What the calls of a history give to be counted; `read` is given the state the call is made
in. -/
def counted {β : Type} (read : Moment B → Call B → Option β) (trace : List (Moment B × Event B)) :
    List β :=
  trace.filterMap fun x => match x.2 with
    | .handled c => read x.1 c
    | _ => none

theorem counted_call {β : Type} (read : Moment B → Call B → Option β)
    (trace : List (Moment B × Event B)) (m : Moment B) (c : Call B) :
    counted read (trace ++ [(m, .handled c)]) = counted read trace ++ (read m c).toList := by
  cases given : read m c <;> simp [counted, given]

/-- Only the marks of calls are read. -/
theorem counted_new {β : Type} (read : Moment B → Call B → Option β)
    {trace new : List (Moment B × Event B)} (bodies : ∀ x ∈ new, ∀ c, x.2 ≠ .handled c) :
    counted read (trace ++ new) = counted read trace := by
  have none : counted read new = [] := by
    refine List.filterMap_eq_nil_iff.mpr fun x hx => ?_
    split
    · rename_i c mark
      exact absurd mark (bodies x hx c)
    · rfl
  rw [counted, List.filterMap_append]
  exact (congrArg (_ ++ ·) none).trans (List.append_nil _)

section Counter

variable {β ρ π : Type} (part : Aggregator B → π) (add : π → β → π) (out : π → β → Option ρ)
  (read : Moment B → Call B → Option β) (told : Event B → Option ρ)

/-- One part of the aggregator, given its ballots by `read`: a call adds the ballot it gives and
tells the certificate that comes of it, and does neither otherwise. -/
structure Counter (authorities : AuthorityList B) : Prop where
  counts : ∀ (w : ConsensusWorker B) c, w.state.authorities = authorities →
    part (w.handle c).1.state.aggregator =
      (read w.state.moment c).elim (part w.state.aggregator) (add (part w.state.aggregator))
  noted : ∀ (w : ConsensusWorker B) c, w.state.authorities = authorities → ∀ m e r,
    Noted w c m e → told e = some r →
      ∃ b, read w.state.moment c = some b ∧ out (part w.state.aggregator) b = some r
  tells : ∀ (w : ConsensusWorker B) c, w.state.authorities = authorities → ∀ b r,
    read w.state.moment c = some b → out (part w.state.aggregator) b = some r →
      ∃ m e, (m, e) ∈ (w.handle c).1.trace ∧ told e = some r
  quiet : ∀ c, told (.handled c) = none

/-- What a part of the aggregator holds, and what has been told of it. -/
structure Accounts (w : ConsensusWorker B) : Prop where
  holds : part w.state.aggregator =
    Runs.run add (part Aggregator.new) (counted read w.trace)
  tells : ∀ r, (∃ x ∈ w.trace, told x.2 = some r) ↔
    Runs.Emits add out (part Aggregator.new) (counted read w.trace) r

variable {part add out read told}

theorem Counter.tells_iff {authorities : AuthorityList B}
    (counter : Counter part add out read told authorities) {w : ConsensusWorker B}
    (same : w.state.authorities = authorities) (c : Call B) (r : ρ) :
    (∃ x ∈ (w.handle c).1.trace, told x.2 = some r) ↔ (∃ x ∈ w.trace, told x.2 = some r) ∨
      ∃ b, read w.state.moment c = some b ∧ out (part w.state.aggregator) b = some r := by
  constructor
  · rintro ⟨⟨m, e⟩, entry, own⟩
    rcases (handle_noted w c).entry entry with old | noted
    · exact .inl ⟨_, old, own⟩
    · exact .inr (counter.noted w c same m e r noted own)
  · rintro (⟨x, old, own⟩ | ⟨b, given, result⟩)
    · exact ⟨x, (handle_trace w c).subset old, own⟩
    · obtain ⟨m, e, entry, own⟩ := counter.tells w c same b r given result
      exact ⟨_, entry, own⟩

theorem Accounts.enter {authorities : AuthorityList B}
    (counter : Counter part add out read told authorities) {w : ConsensusWorker B}
    (accounts : Accounts part add out read told w) (same : w.state.authorities = authorities)
    (c : Call B) : Accounts part add out read told ((w.emit (.handled c)).handle c).1 := by
  have history : counted read ((w.emit (.handled c)).handle c).1.trace =
      counted read w.trace ++ (read w.state.moment c).toList := by
    obtain ⟨new, grown, noted⟩ := handle_noted (w.emit (.handled c)) c
    rw [grown, counted_new]
    · exact counted_call read w.trace _ c
    · rintro ⟨m, e⟩ hx c' rfl
      exact noted m _ hx
  have marked : ∀ r, (∃ x ∈ (w.emit (.handled c)).trace, told x.2 = some r) ↔
      ∃ x ∈ w.trace, told x.2 = some r := by
    intro r
    rw [emit_trace]
    simp [or_and_right, exists_or, counter.quiet]
  constructor
  · rw [history, counter.counts (w.emit (.handled c)) c same]
    change (read w.state.moment c).elim (part w.state.aggregator)
      (add (part w.state.aggregator)) = _
    rw [accounts.holds]
    cases read w.state.moment c <;> simp
  · intro r
    rw [counter.tells_iff (w := w.emit (.handled c)) same, marked, history, accounts.tells]
    change _ ∨ (∃ b, read w.state.moment c = some b ∧ out (part w.state.aggregator) b = some r) ↔ _
    rw [accounts.holds]
    cases read w.state.moment c with
    | none => simp
    | some b => simp [Runs.emits_snoc]

/-- Over a whole run the part holds the ballots of the history, in order. -/
theorem Counter.run {g : Setup B} (counter : Counter part add out read told g.authorities)
    (actions : List (Action B)) : Accounts part add out read told (g.run actions).worker := by
  induction actions using List.reverseRecOn with
  | nil =>
    refine ⟨rfl, fun r => ⟨?_, ?_⟩⟩
    · rintro ⟨x, none, _⟩
      exact absurd none List.not_mem_nil
    · rintro ⟨before, b, none, _⟩
      exact absurd (List.prefix_nil.mp none) (by simp)
  | append_singleton actions a ih =>
    rw [g.run_snoc]
    rcases (g.run actions).step_cases a with ⟨env, seen⟩ | ⟨c, _, entered⟩
    · rw [seen]
      exact ⟨ih.holds, ih.tells⟩
    · rw [entered]
      exact ih.enter counter ((provenance g).run actions).1.authorities c

end Counter

/-! ### The handlers -/

namespace ConsensusWorker

variable (w : ConsensusWorker B)

end ConsensusWorker

/-! ### Votes and timeouts -/

/-- The certificate a call of the aggregator returns. -/
def returned {ρ : Type} : Except (HotstuffError B) (Option ρ) → Option ρ
  | .ok (some r) => some r
  | _ => none

/-- The vote of a call that is verified in the view of the moment. -/
def voteGiven (authorities : AuthorityList B) (m : Moment B) : Call B → Option (Vote B)
  | .vote v => if m.view ≤ v.view ∧ v.verify authorities = .ok () then some v else none
  | _ => none

def timeoutGiven (authorities : AuthorityList B) (m : Moment B) : Call B → Option (Timeout B)
  | .timeout t => if m.view ≤ t.view ∧ t.verify authorities = .ok () then some t else none
  | _ => none

def Event.collectedQc : Event B → Option (QC B)
  | .collected qc => some qc
  | _ => none

namespace Aggregator

variable (authorities : AuthorityList B)

/- The two halves of the aggregator do not see each other. -/

/-- What a call makes of the aggregator. -/
def after (a : Aggregator B) (m : Moment B) : Call B → Aggregator B
  | .vote v => (voteGiven authorities m (.vote v)).elim a fun v => (a.addVote v authorities).1
  | .timeout t =>
    (timeoutGiven authorities m (.timeout t)).elim a fun t => (a.addTimeout t authorities).1
  | .localTimer | .proposal _ | .tc _ => a

end Aggregator

open Aggregator

section Quorums

variable {α : Type} (authorities : AuthorityList B)

/-- The count passes the threshold with the ballot that completes a certificate, or has passed
it before. -/
theorem Maker.reached (casts : List (Cast B α)) (voter : B.AuthorityId) (ballot : Option α) :
    authorities.length * 2 / 3 < voterCount (casts ++ [(voter, ballot)]) ↔
      authorities.length * 2 / 3 < voterCount casts ∨
        ∃ votes, ((Maker.collect authorities casts).append voter ballot authorities).2 =
          .ok (some votes) := by
  have grows : voterCount casts ≤ voterCount (casts ++ [(voter, ballot)]) := by
    rw [voterCount, voterCount, signedCasts_snoc, List.map_append, List.toFinset_append]
    exact Finset.card_le_card Finset.subset_union_left
  constructor
  · intro many
    by_cases before : authorities.length * 2 / 3 < voterCount casts
    · exact .inl before
    · have raised : ballot.isSome = true ∧ Fresh casts voter := by
        rw [fresh_iff]
        by_contra old
        apply before
        refine Nat.lt_of_lt_of_le many (le_of_eq ?_)
        rw [voterCount, voterCount, signedCasts_snoc]
        cases ballot with
        | none => simp
        | some b =>
          have known : voter ∈ (signedCasts casts).map Prod.fst := by simpa using old
          simp [known]
      exact .inr ⟨_, (Maker.collect_some ..).mpr ⟨raised.1, raised.2, many, rfl⟩⟩
  · rintro (before | ⟨votes, completed⟩)
    · exact Nat.lt_of_lt_of_le before grows
    · exact ((Maker.collect_some ..).mp completed).2.2.1

variable {β ρ π κ : Type} [DecidableEq κ]

variable {authorities} {start : π} {add : π → β → π} {out : π → β → Option ρ} {key : β → κ}
  {cast : β → Cast B α} {kind : ρ → κ} {ballots : ρ → List (B.AuthorityId × α)}

end Quorums

/-! ### Both parts -/

section Parts

variable (authorities : AuthorityList B)

def Vote.key (v : Vote B) : ViewNumber × B.Hash := (v.view, v.proposalHash)

def QC.key (qc : QC B) : ViewNumber × B.Hash := (qc.view, qc.proposalHash)

end Parts

end Hotstuff
