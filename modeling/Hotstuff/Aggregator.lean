import Hotstuff.Certificate

/-! `aggregator.rs`: one maker of a certificate per view and, for votes, per digest. -/
namespace Hotstuff

variable {B : BlockT} {α : Type}

/-- `QCMaker` and `TCMaker` differ in what stands beside the id. The weight counts the
votes and no id votes twice; both are part of the type. -/
structure Maker (B : BlockT) (α : Type) where
  weight : Nat
  votes : List (B.AuthorityId × α)
  counted : weight = votes.length
  distinct : (votes.map Prod.fst).Nodup

def Maker.new : Maker B α := ⟨0, [], rfl, List.nodup_nil⟩

def Maker.push (m : Maker B α) (voter : B.AuthorityId) (ballot : α)
    (fresh : voter ∉ m.votes.map Prod.fst) : Maker B α where
  weight := m.weight + 1
  votes := m.votes ++ [(voter, ballot)]
  counted := by simp [m.counted]
  distinct := by
    rw [List.map_append, List.nodup_append]
    refine ⟨m.distinct, by simp, ?_⟩
    rintro a ha b hb rfl
    have same : a = voter := by simpa using hb
    exact fresh (same ▸ ha)

/-- The body of both `append` functions. A missing ballot is a missing signature: the error
leaves before the push. -/
def Maker.append (m : Maker B α) (voter : B.AuthorityId) (ballot : Option α)
    (authorities : AuthorityList B) :
    Maker B α × Except (HotstuffError B) (Option (List (B.AuthorityId × α))) :=
  if known : voter ∈ m.votes.map Prod.fst then (m, .ok none)
  else match ballot with
    | none => (m, .error .nullSignature)
    | some b =>
      let m := m.push voter b known
      if m.weight < authorities.length * 2 / 3 + 1 then (m, .ok none)
      else (m, .ok (some m.votes))

abbrev QCMaker (B : BlockT) := Maker B B.AuthoritySignature

abbrev TCMaker (B : BlockT) := Maker B (B.AuthoritySignature × ViewNumber)

def QCMaker.append (m : QCMaker B) (vote : Vote B) (authorities : AuthorityList B) :
    QCMaker B × Except (HotstuffError B) (Option (QC B)) :=
  let r := Maker.append m vote.voter vote.signature authorities
  (r.1, r.2.map (Option.map fun votes => ⟨vote.proposalHash, vote.view, votes⟩))

/- The third component is the view of the timeout itself, not that of its `high_qc`. -/
def TCMaker.append (m : TCMaker B) (timeout : Timeout B) (authorities : AuthorityList B) :
    TCMaker B × Except (HotstuffError B) (Option (TC B)) :=
  let r := Maker.append m timeout.voter (timeout.signature.map fun s => (s, timeout.view))
    authorities
  (r.1, r.2.map (Option.map fun votes => ⟨timeout.view, votes⟩))

/-- The hash maps, read through `entry(..).or_default()`: an absent maker is a new one. -/
structure Aggregator (B : BlockT) where
  votesAggregator : ViewNumber → B.Hash → QCMaker B
  timeoutsAggregators : ViewNumber → TCMaker B

def Aggregator.new : Aggregator B := ⟨fun _ _ => Maker.new, fun _ => Maker.new⟩

def Aggregator.addVote (a : Aggregator B) (vote : Vote B) (authorities : AuthorityList B) :
    Aggregator B × Except (HotstuffError B) (Option (QC B)) :=
  let bucket := a.votesAggregator vote.view
  let r := QCMaker.append (bucket vote.digest) vote authorities
  ({ a with votesAggregator :=
      Function.update a.votesAggregator vote.view (Function.update bucket vote.digest r.1) }, r.2)

def Aggregator.addTimeout (a : Aggregator B) (timeout : Timeout B)
    (authorities : AuthorityList B) :
    Aggregator B × Except (HotstuffError B) (Option (TC B)) :=
  let r := TCMaker.append (a.timeoutsAggregators timeout.view) timeout authorities
  ({ a with timeoutsAggregators :=
      Function.update a.timeoutsAggregators timeout.view r.1 }, r.2)

/-! ### What one call can do -/

theorem Maker.append_votes (m : Maker B α) (voter : B.AuthorityId) (ballot : Option α)
    (authorities : AuthorityList B) :
    (m.append voter ballot authorities).1 = m ∧
        (voter ∈ m.votes.map Prod.fst ∨ ballot = none) ∨
      voter ∉ m.votes.map Prod.fst ∧ ∃ b, ballot = some b ∧
        (m.append voter ballot authorities).1.votes = m.votes ++ [(voter, b)] := by
  unfold Maker.append
  split
  · rename_i known
    exact .inl ⟨rfl, .inl known⟩
  · rename_i fresh
    cases ballot with
    | none => exact .inl ⟨rfl, .inr rfl⟩
    | some b =>
      refine .inr ⟨fresh, b, rfl, ?_⟩
      dsimp only
      split <;> rfl

/-- A certificate is returned exactly for a new ballot that reaches the threshold. -/
theorem Maker.append_some (m : Maker B α) (voter : B.AuthorityId) (ballot : Option α)
    (authorities : AuthorityList B) (votes : List (B.AuthorityId × α)) :
    (m.append voter ballot authorities).2 = .ok (some votes) ↔
      voter ∉ m.votes.map Prod.fst ∧ (∃ b, ballot = some b ∧ votes = m.votes ++ [(voter, b)]) ∧
        authorities.length * 2 / 3 < votes.length := by
  unfold Maker.append
  split
  · rename_i known
    simp [known]
  · rename_i fresh
    cases ballot with
    | none => simp
    | some b =>
      have weight : (m.push voter b fresh).weight = m.votes.length + 1 := by
        simp [Maker.push, m.counted]
      dsimp only
      split
      · rename_i few
        rw [weight] at few
        constructor
        · intro h; cases h
        · rintro ⟨_, ⟨_, _, rfl⟩, many⟩
          simp only [List.length_append, List.length_singleton] at many
          omega
      · rename_i many
        rw [weight] at many
        constructor
        · intro h
          cases h
          refine ⟨fresh, ⟨b, rfl, rfl⟩, ?_⟩
          simp only [Maker.push, List.length_append, List.length_singleton]
          omega
        · rintro ⟨_, ⟨b', hb, rfl⟩, _⟩
          cases hb
          rfl

theorem Maker.append_some_votes {m : Maker B α} {voter : B.AuthorityId} {ballot : Option α}
    {authorities : AuthorityList B} {votes : List (B.AuthorityId × α)}
    (returned : (m.append voter ballot authorities).2 = .ok (some votes)) :
    votes = (m.append voter ballot authorities).1.votes := by
  obtain ⟨fresh, ⟨b, hb, hv⟩, _⟩ := (m.append_some voter ballot authorities votes).mp returned
  rcases m.append_votes voter ballot authorities with ⟨_, known | missing⟩ | ⟨_, c, hc, grown⟩
  · exact absurd known fresh
  · rw [missing] at hb; cases hb
  · rw [hb] at hc
    cases hc
    rw [hv, grown]

theorem map_ok_some {ε β γ : Type} {r : Except ε (Option β)} {f : β → γ} {c : γ} :
    r.map (Option.map f) = .ok (some c) ↔ ∃ b, r = .ok (some b) ∧ f b = c := by
  cases r with
  | error e => simp [Except.map]
  | ok o => cases o <;> simp [Except.map]

theorem QCMaker.append_some {m : QCMaker B} {vote : Vote B} {authorities : AuthorityList B}
    {qc : QC B} (returned : (QCMaker.append m vote authorities).2 = .ok (some qc)) :
    qc.proposalHash = vote.proposalHash ∧ qc.view = vote.view ∧
      qc.votes = (QCMaker.append m vote authorities).1.votes ∧
      authorities.length * 2 / 3 < qc.votes.length := by
  obtain ⟨votes, hr, rfl⟩ := map_ok_some.mp returned
  exact ⟨rfl, rfl, Maker.append_some_votes hr, ((Maker.append_some ..).mp hr).2.2⟩

theorem TCMaker.append_some {m : TCMaker B} {timeout : Timeout B}
    {authorities : AuthorityList B} {tc : TC B}
    (returned : (TCMaker.append m timeout authorities).2 = .ok (some tc)) :
    tc.view = timeout.view ∧ tc.votes = (TCMaker.append m timeout authorities).1.votes ∧
      authorities.length * 2 / 3 < tc.votes.length := by
  obtain ⟨votes, hr, rfl⟩ := map_ok_some.mp returned
  exact ⟨rfl, Maker.append_some_votes hr, ((Maker.append_some ..).mp hr).2.2⟩

theorem Aggregator.addTimeout_some {a : Aggregator B} {t : Timeout B}
    {authorities : AuthorityList B} {tc : TC B}
    (formed : (a.addTimeout t authorities).2 = .ok (some tc)) :
    tc.view = t.view ∧
      tc.votes = ((a.addTimeout t authorities).1.timeoutsAggregators t.view).votes ∧
      authorities.length * 2 / 3 < tc.votes.length := by
  obtain ⟨view, votes, quorum⟩ := TCMaker.append_some formed
  refine ⟨view, ?_, quorum⟩
  simpa [Aggregator.addTimeout] using votes

theorem Aggregator.addVote_some {a : Aggregator B} {v : Vote B} {authorities : AuthorityList B}
    {qc : QC B} (formed : (a.addVote v authorities).2 = .ok (some qc)) :
    qc.proposalHash = v.proposalHash ∧ qc.view = v.view ∧
      qc.votes = ((a.addVote v authorities).1.votesAggregator v.view v.digest).votes ∧
      authorities.length * 2 / 3 < qc.votes.length := by
  obtain ⟨hash, view, votes, quorum⟩ := QCMaker.append_some formed
  refine ⟨hash, view, ?_, quorum⟩
  simpa [Aggregator.addVote] using votes

end Hotstuff
