import Mathlib.Data.Finset.Card
import Mathlib.Logic.Relation
import Mathlib.Tactic.Common

/-! Quorums of a committee with less than a third of faulty members, and the safety of the
two-chain commit rule over them. Voters, proposals and keys are of any type. -/
namespace Consensus

variable {N : Type*} [DecidableEq N]

structure Committee (N : Type*) [DecidableEq N] where
  members : Finset N
  faulty : Finset N
  few : 3 * (members ∩ faulty).card < members.card

namespace Committee

variable (committee : Committee N)

def Honest (n : N) : Prop := n ∈ committee.members ∧ n ∉ committee.faulty

structure Quorum (signers : Finset N) : Prop where
  subset : signers ⊆ committee.members
  many : committee.members.card * 2 / 3 < signers.card

variable {committee}

/-- Any two quorums share an honest member. -/
theorem Quorum.meet {first second : Finset N} (one : committee.Quorum first)
    (other : committee.Quorum second) : ∃ n ∈ first, n ∈ second ∧ committee.Honest n := by
  have few := committee.few
  have many := one.many
  have many' := other.many
  have total := Finset.card_union_add_card_inter first second
  have bound := Finset.card_le_card (Finset.union_subset one.subset other.subset)
  -- The common part is larger than the faulty part of the committee.
  have more : (committee.members ∩ committee.faulty).card < (first ∩ second).card := by omega
  obtain ⟨n, common, outside⟩ := Finset.exists_mem_notMem_of_card_lt_card more
  obtain ⟨hn, hn'⟩ := Finset.mem_inter.mp common
  refine ⟨n, hn, hn', one.subset hn, fun bad => outside ?_⟩
  exact Finset.mem_inter.mpr ⟨one.subset hn, bad⟩

theorem Quorum.honest {signers : Finset N} (quorum : committee.Quorum signers) :
    ∃ n ∈ signers, committee.Honest n := by
  obtain ⟨n, hn, _, honest⟩ := quorum.meet quorum
  exact ⟨n, hn, honest⟩

/-- More than two thirds less the faulty ones are more than a third. -/
theorem Quorum.honest_part {signers : Finset N} (quorum : committee.Quorum signers) :
    committee.members.card < 3 * (signers \ committee.faulty).card := by
  have few := committee.few
  have many := quorum.many
  have split := Finset.card_sdiff_add_card_inter signers committee.faulty
  have bound : (signers ∩ committee.faulty).card ≤ (committee.members ∩ committee.faulty).card :=
    Finset.card_le_card (Finset.inter_subset_inter_right quorum.subset)
  omega

end Committee

/-- The votes of a committee for proposals that name a parent by its key and carry the view
of a certificate for it, as `base`. -/
structure Votes (committee : Committee N) (X K : Type*) where
  voted : N → X → Prop
  key : X → K
  view : X → Nat
  parent : X → K
  base : X → Nat
  /-- The key that stands for no parent. -/
  root : K
  key_view : ∀ x y, key x = key y → view x = view y
  key_parent : ∀ x y, key x = key y → parent x = parent y
  key_ne_root : ∀ x, key x ≠ root
  positive : ∀ n x, committee.Honest n → voted n x → 0 < view x
  one_vote : ∀ n x y, committee.Honest n → voted n x → voted n y → view x = view y →
    key x = key y

namespace Votes

variable {committee : Committee N} {X K : Type*} (votes : Votes committee X K)

/-- A quorum has voted for the key in the view, as far as its members are honest. -/
def Certified (k : K) (v : Nat) : Prop :=
  ∃ signers, committee.Quorum signers ∧ ∀ n ∈ signers, committee.Honest n →
    ∃ x, votes.voted n x ∧ votes.key x = k ∧ votes.view x = v

/-- A proposal is voted for on no parent, or on a quorum for its parent in the view it
carries; the voters of that quorum vote for the proposal only after its parent. -/
def Anchored (x : X) : Prop :=
  votes.parent x = votes.root ∧ votes.base x = 0 ∨
    ∃ signers, committee.Quorum signers ∧ ∀ n ∈ signers, committee.Honest n →
      ∃ z, votes.voted n z ∧ votes.key z = votes.parent x ∧ votes.view z = votes.base x ∧
        ∀ y, votes.voted n y → votes.key y = votes.key x → votes.view z < votes.view y

def Above (n : N) (x : X) : Prop :=
  ∀ y, votes.voted n y → votes.view y < votes.view x → votes.base y ≤ votes.base x

/-- The two-chain voting rule: the voter itself, or a quorum, is not above the proposal. -/
structure Safe : Prop where
  anchored : ∀ n x, committee.Honest n → votes.voted n x → votes.Anchored x
  rule : ∀ n x, committee.Honest n → votes.voted n x → votes.Above n x ∨
    ∃ signers, committee.Quorum signers ∧ ∀ c ∈ signers, committee.Honest c → votes.Above c x

/-- Two certified proposals in a row, in consecutive views. -/
structure Commits (g p : X) : Prop where
  first : votes.Certified (votes.key g) (votes.view g)
  second : votes.Certified (votes.key p) (votes.view p)
  link : votes.parent p = votes.key g
  consecutive : votes.view p = votes.view g + 1

def Reaches : K → K → Prop :=
  Relation.ReflTransGen fun k k' => ∃ x, votes.key x = k ∧ votes.parent x = k'

variable {votes}

theorem Certified.voter {k : K} {v : Nat} (certified : votes.Certified k v) :
    ∃ n x, committee.Honest n ∧ votes.voted n x ∧ votes.key x = k ∧ votes.view x = v := by
  obtain ⟨signers, quorum, voters⟩ := certified
  obtain ⟨n, hn, honest⟩ := quorum.honest
  obtain ⟨x, voted, key, view⟩ := voters n hn honest
  exact ⟨n, x, honest, voted, key, view⟩

theorem Certified.unique {k k' : K} {v : Nat} (one : votes.Certified k v)
    (other : votes.Certified k' v) : k = k' := by
  obtain ⟨signers, quorum, voters⟩ := one
  obtain ⟨signers', quorum', voters'⟩ := other
  obtain ⟨n, hn, hn', honest⟩ := quorum.meet quorum'
  obtain ⟨x, voted, rfl, view⟩ := voters n hn honest
  obtain ⟨y, voted', rfl, view'⟩ := voters' n hn' honest
  exact votes.one_vote n x y honest voted voted' (view.trans view'.symm)

theorem Anchored.certified {x : X} (anchored : votes.Anchored x) (based : 0 < votes.base x) :
    votes.Certified (votes.parent x) (votes.base x) := by
  rcases anchored with ⟨_, zero⟩ | ⟨signers, quorum, voters⟩
  · omega
  · refine ⟨signers, quorum, fun n hn honest => ?_⟩
    obtain ⟨z, voted, key, view, _⟩ := voters n hn honest
    exact ⟨z, voted, key, view⟩

theorem Anchored.base_lt {x : X} (anchored : votes.Anchored x) {v : Nat}
    (certified : votes.Certified (votes.key x) v) (positive : 0 < v) : votes.base x < v := by
  rcases anchored with ⟨_, zero⟩ | ⟨signers, quorum, voters⟩
  · omega
  · obtain ⟨signers', quorum', voters'⟩ := certified
    obtain ⟨n, hn, hn', honest⟩ := quorum.meet quorum'
    obtain ⟨z, _, _, view, before⟩ := voters n hn honest
    obtain ⟨y, voted, key, view'⟩ := voters' n hn' honest
    have earlier := before y voted key
    omega

/-- Whoever votes for the second proposal of a commit carries the view of the first. -/
theorem Commits.base_eq (safe : votes.Safe) {g p x : X} {n : N} (commits : votes.Commits g p)
    (honest : committee.Honest n) (voted : votes.voted n x) (key : votes.key x = votes.key p) :
    votes.base x = votes.view g := by
  have parent : votes.parent x = votes.key g := (votes.key_parent x p key).trans commits.link
  rcases safe.anchored n x honest voted with ⟨root, _⟩ | ⟨signers, quorum, voters⟩
  · exact absurd (parent.symm.trans root) (votes.key_ne_root g)
  · obtain ⟨c, hc, honest'⟩ := quorum.honest
    obtain ⟨z, _, same, view, _⟩ := voters c hc honest'
    rw [← view]
    exact votes.key_view z g (same.trans parent)

/-- A proposal certified after a commit is voted for on a base not below the committed one. -/
theorem Commits.le_base (safe : votes.Safe) {g p : X} (commits : votes.Commits g p) {k : K}
    {v : Nat} (certified : votes.Certified k v) (later : votes.view p < v) :
    ∃ n x, committee.Honest n ∧ votes.voted n x ∧ votes.key x = k ∧
      votes.view g ≤ votes.base x := by
  obtain ⟨signers, quorum, voters⟩ := commits.second
  obtain ⟨signers', quorum', voters'⟩ := certified
  obtain ⟨n, hn, hn', honest⟩ := quorum.meet quorum'
  obtain ⟨x, voted, key, view⟩ := voters' n hn' honest
  -- A voter of `p` that is not above `x` shows that the base of `x` is no older.
  have reached : ∀ m, m ∈ signers → committee.Honest m → votes.Above m x →
      votes.view g ≤ votes.base x := by
    intro m hm honest' above
    obtain ⟨z, voted', key', view'⟩ := voters m hm honest'
    have base := commits.base_eq safe honest' voted' key'
    have bound := above z voted' (by omega)
    omega
  refine ⟨n, x, honest, voted, key, ?_⟩
  rcases safe.rule n x honest voted with above | ⟨third, quorum'', above⟩
  · exact reached n hn honest above
  · obtain ⟨m, hm, hm', honest'⟩ := quorum''.meet quorum
    exact reached m hm' honest' (above m hm honest')

/-- Everything certified from the view of a committed proposal on extends it. -/
theorem Commits.reached (safe : votes.Safe) {g p : X} (commits : votes.Commits g p) (v : Nat) :
    ∀ k, votes.Certified k v → votes.view g ≤ v → votes.Reaches k (votes.key g) := by
  have consecutive := commits.consecutive
  induction v using Nat.strongRecOn with
  | ind v ih =>
    intro k certified later
    rcases Nat.lt_or_ge (votes.view p) v with after | before
    · obtain ⟨n, x, honest, voted, rfl, base⟩ := commits.le_base safe certified after
      obtain ⟨m, z, honest', voted', _, view⟩ := commits.first.voter
      have positive := votes.positive m z honest' voted'
      have anchored := safe.anchored n x honest voted
      have parent := anchored.certified (by omega)
      have earlier := anchored.base_lt certified (by omega)
      exact .head ⟨x, rfl, rfl⟩ (ih _ earlier _ parent base)
    · rcases Nat.lt_or_ge (votes.view g) v with next | same
      · have equal : v = votes.view p := by omega
        rw [certified.unique (equal ▸ commits.second)]
        exact .single ⟨p, rfl, commits.link⟩
      · have equal : v = votes.view g := by omega
        rw [certified.unique (equal ▸ commits.first)]
        exact .refl

theorem agreement (safe : votes.Safe) {g p g' p' : X} (one : votes.Commits g p)
    (other : votes.Commits g' p') :
    votes.Reaches (votes.key g) (votes.key g') ∨ votes.Reaches (votes.key g') (votes.key g) := by
  rcases Nat.le_total (votes.view g) (votes.view g') with le | le
  · exact .inr (one.reached safe _ _ other.first le)
  · exact .inl (other.reached safe _ _ one.first le)

end Votes

end Consensus
