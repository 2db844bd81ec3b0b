import Hotstuff.Moves

/-! The history of one node: in which order its entries stand and what each one records. -/
namespace Hotstuff

variable {B : BlockT}

open ConsensusWorker

def Before (trace : List (Moment B × Event B)) (x y : Moment B × Event B) : Prop :=
  [x, y].Sublist trace

theorem Before.append {trace : List (Moment B × Event B)} {x y : Moment B × Event B}
    (before : Before trace x y) (new : List (Moment B × Event B)) : Before (trace ++ new) x y :=
  before.trans (List.sublist_append_left _ _)

theorem Before.of_mem {trace new : List (Moment B × Event B)} {x y : Moment B × Event B}
    (old : x ∈ trace) (added : y ∈ new) : Before (trace ++ new) x y :=
  (List.singleton_sublist.mpr old).append (List.singleton_sublist.mpr added)

theorem Before.first {trace : List (Moment B × Event B)} {x y : Moment B × Event B}
    (before : Before trace x y) : x ∈ trace :=
  before.subset (List.mem_cons_self ..)

def Handled (trace : List (Moment B × Event B)) (c : Call B) : Prop :=
  ∃ m, (m, .handled c) ∈ trace

theorem Handled.mono {trace trace' : List (Moment B × Event B)} {c : Call B}
    (handled : Handled trace c) (grown : trace ⊆ trace') : Handled trace' c := by
  obtain ⟨m, entry⟩ := handled
  exact ⟨m, grown entry⟩

/-! ### The order of the entries -/

/-- `x` may stand before `y`: neither the last voted view nor the view of `highQc` falls, and
a vote is above every view voted in or given up before it. -/
def Precedes (x y : Moment B × Event B) : Prop :=
  x.1.lastVotedView ≤ y.1.lastVotedView ∧ x.1.highQc.view ≤ y.1.highQc.view ∧
    ∀ p v, y.2 = .voted p v → x.1.lastVotedView < v.view

structure Chronicle (w : ConsensusWorker B) : Prop where
  ordered : w.trace.Pairwise Precedes
  bounded : ∀ x ∈ w.trace, x.1.lastVotedView ≤ w.state.lastVotedView ∧
    x.1.highQc.view ≤ w.state.highQc.view

namespace Chronicle

variable {w w' : ConsensusWorker B}

theorem order (history : Chronicle w) {x y : Moment B × Event B} (before : Before w.trace x y) :
    Precedes x y :=
  List.pairwise_iff_forall_sublist.mp history.ordered before

theorem total (history : Chronicle w) {x y : Moment B × Event B} (hx : x ∈ w.trace)
    (hy : y ∈ w.trace) : x = y ∨ Precedes x y ∨ Precedes y x :=
  Runs.ordered_total history.ordered hx hy

theorem grow (history : Chronicle w) (trace : w'.trace = w.trace)
    (voted : w.state.lastVotedView ≤ w'.state.lastVotedView)
    (high : w.state.highQc.view ≤ w'.state.highQc.view) : Chronicle w' := by
  refine ⟨trace ▸ history.ordered, fun x hx => ?_⟩
  obtain ⟨lastVoted, highQc⟩ := history.bounded x (trace ▸ hx)
  exact ⟨UInt64.le_trans lastVoted voted, UInt64.le_trans highQc high⟩

/-- An entry is made; if it is a vote, the state before it was below that vote. -/
theorem snoc (history : Chronicle w) (e : Event B)
    (trace : w'.trace = w.trace ++ [(w'.state.moment, e)])
    (voted : w.state.lastVotedView ≤ w'.state.lastVotedView)
    (high : w.state.highQc.view ≤ w'.state.highQc.view)
    (above : ∀ p v, e = .voted p v → w.state.lastVotedView < v.view) : Chronicle w' := by
  refine ⟨?_, ?_⟩
  · rw [trace]
    refine Runs.ordered_snoc history.ordered fun x hx => ?_
    obtain ⟨lastVoted, highQc⟩ := history.bounded x hx
    exact ⟨UInt64.le_trans lastVoted voted, UInt64.le_trans highQc high,
      fun p v vote => UInt64.lt_of_le_of_lt lastVoted (above p v vote)⟩
  · intro x hx
    rw [trace] at hx
    rcases List.mem_append.mp hx with old | added
    · obtain ⟨lastVoted, highQc⟩ := history.bounded x old
      exact ⟨UInt64.le_trans lastVoted voted, UInt64.le_trans highQc high⟩
    · rw [List.mem_singleton.mp added]
      exact ⟨UInt64.le_refl _, UInt64.le_refl _⟩

theorem emit (history : Chronicle w) (e : Event B) (other : ∀ p v, e ≠ .voted p v) :
    Chronicle (w.emit e) :=
  history.snoc e rfl (UInt64.le_refl _) (UInt64.le_refl _)
    (fun p v vote => absurd vote (other p v))

theorem advanceView (history : Chronicle w) (target : ViewNumber) :
    Chronicle (w.advanceView target) :=
  history.grow rfl (by rw [advanceView_lastVotedView]; exact UInt64.le_refl _)
    (by rw [advanceView_highQc]; exact UInt64.le_refl _)

theorem handleQc (history : Chronicle w) (qc : QC B) : Chronicle (w.handleQc qc) := by
  have marked := history.emit (.acceptQc qc) (by simp)
  by_cases ahead : w.state.view ≤ qc.view
  · rw [handleQc_ahead w qc ahead]
    refine Chronicle.emit ?_ .resetTimer (by simp)
    obtain ⟨lastVoted, highQc⟩ := ConsensusState.updateHighQc_le
      ((w.emit (.acceptQc qc)).advanceView qc.view).state qc
    exact (marked.advanceView qc.view).grow rfl (lastVoted ▸ UInt64.le_refl _) highQc
  · rw [handleQc_behind w qc ahead]
    exact marked

theorem move {w₀ : ConsensusWorker B} {c : Call B} (history : Chronicle w)
    (move : Move w₀ c w w') : Chronicle w' := by
  cases move with
  | note e quiet =>
    refine history.emit e ?_
    rintro p v rfl
    cases quiet
  | scratch | save | addTimeout | addVote =>
    exact history.grow rfl (UInt64.le_refl _) (UInt64.le_refl _)
  | canFinalize | finalize | timedOut | propose => exact history.emit _ (by simp)
  | verified p => exact (history.emit (.verified p) (by simp)).handleQc p.qc
  | timeoutQc t => exact history.handleQc t.highQc
  | collected v qc => exact (history.emit (.collected qc) (by simp)).handleQc qc
  | proposalTc tc => exact history.advanceView tc.view
  | receivedTc tc => exact (history.emit (.acceptTc tc) (by simp)).advanceView tc.view
  | formedTc t tc =>
    split
    · exact (history.emit (.acceptTc tc) (by simp)).advanceView tc.view
    · exact history.emit (.acceptTc tc) (by simp)
  | timer =>
    exact history.snoc .localTimer rfl w.state.increaseLastVotedView_le.1 (UInt64.le_refl _)
      (by simp)
  | vote p v s called passed seen state current made =>
    obtain ⟨rfl, later, _, view, _⟩ := ConsensusState.makeVote_some made
    refine history.snoc (.voted p v) rfl (UInt64.le_of_lt later) (UInt64.le_refl _) ?_
    rintro _ _ ⟨⟩
    exact view ▸ later
  | voteFails p s made =>
    rcases ConsensusState.makeVote_none made with rfl | ⟨later, rfl⟩
    · exact history.grow rfl (UInt64.le_refl _) (UInt64.le_refl _)
    · exact history.grow rfl (UInt64.le_of_lt later) (UInt64.le_refl _)

end Chronicle

theorem chronicle (g : Setup B) : Invariant g Chronicle where
  start := ⟨List.Pairwise.nil, List.forall_mem_nil _⟩
  observe _ _ history := history.grow rfl (UInt64.le_refl _) (UInt64.le_refl _)
  enter _ c history := history.emit (.handled c) (by simp)
  move _ _ _ _ _ _ history move := history.move move

/-! ### What the entries record -/

/-- What the code has checked of a vote when it makes it. -/
structure LawfulVote (s : ConsensusState B) (m : Moment B) (p : Proposal B) (v : Vote B) :
    Prop where
  verified : s.verifyProposal p = .ok ()
  leader : p.author = s.viewLeader p.view
  current : p.view = m.view
  view : v.view = p.view
  hash : v.proposalHash = p.digest
  voter : s.localAuthorityId = some v.voter

/-- The state in which `p` was verified and the one in which the vote for it is cast. -/
structure Adopts (verified : Moment B) (p : Proposal B) (voted : Moment B) : Prop where
  fresh : verified.lastVotedView < p.view
  lastVotedView : voted.lastVotedView = p.view
  view : p.view = advanced verified.view p.qc.view
  highQc : voted.highQc = verified.highQcAfter p.qc

def Recorded (g : Setup B) (trace : List (Moment B × Event B)) (m : Moment B) : Event B → Prop
  | .localTimer => m.view ≤ m.lastVotedView
  | .timedOut t => t.view = m.view ∧ t.highQc = m.highQc ∧ m.view ≤ m.lastVotedView
  | .verified p => g.start.worker.state.verifyProposal p = .ok () ∧ Handled trace (.proposal p)
  | .voted p v => LawfulVote g.start.worker.state m p v ∧
      ∃ m', Before trace (m', .verified p) (m, .voted p v) ∧ Adopts m' p m
  | _ => True

theorem Recorded.append {g : Setup B} {trace : List (Moment B × Event B)} {m : Moment B}
    {e : Event B} (new : List (Moment B × Event B)) (recorded : Recorded g trace m e) :
    Recorded g (trace ++ new) m e := by
  cases e with
  | verified p => exact ⟨recorded.1, recorded.2.mono (List.subset_append_left _ _)⟩
  | voted p v =>
    obtain ⟨lawful, m', before, adopts⟩ := recorded
    exact ⟨lawful, m', before.append new, adopts⟩
  | _ => exact recorded

theorem recorded_of_cause {g : Setup B} {w₀ w : ConsensusWorker B} {c : Call B} {m : Moment B}
    {e : Event B} {new : List (Moment B × Event B)} (during : During g w₀ c w)
    (added : (m, e) ∈ new) (cause : Cause w₀ c w m e) : Recorded g (w.trace ++ new) m e := by
  cases e with
  | localTimer => exact cause
  | timedOut t =>
    obtain ⟨rfl, raised, made⟩ := cause
    obtain ⟨highQc, view, _⟩ := ConsensusState.makeTimeout_ok made
    exact ⟨view, highQc, raised⟩
  | verified p =>
    obtain ⟨rfl, rfl, passed⟩ := cause
    have handled : Handled w.trace (.proposal p) := ⟨_, during.handled⟩
    exact ⟨during.base₀.verifyProposal p ▸ passed, handled.mono (List.subset_append_left _ _)⟩
  | voted p v =>
    obtain ⟨called, passed, seen, state, current, s, made, rfl⟩ := cause
    obtain ⟨rfl, later, hash, view, voter⟩ := ConsensusState.makeVote_some made
    rw [during.base₀.verifyProposal] at passed
    have leader := ((ConsensusState.verifyProposal_ok _ p).mp passed).1
    refine ⟨⟨passed, leader, current, view, hash, during.base.localAuthorityId ▸ voter⟩, _,
      .of_mem seen added, ?_⟩
    rw [handleQc_state] at state
    rw [state] at later current ⊢
    exact ⟨later, rfl, current, rfl⟩
  | _ => trivial

theorem recorded (g : Setup B) : Invariant g fun w =>
    Chronicle w ∧ ∀ m e, (m, e) ∈ w.trace → Recorded g w.trace m e :=
  (chronicle g).entries (Recorded g) (fun _ new _ _ known => known.append new)
    (fun _ _ _ => trivial)
    (fun _ _ _ _ _ _ during _ added cause => recorded_of_cause during added cause)

end Hotstuff
