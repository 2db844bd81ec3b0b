import Hotstuff.Monotone

/-! `network.rs`: the gossip validator, which filters messages beside the worker with the view
the worker has last set. -/
namespace Hotstuff

variable {B : BlockT}

open ConsensusWorker

/-- The verdicts `validate` gives. -/
inductive ValidationResult (B : BlockT) where
  | processAndKeep (topic : B.Hash)
  | discard
  deriving DecidableEq

/-- The SCALE codec of messages and the bytes of the topic, `hotstuff/consensus`, are parameters. -/
structure GossipValidator (B : BlockT) where
  decode : List B.Byte → Except String (ConsensusMessage B)
  topicName : List B.Byte
  view : ViewNumber

/-- The view the filter reads off a message; what is neither of the first four counts as old. -/
def ConsensusMessage.view : ConsensusMessage B → ViewNumber
  | .propose p => p.view
  | .vote v => v.view
  | .timeout t => t.view
  | .tc c => c.view
  | .syncRequest _ _ => 0
  | .phantom => 0

/-- `current_view - 1`; `none` if it underflows. -/
def predecessor (current : ViewNumber) : Option ViewNumber :=
  if 1 ≤ current then some (current - 1) else none

/-- `guard && message_view < current_view - 1`, where `&&` does not look further if the guard
fails. -/
def outside (guard : Bool) (current messageView : ViewNumber) : Option Bool :=
  if guard then (predecessor current).map fun previous => decide (messageView < previous)
  else some false

namespace GossipValidator

def gossipTopic (validator : GossipValidator B) : B.Hash := B.hash validator.topicName

def validate (validator : GossipValidator B) (data : List B.Byte) :
    Option (ValidationResult B) :=
  match validator.decode data with
  | .ok message =>
    (outside (1 < validator.view) validator.view message.view).map fun old =>
      if old then .discard else .processAndKeep validator.gossipTopic
  | .error _ => some .discard

def messageExpired (validator : GossipValidator B) (_topic : B.Hash) (data : List B.Byte) :
    Option Bool :=
  match validator.decode data with
  | .ok message => outside (1 ≤ validator.view) validator.view message.view
  | .error _ => some true

def messageAllowed (validator : GossipValidator B) (topic : B.Hash) (data : List B.Byte) :
    Option Bool :=
  if topic ≠ validator.gossipTopic then some false
  else match validator.decode data with
    | .ok message => (outside (1 ≤ validator.view) validator.view message.view).map not
    | .error _ => some false

end GossipValidator

/-! ### The window -/

def Outdated (current messageView : ViewNumber) : Prop := 1 < current ∧ messageView < current - 1

instance (current messageView : ViewNumber) : Decidable (Outdated current messageView) :=
  inferInstanceAs (Decidable (_ ∧ _))

theorem outside_strict (current messageView : ViewNumber) :
    outside (1 < current) current messageView = some (decide (Outdated current messageView)) := by
  unfold outside predecessor Outdated
  by_cases guard : 1 < current
  · simp [guard, UInt64.le_of_lt guard]
  · simp [guard]

/- The weaker guard admits view 1 as well, and no view is below the one before that. -/
theorem outside_weak (current messageView : ViewNumber) :
    outside (1 ≤ current) current messageView = some (decide (Outdated current messageView)) := by
  unfold outside predecessor Outdated
  by_cases guard : 1 ≤ current
  · have same : messageView < current - 1 ↔ 1 < current ∧ messageView < current - 1 := by grind
    simp only [guard, decide_true, if_true, Option.map_some]
    exact congrArg some (decide_eq_decide.mpr same)
  · have low : ¬ 1 < current := fun above => guard (UInt64.le_of_lt above)
    simp [guard, low]

theorem Outdated.lt {current messageView : ViewNumber} (old : Outdated current messageView) :
    messageView < current := by
  obtain ⟨_, below⟩ := old
  grind

section Verdicts

variable (validator : GossipValidator B) (data : List B.Byte)

theorem validate_iff (result : ValidationResult B) :
    validator.validate data = some result ↔
      (∃ message, validator.decode data = .ok message ∧
        result = if Outdated validator.view message.view then .discard
          else .processAndKeep validator.gossipTopic) ∨
      (∃ e, validator.decode data = .error e) ∧ result = .discard := by
  unfold GossipValidator.validate
  cases decoded : validator.decode data with
  | ok message => simp [outside_strict, eq_comm]
  | error e => simp [eq_comm]

/-- `validate` and the two closures agree on every byte string, and none of them underflows. -/
theorem verdicts_agree : ∃ result expired allowed, validator.validate data = some result ∧
    validator.messageExpired validator.gossipTopic data = some expired ∧
    validator.messageAllowed validator.gossipTopic data = some allowed ∧
    ((∃ topic, result = .processAndKeep topic) ↔ expired = false ∧ allowed = true) := by
  unfold GossipValidator.validate GossipValidator.messageExpired GossipValidator.messageAllowed
  cases validator.decode data with
  | error e => exact ⟨.discard, true, false, rfl, rfl, by simp, by simp⟩
  | ok message =>
    simp only [outside_strict, outside_weak, ne_eq, not_true_eq_false, if_false]
    refine ⟨_, _, _, rfl, rfl, rfl, ?_⟩
    by_cases old : Outdated validator.view message.view <;> simp [old]

end Verdicts

/-! ### What is discarded is inert -/

theorem handle_stale {w : ConsensusWorker B} {message : ConsensusMessage B} {c : Call B}
    (called : Call.ofMessage message = some c) (other : ∀ p, c ≠ .proposal p)
    (stale : message.view < w.state.view) :
    (w.handle c).1 = w ∧ ∀ next, (w.handle c).2 ≠ .ok (some next) := by
  cases message with
  | propose p =>
    cases called
    exact absurd rfl (other p)
  | syncRequest | phantom => cases called
  | vote v =>
    cases called
    refine handleVote_rejected w v fun passed => ?_
    exact absurd stale (UInt64.not_lt.mpr ((w.state.verifyVote_ok v).mp passed).1)
  | timeout t =>
    cases called
    exact handleTimeout_rejected w t fun passed => absurd stale (UInt64.not_lt.mpr passed.1)
  | tc tc =>
    cases called
    refine handleTc_rejected w tc fun passed => ?_
    exact absurd stale (UInt64.not_lt.mpr ((w.state.verifyTc_ok tc).mp passed).1)

theorem Node.enter_stale {n : Node B} {message : ConsensusMessage B} {c : Call B}
    (called : Call.ofMessage message = some c) (other : ∀ p, c ≠ .proposal p)
    (stale : message.view < n.worker.state.view) :
    n.enter c = ⟨n.worker.emit (.handled c), none⟩ := by
  obtain ⟨same, last⟩ := handle_stale (w := n.worker.emit (.handled c)) called other stale
  unfold Node.enter
  dsimp only
  rw [same]
  cases outcome : ((n.worker.emit (.handled c)).handle c).2 with
  | error e => rfl
  | ok next =>
    cases next with
    | none => rfl
    | some next => exact absurd outcome (last next)

/-- The views the validator has had in a run: at the end of a handler, or in the middle of one,
where `set_view` follows every change of the view before anything is noted. -/
def Setup.HadView (g : Setup B) (actions : List (Action B)) (view : ViewNumber) : Prop :=
  (∃ first, first <+: actions ∧ (g.run first).worker.networkView = view) ∨
    ∃ x ∈ (g.run actions).worker.trace, x.1.view = view

theorem Setup.HadView.le {g : Setup B} {actions : List (Action B)} {view : ViewNumber}
    (had : g.HadView actions view) (fits : ∀ x ∈ (g.run actions).worker.trace, Fits x) :
    view ≤ (g.run actions).worker.state.view := by
  rcases had with ⟨first, before, rfl⟩ | ⟨x, entry, rfl⟩
  · rw [((synced g).run first).2]
    exact (Setup.run_grows before fits).view
  · exact ((rising g).run actions).2 fits x entry

/-- The filter keeps exactly what is not expired and allowed, and its subtractions never underflow.
In a run in which no `view + 1` overflows, a vote, timeout or TC it discards with any view it has
had is one that the worker, handling it then or later, takes no notice of: nothing but the mark of
the call is new, and no call comes after. -/
theorem filter_drops_inert (decode : List B.Byte → Except String (ConsensusMessage B))
    (topicName : List B.Byte) :
    (∀ view data, let validator : GossipValidator B := ⟨decode, topicName, view⟩
      ∃ result expired allowed, validator.validate data = some result ∧
        validator.messageExpired validator.gossipTopic data = some expired ∧
        validator.messageAllowed validator.gossipTopic data = some allowed ∧
        ((∃ topic, result = .processAndKeep topic) ↔ expired = false ∧ allowed = true)) ∧
    ∀ (g : Setup B) (actions later : List (Action B)),
      (∀ x ∈ (g.run actions).worker.trace, Fits x) → later <+: actions →
      ∀ view, g.HadView later view → ∀ data message c, decode data = .ok message →
        Call.ofMessage message = some c → (∀ p, c ≠ .proposal p) →
        (⟨decode, topicName, view⟩ : GossipValidator B).validate data = some .discard →
        (g.run later).enter c = ⟨(g.run later).worker.emit (.handled c), none⟩ := by
  refine ⟨fun view data => verdicts_agree _ data, ?_⟩
  intro g actions later fits within view had data message c decoded called other discarded
  refine Node.enter_stale called other ?_
  have fits' : ∀ x ∈ (g.run later).worker.trace, Fits x :=
    fun x hx => fits x ((Setup.trace_prefix within).subset hx)
  rcases (validate_iff _ data _).mp discarded with ⟨message', same, verdict⟩ | ⟨⟨e, failed⟩, _⟩
  · cases decoded.symm.trans same
    have old : Outdated view message.view := by
      by_contra recent
      rw [if_neg recent] at verdict
      cases verdict
    exact UInt64.lt_of_lt_of_le old.lt (had.le fits')
  · cases decoded.symm.trans failed

theorem filter_drops_inert_climb :
    let tc := Symbolic.timeoutCertificate [0] 0 0
    let n := Symbolic.idle.run (Symbolic.climb 3)
    (⟨fun _ => .ok (.tc tc), [], n.worker.networkView⟩ : GossipValidator symbolic).validate [] =
        some .discard ∧
      n.enter (.tc tc) = ⟨n.worker.emit (.handled (.tc tc)), none⟩ := by
  intro tc n
  have discarded : (⟨fun _ => .ok (.tc tc), [], n.worker.networkView⟩ :
      GossipValidator symbolic).validate [] = some .discard := by decide +kernel
  exact ⟨discarded, (filter_drops_inert (fun _ => .ok (.tc tc)) []).2 Symbolic.idle
    (Symbolic.climb 3) (Symbolic.climb 3) (by decide +kernel) List.prefix_rfl _
    (.inl ⟨_, List.prefix_rfl, rfl⟩) [] (.tc tc) (.tc tc) rfl rfl nofun discarded⟩

/- The certificate of view 0 is discarded in the last view there is, and followed one view later,
when the view has wrapped around. -/
theorem filter_drops_live : ∃ first second, first <+: second ∧
    let tc := Symbolic.timeoutCertificate [0] 0 0
    let n := Symbolic.idle.run second
    (⟨fun _ => .ok (.tc tc), [], (Symbolic.idle.run first).worker.networkView⟩ :
        GossipValidator symbolic).validate [] = some .discard ∧
      n.worker.state.view = 0 ∧ (n.enter (.tc tc)).worker.state.view = 1 := by
  refine ⟨Symbolic.climb 18446744073709551615, Symbolic.climb (18446744073709551615 + 1),
    Symbolic.climb_prefix _, ?_, ?_, ?_⟩
  · rw [((synced _).run _).2, (Symbolic.climb_waits 18446744073709551615).view]
    decide +kernel
  · rw [(Symbolic.climb_waits (18446744073709551615 + 1)).view]
    rfl
  · have waits := Symbolic.climb_waits (18446744073709551615 + 1)
    have zero : UInt64.ofNat (18446744073709551615 + 1) = 0 := rfl
    have entered : (Symbolic.idle.run (Symbolic.climb (18446744073709551615 + 1))).entered
        (.receive (.tc (Symbolic.timeoutCertificate [0] 0 0))) =
          some (.tc (Symbolic.timeoutCertificate [0] 0 0)) := by
      rw [Node.entered, waits.pending]
      rfl
    have next := waits.step
    rw [zero, Node.step_entered entered] at next
    exact next.view

end Hotstuff
