import Mathlib.Data.List.Induction
import Hotstuff.Lib.Expiry
import Hotstuff.Symbolic

/-! `PendingFinalizeBlockQueue` of `import.rs`: the blocks that wait to be finalized, fed by
the import and finality notifications of the client and read by the worker. -/
namespace Hotstuff

variable {B : BlockT}

structure ImportNotification (B : BlockT) where
  hash : B.Hash
  number : B.Number
  isNewBest : Bool

structure FinalityNotification (B : BlockT) where
  hash : B.Hash
  number : B.Number

/-- The notifications that the two streams have ready when the future is polled. -/
structure Ready (B : BlockT) where
  imports : List (ImportNotification B)
  finalities : List (FinalityNotification B)

/-- The streams are the client's; `none` is a poisoned lock. -/
structure PendingFinalizeBlockQueue (B : BlockT) where
  inner : Option (List (BlockInfo B))
  deriving DecidableEq

namespace PendingFinalizeBlockQueue

def queue (q : PendingFinalizeBlockQueue B) : Option (List (BlockInfo B)) := q.inner

def onImport (q : PendingFinalizeBlockQueue B) (n : ImportNotification B) :
    PendingFinalizeBlockQueue B :=
  if ¬ n.isNewBest then q
  else ⟨q.inner.map fun pending => pending ++ [⟨some n.hash, n.number⟩]⟩

/-- The inner loop on a finality notification: pop while the front is not above it. -/
def popFinalized (finalized : B.Number) : List (BlockInfo B) → List (BlockInfo B)
  | [] => []
  | elem :: rest =>
    if finalized < elem.number then elem :: rest else popFinalized finalized rest

def onFinality (q : PendingFinalizeBlockQueue B) (n : FinalityNotification B) :
    PendingFinalizeBlockQueue B :=
  ⟨q.inner.map (popFinalized n.number)⟩

/-- One poll drains the imports first and the finality notifications after them. -/
def poll (q : PendingFinalizeBlockQueue B) (ready : Ready B) : PendingFinalizeBlockQueue B :=
  ready.finalities.foldl onFinality (ready.imports.foldl onImport q)

end PendingFinalizeBlockQueue

/-! ### What the queue is after a poll -/

def newBest (imports : List (ImportNotification B)) : List (BlockInfo B) :=
  (imports.filter ImportNotification.isNewBest).map fun n => ⟨some n.hash, n.number⟩

/-- A block at or below a finalized number. -/
def finalizedBy (finalities : List (FinalityNotification B)) (info : BlockInfo B) : Bool :=
  finalities.any fun n => info.number ≤ n.number

theorem newBest_append (first second : List (ImportNotification B)) :
    newBest (first ++ second) = newBest first ++ newBest second := by
  simp [newBest]

theorem finalizedBy_append (first second : List (FinalityNotification B)) (info : BlockInfo B) :
    finalizedBy (first ++ second) info = (finalizedBy first info || finalizedBy second info) := by
  simp [finalizedBy]

namespace PendingFinalizeBlockQueue

theorem popFinalized_eq (finalized : B.Number) (pending : List (BlockInfo B)) :
    popFinalized finalized pending = pending.dropWhile fun elem => elem.number ≤ finalized := by
  induction pending with
  | nil => rfl
  | cons elem rest ih =>
    by_cases above : finalized < elem.number
    · simp [popFinalized, above]
    · simp [popFinalized, above, not_lt.mp above, ih]

theorem foldl_onImport (pending : List (BlockInfo B)) (imports : List (ImportNotification B)) :
    imports.foldl onImport ⟨some pending⟩ = ⟨some (pending ++ newBest imports)⟩ := by
  induction imports generalizing pending with
  | nil => simp [newBest]
  | cons n rest ih =>
    cases best : n.isNewBest with
    | false => simp [onImport, best, ih, newBest]
    | true => simp [onImport, best, ih, newBest]

theorem foldl_onFinality (pending : List (BlockInfo B))
    (finalities : List (FinalityNotification B)) :
    finalities.foldl onFinality ⟨some pending⟩ =
      ⟨some (pending.dropWhile (finalizedBy finalities))⟩ := by
  have pops (l : List (BlockInfo B)) :
      finalities.foldl onFinality ⟨some l⟩ =
        ⟨some ((finalities.map FinalityNotification.number).foldl
          (fun l bound => l.dropWhile fun elem => elem.number ≤ bound) l)⟩ := by
    induction finalities generalizing l with
    | nil => rfl
    | cons n rest ih =>
      simp only [List.foldl_cons, List.map_cons, onFinality, Option.map_some, popFinalized_eq]
      exact ih _
  have all : (fun elem : BlockInfo B => (finalities.map FinalityNotification.number).any
      fun bound => elem.number ≤ bound) = finalizedBy finalities := by
    funext elem
    simp [finalizedBy, List.any_map, Function.comp_def]
  rw [pops, Expiry.foldl_dropWhile, all]

/-- The new best blocks are appended, and the front is dropped up to the first block above
all finality notifications of this poll. -/
theorem poll_eq (pending : List (BlockInfo B)) (ready : Ready B) :
    poll ⟨some pending⟩ ready =
      ⟨some ((pending ++ newBest ready.imports).dropWhile (finalizedBy ready.finalities))⟩ := by
  rw [poll, foldl_onImport, foldl_onFinality]

theorem poll_none (ready : Ready B) : poll ⟨none⟩ ready = ⟨none⟩ := by
  have imports : ready.imports.foldl onImport ⟨none⟩ = (⟨none⟩ : PendingFinalizeBlockQueue B) := by
    apply List.foldl_fixed'
    intro n
    unfold onImport
    split <;> rfl
  rw [poll, imports]
  apply List.foldl_fixed'
  intro n
  rfl

/-- A poll brings new best blocks into the queue and nothing else. -/
theorem mem_poll {q : PendingFinalizeBlockQueue B} {ready : Ready B} {pending : List (BlockInfo B)}
    {info : BlockInfo B} (after : (q.poll ready).queue = some pending) (member : info ∈ pending) :
    (∃ before, q.queue = some before ∧ info ∈ before) ∨ info ∈ newBest ready.imports := by
  obtain ⟨inner⟩ := q
  cases inner with
  | none =>
    rw [poll_none] at after
    cases after
  | some before =>
    rw [poll_eq] at after
    cases after
    rcases List.mem_append.mp ((List.dropWhile_sublist _).subset member) with old | new
    · exact .inl ⟨before, rfl, old⟩
    · exact .inr new

/-! ### The content over any number of polls -/

def polled (polls : List (Ready B)) : PendingFinalizeBlockQueue B :=
  polls.foldl poll ⟨some []⟩

def imported (polls : List (Ready B)) : List (BlockInfo B) :=
  newBest (polls.flatMap Ready.imports)

def obsolete (polls : List (Ready B)) : BlockInfo B → Bool :=
  finalizedBy (polls.flatMap Ready.finalities)

/-- The new best blocks above every finalized number, in order of arrival. -/
def waiting (polls : List (Ready B)) : List (BlockInfo B) :=
  (imported polls).filter fun info => ! obsolete polls info

/-- The streams as front removal needs them: at every poll the blocks that are finalized
came before those that are not (no reorganisation to a lower height in between), and no
block comes after a finality notification of its height from an earlier poll, unless one
comes with it. -/
structure InOrder (polls : List (Ready B)) : Prop where
  ordered : ∀ before, before <+: polls →
    (imported before).Pairwise fun x y => obsolete before y → obsolete before x
  punctual : ∀ before ready, before ++ [ready] <+: polls →
    ∀ info ∈ newBest ready.imports, obsolete before info → obsolete [ready] info

theorem imported_snoc (polls : List (Ready B)) (ready : Ready B) :
    imported (polls ++ [ready]) = imported polls ++ newBest ready.imports := by
  simp [imported, newBest_append]

theorem obsolete_snoc (polls : List (Ready B)) (ready : Ready B) (info : BlockInfo B) :
    obsolete (polls ++ [ready]) info = (obsolete polls info || obsolete [ready] info) := by
  simp [obsolete, finalizedBy_append]

theorem waiting_snoc (polls : List (Ready B)) (ready : Ready B) :
    waiting (polls ++ [ready]) = (waiting polls ++ newBest ready.imports).filter
      fun info => ! obsolete (polls ++ [ready]) info := by
  have kept : ((imported polls).filter fun info => ! obsolete (polls ++ [ready]) info) =
      (waiting polls).filter fun info => ! obsolete (polls ++ [ready]) info := by
    rw [waiting, List.filter_filter]
    congr 1
    funext info
    rw [obsolete_snoc]
    cases obsolete polls info <;> simp
  rw [waiting, imported_snoc, List.filter_append, List.filter_append, kept]

theorem polled_snoc {polls : List (Ready B)} (good : polled polls = ⟨some (waiting polls)⟩)
    (ready : Ready B) :
    polled (polls ++ [ready]) = ⟨some ((waiting polls ++ newBest ready.imports).dropWhile
      (obsolete [ready]))⟩ := by
  have step : polled (polls ++ [ready]) = (polled polls).poll ready := by
    simp [polled, List.foldl_append]
  rw [step, good, poll_eq]
  simp [obsolete]

/-- The order needed of all imports is that of those still waiting, for the others were
finalized before. -/
theorem ordered_snoc_iff {polls : List (Ready B)} (ready : Ready B)
    (before : (imported polls).Pairwise fun x y => obsolete polls y → obsolete polls x) :
    ((imported (polls ++ [ready])).Pairwise fun x y =>
        obsolete (polls ++ [ready]) y → obsolete (polls ++ [ready]) x) ↔
      (waiting polls ++ newBest ready.imports).Pairwise fun x y =>
        obsolete (polls ++ [ready]) y → obsolete (polls ++ [ready]) x := by
  have sub : (waiting polls ++ newBest ready.imports).Sublist (imported (polls ++ [ready])) := by
    rw [imported_snoc]
    exact List.Sublist.append_right List.filter_sublist _
  have old {x : BlockInfo B} (gone : obsolete polls x) : obsolete (polls ++ [ready]) x := by
    simp [obsolete_snoc, gone]
  constructor
  · intro all
    exact all.sublist sub
  · intro kept
    rw [List.pairwise_append] at kept
    rw [imported_snoc, List.pairwise_append]
    obtain ⟨queued, new, across⟩ := kept
    refine ⟨?_, new, ?_⟩
    · have queued' := List.pairwise_filter.mp queued
      apply (before.and queued').imp
      rintro x y ⟨order, both⟩ gone
      cases first : obsolete polls x with
      | true => exact old first
      | false =>
        cases second : obsolete polls y with
        | true => exact absurd (order second) (by simp [first])
        | false => exact both (by simp [first]) (by simp [second]) gone
    · intro x hx y hy gone
      cases first : obsolete polls x with
      | true => exact old first
      | false => exact across x (by simp [waiting, hx, first]) y hy gone

theorem polled_snoc_iff {polls : List (Ready B)} (ready : Ready B)
    (before : (imported polls).Pairwise fun x y => obsolete polls y → obsolete polls x)
    (good : polled polls = ⟨some (waiting polls)⟩) :
    polled (polls ++ [ready]) = ⟨some (waiting (polls ++ [ready]))⟩ ↔
      ((imported (polls ++ [ready])).Pairwise fun x y =>
          obsolete (polls ++ [ready]) y → obsolete (polls ++ [ready]) x) ∧
        ∀ info ∈ newBest ready.imports, obsolete polls info → obsolete [ready] info := by
  have part (info : BlockInfo B) (gone : obsolete [ready] info) :
      obsolete (polls ++ [ready]) info := by simp [obsolete_snoc, gone]
  rw [polled_snoc good, waiting_snoc, ordered_snoc_iff ready before]
  simp only [PendingFinalizeBlockQueue.mk.injEq, Option.some.injEq]
  rw [Expiry.dropWhile_eq_filter_iff part]
  apply and_congr_right
  intro _
  constructor
  · intro covered info new gone
    apply covered info (List.mem_append_right _ new)
    simp [obsolete_snoc, gone]
  · intro covered info member gone
    rw [obsolete_snoc, Bool.or_eq_true] at gone
    rcases List.mem_append.mp member with queued | new
    · have fresh : obsolete polls info = false := by
        simpa [waiting] using (List.mem_filter.mp queued).2
      simpa [fresh] using gone
    · exact gone.elim (covered info new) id

theorem inOrder_snoc_iff (polls : List (Ready B)) (ready : Ready B) :
    InOrder (polls ++ [ready]) ↔ InOrder polls ∧
      ((imported (polls ++ [ready])).Pairwise fun x y =>
          obsolete (polls ++ [ready]) y → obsolete (polls ++ [ready]) x) ∧
        ∀ info ∈ newBest ready.imports, obsolete polls info → obsolete [ready] info := by
  constructor
  · intro inOrder
    refine ⟨⟨?_, ?_⟩, inOrder.ordered _ (List.prefix_refl _),
      inOrder.punctual polls ready (List.prefix_refl _)⟩
    · intro before here
      exact inOrder.ordered before (here.trans (List.prefix_append _ _))
    · intro before next here
      exact inOrder.punctual before next (here.trans (List.prefix_append _ _))
  · rintro ⟨inOrder, order, late⟩
    constructor
    · intro before here
      rcases List.prefix_concat_iff.mp here with rfl | earlier
      · exact order
      · exact inOrder.ordered before earlier
    · intro before next here
      rcases List.prefix_concat_iff.mp here with same | earlier
      · obtain ⟨rfl, rfl⟩ := List.append_inj' same rfl |>.imp id List.singleton_inj.mp
        exact late
      · exact inOrder.punctual before next earlier

theorem pending_exact_iff (polls : List (Ready B)) :
    (∀ before, before <+: polls → (polled before).queue = some (waiting before)) ↔
      InOrder polls := by
  induction polls using List.reverseRecOn with
  | nil =>
    constructor
    · intro _
      constructor
      · rintro before here
        rw [List.prefix_nil.mp here]
        exact List.Pairwise.nil
      · intro before next here
        simp at here
    · rintro _ before here
      rw [List.prefix_nil.mp here]
      rfl
  | append_singleton polls ready ih =>
    rw [inOrder_snoc_iff, ← ih]
    constructor
    · intro content
      have earlier : ∀ before, before <+: polls →
          (polled before).queue = some (waiting before) :=
        fun before here => content before (here.trans (List.prefix_append _ _))
      have good : polled polls = ⟨some (waiting polls)⟩ :=
        congrArg PendingFinalizeBlockQueue.mk (earlier polls (List.prefix_refl _))
      refine ⟨earlier, ?_⟩
      apply (polled_snoc_iff ready ((ih.mp earlier).ordered polls (List.prefix_refl _)) good).mp
      exact congrArg PendingFinalizeBlockQueue.mk (content _ (List.prefix_refl _))
    · rintro ⟨earlier, next⟩ before here
      have good : polled polls = ⟨some (waiting polls)⟩ :=
        congrArg PendingFinalizeBlockQueue.mk (earlier polls (List.prefix_refl _))
      rcases List.prefix_concat_iff.mp here with rfl | earlier'
      · have order := (ih.mp earlier).ordered polls (List.prefix_refl _)
        exact congrArg queue ((polled_snoc_iff ready order good).mpr next)
      · exact earlier before earlier'

/-- A reorganisation to a lower height: the front is above the finalized block, and the
finalized block behind it stays. -/
theorem reorganised_queue_inexact :
    let polls : List (Ready symbolic) :=
      [⟨[⟨.leaf 5, 5, true⟩, ⟨.leaf 3, 3, true⟩], []⟩, ⟨[], [⟨.leaf 3, 3⟩]⟩]
    ¬ ∀ before, before <+: polls → (polled before).queue = some (waiting before) := by
  intro polls content
  exact absurd (content polls (List.prefix_refl _)) (by decide +kernel)

end PendingFinalizeBlockQueue

/-! ### The queue of a node that starts -/

/-- The client at the start of a node: `info()` and `block_hash_from_id` on a number. -/
structure ChainClient (B : BlockT) extends Client B where
  bestNumber : B.Number
  blockHashFromId : B.Number → Except String (Option B.Hash)

/-- The block number as an unsigned integer; adding one wraps at the largest number. -/
structure Numbering (B : BlockT) where
  addOne : B.Number → B.Number
  toNat : B.Number → Nat
  toNat_le_iff : ∀ m n, toNat m ≤ toNat n ↔ m ≤ n
  addOne_of_lt : ∀ m n, m < n → toNat (addOne m) = toNat m + 1
  addOne_of_isMax : ∀ m, IsMax m → toNat (addOne m) = 0

namespace PendingFinalizeBlockQueue

variable (numbering : Numbering B) (client : ChainClient B)

/-- The loop of `new`; it runs on while the number is at most the best one. -/
def collect : Nat → B.Number → List (Option B.Hash × B.Number) →
    Option (Except (HotstuffError B) (List (Option B.Hash × B.Number)))
  | 0, _, _ => none
  | fuel + 1, blockNumber, queue =>
    if blockNumber ≤ client.bestNumber then
      match client.blockHashFromId blockNumber with
      | .error e => some (.error (.clientError e))
      | .ok blockHash =>
        collect fuel (numbering.addOne blockNumber) (queue ++ [(blockHash, blockNumber)])
    else some (.ok queue)

/-- The source fills a queue and returns another one. -/
def new (fuel : Nat) : Option (Except (HotstuffError B) (PendingFinalizeBlockQueue B)) :=
  match collect numbering client fuel (numbering.addOne client.finalizedNumber) [] with
  | none => none
  | some (.error e) => some (.error e)
  | some (.ok _) => some (.ok ⟨some []⟩)

variable {numbering client}

theorem new_queue {fuel : Nat} {q : PendingFinalizeBlockQueue B}
    (returned : new numbering client fuel = some (.ok q)) : q.queue = some [] := by
  unfold new at returned
  split at returned
  · cases returned
  · cases returned
  · cases returned
    rfl

theorem collect_isMax (lookups : ∀ n, ∃ hash, client.blockHashFromId n = .ok hash)
    (greatest : IsMax client.bestNumber) (fuel : Nat) (n : B.Number)
    (queue : List (Option B.Hash × B.Number)) :
    collect numbering client fuel n queue = none := by
  induction fuel generalizing n queue with
  | zero => rfl
  | succ fuel ih =>
    obtain ⟨hash, found⟩ := lookups n
    have inside : n ≤ client.bestNumber := by
      rcases le_total n client.bestNumber with le | ge
      · exact le
      · exact greatest ge
    simp only [collect, inside, ↓reduceIte, found]
    exact ih _ _

theorem collect_returns (lookups : ∀ n, ∃ hash, client.blockHashFromId n = .ok hash)
    (bounded : ¬ IsMax client.bestNumber) (n : B.Number)
    (queue : List (Option B.Hash × B.Number)) :
    ∃ fuel queue', collect numbering client fuel n queue = some (.ok queue') := by
  obtain ⟨top, above⟩ := not_isMax_iff.mp bounded
  -- the distance of the number to the first one beyond the best
  induction distance : numbering.toNat client.bestNumber + 1 - numbering.toNat n
    generalizing n queue with
  | zero =>
    have beyond : ¬ n ≤ client.bestNumber := by
      rw [← numbering.toNat_le_iff]
      omega
    exact ⟨1, queue, by simp [collect, beyond]⟩
  | succ d ih =>
    by_cases inside : n ≤ client.bestNumber
    · obtain ⟨hash, found⟩ := lookups n
      have next := numbering.addOne_of_lt n top (lt_of_le_of_lt inside above)
      obtain ⟨fuel, queue', returned⟩ :=
        ih (numbering.addOne n) (queue ++ [(hash, n)]) (by omega)
      exact ⟨fuel + 1, queue', by simp [collect, inside, found, returned]⟩
    · exact ⟨1, queue, by simp [collect, inside]⟩

/-- One entry for each number above the finalized one up to the best one, in increasing
order, with the hash that the client has for it. -/
def HoldsUnfinalized (client : ChainClient B) (queue : Option (List (BlockInfo B))) : Prop :=
  ∃ infos, queue = some infos ∧ (infos.map BlockInfo.number).Pairwise (· < ·) ∧
    (∀ n, n ∈ infos.map BlockInfo.number ↔ client.finalizedNumber < n ∧ n ≤ client.bestNumber) ∧
    ∀ info ∈ infos, client.blockHashFromId info.number = .ok info.hash

/-- The start of a node: the queue holds the unfinalized chain and the worker begins with
its first block. -/
def StartsUnfinalized (numbering : Numbering B) (client : ChainClient B)
    (state : ConsensusState B) (synchronizer : Synchronizer B) : Prop :=
  ∃ fuel q, new numbering client fuel = some (.ok q) ∧ HoldsUnfinalized client q.queue ∧
    (client.finalizedNumber < client.bestNumber →
      ∃ info, info.number = numbering.addOne client.finalizedNumber ∧
        client.blockHashFromId info.number = .ok info.hash ∧
        (ConsensusWorker.new state client.toClient synchronizer q.queue).processingBlock =
          some info)

theorem holdsUnfinalized_nil_iff (client : ChainClient B) :
    HoldsUnfinalized client (some []) ↔ client.bestNumber ≤ client.finalizedNumber := by
  constructor
  · rintro ⟨infos, same, _, numbers, _⟩
    cases same
    by_contra above
    have member := (numbers client.bestNumber).mpr ⟨not_le.mp above, le_refl _⟩
    simp at member
  · intro finalized
    refine ⟨[], rfl, List.Pairwise.nil, ?_, by simp⟩
    intro n
    simp only [List.map_nil, List.not_mem_nil, false_iff, not_and, not_le]
    exact fun above => lt_of_le_of_lt finalized above

theorem starts_unfinalized_iff (numbering : Numbering B) (client : ChainClient B)
    (lookups : ∀ n, ∃ hash, client.blockHashFromId n = .ok hash) (state : ConsensusState B)
    (synchronizer : Synchronizer B) :
    StartsUnfinalized numbering client state synchronizer ↔
      client.bestNumber ≤ client.finalizedNumber ∧ ¬ IsMax client.bestNumber := by
  constructor
  · rintro ⟨fuel, q, returned, holds, _⟩
    rw [new_queue returned, holdsUnfinalized_nil_iff] at holds
    refine ⟨holds, fun greatest => ?_⟩
    simp [new, collect_isMax lookups greatest] at returned
  · rintro ⟨finalized, bounded⟩
    have returns : ∃ fuel queue, collect numbering client fuel
        (numbering.addOne client.finalizedNumber) [] = some (.ok queue) :=
      collect_returns lookups bounded _ _
    obtain ⟨fuel, queue, returned⟩ := returns
    refine ⟨fuel, ⟨some []⟩, by simp [new, returned], ?_, ?_⟩
    · exact (holdsUnfinalized_nil_iff client).mpr finalized
    · intro above
      exact absurd above (not_lt.mpr finalized)

def naturalNumbering : Numbering symbolic where
  addOne := Nat.succ
  toNat n := n
  toNat_le_iff _ _ := Iff.rfl
  addOne_of_lt _ _ _ := rfl
  addOne_of_isMax m greatest := absurd greatest (not_isMax m)

/-- A client with the blocks up to `best`, of which one is finalized. -/
def restarted (best : Nat) : ChainClient symbolic where
  toClient := { Symbolic.client with finalizedNumber := 1 }
  bestNumber := best
  blockHashFromId n := .ok (if n ≤ best then some (.leaf n) else none)

def restartedState : ConsensusState symbolic :=
  ConsensusState.new (Symbolic.keystore 0) (Symbolic.authorities 1) (by decide)

theorem starts_unfinalized_finalized :
    StartsUnfinalized naturalNumbering (restarted 1) restartedState Symbolic.synchronizer :=
  (starts_unfinalized_iff naturalNumbering (restarted 1) (fun _ => ⟨_, rfl⟩) restartedState
    Symbolic.synchronizer).mpr ⟨le_refl _, not_isMax _⟩

/-- Blocks 2 and 3 wait for finalization when the node starts, and its queue is empty. -/
theorem restarted_queue_empty :
    new naturalNumbering (restarted 3) 3 = some (.ok ⟨some []⟩) ∧
      ¬ StartsUnfinalized naturalNumbering (restarted 3) restartedState Symbolic.synchronizer := by
  constructor
  · decide +kernel
  · rintro ⟨fuel, q, returned, holds, _⟩
    rw [new_queue returned, holdsUnfinalized_nil_iff] at holds
    exact absurd holds (by decide)

end PendingFinalizeBlockQueue

end Hotstuff
