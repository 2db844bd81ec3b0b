import Mathlib.Algebra.Group.Nat.Defs
import Mathlib.Order.Nat
import Hotstuff.Authorities

/-! Blocks on the runtime: what a header announces, the hook that checks it, the calls of the block,
and the ledger of the blocks that do not panic. -/
namespace Hotstuff.Pallet

variable {T : Config}

/-! ### Time -/

/-- `pallet_timestamp`: `T::Moment` has `bits` bits. -/
structure Clock where
  bits : Nat
  minimumPeriod : Fin (2 ^ bits)

/-- `MinimumPeriod::get().saturating_mul(2u32.into())` -/
def Clock.slotDuration (clock : Clock) : Nat :=
  min (2 * clock.minimumPeriod.val) (2 ^ clock.bits - 1)

/-- `Slot::from((moment / slot_duration).saturated_into::<u64>())` -/
def Clock.slotAt (clock : Clock) (moment : Nat) : Slot :=
  UInt64.ofNat (min (moment / clock.slotDuration) (UInt64.size - 1))

/-- A timestamp in the slot, on a clock that has slots at all. -/
def Clock.InSlot (clock : Clock) (slot : Slot) (moment : Fin (2 ^ clock.bits)) : Prop :=
  clock.slotDuration ≠ 0 ∧ clock.slotAt moment.val = slot

instance (clock : Clock) (slot : Slot) (moment : Fin (2 ^ clock.bits)) :
    Decidable (clock.InSlot slot moment) :=
  inferInstanceAs (Decidable (_ ∧ _))

inductive BlockPanic where
  | pallet (panic : Panic)
  /- "Hotstuff slot duration cannot be zero." -/
  | zeroSlotDuration
  /- "Timestamp slot must match `CurrentSlot`" -/
  | slotMismatch
  deriving DecidableEq

variable {clock : Clock}

namespace Storage

def onTimestampSet (s : Storage T) (clock : Clock) (moment : Fin (2 ^ clock.bits)) :
    Except BlockPanic Unit :=
  if clock.slotDuration = 0 then .error .zeroSlotDuration
  else if s.currentSlot = clock.slotAt moment.val then .ok ()
  else .error .slotMismatch

def onDisabled (s : Storage T) (i : UInt32) : Storage T :=
  s.depositLog (.consensus hotstuffEngineId (T.encodeLog (.onDisabled i.toUInt64)))

def isMember (s : Storage T) (id : T.AuthorityId) : Bool := s.authorities.any fun own => own = id

def slotExhausted : String :=
  "Current slot has reached maximum value and cannot be incremented further."

def authorDisabled : String :=
  "Current validator is disabled and should not be attempting to author blocks."

/-- `isDisabled` is what `DisabledValidators` answers. -/
def doTryState (s : Storage T) (isDisabled : UInt32 → Bool) : Except String Unit :=
  let currentSlot := s.currentSlotFromDigests.getD s.currentSlot
  if ¬ T.allowMultipleBlocksPerSlot ∧ ¬ currentSlot < 18446744073709551615 then
    .error slotExhausted
  else
    match s.decodeLen with
    | none => .error "Failed to decode authorities length"
    | some authoritiesLen =>
      if authoritiesLen = 0 then .error "Authorities must be non-empty."
      else if isDisabled (currentSlot % UInt64.ofNat authoritiesLen).toUInt32 then
        .error authorDisabled
      else .ok ()

end Storage

/-! ### Blocks -/

/-- The calls into the pallet while a block is executed. -/
inductive Op (T : Config) (clock : Clock) where
  | onNewSession (changed : Bool) (validators queued : List (T.AccountId × T.AuthorityId))
  | onDisabled (index : UInt32)
  | onTimestampSet (moment : Fin (2 ^ clock.bits))

/-- A block: its header, what `DisabledValidators` answers in it, and the calls other pallets make
before and after the hook of this one. -/
structure Block (T : Config) (clock : Clock) where
  header : List DigestItem
  isDisabled : UInt32 → Bool
  before : List (Op T clock)
  after : List (Op T clock)

namespace Storage

def apply (s : Storage T) : Op T clock → Except BlockPanic (Storage T)
  | .onNewSession changed validators queued => .ok (s.onNewSession changed validators queued)
  | .onDisabled index => .ok (s.onDisabled index)
  | .onTimestampSet moment => (s.onTimestampSet clock moment).map fun _ => s

def applyAll (s : Storage T) : List (Op T clock) → Except BlockPanic (Storage T)
  | [] => .ok s
  | op :: rest =>
    match s.apply op with
    | .error e => .error e
    | .ok s' => s'.applyAll rest

/-- A block starts with the pre-runtime items of its header, the others are deposited again. -/
def extractPreDigest (header : List DigestItem) : List DigestItem :=
  header.filter fun item => item.asPreRuntime.isSome

/-- A block up to the end of `on_initialize`. -/
def enter (s : Storage T) (b : Block T clock) : Except BlockPanic (Storage T) :=
  match { s with digest := extractPreDigest b.header }.applyAll b.before with
  | .error e => .error e
  | .ok s' => ((s'.onInitialize b.isDisabled).mapError .pallet).map Prod.fst

def execute (s : Storage T) (b : Block T clock) : Except BlockPanic (Storage T) :=
  match s.enter b with
  | .error e => .error e
  | .ok s' => s'.applyAll b.after

end Storage

/-- The storage after the accepted blocks, and the digests of their headers. -/
structure Ledger (T : Config) where
  storage : Storage T
  headers : List (List DigestItem)

namespace Ledger

def importBlock (l : Ledger T) (b : Block T clock) : Ledger T :=
  match l.storage.execute b with
  | .error _ => l
  | .ok s => ⟨s, l.headers ++ [s.digest]⟩

def run (l : Ledger T) (blocks : List (Block T clock)) : Ledger T := Runs.run importBlock l blocks

/-- The slots that the headers announce. -/
def slots (l : Ledger T) : List Slot :=
  l.headers.filterMap fun digest =>
    Storage.slotFrom (T := T) (digest.filterMap DigestItem.asPreRuntime)

end Ledger

/-! ### What a block can do -/

/-- How a new slot stands to the current one. -/
def Later (T : Config) (current new : Slot) : Prop :=
  if T.allowMultipleBlocksPerSlot then current ≤ new else current < new

instance (current new : Slot) : Decidable (Later T current new) :=
  inferInstanceAs
    (Decidable (if T.allowMultipleBlocksPerSlot then current ≤ new else current < new))

namespace Storage

theorem checkSlot_ok (current new : Slot) :
    checkSlot T current new = .ok () ↔ Later T current new := by
  unfold checkSlot Later
  split <;> split <;> simp_all

/-- What the calls of other pallets keep. -/
structure Beside (s s' : Storage T) : Prop where
  slot : s'.currentSlotValue = s.currentSlotValue
  preRuntime : s'.preRuntime = s.preRuntime
  filled : s.authorities ≠ [] → s'.authorities ≠ []

theorem Beside.refl (s : Storage T) : Beside s s := ⟨rfl, rfl, id⟩

theorem Beside.trans {s s' s'' : Storage T} (first : Beside s s') (second : Beside s' s'') :
    Beside s s'' :=
  ⟨second.slot.trans first.slot, second.preRuntime.trans first.preRuntime,
    second.filled ∘ first.filled⟩

theorem preRuntime_depositLog (s : Storage T) (id : ConsensusEngineId) (data : List UInt8) :
    (s.depositLog (.consensus id data)).preRuntime = s.preRuntime := by
  simp [depositLog, preRuntime, DigestItem.asPreRuntime]

theorem onNewSession_beside (s : Storage T) (changed : Bool)
    (validators queued : List (T.AccountId × T.AuthorityId)) :
    Beside s (s.onNewSession changed validators queued) := by
  rcases s.onNewSession_cases changed validators queued with ⟨same, _⟩ | ⟨put, _, _, filled⟩
  · rw [same]
    exact .refl s
  · rw [put]
    exact ⟨rfl, preRuntime_depositLog _ _ _, fun _ => filled⟩

/-- What a call writes, if it does not panic; the timestamp is only compared. -/
def write (s : Storage T) : Op T clock → Storage T
  | .onNewSession changed validators queued => s.onNewSession changed validators queued
  | .onDisabled index => s.onDisabled index
  | .onTimestampSet _ => s

def writes (s : Storage T) (ops : List (Op T clock)) : Storage T := ops.foldl write s

theorem write_beside (s : Storage T) (op : Op T clock) : Beside s (s.write op) := by
  cases op with
  | onNewSession changed validators queued => exact s.onNewSession_beside changed validators queued
  | onDisabled index => exact ⟨rfl, preRuntime_depositLog _ _ _, id⟩
  | onTimestampSet moment => exact .refl s

theorem writes_beside (s : Storage T) (ops : List (Op T clock)) : Beside s (s.writes ops) := by
  induction ops generalizing s with
  | nil => exact .refl s
  | cons op rest ih => exact (s.write_beside op).trans (ih (s.write op))

theorem Beside.currentSlot {s s' : Storage T} (beside : Beside s s') :
    s'.currentSlot = s.currentSlot := by
  rw [Storage.currentSlot, beside.slot, Storage.currentSlot]

theorem apply_ok_iff (s s' : Storage T) (op : Op T clock) : s.apply op = .ok s' ↔
    (∀ moment, op = .onTimestampSet moment → clock.InSlot s.currentSlot moment) ∧
      s' = s.write op := by
  cases op with
  | onNewSession changed validators queued => simp [apply, write, eq_comm]
  | onDisabled index => simp [apply, write, eq_comm]
  | onTimestampSet moment =>
    simp only [apply, onTimestampSet, write, Clock.InSlot, Op.onTimestampSet.injEq, forall_eq']
    by_cases zero : clock.slotDuration = 0
    · simp [zero, Except.map]
    · by_cases inside : s.currentSlot = clock.slotAt moment.val
      · simp [zero, inside, Except.map, eq_comm]
      · simp [zero, inside, Except.map, Ne.symm inside]

theorem applyAll_ok_iff (s s' : Storage T) (ops : List (Op T clock)) : s.applyAll ops = .ok s' ↔
    (∀ moment, .onTimestampSet moment ∈ ops → clock.InSlot s.currentSlot moment) ∧
      s' = s.writes ops := by
  induction ops generalizing s with
  | nil => simp [applyAll, writes, eq_comm]
  | cons op rest ih =>
    have first : s.applyAll (op :: rest) = .ok s' ↔
        ∃ middle, s.apply op = .ok middle ∧ middle.applyAll rest = .ok s' := by
      rw [applyAll]
      cases s.apply op <;> simp
    rw [first]
    simp only [apply_ok_iff, ih, List.mem_cons, or_imp, forall_and]
    constructor
    · rintro ⟨_, ⟨now, rfl⟩, later, rfl⟩
      rw [(s.write_beside op).currentSlot] at later
      exact ⟨⟨fun moment same => now moment same.symm, later⟩, rfl⟩
    · rintro ⟨⟨now, later⟩, rfl⟩
      refine ⟨_, ⟨fun moment same => now moment same.symm, rfl⟩, ?_, rfl⟩
      rw [(s.write_beside op).currentSlot]
      exact later

/-- The two ways through `on_initialize`. -/
theorem onInitialize_ok {s s' : Storage T} {isDisabled : UInt32 → Bool} {w : T.Weight}
    (accepted : s.onInitialize isDisabled = .ok (s', w)) :
    s.currentSlotFromDigests = none ∧ s' = s ∨
      ∃ slot, s.currentSlotFromDigests = some slot ∧ Later T s.currentSlot slot ∧
        s' = { s with currentSlotValue := some slot } ∧
        s'.checkAuthor isDisabled slot = .ok () := by
  unfold onInitialize at accepted
  split at accepted
  · rename_i silent
    cases accepted
    exact .inl ⟨silent, rfl⟩
  · rename_i slot announced
    split at accepted
    · cases accepted
    · rename_i later
      dsimp only at accepted
      split at accepted
      · cases accepted
      · rename_i enabled
        cases accepted
        exact .inr ⟨slot, announced, (checkSlot_ok _ _).mp later, rfl, enabled⟩

theorem preRuntime_extracted (s : Storage T) (header : List DigestItem) :
    ({ s with digest := extractPreDigest header } : Storage T).preRuntime =
      header.filterMap DigestItem.asPreRuntime := by
  rw [preRuntime, extractPreDigest, List.filterMap_filter]
  congr 1
  funext item
  cases item <;> rfl

/-- The slot a header announces. -/
def headerSlot (T : Config) (header : List DigestItem) : Option Slot :=
  slotFrom (T := T) (header.filterMap DigestItem.asPreRuntime)

/-- What is established when a block has been entered or executed. -/
structure Entered (s : Storage T) (b : Block T clock) (s' : Storage T) : Prop where
  preRuntime : s'.preRuntime = b.header.filterMap DigestItem.asPreRuntime
  filled : s.authorities ≠ [] → s'.authorities ≠ []
  slot : headerSlot T b.header = none ∧ s'.currentSlotValue = s.currentSlotValue ∨
    ∃ slot, headerSlot T b.header = some slot ∧ Later T s.currentSlot slot ∧
      s'.currentSlotValue = some slot

theorem Entered.beside {s s' s'' : Storage T} {b : Block T clock} (entered : Entered s b s')
    (beside : Beside s' s'') : Entered s b s'' :=
  ⟨beside.preRuntime.trans entered.preRuntime, beside.filled ∘ entered.filled,
    by rw [beside.slot]; exact entered.slot⟩

/-- The storage that the hook of a block finds. -/
def atHook (s : Storage T) (b : Block T clock) : Storage T :=
  { s with digest := extractPreDigest b.header }.writes b.before

theorem atHook_beside (s : Storage T) (b : Block T clock) :
    Beside { s with digest := extractPreDigest b.header } (s.atHook b) :=
  writes_beside _ b.before

theorem atHook_slot (s : Storage T) (b : Block T clock) :
    (s.atHook b).currentSlotFromDigests = headerSlot T b.header := by
  rw [currentSlotFromDigests, (s.atHook_beside b).preRuntime, preRuntime_extracted, headerSlot]

theorem enter_iff (s middle : Storage T) (b : Block T clock) : s.enter b = .ok middle ↔
    (∀ moment, .onTimestampSet moment ∈ b.before → clock.InSlot s.currentSlot moment) ∧
      ∃ w, (s.atHook b).onInitialize b.isDisabled = .ok (middle, w) := by
  have steps : s.enter b = .ok middle ↔ ∃ found,
      { s with digest := extractPreDigest b.header }.applyAll b.before = .ok found ∧
        ∃ w, found.onInitialize b.isDisabled = .ok (middle, w) := by
    rw [enter]
    cases { s with digest := extractPreDigest b.header }.applyAll b.before with
    | error e => simp
    | ok found =>
      cases initialized : found.onInitialize b.isDisabled <;>
        simp [initialized, Except.mapError, Except.map, Prod.ext_iff]
  rw [steps]
  constructor
  · rintro ⟨found, applied, initialized⟩
    obtain ⟨inside, rfl⟩ := (applyAll_ok_iff _ _ _).mp applied
    exact ⟨inside, initialized⟩
  · rintro ⟨inside, initialized⟩
    exact ⟨_, (applyAll_ok_iff _ _ _).mpr ⟨inside, rfl⟩, initialized⟩

/-- A block goes through if no call before the hook panics, nor the hook, nor a call after it. -/
theorem execute_iff (s s' : Storage T) (b : Block T clock) : s.execute b = .ok s' ↔
    (∀ moment, .onTimestampSet moment ∈ b.before → clock.InSlot s.currentSlot moment) ∧
      ∃ middle w, (s.atHook b).onInitialize b.isDisabled = .ok (middle, w) ∧
        (∀ moment, .onTimestampSet moment ∈ b.after → clock.InSlot middle.currentSlot moment) ∧
        s' = middle.writes b.after := by
  have steps : s.execute b = .ok s' ↔
      ∃ middle, s.enter b = .ok middle ∧ middle.applyAll b.after = .ok s' := by
    rw [execute]
    cases s.enter b <;> simp
  rw [steps]
  simp only [enter_iff, applyAll_ok_iff]
  constructor
  · rintro ⟨middle, ⟨inside, w, initialized⟩, after, rfl⟩
    exact ⟨inside, middle, w, initialized, after, rfl⟩
  · rintro ⟨inside, middle, w, initialized, after, rfl⟩
    exact ⟨middle, ⟨inside, w, initialized⟩, after, rfl⟩

theorem execute_ok {s s' : Storage T} {b : Block T clock} (accepted : s.execute b = .ok s') :
    Entered s b s' := by
  obtain ⟨_, middle, w, initialized, _, rfl⟩ := (execute_iff s s' b).mp accepted
  have beside := s.atHook_beside b
  have runtime := beside.preRuntime.trans (preRuntime_extracted s b.header)
  refine Entered.beside ?_ (middle.writes_beside b.after)
  rcases onInitialize_ok initialized with ⟨silent, rfl⟩ | ⟨slot, announced, later, rfl, _⟩
  · exact ⟨runtime, beside.filled, .inl ⟨s.atHook_slot b ▸ silent, beside.slot⟩⟩
  · refine ⟨runtime, beside.filled, .inr ⟨slot, s.atHook_slot b ▸ announced, ?_, rfl⟩⟩
    rw [beside.currentSlot] at later
    exact later

end Storage

namespace Ledger

variable {l : Ledger T}

theorem importBlock_error {b : Block T clock} {e : BlockPanic}
    (refused : l.storage.execute b = .error e) : l.importBlock b = l := by
  simp only [importBlock, refused]

theorem importBlock_ok {b : Block T clock} {s : Storage T}
    (accepted : l.storage.execute b = .ok s) :
    l.importBlock b = ⟨s, l.headers ++ [s.digest]⟩ := by
  simp only [importBlock, accepted]

/-- What the accepted blocks keep holds of every chain. -/
theorem run_invariant {P : Ledger T → Prop} (start : P l)
    (keep : ∀ (l : Ledger T) (b : Block T clock) (s : Storage T), P l →
      l.storage.execute b = .ok s → P ⟨s, l.headers ++ [s.digest]⟩)
    (blocks : List (Block T clock)) : P (l.run blocks) := by
  refine Runs.invariant importBlock (fun l b holds => ?_) start blocks
  cases executed : l.storage.execute b with
  | error e => rwa [importBlock_error executed]
  | ok s =>
    rw [importBlock_ok executed]
    exact keep l b s holds executed

/-- The ledger of a chain whose genesis names these authorities. -/
structure Genesis (authorities : List T.AuthorityId) (l : Ledger T) : Prop where
  built : (Storage.genesis : Storage T).initializeAuthorities authorities = .ok l.storage
  headers : l.headers = []

theorem Genesis.storage {authorities : List T.AuthorityId} (genesis : Genesis authorities l) :
    l.storage.currentSlotValue = none ∧ l.storage.digest = [] ∧
      l.storage.authorities = authorities := by
  have built := genesis.built
  unfold Storage.initializeAuthorities at built
  split at built
  · rename_i empty
    rw [← Except.ok.inj built]
    exact ⟨rfl, rfl, (List.isEmpty_iff.mp empty).symm⟩
  · split at built
    · cases built
    · split at built
      · rw [← Except.ok.inj built]
        exact ⟨rfl, rfl, rfl⟩
      · cases built

theorem run_filled (filled : l.storage.authorities ≠ []) (blocks : List (Block T clock)) :
    (l.run blocks).storage.authorities ≠ [] :=
  run_invariant filled
    (fun _ _ _ filled executed => (Storage.execute_ok executed).filled filled) blocks

end Ledger

end Hotstuff.Pallet
