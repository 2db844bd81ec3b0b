import Hotstuff.Blocks

/-! The consensus logs in the headers as a record of the authorities. -/
namespace Hotstuff.Pallet

open Scale

variable {T : Config} {clock : Clock}

/-! ### Slots -/

/-- The runtime's codec of slots is that of a `u64`. -/
def Config.DecodesSlots (T : Config) : Prop :=
  ∀ data, T.decodeSlot data = (Format.u64.decode data).map Prod.fst

/-- `hotstuff_pre_digest` -/
def hotstuffPreDigest (slot : Slot) : DigestItem :=
  .preRuntime hotstuffEngineId (Format.u64.encode slot)

theorem scaleRuntime_decodesSlots : scaleRuntime.DecodesSlots := fun _ => rfl

/-- The genesis of the runtime above, with the authorities 1 and 2. -/
def scaleLedger : Ledger scaleRuntime := ⟨⟨some ⟨[1, 2], by decide⟩, none, []⟩, []⟩

theorem scaleLedger_genesis : Ledger.Genesis (T := scaleRuntime) [1, 2] scaleLedger := ⟨rfl, rfl⟩

/-- Slots of six seconds. -/
def seconds : Clock := ⟨64, 3000⟩

/-! ### The record in the headers -/

/-- What a reader of the digests makes of an item. -/
def replay (id : Format T.AuthorityId) (known : List T.AuthorityId) :
    DigestItem → List T.AuthorityId
  | .consensus engine data =>
    if engine = hotstuffEngineId then
      match (consensusLog id).decode data with
      | some (.authoritiesChange new, _) => new
      | _ => known
    else known
  | _ => known

namespace Storage

/-- Starting from `known`, the digest of the block leads to the stored authorities. -/
def Replayed (id : Format T.AuthorityId) (known : List T.AuthorityId) (s : Storage T) : Prop :=
  s.digest.foldl (replay id) known = s.authorities

variable {id : Format T.AuthorityId} {known : List T.AuthorityId} {s s' : Storage T}

theorem replay_authoritiesLog (encodes : T.encodeLog = (consensusLog id).encode)
    (fits : ∀ a, id.Fits a) (new : BoundedVec T) :
    replay id known (authoritiesLog new.val) = new.val := by
  have small : new.val.length < 2 ^ 32 := Nat.lt_of_le_of_lt new.property T.maxAuthorities.toNat_lt
  have fit : (consensusLog id).Fits (.authoritiesChange new.val) := ⟨small, fun a _ => fits a⟩
  have read := (consensusLog id).decode_encode fit []
  rw [List.append_nil] at read
  simp only [authoritiesLog, replay, if_true, encodes, read]

theorem replay_onDisabled (encodes : T.encodeLog = (consensusLog id).encode) (index : UInt64) :
    replay id known (.consensus hotstuffEngineId (T.encodeLog (.onDisabled index))) = known := by
  have fit : (consensusLog id).Fits (.onDisabled index) := Format.u64_fits index
  have read := (consensusLog id).decode_encode fit []
  rw [List.append_nil] at read
  simp only [replay, if_true, encodes, read]

theorem Replayed.write (encodes : T.encodeLog = (consensusLog id).encode) (fits : ∀ a, id.Fits a)
    (replayed : Replayed id known s) (op : Op T clock) : Replayed id known (s.write op) := by
  cases op with
  | onNewSession changed validators queued =>
    simp only [Storage.write]
    rcases s.onNewSession_cases changed validators queued with ⟨same, _⟩ | ⟨put, _⟩
    · rw [same]
      exact replayed
    · rw [put, Replayed, depositLog, List.foldl_append]
      exact replay_authoritiesLog encodes fits _
  | onDisabled index =>
    rw [Storage.write, Replayed, onDisabled, depositLog, List.foldl_append]
    exact (replay_onDisabled encodes _).trans replayed
  | onTimestampSet moment => exact replayed

theorem Replayed.writes (encodes : T.encodeLog = (consensusLog id).encode)
    (fits : ∀ a, id.Fits a) {s : Storage T} (replayed : Replayed id known s)
    (ops : List (Op T clock)) : Replayed id known (s.writes ops) := by
  induction ops generalizing s with
  | nil => exact replayed
  | cons op rest ih => exact ih (replayed.write encodes fits op)

theorem replay_preRuntime {items : List DigestItem}
    (runtime : ∀ item ∈ items, item.asPreRuntime.isSome = true) :
    items.foldl (replay id) known = known := by
  induction items with
  | nil => rfl
  | cons item items ih =>
    obtain ⟨first, others⟩ := List.forall_mem_cons.mp runtime
    cases item with
    | preRuntime => exact ih others
    | _ => cases first

theorem Replayed.execute (encodes : T.encodeLog = (consensusLog id).encode)
    (fits : ∀ a, id.Fits a) {b : Block T clock} (executed : s.execute b = .ok s') :
    Replayed id s.authorities s' := by
  obtain ⟨_, middle, w, initialized, _, rfl⟩ := (execute_iff s s' b).mp executed
  have start : Replayed id s.authorities { s with digest := extractPreDigest b.header } :=
    replay_preRuntime fun item member => (List.mem_filter.mp member).2
  have hook : Replayed id s.authorities (s.atHook b) := start.writes encodes fits b.before
  obtain ⟨same, digest⟩ := onInitialize_authorities initialized
  have lists : middle.authorities = (s.atHook b).authorities := by
    rw [authorities, authorities, same]
  refine Replayed.writes encodes fits ?_ b.after
  rw [Replayed, digest, lists]
  exact hook

end Storage

/-- The headers are a full record of the authorities: reading the changes in them, from the genesis
list on, gives the stored authorities after every chain of blocks, truncated lists and logs of
disabled authorities included, and `is_member` asks for nothing else. -/
theorem authorities_replayed (id : Format T.AuthorityId)
    (encodes : T.encodeLog = (consensusLog id).encode) (fits : ∀ a, id.Fits a)
    (authorities : List T.AuthorityId) (l : Ledger T) (genesis : l.Genesis authorities)
    (blocks : List (Block T clock)) :
    let known := (l.run blocks).headers.foldl (fun known digest => digest.foldl (replay id) known)
      authorities
    (l.run blocks).storage.authorities = known ∧
      ∀ a, (l.run blocks).storage.isMember a = true ↔ a ∈ known := by
  intro known
  have record : (l.run blocks).storage.authorities = known := by
    refine Ledger.run_invariant (P := fun l => l.storage.authorities =
      l.headers.foldl (fun known digest => digest.foldl (replay id) known) authorities) ?_ ?_ blocks
    · rw [genesis.headers, genesis.storage.2.2]
      rfl
    · intro l' b s sofar executed
      rw [List.foldl_append, List.foldl_cons, List.foldl_nil, ← sofar]
      exact (Storage.Replayed.execute encodes fits executed).symm
  refine ⟨record, fun a => ?_⟩
  rw [← record, Storage.isMember, List.any_eq_true]
  simp

/- A new session with three keys, of which two are kept, after a log that is none of its kind. -/
theorem authorities_replayed_session :
    let b : Block scaleRuntime seconds := ⟨[], fun _ => false, [],
      [.onDisabled 1, .onNewSession true [(0, 7), (0, 8), (0, 9)] []]⟩
    (scaleLedger.run [b]).headers.length = 1 ∧
      (scaleLedger.run [b]).storage.authorities = [7, 8] ∧
      (scaleLedger.run [b]).storage.isMember 9 = false := by
  intro b
  obtain ⟨list, member⟩ := authorities_replayed (T := scaleRuntime) Format.u8 rfl
    (fun a => a.toNat_lt) [1, 2] scaleLedger scaleLedger_genesis [b]
  have known : (scaleLedger.run [b]).headers.foldl (fun known digest =>
      digest.foldl (replay (T := scaleRuntime) Format.u8) known) [1, 2] = [7, 8] := by
    decide +kernel
  refine ⟨by decide +kernel, list.trans known, Bool.eq_false_iff.mpr fun claimed => ?_⟩
  have inside := (member 9).mp claimed
  rw [known] at inside
  revert inside
  decide

end Hotstuff.Pallet
