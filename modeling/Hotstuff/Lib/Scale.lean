import Mathlib.Data.List.Basic
import Mathlib.Tactic.Ring

/-! Binary formats that are read from the front of the input, in the manner of SCALE. A format
carries the one law everything else follows from: what it writes it reads back, with anything
behind it. -/
namespace Scale

variable {α β : Type}

structure Format (α : Type) where
  /-- What can be written; a longer list than its length field can count cannot. -/
  Fits : α → Prop
  encode : α → List UInt8
  decode : List UInt8 → Option (α × List UInt8)
  decode_encode : ∀ {a}, Fits a → ∀ rest, decode (encode a ++ rest) = some (a, rest)

namespace Format

/-! ### Building formats -/

/-- Another view of the same values. -/
def via (f : Format α) (into : β → α) (back : α → β) (left : ∀ b, back (into b) = b) :
    Format β where
  Fits b := f.Fits (into b)
  encode b := f.encode (into b)
  decode data := (f.decode data).map fun x => (back x.1, x.2)
  decode_encode fits rest := by
    rw [f.decode_encode fits, Option.map_some, left]

def unit : Format Unit where
  Fits _ := True
  encode _ := []
  decode data := some ((), data)
  decode_encode _ _ := rfl

def pair (f : Format α) (g : Format β) : Format (α × β) where
  Fits x := f.Fits x.1 ∧ g.Fits x.2
  encode x := f.encode x.1 ++ g.encode x.2
  decode data :=
    match f.decode data with
    | none => none
    | some (a, rest) => (g.decode rest).map fun x => ((a, x.1), x.2)
  decode_encode fits rest := by
    rw [List.append_assoc, f.decode_encode fits.1]
    dsimp only
    rw [g.decode_encode fits.2, Option.map_some]

/-- A tag byte says which format follows. -/
def variant {ι : Type} {F : ι → Type} (tag : ι → UInt8) (untag : UInt8 → Option ι)
    (known : ∀ i, untag (tag i) = some i) (formats : ∀ i, Format (F i)) : Format (Sigma F) where
  Fits x := (formats x.1).Fits x.2
  encode x := tag x.1 :: (formats x.1).encode x.2
  decode
    | [] => none
    | b :: data =>
      match untag b with
      | none => none
      | some i => ((formats i).decode data).map fun x => (⟨i, x.1⟩, x.2)
  decode_encode fits rest := by
    rw [List.cons_append]
    dsimp only
    rw [known]
    dsimp only
    rw [(formats _).decode_encode fits, Option.map_some]

/-! ### Numbers -/

def littleBytes : Nat → Nat → List UInt8
  | 0, _ => []
  | k + 1, n => UInt8.ofNat n :: littleBytes k (n / 256)

def readLittle : Nat → List UInt8 → Option (Nat × List UInt8)
  | 0, data => some (0, data)
  | _ + 1, [] => none
  | k + 1, b :: data => (readLittle k data).map fun x => (b.toNat + 256 * x.1, x.2)

theorem readLittle_littleBytes {k n : Nat} (small : n < 256 ^ k) (rest : List UInt8) :
    readLittle k (littleBytes k n ++ rest) = some (n, rest) := by
  induction k generalizing n with
  | zero =>
    have zero : n = 0 := by simpa using small
    rw [zero]
    rfl
  | succ k ih =>
    have less : n / 256 < 256 ^ k := by
      rw [pow_succ] at small
      omega
    have value : (UInt8.ofNat n).toNat + 256 * (n / 256) = n := by
      rw [UInt8.toNat_ofNat']
      omega
    rw [littleBytes, List.cons_append, readLittle, ih less, Option.map_some, value]

/-- Little-endian numbers of `k` bytes. -/
def little (k : Nat) : Format Nat where
  Fits n := n < 256 ^ k
  encode := littleBytes k
  decode := readLittle k
  decode_encode := readLittle_littleBytes

@[simp] theorem length_littleBytes (k n : Nat) : (littleBytes k n).length = k := by
  induction k generalizing n with
  | zero => rfl
  | succ k ih => simp [littleBytes, ih]

def u8 : Format UInt8 :=
  (little 1).via UInt8.toNat UInt8.ofNat fun b => by simp

def u64 : Format UInt64 :=
  (little 8).via UInt64.toNat UInt64.ofNat fun v => by simp

theorem u64_fits (v : UInt64) : u64.Fits v := v.toNat_lt

/-- Lengths: two bits of the first byte say how many bytes there are. -/
def compactBytes (n : Nat) : List UInt8 :=
  if n < 2 ^ 6 then littleBytes 1 (4 * n)
  else if n < 2 ^ 14 then littleBytes 2 (4 * n + 1)
  else if n < 2 ^ 30 then littleBytes 4 (4 * n + 2)
  else 3 :: littleBytes 4 n

/-- A number that could have been written in fewer bytes is refused. -/
def atLeast (low : Nat) (x : Nat × List UInt8) : Option (Nat × List UInt8) :=
  if low ≤ x.1 then some x else none

def readCompact : List UInt8 → Option (Nat × List UInt8)
  | [] => none
  | b :: data =>
    match b.toNat % 4 with
    | 0 => some (b.toNat / 4, data)
    | 1 => (readLittle 2 (b :: data)).bind fun x => atLeast (2 ^ 6) (x.1 / 4, x.2)
    | 2 => (readLittle 4 (b :: data)).bind fun x => atLeast (2 ^ 14) (x.1 / 4, x.2)
    | _ => if b.toNat / 4 = 0 then (readLittle 4 data).bind (atLeast (2 ^ 30)) else none

theorem toNat_mode (n : Nat) {m : Nat} (mode : m < 4) :
    (UInt8.ofNat (4 * n + m)).toNat % 4 = m := by
  rw [UInt8.toNat_ofNat']
  omega

/-- A number in `k` bytes behind a mode `m`, read back. -/
theorem readMode {k m low n : Nat} (mode : m < 4) (enough : low ≤ n)
    (small : 4 * n + m < 256 ^ k) (rest : List UInt8) :
    ((readLittle k (littleBytes k (4 * n + m) ++ rest)).bind fun x => atLeast low (x.1 / 4, x.2)) =
      some (n, rest) := by
  have four : (4 * n + m) / 4 = n := by omega
  rw [readLittle_littleBytes small, Option.bind_some, four, atLeast, if_pos enough]

theorem readCompact_compactBytes {n : Nat} (small : n < 2 ^ 32) (rest : List UInt8) :
    readCompact (compactBytes n ++ rest) = some (n, rest) := by
  unfold compactBytes
  split_ifs with six fourteen thirty
  · have mode : (UInt8.ofNat (4 * n)).toNat % 4 = 0 := toNat_mode n (Nat.zero_lt_succ 3)
    have value : (UInt8.ofNat (4 * n)).toNat / 4 = n := by
      rw [UInt8.toNat_ofNat']
      omega
    simp only [littleBytes, List.cons_append, List.nil_append, readCompact, mode, value]
  · have read := readMode (k := 2) (m := 1) (by omega) (Nat.le_of_not_lt six) (by omega) rest
    have mode := toNat_mode n (m := 1) (by omega)
    simp only [littleBytes, List.cons_append, readCompact, mode] at read ⊢
    exact read
  · have read := readMode (k := 4) (m := 2) (by omega) (Nat.le_of_not_lt fourteen) (by omega) rest
    have mode := toNat_mode n (m := 2) (by omega)
    simp only [littleBytes, List.cons_append, readCompact, mode] at read ⊢
    exact read
  · have read := readLittle_littleBytes (k := 4) small rest
    change (readLittle 4 (littleBytes 4 n ++ rest)).bind (atLeast (2 ^ 30)) = _
    rw [read, Option.bind_some, atLeast, if_pos (Nat.le_of_not_lt thirty)]

theorem length_compactBytes_le (n : Nat) : (compactBytes n).length ≤ 5 := by
  unfold compactBytes
  split_ifs <;> simp

/-! ### Lists and options -/

def readMany (f : Format α) : Nat → List UInt8 → Option (List α × List UInt8)
  | 0, data => some ([], data)
  | k + 1, data =>
    match f.decode data with
    | none => none
    | some (a, rest) => (readMany f k rest).map fun x => (a :: x.1, x.2)

theorem readMany_flatMap (f : Format α) {items : List α} (all : ∀ a ∈ items, f.Fits a)
    (rest : List UInt8) :
    readMany f items.length (items.flatMap f.encode ++ rest) = some (items, rest) := by
  induction items with
  | nil => rfl
  | cons a items ih =>
    obtain ⟨fits, others⟩ := List.forall_mem_cons.mp all
    rw [List.length_cons, readMany, List.flatMap_cons, List.append_assoc, f.decode_encode fits]
    dsimp only
    rw [ih others, Option.map_some]

/-- A list behind its length. -/
def vec (f : Format α) : Format (List α) where
  Fits items := items.length < 2 ^ 32 ∧ ∀ a ∈ items, f.Fits a
  encode items := compactBytes items.length ++ items.flatMap f.encode
  decode data := (readCompact data).bind fun x => readMany f x.1 x.2
  decode_encode fits rest := by
    rw [List.append_assoc, readCompact_compactBytes fits.1]
    exact readMany_flatMap f fits.2 rest

def option (f : Format α) : Format (Option α) where
  Fits x := ∀ a ∈ x, f.Fits a
  encode
    | none => [0]
    | some a => 1 :: f.encode a
  decode
    | [] => none
    | b :: data =>
      if b = 0 then some (none, data)
      else if b = 1 then (f.decode data).map fun x => (some x.1, x.2)
      else none
  decode_encode {x} fits rest := by
    cases x with
    | none => rfl
    | some a =>
      change (f.decode (f.encode a ++ rest)).map _ = _
      rw [f.decode_encode (fits a rfl), Option.map_some]

/-! ### Sizes -/

/-- A bound on the bytes a value takes, made up along the format. -/
def Within (f : Format α) (size : α → Nat) : Prop := ∀ a, (f.encode a).length ≤ size a

namespace Within

variable {f : Format α} {g : Format β} {size : α → Nat} {size' : β → Nat}

theorem mono {size size' : α → Nat} (within : f.Within size) (le : ∀ a, size a ≤ size' a) :
    f.Within size' :=
  fun a => Nat.le_trans (within a) (le a)

theorem unit : Format.unit.Within fun _ => 0 := fun _ => Nat.le_refl 0

theorem u64 : Format.u64.Within fun _ => 8 :=
  fun v => Nat.le_of_eq (length_littleBytes 8 v.toNat)

theorem via {into : β → α} {back : α → β} {left : ∀ b, back (into b) = b}
    (within : f.Within size) : (f.via into back left).Within fun b => size (into b) :=
  fun b => within (into b)

theorem pair (within : f.Within size) (within' : g.Within size') :
    (f.pair g).Within fun x => size x.1 + size' x.2 := by
  intro x
  change (f.encode x.1 ++ g.encode x.2).length ≤ _
  rw [List.length_append]
  exact Nat.add_le_add (within x.1) (within' x.2)

theorem variant {ι : Type} {F : ι → Type} {tag : ι → UInt8} {untag : UInt8 → Option ι}
    {known : ∀ i, untag (tag i) = some i} {formats : ∀ i, Format (F i)} {size : ∀ i, F i → Nat}
    (within : ∀ i, (formats i).Within (size i)) :
    (Format.variant tag untag known formats).Within fun x => size x.1 x.2 + 1 :=
  fun x => Nat.succ_le_succ (within x.1 x.2)

theorem option (within : f.Within size) : f.option.Within fun x => x.elim 0 size + 1 := by
  intro x
  cases x with
  | none => exact Nat.le_refl 1
  | some a => exact Nat.succ_le_succ (within a)

theorem vec {width : Nat} (within : f.Within fun _ => width) :
    (Format.vec f).Within fun items => 5 + width * items.length := by
  intro items
  have all : (items.flatMap f.encode).length ≤ width * items.length := by
    induction items with
    | nil => simp
    | cons a items ih =>
      have first : (f.encode a).length ≤ width := within a
      rw [List.flatMap_cons, List.length_append, List.length_cons, Nat.mul_succ]
      omega
  have counted := length_compactBytes_le items.length
  change (compactBytes items.length ++ items.flatMap f.encode).length ≤ 5 + width * items.length
  rw [List.length_append]
  omega

end Within

end Format

end Scale
