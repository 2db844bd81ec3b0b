import Mathlib.Logic.Function.Basic

/-! Terms of a free algebra as an ideal hash domain, with codecs of data into terms. -/
namespace Terms

inductive Term where
  | leaf (n : Nat)
  | pair (first second : Term)
  deriving DecidableEq

namespace Term

/-- The digest of a list of terms keeps all of it. -/
def digest : List Term → Term
  | [] => leaf 1
  | t :: rest => pair t (digest rest)

theorem digest_injective : Function.Injective digest := by
  intro xs
  induction xs with
  | nil =>
    intro ys same
    cases ys with
    | nil => rfl
    | cons => cases same
  | cons x xs ih =>
    intro ys same
    cases ys with
    | nil => cases same
    | cons y ys =>
      obtain ⟨rfl, rest⟩ := Term.pair.inj same
      rw [ih rest]

theorem digest_ne_leaf_zero (xs : List Term) : digest xs ≠ leaf 0 := by
  cases xs <;> nofun

end Term

/-- An encoding together with the decoder that inverts it. -/
structure Codec (α : Type) where
  encode : α → Term
  decode : Term → Option α
  inverse : ∀ a, decode (encode a) = some a

namespace Codec

variable {α β : Type}

def term : Codec Term := ⟨id, some, fun _ => rfl⟩

def nat : Codec Nat where
  encode := .leaf
  decode
    | .leaf n => some n
    | .pair _ _ => none
  inverse _ := rfl

def prod (a : Codec α) (b : Codec β) : Codec (α × β) where
  encode x := .pair (a.encode x.1) (b.encode x.2)
  decode
    | .leaf _ => none
    | .pair s t => (a.decode s).bind fun x => (b.decode t).map fun y => (x, y)
  inverse x := by simp [a.inverse, b.inverse]

def option (a : Codec α) : Codec (Option α) where
  encode x := x.elim (.leaf 0) fun x => .pair (.leaf 0) (a.encode x)
  decode
    | .leaf _ => some none
    | .pair _ t => (a.decode t).map some
  inverse x := by cases x <;> simp [a.inverse]

def encodeList (a : Codec α) : List α → Term
  | [] => .leaf 0
  | x :: xs => .pair (a.encode x) (encodeList a xs)

def decodeList (a : Codec α) : Term → Option (List α)
  | .leaf _ => some []
  | .pair s t => (a.decode s).bind fun x => (decodeList a t).map fun xs => x :: xs

def list (a : Codec α) : Codec (List α) where
  encode := encodeList a
  decode := decodeList a
  inverse xs := by
    induction xs with
    | nil => rfl
    | cons x xs ih => simp [encodeList, decodeList, a.inverse, ih]

def via (a : Codec α) (represent : β → α) (restore : α → β)
    (back : ∀ b, restore (represent b) = b) : Codec β where
  encode b := a.encode (represent b)
  decode t := (a.decode t).map restore
  inverse b := by simp [a.inverse, back]

end Codec

end Terms
