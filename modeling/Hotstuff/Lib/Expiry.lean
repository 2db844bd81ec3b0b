import Mathlib.Data.List.Basic
import Mathlib.Data.List.Pairwise
import Mathlib.Order.Lattice

/-! Queues that lose expired entries at the front only, against the entries that are not
expired. -/
namespace Expiry

variable {α κ : Type*}

theorem dropWhile_dropWhile {p q : α → Bool}
    (nested : (∀ a, p a → q a) ∨ ∀ a, q a → p a) (l : List α) :
    (l.dropWhile q).dropWhile p = l.dropWhile fun a => q a || p a := by
  induction l with
  | nil => rfl
  | cons a rest ih =>
    by_cases hq : q a
    · simpa [hq] using ih
    · by_cases hp : p a
      · have covered : ∀ a, q a → p a := by
          cases nested with
          | inl inside => exact absurd (inside a hp) hq
          | inr inside => exact inside
        have same : (fun a => q a || p a) = p := by
          funext b
          cases hb : q b with
          | false => simp
          | true => simp [covered b hb]
        simp [hq, hp, same]
      · simp [hq, hp]

/-- One front expiry after another, each by a bound on the key, is one by the greatest. -/
theorem foldl_dropWhile [LinearOrder κ] (key : α → κ) (bounds : List κ) (l : List α) :
    bounds.foldl (fun l bound => l.dropWhile fun a => key a ≤ bound) l =
      l.dropWhile fun a => bounds.any fun bound => key a ≤ bound := by
  induction bounds generalizing l with
  | nil =>
    cases l with
    | nil => rfl
    | cons a rest => simp
  | cons bound rest ih =>
    have nested : (∀ a, (rest.any fun b => key a ≤ b) = true → decide (key a ≤ bound) = true) ∨
        ∀ a, decide (key a ≤ bound) = true → (rest.any fun b => key a ≤ b) = true := by
      by_cases below : ∀ b ∈ rest, b ≤ bound
      · apply Or.inl
        intro a expired
        simp only [List.any_eq_true, decide_eq_true_eq] at expired ⊢
        obtain ⟨b, hb, le⟩ := expired
        exact le_trans le (below b hb)
      · apply Or.inr
        push Not at below
        obtain ⟨b, hb, above⟩ := below
        intro a expired
        simp only [List.any_eq_true, decide_eq_true_eq] at expired ⊢
        exact ⟨b, hb, le_trans expired (le_of_lt above)⟩
    simp only [List.foldl_cons, ih, List.any_cons]
    exact dropWhile_dropWhile nested l

/-- Dropping by `p` at the front removes just the entries that `q` holds for, of which `p`
is a part, exactly if those come first and are in `p`. -/
theorem dropWhile_eq_filter_iff {p q : α → Bool} (part : ∀ a, p a → q a) (l : List α) :
    l.dropWhile p = l.filter (fun a => ! q a) ↔
      l.Pairwise (fun a b => q b → q a) ∧ ∀ a ∈ l, q a → p a := by
  induction l with
  | nil => simp
  | cons a rest ih =>
    by_cases hp : p a
    · simp [hp, part a hp, ih]
    · by_cases hq : q a
      · -- the expired head stays, and the filter has no such entry
        have stays : a :: rest ≠ rest.filter fun a => ! q a := by
          intro same
          have expired : a ∈ rest.filter fun a => ! q a := same ▸ List.mem_cons_self
          simp [hq] at expired
        simp [hp, hq, stays]
      · have fresh : rest = rest.filter (fun a => ! q a) ↔ ∀ b ∈ rest, q b = false := by
          rw [eq_comm, List.filter_eq_self]
          simp
        simp only [List.dropWhile_cons_of_neg hp, hq, Bool.not_false, List.filter_cons_of_pos,
          List.cons.injEq, true_and, List.pairwise_cons, List.mem_cons, forall_eq_or_imp, fresh]
        constructor
        · intro none
          refine ⟨⟨fun b hb => by simp [none b hb], ?_⟩, by simp, fun b hb => by simp [none b hb]⟩
          exact List.pairwise_of_forall_mem_list fun _ _ b hb => by simp [none b hb]
        · intro ordered b hb
          simpa using ordered.1.1 b hb
end Expiry
