import Mathlib.Data.Finset.Card
import Mathlib.Data.List.Induction

/-! The first entry of every key in a list of entries, in the order of the list. -/
namespace Firsts

variable {κ β γ : Type*} [DecidableEq κ]

def firsts : List (κ × β) → List (κ × β)
  | [] => []
  | x :: rest => x :: (firsts rest).filter fun y => y.1 ≠ x.1

theorem mem_of_mem {entries : List (κ × β)} {x : κ × β} (kept : x ∈ firsts entries) :
    x ∈ entries := by
  induction entries with
  | nil => exact kept
  | cons y rest ih =>
    rcases List.mem_cons.mp kept with rfl | later
    · exact List.mem_cons_self ..
    · exact List.mem_cons_of_mem _ (ih (List.mem_of_mem_filter later))

/-- An entry is kept if none of its key comes before it. -/
theorem mem_filterMap {f : γ → Option (κ × β)} {l : List γ} {x : κ × β} :
    x ∈ firsts (l.filterMap f) ↔ ∃ before a after, l = before ++ a :: after ∧ f a = some x ∧
      ∀ u ∈ before, ∀ y, f u = some y → y.1 ≠ x.1 := by
  induction l with
  | nil => simp [firsts]
  | cons u rest ih =>
    have shifted : (∃ before a after, u :: rest = before ++ a :: after ∧ f a = some x ∧
        ∀ u ∈ before, ∀ y, f u = some y → y.1 ≠ x.1) ↔
        f u = some x ∨ x ∈ firsts (rest.filterMap f) ∧ ∀ y, f u = some y → y.1 ≠ x.1 := by
      rw [ih]
      constructor
      · rintro ⟨before, a, after, split, own, first⟩
        cases before with
        | nil =>
          cases split
          exact .inl own
        | cons v before =>
          cases split
          refine .inr ⟨⟨before, a, after, rfl, own, fun u hu => ?_⟩, ?_⟩
          · exact first u (List.mem_cons_of_mem _ hu)
          · exact first u (List.mem_cons_self ..)
      · rintro (own | ⟨⟨before, a, after, rfl, own, first⟩, other⟩)
        · exact ⟨[], u, rest, rfl, own, List.forall_mem_nil _⟩
        · exact ⟨u :: before, a, after, rfl, own, List.forall_mem_cons.mpr ⟨other, first⟩⟩
    rw [shifted]
    cases image : f u with
    | none => simp [image]
    | some y => simp [image, firsts, eq_comm (a := x), eq_comm (a := x.1)]

theorem mem_keys (entries : List (κ × β)) (k : κ) :
    k ∈ (firsts entries).map Prod.fst ↔ k ∈ entries.map Prod.fst := by
  induction entries with
  | nil => simp [firsts]
  | cons x rest ih =>
    by_cases same : k = x.1
    · simp [firsts, same]
    · have filtered : k ∈ ((firsts rest).filter fun y => y.1 ≠ x.1).map Prod.fst ↔
          k ∈ (firsts rest).map Prod.fst := by
        simp only [List.mem_map, List.mem_filter, decide_eq_true_eq]
        constructor
        · rintro ⟨y, ⟨hy, _⟩, rfl⟩
          exact ⟨y, hy, rfl⟩
        · rintro ⟨y, hy, rfl⟩
          exact ⟨y, ⟨hy, same⟩, rfl⟩
      rw [firsts, List.map_cons, List.map_cons, List.mem_cons, List.mem_cons, filtered, ih]

theorem nodup_keys (entries : List (κ × β)) : ((firsts entries).map Prod.fst).Nodup := by
  induction entries with
  | nil => exact List.nodup_nil
  | cons x rest ih =>
    rw [firsts, List.map_cons, List.nodup_cons]
    refine ⟨fun again => ?_, ih.sublist (List.filter_sublist.map Prod.fst)⟩
    obtain ⟨y, hy, same⟩ := List.mem_map.mp again
    simp only [List.mem_filter, decide_eq_true_eq] at hy
    exact hy.2 same

theorem length (entries : List (κ × β)) :
    (firsts entries).length = (entries.map Prod.fst).toFinset.card := by
  have keys : ((firsts entries).map Prod.fst).toFinset = (entries.map Prod.fst).toFinset := by
    ext k
    rw [List.mem_toFinset, List.mem_toFinset, mem_keys]
  rw [← keys, List.toFinset_card_of_nodup (nodup_keys entries), List.length_map]

theorem snoc_new {entries : List (κ × β)} {x : κ × β} (new : x.1 ∉ entries.map Prod.fst) :
    firsts (entries ++ [x]) = firsts entries ++ [x] := by
  induction entries with
  | nil => rfl
  | cons y rest ih =>
    simp only [List.map_cons, List.mem_cons, not_or] at new
    rw [List.cons_append, firsts, ih new.2, firsts, List.filter_append]
    simp [new.1]

theorem snoc_known {entries : List (κ × β)} {x : κ × β} (known : x.1 ∈ entries.map Prod.fst) :
    firsts (entries ++ [x]) = firsts entries := by
  induction entries with
  | nil => simp at known
  | cons y rest ih =>
    rw [List.cons_append, firsts, firsts]
    by_cases later : x.1 ∈ rest.map Prod.fst
    · rw [ih later]
    · have same : x.1 = y.1 := (List.mem_cons.mp known).resolve_right later
      rw [snoc_new later, List.filter_append]
      simp [same]

end Firsts
