import Mathlib.Data.List.Pairwise
import Mathlib.Logic.Function.Basic
import Mathlib.Logic.Relation

/-! Runs of a step function over lists of actions. Nothing here knows what the states
and the actions are. -/
namespace Runs

variable {σ α : Type*} (step : σ → α → σ)

def run (s : σ) (actions : List α) : σ := actions.foldl step s

@[simp] theorem run_nil (s : σ) : run step s [] = s := rfl

@[simp] theorem run_cons (s : σ) (a : α) (actions : List α) :
    run step s (a :: actions) = run step (step s a) actions := rfl

theorem run_append (s : σ) (first second : List α) :
    run step s (first ++ second) = run step (run step s first) second :=
  List.foldl_append

@[simp] theorem run_snoc (s : σ) (actions : List α) (a : α) :
    run step s (actions ++ [a]) = step (run step s actions) a := by
  simp [run_append]

/-- Every action of the run is taken in a state that allows it. -/
def Along (allowed : σ → α → Prop) : σ → List α → Prop
  | _, [] => True
  | s, a :: rest => allowed s a ∧ Along allowed (step s a) rest

theorem along_append (allowed : σ → α → Prop) (s : σ) (first second : List α) :
    Along step allowed s (first ++ second) ↔
      Along step allowed s first ∧ Along step allowed (run step s first) second := by
  induction first generalizing s with
  | nil => simp [Along]
  | cons a rest ih => simp [Along, ih, and_assoc]

theorem along_snoc (allowed : σ → α → Prop) (s : σ) (actions : List α) (a : α) :
    Along step allowed s (actions ++ [a]) ↔
      Along step allowed s actions ∧ allowed (run step s actions) a := by
  simp [along_append, Along]

theorem along_iff (allowed : σ → α → Prop) (s : σ) (actions : List α) :
    Along step allowed s actions ↔
      ∀ before a, before ++ [a] <+: actions → allowed (run step s before) a := by
  induction actions generalizing s with
  | nil => simp [Along]
  | cons a rest ih =>
    constructor
    · rintro ⟨first, later⟩ before b here
      cases before with
      | nil =>
        cases (List.cons_prefix_cons.mp here).1
        exact first
      | cons c before =>
        obtain ⟨rfl, inside⟩ := List.cons_prefix_cons.mp here
        exact (ih (step s c)).mp later before b inside
    · intro each
      constructor
      · exact each [] a (by simp)
      · apply (ih (step s a)).mpr
        intro before b here
        exact each (a :: before) b (List.cons_prefix_cons.mpr ⟨rfl, here⟩)

theorem invariant_along {allowed : σ → α → Prop} {Inv : σ → Prop}
    (keep : ∀ s a, Inv s → allowed s a → Inv (step s a)) {s : σ} (start : Inv s)
    {actions : List α} (guarded : Along step allowed s actions) :
    Inv (run step s actions) := by
  induction actions generalizing s with
  | nil => exact start
  | cons a rest ih => exact ih (keep s a start guarded.1) guarded.2

theorem invariant {Inv : σ → Prop} (keep : ∀ s a, Inv s → Inv (step s a)) {s : σ}
    (start : Inv s) (actions : List α) : Inv (run step s actions) := by
  induction actions generalizing s with
  | nil => exact start
  | cons a rest ih => exact ih (keep s a start)

instance decidableAlong {allowed : σ → α → Prop} [∀ s a, Decidable (allowed s a)] (s : σ) :
    (actions : List α) → Decidable (Along step allowed s actions)
  | [] => .isTrue trivial
  | a :: rest =>
    have : Decidable (Along step allowed (step s a) rest) := decidableAlong (step s a) rest
    inferInstanceAs (Decidable (allowed s a ∧ Along step allowed (step s a) rest))

theorem Along.imp {allowed allowed' : σ → α → Prop} (weaker : ∀ s a, allowed s a → allowed' s a)
    {s : σ} {actions : List α} (guarded : Along step allowed s actions) :
    Along step allowed' s actions := by
  induction actions generalizing s with
  | nil => trivial
  | cons a rest ih => exact ⟨weaker s a guarded.1, ih guarded.2⟩

theorem Along.of_prefix {allowed : σ → α → Prop} {s : σ} {first second : List α}
    (before : first <+: second) (guarded : Along step allowed s second) :
    Along step allowed s first := by
  obtain ⟨rest, rfl⟩ := before
  exact ((along_append step allowed s first rest).mp guarded).1

theorem Along.and_invariant {allowed : σ → α → Prop} {I : σ → Prop}
    (keep : ∀ s a, I s → I (step s a)) {s : σ} (start : I s) {actions : List α}
    (guarded : Along step allowed s actions) :
    Along step (fun s a => I s ∧ allowed s a) s actions := by
  induction actions generalizing s with
  | nil => trivial
  | cons a rest ih => exact ⟨⟨start, guarded.1⟩, ih (keep s a start) guarded.2⟩

/-! ### Counting -/

/-- How often a run takes an action that counts. -/
def tally (counts : σ → α → Bool) : σ → List α → Nat
  | _, [] => 0
  | s, a :: rest => (if counts s a then 1 else 0) + tally counts (step s a) rest

theorem tally_append (counts : σ → α → Bool) (s : σ) (first second : List α) :
    tally step counts s (first ++ second) =
      tally step counts s first + tally step counts (run step s first) second := by
  induction first generalizing s with
  | nil => simp [tally]
  | cons a rest ih => simp [tally, ih, Nat.add_assoc]

theorem tally_prefix (counts : σ → α → Bool) (s : σ) {first second : List α}
    (before : first <+: second) : tally step counts s first ≤ tally step counts s second := by
  obtain ⟨rest, rfl⟩ := before
  rw [tally_append]
  exact Nat.le_add_right _ _

/-- Actions that are counted one by one until a bound is reached; the one after it completes
the count. -/
theorem reach {ι : Type*} (counted : List ι → σ → Prop) (completed : σ → Prop) (ok : ι → Prop)
    {act : ι → α} {bound : Nat}
    (counts : ∀ ids s i, counted ids s → i ∉ ids → ok i → ids.length < bound →
      counted (ids ++ [i]) (step s (act i)))
    (completes : ∀ ids s i, counted ids s → i ∉ ids → ok i → ids.length = bound →
      completed (step s (act i)))
    {ids : List ι} {s : σ} (sofar : counted ids s) {i : ι} {new : List ι}
    (distinct : (ids ++ i :: new).Nodup) (all : ∀ j ∈ i :: new, ok j)
    (size : ids.length + new.length = bound) :
    completed (run step s ((i :: new).map act)) := by
  induction new generalizing ids s i with
  | nil =>
    have fresh : i ∉ ids := fun again => (List.nodup_append.mp distinct).2.2 i again i (by simp) rfl
    exact completes ids s i sofar fresh (all i (by simp)) (by simpa using size)
  | cons j rest ih =>
    have fresh : i ∉ ids := fun again => (List.nodup_append.mp distinct).2.2 i again i (by simp) rfl
    rw [List.length_cons] at size
    have one := counts ids s i sofar fresh (all i (by simp)) (by omega)
    rw [List.map_cons, run_cons]
    apply ih one
    · rwa [List.append_assoc, List.singleton_append]
    · exact fun k hk => all k (List.mem_cons_of_mem i hk)
    · rw [List.length_append, List.length_singleton]
      omega

/-- Some action of the run has the output. -/
def Emits {ρ : Type*} (out : σ → α → Option ρ) (s : σ) (actions : List α) (r : ρ) : Prop :=
  ∃ before a, before ++ [a] <+: actions ∧ out (run step s before) a = some r

theorem emits_snoc {ρ : Type*} (out : σ → α → Option ρ) (s : σ) (actions : List α) (a : α) (r : ρ) :
    Emits step out s (actions ++ [a]) r ↔
      Emits step out s actions r ∨ out (run step s actions) a = some r := by
  constructor
  · rintro ⟨before, b, here, emitted⟩
    rcases List.prefix_concat_iff.mp here with same | inside
    · obtain ⟨rfl, last⟩ := List.append_inj' same rfl
      cases last
      exact .inr emitted
    · exact .inl ⟨before, b, inside, emitted⟩
  · rintro (⟨before, b, here, emitted⟩ | emitted)
    · exact ⟨before, b, here.trans (List.prefix_append ..), emitted⟩
    · exact ⟨actions, a, List.prefix_rfl, emitted⟩

/-! ### Runs without some of their actions -/

/-- Steps that cannot tell states of one `look` apart, and removed actions that leave the
`look` as it is: then a run and the run without those actions end with one `look`. -/
theorem purge {τ : Type*} (look : σ → τ) {hidden : α → Prop} [DecidablePred hidden]
    {allowed : σ → α → Prop}
    (blind : ∀ s t a, look s = look t → look (step s a) = look (step t a))
    (stays : ∀ s a, hidden a → allowed s a → look (step s a) = look s) {s t : σ}
    (same : look s = look t) {actions : List α} (guarded : Along step allowed s actions) :
    look (run step t (actions.filter fun a => ¬ hidden a)) = look (run step s actions) := by
  induction actions generalizing s t with
  | nil => exact same.symm
  | cons a rest ih =>
    by_cases removed : hidden a
    · simp only [removed, not_true_eq_false, decide_false, Bool.false_eq_true, not_false_eq_true,
        List.filter_cons_of_neg, run_cons]
      exact ih ((stays s a removed guarded.1).trans same) guarded.2
    · simp only [removed, not_false_eq_true, decide_true, List.filter_cons_of_pos, run_cons]
      exact ih (blind s t a same) guarded.2

/-! ### Machines side by side -/

section Many

variable {ι : Type*} [DecidableEq ι]

def many (world : ι → σ) (x : ι × α) : ι → σ :=
  Function.update world x.1 (step (world x.1) x.2)

def own (i : ι) (actions : List (ι × α)) : List α :=
  actions.filterMap fun x => if x.1 = i then some x.2 else none

theorem many_run (world : ι → σ) (actions : List (ι × α)) (i : ι) :
    run (many step) world actions i = run step (world i) (own i actions) := by
  induction actions generalizing world with
  | nil => rfl
  | cons x rest ih =>
    rw [run_cons, ih]
    by_cases mine : x.1 = i
    · subst mine
      simp [own, many]
    · simp [own, many, mine, Function.update_of_ne (Ne.symm mine)]

/-- One machine after the other is one of the orders in which the schedules can be kept. -/
theorem own_flatMap (schedule : ι → List α) {ids : List ι} (distinct : ids.Nodup) {i : ι}
    (member : i ∈ ids) :
    own i (ids.flatMap fun j => (schedule j).map fun a => (j, a)) = schedule i := by
  have mine : own i ((schedule i).map fun a => (i, a)) = schedule i := by
    simp only [own, List.filterMap_map, Function.comp_def, if_true, List.filterMap_some]
  have others : ∀ {j}, j ≠ i → own i ((schedule j).map fun a => (j, a)) = [] := by
    intro j other
    simp [own, List.filterMap_map, other]
  have append : ∀ first second : List (ι × α),
      own i (first ++ second) = own i first ++ own i second :=
    fun _ _ => List.filterMap_append
  induction ids with
  | nil => exact absurd member List.not_mem_nil
  | cons j rest ih =>
    obtain ⟨once, distinct⟩ := List.nodup_cons.mp distinct
    rw [List.flatMap_cons, append]
    rcases List.mem_cons.mp member with rfl | later
    · have absent : own i (rest.flatMap fun j => (schedule j).map fun a => (j, a)) = [] := by
        simp only [own, List.filterMap_eq_nil_iff, List.mem_flatMap, List.mem_map]
        rintro x ⟨j, hj, a, _, rfl⟩
        exact if_neg fun same : j = i => once (same ▸ hj)
      rw [mine, absent, List.append_nil]
    · have other : j ≠ i := fun same => once (same ▸ later)
      rw [others other, ih distinct later, List.nil_append]

end Many

/-! ### Ordered histories -/

section Ordered

variable {ε : Type*} {R : ε → ε → Prop} {history : List ε}

theorem ordered_append (ordered : history.Pairwise R) {new : List ε}
    (free : ∀ y ∈ new, ∀ x, R x y) : (history ++ new).Pairwise R := by
  rw [List.pairwise_append]
  refine ⟨ordered, ?_, fun x _ y hy => free y hy x⟩
  refine List.Pairwise.imp_of_mem ?_ (List.pairwise_of_forall fun _ _ => trivial)
  exact fun _ hy _ => free _ hy _

theorem ordered_snoc (ordered : history.Pairwise R) {y : ε} (last : ∀ x ∈ history, R x y) :
    (history ++ [y]).Pairwise R := by
  rw [List.pairwise_append]
  refine ⟨ordered, List.pairwise_singleton R y, ?_⟩
  rintro x hx _ hy
  rw [List.mem_singleton.mp hy]
  exact last x hx

theorem ordered_total (ordered : history.Pairwise R) {x y : ε} (hx : x ∈ history)
    (hy : y ∈ history) : x = y ∨ R x y ∨ R y x := by
  have symmetric : Std.Symm fun x y => R x y ∨ R y x := ⟨fun _ _ => Or.symm⟩
  have either : history.Pairwise fun x y => R x y ∨ R y x := ordered.imp .inl
  by_cases same : x = y
  · exact .inl same
  · exact .inr (either.forall hx hy same)

end Ordered

end Runs
