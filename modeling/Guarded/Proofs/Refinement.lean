import Guarded.Proofs.Binding
import Mathlib.Algebra.GroupWithZero.Nat
import Mathlib.Algebra.Order.BigOperators.Group.List
import Mathlib.Algebra.Order.Group.Nat
import Mathlib.Order.Basic

/-!
The refinement order. A type is below another if inference may pass from the one to the other, and
tables are below others if they differ in nothing but types and every type has only been refined.
Unification goes up in this order, and never further than both of its operands allow.

Each type can be refined at most twice, so the weight of the tables, which counts refinements, is
bounded by twice the number of symbols and expressions.
-/

namespace Guarded

namespace Ty

instance : LE Ty :=
  ⟨fun s t => s = t ∨ s = undefined ∨ (s = num ∧ t.isNumeric = true)⟩

theorem le_def {s t : Ty} : s ≤ t ↔ s = t ∨ s = undefined ∨ (s = num ∧ t.isNumeric = true) :=
  Iff.rfl

instance (s t : Ty) : Decidable (s ≤ t) :=
  decidable_of_iff _ le_def.symm

instance : PartialOrder Ty where
  le_refl s := Or.inl rfl
  le_trans s t u := by
    rintro (rfl | rfl | ⟨rfl, numeric⟩) above
    · exact above
    · exact Or.inr (Or.inl rfl)
    · rcases above with rfl | rfl | ⟨rfl, numeric'⟩
      · exact Or.inr (Or.inr ⟨rfl, numeric⟩)
      · cases numeric
      · exact Or.inr (Or.inr ⟨rfl, numeric'⟩)
  le_antisymm s t := by
    rintro (rfl | rfl | ⟨rfl, numeric⟩) above
    · rfl
    · rcases above with rfl | rfl | ⟨-, numeric⟩
      · rfl
      · rfl
      · cases numeric
    · rcases above with rfl | rfl | ⟨rfl, -⟩
      · rfl
      · cases numeric
      · rfl

theorem undefined_le (t : Ty) : undefined ≤ t :=
  Or.inr (Or.inl rfl)

theorem num_le {t : Ty} (numeric : t.isNumeric = true) : num ≤ t :=
  Or.inr (Or.inr ⟨rfl, numeric⟩)

theorem eq_of_terminal_le {s t : Ty} (terminal : s.isTerminal = true) (le : s ≤ t) : t = s := by
  rcases le with rfl | rfl | ⟨rfl, -⟩
  · rfl
  · cases terminal
  · cases terminal

/-- The flag that comes with a unified type says whether it differs from the first operand. -/
theorem unify_changed {s t u : Ty} {changed : Bool} (h : unify s t = some (u, changed)) :
    changed = true ↔ u ≠ s := by
  cases s <;> cases t <;> simp [unify] at h <;> obtain ⟨rfl, rfl⟩ := h <;> decide

theorem unify_other {s t u : Ty} (h : unify s t = some (u, true)) : u ≠ s :=
  (unify_changed h).mp rfl

theorem unify_same {s t u : Ty} (h : unify s t = some (u, false)) : u = s :=
  not_not.mp fun ne => Bool.false_ne_true ((unify_changed h).mpr ne)

theorem le_unify {s t u : Ty} {changed : Bool} (h : unify s t = some (u, changed)) : s ≤ u := by
  cases s <;> cases t <;> simp [unify] at h <;> obtain ⟨rfl, rfl⟩ := h <;> decide

/-- Unification chooses one of its operands. -/
theorem unify_cases {s t u : Ty} {changed : Bool} (h : unify s t = some (u, changed)) :
    s = u ∨ t = u := by
  cases s <;> cases t <;> simp [unify] at h <;> obtain ⟨rfl, rfl⟩ := h <;> decide

/-- Unification stays below whatever is above both operands. -/
theorem unify_le {s t u b : Ty} {changed : Bool} (h : unify s t = some (u, changed))
    (left : s ≤ b) (right : t ≤ b) : u ≤ b := by
  rcases unify_cases h with rfl | rfl
  · exact left
  · exact right

theorem unify_of_le {s t : Ty} (le : s ≤ t) : unify s t = some (t, t != s) := by
  cases s <;> cases t <;> first | rfl | exact absurd le (by decide)

/-- A type that a type above it does not change is that type. -/
theorem eq_of_unify_eq {s t : Ty} (le : s ≤ t) (h : unify s t = some (s, false)) : s = t :=
  congrArg Prod.fst (Option.some.inj (h.symm.trans (unify_of_le le)))

/-- How often a type has been refined. -/
def rank : Ty → Nat
  | undefined => 0
  | num => 1
  | int | float | boolean => 2

theorem rank_le_two (t : Ty) : t.rank ≤ 2 := by
  cases t <;> decide

theorem rank_mono {s t : Ty} (le : s ≤ t) : s.rank ≤ t.rank := by
  cases s <;> cases t <;> first | decide | exact absurd le (by decide)

theorem rank_lt {s t : Ty} (le : s ≤ t) (ne : s ≠ t) : s.rank < t.rank := by
  cases s <;> cases t <;> first | decide | exact absurd le (by decide) | exact absurd rfl ne

end Ty

namespace Analysis

/-- Tables that differ in types only, each of which has been refined or kept. -/
structure Refines (a a' : Analysis) : Prop where
  bindings : a'.bindings = a.bindings
  size : a'.symbols.size = a.symbols.size
  symbols : ∀ (i : Nat) (s : Symbol), a.symbols[i]? = some s →
    ∃ ty, s.ty ≤ ty ∧ a'.symbols[i]? = some { s with ty }
  types : ∀ k, a.typeOf k ≤ a'.typeOf k

namespace Refines
variable {a b c : Analysis}

theorem refl (a : Analysis) : a.Refines a :=
  ⟨rfl, rfl, fun _ s found => ⟨s.ty, le_rfl, found⟩, fun _ => le_rfl⟩

theorem trans (first : a.Refines b) (second : b.Refines c) : a.Refines c where
  bindings := second.bindings.trans first.bindings
  size := second.size.trans first.size
  symbols i s found := by
    obtain ⟨ty, le, found⟩ := first.symbols i s found
    obtain ⟨ty', le', found⟩ := second.symbols i _ found
    exact ⟨ty', le.trans le', found⟩
  types k := (first.types k).trans (second.types k)

theorem symbolType (h : a.Refines b) (i : Nat) : a.symbolType i ≤ b.symbolType i := by
  cases found : a.symbols[i]? with
  | none => simp [Analysis.symbolType, found, Ty.undefined_le]
  | some s =>
    obtain ⟨ty, le, found'⟩ := h.symbols i s found
    simpa [Analysis.symbolType, found, found'] using le

theorem retypes (h : a.Refines b) : a.Retypes b where
  bindings := h.bindings
  size := h.size
  symbols i s found := by
    obtain ⟨ty, le, found'⟩ := h.symbols i s found
    exact ⟨ty, fun terminal => Ty.eq_of_terminal_le terminal le, found'⟩

end Refines

/-- How often the types of the symbols and of the given expressions have been refined. -/
def weight (a : Analysis) (exprs : List Expr) : Nat :=
  ((List.range a.symbols.size).map fun i => (a.symbolType i).rank).sum +
    (exprs.map fun e => (a.typeOf e.id).rank).sum

theorem weight_le (a : Analysis) (exprs : List Expr) :
    a.weight exprs ≤ 2 * (a.symbols.size + exprs.length) := by
  have symbols := List.sum_le_card_nsmul
    ((List.range a.symbols.size).map fun i => (a.symbolType i).rank) 2
    (by simp [Ty.rank_le_two])
  have nodes := List.sum_le_card_nsmul (exprs.map fun e => (a.typeOf e.id).rank) 2
    (by simp [Ty.rank_le_two])
  simp only [List.length_map, List.length_range, Nat.nsmul_eq_mul] at symbols nodes
  rw [weight]
  omega

/-- Tables with the same types have the same weight. -/
theorem weight_congr {a b : Analysis} {exprs : List Expr} (size : b.symbols.size = a.symbols.size)
    (symbols : ∀ i, b.symbolType i = a.symbolType i) (types : ∀ k, b.typeOf k = a.typeOf k) :
    b.weight exprs = a.weight exprs := by
  simp only [weight, size, symbols, types]

theorem Refines.weight_symbol_lt {a b : Analysis} {exprs : List Expr} (h : a.Refines b) {i : Nat}
    (low : i < a.symbols.size) (ne : a.symbolType i ≠ b.symbolType i) :
    a.weight exprs < b.weight exprs := by
  rw [weight, weight, h.size]
  refine Nat.add_lt_add_of_lt_of_le (List.sum_lt_sum _ _ ?_ ?_) (List.sum_le_sum ?_)
  · exact fun j _ => Ty.rank_mono (h.symbolType j)
  · exact ⟨i, List.mem_range.mpr low, Ty.rank_lt (h.symbolType i) ne⟩
  · exact fun e _ => Ty.rank_mono (h.types e.id)

theorem Refines.weight_node_lt {a b : Analysis} {exprs : List Expr} (h : a.Refines b) {e : Expr}
    (mem : e ∈ exprs) (ne : a.typeOf e.id ≠ b.typeOf e.id) :
    a.weight exprs < b.weight exprs := by
  rw [weight, weight, h.size]
  refine Nat.add_lt_add_of_le_of_lt (List.sum_le_sum ?_) (List.sum_lt_sum _ _ ?_ ?_)
  · exact fun j _ => Ty.rank_mono (h.symbolType j)
  · exact fun e _ => Ty.rank_mono (h.types e.id)
  · exact ⟨e, mem, Ty.rank_lt (h.types e.id) ne⟩

end Analysis

end Guarded
