import Guarded.Proofs.Inference

/-!
Repeating traversals until one changes nothing. The repetition has no bound of its own: it ends
because every traversal that reports a change adds to the weight of the tables, and the weight is at
most twice the number of symbols and expressions. Where it ends well, traversals have nothing left
to do, however often they are made.
-/

namespace Guarded

namespace Program

/-- Traversals made one after the other until one of them fails or changes nothing: how many there
are, and how the last one ends. -/
inductive Repeats (p : Program) : Analysis → Nat → EStateM.Result Error Analysis Unit → Prop where
  | failed {a a' : Analysis} {e : Error} (last : p.traverse a = .error e a') :
    Repeats p a 1 (.error e a')
  | stable {a a' : Analysis} (last : p.traverse a = .ok false a') : Repeats p a 1 (.ok () a')
  | again {a a' : Analysis} {n : Nat} {r : EStateM.Result Error Analysis Unit}
    (first : p.traverse a = .ok true a') (rest : Repeats p a' n r) : Repeats p a (n + 1) r

/-- A number of traversals, whatever they report. -/
def traverseTimes (p : Program) : Nat → Analysis → EStateM.Result Error Analysis (List Bool)
  | 0, a => .ok [] a
  | k + 1, a =>
    match p.traverse a with
    | .error e a => .error e a
    | .ok changed a =>
      match p.traverseTimes k a with
      | .ok reports a => .ok (changed :: reports) a
      | .error e a => .error e a

variable {p : Program} {a b : Analysis}

/-- Enough fuel is as good as none at all. -/
theorem Repeats.traverseUntilStable {n : Nat} {r : EStateM.Result Error Analysis Unit}
    (h : p.Repeats a n r) (fuel : Nat) (enough : n ≤ fuel) :
    p.traverseUntilStable fuel a = match r with
      | .ok _ a' => .ok n a'
      | .error e a' => .error e a' := by
  induction h generalizing fuel with
  | failed last =>
    obtain ⟨fuel, rfl⟩ := Nat.exists_eq_add_of_le' enough
    rw [Program.traverseUntilStable, last]
  | stable last =>
    obtain ⟨fuel, rfl⟩ := Nat.exists_eq_add_of_le' enough
    rw [Program.traverseUntilStable, last]
  | @again a a' n r first rest ih =>
    obtain ⟨fuel, rfl⟩ : ∃ k, fuel = k + 1 := ⟨fuel - 1, by omega⟩
    rw [Program.traverseUntilStable, first]
    dsimp only
    rw [ih fuel (by omega)]
    cases r with
    | ok u b => rfl
    | error e b => rfl

/-- Tables that one traversal leaves alone are left alone by any number of them. -/
theorem traverseTimes_of_stable (still : p.traverse b = .ok false b) (k : Nat) :
    p.traverseTimes k b = .ok (List.replicate k false) b := by
  induction k with
  | zero => rfl
  | succ k ih =>
    rw [traverseTimes, still]
    dsimp only
    rw [ih]
    rfl

/-- A traversal fails, or leaves the tables alone and says so, or adds to their weight. -/
theorem traverse_cases (p : Program) (ground : a.Grounded) :
    (∃ e a', p.traverse a = .error e a') ∨ p.traverse a = .ok false a ∨
      ∃ a', p.traverse a = .ok true a' ∧ a'.Grounded ∧ a'.symbols.size = a.symbols.size ∧
        a.weight p.exprs < a'.weight p.exprs := by
  cases run : p.traverse a with
  | error e a' => exact Or.inl ⟨e, a', rfl⟩
  | ok changed a' =>
    have moves := traverse_moves ground run
    cases changed with
    | false =>
      obtain rfl : a' = a := congrArg Progress.tables (moves.quiet rfl)
      exact Or.inr (Or.inl rfl)
    | true =>
      have more : a.weight p.exprs < a'.weight p.exprs := by
        rcases moves.moved with same | ⟨-, more⟩
        · simp at same
        · exact more
      exact Or.inr (Or.inr ⟨a', rfl, moves.refines.retypes.grounded ground, moves.refines.size,
        more⟩)

/-- A traversal that fails has also refined types and done nothing else. -/
theorem traverse_error_refines {e : Error} (ground : a.Grounded) (h : p.traverse a = .error e b) :
    a.Refines b := by
  have moves := (traverse_steady (p := p) ground).moves
  unfold traverse at h
  split at h
  · simp at h
  · rename_i e' progress run
    obtain ⟨-, rfl⟩ : e' = e ∧ progress.tables = b := by simpa using h
    rw [Infer.after_error run] at moves
    exact moves.refines

/-- A traversal reports a change exactly if a type is not what it was. -/
theorem traverse_reports {changed : Bool} (ground : a.Grounded)
    (h : p.traverse a = .ok changed b) :
    changed = true ↔ (∃ i, b.symbolType i ≠ a.symbolType i) ∨ ∃ k, b.typeOf k ≠ a.typeOf k := by
  have moves := traverse_moves ground h
  constructor
  · rintro rfl
    by_contra same
    push Not at same
    have weight : b.weight p.exprs = a.weight p.exprs :=
      Analysis.weight_congr moves.refines.size same.1 same.2
    rcases moves.moved with still | ⟨-, more⟩
    · simp at still
    · exact absurd weight more.ne'
  · intro differs
    by_contra still
    obtain rfl : b = a := congrArg Progress.tables (moves.quiet (by simpa using still))
    rcases differs with ⟨i, ne⟩ | ⟨k, ne⟩
    · exact ne rfl
    · exact ne rfl

/-- The repetition ends before the tables run out of weight to gain. -/
theorem repeats_of_room (ground : a.Grounded) {room : Nat}
    (enough : 2 * (a.symbols.size + p.exprs.length) ≤ a.weight p.exprs + room) :
    ∃ n r, p.Repeats a n r ∧ n ≤ room + 1 ∧ ∀ b, r = .ok () b → p.traverse b = .ok false b := by
  induction room generalizing a with
  | zero =>
    rcases p.traverse_cases ground with ⟨e, a', run⟩ | run | ⟨a', -, -, size, more⟩
    · exact ⟨1, _, .failed run, by omega, by nofun⟩
    · refine ⟨1, _, .stable run, by omega, ?_⟩
      rintro b ⟨⟩
      exact run
    · have full := a'.weight_le p.exprs
      rw [size] at full
      omega
  | succ room ih =>
    rcases p.traverse_cases ground with ⟨e, a', run⟩ | run | ⟨a', run, ground', size, more⟩
    · exact ⟨1, _, .failed run, by omega, by nofun⟩
    · refine ⟨1, _, .stable run, by omega, ?_⟩
      rintro b ⟨⟩
      exact run
    · have less : 2 * (a'.symbols.size + p.exprs.length) ≤ a'.weight p.exprs + room := by
        rw [size]
        omega
      obtain ⟨n, r, rest, few, stable⟩ := ih ground' less
      exact ⟨n + 1, r, .again run rest, by omega, stable⟩

/-- Inference ends, on any tables that point into themselves: it makes at most two traversals for
each symbol and each expression, and one more. If it ends well, every further traversal reports that
nothing has changed, and nothing has. -/
theorem infer_ends (p : Program) {a : Analysis} (ground : a.Grounded) :
    ∃ n r, p.Repeats a n r ∧ n ≤ 2 * (a.symbols.size + p.exprs.length) + 1 ∧
      match r with
      | .error e _ => p.infer a = .error e
      | .ok _ b => p.infer a = .ok b ∧
          ∀ k, p.traverseTimes k b = .ok (List.replicate k false) b := by
  obtain ⟨n, r, repeats, few, stable⟩ := repeats_of_room (p := p) ground
    (Nat.le_add_left _ (a.weight p.exprs))
  have run := repeats.traverseUntilStable (p.traversalBound a)
    (by rw [traversalBound, ← exprs_length]; exact few)
  refine ⟨n, r, repeats, few, ?_⟩
  cases r with
  | error e b => simp only [infer, run]
  | ok u b =>
    refine ⟨?_, traverseTimes_of_stable (stable b rfl)⟩
    simp only [infer, run]

/-- A program whose names get their types from one another. -/
def circular : String :=
  "program p fun half(x) : float \x7b return x / 2 \x7d input a, b; " ++
  "do a < b :: \x7b a, b <- b + 1, half(a) \x7d od print a"

theorem circular_binds : ∃ p a, parse circular = .ok p ∧ p.bind = .ok a := by
  have passes : (parse circular >>= Program.bind).isOk = true := by decide +kernel
  obtain ⟨a, run⟩ := except_of_isOk passes
  obtain ⟨p, parsed, bound⟩ := except_bind_ok.mp run
  exact ⟨p, a, parsed, bound⟩

theorem infer_ends_circular :
    ∃ p a, parse circular = .ok p ∧ p.bind = .ok a ∧ a.Grounded ∧
      ∃ n r, p.Repeats a n r ∧ n ≤ 2 * (a.symbols.size + p.exprs.length) + 1 ∧
        match r with
        | .error e _ => p.infer a = .error e
        | .ok _ b => p.infer a = .ok b ∧
            ∀ k, p.traverseTimes k b = .ok (List.replicate k false) b := by
  obtain ⟨p, a, parsed, bound⟩ := circular_binds
  have ground := (bind_linked (parse_wellFormed parsed) bound).1.grounded
  exact ⟨p, a, parsed, bound, ground, infer_ends p ground⟩

/-- A traversal only ever refines types. Whether it ends well or with an error, the tables it leaves
differ from those it began with in types alone, every one of them refined or kept, and those that
are final are kept. If it ends well, it reports whether there is a difference. -/
theorem traverse_monotone (p : Program) {a : Analysis} (ground : a.Grounded) :
    ∃ a', a.Refines a' ∧
      (∀ i, (a.symbolType i).isTerminal = true → a'.symbolType i = a.symbolType i) ∧
      (∀ k, (a.typeOf k).isTerminal = true → a'.typeOf k = a.typeOf k) ∧
      ((∃ e, p.traverse a = .error e a') ∨
        ∃ changed, p.traverse a = .ok changed a' ∧ (changed = true ↔
          (∃ i, a'.symbolType i ≠ a.symbolType i) ∨ ∃ k, a'.typeOf k ≠ a.typeOf k)) := by
  have kept {a'} (refines : a.Refines a') :
      (∀ i, (a.symbolType i).isTerminal = true → a'.symbolType i = a.symbolType i) ∧
      ∀ k, (a.typeOf k).isTerminal = true → a'.typeOf k = a.typeOf k :=
    ⟨fun i final => Ty.eq_of_terminal_le final (refines.symbolType i),
      fun k final => Ty.eq_of_terminal_le final (refines.types k)⟩
  cases run : p.traverse a with
  | error e a' =>
    have refines := traverse_error_refines ground run
    exact ⟨a', refines, (kept refines).1, (kept refines).2, Or.inl ⟨e, rfl⟩⟩
  | ok changed a' =>
    have refines := (traverse_moves ground run).refines
    exact ⟨a', refines, (kept refines).1, (kept refines).2,
      Or.inr ⟨changed, rfl, traverse_reports ground run⟩⟩

theorem traverse_monotone_circular :
    ∃ p a, parse circular = .ok p ∧ p.bind = .ok a ∧ a.Grounded ∧
      ∃ a', a.Refines a' ∧
        (∀ i, (a.symbolType i).isTerminal = true → a'.symbolType i = a.symbolType i) ∧
        (∀ k, (a.typeOf k).isTerminal = true → a'.typeOf k = a.typeOf k) ∧
        ((∃ e, p.traverse a = .error e a') ∨
          ∃ changed, p.traverse a = .ok changed a' ∧ (changed = true ↔
            (∃ i, a'.symbolType i ≠ a.symbolType i) ∨ ∃ k, a'.typeOf k ≠ a.typeOf k)) := by
  obtain ⟨p, a, parsed, bound⟩ := circular_binds
  have ground := (bind_linked (parse_wellFormed parsed) bound).1.grounded
  exact ⟨p, a, parsed, bound, ground, traverse_monotone p ground⟩

end Program

end Guarded
