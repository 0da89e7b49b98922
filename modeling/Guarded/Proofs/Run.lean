import Guarded.Console
import Mathlib.Order.Nat

/-!
Runs of the machine, step by step. A walk is a run of a number of steps that never leaves the
activation it starts in, and in which every completed call is balanced: it takes its arguments from
the stack of the caller and leaves its result there, if it has one, and nothing else.

A run that is cut off is a walk too, so what is said about walks holds of programs that never end.
-/

namespace Guarded

namespace Machine
variable {σ : Type}

/-- The number of activations. -/
def depth (m : Machine) : Nat :=
  m.frames.length

/-- The machine is about to call a routine. -/
def Calls (m : Machine) (r : Routine) : Prop :=
  ∃ f frames name, m.frames = f :: frames ∧ f.routine.code[f.pc]? = some (.invoke name) ∧
    m.unit.routines.findRev? (fun r' => r'.name == name) = some r

/-- What a completed call leaves: the stack below its arguments, and its result on top if the
routine has one. -/
def Returned (r : Routine) (before later : Machine) : Prop :=
  r.params.size ≤ before.stack.length ∧
    if r.result.isSome then ∃ v, later.stack = v :: before.stack.drop r.params.size
    else later.stack = before.stack.drop r.params.size

/-- Every call that is begun and completed within `n` steps is balanced. A call is completed when,
for the first time, there are no more activations than before it. -/
def Tame (host : Host σ) (n : Nat) (c : Machine × σ) : Prop :=
  ∀ (i j : Nat) (ci cj : Machine × σ) (r : Routine), i < j → j ≤ n →
    after host i c = some ci → after host j c = some cj → ci.1.Calls r →
    cj.1.depth ≤ ci.1.depth →
    (∀ (k : Nat) (ck : Machine × σ), i < k → k < j → after host k c = some ck →
      ci.1.depth < ck.1.depth) →
    Returned r ci.1 cj.1

variable {host : Host σ} {c c₁ c₂ c₃ : Machine × σ} {n k : Nat}

theorem after_succ (h : advance host c = .inl c₁) (n : Nat) :
    after host (n + 1) c = after host n c₁ := by
  rw [after, h]

theorem after_add (n k : Nat) (c : Machine × σ) :
    after host (n + k) c = (after host n c).bind (after host k) := by
  induction n generalizing c with
  | zero => simp [after]
  | succ n ih =>
    rw [Nat.succ_add, after, after]
    cases advance host c with
    | inl c' => exact ih c'
    | inr r => rfl

/-- The last step of a run. -/
theorem after_last : after host (n + 1) c = some c₂ ↔
    ∃ c₁, after host n c = some c₁ ∧ advance host c₁ = .inl c₂ := by
  rw [after_add, Option.bind_eq_some_iff]
  refine exists_congr fun c₁ => and_congr_right fun _ => ?_
  cases next : advance host c₁ with
  | inl d => simp [after, next]
  | inr r => simp [after, next]

/-- The runner goes step by step until the program is over. -/
theorem run_eq_some {fuel : Nat} {r : EStateM.Result Error σ Machine} :
    run host fuel c.1 c.2 = some r ↔
      ∃ k c', k < fuel ∧ after host k c = some c' ∧ advance host c' = .inr r := by
  induction fuel generalizing c with
  | zero => simp [run]
  | succ fuel ih =>
    rw [run]
    cases next : advance host c with
    | inl c' =>
      dsimp only
      rw [ih]
      constructor
      · rintro ⟨k, c'', low, found, ended⟩
        exact ⟨k + 1, c'', by omega, by rw [after_succ next, found], ended⟩
      · rintro ⟨k, c'', low, found, ended⟩
        cases k with
        | zero =>
          obtain rfl : c = c'' := by simpa [after] using found
          simp [next] at ended
        | succ k => exact ⟨k, c'', by omega, by rwa [after_succ next] at found, ended⟩
    | inr r' =>
      dsimp only
      constructor
      · intro same
        exact ⟨0, c, by omega, rfl, by rw [next, Option.some.inj same]⟩
      · rintro ⟨k, c'', low, found, ended⟩
        cases k with
        | zero =>
          obtain rfl : c = c'' := by simpa [after] using found
          rw [next] at ended
          rw [Sum.inr.inj ended]
        | succ k => simp [after, next] at found

/-- A run of `n` steps that stays within the activation it starts in. -/
structure Walk (host : Host σ) (n : Nat) (c c' : Machine × σ) : Prop where
  ends : after host n c = some c'
  above : ∀ (k : Nat) (ck : Machine × σ), k ≤ n → after host k c = some ck →
    c.1.depth ≤ ck.1.depth
  tame : Tame host n c

namespace Walk

theorem refl (c : Machine × σ) : Walk host 0 c c where
  ends := rfl
  above k ck low found := by
    obtain rfl : k = 0 := by omega
    obtain rfl : c = ck := by simpa [after] using found
    exact le_rfl
  tame i j _ _ _ less low := by omega

theorem trans {k : Nat} (first : Walk host n c c₁) (second : Walk host k c₁ c₂)
    (level : c₁.1.depth = c.1.depth) : Walk host (n + k) c c₂ := by
  -- A position past the first walk is one in the second.
  have shift : ∀ (i : Nat), n ≤ i → after host i c = after host (i - n) c₁ := by
    intro i high
    obtain ⟨d, rfl⟩ := Nat.exists_eq_add_of_le high
    rw [after_add, first.ends, Nat.add_sub_cancel_left]
    rfl
  refine ⟨?_, ?_, ?_⟩
  · rw [shift _ (Nat.le_add_right ..), Nat.add_sub_cancel_left, second.ends]
  · intro i ci low found
    rcases Nat.le_total i n with inside | outside
    · exact first.above i ci inside found
    · rw [shift i outside] at found
      exact level ▸ second.above (i - n) ci (by omega) found
  · intro i j ci cj r less low foundI foundJ calls returns between
    rcases Nat.le_total j n with inside | outside
    · exact first.tame i j ci cj r less inside foundI foundJ calls returns between
    rcases Nat.lt_or_ge i n with early | late
    · -- The call would be completed where the first walk ends, at the latest.
      rcases Nat.eq_or_lt_of_le outside with rfl | beyond
      · exact first.tame i n ci cj r less le_rfl foundI foundJ calls returns between
      · have deeper := between n c₁ early beyond first.ends
        have := first.above i ci (by omega) foundI
        omega
    · rw [shift i late] at foundI
      rw [shift j outside] at foundJ
      refine second.tame (i - n) (j - n) ci cj r (by omega) (by omega) foundI foundJ calls returns
        fun k ck low' high found => between (k + n) ck (by omega) (by omega) ?_
      rw [shift _ (by omega), Nat.add_sub_cancel, found]

/-- A step that is not a call. -/
theorem step (next : advance host c = .inl c₁) (noCall : ∀ r, ¬ c.1.Calls r)
    (level : c.1.depth ≤ c₁.1.depth) : Walk host 1 c c₁ where
  ends := by rw [after_succ next]; rfl
  above k ck low found := by
    cases k with
    | zero =>
      obtain rfl : c = ck := by simpa [after] using found
      exact le_rfl
    | succ k =>
      obtain rfl : k = 0 := by omega
      rw [after_succ next] at found
      obtain rfl : c₁ = ck := by simpa [after] using found
      exact level
  tame i j ci cj r less low foundI _ calls := by
    obtain rfl : i = 0 := by omega
    obtain rfl : c = ci := by simpa [after] using foundI
    exact absurd calls (noCall r)

/-- A call that is not completed. -/
theorem enter (next : advance host c = .inl c₁) (deeper : c.1.depth < c₁.1.depth)
    (body : Walk host n c₁ c₂) : Walk host (n + 1) c c₂ where
  ends := by rw [after_succ next, body.ends]
  above k ck low found := by
    cases k with
    | zero =>
      obtain rfl : c = ck := by simpa [after] using found
      exact le_rfl
    | succ k =>
      rw [after_succ next] at found
      have := body.above k ck (by omega) found
      omega
  tame i j ci cj r less low foundI foundJ calls returns between := by
    obtain ⟨j, rfl⟩ := Nat.exists_eq_succ_of_ne_zero (by omega : j ≠ 0)
    rw [after_succ next] at foundJ
    cases i with
    | zero =>
      obtain rfl : c = ci := by simpa [after] using foundI
      have := body.above j cj (by omega) foundJ
      omega
    | succ i =>
      rw [after_succ next] at foundI
      refine body.tame i j ci cj r (by omega) (by omega) foundI foundJ calls returns
        fun k ck low' high found => between (k + 1) ck (by omega) (by omega) ?_
      rw [after_succ next, found]

/-- A completed call. -/
theorem call (next : advance host c = .inl c₁) (deeper : c₁.1.depth = c.1.depth + 1)
    (body : Walk host n c₁ c₂) (level : c₂.1.depth = c₁.1.depth)
    (back : advance host c₂ = .inl c₃) (noCall : ∀ r, ¬ c₂.1.Calls r)
    (same : c₃.1.depth = c.1.depth) (returned : ∀ r, c.1.Calls r → Returned r c.1 c₃.1) :
    Walk host (n + 2) c c₃ := by
  have entered : Walk host (n + 1) c c₂ := enter next (by omega) body
  have last : after host (n + 2) c = some c₃ := by
    rw [show n + 2 = (n + 1) + 1 from rfl, after_add, entered.ends]
    simp [after, back]
  refine ⟨last, ?_, ?_⟩
  · intro k ck low found
    rcases Nat.lt_or_ge k (n + 2) with early | late
    · exact entered.above k ck (by omega) found
    · obtain rfl : k = n + 2 := by omega
      obtain rfl := Option.some.inj (last.symm.trans found)
      omega
  · intro i j ci cj r less low foundI foundJ calls returns between
    rcases Nat.lt_or_ge j (n + 2) with early | late
    · exact entered.tame i j ci cj r less (by omega) foundI foundJ calls returns between
    obtain rfl : j = n + 2 := by omega
    obtain rfl := Option.some.inj (last.symm.trans foundJ)
    rcases Nat.eq_zero_or_pos i with rfl | inner
    · obtain rfl : c = ci := by simpa [after] using foundI
      exact returned r calls
    rcases Nat.lt_or_ge i (n + 1) with early | atEnd
    · -- A call within the body is completed there.
      have high := between (n + 1) c₂ early (by omega) entered.ends
      obtain ⟨i, rfl⟩ := Nat.exists_eq_succ_of_ne_zero (by omega : i ≠ 0)
      rw [after_succ next] at foundI
      have := body.above i ci (by omega) foundI
      omega
    · obtain rfl : i = n + 1 := by omega
      obtain rfl := Option.some.inj (entered.ends.symm.trans foundI)
      exact absurd calls (noCall r)

end Walk

/-- A run comes to a later configuration of the same activation. -/
def Reaches (host : Host σ) (c c' : Machine × σ) : Prop :=
  c'.1.depth = c.1.depth ∧ ∃ n, Walk host n c c'

/-- A run goes on for so many steps. -/
def Lasts (host : Host σ) (n : Nat) (c : Machine × σ) : Prop :=
  ∃ k c', n ≤ k ∧ Walk host k c c'

/-- A run is over with a result. -/
def Ends (host : Host σ) (c : Machine × σ) (r : EStateM.Result Error σ Machine) : Prop :=
  ∃ n c', Walk host n c c' ∧ advance host c' = .inr r

theorem Reaches.refl (c : Machine × σ) : Reaches host c c :=
  ⟨rfl, 0, .refl c⟩

theorem Reaches.trans (first : Reaches host c c₁) (second : Reaches host c₁ c₂) :
    Reaches host c c₂ := by
  obtain ⟨level, n, walk⟩ := first
  obtain ⟨level', k, walk'⟩ := second
  exact ⟨level'.trans level, n + k, walk.trans walk' level⟩

theorem Reaches.lasts (first : Reaches host c c₁) (second : Lasts host n c₁) : Lasts host n c := by
  obtain ⟨level, m, walk⟩ := first
  obtain ⟨k, c', long, walk'⟩ := second
  exact ⟨m + k, c', by omega, walk.trans walk' level⟩

theorem Reaches.ends {r : EStateM.Result Error σ Machine} (first : Reaches host c c₁)
    (second : Ends host c₁ r) : Ends host c r := by
  obtain ⟨level, n, walk⟩ := first
  obtain ⟨k, c', walk', ended⟩ := second
  exact ⟨n + k, c', walk.trans walk' level, ended⟩

theorem Reaches.of_step (next : advance host c = .inl c₁) (noCall : ∀ r, ¬ c.1.Calls r)
    (level : c₁.1.depth = c.1.depth) : Reaches host c c₁ :=
  ⟨level, 1, .step next noCall level.ge⟩

theorem Lasts.zero (c : Machine × σ) : Lasts host 0 c :=
  ⟨0, c, le_rfl, .refl c⟩

theorem Lasts.mono (h : Lasts host n c) (le : k ≤ n) : Lasts host k c := by
  obtain ⟨m, c', long, walk⟩ := h
  exact ⟨m, c', le.trans long, walk⟩

theorem Lasts.of_step (next : advance host c = .inl c₁) (noCall : ∀ r, ¬ c.1.Calls r)
    (level : c₁.1.depth = c.1.depth) (rest : Lasts host n c₁) : Lasts host (n + 1) c := by
  obtain ⟨k, c', long, walk⟩ := rest
  exact ⟨1 + k, c', by omega, (Walk.step next noCall level.ge).trans walk level⟩

/-- A completed call. -/
theorem Reaches.call (next : advance host c = .inl c₁) (deeper : c₁.1.depth = c.1.depth + 1)
    (body : Reaches host c₁ c₂) (back : advance host c₂ = .inl c₃) (noCall : ∀ r, ¬ c₂.1.Calls r)
    (same : c₃.1.depth = c.1.depth) (returned : ∀ r, c.1.Calls r → Returned r c.1 c₃.1) :
    Reaches host c c₃ := by
  obtain ⟨level, n, walk⟩ := body
  exact ⟨same, n + 2, .call next deeper walk level back noCall same returned⟩

theorem Lasts.enter (next : advance host c = .inl c₁) (deeper : c.1.depth < c₁.1.depth)
    (body : Lasts host n c₁) : Lasts host n c := by
  obtain ⟨k, c', long, walk⟩ := body
  exact ⟨k + 1, c', by omega, .enter next deeper walk⟩

theorem Ends.enter {r : EStateM.Result Error σ Machine} (next : advance host c = .inl c₁)
    (deeper : c.1.depth < c₁.1.depth) (body : Ends host c₁ r) : Ends host c r := by
  obtain ⟨k, c', walk, ended⟩ := body
  exact ⟨k + 1, c', .enter next deeper walk, ended⟩

/-- A run is over with a result, and the calls in it are balanced. -/
def Finishes (host : Host σ) (c : Machine × σ) (r : EStateM.Result Error σ Machine) : Prop :=
  ∃ n c', after host n c = some c' ∧ advance host c' = .inr r ∧ Tame host n c

theorem Tame.mono (h : Tame host n c) (le : k ≤ n) : Tame host k c :=
  fun i j ci cj r less low => h i j ci cj r less (low.trans le)

/-- No step is made after the last. -/
theorem le_of_over {c' ck : Machine × σ} {r : EStateM.Result Error σ Machine}
    (found : after host n c = some c') (ended : advance host c' = .inr r)
    (later : after host k c = some ck) : k ≤ n := by
  by_contra high
  obtain ⟨d, rfl⟩ : ∃ d, k = n + (d + 1) := ⟨k - n - 1, by omega⟩
  rw [after_add, found] at later
  simp [after, ended] at later

theorem Ends.finishes {r : EStateM.Result Error σ Machine} (h : Ends host c r) :
    Finishes host c r := by
  obtain ⟨n, c', walk, ended⟩ := h
  exact ⟨n, c', walk.ends, ended, walk.tame⟩

/-- A run that leaves its first activation at last. -/
theorem Reaches.finishes {r : EStateM.Result Error σ Machine} (first : Reaches host c c₁)
    (noCall : ∀ r, ¬ c₁.1.Calls r) (next : advance host c₁ = .inl c₂)
    (ended : advance host c₂ = .inr r) : Finishes host c r := by
  obtain ⟨level, n, walk⟩ := first
  have last : after host (n + 1) c = some c₂ := by
    rw [after_add, walk.ends]
    simp [after, next]
  refine ⟨n + 1, c₂, last, ended, ?_⟩
  intro i j ci cj r less low foundI foundJ calls returns between
  rcases Nat.lt_or_ge j (n + 1) with early | late
  · exact walk.tame i j ci cj r less (by omega) foundI foundJ calls returns between
  obtain rfl : j = n + 1 := by omega
  rcases Nat.lt_or_ge i n with inside | atEnd
  · have deeper := between n c₁ inside (by omega) walk.ends
    have := walk.above i ci (by omega) foundI
    omega
  · obtain rfl : i = n := by omega
    obtain rfl := Option.some.inj (walk.ends.symm.trans foundI)
    exact absurd calls (noCall r)

theorem Finishes.run {r : EStateM.Result Error σ Machine} (h : Finishes host c r) :
    ∃ fuel, run host fuel c.1 c.2 = some r := by
  obtain ⟨n, c', found, ended, -⟩ := h
  exact ⟨n + 1, run_eq_some.mpr ⟨n, c', by omega, found, ended⟩⟩

/-- A run has only one result. -/
theorem Finishes.unique {r r' : EStateM.Result Error σ Machine} (h : Finishes host c r)
    {fuel : Nat} (other : Machine.run host fuel c.1 c.2 = some r') : r' = r := by
  obtain ⟨n, c', found, ended, -⟩ := h
  obtain ⟨k, c'', -, found', ended'⟩ := run_eq_some.mp other
  obtain rfl : n = k :=
    Nat.le_antisymm (le_of_over found' ended' found) (le_of_over found ended found')
  obtain rfl := Option.some.inj (found.symm.trans found')
  exact Sum.inr.inj (ended'.symm.trans ended)

/-- A run that lasts has no result yet. -/
theorem Lasts.run (h : Lasts host n c) : run host n c.1 c.2 = none := by
  obtain ⟨k, c', long, walk⟩ := h
  refine Option.eq_none_iff_forall_ne_some.mpr fun r found => ?_
  obtain ⟨j, c'', low, found', ended⟩ := run_eq_some.mp found
  have := le_of_over found' ended walk.ends
  omega

theorem Finishes.tame {r : EStateM.Result Error σ Machine} (h : Finishes host c r) (n : Nat) :
    Tame host n c := by
  obtain ⟨k, c', found, ended, tame⟩ := h
  intro i j ci cj r less _ foundI foundJ
  exact tame i j ci cj r less (le_of_over found ended foundJ) foundI foundJ

theorem Lasts.tame (h : Lasts host n c) : Tame host n c := by
  obtain ⟨k, c', long, walk⟩ := h
  exact walk.tame.mono long

end Machine

end Guarded
