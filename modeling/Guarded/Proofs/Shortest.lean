import Guarded.Proofs.Numerals

/-!
Shortest digits read back. The numbers that round to a value form an interval around it: half a
unit of its last place to each side, or a quarter below where the places get finer there, and the
ends of it exactly if the significand is even. Whatever lies in the interval is rounded to the bits
of the value.

The search takes a decimal only if it lies in that interval, and it does not run out of grids:
nineteen places after the first digit of the value the multiples are closer together than the
interval is wide.
-/

namespace Guarded.Number

variable {f : Format} {m : Nat} {q : Int}

/-- How many quarters of a unit the numbers that round to `m · 2 ^ q` reach down. -/
def Format.reach (f : Format) (m : Nat) (q : Int) : Nat :=
  if m = Nat.pow 2 f.fraction && f.least < q then 1 else 2

theorem Format.reach_pos (f : Format) (m : Nat) (q : Int) : 0 < f.reach m q := by
  unfold reach
  split <;> decide

theorem Format.reach_le (f : Format) (m : Nat) (q : Int) : f.reach m q ≤ 2 := by
  unfold reach
  split <;> decide

/-- The numbers around `m · 2 ^ q`, from `below` quarters of a unit under it to half a unit above;
the ends belong to them if `m` is even. -/
structure Near (m : Nat) (q : Int) (below : Nat) (x : ℚ) : Prop where
  low : (m - below / 4) * 2 ^ q ≤ x
  high : x ≤ (m + 1 / 2) * 2 ^ q
  inner : m % 2 = 1 → (m - below / 4) * 2 ^ q < x ∧ x < (m + 1 / 2) * 2 ^ q

section Rounding

variable {num den : Nat}

/-- A ratio within half a unit of a natural is rounded to it, at the ends if it is even. -/
theorem divHalfEven_eq (positive : 0 < den) (low : (m - 1 / 2 : ℚ) ≤ num / den)
    (high : (num / den : ℚ) ≤ m + 1 / 2)
    (inner : m % 2 = 1 → (m - 1 / 2 : ℚ) < num / den ∧ (num / den : ℚ) < m + 1 / 2) :
    divHalfEven num den = m := by
  have denPos : (0 : ℚ) < den := mod_cast positive
  have low' : 2 * (m * den) ≤ 2 * num + den := by
    rw [le_div_iff₀ denPos] at low
    have : (2 * (m * den) : ℚ) ≤ 2 * num + den := by linarith
    exact_mod_cast this
  have high' : 2 * num ≤ 2 * (m * den) + den := by
    rw [div_le_iff₀ denPos] at high
    have : (2 * num : ℚ) ≤ 2 * (m * den) + den := by linarith
    exact_mod_cast this
  have inner' : m % 2 = 1 → 2 * (m * den) < 2 * num + den ∧ 2 * num < 2 * (m * den) + den := by
    intro odd
    obtain ⟨above, under⟩ := inner odd
    rw [lt_div_iff₀ denPos] at above
    rw [div_lt_iff₀ denPos] at under
    have left : (2 * (m * den) : ℚ) < 2 * num + den := by linarith
    have right : (2 * num : ℚ) < 2 * (m * den) + den := by linarith
    exact ⟨mod_cast left, mod_cast right⟩
  have parts := Nat.div_add_mod' num den
  have small := Nat.mod_lt num positive
  unfold divHalfEven
  dsimp only
  generalize num / den = whole at parts ⊢
  generalize num % den = rest at parts small ⊢
  have atMost : whole ≤ m := by
    by_contra above
    have := Nat.mul_le_mul_right den (Nat.lt_of_not_le above)
    rw [Nat.succ_mul] at this
    omega
  have atLeast : m ≤ whole + 1 := by
    by_contra above
    have := Nat.mul_le_mul_right den (Nat.lt_of_not_le above)
    rw [Nat.succ_mul, Nat.succ_mul] at this
    omega
  obtain rfl | rfl : m = whole ∨ m = whole + 1 := by omega
  · rw [if_neg (by omega : ¬ den < 2 * rest)]
    split <;> omega
  · rw [Nat.add_one_mul whole] at low' high' inner'
    rw [if_neg (by omega : ¬ 2 * rest < den)]
    split <;> omega

theorem ofRatio_eq {k : Int} (nonzero : num ≠ 0) (positive : 0 < den)
    (place : max (Int.log 2 (num / den : ℚ) - f.fraction) f.least = k)
    (low : (m - 1 / 2 : ℚ) * 2 ^ k ≤ num / den) (high : (num / den : ℚ) ≤ (m + 1 / 2) * 2 ^ k)
    (inner : m % 2 = 1 → (m - 1 / 2 : ℚ) * 2 ^ k < num / den ∧
      (num / den : ℚ) < (m + 1 / 2) * 2 ^ k) :
    ofRatio f num den = min (f.encode m k) f.infinity := by
  have pow : (0 : ℚ) < 2 ^ k := zpow_pos two_pos k
  have value := scale_value num den k
  have rounded : divHalfEven (scale num den k).1 (scale num den k).2 = m := by
    apply divHalfEven_eq (scale_pos num k positive)
    · rwa [value, le_div_iff₀ pow]
    · rwa [value, div_le_iff₀ pow]
    · intro odd
      rw [value, lt_div_iff₀ pow, div_lt_iff₀ pow]
      exact inner odd
  rw [ofRatio, if_neg nonzero, floorLog2_eq_log nonzero positive.ne', place]
  simp only [rounded]
  rfl

/-- Under a power of two the places are finer: a quarter of a unit is half a place there. -/
theorem ofRatio_foot (above : f.least < q) (nonzero : num ≠ 0) (positive : 0 < den)
    (low : (2 ^ f.fraction - 1 / 4 : ℚ) * 2 ^ q ≤ num / den)
    (under : (num / den : ℚ) < 2 ^ f.fraction * 2 ^ q) :
    ofRatio f num den = min (f.encode (2 ^ f.fraction) q) f.infinity := by
  have half : (2 : ℚ) ^ q = 2 * 2 ^ (q - 1) := by
    rw [zpow_sub₀ two_ne_zero, zpow_one]
    field_simp
  have halfPos : (0 : ℚ) < 2 ^ (q - 1) := zpow_pos two_pos _
  have one : (1 : ℚ) ≤ 2 ^ f.fraction := one_le_pow₀ one_le_two
  rw [half] at low under
  have log : Int.log 2 (num / den : ℚ) = f.fraction + (q - 1) := by
    apply log_eq
    · rw [zpow_add₀ two_ne_zero, zpow_natCast]
      nlinarith
    · rw [add_right_comm, zpow_add₀ two_ne_zero, zpow_add₀ two_ne_zero, zpow_natCast, zpow_one]
      linarith
  have bits : f.encode (2 * 2 ^ f.fraction) (q - 1) = f.encode (2 ^ f.fraction) q := by
    have step : (q - f.least).toNat = (q - 1 - f.least).toNat + 1 := by omega
    rw [Format.encode, Format.encode, step, Nat.add_one_mul (q - 1 - f.least).toNat]
    omega
  rw [← bits]
  apply ofRatio_eq nonzero positive
  · omega
  · push_cast
    linarith
  · push_cast
    linarith
  · omega

/-- Whatever lies in the interval of a value is rounded to the bits of the value. -/
theorem ofRatio_near (h : f.Canonical m q) (nonzero : m ≠ 0) (positive : 0 < den)
    (near : Near m q (f.reach m q) (num / den)) : ofRatio f num den = f.encode m q := by
  have pow : (0 : ℚ) < 2 ^ q := zpow_pos two_pos q
  have one : (1 : ℚ) ≤ m := mod_cast Nat.one_le_iff_ne_zero.mpr nonzero
  have reach : (f.reach m q : ℚ) ≤ 2 := mod_cast f.reach_le m q
  have low : (m - 1 / 2 : ℚ) * 2 ^ q ≤ num / den :=
    le_trans (mul_le_mul_of_nonneg_right (by linarith) pow.le) near.low
  have valuePos : (0 : ℚ) < num / den := lt_of_lt_of_le (mul_pos (by linarith) pow) low
  have numNonzero : num ≠ 0 := by
    rintro rfl
    simp at valuePos
  have least := h.least
  rw [← min_eq_left h.encode_lt.le]
  by_cases under : f.least < q ∧ (num / den : ℚ) < 2 ^ f.fraction * 2 ^ q
  · obtain ⟨above, under⟩ := under
    have full : 2 ^ f.fraction ≤ m := h.leading.resolve_left above.ne'
    obtain rfl : m = 2 ^ f.fraction := by
      refine le_antisymm ?_ full
      have : (m - 1 / 2 : ℚ) < 2 ^ f.fraction := lt_of_mul_lt_mul_right (low.trans_lt under) pow.le
      have : (m : ℚ) < 2 ^ f.fraction + 1 := by linarith
      exact Nat.le_of_lt_succ (mod_cast this)
    have quarter : f.reach (2 ^ f.fraction) q = 1 := if_pos (by simp [above])
    have lowest := near.low
    rw [quarter] at lowest
    push_cast at lowest
    exact ofRatio_foot above numNonzero positive lowest under
  · have log : Int.log 2 (num / den : ℚ) < q + (f.fraction + 1 : Nat) := by
      have short : (m + 1 : ℚ) ≤ 2 ^ (f.fraction + 1) := mod_cast h.short
      have above : (num / den : ℚ) < 2 ^ (q + (f.fraction + 1 : Nat)) := by
        rw [zpow_add₀ two_ne_zero, zpow_natCast, mul_comm]
        exact near.high.trans_lt (mul_lt_mul_of_pos_right (by linarith) pow)
      exact (Int.lt_zpow_iff_log_lt (by decide) valuePos).mp (mod_cast above)
    have place : max (Int.log 2 (num / den : ℚ) - f.fraction) f.least = q := by
      rcases Int.lt_or_eq_of_le least with above | rfl
      · have reaches : (2 : ℚ) ^ (f.fraction + q) ≤ num / den := by
          rw [zpow_add₀ two_ne_zero, zpow_natCast]
          exact not_lt.mp fun lt => under ⟨above, lt⟩
        have := (Int.zpow_le_iff_le_log (b := 2) (by decide) valuePos).mp (mod_cast reaches)
        omega
      · omega
    refine ofRatio_eq numNonzero positive place low near.high fun odd => ?_
    obtain ⟨left, right⟩ := near.inner odd
    exact ⟨lt_of_le_of_lt (mul_le_mul_of_nonneg_right (by linarith) pow.le) left, right⟩

end Rounding

section Search

variable {below : Nat} {k : Int} {tie : Tie} {digits : Nat}

/-- On a grid, naturals stand for quarters of a unit and for multiples of the power of ten. -/
theorem grid_value (q k : Int) (n : Nat) :
    (n * (gridFactors q k).1 * 10 ^ k : ℚ) = n / 4 * 2 ^ q * (gridFactors q k).2 := by
  have positive : (0 : ℚ) < (gridFactors q k).2 := mod_cast gridFactors_pos q k
  have ten : (0 : ℚ) < 10 ^ k := zpow_pos (by norm_num) k
  have value := gridFactors_value q k
  rw [div_eq_div_iff positive.ne' ten.ne', zpow_sub₀ two_ne_zero] at value
  rw [mul_assoc, value]
  norm_num
  ring

theorem grid_le_iff (q k : Int) (n c : Nat) :
    n * (gridFactors q k).1 ≤ c * (gridFactors q k).2 ↔ (n / 4 * 2 ^ q : ℚ) ≤ c * 10 ^ k := by
  have positive : (0 : ℚ) < (gridFactors q k).2 := mod_cast gridFactors_pos q k
  have ten : (0 : ℚ) < 10 ^ k := zpow_pos (by norm_num) k
  rw [← mul_le_mul_iff_left₀ positive, ← grid_value, mul_right_comm (c : ℚ),
    mul_le_mul_iff_left₀ ten]
  exact_mod_cast Iff.rfl

theorem le_grid_iff (q k : Int) (n c : Nat) :
    c * (gridFactors q k).2 ≤ n * (gridFactors q k).1 ↔ (c * 10 ^ k : ℚ) ≤ n / 4 * 2 ^ q := by
  have positive : (0 : ℚ) < (gridFactors q k).2 := mod_cast gridFactors_pos q k
  have ten : (0 : ℚ) < 10 ^ k := zpow_pos (by norm_num) k
  rw [← mul_le_mul_iff_left₀ positive, ← grid_value, mul_right_comm (c : ℚ),
    mul_le_mul_iff_left₀ ten]
  exact_mod_cast Iff.rfl

/-- The value lies between the multiple below it and the next one. -/
theorem grid_floor (m : Nat) (q k : Int) :
    ((4 * m * (gridFactors q k).1 / (gridFactors q k).2 : Nat) * 10 ^ k : ℚ) ≤ m * 2 ^ q ∧
      (m * 2 ^ q : ℚ) <
        ((4 * m * (gridFactors q k).1 / (gridFactors q k).2 : Nat) + 1) * 10 ^ k := by
  have quarters : ((4 * m : Nat) / 4 : ℚ) = m := by
    push_cast
    field_simp
  constructor
  · have under := (le_grid_iff q k (4 * m) _).mp (Nat.div_mul_le_self _ _)
    rwa [quarters] at under
  · have beyond := Nat.lt_mul_of_div_lt (Nat.lt_succ_self (4 * m * (gridFactors q k).1 / _))
      (gridFactors_pos q k)
    rw [← not_le, le_grid_iff, not_le, quarters] at beyond
    exact_mod_cast beyond

/-- What a grid offers lies in the interval. -/
theorem onGrid_near (nonzero : m ≠ 0) (small : below ≤ 2)
    (h : onGrid tie m q below k = some digits) : Near m q below (digits * 10 ^ k) := by
  have pow : (0 : ℚ) < 2 ^ q := zpow_pos two_pos q
  have inside : (m - below / 4 : ℚ) * 2 ^ q ≤ m * 2 ^ q :=
    mul_le_mul_of_nonneg_right (sub_le_self _ (by positivity)) pow.le
  have room : (m * 2 ^ q : ℚ) < (m + 1 / 2) * 2 ^ q := mul_lt_mul_of_pos_right (by linarith) pow
  have low : ((4 * m - below : Nat) / 4 : ℚ) = m - below / 4 := by
    rw [Nat.cast_sub (by omega)]
    push_cast
    ring
  have high : ((4 * m + 2 : Nat) / 4 : ℚ) = m + 1 / 2 := by
    push_cast
    ring
  obtain ⟨under, beyond⟩ := grid_floor m q k
  obtain ⟨rfl, least, inner⟩ | ⟨rfl, greatest, inner⟩ := (onGrid_spec tie m q below k).1 digits h
  · rw [grid_le_iff, low] at least
    refine ⟨least, (under.trans_lt room).le, fun odd => ⟨?_, under.trans_lt room⟩⟩
    rw [← not_le, le_grid_iff, not_le, low] at inner
    exact inner odd
  · rw [le_grid_iff, high] at greatest
    push_cast at greatest ⊢
    refine ⟨(inside.trans_lt beyond).le, greatest, fun odd => ⟨inside.trans_lt beyond, ?_⟩⟩
    rw [← not_le, grid_le_iff, not_le, high] at inner
    exact_mod_cast inner odd

/-- Where multiples are closer together than half a unit, there is one in the interval. -/
theorem onGrid_fine (fine : (10 : ℚ) ^ k < 2 ^ q / 2) : onGrid tie m q below k ≠ none := by
  intro h
  have outside := (grid_le_iff q k _ _).mp ((onGrid_spec tie m q below k).2 h).2
  have under := (grid_floor m q k).1
  push_cast at outside
  linarith

/-- The value itself is offered if it is a multiple. -/
theorem onGrid_exact {n : Nat} (nonzero : m ≠ 0) (positive : 0 < below)
    (exact : (m * 2 ^ q : ℚ) = n * 10 ^ k) : onGrid tie m q below k ≠ none := by
  intro h
  have pow : (0 : ℚ) < 2 ^ q := zpow_pos two_pos q
  have ten : (0 : ℚ) < 10 ^ k := zpow_pos (by norm_num) k
  have outside := (le_grid_iff q k _ _).mp ((onGrid_spec tie m q below k).2 h).1
  obtain ⟨-, beyond⟩ := grid_floor m q k
  rw [exact, mul_lt_mul_iff_left₀ ten] at beyond
  have least : n ≤ 4 * m * (gridFactors q k).1 / (gridFactors q k).2 :=
    Nat.le_of_lt_succ (mod_cast beyond)
  have reached : (n * 10 ^ k : ℚ) ≤ _ * 10 ^ k :=
    mul_le_mul_of_nonneg_right (Nat.cast_le.mpr least) ten.le
  have under : ((4 * m - below : Nat) / 4 * 2 ^ q : ℚ) < m * 2 ^ q := by
    refine mul_lt_mul_of_pos_right ?_ pow
    rw [div_lt_iff₀ (by norm_num)]
    exact_mod_cast (by omega : 4 * m - below < m * 4)
  linarith

/-- The search ends on the first grid that offers something. -/
theorem search_found {fuel n : Nat} (enough : n < fuel)
    (offers : onGrid tie m q below (k - n) ≠ none) :
    ∃ j ≤ n, onGrid tie m q below (k - j) = some (search tie m q below fuel k).digits ∧
      (search tie m q below fuel k).exponent = k - j ∧
        ∀ i < j, onGrid tie m q below (k - (i : Nat)) = none := by
  induction fuel generalizing n k with
  | zero => omega
  | succ fuel ih =>
    cases here : onGrid tie m q below k with
    | some digits =>
      refine ⟨0, Nat.zero_le n, ?_, ?_, nofun⟩
      · simp [search, here]
      · simp [search, here]
    | none =>
      cases n with
      | zero => simp [here] at offers
      | succ n =>
        have shift (i : Nat) : k - (i + 1 : Nat) = k - 1 - i := by omega
        rw [shift] at offers
        obtain ⟨j, most, found, exponent, before⟩ := ih (by omega) offers
        refine ⟨j + 1, by omega, ?_, ?_, ?_⟩
        · rw [shift, search, here]
          exact found
        · rw [shift, search, here]
          exact exponent
        · intro i less
          cases i with
          | zero => simpa using here
          | succ i =>
            rw [shift]
            exact before i (by omega)

end Search

section Value

/-- The number a decimal stands for. -/
def Decimal.value (d : Decimal) : ℚ :=
  d.digits * 10 ^ d.exponent

theorem strip_value (fuel : Nat) (d : Decimal) : (strip fuel d).value = d.value := by
  induction fuel generalizing d with
  | zero => rfl
  | succ fuel ih =>
    unfold strip
    split
    · next divides =>
      have tens : ((d.digits / 10 : Nat) * 10 : ℚ) = d.digits := mod_cast (by omega)
      rw [ih, Decimal.value, Decimal.value, zpow_add₀ (by norm_num), zpow_one, ← tens]
      ring
    · rfl

theorem le_strip_exponent (fuel : Nat) (d : Decimal) : d.exponent ≤ (strip fuel d).exponent := by
  induction fuel generalizing d with
  | zero => exact le_rfl
  | succ fuel ih =>
    unfold strip
    split
    · exact (Int.le_add_one le_rfl).trans (ih _)
    · exact le_rfl

/-- The shortest decimal was offered by a grid, and by none that was tried before. -/
theorem shortest_found (h : f.Canonical m q) (nonzero : m ≠ 0) (narrow : f.fraction ≤ 60)
    (tie : Tie) : ∃ (k : Int) (digits : Nat),
      onGrid tie m q (f.reach m q) k = some digits ∧
      (shortest f tie m q).value = digits * 10 ^ k ∧ k ≤ (shortest f tie m q).exponent ∧
      (10 : ℚ) ^ k ≤ m * 2 ^ q ∧
      ∀ k' ≤ floorLog10 (scale m 1 (-q)).1 (scale m 1 (-q)).2, k < k' →
        onGrid tie m q (f.reach m q) k' = none := by
  have begins := pow_floorLog10_scale_le (q := q) nonzero
  have same : shortest f tie m q = strip 20 (search tie m q (f.reach m q) 20
      (floorLog10 (scale m 1 (-q)).1 (scale m 1 (-q)).2)) := rfl
  rw [same]
  generalize floorLog10 (scale m 1 (-q)).1 (scale m 1 (-q)).2 = start at begins ⊢
  have fine : (10 : ℚ) ^ (start - (19 : Nat)) < 2 ^ q / 2 := by
    have pow : (0 : ℚ) < 2 ^ q := zpow_pos two_pos q
    have short : (m : ℚ) < 2 ^ 61 := by
      have := h.short.trans_le (Nat.pow_le_pow_right two_pos (by omega : f.fraction + 1 ≤ 61))
      exact_mod_cast this
    rw [zpow_sub₀ (by norm_num), zpow_natCast, div_lt_iff₀ (by norm_num)]
    calc (10 : ℚ) ^ start ≤ m * 2 ^ q := begins
      _ < 2 ^ 61 * 2 ^ q := mul_lt_mul_of_pos_right short pow
      _ ≤ 2 ^ q / 2 * 10 ^ 19 := by linarith
  have offers : onGrid tie m q (f.reach m q) (start - (19 : Nat)) ≠ none := onGrid_fine fine
  obtain ⟨j, -, found, exponent, before⟩ := search_found (by decide : 19 < 20) offers
  refine ⟨start - j, _, found, ?_, ?_, ?_, ?_⟩
  · rw [strip_value, Decimal.value, exponent]
  · exact exponent.symm.le.trans (le_strip_exponent 20 _)
  · exact (zpow_le_zpow_right₀ (by norm_num) (by omega)).trans begins
  · intro k' most above
    obtain ⟨i, rfl⟩ : ∃ i : Nat, k' = start - i := ⟨(start - k').toNat, by omega⟩
    exact before i (by omega)

/-- The shortest decimal lies in the interval. -/
theorem shortest_near (h : f.Canonical m q) (nonzero : m ≠ 0) (narrow : f.fraction ≤ 60)
    (tie : Tie) : Near m q (f.reach m q) (shortest f tie m q).value := by
  obtain ⟨k, digits, found, value, -⟩ := shortest_found h nonzero narrow tie
  rw [value]
  exact onGrid_near nonzero (f.reach_le m q) found

/-- Rounding up never passes a power of ten. -/
theorem pow_le_shortest (h : f.Canonical m q) (nonzero : m ≠ 0) (narrow : f.fraction ≤ 60)
    (tie : Tie) {t : Int} (reaches : (10 : ℚ) ^ t ≤ m * 2 ^ q) :
    (10 : ℚ) ^ t ≤ (shortest f tie m q).value := by
  obtain ⟨k, digits, found, value, -, begins, -⟩ := shortest_found h nonzero narrow tie
  have ten : (0 : ℚ) < 10 ^ k := zpow_pos (by norm_num) k
  have coarser {t : Int} (above : k ≤ t) (reaches : (10 : ℚ) ^ t ≤ m * 2 ^ q) :
      (10 : ℚ) ^ t ≤ digits * 10 ^ k := by
    have split : (10 : ℚ) ^ t = (10 ^ (t - k).toNat : Nat) * 10 ^ k := by
      rw [Nat.cast_pow, Nat.cast_ofNat, ← zpow_natCast, ← zpow_add₀ (by norm_num)]
      congr 1
      omega
    rw [split] at reaches ⊢
    have under := lt_of_mul_lt_mul_right (reaches.trans_lt (grid_floor m q k).2) ten.le
    have multiple := (Nat.le_of_lt_succ (mod_cast under)).trans (onGrid_ge found)
    exact mul_le_mul_of_nonneg_right (Nat.cast_le.mpr multiple) ten.le
  rw [value]
  rcases le_total k t with above | below
  · exact coarser above reaches
  · exact (zpow_le_zpow_right₀ (by norm_num) below).trans (coarser le_rfl begins)

/-- The shortest decimal of a whole number is whole. -/
theorem shortest_whole (h : f.Canonical m q) (nonzero : m ≠ 0) (narrow : f.fraction ≤ 60)
    (tie : Tie) (whole : 0 ≤ q) : 0 ≤ (shortest f tie m q).exponent := by
  obtain ⟨k, digits, -, -, exponent, -, before⟩ := shortest_found h nonzero narrow tie
  refine le_trans ?_ exponent
  by_contra fraction
  obtain ⟨n, rfl⟩ := Int.eq_ofNat_of_zero_le whole
  have exact : (m * 2 ^ (n : Int) : ℚ) = (m * 2 ^ n : Nat) * 10 ^ (0 : Int) := by
    rw [zpow_natCast, zpow_zero, mul_one]
    exact_mod_cast rfl
  have begins : 0 ≤ floorLog10 (scale m 1 (-n)).1 (scale m 1 (-n)).2 := by
    have value := scale_value m 1 (-n)
    have positive : (0 : ℚ) < (scale m 1 (-n)).2 := mod_cast scale_pos m (-n) Nat.one_pos
    have one : 1 ≤ m * 2 ^ n := Nat.mul_pos (Nat.pos_of_ne_zero nonzero) (Nat.pow_pos two_pos)
    rw [Nat.cast_one, div_one, zpow_neg, div_inv_eq_mul, exact, zpow_zero, mul_one,
      div_eq_iff positive.ne'] at value
    have large : (scale m 1 (-n)).2 ≤ (scale m 1 (-n)).1 := by
      have := Nat.mul_le_mul_right (scale m 1 (-n)).2 one
      rw [Nat.one_mul] at this
      exact this.trans_eq (mod_cast value.symm)
    have long : 0 < digitCount ((scale m 1 (-n)).1 / (scale m 1 (-n)).2) := Nat.length_toDigits_pos
    rw [floorLog10, if_pos large]
    omega
  exact onGrid_exact nonzero (f.reach_pos m n) exact (before 0 begins (by omega))

theorem Decimal.ratio_pos (d : Decimal) : 0 < d.ratio.2 := by
  unfold ratio
  split
  · exact Nat.one_pos
  · exact Nat.pow_pos (by decide)

theorem Decimal.ratio_value (d : Decimal) : (d.ratio.1 / d.ratio.2 : ℚ) = d.value := by
  unfold ratio value
  split
  case isTrue h =>
    obtain ⟨n, same⟩ := Int.eq_ofNat_of_zero_le h
    simp [same]
  case isFalse h =>
    obtain ⟨n, same⟩ := Int.eq_ofNat_of_zero_le (by omega : 0 ≤ -d.exponent)
    obtain whole : d.exponent = -n := by omega
    simp [whole, div_eq_mul_inv]

/-- The first digit of a decimal gives the powers of ten around it. -/
theorem Decimal.value_between {d : Decimal} (nonzero : d.digits ≠ 0) :
    (10 : ℚ) ^ (digitCount d.digits + d.exponent - 1) ≤ d.value ∧
      d.value < 10 ^ (digitCount d.digits + d.exponent) := by
  have ten : (0 : ℚ) < 10 ^ d.exponent := zpow_pos (by norm_num) _
  have long : 1 ≤ digitCount d.digits := Nat.length_toDigits_pos
  have low : ((10 ^ (digitCount d.digits - 1) : Nat) : ℚ) ≤ d.digits :=
    mod_cast digitCount_pow_le nonzero
  have high : (d.digits : ℚ) < (10 ^ digitCount d.digits : Nat) := mod_cast lt_pow_digitCount _
  rw [Nat.cast_pow, Nat.cast_ofNat, ← zpow_natCast] at low high
  constructor
  · rw [add_sub_right_comm, zpow_add₀ (by norm_num)]
    have place : (digitCount d.digits : Int) - 1 = (digitCount d.digits - 1 : Nat) := by omega
    rw [place]
    exact mul_le_mul_of_nonneg_right low ten.le
  · rw [zpow_add₀ (by norm_num)]
    exact mul_lt_mul_of_pos_right high ten

/-- A decimal in the interval of a single is read as that single. -/
theorem Decimal.toBits_near {d : Decimal} (h : single.Canonical m q) (nonzero : m ≠ 0)
    (near : Near m q (single.reach m q) d.value) : d.toBits single = single.encode m q := by
  have least : -149 ≤ q := h.least
  have greatest : q ≤ 104 := by
    have bounded : (q - -149).toNat + 2 < 2 ^ 8 := h.bounded
    omega
  have low : (10 : ℚ) ^ (-150 : Int) ≤ d.value := by
    have one : (1 : ℚ) ≤ m := mod_cast Nat.one_le_iff_ne_zero.mpr nonzero
    have reach : (single.reach m q : ℚ) ≤ 2 := mod_cast single.reach_le m q
    calc (10 : ℚ) ^ (-150 : Int) ≤ 1 / 2 * 2 ^ (-149 : Int) := by norm_num
      _ ≤ (m - single.reach m q / 4) * 2 ^ q :=
          mul_le_mul (by linarith) (zpow_le_zpow_right₀ one_le_two least) (zpow_pos two_pos _).le
            (by linarith)
      _ ≤ d.value := near.low
  have high : d.value < 10 ^ (128 : Int) := by
    have short : (m + 1 : ℚ) ≤ 2 ^ 24 := mod_cast h.short
    calc d.value ≤ (m + 1 / 2) * 2 ^ q := near.high
      _ ≤ 2 ^ 24 * 2 ^ (104 : Int) :=
          mul_le_mul (by linarith) (zpow_le_zpow_right₀ one_le_two greatest) (zpow_pos two_pos _).le
            (by norm_num)
      _ < 10 ^ (128 : Int) := by norm_num
  have digits : d.digits ≠ 0 := by
    intro zero
    rw [value, zero, Nat.cast_zero, zero_mul] at low
    exact absurd low (not_le.mpr (zpow_pos (by norm_num) _))
  obtain ⟨above, under⟩ := value_between digits
  have lower := (zpow_lt_zpow_iff_right₀ (by norm_num : (1 : ℚ) < 10)).mp (low.trans_lt under)
  have upper := (zpow_lt_zpow_iff_right₀ (by norm_num : (1 : ℚ) < 10)).mp (above.trans_lt high)
  unfold toBits
  dsimp only
  rw [if_neg (by simp [digits]; omega), if_neg (by omega)]
  exact ofRatio_near h nonzero d.ratio_pos (d.ratio_value ▸ near)

end Value

end Guarded.Number
