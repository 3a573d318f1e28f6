import NumericTower.Integer

/-!
# Rounding to nearest

The integer nearest to a fraction, a half going to the even neighbour: of a fraction as it is, and of a
whole number whose low bits go, when more bits below it may be cut off already. The binary order of
magnitude says at which bit to round. Main statement: rounding at a bit that is at most `p` bits below the
leading one gives at most `2 ^ p` (`roundBits_le`, `roundAt_le`).
-/

namespace NumericTower

/-- The integer nearest to `n / d`; a half goes to the even neighbour. -/
def nearestEven (n d : Nat) : Nat :=
  if d < 2 * (n % d) ∨ (2 * (n % d) = d ∧ n / d % 2 = 1) then n / d + 1 else n / d

/-- A bound that the fraction stays below is a bound of the rounded fraction. -/
theorem nearestEven_le {n d k : Nat} (h : n < d * k) : nearestEven n d ≤ k := by
  have hq : n / d < k := Nat.div_lt_of_lt_mul h
  unfold nearestEven
  split <;> omega

/-- The magnitude `n` without its `drop` low bits, rounded to nearest. A half goes to the even neighbour,
unless `sticky` says that bits other than zero are cut off below `n`. -/
def roundBits (n drop : Nat) (sticky : Bool) : Nat :=
  if drop = 0 then n
  else
    let half := 2 ^ (drop - 1)
    let low := n % 2 ^ drop
    let high := n / 2 ^ drop
    if half < low ∨ (low = half ∧ (sticky = true ∨ high % 2 = 1)) then high + 1 else high

/-- Dropping all but the `p` leading bits leaves at most `2 ^ p`. -/
theorem roundBits_le {n drop p : Nat} {sticky : Bool} (h : n < 2 ^ (drop + p)) :
    roundBits n drop sticky ≤ 2 ^ p := by
  have hq : n / 2 ^ drop < 2 ^ p := Nat.div_lt_of_lt_mul (by rwa [← Nat.pow_add])
  unfold roundBits
  split
  case isTrue hdrop =>
    rw [hdrop, Nat.pow_zero, Nat.div_one] at hq
    exact Nat.le_of_lt hq
  case isFalse =>
    simp only
    split <;> omega

/-- The binary order of magnitude of the positive fraction `num / den`: the greatest `e` for which
`2 ^ e` does not exceed it. -/
def floorLog2 (num den : Nat) : Int :=
  -- The lengths leave two candidates, `k` and `k - 1`; comparing with `2 ^ k` decides.
  let k : Int := (bitLength num : Int) - bitLength den
  if den * 2 ^ k.toNat ≤ num * 2 ^ (-k).toNat then k else k - 1

/-- A fraction stays below each power of two that is greater than its order of magnitude. -/
theorem lt_of_floorLog2_lt {num den a b : Nat} (hd : 0 < den)
    (h : floorLog2 num den < (b : Int) - a) : num * 2 ^ a < den * 2 ^ b := by
  -- One power just above the fraction is enough, and both branches know one.
  have key : ∃ x y : Nat, (y : Int) - x = floorLog2 num den + 1 ∧
      num * 2 ^ x < den * 2 ^ y := by
    unfold floorLog2
    simp only
    split
    · refine ⟨(-((bitLength num : Int) - bitLength den)).toNat,
        ((bitLength num : Int) - bitLength den).toNat + 1, by omega, ?_⟩
      have h1 := lt_two_pow_bitLength num
      have hb : 0 < bitLength den := by
        unfold bitLength
        split <;> omega
      have h2 : 2 ^ (bitLength den - 1) ≤ den := two_pow_le_of_bitLength (by omega)
      calc num * 2 ^ (-((bitLength num : Int) - bitLength den)).toNat
          < 2 ^ bitLength num * 2 ^ (-((bitLength num : Int) - bitLength den)).toNat :=
            Nat.mul_lt_mul_of_pos_right h1 (Nat.two_pow_pos _)
        _ = 2 ^ (bitLength den - 1) *
              2 ^ (((bitLength num : Int) - bitLength den).toNat + 1) := by
            rw [← Nat.pow_add, ← Nat.pow_add]
            congr 1
            omega
        _ ≤ den * 2 ^ (((bitLength num : Int) - bitLength den).toNat + 1) :=
            Nat.mul_le_mul_right _ h2
    · rename_i hlt
      exact ⟨(-((bitLength num : Int) - bitLength den)).toNat,
        ((bitLength num : Int) - bitLength den).toNat, by omega, by omega⟩
  obtain ⟨x, y, hxy, hlt⟩ := key
  -- Over the common factor `2 ^ x` the bound `2 ^ b` is at least that power.
  have h1 : num * 2 ^ a * 2 ^ x < den * 2 ^ b * 2 ^ x := by
    calc num * 2 ^ a * 2 ^ x = num * 2 ^ x * 2 ^ a := by
          rw [Nat.mul_assoc, Nat.mul_assoc, Nat.mul_comm (2 ^ a)]
      _ < den * 2 ^ y * 2 ^ a := Nat.mul_lt_mul_of_pos_right hlt (Nat.two_pow_pos _)
      _ ≤ den * 2 ^ b * 2 ^ x := by
          rw [Nat.mul_assoc, Nat.mul_assoc, ← Nat.pow_add, ← Nat.pow_add]
          exact Nat.mul_le_mul_left _ (Nat.pow_le_pow_right (by omega) (by omega))
  exact Nat.lt_of_mul_lt_mul_right h1

/-- The integer nearest to `num / den / 2 ^ s`, a half going to the even neighbour. -/
def roundAt (num den : Nat) (s : Int) : Nat :=
  nearestEven (num * 2 ^ (-s).toNat) (den * 2 ^ s.toNat)

/-- Rounding away all but the `p` leading bits leaves at most `2 ^ p`. -/
theorem roundAt_le {num den p : Nat} {s : Int} (hd : 0 < den)
    (h : floorLog2 num den + 1 - p ≤ s) : roundAt num den s ≤ 2 ^ p := by
  apply nearestEven_le
  rw [Nat.mul_assoc, ← Nat.pow_add]
  exact lt_of_floorLog2_lt hd (by omega)

end NumericTower
