import Mathlib.Data.Nat.Factorization.Basic
import Mathlib.Tactic.Linarith
import Mathlib.Tactic.Ring

/-!
# Division by an invariant through a reciprocal

A quotient `n / b` of numbers below `N` as a product with a fixed multiplier, scaled down by
`p * N`. The multiplier is `p * N / b`, rounded up, where one dividend decides whether it is good
for all of them, or rounded down with the multiplier itself added to the product.
-/

namespace RiscvLinux.Lib

variable {N p b m n : Nat}

/-! ## The multiplier rounded up -/

/-- `m` is `p * N / b` rounded up, by less than one. -/
structure RoundedUp (N p b m e : Nat) : Prop where
  product : m * b = p * N + e
  excess : 0 < e
  bounded : e < b

/-- One less than a multiple leaves the greatest remainder. -/
theorem pred_mul_mod {q : Nat} (some_q : 0 < q) (positive : 0 < b) : (q * b - 1) % b = b - 1 := by
  have multiple : b ≤ q * b := Nat.le_mul_of_pos_left b some_q
  have split : q * b - 1 = (b - 1) + (q - 1) * b := by
    rw [Nat.sub_mul, Nat.one_mul]
    omega
  rw [split, Nat.add_mul_mod_self_right, Nat.mod_eq_of_lt (by omega)]

section RoundedUp

variable {e : Nat} (up : RoundedUp N p b m e)
include up

/-- The quotient is right exactly for the dividends on which the excess does not add up. -/
theorem RoundedUp.div_eq_iff (scaled : 0 < p * N) :
    m * n / (p * N) = n / b ↔ e * n < (b - n % b) * (p * N) := by
  have positive : 0 < b := Nat.lt_trans up.excess up.bounded
  have below := Nat.mod_lt n positive
  have split := Nat.div_add_mod n b
  have product : b * (m * n) = p * N * (b * (n / b)) + p * N * (n % b) + e * n := by
    calc b * (m * n) = m * b * n := by ring
      _ = p * N * n + e * n := by rw [up.product]; ring
      _ = p * N * (b * (n / b) + n % b) + e * n := by rw [split]
      _ = _ := by ring
  have atLeast : n / b ≤ m * n / (p * N) := by
    rw [Nat.le_div_iff_mul_le scaled]
    refine Nat.le_of_mul_le_mul_left ?_ positive
    rw [product]
    calc b * (n / b * (p * N)) = p * N * (b * (n / b)) := by ring
      _ ≤ _ := by omega
  obtain ⟨gap, sum⟩ := Nat.exists_eq_add_of_lt below
  have rest : b - n % b = gap + 1 := by omega
  have whole : p * N * b = p * N * (n % b) + (gap + 1) * (p * N) := by
    calc p * N * b = p * N * (n % b + gap + 1) := congrArg (p * N * ·) sum
      _ = _ := by ring
  have step : b * ((n / b + 1) * (p * N)) = p * N * (b * (n / b)) + p * N * b := by ring
  rw [rest]
  calc m * n / (p * N) = n / b ↔ m * n / (p * N) < n / b + 1 := by omega
    _ ↔ m * n < (n / b + 1) * (p * N) := Nat.div_lt_iff_lt_mul scaled
    _ ↔ b * (m * n) < b * ((n / b + 1) * (p * N)) := (Nat.mul_lt_mul_left positive).symm
    _ ↔ e * n < (gap + 1) * (p * N) := by rw [product, step, whole]; omega

/-- The dividend one below the greatest multiple of `b` decides for all dividends. -/
theorem RoundedUp.div_eq (scaled : 0 < p * N) (divisor : b ≤ 2 * p) (odd : ¬ b ∣ N)
    (size : b ≤ N)
    (test : m * ((N - 1) / b * b - 1) / (p * N) = ((N - 1) / b * b - 1) / b) (below : n < N) :
    m * n / (p * N) = n / b := by
  have positive : 0 < b := Nat.lt_trans up.excess up.bounded
  have large : 0 < (N - 1) / b := by
    refine Nat.div_pos ?_ positive
    rcases Nat.lt_or_ge (N - 1) b with small | enough
    · exact absurd (show b ∣ N by rw [show N = b by omega]) odd
    · exact enough
  have multiple : b ≤ (N - 1) / b * b := Nat.le_mul_of_pos_left b large
  rw [up.div_eq_iff scaled] at test ⊢
  rw [pred_mul_mod large positive, show b - (b - 1) = 1 by omega, Nat.one_mul] at test
  have remainder := Nat.mod_lt n positive
  rcases Nat.lt_or_ge n ((N - 1) / b * b) with low | high
  · calc e * n ≤ e * ((N - 1) / b * b - 1) := Nat.mul_le_mul_left e (by omega)
      _ < p * N := test
      _ ≤ (b - n % b) * (p * N) := Nat.le_mul_of_pos_left _ (by omega)
  · -- beyond it, the remainders do not reach `b - 1` again
    have last : (N - 1) % b ≠ b - 1 := by
      intro whole
      refine odd ⟨(N - 1) / b + 1, ?_⟩
      have parts := Nat.div_add_mod (N - 1) b
      rw [Nat.mul_add, Nat.mul_one]
      omega
    have quotient : n / b = (N - 1) / b := by
      refine Nat.le_antisymm (Nat.div_le_div_right (by omega)) ?_
      rwa [Nat.le_div_iff_mul_le positive]
    have room : n % b + 2 ≤ b := by
      have parts := Nat.div_add_mod (N - 1) b
      have here := Nat.div_add_mod n b
      rw [quotient] at here
      have bound := Nat.mod_lt (N - 1) positive
      omega
    calc e * n < 2 * p * N := by
          refine Nat.mul_lt_mul_of_le_of_lt' (Nat.le_trans (Nat.le_of_lt up.bounded) divisor)
            below up.excess
      _ = 2 * (p * N) := Nat.mul_assoc 2 p N
      _ ≤ (b - n % b) * (p * N) := Nat.mul_le_mul_right _ (by omega)

/-- Where the test fails, rounding up comes to more than `p`. -/
theorem RoundedUp.lt_of_test (scaled : 0 < p * N) (divides : n % b = b - 1) (below : n < N)
    (test : m * n / (p * N) ≠ n / b) : p < e := by
  rw [Ne, up.div_eq_iff scaled, divides, Nat.not_lt] at test
  have positive : 0 < b := Nat.lt_trans up.excess up.bounded
  rw [show b - (b - 1) = 1 by omega, Nat.one_mul] at test
  by_contra small
  have short : e * n < p * N :=
    Nat.mul_lt_mul_of_le_of_lt' (Nat.not_lt.mp small) below up.excess
  omega

/-- A power of two in the multiplier is no greater than the excess. -/
theorem RoundedUp.le_excess {t : Nat} (word : 2 ^ t ∣ N) (factor : 2 ^ t ∣ m) : 2 ^ t ≤ e := by
  refine Nat.le_of_dvd up.excess ((Nat.dvd_add_right (Dvd.dvd.mul_left word p)).mp ?_)
  rw [← up.product]
  exact Dvd.dvd.mul_right factor b

end RoundedUp

/-- `p * N`, from what division by `b` makes of `N - 1` -/
theorem scaled_eq (p b : Nat) (some_words : 0 < N) :
    (N - 1) / b * p * b + ((N - 1) % b + 1) * p = p * N := by
  calc (N - 1) / b * p * b + ((N - 1) % b + 1) * p = p * (b * ((N - 1) / b) + (N - 1) % b + 1) := by
        ring
    _ = p * N := by rw [Nat.div_add_mod, Nat.sub_add_cancel some_words]

/-- `p * N / b` rounded up, computed with nothing beyond `N`. -/
theorem RoundedUp.of_parts (positive : 0 < b) (some_words : 0 < N) (rest : ¬ b ∣ p * N) :
    ∃ e, RoundedUp N p b ((N - 1) / b * p + (((N - 1) % b + 1) * p + b - 1) / b) e := by
  have scaled := scaled_eq p b some_words
  set c := ((N - 1) % b + 1) * p
  have split := Nat.div_add_mod (c + b - 1) b
  have bound := Nat.mod_lt (c + b - 1) positive
  have product : ((N - 1) / b * p + (c + b - 1) / b) * b =
      (N - 1) / b * p * b + b * ((c + b - 1) / b) := by
    ring
  refine ⟨b - 1 - (c + b - 1) % b, by omega, Nat.pos_of_ne_zero fun zero => ?_, by omega⟩
  exact rest ⟨_, (show p * N = ((N - 1) / b * p + (c + b - 1) / b) * b by omega).trans
    (Nat.mul_comm _ b)⟩

/-! ## The multiplier rounded down -/

/-- `m` is `p * N / b` rounded down, by no more than `p`. -/
structure RoundedDown (N p b m f : Nat) : Prop where
  product : m * b + f = p * N
  lacking : 0 < f
  bounded : f ≤ p

/-- `p * N / b` rounded down, where rounding up comes to more than `p`. -/
theorem RoundedDown.of_parts {e : Nat} (some_words : 0 < N) (rest : ¬ b ∣ p * N)
    (up : RoundedUp N p b m e) (divisor : b ≤ 2 * p) (large : p < e) :
    ∃ f, RoundedDown N p b ((N - 1) / b * p + ((N - 1) % b + 1) * p / b) f := by
  have positive : 0 < b := Nat.lt_trans up.excess up.bounded
  have scaled := scaled_eq p b some_words
  set c := ((N - 1) % b + 1) * p
  have split := Nat.div_add_mod c b
  have bound := Nat.mod_lt c positive
  have product : ((N - 1) / b * p + c / b) * b = (N - 1) / b * p * b + b * (c / b) := by ring
  have lacking : 0 < c % b := by
    refine Nat.pos_of_ne_zero fun zero => rest ⟨(N - 1) / b * p + c / b, ?_⟩
    rw [Nat.mul_comm b]
    omega
  -- what is added above and what is lacking below come to one `b`
  have next : m = (N - 1) / b * p + c / b + 1 := by
    have product := up.product
    have excess := up.excess
    have bounded := up.bounded
    refine Nat.le_antisymm (Nat.le_of_lt_succ ?_) (Nat.lt_of_mul_lt_mul_right (a := b) ?_)
    · refine Nat.lt_of_mul_lt_mul_right (a := b) ?_
      rw [Nat.succ_mul, Nat.succ_mul]
      omega
    · omega
  refine ⟨c % b, by omega, lacking, ?_⟩
  have product := up.product
  rw [next, Nat.succ_mul] at product
  omega

/-- The multiplier added to the product makes up for what it lacks. -/
theorem RoundedDown.div_eq {f : Nat} (down : RoundedDown N p b m f) (positive : 0 < b)
    (below : n < N) : (m + m * n) / (p * N) = n / b := by
  have remainder := Nat.mod_lt n positive
  have split := Nat.div_add_mod n b
  have product : b * (m + m * n) + f * (n + 1) = p * N * (b * (n / b)) + p * N * (n % b + 1) := by
    calc b * (m + m * n) + f * (n + 1) = (m * b + f) * (n + 1) := by ring
      _ = p * N * (b * (n / b) + n % b + 1) := by rw [down.product, split]
      _ = _ := by ring
  have lacking : f * (n + 1) ≤ p * N := Nat.mul_le_mul down.bounded below
  have some_lack : 0 < f * (n + 1) := Nat.mul_pos down.lacking (Nat.succ_pos n)
  have one : p * N ≤ p * N * (n % b + 1) := Nat.le_mul_of_pos_right _ (Nat.succ_pos _)
  have all : p * N * (n % b + 1) ≤ p * N * b := Nat.mul_le_mul_left _ remainder
  refine Nat.div_eq_of_lt_le ?_ ?_
  · refine Nat.le_of_mul_le_mul_left ?_ positive
    calc b * (n / b * (p * N)) = p * N * (b * (n / b)) := by ring
      _ ≤ _ := by omega
  · refine Nat.lt_of_mul_lt_mul_left (a := b) ?_
    calc b * (m + m * n) < p * N * (b * (n / b)) + p * N * b := by omega
      _ = b * ((n / b + 1) * (p * N)) := by ring

/-- A divisor of `N - 1` needs no scale. -/
theorem div_eq_of_dvd_pred {q : Nat} (positive : 0 < q) (exact : m * q + 1 = N) (below : n < N) :
    (m + m * n) / N = n / q := by
  have remainder := Nat.mod_lt n positive
  have split := Nat.div_add_mod n q
  have product : q * (m + m * n) = m * q * (n + 1) := by ring
  have scaled : ∀ d, q * (d * N) = m * q * (q * d) + q * d := fun d => by
    rw [← exact]
    ring
  refine Nat.div_eq_of_lt_le ?_ ?_
  · refine Nat.le_of_mul_le_mul_left ?_ positive
    rw [product, scaled]
    calc m * q * (q * (n / q)) + q * (n / q) ≤ m * q * n + m * q :=
          Nat.add_le_add (Nat.mul_le_mul_left _ (by omega)) (by omega)
      _ = m * q * (n + 1) := (Nat.mul_succ _ n).symm
  · refine Nat.lt_of_mul_lt_mul_left (a := q) ?_
    rw [product, scaled, Nat.mul_succ q]
    have reach : m * q * (n + 1) ≤ m * q * (q * (n / q) + q) := Nat.mul_le_mul_left _ (by omega)
    omega

/-! ## Powers of two -/

/-- Only powers of two divide a power of two. -/
theorem not_dvd_two_pow (none : ¬ ∃ k, b = 2 ^ k) (j : Nat) : ¬ b ∣ 2 ^ j := by
  intro divides
  obtain ⟨k, -, power⟩ := (Nat.dvd_prime_pow Nat.prime_two).mp divides
  exact none ⟨k, power⟩

/-- The lowest bit that is set, as a number and its negation in a word show it. -/
theorem exists_and_sub_eq {w v : Nat} (positive : 0 < v) (fits : v < 2 ^ w) :
    ∃ t, t < w ∧ 2 ^ t ∣ v ∧ v &&& (2 ^ w - v) = 2 ^ t := by
  obtain ⟨t, k, odd, eq⟩ := Nat.exists_eq_two_pow_mul_odd (Nat.pos_iff_ne_zero.mp positive)
  rcases odd with ⟨k, rfl⟩
  have whole : v = 2 ^ (t + 1) * k + 2 ^ t := by rw [eq]; ring
  have below : v - 1 = 2 ^ (t + 1) * k + (2 ^ t - 1) := by
    have one := Nat.two_pow_pos t
    omega
  have small : t < w := by
    refine (Nat.pow_lt_pow_iff_right (by decide : 1 < 2)).mp (Nat.lt_of_le_of_lt ?_ fits)
    omega
  refine ⟨t, small, ⟨2 * k + 1, eq⟩, Nat.eq_of_testBit_eq fun i => ?_⟩
  have double : 2 ^ t < 2 ^ (t + 1) := Nat.pow_lt_pow_right (by decide) (Nat.lt_succ_self t)
  rw [Nat.testBit_and, show 2 ^ w - v = 2 ^ w - (v - 1 + 1) by omega,
    Nat.testBit_two_pow_sub_succ (by omega), below, whole, Nat.testBit_two_pow_mul_add k double,
    Nat.testBit_two_pow_mul_add k (by omega), Nat.testBit_two_pow_sub_one, Nat.testBit_two_pow]
  split
  · next within =>
    rw [decide_eq_decide.mpr (show t = i ↔ ¬ i < t by omega), decide_eq_true (show i < w by omega),
      Bool.true_and, decide_not, Bool.and_self]
  · next beyond =>
    rw [decide_eq_false (show ¬ t = i by omega), Bool.and_comm, Bool.and_assoc, Bool.not_and_self,
      Bool.and_false]

end RiscvLinux.Lib
