import Mathlib.Tactic
import Mathlib.Algebra.Ring.GeomSum
import Mathlib.Data.Nat.Digits.Lemmas

set_option autoImplicit false

/-! # Sums of digits, computed in parallel

A machine word holds many small numbers at once, the digits of its value in a base that is a
power of two. Two word operations add them up without a loop:

* masking the lower and the upper half of every field, shifting the upper halves down and adding
  gives a word with half as many fields, twice as wide, and the same sum of digits
  (`digitSum_addHalves`);
* multiplying by `1 + b + b ^ 2 + …` puts the sum of all digits into the top digit, as long as
  that sum is itself a digit (`mul_ones_div`).

The second one overflows the word. What is lost are the digits above the top one; the digits that
stay are the sums of the lowest digits, the lowest two, and so on (`prefixSums`).
-/

namespace RaftLab.Word

/-- The sum of the digits of `v` in base `b`. -/
def digitSum (b v : Nat) : Nat := (Nat.digits b v).sum

variable {a b k v w : Nat}

@[simp] theorem digitSum_zero : digitSum b 0 = 0 := by
  simp [digitSum]

/-- The lowest digit is taken off. -/
theorem digitSum_eq (hb : 1 < b) (v : Nat) : digitSum b v = v % b + digitSum b (v / b) := by
  unfold digitSum
  rcases Nat.eq_zero_or_pos v with rfl | hv
  · simp
  · rw [Nat.digits_def' hb hv, List.sum_cons]

theorem digitSum_add_mul {x y : Nat} (hx : x < b) (hb : 1 < b) :
    digitSum b (x + b * y) = x + digitSum b y := by
  have hmod : (x + b * y) % b = x := by
    rw [Nat.add_mul_mod_self_left, Nat.mod_eq_of_lt hx]
  have hdiv : (x + b * y) / b = y := by
    rw [Nat.add_mul_div_left x y (by omega), Nat.div_eq_of_lt hx, Nat.zero_add]
  rw [digitSum_eq hb, hmod, hdiv]

theorem digitSum_of_lt (hb : 1 < b) (hv : v < b) : digitSum b v = v := by
  simpa using digitSum_add_mul (y := 0) hv hb

/-- In base two the digits are the bits. -/
theorem digitSum_two_eq_sum (hv : v < 2 ^ k) :
    digitSum 2 v = ∑ i ∈ Finset.range k, (v.testBit i).toNat := by
  induction k generalizing v with
  | zero =>
      have hzero : v = 0 := by simpa using hv
      simp [hzero]
  | succ k ih =>
      have hhalf : v / 2 < 2 ^ k := by
        rw [pow_succ] at hv
        omega
      have hbit : (v.testBit 0).toNat = v % 2 := by
        rw [Nat.testBit_zero]
        rcases Nat.mod_two_eq_zero_or_one v with h | h <;> simp [h]
      rw [digitSum_eq Nat.one_lt_two, ih hhalf, Finset.sum_range_succ', hbit, Nat.add_comm]
      simp only [Nat.testBit_succ]

/-! ## Adding the two halves of every field -/

/-- `k` fields of `2 * w` bits, in each of which the lower half is on. -/
def mask (w : Nat) : Nat → Nat
  | 0 => 0
  | k + 1 => (2 ^ w - 1) + 2 ^ (2 * w) * mask w k

/-- The lower halves of the fields plus the upper ones, which are shifted down to them. -/
def addHalves (w k v : Nat) : Nat := (v &&& mask w k) + ((v &&& mask w k <<< w) >>> w)

theorem half_lt (w : Nat) : 2 ^ w - 1 < 2 ^ (2 * w) := by
  have hpos : 0 < 2 ^ w := Nat.two_pow_pos w
  have hle : 2 ^ w ≤ 2 ^ (2 * w) := Nat.pow_le_pow_right two_pos (by omega)
  omega

/-- The mask works on the lowest field and on the others separately. -/
theorem and_mask_succ (v w k : Nat) :
    v &&& mask w (k + 1) = v % 2 ^ w + 2 ^ (2 * w) * (v / 2 ^ (2 * w) &&& mask w k) := by
  have hpos : 0 < 2 ^ (2 * w) := Nat.two_pow_pos _
  have hlow : mask w (k + 1) % 2 ^ (2 * w) = 2 ^ w - 1 := by
    rw [mask, Nat.add_mul_mod_self_left, Nat.mod_eq_of_lt (half_lt w)]
  have hhigh : mask w (k + 1) / 2 ^ (2 * w) = mask w k := by
    rw [mask, Nat.add_mul_div_left _ _ hpos, Nat.div_eq_of_lt (half_lt w), Nat.zero_add]
  have hfield : v % 2 ^ (2 * w) % 2 ^ w = v % 2 ^ w :=
    Nat.mod_mod_of_dvd v (pow_dvd_pow 2 (by omega))
  calc v &&& mask w (k + 1)
      = (v &&& mask w (k + 1)) % 2 ^ (2 * w)
          + 2 ^ (2 * w) * ((v &&& mask w (k + 1)) / 2 ^ (2 * w)) := (Nat.mod_add_div _ _).symm
    _ = (v % 2 ^ (2 * w) &&& 2 ^ w - 1)
          + 2 ^ (2 * w) * (v / 2 ^ (2 * w) &&& mask w k) := by
        rw [Nat.and_mod_two_pow, Nat.and_div_two_pow, hlow, hhigh]
    _ = v % 2 ^ w + 2 ^ (2 * w) * (v / 2 ^ (2 * w) &&& mask w k) := by
        rw [Nat.and_two_pow_sub_one_eq_mod, hfield]

theorem addHalves_eq (w k v : Nat) :
    addHalves w k v = (v &&& mask w k) + (v / 2 ^ w &&& mask w k) := by
  unfold addHalves
  rw [Nat.shiftRight_and_distrib, Nat.shiftLeft_shiftRight, Nat.shiftRight_eq_div_pow]

/-- One field of the sum. -/
theorem addHalves_succ (w k v : Nat) :
    addHalves w (k + 1) v
      = (v % 2 ^ w + v / 2 ^ w % 2 ^ w) + 2 ^ (2 * w) * addHalves w k (v / 2 ^ (2 * w)) := by
  have hcomm : v / 2 ^ w / 2 ^ (2 * w) = v / 2 ^ (2 * w) / 2 ^ w := by
    rw [Nat.div_div_eq_div_mul, Nat.div_div_eq_div_mul, Nat.mul_comm]
  rw [addHalves_eq, addHalves_eq, and_mask_succ, and_mask_succ, hcomm]
  ring

/-- The sum of two halves fits into the field. -/
theorem add_half_lt (hw : 0 < w) (v : Nat) :
    v % 2 ^ w + v / 2 ^ w % 2 ^ w < 2 ^ (2 * w) := by
  have hlow : v % 2 ^ w < 2 ^ w := Nat.mod_lt _ (Nat.two_pow_pos w)
  have hhigh : v / 2 ^ w % 2 ^ w < 2 ^ w := Nat.mod_lt _ (Nat.two_pow_pos w)
  have htwo : 2 ≤ 2 ^ w := Nat.le_self_pow (by omega) 2
  calc v % 2 ^ w + v / 2 ^ w % 2 ^ w
      < 2 * 2 ^ w := by omega
    _ ≤ 2 ^ w * 2 ^ w := Nat.mul_le_mul_right _ htwo
    _ = 2 ^ (2 * w) := by rw [← pow_add, two_mul]

theorem addHalves_lt (hw : 0 < w) (k v : Nat) : addHalves w k v < 2 ^ (2 * w * k) := by
  induction k generalizing v with
  | zero => simp [addHalves, mask]
  | succ k ih =>
      have hfield := add_half_lt hw v
      have hrest := ih (v / 2 ^ (2 * w))
      rw [addHalves_succ, Nat.mul_succ, pow_add, Nat.mul_comm (2 ^ (2 * w * k))]
      calc v % 2 ^ w + v / 2 ^ w % 2 ^ w + 2 ^ (2 * w) * addHalves w k (v / 2 ^ (2 * w))
          < 2 ^ (2 * w) + 2 ^ (2 * w) * addHalves w k (v / 2 ^ (2 * w)) :=
            Nat.add_lt_add_right hfield _
        _ = 2 ^ (2 * w) * (addHalves w k (v / 2 ^ (2 * w)) + 1) := by ring
        _ ≤ 2 ^ (2 * w) * 2 ^ (2 * w * k) := Nat.mul_le_mul_left _ hrest

/-- **Adding halves keeps the sum of digits**, which are twice as wide afterwards. -/
theorem digitSum_addHalves (hw : 0 < w) (hv : v < 2 ^ (2 * w * k)) :
    digitSum (2 ^ (2 * w)) (addHalves w k v) = digitSum (2 ^ w) v := by
  have hbase : 1 < 2 ^ w := Nat.one_lt_two_pow (by omega)
  have hbase' : 1 < 2 ^ (2 * w) := Nat.one_lt_two_pow (by omega)
  induction k generalizing v with
  | zero =>
      have hzero : v = 0 := by simpa using hv
      simp [hzero, addHalves]
  | succ k ih =>
      have hrest : v / 2 ^ (2 * w) < 2 ^ (2 * w * k) := by
        rw [Nat.mul_succ, pow_add, Nat.mul_comm] at hv
        exact Nat.div_lt_of_lt_mul hv
      -- two digits of `v` make one of the sum
      have hdiv : v / 2 ^ w / 2 ^ w = v / 2 ^ (2 * w) := by
        rw [Nat.div_div_eq_div_mul, ← pow_add, two_mul]
      rw [addHalves_succ, digitSum_add_mul (add_half_lt hw v) hbase', ih hrest,
        digitSum_eq hbase v, digitSum_eq hbase (v / 2 ^ w), hdiv, Nat.add_assoc]

/-! ## Adding all digits into the top one -/

/-- The number whose digits are the sums of the lowest digits of `v`, each with `a` added: of the
lowest one, of the lowest two, and so on, `k` of them. -/
def prefixSums (b : Nat) : Nat → Nat → Nat → Nat
  | 0, _, _ => 0
  | k + 1, a, v => (a + v % b) + b * prefixSums b k (a + v % b) (v / b)

/-- Up to the digits that are lost, multiplying by ones adds up prefixes. -/
theorem mul_ones_modEq (b k a v : Nat) :
    (a + v) * ∑ i ∈ Finset.range k, b ^ i ≡ prefixSums b k a v [MOD b ^ k] := by
  induction k generalizing a v with
  | zero => simp [Nat.modEq_one]
  | succ k ih =>
      rw [prefixSums, geom_sum_succ]
      have hrec := (ih (a + v % b) (v / b)).mul_left' b
      rw [← pow_succ'] at hrec
      have hones : b * ∑ i ∈ Finset.range k, b ^ i + 1
          = b ^ k + ∑ i ∈ Finset.range k, b ^ i := by
        rw [← geom_sum_succ, geom_sum_succ']
      generalize ∑ i ∈ Finset.range k, b ^ i = ones at hrec hones ⊢
      -- the two products differ by what `v / b` contributes above the top digit
      have hsplit : (a + v) * (b * ones + 1)
          = (a + v % b) + b * ((a + v % b + v / b) * ones) + b ^ (k + 1) * (v / b) := by
        calc (a + v) * (b * ones + 1)
            = (a + (v % b + b * (v / b))) * (b * ones + 1) := by rw [Nat.mod_add_div]
          _ = (a + v % b) + b * (a + v % b) * ones + b * (v / b) * (b * ones + 1) := by ring
          _ = (a + v % b) + b * (a + v % b) * ones + b * (v / b) * (b ^ k + ones) := by
              rw [hones]
          _ = _ := by ring
      rw [hsplit]
      refine Nat.ModEq.trans ?_ (hrec.add_left (a + v % b))
      exact Nat.add_mul_mod_self_left _ _ _

theorem prefixSums_lt (hb : 1 < b) (hsum : a + digitSum b v < b) (k : Nat) :
    prefixSums b k a v < b ^ k := by
  induction k generalizing a v with
  | zero => simp [prefixSums]
  | succ k ih =>
      rw [digitSum_eq hb v, ← Nat.add_assoc] at hsum
      have hrest := ih hsum
      rw [prefixSums, pow_succ']
      calc a + v % b + b * prefixSums b k (a + v % b) (v / b)
          < b + b * prefixSums b k (a + v % b) (v / b) := by omega
        _ = b * (prefixSums b k (a + v % b) (v / b) + 1) := by ring
        _ ≤ b * b ^ k := Nat.mul_le_mul_left _ hrest

/-- The top digit is the sum of them all. -/
theorem prefixSums_div (hb : 1 < b) (hsum : a + digitSum b v < b) (hv : v < b ^ (k + 1)) :
    prefixSums b (k + 1) a v / b ^ k = a + digitSum b v := by
  induction k generalizing a v with
  | zero =>
      rw [zero_add, pow_one] at hv
      simp [prefixSums, Nat.mod_eq_of_lt hv, digitSum_of_lt hb hv]
  | succ k ih =>
      have hrest : v / b < b ^ (k + 1) := by
        rw [pow_succ'] at hv
        exact Nat.div_lt_of_lt_mul hv
      rw [digitSum_eq hb v, ← Nat.add_assoc] at hsum ⊢
      have hdigit : a + v % b < b := by omega
      rw [prefixSums, pow_succ', ← Nat.div_div_eq_div_mul, Nat.add_mul_div_left _ _ (by omega),
        Nat.div_eq_of_lt hdigit, Nat.zero_add, ih hsum hrest]

/-- **Multiplying by ones adds up the digits**: in the product, cut off to the `k + 1` digits of a
word, the top one is the sum of all digits. -/
theorem mul_ones_div (hb : 1 < b) (hsum : digitSum b v < b) (hv : v < b ^ (k + 1)) :
    v * (∑ i ∈ Finset.range (k + 1), b ^ i) % b ^ (k + 1) / b ^ k = digitSum b v := by
  have hmod := mul_ones_modEq b (k + 1) 0 v
  rw [Nat.zero_add] at hmod
  have hsum : 0 + digitSum b v < b := by rwa [Nat.zero_add]
  calc v * (∑ i ∈ Finset.range (k + 1), b ^ i) % b ^ (k + 1) / b ^ k
      = prefixSums b (k + 1) 0 v % b ^ (k + 1) / b ^ k := by rw [hmod]
    _ = prefixSums b (k + 1) 0 v / b ^ k := by
        rw [Nat.mod_eq_of_lt (prefixSums_lt hb hsum (k + 1))]
    _ = 0 + digitSum b v := prefixSums_div hb hsum hv
    _ = digitSum b v := Nat.zero_add _

end RaftLab.Word
