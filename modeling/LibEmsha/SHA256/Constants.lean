import Mathlib.Analysis.SpecialFunctions.Pow.NthRootLemmas
import Mathlib.Data.Nat.Count
import Mathlib.Data.Nat.Sqrt
import LibEmsha.Model.SHA256
import LibEmsha.Specification.Standards

/-!
# The constants of SHA-256

The tables `sha256K` and `emsha256H0` hold the fractions of roots of primes that the standard
takes them from. The primes come from one pass over the numbers below 312; each root is checked
by its two bounds.
-/

namespace LibEmsha
open FIPS180

/-! ## The first 64 primes -/

/-- The numbers below `n` with a property, listed, are the first ones with it. -/
theorem nth_eq_getElem_filter_range (p : ℕ → Prop) [DecidablePred p] (n i : ℕ)
    (hi : i < ((List.range n).filter p).length) :
    Nat.nth p i = ((List.range n).filter p)[i] := by
  have hcount : ∀ m, ((List.range m).filter p).length = Nat.count p m := fun m =>
    List.countP_eq_length_filter.symm
  induction n with
  | zero => simp at hi
  | succ n ih =>
    simp only [List.range_succ, List.filter_append] at hi ⊢
    by_cases hlt : i < ((List.range n).filter p).length
    · rw [List.getElem_append_left hlt]
      exact ih hlt
    · by_cases hn : p n
      · have hi' : i = Nat.count p n := by
          simp [hn, hcount] at hi hlt
          omega
        subst hi'
        rw [Nat.nth_count hn]
        simp [hn, hcount]
      · simp [hn] at hi hlt
        omega

/-- Below 324 a number is prime if no number below 18 divides it. -/
theorem prime_iff_of_lt {n : ℕ} (hn : n < 18 ^ 2) :
    n.Prime ↔ 2 ≤ n ∧ ∀ m < 18, 2 ≤ m → m < n → ¬ m ∣ n := by
  rw [Nat.prime_def_le_sqrt]
  have hsqrt : n.sqrt < 18 := Nat.sqrt_lt'.mpr hn
  constructor
  · rintro ⟨h2, h⟩
    refine ⟨h2, fun m _ hm2 hmn hdvd => ?_⟩
    have hp : n.Prime := Nat.prime_def_le_sqrt.mpr ⟨h2, h⟩
    rcases (Nat.dvd_prime hp).mp hdvd with rfl | rfl <;> omega
  · rintro ⟨h2, h⟩
    refine ⟨h2, fun m hm2 hm => h m (by omega) hm2 ?_⟩
    exact lt_of_le_of_lt hm (Nat.sqrt_lt_self (by omega))

/-- The first 64 primes. -/
def primes : Vector ℕ 64 := #v[
  2, 3, 5, 7, 11, 13, 17, 19, 23, 29, 31, 37, 41, 43, 47, 53, 59, 61, 67, 71, 73, 79, 83, 89,
  97, 101, 103, 107, 109, 113, 127, 131, 137, 139, 149, 151, 157, 163, 167, 173, 179, 181, 191,
  193, 197, 199, 211, 223, 227, 229, 233, 239, 241, 251, 257, 263, 269, 271, 277, 281, 283, 293,
  307, 311]

theorem filter_prime_range : (List.range 312).filter Nat.Prime = primes.toList := by
  have hdivide : (List.range 312).filter (fun n => 2 ≤ n ∧ ∀ m < 18, 2 ≤ m → m < n → ¬ m ∣ n) =
      primes.toList := by decide +kernel
  rw [← hdivide]
  refine List.filter_congr fun n hn => decide_eq_decide.mpr (prime_iff_of_lt ?_)
  have hlt : n < 312 := List.mem_range.mp hn
  omega

theorem nth_prime (t : ℕ) (ht : t < 64) : Nat.nth Nat.Prime t = primes[t] := by
  rw [nth_eq_getElem_filter_range Nat.Prime 312 t (by simp [filter_prime_range, ht])]
  simp [filter_prime_range]

/-! ## Roots -/

/-- A root is known from two bounds on its power; `q` is its integer part. -/
theorem rootFraction_eq {k p q r : ℕ} (hr : r < 2 ^ 32)
    (hle : (q * 2 ^ 32 + r) ^ k ≤ p * 2 ^ (32 * k))
    (hlt : p * 2 ^ (32 * k) < (q * 2 ^ 32 + r + 1) ^ k) : rootFraction k p = r := by
  rw [rootFraction, Nat.nthRoot_eq_of_le_of_lt hle hlt, Nat.mul_add_mod_self_right,
    Nat.mod_eq_of_lt hr]

theorem sha256K_bounds : ∀ t (_ : t < 64), ∃ q < 7,
    (q * 2 ^ 32 + sha256K[t].toNat) ^ 3 ≤ primes[t] * 2 ^ (32 * 3) ∧
    primes[t] * 2 ^ (32 * 3) < (q * 2 ^ 32 + sha256K[t].toNat + 1) ^ 3 := by
  decide +kernel

theorem toNat_sha256K (t : ℕ) (ht : t < 64) : sha256K[t].toNat = K t := by
  obtain ⟨q, -, hle, hlt⟩ := sha256K_bounds t ht
  rw [K, nth_prime t ht]
  exact (rootFraction_eq (UInt32.toNat_lt _) hle hlt).symm

theorem emsha256H0_bounds : ∀ i : Fin 8, ∃ q < 5,
    (q * 2 ^ 32 + emsha256H0[i].toNat) ^ 2 ≤ primes[i] * 2 ^ (32 * 2) ∧
    primes[i] * 2 ^ (32 * 2) < (q * 2 ^ 32 + emsha256H0[i].toNat + 1) ^ 2 := by
  decide +kernel

/-- The initial hash value is that of the standard. -/
theorem toNat_emsha256H0 : emsha256H0.map UInt32.toNat = H0 := by
  ext i hi
  obtain ⟨q, -, hle, hlt⟩ := emsha256H0_bounds ⟨i, hi⟩
  simp only [H0, Vector.getElem_map, Vector.getElem_ofFn, nth_prime i (by omega)]
  exact (rootFraction_eq (UInt32.toNat_lt _) hle hlt).symm

end LibEmsha
