import Mathlib.Data.List.Induction
import Mathlib.Data.Nat.Bitwise
import Mathlib.Tactic.Ring

/-!
# Big-endian bytes

`bytesBE k n` are the `k` low base-256 digits of `n`, the most significant first, as bytes;
`ofBytesBE` reads a list of bytes back. The two are inverse on numbers below `256 ^ k`.
-/

namespace BigEndian

/-- The `k` low bytes of `n`, most significant first. -/
def bytesBE : ℕ → ℕ → List UInt8
  | 0, _ => []
  | k + 1, n => bytesBE k (n / 256) ++ [UInt8.ofNat n]

/-- The number that the bytes write, most significant first. -/
def ofBytesBE (bs : List UInt8) : ℕ := bs.foldl (fun n b => n * 256 + b.toNat) 0

@[simp] theorem length_bytesBE (k n : ℕ) : (bytesBE k n).length = k := by
  induction k generalizing n with
  | zero => rfl
  | succ k ih => simp [bytesBE, ih]

@[simp] theorem ofBytesBE_nil : ofBytesBE [] = 0 := rfl
@[simp] theorem ofBytesBE_snoc (bs : List UInt8) (b : UInt8) :
    ofBytesBE (bs ++ [b]) = ofBytesBE bs * 256 + b.toNat := by
  simp [ofBytesBE]

theorem ofBytesBE_lt (bs : List UInt8) : ofBytesBE bs < 256 ^ bs.length := by
  induction bs using List.reverseRecOn with
  | nil => simp
  | append_singleton bs b ih =>
    have hb : b.toNat < 256 := b.toNat_lt
    rw [ofBytesBE_snoc, List.length_append, List.length_singleton, pow_succ]
    omega

theorem ofBytesBE_bytesBE (k n : ℕ) : ofBytesBE (bytesBE k n) = n % 256 ^ k := by
  induction k generalizing n with
  | zero => simp [bytesBE, Nat.mod_one]
  | succ k ih =>
    have hlow : (UInt8.ofNat n).toNat = n % 256 := UInt8.toNat_ofNat'
    have hsplit : n % (256 * 256 ^ k) = n % 256 + 256 * (n / 256 % 256 ^ k) := Nat.mod_mul
    rw [bytesBE, ofBytesBE_snoc, ih, hlow, pow_succ', hsplit]
    ring

/-- Masking a byte out of a word and shifting it down takes a base-256 digit. -/
theorem and_shiftRight (x : ℕ) {c k : ℕ} (hc : c >>> k = 255) :
    (x &&& c) >>> k = x / 2 ^ k % 256 := by
  rw [Nat.shiftRight_and_distrib, hc, Nat.shiftRight_eq_div_pow]
  exact Nat.and_two_pow_sub_one_eq_mod _ 8

/-- Numbers below the bound are told apart by their bytes. -/
theorem bytesBE_injective {k n m : ℕ} (hn : n < 256 ^ k) (hm : m < 256 ^ k)
    (h : bytesBE k n = bytesBE k m) : n = m := by
  have heq := congrArg ofBytesBE h
  rwa [ofBytesBE_bytesBE, ofBytesBE_bytesBE, Nat.mod_eq_of_lt hn, Nat.mod_eq_of_lt hm] at heq

/-- So are lists of such numbers. -/
theorem flatMap_bytesBE_injective {k : ℕ} {ns ms : List ℕ} (hns : ∀ n ∈ ns, n < 256 ^ k)
    (hms : ∀ m ∈ ms, m < 256 ^ k) (hlen : ns.length = ms.length)
    (h : ns.flatMap (bytesBE k) = ms.flatMap (bytesBE k)) : ns = ms := by
  induction ns generalizing ms with
  | nil => exact (List.length_eq_zero_iff.mp hlen.symm).symm
  | cons n ns ih =>
    cases ms with
    | nil => simp at hlen
    | cons m ms =>
      simp only [List.forall_mem_cons] at hns hms
      rw [List.flatMap_cons, List.flatMap_cons] at h
      obtain ⟨hhead, htail⟩ := List.append_inj h (by simp)
      rw [bytesBE_injective hns.1 hms.1 hhead, ih hns.2 hms.2 (by simpa using hlen) htail]

/-- Each number of a list stands where its bytes were written. -/
theorem take_drop_flatMap_bytesBE (k : ℕ) {ns : List ℕ} {i : ℕ} (hi : i < ns.length) :
    ((ns.flatMap (bytesBE k)).drop (k * i)).take k = bytesBE k ns[i] := by
  induction ns generalizing i with
  | nil => simp at hi
  | cons n ns ih =>
    cases i with
    | zero => simp
    | succ i =>
      have hdrop : k * (i + 1) = (bytesBE k n).length + k * i := by
        rw [length_bytesBE, Nat.mul_succ, Nat.add_comm]
      rw [List.flatMap_cons, hdrop, List.drop_length_add_append]
      simpa using ih (by simpa using hi)

end BigEndian
