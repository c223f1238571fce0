import LibEmsha.SHA256.Constants

/-!
# The compression function computes that of FIPS 180-4

The bit functions, the constants, the message schedule and the rounds of `updateMessageBlock`
are those of the standard, word by word.
-/

namespace LibEmsha
open FIPS180 BigEndian Traced

/-! ## Bit functions -/

theorem toNat_rotr32 (x : UInt32) (n : UInt8) (hpos : 0 < n.toNat) (hlt : n.toNat < 32) :
    (rotr32 x n).toNat = ROTR n.toNat x.toNat := by
  have hx := x.toNat_lt
  have hn : n.toUInt32.toNat = n.toNat := UInt8.toNat_toUInt32 n
  have hsub : (32 - n.toUInt32).toNat = 32 - n.toNat := by
    rw [UInt32.toNat_sub_of_le _ _ (by rw [UInt32.le_iff_toNat_le, hn]; exact hlt.le), hn]
    rfl
  have hpow : 2 ^ 32 = 2 ^ n.toNat * 2 ^ (32 - n.toNat) := by rw [← pow_add]; congr 1; omega
  -- The high part has only bits from `32 - n` on, the low part only bits below.
  have hlow : x.toNat / 2 ^ n.toNat < 2 ^ (32 - n.toNat) := by
    rw [Nat.div_lt_iff_lt_mul (by positivity), Nat.mul_comm, ← hpow]
    exact hx
  have hhigh : x.toNat * 2 ^ (32 - n.toNat) % 2 ^ 32 =
      2 ^ (32 - n.toNat) * (x.toNat % 2 ^ n.toNat) := by
    rw [hpow, Nat.mul_mod_mul_right, Nat.mul_comm]
  simp only [rotr32, ROTR, UInt32.toNat_or, UInt32.toNat_shiftRight, UInt32.toNat_shiftLeft,
    hsub, hn, Nat.mod_eq_of_lt hlt, Nat.mod_eq_of_lt (show 32 - n.toNat < 32 by omega),
    Nat.shiftRight_eq_div_pow, Nat.shiftLeft_eq, hhigh]
  rw [Nat.or_comm, ← Nat.two_pow_add_eq_or_of_lt hlow]
  ring

theorem toNat_sha_Sigma0 (x : UInt32) : (sha_Sigma0 x).toNat = Sigma0 x.toNat := by
  simp [sha_Sigma0, Sigma0, toNat_rotr32]

theorem toNat_sha_Sigma1 (x : UInt32) : (sha_Sigma1 x).toNat = Sigma1 x.toNat := by
  simp [sha_Sigma1, Sigma1, toNat_rotr32]

theorem toNat_sha_sigma0 (x : UInt32) : (sha_sigma0 x).toNat = sigma0 x.toNat := by
  simp [sha_sigma0, sigma0, SHR, toNat_rotr32, Nat.shiftRight_eq_div_pow]

theorem toNat_sha_sigma1 (x : UInt32) : (sha_sigma1 x).toNat = sigma1 x.toNat := by
  simp [sha_sigma1, sigma1, SHR, toNat_rotr32, Nat.shiftRight_eq_div_pow]

theorem testBit_toNat_of_le (x : UInt32) {i : ℕ} (h : 32 ≤ i) : x.toNat.testBit i = false :=
  Nat.testBit_lt_two_pow (x.toNat_lt.trans_le (Nat.pow_le_pow_right (by decide) h))

theorem testBit_toNat_not (x : UInt32) {i : ℕ} (h : i < 32) :
    (~~~x).toNat.testBit i = !x.toNat.testBit i := by
  have hnot : (~~~x).toNat = 2 ^ 32 - (x.toNat + 1) := by
    rw [UInt32.toNat_not]; simp only [UInt32.size]; omega
  rw [hnot, Nat.testBit_two_pow_sub_succ x.toNat_lt]
  simp [h]

theorem toNat_sha_ch (x y z : UInt32) :
    (sha_ch x y z).toNat = Ch x.toNat y.toNat z.toNat := by
  apply Nat.eq_of_testBit_eq
  intro i
  by_cases hi : i < 32
  · rw [Ch, Nat.testBit_ofBits_lt _ _ hi]
    simp only [sha_ch, UInt32.toNat_xor, UInt32.toNat_and, Nat.testBit_xor, Nat.testBit_and,
      testBit_toNat_not x hi]
    cases x.toNat.testBit i <;> simp
  · rw [Ch, Nat.testBit_ofBits_ge _ _ (by omega), testBit_toNat_of_le _ (by omega)]

theorem toNat_sha_maj (x y z : UInt32) :
    (sha_maj x y z).toNat = Maj x.toNat y.toNat z.toNat := by
  apply Nat.eq_of_testBit_eq
  intro i
  by_cases hi : i < 32
  · rw [Maj, Nat.testBit_ofBits_lt _ _ hi]
    simp only [sha_maj, UInt32.toNat_xor, UInt32.toNat_and, Nat.testBit_xor, Nat.testBit_and]
    cases x.toNat.testBit i <;> cases y.toNat.testBit i <;> cases z.toNat.testBit i <;> rfl
  · rw [Maj, Nat.testBit_ofBits_ge _ _ (by omega), testBit_toNat_of_le _ (by omega)]

/-! ## The message schedule -/

theorem toNat_shift_add (c : UInt32) (b : UInt8) (hc : c.toNat < 256 ^ 3) :
    ((c <<< 8) + b.toUInt32).toNat = c.toNat * 256 + b.toNat := by
  have hb := b.toNat_lt
  simp only [UInt32.toNat_add, UInt32.toNat_shiftLeft, UInt8.toNat_toUInt32, Nat.shiftLeft_eq,
    UInt32.reduceToNat, Nat.reduceMod]
  omega

theorem toNat_chunkToUint32 (mb : Block) (t : ℕ) (h : 4 * t + 4 ≤ 64) :
    (chunkToUint32 mb (4 * t) h).toNat = word mb t := by
  refine Loops.fold_invariant
    (P := fun i (chunk : UInt32) => chunk.toNat = ofBytesBE ((mb.toList.drop (4 * t)).take i))
    rfl ?_
  intro i hi chunk hchunk
  have hlen : i < (mb.toList.drop (4 * t)).length := by simp; omega
  have hlt : chunk.toNat < 256 ^ 3 := by
    rw [hchunk]
    refine (ofBytesBE_lt _).trans_le (Nat.pow_le_pow_right (by decide) ?_)
    simp only [List.length_take]
    omega
  rw [toNat_shift_add _ _ hlt, List.take_succ_eq_append_getElem hlen, ofBytesBE_snoc, hchunk]
  simp

/-- The first sixteen entries of the schedule are the words of the block. -/
theorem toNat_loadWords (mb : Block) :
    ∀ j (hj : j < 64), j < 16 → (loadWords mb)[j].toNat = W mb j := by
  refine Loops.fold_invariant (P := fun i (w : Vector UInt32 64) =>
    ∀ j (hj : j < 64), j < i → w[j].toNat = W mb j) (by omega) ?_
  intro i hi w hw j hj hji
  by_cases hij : i = j
  · subst hij
    rw [Vector.getElem_set_self, toNat_chunkToUint32, W, if_pos hi]
  · rw [Vector.getElem_set_ne _ _ hij]
    exact hw j hj (by omega)

theorem toNat_expandWords (mb : Block) (j : ℕ) (hj : j < 64) :
    (expandWords (loadWords mb))[j].toNat = W mb j := by
  suffices h : ∀ j (hj : j < 64), j < 16 + 48 →
      (expandWords (loadWords mb))[j].toNat = W mb j from h j hj hj
  refine Loops.fold_invariant (P := fun i (w : Vector UInt32 64) =>
    ∀ j (hj : j < 64), j < 16 + i → w[j].toNat = W mb j)
    (toNat_loadWords mb) ?_
  intro i hi w hw j hj hji
  by_cases hij : 16 + i = j
  · subst hij
    rw [Vector.getElem_set_self, W, if_neg (by omega)]
    simp only [UInt32.toNat_add, toNat_sha_sigma0, toNat_sha_sigma1]
    rw [hw _ _ (by omega), hw _ _ (by omega), hw _ _ (by omega), hw _ _ (by omega)]
    simp only [Nat.mod_add_mod]
  · rw [Vector.getElem_set_ne _ _ hij]
    exact hw j hj (by omega)

/-! ## The rounds -/

/-- The registers as the standard's working variables. -/
def Registers.toVariables (v : Registers) : Variables :=
  ⟨v.a.toNat, v.b.toNat, v.c.toNat, v.d.toNat, v.e.toNat, v.f.toNat, v.g.toNat, v.h.toNat⟩

theorem toVariables_roundStep {w : Vector UInt32 64} {mb : Block}
    (hw : ∀ j (hj : j < 64), w[j].toNat = W mb j) (i : ℕ) (hi : i < 64) (v : Registers) :
    (roundStep w i hi v).toVariables = FIPS180.round mb i v.toVariables := by
  simp only [roundStep, Registers.toVariables, FIPS180.round, UInt32.toNat_add, toNat_sha_Sigma0,
    toNat_sha_Sigma1, toNat_sha_ch, toNat_sha_maj, toNat_sha256K i hi, hw i hi,
    Nat.add_mod_mod, Nat.mod_add_mod]

theorem toVariables_rounds (iHash : Chain) (mb : Block) :
    (rounds (expandWords (loadWords mb)) iHash).toVariables =
      FIPS180.rounds mb (iHash.map UInt32.toNat) := by
  refine Loops.fold_related (R := fun v V => Registers.toVariables v = V) ?_ ?_
  · simp [Registers.toVariables, Vector.get]
  · rintro i hi v V rfl
    exact toVariables_roundStep (toNat_expandWords mb) i hi v

theorem map_toNat_addTo (v : Registers) (iHash : Chain) :
    (v.addTo iHash).map UInt32.toNat = v.toVariables.addTo (iHash.map UInt32.toNat) := by
  simp [Registers.addTo, Variables.addTo, Registers.toVariables, Vector.get]

/-- The compression of a block is that of the standard. -/
theorem map_toNat_compress (iHash : Chain) (mb : Block) :
    (compress iHash mb).map UInt32.toNat = FIPS180.compress (iHash.map UInt32.toNat) mb := by
  rw [compress, FIPS180.compress, map_toNat_addTo, toVariables_rounds]

/-- `updateMessageBlock` replaces the intermediate hash by the compression of the standard and
the index by zero, and changes nothing else. -/
theorem SHA256.updateMessageBlock_conforms (s : SHA256) :
    ∃ t es, Runs SHA256.updateMessageBlock s es () t ∧
      t.iHash.map UInt32.toNat = FIPS180.compress (s.iHash.map UInt32.toNat) s.mb ∧
      t.mbi = 0 ∧ t.mb = s.mb ∧ t.mlen = s.mlen ∧ t.hStatus = s.hStatus ∧
      t.hComplete = s.hComplete :=
  ⟨{ s with mbi := 0, iHash := compress s.iHash s.mb },
    [.updateMessageBlock s.iHash s.mb (compress s.iHash s.mb)], rfl,
    map_toNat_compress s.iHash s.mb, rfl, rfl, rfl, rfl, rfl⟩

end LibEmsha
