import Mathlib.Data.Nat.Nth
import Mathlib.Data.Nat.Prime.Defs
import Mathlib.Data.Nat.NthRoot.Defs
import LibEmsha.Library.BigEndian
import LibEmsha.Library.Blocks

/-!
# SHA-256 after FIPS 180-4 and HMAC after FIPS 198-1

The functions of FIPS 180-4 on natural numbers modulo `2 ^ 32`. Rotation and shift are quotients
and remainders by powers of two, choice and majority are taken bit by bit, and the constants
are integer roots of primes. The construction of FIPS 198-1 takes any hash function. Nothing here
mentions the program.
-/

namespace LibEmsha.FIPS180
open BigEndian

/-- Rotation to the right by `n` bits. -/
def ROTR (n x : ℕ) : ℕ := x / 2 ^ n + x % 2 ^ n * 2 ^ (32 - n)

/-- Shift to the right by `n` bits. -/
def SHR (n x : ℕ) : ℕ := x / 2 ^ n

/-- Bit `i` of the choice is bit `i` of `y` where `x` has a one, and of `z` elsewhere. -/
def Ch (x y z : ℕ) : ℕ :=
  Nat.ofBits fun i : Fin 32 => if x.testBit i then y.testBit i else z.testBit i

/-- Bit `i` of the majority is the value that two of the three bits `i` have. -/
def Maj (x y z : ℕ) : ℕ :=
  Nat.ofBits fun i : Fin 32 =>
    decide (2 ≤ (x.testBit i).toNat + (y.testBit i).toNat + (z.testBit i).toNat)

def Sigma0 (x : ℕ) : ℕ := ROTR 2 x ^^^ ROTR 13 x ^^^ ROTR 22 x
def Sigma1 (x : ℕ) : ℕ := ROTR 6 x ^^^ ROTR 11 x ^^^ ROTR 25 x
def sigma0 (x : ℕ) : ℕ := ROTR 7 x ^^^ ROTR 18 x ^^^ SHR 3 x
def sigma1 (x : ℕ) : ℕ := ROTR 17 x ^^^ ROTR 19 x ^^^ SHR 10 x

/-- The first 32 bits of the fractional part of the `k`-th root of `p`: the integer part of
`2 ^ 32` times the root, without its integer part. -/
def rootFraction (k p : ℕ) : ℕ := Nat.nthRoot k (p * 2 ^ (32 * k)) % 2 ^ 32

/-- From the cube root of the `t`-th prime. -/
noncomputable def K (t : ℕ) : ℕ := rootFraction 3 (Nat.nth Nat.Prime t)

/-- From the square roots of the first eight primes. -/
noncomputable def H0 : Vector ℕ 8 := .ofFn fun i => rootFraction 2 (Nat.nth Nat.Prime i)

/-- The `t`-th word of a block, big-endian. -/
def word (M : Vector UInt8 64) (t : ℕ) : ℕ := ofBytesBE ((M.toList.drop (4 * t)).take 4)

/-- The message schedule. -/
def W (M : Vector UInt8 64) (t : ℕ) : ℕ :=
  if t < 16 then word M t
  else (sigma1 (W M (t - 2)) + W M (t - 7) + sigma0 (W M (t - 15)) + W M (t - 16)) % 2 ^ 32

/-- The eight working variables. -/
structure Variables where
  a : ℕ
  b : ℕ
  c : ℕ
  d : ℕ
  e : ℕ
  f : ℕ
  g : ℕ
  h : ℕ

/-- Step 3 of section 6.2.2, for one `t`. -/
noncomputable def round (M : Vector UInt8 64) (t : ℕ) (v : Variables) : Variables :=
  let T1 := (v.h + Sigma1 v.e + Ch v.e v.f v.g + K t + W M t) % 2 ^ 32
  let T2 := (Sigma0 v.a + Maj v.a v.b v.c) % 2 ^ 32
  { a := (T1 + T2) % 2 ^ 32, b := v.a, c := v.b, d := v.c
    e := (v.d + T1) % 2 ^ 32, f := v.e, g := v.f, h := v.g }

/-- Steps 2 and 3 of section 6.2.2. -/
noncomputable def rounds (M : Vector UInt8 64) (H : Vector ℕ 8) : Variables :=
  Nat.fold 64 (fun t _ v => round M t v)
    ⟨H.get 0, H.get 1, H.get 2, H.get 3, H.get 4, H.get 5, H.get 6, H.get 7⟩

/-- Step 4 of section 6.2.2. -/
def Variables.addTo (v : Variables) (H : Vector ℕ 8) : Vector ℕ 8 :=
  #v[(H.get 0 + v.a) % 2 ^ 32, (H.get 1 + v.b) % 2 ^ 32, (H.get 2 + v.c) % 2 ^ 32,
    (H.get 3 + v.d) % 2 ^ 32, (H.get 4 + v.e) % 2 ^ 32, (H.get 5 + v.f) % 2 ^ 32,
    (H.get 6 + v.g) % 2 ^ 32, (H.get 7 + v.h) % 2 ^ 32]

/-- Section 6.2.2: the hash value after the block `M`. -/
noncomputable def compress (H : Vector ℕ 8) (M : Vector UInt8 64) : Vector ℕ 8 :=
  (rounds M H).addTo H

/-- Some number of zeros brings a message of `n` bytes and its marker to 56 modulo 64. -/
theorem exists_zeros (n : ℕ) : ∃ z, (n + 1 + z) % 64 = 56 :=
  ⟨(119 - n % 64) % 64, by omega⟩

/-- The least such number. -/
def zeros (n : ℕ) : ℕ := Nat.find (exists_zeros n)

/-- The padding of section 5.1.1: the marker, zeros, and the length in bits. -/
def pad (m : List UInt8) : List UInt8 :=
  m ++ [0x80] ++ List.replicate (zeros m.length) 0 ++ bytesBE 8 (8 * m.length)

/-- The message digest, most significant byte first. -/
noncomputable def sha256 (m : List UInt8) : List UInt8 :=
  ((Blocks.cut 64 (pad m)).1.foldl compress H0).toList.flatMap (bytesBE 4)

end LibEmsha.FIPS180

/-! ## The keyed hash -/

namespace LibEmsha.FIPS198

-- A hash function that takes blocks of `B` bytes.
variable (H : List UInt8 → List UInt8) (B : ℕ)

/-- Steps 1 to 3 of table 1: the key as a block. -/
def K0 (K : List UInt8) : List UInt8 :=
  if K.length = B then K
  else if B < K.length then H K ++ List.replicate (B - (H K).length) 0
  else K ++ List.replicate (B - K.length) 0

/-- Steps 4 to 6: the hash of the key block under `ipad` and of the text. -/
def inner (K text : List UInt8) : List UInt8 := H ((K0 H B K).map (· ^^^ 0x36) ++ text)

/-- Steps 7 to 9: the hash of the key block under `opad` and of that hash. -/
def hmac (K text : List UInt8) : List UInt8 :=
  H ((K0 H B K).map (· ^^^ 0x5c) ++ inner H B K text)

end LibEmsha.FIPS198
