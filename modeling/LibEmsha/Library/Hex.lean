import Mathlib.Data.List.Basic
import Mathlib.Data.Nat.Init

/-!
# Hexadecimal digits

Every byte is written as two lower-case digits in ASCII, the high half first. `decode` reads two
digits at a time and gives back the bytes, so `encode` is injective.
-/

namespace Hex

/-- The digit of a value below 16. -/
def digit (v : ℕ) : UInt8 :=
  if v < 10 then UInt8.ofNat (0x30 + v) else UInt8.ofNat (0x61 + (v - 10))

/-- The digits `0` to `9` and `a` to `f`. -/
def IsDigit (c : UInt8) : Prop := (0x30 ≤ c ∧ c ≤ 0x39) ∨ (0x61 ≤ c ∧ c ≤ 0x66)

instance (c : UInt8) : Decidable (IsDigit c) := inferInstanceAs (Decidable (_ ∨ _))

/-- The value of a digit. -/
def value (c : UInt8) : Option ℕ :=
  if 0x30 ≤ c ∧ c ≤ 0x39 then some (c.toNat - 0x30)
  else if 0x61 ≤ c ∧ c ≤ 0x66 then some (c.toNat - 0x61 + 10)
  else none

/-- The two digits of a byte. -/
def pair (b : UInt8) : List UInt8 := [digit (b.toNat / 16), digit (b.toNat % 16)]

def encode (bs : List UInt8) : List UInt8 := bs.flatMap pair

/-- Read two digits at a time, the high half first. -/
def decode : List UInt8 → Option (List UInt8)
  | [] => some []
  | [_] => none
  | c :: d :: cs => do
    let high ← value c
    let low ← value d
    let bs ← decode cs
    return UInt8.ofNat (16 * high + low) :: bs

@[simp] theorem length_pair (b : UInt8) : (pair b).length = 2 := rfl

@[simp] theorem length_encode (bs : List UInt8) : (encode bs).length = 2 * bs.length := by
  induction bs with
  | nil => rfl
  | cons b bs ih =>
    rw [encode, List.flatMap_cons, List.length_append, length_pair, ← encode, ih, List.length_cons]
    omega

theorem isDigit_digit : ∀ v < 16, IsDigit (digit v) := by decide

theorem value_digit : ∀ v < 16, value (digit v) = some v := by decide

theorem isDigit_of_mem_encode {bs : List UInt8} {c : UInt8} (h : c ∈ encode bs) : IsDigit c := by
  obtain ⟨b, -, hc⟩ := List.mem_flatMap.mp h
  have hb := b.toNat_lt
  rcases List.mem_pair.mp hc with rfl | rfl
  · exact isDigit_digit _ (by omega)
  · exact isDigit_digit _ (by omega)

theorem decode_encode (bs : List UInt8) : decode (encode bs) = some bs := by
  induction bs with
  | nil => rfl
  | cons b bs ih =>
    have hb := b.toNat_lt
    have hhigh : value (digit (b.toNat / 16)) = some (b.toNat / 16) := value_digit _ (by omega)
    have hlow : value (digit (b.toNat % 16)) = some (b.toNat % 16) := value_digit _ (by omega)
    have hbyte : UInt8.ofNat (16 * (b.toNat / 16) + b.toNat % 16) = b := by
      rw [Nat.div_add_mod, UInt8.ofNat_toNat]
    change decode (digit (b.toNat / 16) :: digit (b.toNat % 16) :: encode bs) = _
    rw [decode, hhigh, hlow, ih]
    exact congrArg (fun c => some (c :: bs)) hbyte

theorem encode_injective {bs cs : List UInt8} (h : encode bs = encode cs) : bs = cs := by
  have heq := congrArg decode h
  rwa [decode_encode, decode_encode, Option.some.injEq] at heq

end Hex
