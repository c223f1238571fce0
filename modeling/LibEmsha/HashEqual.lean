import Mathlib.SetTheory.Cardinal.Finite
import LibEmsha.Model.Interface

/-!
# Comparing digests

`HashEqual` adds up the differences of the bytes in one byte. The sum is zero for equal
digests, and also when the differences add up to a positive multiple of 256. As the sum takes every
value equally often, one digest in 256 is accepted (`hashEqual_accepts`).
-/

namespace LibEmsha

/-- The loop of `HashEqual`. -/
def accumulate (a b : Digest) : UInt8 := Nat.fold 32 (fun i _ res => res + (a[i] ^^^ b[i])) 0

/-- `HashEqual`. -/
def hashEqual (build : Build) (a b : Option Digest) : Except Fault Bool :=
  emshaCheck build (a.isSome = true) false <|
  emshaCheck build (b.isSome = true) false <|
  match a, b with
  | some a, some b => pure (accumulate a b = 0)
  | _, _ => throw .nullDereference

/-- The differences of the bytes of two digests. -/
def differences (a b : Digest) : List ℕ :=
  (Vector.zipWith (fun x y : UInt8 => (x ^^^ y).toNat) a b).toList

/-- The sum of the differences, as a number. -/
def distance (a b : Digest) : ℕ := (differences a b).sum

theorem toNat_xor_eq_zero {x y : UInt8} : (x ^^^ y).toNat = 0 ↔ x = y := by
  rw [← UInt8.xor_eq_zero_iff, ← UInt8.toNat_inj]
  rfl

theorem distance_eq_zero (a b : Digest) : distance a b = 0 ↔ ∀ i (hi : i < 32), a[i] = b[i] := by
  rw [distance, List.sum_eq_zero_iff_forall_eq_nat, List.forall_mem_iff_forall_getElem]
  simp [differences, ← toNat_xor_eq_zero]

/-- The accumulator is the distance modulo 256. -/
theorem toNat_accumulate (a b : Digest) : (accumulate a b).toNat = distance a b % 256 := by
  have hlen : (differences a b).length = 32 := by simp [differences]
  have hall : (differences a b).take 32 = differences a b := List.take_of_length_le (by simp [hlen])
  rw [distance, ← hall]
  refine Loops.fold_invariant (P := fun i (res : UInt8) =>
    res.toNat = ((differences a b).take i).sum % 256) rfl ?_
  intro i hi res hres
  rw [List.take_succ_eq_append_getElem (by omega), List.sum_append, UInt8.toNat_add, hres]
  simp [differences]

theorem hashEqual_eq (build : Build) (a b : Digest) :
    hashEqual build (some a) (some b) = .ok (decide (256 ∣ distance a b)) := by
  have hres : accumulate a b = 0 ↔ 256 ∣ distance a b := by
    rw [← UInt8.toNat_inj, toNat_accumulate, Nat.dvd_iff_mod_eq_zero]
    rfl
  simp [hashEqual, emshaCheck, hres, pure, Except.pure]

/-- `HashEqual` decides equality of two digests exactly when their distance is not a positive
multiple of 256. -/
theorem hashEqual_iff_distance (build : Build) (a b : Digest) :
    (hashEqual build (some a) (some b) = .ok true ↔ ∀ i (hi : i < 32), a[i] = b[i]) ↔
      ¬ (0 < distance a b ∧ 256 ∣ distance a b) := by
  rw [hashEqual_eq, ← distance_eq_zero, Except.ok.injEq, decide_eq_true_eq]
  constructor
  · rintro h ⟨hpos, hdvd⟩
    exact Nat.ne_of_gt hpos (h.mp hdvd)
  · intro h
    refine ⟨fun hdvd => ?_, fun hzero => hzero ▸ Nat.dvd_zero 256⟩
    by_contra hne
    exact h ⟨Nat.pos_of_ne_zero hne, hdvd⟩

/-- Two differences of 128 cancel. -/
theorem hashEqual_accepts_unequal :
    let a : Digest := (Vector.replicate 32 0 |>.set 0 0x80).set 1 0x80
    let b : Digest := Vector.replicate 32 0
    ¬ (hashEqual .ndebug (some a) (some b) = .ok true ↔ ∀ i (hi : i < 32), a[i] = b[i]) := by
  decide

/-! ## How many digests are accepted -/

/-- The distance as a function of one byte: the rest of it does not depend on the byte. -/
theorem distance_set (a b : Digest) (i : ℕ) (hi : i < 32) :
    ∃ rest, ∀ x, distance a (b.set i x hi) = rest + (a[i] ^^^ x).toNat := by
  refine ⟨((differences a b).take i).sum + ((differences a b).drop (i + 1)).sum, fun x => ?_⟩
  have hset : differences a (b.set i x hi) = (differences a b).set i (a[i] ^^^ x).toNat := by
    apply List.ext_getElem
    · simp [differences]
    · intro j hj hj'
      by_cases h : i = j <;> simp [differences, h]
  have hlen : i < (differences a b).length := by simpa [differences] using hi
  rw [distance, hset, List.sum_set, if_pos hlen]
  omega

/-- Whatever the other bytes are, one value of a byte makes the digest accepted. -/
theorem existsUnique_byte (build : Build) (a b : Digest) (i : ℕ) (hi : i < 32) :
    ∃! x, hashEqual build (some a) (some (b.set i x hi)) = .ok true := by
  obtain ⟨rest, hrest⟩ := distance_set a b i hi
  have hxor : ∀ x, a[i] ^^^ (a[i] ^^^ x) = x := fun x => by
    rw [← UInt8.xor_assoc, UInt8.xor_self, UInt8.zero_xor]
  simp only [hashEqual_eq, hrest, Except.ok.injEq, decide_eq_true_eq]
  refine ⟨a[i] ^^^ UInt8.ofNat (256 - rest % 256), ?_, fun x hx => ?_⟩
  · change 256 ∣ rest + (a[i] ^^^ (a[i] ^^^ UInt8.ofNat (256 - rest % 256))).toNat
    rw [hxor, UInt8.toNat_ofNat']
    omega
  · have hlt := (a[i] ^^^ x).toNat_lt
    have hdifference : a[i] ^^^ x = UInt8.ofNat (256 - rest % 256) := by
      rw [← UInt8.toNat_inj, UInt8.toNat_ofNat']
      omega
    rw [← hdifference, hxor]

section

variable {α : Type} {n : ℕ}

theorem card_vector (α : Type) (n : ℕ) : Nat.card (Vector α n) = Nat.card α ^ n := by
  have e : Vector α n ≃ (Fin n → α) :=
    ⟨fun v i => v[i], Vector.ofFn, fun v => by simp, fun f => by simp⟩
  rw [Nat.card_congr e, Nat.card_fun, Nat.card_fin]

/-- Where the last entry is determined by the others, the others are free. -/
theorem card_of_existsUnique_last {P : Vector α (n + 1) → Prop}
    (h : ∀ v : Vector α n, ∃! x, P (v.push x)) :
    Nat.card {v // P v} = Nat.card α ^ n := by
  rw [← card_vector]
  refine Nat.card_eq_of_bijective (fun v => v.1.pop) ⟨?_, fun v => ?_⟩
  · rintro ⟨v, hv⟩ ⟨w, hw⟩ hvw
    have hpop : v.pop = w.pop := hvw
    have hv' : P (v.pop.push v.back) := by simpa using hv
    have hw' : P (v.pop.push w.back) := by simpa [hpop] using hw
    have hback : v.back = w.back := (h v.pop).unique hv' hw'
    rw [Subtype.mk.injEq, ← Vector.push_pop_back v, ← Vector.push_pop_back w, hpop, hback]
  · obtain ⟨x, hx, -⟩ := h v
    exact ⟨⟨v.push x, hx⟩, by simp⟩

end

theorem card_byte : Nat.card UInt8 = 256 := by
  rw [Nat.card_congr ⟨UInt8.toFin, UInt8.ofFin, fun _ => rfl, fun _ => rfl⟩, Nat.card_fin]

/-- Digests that differ in one byte are told apart. -/
theorem hashEqual_set (build : Build) (a : Digest) (i : ℕ) (hi : i < 32) (x : UInt8) :
    hashEqual build (some a) (some (a.set i x hi)) = .ok (decide (x = a[i])) := by
  obtain ⟨rest, hrest⟩ := distance_set a a i hi
  have hself : distance a (a.set i a[i] hi) = 0 := by simp [distance_eq_zero]
  have hrest_zero : rest = 0 := by
    rw [hrest] at hself
    omega
  have hlt := (a[i] ^^^ x).toNat_lt
  rw [hashEqual_eq, hrest, hrest_zero, Except.ok.injEq, decide_eq_decide, eq_comm (a := x),
    ← toNat_xor_eq_zero]
  omega

/-- Next to a digest, digests that differ from it in one byte are told apart. But of all digests one
in 256 is accepted: whatever 31 bytes are, one value of the byte left makes it so. -/
theorem hashEqual_accepts (build : Build) (a : Digest) :
    (∀ i (hi : i < 32) x,
      hashEqual build (some a) (some (a.set i x hi)) = .ok (decide (x = a[i]))) ∧
    (∀ (b : Digest) i (hi : i < 32), ∃! x,
      hashEqual build (some a) (some (b.set i x hi)) = .ok true) ∧
    Nat.card {b : Digest // hashEqual build (some a) (some b) = .ok true} = 256 ^ 31 := by
  refine ⟨hashEqual_set build a, existsUnique_byte build a, ?_⟩
  have hlast : ∀ v : Vector UInt8 31, ∃! x,
      hashEqual build (some a) (some (v.push x)) = .ok true := fun v => by
    have hset : ∀ x, (v.push 0).set 31 x = v.push x := fun x => by
      ext i hi
      grind
    simpa only [hset] using existsUnique_byte build a (v.push 0) 31 (by decide)
  rw [← card_byte]
  exact card_of_existsUnique_last (P := fun b => hashEqual build (some a) (some b) = .ok true) hlast

end LibEmsha
