import LibEmsha.Library.Relational
import LibEmsha.SHA256.Codes

/-!
# The assertions of `SHA256`

The assertions say that the object is in a good state and that a counted length is positive. They
never fail, not even behind the length that can be counted: a debug build and one with `NDEBUG` do
the same throughout every history.
-/

namespace LibEmsha.SHA256
open Traced

/-- On an object in a good state the two member functions do the same, and leave it in one. -/
abbrev Same {α : Type} (x y : Member α) : Prop :=
  Lockstep id (fun s t => s = t ∧ Good s) Eq x y

/-- A member function without assertions. -/
theorem same_of_keeps {α : Type} {x : Member α} (h : Keeps flags x) : Same x x :=
  .of_ensures (good_of_keeps h)

/-- An assertion that the object is in a good state. -/
theorem assertGood_same :
    Same (do assert .debug ((← getState).hStatus = .ok))
      (do assert .ndebug ((← getState).hStatus = .ok)) := by
  refine .getState_bind ?_
  rintro s _ ⟨rfl, hs : s.hStatus = .ok⟩
  rw [assert_of .debug hs, assert_of .ndebug hs]
  exact .pure rfl

/-- The sum of a length and a positive one is zero only where it is refused. -/
theorem addLength_build {l : UInt32} (hl : l ≠ 0) : addLength .debug l = addLength .ndebug l := by
  unfold addLength
  congr 1
  funext s
  by_cases hle : s.mlen ≤ (s.mlen.toUInt32 + l).toUInt64
  · have hpos : 0 < (s.mlen.toUInt32 + l).toUInt64 := by
      have hl' : l.toNat ≠ 0 := fun h => hl (UInt32.toNat_inj.mp h)
      have hlt := l.toNat_lt
      have hzero : (0 : UInt64).toNat = 0 := rfl
      rw [UInt64.le_iff_toNat_le] at hle
      rw [UInt64.lt_iff_toNat_lt]
      simp only [UInt32.toNat_toUInt64, UInt32.toNat_add, UInt64.toNat_toUInt32, hzero] at hle ⊢
      omega
    simp only [if_pos hle, assert_of .debug hpos, assert_of .ndebug hpos]
  · simp only [if_neg hle]

theorem absorb_same (b : UInt8) : Same (absorb .debug b) (absorb .ndebug b) := by
  refine (same_of_keeps (store_keeps b)).bind fun _ _ _ => ?_
  rw [addLength_build (by decide)]
  refine (same_of_keeps (addLength_keeps .ndebug 8)).bind ?_
  rintro res _ rfl
  refine .getState_bind ?_
  rintro s _ ⟨rfl, -⟩
  refine .ite Iff.rfl (fun _ => ?_) fun _ => .pure rfl
  exact (same_of_keeps updateMessageBlock_keeps).bind fun _ _ _ => assertGood_same

theorem update_same (m : Input) : Same (update .debug m) (update .ndebug m) := by
  refine .ite Iff.rfl (fun _ => .pure rfl) fun _ => ?_
  cases m with
  | null n => exact .pure rfl
  | bytes data fits =>
    refine .getState_bind ?_
    rintro s _ ⟨rfl, -⟩
    refine .ite Iff.rfl (fun _ => .pure rfl) fun _ => .ite Iff.rfl (fun _ => .pure rfl) fun _ => ?_
    have hloop : Same (each (absorb .debug) data) (each (absorb .ndebug) data) :=
      .each (S := Eq) (fun b _ h => h ▸ absorb_same b) (List.forall₂_same.mpr fun _ _ => rfl)
    refine hloop.bind fun _ _ _ => .getState_bind ?_
    rintro t _ ⟨rfl, -⟩
    exact .pure rfl

/-! ## The padding -/

theorem padBlock_same (pc : UInt8) : Same (padBlock .debug pc) (padBlock .ndebug pc) := by
  refine .getState_bind ?_
  rintro s _ ⟨rfl, -⟩
  refine .ite Iff.rfl (fun _ => ?_) fun _ => ?_
  · refine (same_of_keeps (store_keeps pc)).bind fun _ _ _ => ?_
    refine (same_of_keeps (zeroFill_keeps 64)).bind fun _ _ _ => ?_
    exact (same_of_keeps updateMessageBlock_keeps).bind fun _ _ _ => assertGood_same
  · refine (same_of_keeps (zeroFill_keeps 64)).bind fun _ _ _ => ?_
    refine (same_of_keeps updateMessageBlock_keeps).bind fun _ _ _ => ?_
    exact (same_of_keeps (store_keeps pc)).bind fun _ _ _ => assertGood_same

theorem padLength_same : Same (padLength .debug) (padLength .ndebug) := by
  refine (same_of_keeps (zeroFill_keeps (64 - 8))).bind fun _ _ _ => ?_
  refine .modifyState_bind ?_ fun _ => ?_
  · rintro s _ ⟨rfl, hs⟩
    exact ⟨rfl, hs⟩
  · exact (same_of_keeps updateMessageBlock_keeps).bind fun _ _ _ => assertGood_same

theorem padMessage_same (pc : UInt8) : Same (padMessage .debug pc) (padMessage .ndebug pc) := by
  refine .getState_bind ?_
  rintro s _ ⟨rfl, hs : s.hStatus = .ok⟩
  rw [assert_of .debug hs, assert_of .ndebug hs]
  refine .ite Iff.rfl (fun _ => ?_) fun _ => ?_
  · exact (same_of_keeps (store_keeps pc)).bind fun _ _ _ => padLength_same
  · exact (padBlock_same pc).bind fun _ _ _ => padLength_same

theorem finalise_same (d : Option Digest) : Same (finalise .debug d) (finalise .ndebug d) := by
  cases d with
  | none => exact .pure rfl
  | some d =>
    refine .getState_bind ?_
    rintro s _ ⟨rfl, -⟩
    refine .ite Iff.rfl (fun _ => .pure rfl) fun _ => .ite Iff.rfl (fun _ => .pure rfl) fun _ => ?_
    refine (padMessage_same 0x80).bind fun _ _ _ => .getState_bind ?_
    rintro t _ ⟨rfl, ht : t.hStatus = .ok⟩
    rw [assert_of .debug ht, assert_of .ndebug ht, Traced.pure_bind]
    refine .modifyState_bind ?_ fun _ => ?_
    · rintro u _ ⟨rfl, hu⟩
      exact ⟨rfl, hu⟩
    · refine .getState_bind ?_
      rintro u _ ⟨rfl, -⟩
      exact .pure rfl

theorem result_same (d : Option Digest) : Same (result .debug d) (result .ndebug d) := by
  cases d with
  | none => exact .pure rfl
  | some d =>
    refine .getState_bind ?_
    rintro s _ ⟨rfl, -⟩
    refine .ite Iff.rfl (fun _ => .pure rfl) fun _ => ?_
    exact .ite Iff.rfl (fun _ => finalise_same (some d)) fun _ => .pure rfl

/-! ## Calls and histories -/

theorem call_same (c : Call) : Same (call .debug c) (call .ndebug c) := by
  cases c with
  | reset =>
    rintro s _ ⟨rfl, -⟩
    exact .returns rfl rfl ⟨rfl, rfl⟩
  | update m =>
    refine (update_same m).bind ?_
    rintro res _ rfl
    exact .pure rfl
  | finalise d =>
    refine (finalise_same d).bind ?_
    rintro p _ rfl
    exact .pure rfl
  | result d =>
    refine (result_same d).bind ?_
    rintro p _ rfl
    exact .pure rfl

/-- No assertion fails in any history, however long the messages are: with and without them the log,
the replies, the fault and the object that is left are the same. -/
theorem history_build (cs : List Call) : history .debug cs = history .ndebug cs := by
  have hcall : ∀ c d, c = d → Same (call .debug c) (call .ndebug d) := by
    rintro c _ rfl
    exact call_same c
  have hcalls := Lockstep.answerAll hcall (List.forall₂_refl cs)
  rw [List.forall₂_eq_eq_eq] at hcalls
  exact (hcalls fresh fresh ⟨rfl, rfl⟩).eq

end LibEmsha.SHA256
