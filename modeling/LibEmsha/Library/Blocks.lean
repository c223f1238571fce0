import Mathlib.Algebra.GroupWithZero.Nat
import Mathlib.Data.List.Basic

/-!
# Cutting a list into blocks of a fixed size

`cut n l` is the list of full blocks of `n` elements of `l`, and what is left over. A block is
a `Vector`, so its length is part of its type. `cut_eq` says that the cut is the only way to
write a list as blocks and a rest shorter than a block; every other fact about it follows.
-/

namespace Blocks

variable {α : Type}

/-- The full blocks of `n` elements, and the rest. There are no blocks of no elements. -/
def cut (n : ℕ) (l : List α) : List (Vector α n) × List α :=
  if h : 0 < n ∧ n ≤ l.length then
    (⟨(l.take n).toArray, by simp [h.2]⟩ :: (cut n (l.drop n)).1, (cut n (l.drop n)).2)
  else ([], l)
termination_by l.length
decreasing_by
  all_goals
    simp only [List.length_drop]
    omega

/-- Put blocks back together. -/
def join {n : ℕ} (vs : List (Vector α n)) : List α := vs.flatMap Vector.toList

@[simp] theorem join_nil {n : ℕ} : join ([] : List (Vector α n)) = [] := rfl
@[simp] theorem join_cons {n : ℕ} (v : Vector α n) (vs : List (Vector α n)) :
    join (v :: vs) = v.toList ++ join vs := rfl
@[simp] theorem join_append {n : ℕ} (vs ws : List (Vector α n)) :
    join (vs ++ ws) = join vs ++ join ws := by
  simp [join]

@[simp] theorem length_join {n : ℕ} (vs : List (Vector α n)) :
    (join vs).length = n * vs.length := by
  induction vs with
  | nil => rfl
  | cons v vs ih => simp [ih, Nat.mul_succ, Nat.add_comm]

variable {n : ℕ}

theorem cut_of_lt {l : List α} (h : l.length < n) : cut n l = ([], l) := by
  unfold cut
  rw [dif_neg (by omega)]

/-- The blocks and the rest make up the list. -/
theorem join_cut (l : List α) : join (cut n l).1 ++ (cut n l).2 = l := by
  induction l using cut.induct n with
  | case1 l h ih =>
    rw [cut, dif_pos h]
    simp only [join_cons, List.append_assoc, ih]
    exact List.take_append_drop n l
  | case2 l h =>
    rw [cut, dif_neg h]
    rfl

section

variable [NeZero n]

theorem cut_block_append (v : Vector α n) (l : List α) :
    cut n (v.toList ++ l) = (v :: (cut n l).1, (cut n l).2) := by
  have hv : 0 < n ∧ n ≤ (v.toList ++ l).length := ⟨Nat.pos_of_neZero n, by simp⟩
  have htake : (v.toList ++ l).take n = v.toList := by simp
  have hdrop : (v.toList ++ l).drop n = l := by simp
  rw [cut, dif_pos hv]
  simp only [hdrop, htake]
  rfl

theorem length_rest_lt (l : List α) : (cut n l).2.length < n := by
  induction l using cut.induct n with
  | case1 l h ih => rw [cut, dif_pos h]; exact ih
  | case2 l h =>
    have hpos := Nat.pos_of_neZero n
    rw [cut, dif_neg h]
    simp only
    omega

/-- The cut is the only way to write a list as blocks and a rest shorter than a block. -/
theorem cut_eq (vs : List (Vector α n)) {r : List α} (hr : r.length < n) :
    cut n (join vs ++ r) = (vs, r) := by
  induction vs with
  | nil => exact cut_of_lt hr
  | cons v vs ih => rw [join_cons, List.append_assoc, cut_block_append, ih]

theorem length_rest (l : List α) : (cut n l).2.length = l.length % n := by
  have hjoin := congrArg List.length (join_cut (n := n) l)
  have hlt := length_rest_lt (n := n) l
  rw [List.length_append, length_join] at hjoin
  rw [← hjoin, Nat.mul_add_mod, Nat.mod_eq_of_lt hlt]

theorem length_blocks (l : List α) : (cut n l).1.length = l.length / n := by
  have hjoin := congrArg List.length (join_cut (n := n) l)
  have hlt := length_rest_lt (n := n) l
  rw [List.length_append, length_join] at hjoin
  rw [← hjoin, Nat.mul_add_div (Nat.pos_of_neZero n), Nat.div_eq_of_lt hlt, Nat.add_zero]

theorem join_blocks (l : List α) : join (cut n l).1 = l.take (n * (l.length / n)) := by
  rw [← length_blocks, ← length_join]
  exact List.prefix_iff_eq_take.mp ⟨(cut n l).2, join_cut l⟩

theorem rest_eq_drop (l : List α) : (cut n l).2 = l.drop (n * (l.length / n)) := by
  have hjoin := join_cut (n := n) l
  rw [join_blocks] at hjoin
  exact List.append_cancel_left (hjoin.trans (List.take_append_drop _ l).symm)

/-- Appending to a list only recuts its rest. -/
theorem cut_append {l m r : List α} {vs : List (Vector α n)}
    (h : (cut n l).2 ++ m = join vs ++ r) (hr : r.length < n) :
    cut n (l ++ m) = ((cut n l).1 ++ vs, r) := by
  have hlm : l ++ m = join ((cut n l).1 ++ vs) ++ r := by
    rw [join_append, List.append_assoc, ← h, ← List.append_assoc, join_cut]
  rw [hlm, cut_eq _ hr]

/-- The cut of a list in two pieces: the second is cut behind the rest of the first. -/
theorem cut_append_rest (l m : List α) :
    cut n (l ++ m) = ((cut n l).1 ++ (cut n ((cut n l).2 ++ m)).1, (cut n ((cut n l).2 ++ m)).2) :=
  cut_append (join_cut _).symm (length_rest_lt _)

/-- Lists that are equal up to a rest of no elements have equal blocks only if they agree. -/
theorem eq_of_blocks_eq {l m : List α} (hl : n ∣ l.length) (hm : n ∣ m.length)
    (h : (cut n l).1 = (cut n m).1) : l = m := by
  have hrest : ∀ {k : List α}, n ∣ k.length → (cut n k).2 = [] := fun hk =>
    List.eq_nil_of_length_eq_zero ((length_rest _).trans (Nat.mod_eq_zero_of_dvd hk))
  rw [← join_cut (n := n) l, ← join_cut (n := n) m, h, hrest hl, hrest hm]

end

/-! ## Filling a block from the left -/

/-- Writing behind a prefix makes the prefix longer. -/
theorem take_set_succ (v : Vector α n) (i : ℕ) (hi : i < n) (x : α) :
    (v.set i x hi).toList.take (i + 1) = v.toList.take i ++ [x] := by
  rw [Vector.toList_set, List.take_succ_eq_append_getElem (by simpa using hi),
    List.getElem_set_self, List.take_set_of_le (Nat.le_refl i)]

theorem exists_block {l : List α} (h : l.length = n) : ∃ v : Vector α n, v.toList = l :=
  ⟨⟨l.toArray, by simpa using h⟩, rfl⟩

/-- A block is known from its full prefix. -/
theorem eq_of_take_eq {v w : Vector α n} (h : v.toList.take n = w.toList) : v = w := by
  rw [List.take_of_length_le (by simp)] at h
  exact Vector.toList_inj.mp h

end Blocks
