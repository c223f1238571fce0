import Mathlib.Data.List.Induction

/-!
# Iterated hashing

A compression function folded over a list of blocks. `calls` lists the applications that the
fold makes, each with its two arguments and its result. `exists_collision` is the classical
reduction: two folds that end alike have two applications with different arguments and the
same result, unless one list of blocks is a suffix of the other. `not_isSuffix_of_strengthened`
gives the side condition for a padding whose last block determines the length.
-/

namespace MerkleDamgard

variable {H B L μ : Type}

/-- One application of the compression function. -/
structure Application (H B : Type) where
  chain : H
  block : B
  result : H

/-- The applications made while folding the blocks, in order. -/
def calls (f : H → B → H) : H → List B → List (Application H B)
  | _, [] => []
  | h, b :: bs => ⟨h, b, f h b⟩ :: calls f (f h b) bs

@[simp] theorem calls_nil (f : H → B → H) (h : H) : calls f h [] = [] := rfl
@[simp] theorem calls_cons (f : H → B → H) (h : H) (b : B) (bs : List B) :
    calls f h (b :: bs) = ⟨h, b, f h b⟩ :: calls f (f h b) bs := rfl

theorem calls_append (f : H → B → H) (h : H) (bs cs : List B) :
    calls f h (bs ++ cs) = calls f h bs ++ calls f (bs.foldl f h) cs := by
  induction bs generalizing h with
  | nil => rfl
  | cons b bs ih => simp [ih]

@[simp] theorem map_block_calls (f : H → B → H) (h : H) (bs : List B) :
    (calls f h bs).map Application.block = bs := by
  induction bs generalizing h with
  | nil => rfl
  | cons b bs ih => simp [ih]

theorem calls_snoc (f : H → B → H) (h : H) (bs : List B) (b : B) :
    calls f h (bs ++ [b]) = calls f h bs ++ [⟨bs.foldl f h, b, f (bs.foldl f h) b⟩] :=
  calls_append f h bs [b]

/-- Different arguments, same result. -/
def Collide (x y : Application H B) : Prop :=
  (x.chain, x.block) ≠ (y.chain, y.block) ∧ x.result = y.result

/-- Two folds with the same end have colliding applications, unless one of the block lists
is a suffix of the other. The lists are read from the end. -/
theorem exists_collision (f : H → B → H) {h h' : H} {bs cs : List B}
    (heq : bs.foldl f h = cs.foldl f h') (hbs : ¬ bs <:+ cs) (hcs : ¬ cs <:+ bs) :
    ∃ x ∈ calls f h bs, ∃ y ∈ calls f h' cs, Collide x y := by
  induction bs using List.reverseRecOn generalizing cs with
  | nil => exact (hbs List.nil_suffix).elim
  | append_singleton bs b ih =>
    rcases List.eq_nil_or_concat cs with rfl | ⟨ds, c, rfl⟩
    · exact (hcs List.nil_suffix).elim
    · rw [List.concat_eq_append] at *
      simp only [List.foldl_append, List.foldl_cons, List.foldl_nil] at heq
      rw [calls_snoc, calls_snoc]
      by_cases hargs : (bs.foldl f h, b) = (ds.foldl f h', c)
      · -- The last applications agree, so the chaining values before them do too.
        obtain ⟨hfold, rfl⟩ := Prod.mk.inj hargs
        obtain ⟨x, hx, y, hy, hxy⟩ := ih hfold
          (fun hs => hbs (List.suffix_append_self_iff.mpr hs))
          (fun hs => hcs (List.suffix_append_self_iff.mpr hs))
        exact ⟨x, List.mem_append_left _ hx, y, List.mem_append_left _ hy, hxy⟩
      · exact ⟨_, List.mem_append_right _ (List.mem_singleton_self _), _,
          List.mem_append_right _ (List.mem_singleton_self _), hargs, heq⟩

/-- So it is for different lists of the same length. -/
theorem exists_collision_of_length (f : H → B → H) {h h' : H} {bs cs : List B}
    (heq : bs.foldl f h = cs.foldl f h') (hlen : bs.length = cs.length) (hne : bs ≠ cs) :
    ∃ x ∈ calls f h bs, ∃ y ∈ calls f h' cs, Collide x y :=
  exists_collision f heq (fun hs => hne (hs.eq_of_length hlen))
    fun hs => hne (hs.eq_of_length hlen.symm).symm

/-- A padding is suffix-free when its last block determines the length of the message, the
length determines the number of blocks, and the blocks determine the message. -/
theorem not_isSuffix_of_strengthened (pad : μ → List B) (len : μ → L)
    (hne : ∀ m, pad m ≠ [])
    (hlast : ∀ m m', (pad m).getLast? = (pad m').getLast? → len m = len m')
    (hcount : ∀ m m', len m = len m' → (pad m).length = (pad m').length)
    (hinj : ∀ m m', pad m = pad m' → m = m') {m m' : μ} (hm : m ≠ m') :
    ¬ pad m <:+ pad m' := by
  rintro hs
  have hlen : len m = len m' := by
    apply hlast
    obtain ⟨front, hfront⟩ := hs
    rw [← hfront, List.getLast?_append, List.getLast?_eq_some_getLast (hne m), Option.some_or]
  exact hm (hinj m m' (hs.eq_of_length (hcount m m' hlen)))

end MerkleDamgard
