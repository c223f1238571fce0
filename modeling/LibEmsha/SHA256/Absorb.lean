import LibEmsha.SHA256.Buffer

/-!
# Absorbing a message

The block-buffer invariant. An object that absorbed the message `m` holds the compression of
the full blocks of `m`, and the rest of `m` in its message block. From any open object one byte
compresses the block that it completes (`absorb_holds`), so an `Update` compresses the blocks that
its bytes complete (`update_holds`), as long as the 32-bit sum of `addLength` can count the bits.
-/

namespace LibEmsha
open Traced MerkleDamgard Blocks

/-- The compressions made while absorbing `m`. -/
def absorptions (m : List UInt8) : List (Application Chain Block) :=
  calls compress emsha256H0 (cut 64 m).1

theorem absorptions_nil : absorptions [] = [] := by
  rw [absorptions, cut_of_lt (by simp), calls_nil]

namespace SHA256

/-- The object is open and absorbed `m`. -/
def Absorbing (m : List UInt8) (s : SHA256) : Prop :=
  Holds ((cut 64 m).1.foldl compress emsha256H0) (8 * m.length) (cut 64 m).2 s

theorem absorbing_fresh : Absorbing [] fresh := by
  rw [Absorbing, cut_of_lt (by simp)]
  exact holds_fresh

variable {m : List UInt8} {s : SHA256}

/-- The index is the number of bytes behind the last full block. -/
theorem Absorbing.mbi_eq (hs : Absorbing m s) : s.mbi.toNat = m.length % 64 := by
  rw [Holds.mbi hs, length_rest]

/-! ## From any open object -/

section

variable {h : Chain} {n : ℕ} {r : List UInt8}

/-- One pass of the loop of `Update`. -/
theorem absorb_holds (build : Build) (b : UInt8) (hs : Holds h n r s) (hr : r.length < 64)
    (hn : n + 8 < 2 ^ 32) :
    Reaches (absorb build b) s (calls compress h (cut 64 (r ++ [b])).1) ()
      (Holds ((cut 64 (r ++ [b])).1.foldl compress h) (n + 8) (cut 64 (r ++ [b])).2) := by
  by_cases hfull : r.length = 63
  · -- The byte completes a block.
    let v : Block := ⟨(r ++ [b]).toArray, by simp [hfull]⟩
    have hv : v.toList = r ++ [b] := rfl
    have hcut : cut 64 (r ++ [b]) = ([v], []) := by
      simpa [hv] using cut_eq [v] (r := []) (by simp)
    rw [hcut]
    refine (store_reaches b hs hr).bind_nil fun t ht => ?_
    refine (addLength_reaches build 8 ht (by decide) hn).bind_nil fun u hu => ?_
    have hmbi : u.mbi = 64 := by
      rw [← UInt8.toNat_inj, hu.mbi, List.length_append, hfull]
      rfl
    refine .getState_bind ?_
    rw [if_pos ⟨rfl, hmbi⟩]
    refine (updateMessageBlock_reaches hu (Holds.mb_eq (hv ▸ hu))).bind_pure fun w hw => ?_
    refine .getState_bind ?_
    rw [assert_of build hw.hStatus]
    exact .pure hw
  · -- The byte only makes the rest longer.
    have hcut : cut 64 (r ++ [b]) = ([], r ++ [b]) := cut_of_lt (by simp; omega)
    rw [hcut]
    refine (store_reaches b hs hr).bind_nil fun t ht => ?_
    refine (addLength_reaches build 8 ht (by decide) hn).bind_nil fun u hu => ?_
    have hmbi : u.mbi ≠ 64 := by
      rw [← UInt8.toNat_inj.ne, hu.mbi, List.length_append]
      simp [hfull]
    refine .getState_bind ?_
    rw [if_neg (fun hc => hmbi hc.2)]
    exact .pure hu

/-- The loop of `Update`. -/
theorem each_absorb_holds (build : Build) (data : List UInt8) (hs : Holds h n r s)
    (hr : r.length < 64) (hn : n + 8 * data.length < 2 ^ 32) :
    Reaches (each (absorb build) data) s (calls compress h (cut 64 (r ++ data)).1) ()
      (Holds ((cut 64 (r ++ data)).1.foldl compress h) (n + 8 * data.length)
        (cut 64 (r ++ data)).2) := by
  let P : List UInt8 → List Event → SHA256 → Prop := fun done log t =>
    Holds ((cut 64 (r ++ done)).1.foldl compress h) (n + 8 * done.length) (cut 64 (r ++ done)).2 t ∧
      Logs (calls compress h (cut 64 (r ++ done)).1) log
  have start : P [] [] s := by
    simp only [P, List.append_nil, cut_of_lt hr]
    exact ⟨hs, .nil⟩
  have step : ∀ done b rest log s, data = done ++ b :: rest → P done log s →
      ∃ es t, Runs (absorb build b) s es () t ∧ P (done ++ [b]) (log ++ es) t := by
    rintro done b rest log s rfl ⟨hs, hlogs⟩
    simp only [List.length_append, List.length_cons] at hn
    obtain ⟨es, t, hrun, hlogs', ht⟩ :=
      absorb_holds build b hs (length_rest_lt _) (by omega)
    refine ⟨es, t, hrun, ?_⟩
    -- The blocks of `done` come first, then those that `b` completes.
    simp only [P, ← List.append_assoc, cut_append_rest (r ++ done) [b], List.foldl_append,
      calls_append, List.length_append, List.length_singleton, Nat.mul_add, ← Nat.add_assoc]
    exact ⟨ht, hlogs.append hlogs'⟩
  obtain ⟨es, t, hrun, ht, hlogs⟩ := Runs.each_rule step start
  exact ⟨es, t, hrun, hlogs, ht⟩

/-- `Update` on an open object. -/
theorem update_holds (build : Build) {data : List UInt8} (fits : data.length < 2 ^ 32)
    (hs : Holds h n r s) (hr : r.length < 64) (hn : n + 8 * data.length < 2 ^ 32) :
    Reaches (update build (.bytes data fits)) s (calls compress h (cut 64 (r ++ data)).1) .ok
      (Holds ((cut 64 (r ++ data)).1.foldl compress h) (n + 8 * data.length)
        (cut 64 (r ++ data)).2) := by
  by_cases hdata : data = []
  · subst hdata
    rw [update, if_pos (by simp), List.append_nil, cut_of_lt hr]
    exact .pure hs
  · rw [update, if_neg (by simpa using hdata)]
    refine .getState_bind ?_
    rw [if_neg (by simp [hs.hStatus]), if_neg (by simp [hs.hComplete])]
    refine (each_absorb_holds build data hs hr hn).bind_pure fun t ht => .getState_bind ?_
    rw [ht.hStatus]
    exact .pure ht

end

/-! ## From the beginning -/

/-- What was absorbed before and what comes behind its rest is what is absorbed together. -/
theorem absorbing_append {data : List UInt8} :
    Absorbing (m ++ data) s ↔ Holds
      ((cut 64 ((cut 64 m).2 ++ data)).1.foldl compress ((cut 64 m).1.foldl compress emsha256H0))
      (8 * m.length + 8 * data.length) (cut 64 ((cut 64 m).2 ++ data)).2 s := by
  rw [Absorbing, cut_append_rest, List.foldl_append, List.length_append, Nat.mul_add]

theorem absorptions_append (m data : List UInt8) :
    absorptions (m ++ data) = absorptions m ++
      calls compress ((cut 64 m).1.foldl compress emsha256H0) (cut 64 ((cut 64 m).2 ++ data)).1 := by
  rw [absorptions, cut_append_rest, calls_append, absorptions]

theorem each_absorb_reaches (build : Build) {data : List UInt8} (hs : Absorbing m s)
    (hm : m.length + data.length < 2 ^ 29) :
    ∃ cs, absorptions (m ++ data) = absorptions m ++ cs ∧
      Reaches (each (absorb build) data) s cs () (Absorbing (m ++ data)) := by
  refine ⟨_, absorptions_append m data, ?_⟩
  obtain ⟨es, t, hrun, hlogs, ht⟩ :=
    each_absorb_holds build data hs (length_rest_lt m) (by omega)
  exact ⟨es, t, hrun, hlogs, absorbing_append.mpr ht⟩

theorem update_reaches (build : Build) {data : List UInt8} (fits : data.length < 2 ^ 32)
    (hs : Absorbing m s) (hm : m.length + data.length < 2 ^ 29) :
    ∃ cs, absorptions (m ++ data) = absorptions m ++ cs ∧
      Reaches (update build (.bytes data fits)) s cs .ok (Absorbing (m ++ data)) := by
  refine ⟨_, absorptions_append m data, ?_⟩
  obtain ⟨es, t, hrun, hlogs, ht⟩ := update_holds build fits hs (length_rest_lt m) (by omega)
  exact ⟨es, t, hrun, hlogs, absorbing_append.mpr ht⟩

end SHA256
end LibEmsha
