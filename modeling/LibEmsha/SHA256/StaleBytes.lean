import LibEmsha.SHA256.Refinement

/-!
# The bytes behind the index are never read

`updateMessageBlock` leaves the old block in `mb`, so an open object has bytes of earlier blocks
behind its index. Whatever they are, what the object answers is determined by the intermediate
hash, the length and the bytes up to the index: every call is followed from `Holds`, which does not
mention the other bytes.
-/

namespace LibEmsha.SHA256
open Traced Blocks

/-- Two open objects that differ at most in the bytes of the message block from the index on. -/
structure AgreeUpToIndex (s s' : SHA256) : Prop where
  hStatus : s.hStatus = .ok
  hStatus' : s'.hStatus = .ok
  hComplete : s.hComplete = 0
  hComplete' : s'.hComplete = 0
  mbi_lt : s.mbi.toNat < 64
  mbi : s'.mbi = s.mbi
  iHash : s'.iHash = s.iHash
  mlen : s'.mlen = s.mlen
  mb : ∀ i (hi : i < 64), i < s.mbi.toNat → s'.mb[i] = s.mb[i]

/-- The bytes up to the index. -/
def live (s : SHA256) : List UInt8 := s.mb.toList.take s.mbi.toNat

theorem length_live {s : SHA256} (h : s.mbi.toNat ≤ 64) : (live s).length = s.mbi.toNat := by
  simpa [live] using h

/-- Such objects hold the same. -/
theorem AgreeUpToIndex.holds {s s' : SHA256} (h : AgreeUpToIndex s s') :
    Holds s.iHash s.mlen.toNat (live s) s ∧ Holds s.iHash s.mlen.toNat (live s) s' := by
  have hlen := length_live (Nat.le_of_lt h.mbi_lt)
  have hlive : s'.mb.toList.take s.mbi.toNat = live s := by
    refine List.ext_getElem (by simp [live]) fun i hi _ => ?_
    simp only [List.length_take, Vector.length_toList] at hi
    simpa [live] using h.mb i (by omega) (by omega)
  refine ⟨⟨h.hStatus, h.hComplete, rfl, rfl, hlen.symm, by rw [hlen]; rfl⟩, ?_⟩
  exact ⟨h.hStatus', h.hComplete', h.iHash, by rw [h.mlen], by rw [h.mbi, hlen],
    by rw [hlen]; exact hlive⟩

/-! ## What is determined -/

variable {h : Chain} {n : ℕ} {r : List UInt8}

/-- What an `Update` returns and leaves does not depend on the rest of the object. -/
theorem update_determined (build : Build) (m : Input) (hr : r.length < 64)
    (hn : n + 8 * m.data.length < 2 ^ 32) :
    ∃ res h' r', r'.length < 64 ∧ ∀ s, Holds h n r s → ∃ es t,
      Runs (call build (.update m)) s es ⟨res, none⟩ t ∧ Holds h' (n + 8 * m.data.length) r' t := by
  cases m with
  | null k =>
    by_cases hk : k = 0
    · exact ⟨.ok, h, r, hr, fun s hs => ⟨[], s, update_empty build hk, hs⟩⟩
    · exact ⟨.nullPointer, h, r, hr, fun s hs => ⟨[], s, update_null build hk, hs⟩⟩
  | bytes data fits =>
    refine ⟨.ok, (cut 64 (r ++ data)).1.foldl compress h, (cut 64 (r ++ data)).2,
      length_rest_lt _, fun s hs => ?_⟩
    obtain ⟨es, t, hrun, -, ht⟩ := update_holds build fits hs hr hn
    exact ⟨es, t, call_update hrun, ht⟩

/-- So for any number of `Update`s. -/
theorem updates_determined (build : Build) (ms : List Input) (hr : r.length < 64)
    (hn : n + 8 * (ms.flatMap Input.data).length < 2 ^ 32) :
    ∃ rs h' n' r', r'.length < 64 ∧ ∀ s, Holds h n r s → ∃ es t,
      Runs (answerAll (call build) (ms.map .update)) s es rs t ∧ Holds h' n' r' t := by
  induction ms generalizing h n r with
  | nil => exact ⟨[], h, n, r, hr, fun s hs => ⟨[], s, .pure [] s, hs⟩⟩
  | cons m ms ih =>
    rw [List.flatMap_cons, List.length_append] at hn
    obtain ⟨res, h₁, r₁, hr₁, hfirst⟩ := update_determined (h := h) (n := n) build m hr (by omega)
    obtain ⟨rs, h', n', r', hr', hrest⟩ := ih (h := h₁) (n := n + 8 * m.data.length) hr₁ (by omega)
    refine ⟨⟨res, none⟩ :: rs, h', n', r', hr', fun s hs => ?_⟩
    obtain ⟨es, t, hrun, ht⟩ := hfirst s hs
    obtain ⟨fs, u, hrun', hu⟩ := hrest t ht
    exact ⟨es ++ fs, u, hrun.answerAll_singleton.answerAll_append hrun', hu⟩

/-- Nor does what `Finalise` returns. -/
theorem finalise_determined (build : Build) (d : Option Digest) (hr : r.length < 64) :
    ∃ res d', ∀ s, Holds h n r s → ∃ es t, Runs (finalise build d) s es (res, d') t := by
  cases d with
  | none => exact ⟨.nullPointer, none, fun s _ => ⟨[], s, rfl⟩⟩
  | some d =>
    refine ⟨.ok, some (writeDigest ((cut 64 (r ++ padTail r.length n)).1.foldl compress h) d),
      fun s hs => ?_⟩
    obtain ⟨es, t, hrun, -, -⟩ := finalise_holds build d hs hr
    exact ⟨es, t, hrun⟩

/-- So for any call that asks for a digest. -/
theorem digest_determined (build : Build) {c : Call} (hc : c.asksDigest = true)
    (hr : r.length < 64) :
    ∃ q, ∀ s, Holds h n r s → ∃ es t, Runs (call build c) s es q t := by
  cases c with
  | reset => cases hc
  | update m => cases hc
  | finalise d =>
    obtain ⟨res, d', hfinalise⟩ := finalise_determined (h := h) (n := n) build d hr
    refine ⟨⟨res, d'⟩, fun s hs => ?_⟩
    obtain ⟨es, t, hrun⟩ := hfinalise s hs
    exact ⟨es, t, call_of_pair hrun⟩
  | result d =>
    obtain ⟨res, d', hfinalise⟩ := finalise_determined (h := h) (n := n) build d hr
    refine ⟨⟨res, d'⟩, fun s hs => ?_⟩
    obtain ⟨es, t, hrun⟩ := hfinalise s hs
    exact ⟨es, t, call_of_pair ((run_result_of_open build d hs.hStatus hs.hComplete).trans hrun)⟩

/-- Two open objects that differ only behind the index give the same replies, digests included, to
any `Update`s whose bits can be counted and a `Finalise` or `Result` after them. -/
theorem replies_agree (build : Build) (s s' : SHA256) (h : AgreeUpToIndex s s') (ms : List Input)
    (hbits : s.mlen.toNat + 8 * (ms.flatMap Input.data).length < 2 ^ 32) (c : Call)
    (hc : c.asksDigest = true) :
    ∃ rs es t es' t',
      Runs (answerAll (call build) (ms.map .update ++ [c])) s es rs t ∧
      Runs (answerAll (call build) (ms.map .update ++ [c])) s' es' rs t' := by
  have hlive : (live s).length < 64 := length_live (Nat.le_of_lt h.mbi_lt) ▸ h.mbi_lt
  obtain ⟨rs, h', n', r', hr', hupdates⟩ := updates_determined (h := s.iHash) build ms hlive hbits
  obtain ⟨q, hdigest⟩ := digest_determined (h := h') (n := n') build hc hr'
  have hanswers : ∀ u, Holds s.iHash s.mlen.toNat (live s) u →
      ∃ es t, Runs (answerAll (call build) (ms.map .update ++ [c])) u es (rs ++ [q]) t := by
    intro u hu
    obtain ⟨es, v, hrun, hv⟩ := hupdates u hu
    obtain ⟨fs, w, hrun'⟩ := hdigest v hv
    exact ⟨es ++ fs, w, hrun.answerAll_append hrun'.answerAll_singleton⟩
  obtain ⟨es, t, hrun⟩ := hanswers s h.holds.1
  obtain ⟨es', t', hrun'⟩ := hanswers s' h.holds.2
  exact ⟨_, es, t, es', t', hrun, hrun'⟩

/-- A new object and one whose message block is full of old bytes. -/
theorem replies_agree_fresh :
    ∃ rs es t es' t',
      Runs (answerAll (call .ndebug) [.update (.bytes [1, 2] (by decide)),
        .result (some (Vector.replicate 32 0))]) fresh es rs t ∧
      Runs (answerAll (call .ndebug) [.update (.bytes [1, 2] (by decide)),
        .result (some (Vector.replicate 32 0))])
        { fresh with mb := Vector.replicate 64 0xff } es' rs t' :=
  replies_agree .ndebug fresh { fresh with mb := Vector.replicate 64 0xff }
    ⟨rfl, rfl, rfl, rfl, by decide, rfl, rfl, rfl, fun _ _ h => absurd h (Nat.not_lt_zero _)⟩
    [.bytes [1, 2] (by decide)] (by decide) (.result (some (Vector.replicate 32 0))) rfl

end LibEmsha.SHA256
