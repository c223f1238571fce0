import LibEmsha.HMAC.KeySetup
import LibEmsha.SHA256.Codes

/-!
# Keys that cannot be hashed

The constructor drops the codes of the calls that hash a long key. The only key for which they are
not `OK` is a null pointer, and with it the object works under the hash of the empty string.
-/

namespace LibEmsha.HMAC
open Traced SHA256

/-- If `ctx.Update` or `ctx.Result` on the key did not return `OK`, then no `Finalise`, `Result`
or `ComputeHMAC` returns `OK`. -/
def KeyFaultReported (ik : Input) : Prop :=
  ∀ es codes s, Runs (hashKey .ndebug ik) blank es codes s → codes.1 ≠ .ok ∨ codes.2 ≠ .ok →
    (∀ fs s₀ cs c gs rs r s', Runs (construct .ndebug ik) blank fs () s₀ → c.asksDigest = true →
      Runs (answerAll (call .ndebug) (cs ++ [c])) s₀ gs (rs ++ [r]) s' → r.res ≠ .ok) ∧
    ∀ m d fs res d' t, computeHMAC .ndebug ik m d = ⟨fs, .ok ((res, d'), t)⟩ → res ≠ .ok

/-! ## A null pointer -/

/-- The constructor takes the hash of the empty string for a key. -/
theorem construct_null (build : Build) {n : UInt32} (hn : 64 < n) :
    (∃ es s, Runs (hashKey build (.null n)) blank es (.nullPointer, .ok) s) ∧
      ∃ k, Ends (construct build (.null n)) blank () fun t => Represents build k t .start := by
  have hzero : n ≠ 0 := by rintro rfl; exact absurd hn (by decide)
  have hupdate : Reaches (SHA256.update build (.null n)) SHA256.fresh (absorptions [])
      .nullPointer (Absorbing []) := by
    rw [absorptions_nil]
    exact ⟨[], SHA256.fresh, by simp [Runs, SHA256.update, hzero], .nil, absorbing_fresh⟩
  have hkey := hashKey_ends build (.null n) (by simp) (.onCtx hupdate fun _ h => ⟨rfl, h⟩)
  refine ⟨?_, writeKey (digestOf build []).toList (Vector.replicate 64 0), ?_⟩
  · obtain ⟨es, s, hrun, -, -⟩ := hkey
    exact ⟨es, s, hrun⟩
  · refine construct_of_setKey build ?_
    have hlong : ¬ n < 64 := by
      rw [UInt32.lt_iff_toNat_lt] at hn ⊢
      omega
    rw [setKey, Input.length_null, if_neg hlong, if_pos hn]
    exact hkey.bind fun _ ht => .pure ht

theorem not_keyFaultReported_null {n : UInt32} (hn : 64 < n) : ¬ KeyFaultReported (.null n) := by
  intro hreported
  obtain ⟨⟨es, s, hhash⟩, k, fs, s₀, hnew, -, hs₀⟩ := construct_null .ndebug hn
  obtain ⟨hcalls, -⟩ := hreported es _ s hhash (.inl (by decide))
  obtain ⟨gs, s', hresult, -, -⟩ :=
    (finalResult_ends .ndebug (Vector.replicate 32 0) hs₀ (by decide)).reply
  exact hcalls fs s₀ [] (.result (some (Vector.replicate 32 0))) gs [] _ s' hnew rfl
    (Runs.answerAll_singleton hresult) rfl

/-! ## A key that can be read -/

theorem onCtx_ensures {α : Type} {x : SHA256.Member α} {P : SHA256 → Prop}
    {Q : α → SHA256 → Prop} (h : Ensures P x Q) :
    Ensures (fun s => P s.ctx) (onCtx x) fun a s => Q a s.ctx :=
  .zoom h fun _ _ _ hq => hq

/-- The hash of a key that can be read is written without an error, however long the key is. -/
theorem hashKey_ensures {build : Build} {data : List UInt8} (fits : data.length < 2 ^ 32)
    (hdata : data ≠ []) :
    Ensures (· = blank) (hashKey build (.bytes data fits)) fun codes _ => codes = (.ok, .ok) := by
  have hupdate : Ensures (· = blank) (onCtx (SHA256.update build (.bytes data fits)))
      fun res s => res = .ok ∧ Good s.ctx :=
    (onCtx_ensures (update_ensures fits hdata)).mono (fun _ hs => hs ▸ ⟨rfl, rfl⟩) fun _ _ h => h
  refine hupdate.bind fun res => .getState_bind fun u hu => ?_
  obtain ⟨rfl, hgood⟩ := hu
  have hresult : Ensures (· = u)
      (onCtx (SHA256.result build (some (Vector.ofFn fun i : Fin 32 => u.k[i]))))
      fun p _ => p.1 = .ok :=
    (onCtx_ensures (result_ensures _)).mono (fun _ hs => hs ▸ hgood) fun _ _ h => h
  refine hresult.bind ?_
  rintro ⟨res', d⟩
  refine .of_fact ?_
  rintro rfl
  exact .bind .trivial fun _ => .bind .trivial fun _ => .pure fun _ _ => rfl

theorem keyFaultReported_bytes {data : List UInt8} (fits : data.length < 2 ^ 32)
    (hdata : data ≠ []) : KeyFaultReported (.bytes data fits) := by
  intro es codes s hhash hfault
  have hcodes : codes = (.ok, .ok) := hashKey_ensures fits hdata blank es codes s hhash rfl
  subst hcodes
  simp at hfault

/-- The faults of a key longer than a block are reported exactly if it is not a null pointer. -/
theorem keyFaultReported_iff (ik : Input) (h : 64 < ik.length) :
    KeyFaultReported ik ↔ ik.isNull = false := by
  cases ik with
  | null n => simpa using not_keyFaultReported_null h
  | bytes data fits =>
    have hdata : data ≠ [] := by
      rintro rfl
      simp [UInt32.lt_iff_toNat_lt] at h
    exact iff_of_true (keyFaultReported_bytes fits hdata) rfl

theorem keyFaultReported_ones :
    KeyFaultReported (.bytes (List.replicate 65 1) (by decide)) :=
  (keyFaultReported_iff (.bytes (List.replicate 65 1) (by decide)) (by decide)).mpr rfl

/-- A null pointer of length 65. -/
theorem not_keyFaultReported_null_65 :
    ¬ (64 < (Input.null 65).length → KeyFaultReported (.null 65)) :=
  fun h => not_keyFaultReported_null (by decide) (h (by decide))

end LibEmsha.HMAC
