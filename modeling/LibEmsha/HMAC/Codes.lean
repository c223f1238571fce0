import LibEmsha.HMAC.KeySetup

/-!
# The codes of `HMAC::Update` and `ComputeHMAC`

`Update` refuses a null pointer even with length zero, which `SHA256::Update` accepts. That is the
only argument for which its code is not the documented one, and for which the code of `ComputeHMAC`
is not that of `SHA256Digest`.
-/

namespace LibEmsha.HMAC
open Traced SHA256

/-- The code that the header documents for `Update`. -/
def documentedCode (done : Bool) (m : Input) : EMSHAResult :=
  if m.isNull = true ∧ m.length ≠ 0 then .nullPointer
  else if done then .invalidState
  else .ok

/-- The code of a single-pass function. -/
def returnedCode {σ : Type} (o : Outcome Fault Event σ (EMSHAResult × Option Digest)) :
    Except Fault EMSHAResult := o.result.map fun p => p.1.1

/-- The machine of the keyed hash answers with the documented code, unless the message is null
and empty. -/
theorem macMachine_update_res {tag : List UInt8 → Digest} (t : HashState) (m : Input) :
    ((macMachine tag).answer t (.update m)).res = documentedCode t.isDone m ↔
      ¬ (m.isNull = true ∧ m.length = 0) := by
  cases m with
  | null n =>
    cases t <;> by_cases hn : n = 0 <;>
      simp [macMachine, documentedCode, HashState.isDone, hn]
  | bytes data fits => cases t <;> simp [macMachine, documentedCode, HashState.isDone]

theorem returnedCode_of_runs {σ : Type} {x : Traced Fault Event σ (EMSHAResult × Option Digest)}
    {s t : σ} {es : List Event} {res : EMSHAResult} {d : Option Digest}
    (h : Runs x s es (res, d) t) : returnedCode (x.run s) = .ok res := by
  have hx : x.run s = ⟨es, .ok ((res, d), t)⟩ := h
  rw [hx]
  rfl

/-- The code of a call for a digest that can be computed. -/
def digestCode (d : Option Digest) : EMSHAResult := if d = none then .nullPointer else .ok

/-- `SHA256Digest` of a message that `ctx.Update` accepts. -/
theorem returnedCode_sha256Digest {input : Input} (hm : input.data.length < 2 ^ 29)
    (hnull : input.isNull = true → input.length = 0) (d : Option Digest) :
    returnedCode (sha256Digest .ndebug input d) = .ok (digestCode d) := by
  have hupdate : ∃ es t, Runs (SHA256.update .ndebug input) SHA256.fresh es .ok t ∧
      Absorbing input.data t := by
    cases input with
    | null n =>
      have hn : n = 0 := hnull rfl
      exact ⟨[], SHA256.fresh, by simp [Runs, SHA256.update, hn], absorbing_fresh⟩
    | bytes data fits =>
      obtain ⟨cs, -, es, t, hrun, -, ht⟩ := update_reaches .ndebug fits absorbing_fresh
        (by simpa using hm)
      exact ⟨es, t, hrun, by simpa using ht⟩
  obtain ⟨es, t, hrun, ht⟩ := hupdate
  have hfinalise : ∃ fs d' u, Runs (SHA256.finalise .ndebug d) t fs (digestCode d, d') u := by
    cases d with
    | none => exact ⟨[], none, t, rfl⟩
    | some d =>
      obtain ⟨cs, -, fs, u, hrun', -, -⟩ := finalise_reaches .ndebug d ht
      exact ⟨fs, _, u, hrun'⟩
  obtain ⟨fs, d', u, hrun'⟩ := hfinalise
  have hrest : Runs (if EMSHAResult.ok ≠ .ok then pure (.ok, d) else SHA256.finalise .ndebug d)
      t fs (digestCode d, d') u := by simpa using hrun'
  exact returnedCode_of_runs (hrun.bind hrest)

theorem returnedCode_sha256Digest_null {n : UInt32} (hn : n ≠ 0) (d : Option Digest) :
    returnedCode (sha256Digest .ndebug (.null n) d) = .ok .nullPointer := by
  have hrun : Runs (SHA256.update .ndebug (.null n)) SHA256.fresh [] .nullPointer SHA256.fresh := by
    simp [Runs, SHA256.update, hn]
  exact returnedCode_of_runs (hrun.bind (.pure (EMSHAResult.nullPointer, d) _))

section

variable {key : List UInt8}

/-- `ComputeHMAC` of a message that is not null. -/
theorem returnedCode_computeHMAC {data : List UInt8} (kfits : key.length < 2 ^ 32)
    (hkey : key.length < 2 ^ 29) (fits : data.length < 2 ^ 32) (hm : 64 + data.length < 2 ^ 29)
    (d : Option Digest) :
    returnedCode (computeHMAC .ndebug (.bytes key kfits) (.bytes data fits) d) =
      .ok (digestCode d) := by
  obtain ⟨es, s, hnew, -, hs⟩ := construct_ends .ndebug kfits hkey
  obtain ⟨fs, t, hupdate, -, ht⟩ := update_ends .ndebug fits hs (by simpa using hm)
  have hresult : ∃ gs d' u, Runs (result .ndebug d) t gs (digestCode d, d') u := by
    cases d with
    | none => exact ⟨[], none, t, rfl⟩
    | some d =>
      obtain ⟨gs, u, hrun, -, -⟩ := finalResult_first .ndebug d ht (by simpa using hm)
      exact ⟨gs, _, u, hrun⟩
  obtain ⟨gs, d', u, hrun⟩ := hresult
  have hrest : Runs (if EMSHAResult.ok = .ok then result .ndebug d else pure (.ok, d))
      t gs (digestCode d, d') u := by simpa using hrun
  exact returnedCode_of_runs (hnew.bind (hupdate.bind hrest))

theorem returnedCode_computeHMAC_null (kfits : key.length < 2 ^ 32) (hkey : key.length < 2 ^ 29)
    (n : UInt32) (d : Option Digest) :
    returnedCode (computeHMAC .ndebug (.bytes key kfits) (.null n) d) = .ok .nullPointer := by
  obtain ⟨es, s, hnew, -, hs⟩ := construct_ends .ndebug kfits hkey
  have hupdate : Runs (update .ndebug (.null n)) s [] .nullPointer s := by
    simp [Runs, update, emshaCheck]
  exact returnedCode_of_runs (hnew.bind (hupdate.bind (.pure (EMSHAResult.nullPointer, d) s)))

/-- In every state that a history reaches, `Update` returns the documented code and `ComputeHMAC`
the code of `SHA256Digest`, exactly if the message is not both null and empty. -/
theorem update_code_iff (key : List UInt8) (hkey : key.length < 2 ^ 29) (cs : List Call)
    (m : Input) (hw : WithinLimit (2 ^ 29 - 64) (cs ++ [.update m])) :
    let k := Input.bytes key (hkey.trans (by decide))
    ∃ es s₀ fs rs s gs r s',
      Runs (construct .ndebug k) blank es () s₀ ∧ Runs (answerAll (call .ndebug) cs) s₀ fs rs s ∧
      Runs (call .ndebug (.update m)) s gs r s' ∧
      ((r.res = documentedCode (finalised (cs.zip rs)) m ∧
        (64 + m.data.length < 2 ^ 29 → ∀ d,
          returnedCode (computeHMAC .ndebug k m d) = returnedCode (sha256Digest .ndebug m d))) ↔
        ¬ (m.isNull = true ∧ m.length = 0)) := by
  intro k
  obtain ⟨es, s₀, fs, s, gs, s', hnew, hrun, hs, hcall⟩ :=
    runs_answers (hkey.trans (by decide)) hkey hw rfl
  refine ⟨es, s₀, fs, _, s, gs, _, s', hnew, hrun, hcall, ?_⟩
  rw [finalised_zip_answers rfl (isDone_next_macMachine _), macMachine_update_res]
  refine ⟨And.left, fun hcond => ⟨hcond, fun hm d => ?_⟩⟩
  cases m with
  | null n =>
    have hn : n ≠ 0 := fun h => hcond ⟨rfl, h⟩
    rw [returnedCode_computeHMAC_null _ hkey, returnedCode_sha256Digest_null hn]
  | bytes data fits =>
    have hdata : (Input.bytes data fits).data.length < 2 ^ 29 := by omega
    have hnull : (Input.bytes data fits).isNull = true → (Input.bytes data fits).length = 0 := by
      simp
    rw [returnedCode_computeHMAC _ hkey fits hm, returnedCode_sha256Digest hdata hnull]

/-- An `Update` behind a `Finalise` is refused. -/
theorem update_code_finalised :
    let cs : List Call := [.update (.bytes [5] (by decide)),
      .finalise (some (Vector.replicate 32 0))]
    let m : Input := .bytes [6, 7] (by decide)
    ∃ es s₀ fs rs s gs r s', Runs (construct .ndebug (.bytes [1] (by decide))) blank es () s₀ ∧
      Runs (answerAll (call .ndebug) cs) s₀ fs rs s ∧
      Runs (call .ndebug (.update m)) s gs r s' ∧ r.res = .invalidState ∧
      ∀ d, returnedCode (computeHMAC .ndebug (.bytes [1] (by decide)) m d) =
        returnedCode (sha256Digest .ndebug m d) := by
  intro cs m
  have hw : WithinLimit (2 ^ 29 - 64) (cs ++ [.update m]) := by decide
  obtain ⟨es, s₀, fs, rs, s, gs, r, s', hnew, hrun, hcall, hiff⟩ :=
    update_code_iff [1] (by decide) cs m hw
  obtain ⟨hcode, hdigest⟩ := hiff.mpr (by decide)
  -- The replies of the history are those of the machine.
  obtain ⟨_, s₁, _, _, _, _, hnew', hrun', -⟩ :=
    runs_answers (show ([1] : List UInt8).length < 2 ^ 32 by decide) (by decide) hw rfl
  obtain ⟨-, -, rfl⟩ := hnew.deterministic hnew'
  obtain ⟨-, rfl, -⟩ := hrun.deterministic hrun'
  exact ⟨es, s₀, fs, _, s, gs, r, s', hnew, hrun, hcall, hcode, hdigest (by decide)⟩

/-- A null pointer with length zero is refused by `Update` and by `ComputeHMAC`, and accepted by
`SHA256Digest`. -/
theorem update_code_null_empty :
    let m : Input := .null 0
    let d : Option Digest := some (Vector.replicate 32 0)
    ∃ es s₀ gs r s', Runs (construct .ndebug (.bytes [] (by decide))) blank es () s₀ ∧
      Runs (call .ndebug (.update m)) s₀ gs r s' ∧
      ¬ (r.res = .nullPointer ↔ m.isNull = true ∧ m.length ≠ 0) ∧
      returnedCode (computeHMAC .ndebug (.bytes [] (by decide)) m d) ≠
        returnedCode (sha256Digest .ndebug m d) := by
  intro m d
  obtain ⟨es, s₀, hnew, -, hs₀⟩ := construct_ends .ndebug
    (show ([] : List UInt8).length < 2 ^ 32 by decide) (by decide)
  refine ⟨es, s₀, [], _, s₀, hnew, update_null s₀ 0, by decide, ?_⟩
  rw [returnedCode_computeHMAC_null _ (by decide),
    returnedCode_sha256Digest (by decide) (by decide)]
  decide

end

end LibEmsha.HMAC
