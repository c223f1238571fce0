import LibEmsha.HMAC.KeySetup

/-!
# What destruction leaves of an object

The destructor calls `reset` before it fills `k` with zeros, and `reset` absorbs the inner key block
again. So the compression of that block stays in `ctx.i_hash`, which no destructor clears. All
other members are the same for every key and every history, as no call changes the key block.
-/

namespace LibEmsha.HMAC
open Traced SHA256 MerkleDamgard Blocks

/-! ## The key block is kept -/

section

variable {α : Type}

theorem onCtx_keeps (x : SHA256.Member α) : Keeps HMAC.k (onCtx x) :=
  fun _ => Ensures.zoom_frame fun _ _ h => h

theorem intoBuf_keeps (x : Option Digest → SHA256.Member (EMSHAResult × Option Digest)) :
    Keeps HMAC.k (intoBuf x) := by
  refine .getState_bind fun s => (onCtx_keeps _).bind ?_
  rintro ⟨res, d⟩
  exact .modifyState_bind (fun _ => rfl) fun _ => .pure _

theorem orInvalid_keeps (res : EMSHAResult) (retval : α) {rest : Member α}
    (h : Keeps HMAC.k rest) : Keeps HMAC.k (orInvalid res retval rest) :=
  .ite (.modifyState_bind (fun _ => rfl) fun _ => .pure _) h

end

section

variable (build : Build)

theorem reset_keeps : Keeps HMAC.k (reset build) := by
  refine (onCtx_keeps _).bind fun _ => .modifyState_bind (fun _ => rfl) fun _ => ?_
  refine .getState_bind fun s => (onCtx_keeps _).bind fun res => orInvalid_keeps _ _ ?_
  exact .modifyState_bind (fun _ => rfl) fun _ => .pure _

theorem update_keeps (m : Input) : Keeps HMAC.k (update build m) := by
  refine emshaCheck_keeps _ _ (.getState_bind fun s => emshaCheck_keeps _ _ ?_)
  refine (onCtx_keeps _).bind fun res => orInvalid_keeps _ _ (.getState_bind fun t => ?_)
  exact (assert_keeps _ _).bind fun _ => .pure _

theorem outerHash_keeps (d : Digest) : Keeps HMAC.k (outerHash build d) := by
  refine (onCtx_keeps _).bind fun _ => .getState_bind fun s => ?_
  refine (onCtx_keeps _).bind fun res => orInvalid_keeps _ _ ?_
  refine .modifyState_bind (fun _ => rfl) fun _ => .getState_bind fun t => ?_
  refine (onCtx_keeps _).bind fun res => orInvalid_keeps _ _ ?_
  refine (intoBuf_keeps _).bind fun res => orInvalid_keeps _ _ (.getState_bind fun u => ?_)
  refine (assert_keeps _ _).bind fun _ => .modifyState_bind (fun _ => rfl) fun _ => ?_
  exact .getState_bind fun v => .pure _

theorem finalResult_keeps (d : Option Digest) : Keeps HMAC.k (finalResult build d) := by
  cases d with
  | none => exact .pure _
  | some d =>
    refine .getState_bind fun s => .ite (.pure _) (emshaCheck_keeps _ _ ?_)
    refine (intoBuf_keeps _).bind fun res => orInvalid_keeps _ _ (.getState_bind fun t => ?_)
    exact (assert_keeps _ _).bind fun _ => outerHash_keeps build d

/-- No call changes the key block. -/
theorem call_keeps (c : Call) : Keeps HMAC.k (call build c) := by
  cases c with
  | reset => exact (reset_keeps build).bind fun _ => .pure _
  | update m => exact (update_keeps build m).bind fun _ => .pure _
  | finalise d => exact (finalResult_keeps build d).bind fun _ => .pure _
  | result d => exact (finalResult_keeps build d).bind fun _ => .pure _

section

variable {build} {key : List UInt8} {fits : key.length < 2 ^ 32} {es : List Event} {s₀ : HMAC}

theorem key_of_construct (hkey : key.length < 2 ^ 29)
    (hnew : Runs (construct build (.bytes key fits)) blank es () s₀) :
    s₀.k = keyBlock build key := by
  obtain ⟨es', t, hnew', -, buf, ht⟩ := construct_ends build fits hkey
  obtain ⟨-, -, rfl⟩ := hnew.deterministic hnew'
  exact ht.k

/-- After any history the object has the key block that it was constructed with. -/
theorem key_of_runs (hkey : key.length < 2 ^ 29) {cs : List Call} {fs : List Event}
    {rs : List Reply} {s : HMAC} (hnew : Runs (construct build (.bytes key fits)) blank es () s₀)
    (hrun : Runs (answerAll (call build) cs) s₀ fs rs s) : s.k = keyBlock build key :=
  Ensures.answerAll (fun c => call_keeps build c _) cs s₀ fs rs s hrun
    (key_of_construct hkey hnew)

end

/-! ## The destructor -/

/-- What destruction leaves, but for the intermediate hash. -/
def remains (iHash : Chain) : HMAC where
  hstate := .ipad
  ctx := { SHA256.fresh with mlen := 512, iHash := iHash }
  k := Vector.replicate 64 0
  buf := Vector.replicate 32 0

/-- A `SHA256` object that absorbed one block, once its message block is cleared. -/
theorem cleared_of_absorbing {b : Block} {s : SHA256} (hs : Absorbing b.toList s) :
    { s with mb := Vector.replicate 64 0 } =
      { SHA256.fresh with mlen := 512, iHash := compress emsha256H0 b } := by
  have hcut : cut 64 b.toList = ([b], []) := by simpa using cut_eq [b] (r := []) (by simp)
  rw [Absorbing, hcut] at hs
  obtain ⟨hstatus, hcomplete, hchain, hmlen, hmbi, -⟩ := hs
  have hmlen' : s.mlen = 512 := UInt64.toNat_inj.mp (by simpa using hmlen)
  have hmbi' : s.mbi = 0 := UInt8.toNat_inj.mp hmbi
  simp [SHA256.fresh, hstatus, hcomplete, hchain, hmlen', hmbi']

/-- The destructor leaves the compression of the inner key block, and nothing else. -/
theorem destructor_runs (s : HMAC) : ∃ es,
    Runs (destructor build) s es () (remains (compress emsha256H0 (padKey s.k ipad))) := by
  have hends : Ends (destructor build) s ()
      (· = remains (compress emsha256H0 (padKey s.k ipad))) := by
    refine (reset_working build s).bind fun t ht => ?_
    refine (Ends.modifyState (Q := (· = { t with k := Vector.replicate 64 0 })) rfl).bind
      fun u hu => ?_
    subst hu
    refine .onCtx (R := (· = { t.ctx with mb := Vector.replicate 64 0 })) (.modifyState rfl) ?_
    rintro ctx rfl
    simp [remains, cleared_of_absorbing ht.ctx, ht.hstate, ht.buf]
  obtain ⟨es, t, hrun, -, rfl⟩ := hends
  exact ⟨es, hrun⟩

end

theorem padKey_injective {k k' : Block} {pad : UInt8} (h : padKey k pad = padKey k' pad) :
    k = k' := Vector.map_inj_right (fun _ _ => UInt8.xor_left_inj pad |>.mp) |>.mp h

/-- The compression that every inner hash under the key block starts with. -/
def innerStart (k : Block) : Application Chain Block :=
  ⟨emsha256H0, padKey k ipad, compress emsha256H0 (padKey k ipad)⟩

/-- After any two histories under any two keys, what destruction leaves differs at most in
`ctx.i_hash`; and it is the same exactly if the key blocks are, or the inner key blocks are a
collision of the compression. -/
theorem destructor_agrees_iff (build : Build) (key key' : List UInt8) (hkey : key.length < 2 ^ 29)
    (hkey' : key'.length < 2 ^ 29) (cs cs' : List Call) {es fs es' fs' : List Event}
    {rs rs' : List Reply} {s₀ s s₀' s' : HMAC}
    (hnew : Runs (construct build (.bytes key (hkey.trans (by decide)))) blank es () s₀)
    (hrun : Runs (answerAll (call build) cs) s₀ fs rs s)
    (hnew' : Runs (construct build (.bytes key' (hkey'.trans (by decide)))) blank es' () s₀')
    (hrun' : Runs (answerAll (call build) cs') s₀' fs' rs' s') :
    ∃ gs t gs' t', Runs (destructor build) s gs () t ∧ Runs (destructor build) s' gs' () t' ∧
      (t = t' ↔ keyBlock build key = keyBlock build key' ∨
        Collide (innerStart (keyBlock build key)) (innerStart (keyBlock build key'))) ∧
      t' = { t with ctx := { t.ctx with iHash := t'.ctx.iHash } } := by
  obtain ⟨gs, hdestroy⟩ := destructor_runs build s
  obtain ⟨gs', hdestroy'⟩ := destructor_runs build s'
  rw [key_of_runs hkey hnew hrun] at hdestroy
  rw [key_of_runs hkey' hnew' hrun'] at hdestroy'
  refine ⟨gs, _, gs', _, hdestroy, hdestroy', ⟨fun h => ?_, ?_⟩, rfl⟩
  · by_cases hk : keyBlock build key = keyBlock build key'
    · exact .inl hk
    · -- Two blocks with one intermediate hash.
      exact .inr ⟨fun hargs => hk (padKey_injective (Prod.mk.inj hargs).2),
        congrArg (fun t => t.ctx.iHash) h⟩
  · rintro (hk | ⟨-, hresult⟩)
    · rw [hk]
    · exact congrArg remains hresult

/-- A zero behind a short key leaves the key block as it is, and messages leave nothing. -/
theorem destructor_agrees_zero :
    ∃ es s₀ fs rs s gs t es' s' gs' t',
      Runs (construct .ndebug (.bytes [1] (by decide))) blank es () s₀ ∧
      Runs (answerAll (call .ndebug) [.update (.bytes [5] (by decide))]) s₀ fs rs s ∧
      Runs (destructor .ndebug) s gs () t ∧
      Runs (construct .ndebug (.bytes [1, 0] (by decide))) blank es' () s' ∧
      Runs (destructor .ndebug) s' gs' () t' ∧ t = t' := by
  obtain ⟨es, s₀, fs, s, -, -, hnew, hrun, -⟩ := runs_answers
    (show ([1] : List UInt8).length < 2 ^ 32 by decide) (by decide)
    (show WithinLimit (2 ^ 29 - 64) ([.update (.bytes [5] (by decide))] ++ [.reset]) by decide) rfl
  obtain ⟨es', s', hnew', -, -⟩ := construct_ends .ndebug
    (show ([1, 0] : List UInt8).length < 2 ^ 32 by decide) (by decide)
  obtain ⟨gs, t, gs', t', hdestroy, hdestroy', hiff, -⟩ := destructor_agrees_iff .ndebug [1] [1, 0]
    (by decide) (by decide) [.update (.bytes [5] (by decide))] [] hnew hrun hnew' (.pure [] s')
  have hk : keyBlock .ndebug [1] = keyBlock .ndebug [1, 0] := by
    rw [← Vector.toList_inj, toList_keyBlock, toList_keyBlock]
    rfl
  exact ⟨es, s₀, fs, _, s, gs, t, es', s', gs', t', hnew, hrun, hdestroy, hnew', hdestroy',
    hiff.mpr (.inl hk)⟩

/-! ## Two keys that leave different traces -/

/-- The inner key block of the empty key. -/
def innerBlockEmpty : Block := Vector.replicate 64 0x36

/-- The inner key block of the key of one byte 1. -/
def innerBlockOne : Block := ⟨⟨0x37 :: List.replicate 63 0x36⟩, by decide⟩

theorem padKey_empty : padKey (keyBlock .ndebug []) ipad = innerBlockEmpty := by
  rw [← Vector.toList_inj, toList_padKey, toList_keyBlock]
  decide +kernel

theorem padKey_one : padKey (keyBlock .ndebug [1]) ipad = innerBlockOne := by
  rw [← Vector.toList_inj, toList_padKey, toList_keyBlock]
  decide +kernel

set_option maxRecDepth 100000 in
theorem compress_inner_ne :
    compress emsha256H0 innerBlockEmpty ≠ compress emsha256H0 innerBlockOne := by
  have hword : (compress emsha256H0 innerBlockEmpty)[0] ≠
      (compress emsha256H0 innerBlockOne)[0] := by decide +kernel
  exact fun h => hword (by rw [h])

/-- The empty key and the key of one byte 1, each destroyed right after the construction. -/
theorem destructor_empty_one :
    ∃ es s gs t es' s' gs' t',
      Runs (construct .ndebug (.bytes [] (by decide))) blank es () s ∧
      Runs (destructor .ndebug) s gs () t ∧
      Runs (construct .ndebug (.bytes [1] (by decide))) blank es' () s' ∧
      Runs (destructor .ndebug) s' gs' () t' ∧ t.ctx.iHash ≠ t'.ctx.iHash := by
  obtain ⟨es, s, hnew, -, -⟩ := construct_ends .ndebug
    (show ([] : List UInt8).length < 2 ^ 32 by decide) (by decide)
  obtain ⟨es', s', hnew', -, -⟩ := construct_ends .ndebug
    (show ([1] : List UInt8).length < 2 ^ 32 by decide) (by decide)
  obtain ⟨gs, hdestroy⟩ := destructor_runs .ndebug s
  obtain ⟨gs', hdestroy'⟩ := destructor_runs .ndebug s'
  rw [key_of_construct (by decide) hnew, padKey_empty] at hdestroy
  rw [key_of_construct (by decide) hnew', padKey_one] at hdestroy'
  exact ⟨es, s, gs, _, es', s', gs', _, hnew, hdestroy, hnew', hdestroy', compress_inner_ne⟩

end LibEmsha.HMAC
