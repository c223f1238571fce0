import LibEmsha.HMAC.Refinement

/-!
# The constructor of `HMAC`

A key that can be read is put into `k` as it is, or hashed when it is longer than a block, with
zeros behind it (`construct_ends`). So a new object refines the machine of the keyed hash.
-/

namespace LibEmsha.HMAC
open Traced SHA256 MerkleDamgard

/-! ## The key block -/

theorem toList_writeKey {data : List UInt8} (k : Block) (hdata : data.length ≤ 64) :
    (writeKey data k).toList = data ++ k.toList.drop data.length := by
  apply List.ext_getElem
  · simp
    omega
  · intro i hi hi'
    by_cases h : i < data.length
    · simp [writeKey, h]
    · have hle := Nat.not_lt.mp h
      simp [writeKey, h, List.getElem_append_right hle, Nat.add_sub_cancel' hle]

/-- The bytes and zeros behind them. -/
theorem toList_writeKey_zeros {data : List UInt8} (hdata : data.length ≤ 64) :
    (writeKey data (Vector.replicate 64 0)).toList =
      data ++ List.replicate (64 - data.length) 0 := by
  rw [toList_writeKey _ hdata, Vector.toList_replicate, List.drop_replicate]

section

variable (build : Build) {key : List UInt8}

/-- The key block of a key. -/
def keyBlock (key : List UInt8) : Block :=
  writeKey (if key.length ≤ 64 then key else (digestOf build key).toList) (Vector.replicate 64 0)

theorem toList_keyBlock (key : List UInt8) :
    (keyBlock build key).toList = macKey (digestOf build) key := by
  rw [keyBlock, toList_writeKey_zeros, macKey]
  split <;> simp [*]

/-! ## The branches -/

theorem copyKey_makes (fits : key.length < 2 ^ 32) :
    Makes (copyKey (.bytes key fits)) blank [] ()
      fun t => t.k = writeKey key (Vector.replicate 64 0) := .modifyState rfl

/-- Zeros behind a short key change nothing. -/
theorem zeroKey_makes {s : HMAC} (hs : s.k = writeKey key (Vector.replicate 64 0)) :
    Makes (zeroKey key.length) s [] () fun t => t.k = writeKey key (Vector.replicate 64 0) := by
  refine .modifyState ?_
  ext i hi
  by_cases h : i < key.length <;> simp [hs, writeKey, h]

/-- `ctx.Result` with the beginning of `k` as its destination, after `ctx` absorbed `m`. -/
theorem hashKey_makes (ik : Input) {res : EMSHAResult} {m : List UInt8} (hm : m.length < 2 ^ 29)
    (hupdate : Makes (onCtx (SHA256.update build ik)) blank (absorptions m) res
      fun t => t.k = blank.k ∧ Absorbing m t.ctx) :
    Makes (hashKey build ik) blank (compressions m) (res, .ok)
      fun t => t.k = writeKey (digestOf build m).toList (Vector.replicate 64 0) := by
  rw [compressions_eq_after]
  refine hupdate.bind fun t ht => .getState_bind ?_
  obtain ⟨hk, hctx⟩ := ht
  obtain ⟨cs, hcs, hresult⟩ := result_reaches build (Vector.ofFn fun i : Fin 32 => t.k[i]) hctx
  rw [compressions_eq_after, List.append_cancel_left_eq] at hcs
  rw [← digestOf_eq build hm, ← hcs] at hresult
  refine (Makes.onCtx (Q := fun u => u.k = blank.k) hresult fun _ _ => hk).bind_pure fun u hu => ?_
  refine (Makes.modifyState (Q := fun v =>
    v.k = writeKey (digestOf build m).toList (Vector.replicate 64 0)) ?_).bind_nil fun v hv => ?_
  · simp [hu, blank]
  · exact (restart_makes v).bind_nil fun w hw => .pure (hw.k.trans hv)

theorem hashKey_ends (ik : Input) {res : EMSHAResult} {m : List UInt8} (hm : m.length < 2 ^ 29)
    (hupdate : Makes (onCtx (SHA256.update build ik)) blank (absorptions m) res
      fun t => t.k = blank.k ∧ Absorbing m t.ctx) :
    Ends (hashKey build ik) blank (res, .ok)
      fun t => t.k = writeKey (digestOf build m).toList (Vector.replicate 64 0) :=
  (hashKey_makes build ik hm hupdate).ends

/-- The compressions that make a key block. -/
def keyCompressions (key : List UInt8) : List (Application Chain Block) :=
  if key.length ≤ 64 then [] else compressions key

theorem setKey_makes (fits : key.length < 2 ^ 32) (hkey : key.length < 2 ^ 29) :
    Makes (setKey build (.bytes key fits)) blank (keyCompressions key) ()
      fun t => t.k = keyBlock build key := by
  have hlength : (Input.bytes key fits).length.toNat = key.length := Input.toNat_length_bytes _ _
  have h64 : (64 : UInt32).toNat = 64 := rfl
  simp only [setKey, keyBlock, keyCompressions, UInt32.lt_iff_toNat_lt, hlength, h64]
  by_cases hshort : key.length < 64
  · rw [if_pos hshort, if_pos (by omega), if_pos (by omega)]
    exact (copyKey_makes fits).bind_nil fun t ht => zeroKey_makes ht
  by_cases hlong : 64 < key.length
  · rw [if_neg hshort, if_pos hlong, if_neg (by omega), if_neg (by omega)]
    obtain ⟨cs, hcs, hupdate⟩ := update_reaches build fits absorbing_fresh (by simpa using hkey)
    rw [absorptions_nil, List.nil_append, List.nil_append] at hcs
    rw [← hcs] at hupdate
    exact (hashKey_makes build _ hkey (.onCtx hupdate fun _ h => ⟨rfl, h⟩)).bind_pure
      fun _ ht => .pure ht
  · rw [if_neg hshort, if_neg hlong, if_pos (by omega), if_pos (by omega)]
    exact copyKey_makes fits

theorem setKey_ends (fits : key.length < 2 ^ 32) (hkey : key.length < 2 ^ 29) :
    Ends (setKey build (.bytes key fits)) blank () fun t => t.k = keyBlock build key :=
  (setKey_makes build fits hkey).ends

/-- Whatever the key is set to, the constructor leaves an open object with it. -/
theorem construct_of_setKey {ik : Input} {k : Block}
    (h : Ends (setKey build ik) blank () fun t => t.k = k) :
    Ends (construct build ik) blank () fun t => Represents build k t .start :=
  h.bind fun t ht => (reset_ends build t).bind fun _ hu => .pure (ht ▸ hu)

theorem construct_ends (fits : key.length < 2 ^ 32) (hkey : key.length < 2 ^ 29) :
    Ends (construct build (.bytes key fits)) blank ()
      fun t => Represents build (keyBlock build key) t .start :=
  construct_of_setKey build (setKey_ends build fits hkey)

/-- The constructor compresses what makes the key block, and then the inner key block. -/
theorem construct_makes (fits : key.length < 2 ^ 32) (hkey : key.length < 2 ^ 29) :
    Makes (construct build (.bytes key fits)) blank
      (keyCompressions key ++ absorptions (padKey (keyBlock build key) ipad).toList) ()
      fun t => Represents build (keyBlock build key) t .start := by
  refine (setKey_makes build fits hkey).bind fun t ht => ?_
  rw [← ht]
  refine (reset_makes build t).bind_pure fun u hu => .pure ⟨_, hu.k, hu.hstate, hu.buf, ?_⟩
  simpa using hu.ctx

end

/-! ## Histories -/

/-- The tag under the key block of a key is that of the keyed hash. -/
theorem tagOf_keyBlock (build : Build) (key : List UInt8) :
    tagOf build (keyBlock build key) = macTag (digestOf build) (macKey (digestOf build) key) := by
  funext m
  rw [tagOf, toList_keyBlock]

/-- A new object answers as the machine of the keyed hash does, and goes on doing so. -/
theorem runs_answers {key : List UInt8} (fits : key.length < 2 ^ 32) (hkey : key.length < 2 ^ 29)
    {cs : List Call} {c : Call} (hw : WithinLimit (2 ^ 29 - 64) (cs ++ [c]))
    {tag : List UInt8 → Digest} (htag : tagOf .ndebug (keyBlock .ndebug key) = tag) :
    ∃ es s₀ fs s gs s', Runs (construct .ndebug (.bytes key fits)) blank es () s₀ ∧
      Runs (answerAll (call .ndebug) cs) s₀ fs ((macMachine tag).answers .start cs) s ∧
      Represents .ndebug (keyBlock .ndebug key) s (stateAfter cs) ∧
      Runs (call .ndebug c) s gs ((macMachine tag).answer (stateAfter cs) c) s' := by
  subst htag
  obtain ⟨hcs, hc⟩ := hw.of_snoc
  have hsimulates := simulates_macMachine (keyBlock .ndebug key)
  obtain ⟨es, s₀, hnew, -, hs₀⟩ := construct_ends .ndebug fits hkey
  obtain ⟨fs, s, hrun, hs, -⟩ := hsimulates.run hs₀ ((withinLimit_iff rfl).mp hcs)
  rw [after_start rfl] at hs
  obtain ⟨gs, s', hcall, -, -⟩ := hsimulates s _ c hs hc
  exact ⟨es, s₀, fs, s, gs, s', hnew, hrun, hs, hcall⟩

/-- After any history that stays within the limit, with `M` the message that it absorbed: a
`Finalise` or `Result` that returns `OK` writes the tag of `M`; once a digest was handed out every
further one is the same and no `Update` is accepted; and a call that returns anything but `OK`
leaves the object and the destination alone. -/
theorem refines_macMachine (key : List UInt8) (hkey : key.length < 2 ^ 29) (cs : List Call)
    (c : Call) (hw : WithinLimit (2 ^ 29 - 64) (cs ++ [c])) :
    let digest := digestOf .ndebug
    let tag := macTag digest (macKey digest key)
    ∃ es s₀ fs rs s gs r s',
      Runs (construct .ndebug (.bytes key (hkey.trans (by decide)))) blank es () s₀ ∧
      Runs (answerAll (call .ndebug) cs) s₀ fs rs s ∧ rs = (macMachine tag).answers .start cs ∧
      Runs (call .ndebug c) s gs r s' ∧ r = (macMachine tag).answer (stateAfter cs) c ∧
      (c.asksDigest = true → r.res = .ok → r.digest = some (tag (absorbed (cs.zip rs)))) ∧
      (finalised (cs.zip rs) = true →
        (∀ d, c = .finalise (some d) ∨ c = .result (some d) →
          r = ⟨.ok, some (tag (absorbed (cs.zip rs)))⟩) ∧
        ∀ m, c = .update m → r.res ≠ .ok) ∧
      (r.res ≠ .ok → s' = s ∧ r.digest = c.destination) := by
  intro digest tag
  obtain ⟨es, s₀, fs, s, gs, s', hnew, hrun, hs, hcall⟩ :=
    runs_answers (hkey.trans (by decide)) hkey hw (tagOf_keyBlock .ndebug key)
  refine ⟨es, s₀, fs, _, s, gs, _, s', hnew, hrun, rfl, hcall, rfl, ?_⟩
  rw [absorbed_zip_answers rfl (message_next_macMachine tag),
    finalised_zip_answers rfl (isDone_next_macMachine tag)]
  refine ⟨macMachine_digest, fun hdone => ⟨fun d => macMachine_asked, ?_⟩, fun hres => ?_⟩
  · rintro m rfl
    exact macMachine_update_done hdone m
  · obtain ⟨hrefused, hdestination, -⟩ := refused .ndebug hs hres
    exact ⟨(hcall.deterministic hrefused).2.2, hdestination⟩

/-- A long key, two pieces of a message, and a tag. -/
theorem refines_macMachine_pieces :
    ∃ es s₀ fs rs s, Runs (construct .ndebug (.bytes (List.replicate 65 1) (by decide))) blank
        es () s₀ ∧
      Runs (answerAll (call .ndebug) [.update (.bytes [1] (by decide)), .update (.null 0)]) s₀
        fs rs s ∧
      rs.map Reply.res = [.ok, .nullPointer] := by
  obtain ⟨es, s₀, fs, rs, s, gs, r, s', hnew, hrun, hrs, -⟩ := refines_macMachine
    (List.replicate 65 1) (by decide) [.update (.bytes [1] (by decide)), .update (.null 0)]
    (.result (some (Vector.replicate 32 0))) (by decide)
  exact ⟨es, s₀, fs, rs, s, hnew, hrun, by rw [hrs]; rfl⟩

end LibEmsha.HMAC
