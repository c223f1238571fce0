import LibEmsha.HMAC.Faults

/-!
# What an `HMAC` object is between two calls

Whatever key the constructor was given and whatever calls were made, as long as none of them
stopped: of the states of an `HMAC` only two are seen between calls, `HMAC_IPAD` and `HMAC_FIN`, and
they tell whether a tag was handed out.
-/

namespace LibEmsha.HMAC
open Traced SHA256

variable {build : Build} {ik : Input} {cs : List Call} {es fs : List Event} {rs : List Reply}
  {s₀ s : HMAC}

/-- A key that the constructor goes through with is none that it stops at. -/
theorem keyFault_of_construct (hnew : Runs (construct build ik) blank es () s₀) :
    keyFault ik = none := by
  match hkey : keyFault ik with
  | none => rfl
  | some e =>
    have hstop := construct_stops build hkey
    rw [hnew.run_eq] at hstop
    cases hstop

/-- After any calls the object tracks what was absorbed. -/
theorem tracks_of_runs (hnew : Runs (construct build ik) blank es () s₀)
    (hrun : Runs (answerAll (call build) cs) s₀ fs rs s) :
    Tracks build (keyBlock build (keyOf build ik)) s (stateAfter cs) ∧
      (stateAfter cs).message = absorbed (cs.zip rs) ∧
      (stateAfter cs).isDone = finalised (cs.zip rs) := by
  obtain ⟨es', t, hnew', ht⟩ := construct_runs build (keyFault_of_construct hnew)
  obtain ⟨-, -, rfl⟩ := hnew.deterministic hnew'
  obtain ⟨rfl, hs⟩ := (realizes_macMachine build _).of_runs ht hrun
  rw [after_start rfl] at hs
  exact ⟨hs, (absorbed_zip_answers rfl (message_next_macMachine _) cs).symm,
    (finalised_zip_answers rfl (isDone_next_macMachine _) cs).symm⟩

/-- The invariant of an object, for every key, every build and every history that did not stop: it
has the block of its key, and absorbed no more than can be hashed. As long as no tag was handed out
it is in `HMAC_IPAD`, and `ctx` absorbed the inner key block and the message; if these are `2 ^ 29`
bytes, it took the last of them without counting it and did not compress the block that this byte
filled. Afterwards the object is in `HMAC_FIN`, and `buf` is the tag. -/
theorem invariant_of_runs (hnew : Runs (construct build ik) blank es () s₀)
    (hrun : Runs (answerAll (call build) cs) s₀ fs rs s) :
    let key := macKey (digestOf build) (keyOf build ik)
    let m := absorbed (cs.zip rs)
    let inner := key.map (· ^^^ 0x36) ++ m
    s.k.toList = key ∧ 64 + m.length ≤ 2 ^ 29 ∧
      (finalised (cs.zip rs) = false → s.hstate = .ipad ∧
        (64 + m.length < 2 ^ 29 → Absorbing inner s.ctx) ∧
        (64 + m.length = 2 ^ 29 → Full inner s.ctx)) ∧
      (finalised (cs.zip rs) = true → s.hstate = .fin ∧
        s.buf = macTag (digestOf build) key m) := by
  intro key m inner
  obtain ⟨hs, hmessage, hdone⟩ := tracks_of_runs hnew hrun
  have hkey : (keyBlock build (keyOf build ik)).toList = key := toList_keyBlock build _
  have hlength : inner.length = 64 + m.length := by
    rw [List.length_append, List.length_map, ← hkey, Vector.length_toList]
  have hstate := hs.hstate
  have hle := hs.length_le
  rw [hdone] at hstate
  rw [hmessage] at hle
  refine ⟨by rw [hs.key, hkey], hle, fun hopen => ?_, fun hfin => ?_⟩
  · have hctx := hs.ctx (hdone.trans hopen)
    have hinner : (padKey (keyBlock build (keyOf build ik)) ipad).toList ++
        (stateAfter cs).message = inner := by
      rw [toList_padKey, hkey, hmessage]
      rfl
    rw [hinner] at hctx
    refine ⟨by simpa [hopen] using hstate, fun hlt => ?_, fun hlast => ?_⟩
    · exact hctx.absorbing (hlength ▸ hlt)
    · exact hctx.full (hlength.trans hlast)
  · refine ⟨by simpa [hfin] using hstate, ?_⟩
    rw [hs.buf (hdone.trans hfin), tagOf_keyBlock, hmessage]

/-- A long key, and a tag handed out. -/
theorem invariant_of_runs_finished :
    let key : List UInt8 := List.replicate 65 1
    let cs : List Call := [.update (.bytes [5] (by decide)), .result (some (Vector.replicate 32 0))]
    ∃ es s₀ fs rs s, Runs (construct .ndebug (.bytes key (by decide))) blank es () s₀ ∧
      Runs (answerAll (call .ndebug) cs) s₀ fs rs s ∧ s.hstate = .fin ∧
      s.buf = macTag (digestOf .ndebug) (macKey (digestOf .ndebug) key) [5] := by
  intro key cs
  obtain ⟨es, s₀, fs, s, -, -, hnew, hrun, -⟩ := runs_answers
    (show key.length < 2 ^ 32 by decide) (by decide)
    (show WithinLimit (2 ^ 29 - 64) (cs ++ [.reset]) by decide) rfl
  obtain ⟨-, -, -, hfin⟩ := invariant_of_runs hnew hrun
  exact ⟨es, s₀, fs, _, s, hnew, hrun, hfin rfl⟩

end LibEmsha.HMAC
