import LibEmsha.HMAC.Destruction
import LibEmsha.SHA256.Collision

/-!
# The compressions of `ComputeHMAC`

A long key is hashed, then the inner key block and the message, then the outer key block and the
inner digest; and when the local object is destroyed, the inner key block again. The log of
`ComputeHMAC` has exactly the compressions of these hashes, so their number is known from the
lengths.
-/

namespace LibEmsha.HMAC
open Traced SHA256 MerkleDamgard Blocks

variable (build : Build)

/-- What the inner hash is made of. -/
def innerMessage (key m : List UInt8) : List UInt8 :=
  (padKey (keyBlock build key) ipad).toList ++ m

/-- What the outer hash is made of. -/
def outerMessage (key m : List UInt8) : List UInt8 :=
  (padKey (keyBlock build key) opad).toList ++ (digestOf build (innerMessage build key m)).toList

@[simp] theorem length_innerMessage (key m : List UInt8) :
    (innerMessage build key m).length = 64 + m.length := by
  simp [innerMessage]

@[simp] theorem length_outerMessage (key m : List UInt8) :
    (outerMessage build key m).length = 96 := by
  simp [outerMessage]

theorem tagOf_keyBlock_eq (key m : List UInt8) :
    tagOf build (keyBlock build key) m = digestOf build (outerMessage build key m) := tagOf_eq build

/-- The compressions of a key, of the inner hash and of the outer hash. -/
def tagCompressions (key m : List UInt8) : List (Application Chain Block) :=
  keyCompressions key ++ compressions (innerMessage build key m) ++
    compressions (outerMessage build key m)

/-- `ComputeHMAC` of a message whose bits can be counted. -/
theorem computeHMAC_eq (key m : List UInt8) (kfits : key.length < 2 ^ 32)
    (fits : m.length < 2 ^ 32) (hkey : key.length < 2 ^ 29) (hm : 64 + m.length < 2 ^ 29)
    (d : Digest) :
    ∃ es t, computeHMAC build (.bytes key kfits) (.bytes m fits) (some d) =
        ⟨es, .ok ((.ok, some (digestOf build (outerMessage build key m))), t)⟩ ∧
      Logs (tagCompressions build key m) es ∧ t.k = keyBlock build key := by
  have hcalls : tagCompressions build key m =
      (keyCompressions key ++ absorptions (padKey (keyBlock build key) ipad).toList) ++
        (absorptionsAfter ((padKey (keyBlock build key) ipad).toList ++ []) m ++
          (compressionsAfter (innerMessage build key m) ++
            compressions (outerMessage build key m))) := by
    rw [tagCompressions, compressions_eq_after (innerMessage build key m), innerMessage,
      absorptions_append_after, List.append_nil]
    simp only [List.append_assoc]
  have hcompute : Makes (do
      construct build (.bytes key kfits)
      let res ← update build (.bytes m fits)
      if res = .ok then result build (some d) else pure (res, some d)) blank
      (tagCompressions build key m) (.ok, some (tagOf build (keyBlock build key) m))
      fun t => t.k = keyBlock build key := by
    rw [hcalls]
    refine (construct_makes build kfits hkey).bind fun s hs => ?_
    refine (update_makes build fits hs (by simpa using hm)).bind fun t ht => ?_
    rw [if_pos rfl]
    obtain ⟨es, u, hrun, hlogs, hu⟩ := finalResult_makes build d ht (by simpa using hm)
    exact ⟨es, u, hrun, hlogs, hu.1⟩
  obtain ⟨es, t, hrun, hlogs, ht⟩ := hcompute
  rw [tagOf_keyBlock_eq] at hrun
  exact ⟨es, t, hrun, hlogs, ht⟩

/-! ## The end of the scope -/

/-- The destructor of the local object changes nothing about the result. -/
theorem computeHMACInScope_result (ik m : Input) (d : Option Digest) :
    (computeHMACInScope build ik m d).result.map Prod.fst =
      (computeHMAC build ik m d).result.map Prod.fst := by
  rcases hrun : computeHMAC build ik m d with ⟨es, e | ⟨r, t⟩⟩
  · simp [computeHMACInScope, hrun, Except.map]
  · obtain ⟨fs, hdestroy⟩ := destructor_runs build t
    simp [computeHMACInScope, hrun, hdestroy.run_eq, Except.map]

/-! ## How many there are -/

end LibEmsha.HMAC
