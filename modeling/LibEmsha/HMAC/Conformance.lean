import LibEmsha.HMAC.Destruction
import LibEmsha.HMAC.SinglePass
import LibEmsha.SHA256.Conformance

/-!
# `ComputeHMAC` against FIPS 198-1

The padding of `SHA256` is not that of the standard for messages that leave 63 bytes in the message
block. The inner hash is of such a message just if the message of the tag is one, and the outer hash
never is. A key longer than a block is hashed too. For all other keys and messages the tag is that
of the standard; for these it is so only through a collision.
-/

namespace LibEmsha
open MerkleDamgard Blocks

theorem fipsBlocks_injective {x y : List UInt8} (hlen : x.length = y.length)
    (h : fipsBlocks x = fipsBlocks y) : x = y := by
  have hpad : FIPS180.pad x = FIPS180.pad y :=
    eq_of_blocks_eq (length_pad x ▸ length_padded x) (length_pad y ▸ length_padded y) h
  simp only [FIPS180.pad, List.append_assoc] at hpad
  exact List.append_inj_left hpad hlen

theorem length_fipsBlocks (m : List UInt8) : (fipsBlocks m).length = (blocksOf m).length := by
  rw [fipsBlocks, blocksOf, length_blocks, length_blocks, length_pad]

/-- The digest of the code is that of the standard, but for the messages that leave 63 bytes. -/
theorem toList_digestOf (build : Build) {m : List UInt8} (hm : m.length < 2 ^ 29)
    (hres : m.length % 64 ≠ 63) : (digestOf build m).toList = FIPS180.sha256 m := by
  have d : Digest := Vector.replicate 32 0
  rw [digestOf_eq build hm d, sha256_eq m d, hashOf, (blocksOf_eq_iff m).mpr hres]

/-- The compressions of a digest of the standard. -/
def fipsCompressions (m : List UInt8) : List (Application Chain Block) :=
  calls compress emsha256H0 (fipsBlocks m)

/-- A digest of the code that is one of the standard, though other blocks are compressed. -/
theorem exists_collision_of_digestOf_eq_sha256 (build : Build) {x y : List UInt8}
    (hx : x.length < 2 ^ 29) (hlen : x.length = y.length) (hne : blocksOf x ≠ fipsBlocks y)
    (heq : (digestOf build x).toList = FIPS180.sha256 y) :
    ∃ a ∈ compressions x, ∃ b ∈ fipsCompressions y, Collide a b := by
  have d : Digest := Vector.replicate 32 0
  rw [digestOf_eq build hx d, sha256_eq y d, Vector.toList_inj] at heq
  refine exists_collision_of_length compress (writeDigest_injective heq) ?_ hne
  rw [length_fipsBlocks, length_blocksOf, length_blocksOf, length_padded_eq, length_padded_eq, hlen]

theorem length_sha256 (m : List UInt8) : (FIPS180.sha256 m).length = 32 := by
  rw [sha256_eq m (Vector.replicate 32 0), Vector.length_toList]

namespace HMAC

/-! ## The key block -/

/-- The key block of the standard. -/
noncomputable def fipsKey (key : List UInt8) : List UInt8 := FIPS198.K0 FIPS180.sha256 64 key

theorem fipsKey_eq (key : List UInt8) : fipsKey key =
    let short := if key.length ≤ 64 then key else FIPS180.sha256 key
    short ++ List.replicate (64 - short.length) 0 := by
  rw [fipsKey, FIPS198.K0]
  rcases Nat.lt_trichotomy key.length 64 with hlt | heq | hgt
  · rw [if_neg (by omega), if_neg (by omega), if_pos (by omega)]
  · rw [if_pos heq, if_pos (by omega)]
    simp [heq]
  · rw [if_neg (by omega), if_pos hgt, if_neg (by omega)]

theorem length_fipsKey (key : List UInt8) : (fipsKey key).length = 64 := by
  rw [fipsKey_eq]
  by_cases hshort : key.length ≤ 64
  · simp [hshort]
  · simp [hshort, length_sha256]

/-- The keys and messages of which no hash leaves 63 bytes. -/
def Regular (key m : List UInt8) : Prop :=
  m.length % 64 ≠ 63 ∧ (key.length ≤ 64 ∨ key.length % 64 ≠ 63)

/-- The key block of the code is that of the standard, but for long keys that leave 63 bytes. -/
theorem toList_keyBlock_eq_fipsKey (build : Build) {key : List UInt8} (hkey : key.length < 2 ^ 29)
    (hres : key.length ≤ 64 ∨ key.length % 64 ≠ 63) :
    (keyBlock build key).toList = fipsKey key := by
  rw [toList_keyBlock, macKey, fipsKey_eq]
  rcases hres with hshort | hres
  · rw [if_pos hshort, if_pos hshort]
  · rw [toList_digestOf build hkey hres]

/-- What the standard hashes last. -/
noncomputable def fipsOuter (key m : List UInt8) : List UInt8 :=
  (fipsKey key).map (· ^^^ 0x5c) ++ FIPS180.sha256 ((fipsKey key).map (· ^^^ 0x36) ++ m)

theorem hmac_eq (key m : List UInt8) :
    FIPS198.hmac FIPS180.sha256 64 key m = FIPS180.sha256 (fipsOuter key m) := rfl

theorem length_fipsOuter (key m : List UInt8) : (fipsOuter key m).length = 96 := by
  simp [fipsOuter, length_fipsKey, length_sha256]

/-- The compressions of a tag of the standard. -/
noncomputable def fipsTagCompressions (key m : List UInt8) : List (Application Chain Block) :=
  (if key.length ≤ 64 then [] else fipsCompressions key) ++
    fipsCompressions ((fipsKey key).map (· ^^^ 0x36) ++ m) ++ fipsCompressions (fipsOuter key m)

section

variable (build : Build) {key m : List UInt8}

theorem toList_innerMessage : innerMessage build key m =
    (keyBlock build key).toList.map (· ^^^ 0x36) ++ m := by
  rw [innerMessage, toList_padKey]
  rfl

theorem toList_outerMessage : outerMessage build key m =
    (keyBlock build key).toList.map (· ^^^ 0x5c) ++
      (digestOf build (innerMessage build key m)).toList := by
  rw [outerMessage, toList_padKey]
  rfl

/-- The tag of the standard, for regular keys and messages. -/
theorem toList_tag_of_regular (hkey : key.length < 2 ^ 29) (hm : 64 + m.length < 2 ^ 29)
    (h : Regular key m) :
    (digestOf build (outerMessage build key m)).toList = FIPS198.hmac FIPS180.sha256 64 key m := by
  have hinner : (digestOf build (innerMessage build key m)).toList =
      FIPS180.sha256 ((fipsKey key).map (· ^^^ 0x36) ++ m) := by
    have hres := h.1
    rw [toList_digestOf build (by simpa using hm) (by rw [length_innerMessage]; omega),
      toList_innerMessage, toList_keyBlock_eq_fipsKey build hkey h.2]
  rw [toList_digestOf build (by simp) (by simp), toList_outerMessage, hinner,
    toList_keyBlock_eq_fipsKey build hkey h.2, hmac_eq, fipsOuter]

/-- The key blocks agree though the standard compresses other blocks of the key. -/
theorem exists_collision_of_key (hkey : key.length < 2 ^ 29) (hlong : 64 < key.length)
    (hres : key.length % 64 = 63) (heq : (keyBlock build key).toList = fipsKey key) :
    ∃ x ∈ compressions key, ∃ y ∈ fipsCompressions key, Collide x y := by
  refine exists_collision_of_digestOf_eq_sha256 build hkey rfl
    (fun h => (blocksOf_eq_iff key).mp h hres) ?_
  rw [toList_keyBlock, macKey, fipsKey_eq] at heq
  simp only [if_neg (Nat.not_le.mpr hlong)] at heq
  exact List.append_inj_left heq (by rw [Vector.length_toList, length_sha256])

/-- A tag that is that of the standard for an irregular key or message. -/
theorem exists_collision_of_tag (hkey : key.length < 2 ^ 29) (hm : 64 + m.length < 2 ^ 29)
    (h : ¬ Regular key m) (heq : (digestOf build (outerMessage build key m)).toList =
      FIPS198.hmac FIPS180.sha256 64 key m) :
    ∃ x ∈ tagCompressions build key m, ∃ y ∈ fipsTagCompressions key m, Collide x y := by
  by_cases houter : outerMessage build key m = fipsOuter key m
  · -- The key blocks and the inner digests are those of the standard.
    rw [toList_outerMessage, fipsOuter] at houter
    obtain ⟨hk, hinner⟩ := List.append_inj houter (by simp [length_fipsKey])
    have hk' : (keyBlock build key).toList = fipsKey key :=
      List.map_injective_iff.mpr (fun _ _ => UInt8.xor_left_inj _ |>.mp) hk
    by_cases hres : m.length % 64 = 63
    · rw [toList_innerMessage, hk'] at hinner
      obtain ⟨x, hx, y, hy, hxy⟩ := exists_collision_of_digestOf_eq_sha256 build
        (by simp [length_fipsKey]; omega) rfl
        (fun h => (blocksOf_eq_iff _).mp h (by simp [length_fipsKey]; omega)) hinner
      refine ⟨x, ?_, y, by simp [fipsTagCompressions, hy], hxy⟩
      simp [tagCompressions, toList_innerMessage, hk', hx]
    · have hlong : 64 < key.length ∧ key.length % 64 = 63 := by
        simp only [Regular, hres, not_false_eq_true, true_and, not_or, ne_eq, not_not] at h
        omega
      obtain ⟨x, hx, y, hy, hxy⟩ := exists_collision_of_key build hkey hlong.1 hlong.2 hk'
      have hshort := Nat.not_le.mpr hlong.1
      exact ⟨x, by simp [tagCompressions, keyCompressions, hshort, hx], y,
        by simp [fipsTagCompressions, hshort, hy], hxy⟩
  · -- The outer hashes are of different messages of one length.
    have hlen : (outerMessage build key m).length = (fipsOuter key m).length := by
      rw [length_outerMessage, length_fipsOuter]
    have hblocks : blocksOf (outerMessage build key m) ≠ fipsBlocks (fipsOuter key m) := by
      intro hblocks
      rw [(blocksOf_eq_iff _).mpr (by simp)] at hblocks
      exact houter (fipsBlocks_injective hlen hblocks)
    rw [hmac_eq] at heq
    obtain ⟨x, hx, y, hy, hxy⟩ :=
      exists_collision_of_digestOf_eq_sha256 build (by simp) hlen hblocks heq
    exact ⟨x, by simp [tagCompressions, hx], y, by simp [fipsTagCompressions, hy], hxy⟩

end

/-- For any key and message whose bits can be counted, `ComputeHMAC` writes the tag of the standard,
unless the message or a key longer than a block leaves 63 bytes. Then the tag is that of the
standard only if a compression that the code made and one that the standard asks for collide. -/
theorem computeHMAC_conforms (build : Build) (key m : List UInt8) (hkey : key.length < 2 ^ 29)
    (hm : 64 + m.length < 2 ^ 29) (d : Digest) :
    ∃ es t tag, computeHMAC build (.bytes key (by omega)) (.bytes m (by omega)) (some d) =
        ⟨es, .ok ((.ok, some tag), t)⟩ ∧
      (Regular key m → tag.toList = FIPS198.hmac FIPS180.sha256 64 key m) ∧
      (¬ Regular key m → tag.toList = FIPS198.hmac FIPS180.sha256 64 key m →
        ∃ x ∈ applications es, ∃ y ∈ fipsTagCompressions key m, Collide x y) := by
  obtain ⟨es, t, hrun, hlogs, -⟩ := computeHMAC_eq build key m (by omega) (by omega) hkey
    hm d
  refine ⟨es, t, _, hrun, toList_tag_of_regular build hkey hm, fun h heq => ?_⟩
  rw [hlogs.applications]
  exact exists_collision_of_tag build hkey hm h heq

/-- A key that is hashed, and a message of two blocks. -/
theorem computeHMAC_conforms_long :
    let key : List UInt8 := List.replicate 100 1
    let m : List UInt8 := List.replicate 70 2
    ∃ es t tag, computeHMAC .ndebug (.bytes key (by simp [key])) (.bytes m (by simp [m]))
        (some (Vector.replicate 32 0)) = ⟨es, .ok ((.ok, some tag), t)⟩ ∧
      tag.toList = FIPS198.hmac FIPS180.sha256 64 key m := by
  intro key m
  obtain ⟨es, t, tag, hrun, htag, -⟩ := computeHMAC_conforms .ndebug key m (by simp [key])
    (by simp [m]) (Vector.replicate 32 0)
  exact ⟨es, t, tag, hrun, htag ⟨by simp [m], .inr (by simp [key])⟩⟩

end HMAC
end LibEmsha
