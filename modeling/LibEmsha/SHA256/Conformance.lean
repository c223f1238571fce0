import LibEmsha.SHA256.Compression
import LibEmsha.SHA256.Digest

/-!
# `SHA256Digest` against FIPS 180-4

The padding of the code is that of the standard except for messages that leave 63 bytes in the
message block. For all others `SHA256Digest` writes the digest of the standard. For those it
compresses other blocks, so the two digests can only agree through a collision of the
compression function.
-/

namespace LibEmsha
open MerkleDamgard Blocks

/-- The number of zeros that the standard asks for. -/
theorem zeros_eq (n : ℕ) : FIPS180.zeros n = (119 - n % 64) % 64 := by
  rw [FIPS180.zeros, Nat.find_eq_iff]
  constructor
  · omega
  · intro z hz
    omega

theorem padded_eq_pad {m : List UInt8} (hm : m.length % 64 ≠ 63) : padded m = FIPS180.pad m := by
  simp [padded, padTail, hm, FIPS180.pad, zeros_eq]

/-- With 63 bytes left the marker is one byte too far to the right. -/
theorem padded_ne_pad {m : List UInt8} (hm : m.length % 64 = 63) : padded m ≠ FIPS180.pad m := by
  simp [padded, padTail, hm, FIPS180.pad]

theorem length_pad (m : List UInt8) : (FIPS180.pad m).length = (padded m).length := by
  simp only [FIPS180.pad, zeros_eq, padded, padTail]
  split
  · simp
    omega
  · simp

/-- The blocks of the standard's padding. -/
def fipsBlocks (m : List UInt8) : List Block := (cut 64 (FIPS180.pad m)).1

theorem blocksOf_eq_iff (m : List UInt8) : blocksOf m = fipsBlocks m ↔ m.length % 64 ≠ 63 := by
  constructor
  · intro h hm
    exact padded_ne_pad hm (eq_of_blocks_eq (length_padded m) (length_pad m ▸ length_padded m) h)
  · intro hm
    rw [blocksOf, padded_eq_pad hm, fipsBlocks]

theorem map_toNat_foldl_compress (vs : List Block) (iHash : Chain) :
    (vs.foldl compress iHash).map UInt32.toNat =
      vs.foldl FIPS180.compress (iHash.map UInt32.toNat) := by
  induction vs generalizing iHash with
  | nil => rfl
  | cons v vs ih => rw [List.foldl_cons, ih, map_toNat_compress, List.foldl_cons]

/-- The digest of the standard, by the compression function of the code. -/
theorem sha256_eq (m : List UInt8) (d : Digest) :
    FIPS180.sha256 m = (writeDigest ((fipsBlocks m).foldl compress emsha256H0) d).toList := by
  rw [toList_writeDigest, map_toNat_foldl_compress, toNat_emsha256H0]
  rfl

/-- For every message whose bits can be counted `SHA256Digest` returns `OK` and a digest. It
compresses the blocks of the standard just if the message does not leave 63 bytes; then the
digest is that of the standard, and otherwise it is so only through a collision. -/
theorem sha256Digest_conforms (build : Build) (m : List UInt8) (hm : m.length < 2 ^ 29)
    (d : Digest) :
    ∃ es t d', sha256Digest build (.bytes m (hm.trans (by decide))) (some d) =
        ⟨es, .ok ((.ok, some d'), t)⟩ ∧
      ((applications es).map Application.block = fipsBlocks m ↔ m.length % 64 ≠ 63) ∧
      (m.length % 64 ≠ 63 → d'.toList = FIPS180.sha256 m) ∧
      (m.length % 64 = 63 → d'.toList = FIPS180.sha256 m →
        ∃ x ∈ applications es, ∃ y ∈ calls compress emsha256H0 (fipsBlocks m), Collide x y) := by
  obtain ⟨es, t, hrun, hlogs, -⟩ := sha256Digest_eq build (hm.trans (by decide)) d hm
  refine ⟨es, t, _, hrun, ?_, ?_, ?_⟩
  · rw [hlogs.applications, compressions, map_block_calls, blocksOf_eq_iff]
  · intro hres
    rw [sha256_eq m d, hashOf, (blocksOf_eq_iff m).mpr hres]
  · intro hres heq
    rw [sha256_eq m d, Vector.toList_inj] at heq
    have hne : blocksOf m ≠ fipsBlocks m := fun h => (blocksOf_eq_iff m).mp h hres
    have hlen : (blocksOf m).length = (fipsBlocks m).length := by
      rw [blocksOf, fipsBlocks, length_blocks, length_blocks, length_pad]
    rw [hlogs.applications]
    exact exists_collision compress (writeDigest_injective heq)
      (fun hs => hne (hs.eq_of_length hlen)) (fun hs => hne (hs.eq_of_length hlen.symm).symm)

/-- A message of 120 bytes: the marker and the length take a third block. -/
theorem sha256Digest_conforms_three_blocks :
    let m : List UInt8 := List.replicate 60 1 ++ List.replicate 60 2
    ∃ es t d', sha256Digest .ndebug (.bytes m (by simp [m])) (some (Vector.replicate 32 0)) =
        ⟨es, .ok ((.ok, some d'), t)⟩ ∧
      (applications es).map Application.block = fipsBlocks m ∧ (applications es).length = 3 ∧
      d'.toList = FIPS180.sha256 m := by
  intro m
  have hlength : m.length = 120 := by simp [m]
  obtain ⟨es, t, d', hrun, hblocks, hdigest, -⟩ :=
    sha256Digest_conforms .ndebug m (by omega) (Vector.replicate 32 0)
  have hfips := hblocks.mpr (by omega)
  refine ⟨es, t, d', hrun, hfips, ?_, hdigest (by omega)⟩
  rw [← List.length_map, hfips, fipsBlocks, length_blocks, length_pad, length_padded_eq, hlength]

/-! ## A message that leaves 63 bytes -/

/-- What the code compresses for 63 zeros. -/
def codeBlocks63 : List Block :=
  [Vector.replicate 64 0, ⟨⟨0x80 :: List.replicate 61 0 ++ [0x01, 0xf8]⟩, by decide⟩]

/-- What the standard compresses for 63 zeros. -/
def fipsBlocks63 : List Block :=
  [⟨⟨List.replicate 63 0 ++ [0x80]⟩, by decide⟩,
    ⟨⟨List.replicate 62 0 ++ [0x01, 0xf8]⟩, by decide⟩]

theorem blocksOf_zeros : blocksOf (List.replicate 63 0) = codeBlocks63 := by
  have hjoin : padded (List.replicate 63 0) = join codeBlocks63 ++ [] := by decide +kernel
  rw [blocksOf, hjoin, cut_eq _ (by simp)]

theorem fipsBlocks_zeros : fipsBlocks (List.replicate 63 0) = fipsBlocks63 := by
  have hjoin : FIPS180.pad (List.replicate 63 0) = join fipsBlocks63 ++ [] := by
    rw [FIPS180.pad, zeros_eq]
    decide +kernel
  rw [fipsBlocks, hjoin, cut_eq _ (by simp)]

set_option maxRecDepth 100000 in
theorem foldl_compress_ne : codeBlocks63.foldl compress emsha256H0 ≠
    fipsBlocks63.foldl compress emsha256H0 := by
  have hword : (codeBlocks63.foldl compress emsha256H0)[0] ≠
      (fipsBlocks63.foldl compress emsha256H0)[0] := by decide +kernel
  exact fun h => hword (by rw [h])

/-- The digest of 63 zeros is not that of the standard. -/
theorem sha256Digest_zeros :
    ∃ es t d', sha256Digest .ndebug (.bytes (List.replicate 63 0) (by decide))
        (some (Vector.replicate 32 0)) = ⟨es, .ok ((.ok, some d'), t)⟩ ∧
      d'.toList ≠ FIPS180.sha256 (List.replicate 63 0) := by
  obtain ⟨es, t, hrun, -, -⟩ := sha256Digest_eq .ndebug (m := List.replicate 63 0) (by decide)
    (Vector.replicate 32 0) (by decide)
  refine ⟨es, t, _, hrun, fun h => ?_⟩
  rw [sha256_eq _ (Vector.replicate 32 0), Vector.toList_inj] at h
  have hfold := writeDigest_injective h
  rw [hashOf, blocksOf_zeros, fipsBlocks_zeros] at hfold
  exact foldl_compress_ne hfold

end LibEmsha
