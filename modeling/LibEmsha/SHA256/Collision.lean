import LibEmsha.SHA256.Digest

/-!
# Collisions of the digest come from the compression function

The padding of the code, its case of its own included, determines the message, and the last
block determines the length. So no message is compressed as a suffix of another one, and the
reduction for iterated hashing applies to `SHA256Digest`.
-/

namespace LibEmsha
open MerkleDamgard Blocks BigEndian

/-- The messages whose bits can be counted. -/
abbrev Message := { m : List UInt8 // m.length < 2 ^ 29 }

/-- The padding ends with the length. -/
theorem bytesBE_isSuffix_padded (m : List UInt8) : bytesBE 8 (8 * m.length) <:+ padded m := by
  refine List.IsSuffix.trans ?_ (List.suffix_append m _)
  unfold padTail
  split <;> exact List.suffix_append _ _

theorem join_blocksOf (m : List UInt8) : join (blocksOf m) = padded m := by
  simpa [blocksOf, rest_padded] using join_cut (n := 64) (padded m)

theorem length_blocksOf (m : List UInt8) : (blocksOf m).length = (padded m).length / 64 :=
  length_blocks _

theorem length_lt_length_padded (m : List UInt8) : m.length < (padded m).length := by
  simp only [padded, padTail]
  split <;> simp

theorem blocksOf_ne_nil (m : List UInt8) : blocksOf m ≠ [] := by
  have hlt := length_lt_length_padded m
  obtain ⟨k, hk⟩ := length_padded m
  rw [ne_eq, ← List.length_eq_zero_iff, length_blocksOf]
  omega

/-- So does the last block. -/
theorem bytesBE_isSuffix_last {m : List UInt8} {v : Block} (h : (blocksOf m).getLast? = some v) :
    bytesBE 8 (8 * m.length) <:+ v.toList := by
  obtain ⟨front, hfront⟩ := List.getLast?_eq_some_iff.mp h
  have hpadded : padded m = join front ++ v.toList := by
    rw [← join_blocksOf, hfront, join_append, join_cons, join_nil, List.append_nil]
  have hlength := bytesBE_isSuffix_padded m
  rw [hpadded] at hlength
  exact List.suffix_of_suffix_length_le hlength (List.suffix_append _ _) (by simp)

theorem length_eq_of_suffixes {m m' : Message} {l : List UInt8}
    (h : bytesBE 8 (8 * m.1.length) <:+ l) (h' : bytesBE 8 (8 * m'.1.length) <:+ l) :
    m.1.length = m'.1.length := by
  have hbytes : bytesBE 8 (8 * m.1.length) = bytesBE 8 (8 * m'.1.length) :=
    (List.suffix_of_suffix_length_le h h' (by simp)).eq_of_length (by simp)
  have hm := m.2
  have hm' := m'.2
  have heq := bytesBE_injective (by omega) (by omega) hbytes
  omega

/-- The last block determines the length of the message. -/
theorem length_eq_of_getLast?_eq {m m' : Message}
    (h : (blocksOf m.1).getLast? = (blocksOf m'.1).getLast?) : m.1.length = m'.1.length := by
  have hlast := List.getLast?_eq_some_getLast (blocksOf_ne_nil m.1)
  exact length_eq_of_suffixes (bytesBE_isSuffix_last hlast)
    (bytesBE_isSuffix_last (h.symm.trans hlast))

/-- The padded message determines the message. -/
theorem eq_of_padded_eq {m m' : Message} (h : padded m.1 = padded m'.1) : m = m' := by
  have hlen : m.1.length = m'.1.length :=
    length_eq_of_suffixes (bytesBE_isSuffix_padded m.1) (h ▸ bytesBE_isSuffix_padded m'.1)
  exact Subtype.ext (List.append_inj_left h hlen)

theorem eq_of_blocksOf_eq {m m' : Message} (h : blocksOf m.1 = blocksOf m'.1) : m = m' := by
  apply eq_of_padded_eq
  rw [← join_blocksOf, ← join_blocksOf, h]

theorem not_isSuffix_blocksOf {m m' : Message} (h : m ≠ m') :
    ¬ blocksOf m.1 <:+ blocksOf m'.1 := by
  refine not_isSuffix_of_strengthened (fun m : Message => blocksOf m.1) (fun m => m.1.length)
    (fun m => blocksOf_ne_nil m.1) (fun m m' => length_eq_of_getLast?_eq) ?_
    (fun m m' => eq_of_blocksOf_eq) h
  intro m m' hlen
  simp only [length_blocksOf, padded, List.length_append, hlen]

/-- Two different messages are compressed as different blocks, neither a suffix of the other,
and if the digests agree then some compression of the one run and some compression of the other
have different arguments and the same result. -/
theorem sha256Digest_collision (build : Build) (m m' : List UInt8) (hm : m.length < 2 ^ 29)
    (hm' : m'.length < 2 ^ 29) (hne : m ≠ m') (d d' : Digest) :
    ∃ es t out es' t' out',
      sha256Digest build (.bytes m (hm.trans (by decide))) (some d) =
        ⟨es, .ok ((.ok, some out), t)⟩ ∧
      sha256Digest build (.bytes m' (hm'.trans (by decide))) (some d') =
        ⟨es', .ok ((.ok, some out'), t')⟩ ∧
      (out = out' → ∃ iHash mb iHash' mb' res,
        .updateMessageBlock iHash mb res ∈ es ∧ .updateMessageBlock iHash' mb' res ∈ es' ∧
        (iHash, mb) ≠ (iHash', mb')) ∧
      let blocks := (applications es).map Application.block
      let blocks' := (applications es').map Application.block
      blocks ≠ blocks' ∧ ¬ blocks <:+ blocks' ∧ ¬ blocks' <:+ blocks := by
  have hne' : (⟨m, hm⟩ : Message) ≠ ⟨m', hm'⟩ := fun h => hne (congrArg Subtype.val h)
  have hsuffix : ¬ blocksOf m <:+ blocksOf m' := not_isSuffix_blocksOf hne'
  have hsuffix' : ¬ blocksOf m' <:+ blocksOf m := not_isSuffix_blocksOf hne'.symm
  obtain ⟨es, t, hrun, hlogs, -⟩ := sha256Digest_eq build (hm.trans (by decide)) d hm
  obtain ⟨es', t', hrun', hlogs', -⟩ := sha256Digest_eq build (hm'.trans (by decide)) d' hm'
  refine ⟨es, t, _, es', t', _, hrun, hrun', fun hout => ?_, ?_⟩
  · obtain ⟨x, hx, y, hy, hargs, hres⟩ :=
      exists_collision compress (writeDigest_injective hout) hsuffix hsuffix'
    rw [← compressions, ← hlogs.applications, mem_applications] at hx
    rw [← compressions, ← hlogs'.applications, mem_applications, ← hres] at hy
    exact ⟨_, _, _, _, _, hx, hy, hargs⟩
  · simp only [hlogs.applications, hlogs'.applications, compressions, map_block_calls]
    exact ⟨fun h => hsuffix (h ▸ List.suffix_refl _), hsuffix, hsuffix'⟩

/-- A message of three blocks and a message of one. -/
theorem sha256Digest_collision_three_one :
    let m : List UInt8 := List.replicate 150 7
    let m' : List UInt8 := [1, 2, 3]
    ∃ es t out es' t' out',
      sha256Digest .ndebug (.bytes m (by simp [m])) (some (Vector.replicate 32 0)) =
        ⟨es, .ok ((.ok, some out), t)⟩ ∧
      sha256Digest .ndebug (.bytes m' (by decide)) (some (Vector.replicate 32 0)) =
        ⟨es', .ok ((.ok, some out'), t')⟩ ∧
      (out = out' → ∃ iHash mb iHash' mb' res,
        .updateMessageBlock iHash mb res ∈ es ∧ .updateMessageBlock iHash' mb' res ∈ es' ∧
        (iHash, mb) ≠ (iHash', mb')) ∧
      ¬ (applications es').map Application.block <:+ (applications es).map Application.block := by
  intro m m'
  obtain ⟨es, t, out, es', t', out', hrun, hrun', hcollide, -, -, hsuffix⟩ :=
    sha256Digest_collision .ndebug m m' (by simp [m]) (by decide) (by simp [m, m'])
      (Vector.replicate 32 0) (Vector.replicate 32 0)
  exact ⟨es, t, out, es', t', out', hrun, hrun', hcollide, hsuffix⟩

end LibEmsha
