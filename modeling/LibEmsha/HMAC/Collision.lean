import LibEmsha.HMAC.Destruction
import LibEmsha.HMAC.SinglePass

/-!
# Collisions of the tag come from the compression function

Two tags can only agree if the outer hashes collide, or if the key blocks are the same and the inner
hashes collide. Either way two compressions that `ComputeHMAC` made collide.
-/

namespace LibEmsha
open MerkleDamgard

/-- Different messages with one digest. -/
theorem exists_collision_of_digestOf_eq (build : Build) {x y : List UInt8} (hx : x.length < 2 ^ 29)
    (hy : y.length < 2 ^ 29) (hne : x ≠ y) (heq : digestOf build x = digestOf build y) :
    ∃ a ∈ compressions x, ∃ b ∈ compressions y, Collide a b := by
  have hmessages : (⟨x, hx⟩ : Message) ≠ ⟨y, hy⟩ := fun h => hne (congrArg Subtype.val h)
  have d : Digest := Vector.replicate 32 0
  rw [digestOf_eq build hx d, digestOf_eq build hy d] at heq
  exact exists_collision compress (writeDigest_injective heq) (not_isSuffix_blocksOf hmessages)
    (not_isSuffix_blocksOf hmessages.symm)

namespace HMAC

variable {build : Build} {key key' m m' : List UInt8}

/-- The outer messages are the same only if the key blocks and the inner digests are. -/
theorem of_outerMessage_eq (h : outerMessage build key m = outerMessage build key' m') :
    keyBlock build key = keyBlock build key' ∧
      digestOf build (innerMessage build key m) = digestOf build (innerMessage build key' m') := by
  obtain ⟨hkey, hdigest⟩ := List.append_inj h (by simp)
  exact ⟨padKey_injective (Vector.toList_inj.mp hkey), Vector.toList_inj.mp hdigest⟩

/-- Two key blocks and messages that are not the same: if `ComputeHMAC` writes one tag for both,
then a compression of the first run and one of the second have different arguments and the same
result. -/
theorem computeHMAC_collision (build : Build) (key key' m m' : List UInt8)
    (hkey : key.length < 2 ^ 29) (hkey' : key'.length < 2 ^ 29) (hm : 64 + m.length < 2 ^ 29)
    (hm' : 64 + m'.length < 2 ^ 29)
    (hne : ¬ (keyBlock build key = keyBlock build key' ∧ m = m')) (d d' : Digest) :
    ∃ es t out es' t' out',
      computeHMAC build (.bytes key (by omega)) (.bytes m (by omega)) (some d) =
        ⟨es, .ok ((.ok, some out), t)⟩ ∧
      computeHMAC build (.bytes key' (by omega)) (.bytes m' (by omega)) (some d') =
        ⟨es', .ok ((.ok, some out'), t')⟩ ∧
      (out = out' → ∃ x ∈ applications es, ∃ y ∈ applications es', Collide x y) := by
  obtain ⟨es, t, hrun, hlogs, -⟩ := computeHMAC_eq build key m (by omega) (by omega)
    hkey hm d
  obtain ⟨es', t', hrun', hlogs', -⟩ := computeHMAC_eq build key' m' (by omega) (by omega)
    hkey' hm' d'
  refine ⟨es, t, _, es', t', _, hrun, hrun', fun hout => ?_⟩
  rw [hlogs.applications, hlogs'.applications]
  by_cases houter : outerMessage build key m = outerMessage build key' m'
  · -- The key blocks are the same, so the messages are not, and the inner hashes collide.
    obtain ⟨hk, hdigest⟩ := of_outerMessage_eq houter
    have hinner : innerMessage build key m ≠ innerMessage build key' m' := by
      intro h
      rw [innerMessage, innerMessage, hk] at h
      exact hne ⟨hk, List.append_cancel_left h⟩
    obtain ⟨x, hx, y, hy, hxy⟩ :=
      exists_collision_of_digestOf_eq build (by simpa using hm) (by simpa using hm') hinner hdigest
    exact ⟨x, by simp [tagCompressions, hx], y, by simp [tagCompressions, hy], hxy⟩
  · obtain ⟨x, hx, y, hy, hxy⟩ :=
      exists_collision_of_digestOf_eq build (by simp) (by simp) houter hout
    exact ⟨x, by simp [tagCompressions, hx], y, by simp [tagCompressions, hy], hxy⟩

/-- A key that is hashed and a short one, with messages of two blocks and of one. -/
theorem computeHMAC_collision_long :
    let key : List UInt8 := List.replicate 100 1
    let m : List UInt8 := List.replicate 70 2
    ∃ es t out es' t' out',
      computeHMAC .ndebug (.bytes key (by simp [key])) (.bytes m (by simp [m]))
        (some (Vector.replicate 32 0)) = ⟨es, .ok ((.ok, some out), t)⟩ ∧
      computeHMAC .ndebug (.bytes [9] (by decide)) (.bytes [1, 2, 3] (by decide))
        (some (Vector.replicate 32 0)) = ⟨es', .ok ((.ok, some out'), t')⟩ ∧
      (out = out' → ∃ x ∈ applications es, ∃ y ∈ applications es', Collide x y) := by
  intro key m
  exact computeHMAC_collision .ndebug key [9] m [1, 2, 3] (by simp [key]) (by decide) (by simp [m])
    (by decide) (fun h => absurd h.2 (by simp [m])) (Vector.replicate 32 0) (Vector.replicate 32 0)

end HMAC
end LibEmsha
