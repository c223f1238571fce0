import LibEmsha.HMAC.Faults
import LibEmsha.HMAC.Reset

/-!
# Keys that cannot be told apart

Of the key that it is given an object keeps only a block. Keys with the same block leave the same
object: a short key with zeros behind it, a long key and its digest, a long null pointer and the
digest of the empty string. Keys with different blocks leave different objects.
-/

namespace LibEmsha.HMAC
open Traced

variable (build : Build) {ik ik' : Input} {s s' : HMAC} {es es' : List Event}

/-- The key block is all that the constructor leaves of its argument. -/
theorem eq_of_construct (hnew : Runs (construct build ik) HMAC.blank es () s)
    (hnew' : Runs (construct build ik') HMAC.blank es' () s') (hk : s.k = s'.k) : s = s' := by
  obtain ⟨t, gs, hreset⟩ := reset_of_construct hnew
  obtain ⟨t', gs', hreset'⟩ := reset_of_construct hnew'
  have hk' : s'.k = t'.k := reset_keeps build t'.k t' gs' .ok s' hreset' rfl
  exact ((runs_reset_again hreset (hk.trans hk').symm).deterministic hreset').2.2

/-- The block of a key. -/
def blockOf (ik : Input) : List UInt8 := macKey (digestOf build) (keyOf build ik)

/-- Keys with the same block leave the same object. -/
theorem construct_eq_of_block (h : keyFault ik = none) (h' : keyFault ik' = none)
    (hblock : blockOf build ik = blockOf build ik') :
    ((construct build ik).run HMAC.blank).result =
      ((construct build ik').run HMAC.blank).result := by
  obtain ⟨es, s, hnew, hs⟩ := construct_runs build h
  obtain ⟨es', s', hnew', hs'⟩ := construct_runs build h'
  rw [blockOf, blockOf, ← toList_keyBlock, ← toList_keyBlock, Vector.toList_inj, ← hs.key,
    ← hs'.key] at hblock
  rw [hnew, hnew', eq_of_construct build hnew hnew' hblock]

/-- So all that comes of the object is the same, its destruction included. -/
theorem lifetime_eq_of_block (h : keyFault ik = none) (h' : keyFault ik' = none)
    (hblock : blockOf build ik = blockOf build ik') (cs : List Call) :
    (lifetime build ik cs).result = (lifetime build ik' cs).result :=
  result_bind_congr (construct_eq_of_block build h h' hblock) _

/-! ## Which keys have the same block -/

/-- Zeros behind a short key. -/
theorem blockOf_append_zeros {key : List UInt8} {n : ℕ} (h : key.length + n ≤ 64)
    (fits : key.length < 2 ^ 32) (fits' : (key ++ List.replicate n 0).length < 2 ^ 32) :
    blockOf build (.bytes (key ++ List.replicate n 0) fits') = blockOf build (.bytes key fits) := by
  have hshort : key.length ≤ 64 := by omega
  have hzeros : n + (64 - (key.length + n)) = 64 - key.length := by omega
  simp [blockOf, keyOf, macKey, h, hshort, hzeros]

/-- The digest of a long key. -/
theorem blockOf_digest {key : List UInt8} (h : 64 < key.length) (fits : key.length < 2 ^ 32) :
    blockOf build (.bytes (digestOf build key).toList (by simp)) =
      blockOf build (.bytes key fits) := by
  simp [blockOf, keyOf, macKey, Nat.not_le.mpr h]

/-- The digest of the empty string, for a long null pointer. -/
theorem blockOf_null {n : UInt32} (h : 64 < n) :
    blockOf build (.bytes (digestOf build []).toList (by simp)) = blockOf build (.null n) := by
  simp [blockOf, keyOf, h]

/-! ## Which keys leave the same object -/

/-- Two keys that the constructor does not stop at leave the same object exactly if their blocks
are the same; and then they have the same lives. -/
theorem construct_eq_iff (h : keyFault ik = none) (h' : keyFault ik' = none) :
    (((construct build ik).run HMAC.blank).result = ((construct build ik').run HMAC.blank).result ↔
      blockOf build ik = blockOf build ik') ∧
    (blockOf build ik = blockOf build ik' →
      ∀ cs, (lifetime build ik cs).result = (lifetime build ik' cs).result) := by
  refine ⟨⟨fun heq => ?_, construct_eq_of_block build h h'⟩, lifetime_eq_of_block build h h'⟩
  obtain ⟨es, s, hnew, hs⟩ := construct_runs build h
  obtain ⟨es', s', hnew', hs'⟩ := construct_runs build h'
  rw [hnew, hnew', Except.ok.injEq, Prod.mk.injEq] at heq
  rw [blockOf, blockOf, ← toList_keyBlock, ← toList_keyBlock, ← hs.key, ← hs'.key, heq.2]

/-- Zeros behind a key, a long key and its digest, and a long null pointer; and two keys that leave
different objects. -/
theorem construct_eq_iff_keys :
    let long : List UInt8 := List.replicate 100 1
    (∀ cs, (lifetime .ndebug (.bytes ([1] ++ List.replicate 3 0) (by decide)) cs).result =
      (lifetime .ndebug (.bytes [1] (by decide)) cs).result) ∧
    (∀ cs, (lifetime .ndebug (.bytes (digestOf .ndebug long).toList (by simp)) cs).result =
      (lifetime .ndebug (.bytes long (by simp [long])) cs).result) ∧
    (∀ cs, (lifetime .ndebug (.bytes (digestOf .ndebug []).toList (by simp)) cs).result =
      (lifetime .ndebug (.null 65) cs).result) ∧
    ((construct .ndebug (.bytes [1] (by decide))).run HMAC.blank).result ≠
      ((construct .ndebug (.bytes [2] (by decide))).run HMAC.blank).result := by
  intro long
  refine ⟨(construct_eq_iff .ndebug rfl rfl).2 (blockOf_append_zeros .ndebug (by decide) _ _),
    (construct_eq_iff .ndebug rfl rfl).2 (blockOf_digest .ndebug (by simp [long]) _),
    (construct_eq_iff .ndebug rfl rfl).2 (blockOf_null .ndebug (by decide)), fun h => ?_⟩
  have hblock := (construct_eq_iff .ndebug rfl rfl).1.mp h
  simp [blockOf, keyOf, macKey] at hblock

end LibEmsha.HMAC
