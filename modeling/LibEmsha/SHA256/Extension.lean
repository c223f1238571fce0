import LibEmsha.SHA256.Faults

/-!
# Hashing on behind a digest

A digest is the whole intermediate hash. So the digest of a message and its length are enough to
build an object that goes on behind the padded message, without the message. A digest over a secret
and a message is therefore no tag of the message.
-/

namespace LibEmsha
open Traced BigEndian Blocks

/-- The words that a digest was written from. -/
def readDigest (d : Digest) : Chain :=
  Vector.ofFn fun i => UInt32.ofNat (ofBytesBE ((d.toList.drop (4 * i)).take 4))

theorem readDigest_writeDigest (iHash : Chain) (d : Digest) :
    readDigest (writeDigest iHash d) = iHash := by
  ext i hi
  have hi' : i < (iHash.map UInt32.toNat).toList.length := by simpa using hi
  rw [readDigest, Vector.getElem_ofFn, toList_writeDigest, take_drop_flatMap_bytesBE 4 hi',
    ofBytesBE_bytesBE]
  simp

namespace SHA256

/-- The object that goes on behind a message of `n` bytes and its padding. -/
def resume (d : Digest) (n : ℕ) : SHA256 where
  mlen := UInt64.ofNat (8 * (64 * ((n + 72) / 64)))
  iHash := readDigest d
  hStatus := .ok
  hComplete := 0
  mbi := 0
  mb := Vector.replicate 64 0

theorem absorbing_resume (build : Build) {m : List UInt8} (hm : (padded m).length < 2 ^ 29) :
    Absorbing (padded m) (resume (digestOf build m) m.length) := by
  have hle : m.length ≤ (padded m).length := by simp [padded]
  have hcut : cut 64 (padded m) = (blocksOf m, []) := Prod.ext rfl (rest_padded m)
  rw [Absorbing, hcut]
  refine ⟨rfl, rfl, ?_, ?_, rfl, rfl⟩
  · rw [resume, digestOf_eq build (hle.trans_lt hm) (Vector.replicate 32 0), readDigest_writeDigest]
    rfl
  · rw [length_padded_eq] at hm ⊢
    exact UInt64.toNat_ofNat_of_lt' (by rw [UInt64.size]; omega)

/-- Whatever calls come behind the padded message: an object made of nothing but the digest of the
message and its length answers them as the object that absorbed the padded message, up to the fault
that comes of too many bytes. -/
theorem resume_answers (build : Build) (m : List UInt8) (hm : (padded m).length < 2 ^ 29)
    (cs : List Call) :
    let first : Call := .update (.bytes (padded m) (hm.trans (by decide)))
    (history build (first :: cs)).result.map Prod.fst =
      ((answerAll (call build) cs).run (resume (digestOf build m) m.length)).result.map
        fun p => ⟨.ok, none⟩ :: p.1 := by
  intro first
  have hne : padded m ≠ [] := by
    rw [← List.length_pos_iff, length_padded_eq]
    omega
  have hfault : hashFault (2 ^ 29 + 1) .start first = none :=
    hashFault_eq_none.mpr (Nat.lt_succ_of_lt hm)
  have hanswer : (hashMachine (digestOf build)).answer .start first = ⟨.ok, none⟩ := by
    simp [first, hashMachine, HashState.start, hne]
  have htracks : Tracks (resume (digestOf build m) m.length) (.absorbing (padded m)) :=
    .inl ⟨hm, absorbing_resume build hm⟩
  have hwhole : (history build (first :: cs)).result.map Prod.fst = _ :=
    (realizes_hashMachine build).result_eq tracks_fresh (first :: cs)
  have hresume := (realizes_hashMachine build).result_eq htracks cs
  have hmap : ∀ r : Except Fault (List Reply × SHA256), r.map (fun p => ⟨.ok, none⟩ :: p.1) =
      (r.map Prod.fst).map ((⟨.ok, none⟩ : Reply) :: ·) := fun r => by cases r <;> rfl
  rw [hmap, hresume, hwhole, Machine.outcome, hfault, hanswer]
  rfl

/-- The digest of a message of one byte, and a byte behind it. -/
theorem resume_answers_byte :
    let first : Call := .update (.bytes (padded [1]) (by decide))
    let cs : List Call := [.update (.bytes [2] (by decide)), .result (some (Vector.replicate 32 0))]
    (history .ndebug (first :: cs)).result.map Prod.fst =
      ((answerAll (call .ndebug) cs).run (resume (digestOf .ndebug [1]) 1)).result.map
        fun p => ⟨.ok, none⟩ :: p.1 :=
  resume_answers .ndebug [1] (by decide) _

end SHA256
end LibEmsha
