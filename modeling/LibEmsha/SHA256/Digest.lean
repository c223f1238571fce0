import LibEmsha.SHA256.Padding

/-!
# Finishing a digest

`Finalise` pads the message and writes the eight words of the intermediate hash, most
significant byte first. So `SHA256Digest` writes the bytes of `hashOf m`, the compression
folded over the blocks of the padded message, whatever the destination held before.
-/

namespace LibEmsha
open Traced MerkleDamgard Blocks BigEndian

/-! ## Writing the words -/

theorem toUInt8_masked32 (x c k : UInt32) (hk : k.toNat < 32) (hc : c.toNat >>> k.toNat = 255) :
    ((x &&& c) >>> k).toUInt8 = UInt8.ofNat (x.toNat / 2 ^ k.toNat) := by
  rw [← UInt8.toNat_inj, UInt32.toNat_toUInt8, UInt32.toNat_shiftRight, UInt32.toNat_and,
    Nat.mod_eq_of_lt hk, and_shiftRight _ hc, UInt8.toNat_ofNat', Nat.mod_mod]

theorem take_uint32ToChunkInPlace (x : UInt32) (chunk : Digest) (offset : ℕ)
    (h : offset + 4 ≤ 32) :
    (uint32ToChunkInPlace x chunk offset h).toList.take (offset + 4) =
      chunk.toList.take offset ++ bytesBE 4 x.toNat := by
  have hlow : (x &&& 0x000000ff).toUInt8 = UInt8.ofNat x.toNat := by
    simpa using toUInt8_masked32 x 0xff 0 (by decide) (by decide)
  rw [uint32ToChunkInPlace]
  iterate 4 rw [take_set_succ]
  rw [hlow, toUInt8_masked32 x 0xff000000 24 (by decide) (by decide),
    toUInt8_masked32 x 0x00ff0000 16 (by decide) (by decide),
    toUInt8_masked32 x 0x0000ff00 8 (by decide) (by decide)]
  simp [bytesBE, Nat.div_div_eq_div_mul]

/-- A digest is the words of the intermediate hash, whatever the buffer held before. -/
theorem toList_writeDigest (iHash : Chain) (digest : Digest) :
    (writeDigest iHash digest).toList = (iHash.map UInt32.toNat).toList.flatMap (bytesBE 4) := by
  have hwritten : (writeDigest iHash digest).toList.take (4 * 8) =
      ((iHash.map UInt32.toNat).toList.take 8).flatMap (bytesBE 4) := by
    refine Loops.fold_invariant (P := fun i (d : Digest) =>
      d.toList.take (4 * i) = ((iHash.map UInt32.toNat).toList.take i).flatMap (bytesBE 4)) rfl ?_
    intro i hi d hd
    rw [List.take_succ_eq_append_getElem (by simpa using hi), Nat.mul_succ,
      take_uint32ToChunkInPlace, hd, List.flatMap_append]
    simp
  rwa [List.take_of_length_le (by simp), List.take_of_length_le (by simp)] at hwritten

theorem writeDigest_eq (iHash : Chain) (d d' : Digest) :
    writeDigest iHash d = writeDigest iHash d' := by
  rw [← Vector.toList_inj, toList_writeDigest, toList_writeDigest]

/-- Different intermediate hashes are written differently. -/
theorem writeDigest_injective {iHash iHash' : Chain} {d d' : Digest}
    (h : writeDigest iHash d = writeDigest iHash' d') : iHash = iHash' := by
  have hbound : ∀ (i : Chain), ∀ n ∈ (i.map UInt32.toNat).toList, n < 256 ^ 4 := by
    simp only [Vector.toList_map, List.mem_map]
    rintro i _ ⟨x, -, rfl⟩
    exact x.toNat_lt
  rw [← Vector.toList_inj, toList_writeDigest, toList_writeDigest] at h
  have hwords := flatMap_bytesBE_injective (hbound iHash) (hbound iHash') (by simp) h
  exact Vector.map_inj_right (fun _ _ => UInt32.toNat_inj.mp) |>.mp (Vector.toList_inj.mp hwords)

/-! ## Finalising -/

/-- The intermediate hash after the message `m` and its padding. -/
def hashOf (m : List UInt8) : Chain := (blocksOf m).foldl compress emsha256H0

/-- The compressions made while hashing `m`. -/
def compressions (m : List UInt8) : List (Application Chain Block) :=
  calls compress emsha256H0 (blocksOf m)

/-- The full blocks of a message, and those of its rest with the tail behind it. -/
theorem blocksOf_eq (m : List UInt8) : blocksOf m = (cut 64 m).1 ++
    (cut 64 ((cut 64 m).2 ++ padTail (cut 64 m).2.length (8 * m.length))).1 := by
  rw [blocksOf, padded, cut_append_rest, length_rest]

theorem compressions_eq (m : List UInt8) : compressions m = absorptions m ++
    calls compress ((cut 64 m).1.foldl compress emsha256H0)
      (cut 64 ((cut 64 m).2 ++ padTail (cut 64 m).2.length (8 * m.length))).1 := by
  rw [compressions, blocksOf_eq, calls_append, absorptions]

namespace SHA256

/-- The object is finalised, and the message was `m`. -/
structure Done (m : List UInt8) (s : SHA256) : Prop where
  hStatus : s.hStatus = .ok
  hComplete : s.hComplete ≠ 0
  iHash : s.iHash = hashOf m
  mbi : s.mbi = 0

variable {m : List UInt8} {s : SHA256}

/-- `Finalise` on an open object, from what its padding does. -/
theorem finalise_of_padMessage {build : Build} (d : Digest) {cs : List (Application Chain Block)}
    {h : Chain} {n : ℕ} (hstatus : s.hStatus = .ok) (hcomplete : s.hComplete = 0)
    (hpad : Reaches (padMessage build 0x80) s cs () (Holds h n [])) :
    Reaches (finalise build (some d)) s cs (.ok, some (writeDigest h d))
      fun t => t.hStatus = .ok ∧ t.hComplete ≠ 0 ∧ t.iHash = h ∧ t.mbi = 0 := by
  refine .getState_bind ?_
  rw [if_neg (by simp [hstatus]), if_neg (by simp [hcomplete])]
  refine hpad.bind_pure fun t ht => .getState_bind ?_
  rw [assert_of build ht.hStatus, Traced.pure_bind]
  refine (Reaches.modifyState (Q := fun u => u.hStatus = .ok ∧ u.hComplete ≠ 0 ∧
    u.iHash = h ∧ u.mbi = 0)
    ⟨ht.hStatus, by simp, ht.iHash, UInt8.toNat_inj.mp ht.mbi⟩).bind_nil fun u hu => ?_
  refine .getState_bind ?_
  rw [hu.2.2.1]
  exact .pure hu

/-- `Finalise` on an open object compresses the rest with the tail behind it. -/
theorem finalise_holds (build : Build) (d : Digest) {h : Chain} {n : ℕ} {r : List UInt8}
    (hs : Holds h n r s) (hr : r.length < 64) :
    let vs := (cut 64 (r ++ padTail r.length n)).1
    Reaches (finalise build (some d)) s (calls compress h vs)
      (.ok, some (writeDigest (vs.foldl compress h) d))
      fun t => t.hStatus = .ok ∧ t.hComplete ≠ 0 ∧ t.iHash = vs.foldl compress h ∧ t.mbi = 0 := by
  intro vs
  obtain ⟨ws, hws, hpad⟩ := padMessage_reaches build hs hr
  obtain rfl : vs = ws := by
    have hcut := cut_eq ws (r := []) (by simp)
    rw [List.append_nil, ← hws] at hcut
    exact congrArg Prod.fst hcut
  exact finalise_of_padMessage d hs.hStatus hs.hComplete hpad

/-- `Finalise` on an open object. -/
theorem finalise_reaches (build : Build) (d : Digest) (hs : Absorbing m s) :
    ∃ cs, compressions m = absorptions m ++ cs ∧
      Reaches (finalise build (some d)) s cs (.ok, some (writeDigest (hashOf m) d)) (Done m) := by
  refine ⟨_, compressions_eq m, ?_⟩
  have hhash := congrArg (List.foldl compress emsha256H0) (blocksOf_eq m)
  rw [List.foldl_append, ← hashOf] at hhash
  obtain ⟨es, t, hrun, hlogs, hstatus, hcomplete, hchain, hmbi⟩ :=
    finalise_holds build d hs (length_rest_lt m)
  rw [← hhash] at hrun hchain
  exact ⟨es, t, hrun, hlogs, hstatus, hcomplete, hchain, hmbi⟩

/-- `Result` on an open object is `Finalise`. -/
theorem run_result_of_open (build : Build) (d : Option Digest) (hstatus : s.hStatus = .ok)
    (hcomplete : s.hComplete = 0) : (result build d).run s = (finalise build d).run s := by
  cases d with
  | none => rfl
  | some d => simp [result, hstatus, hcomplete]

theorem result_reaches (build : Build) (d : Digest) (hs : Absorbing m s) :
    ∃ cs, compressions m = absorptions m ++ cs ∧
      Reaches (result build (some d)) s cs (.ok, some (writeDigest (hashOf m) d)) (Done m) := by
  obtain ⟨cs, hcs, es, t, hrun, hlogs, ht⟩ := finalise_reaches build d hs
  exact ⟨cs, hcs, es, t, (run_result_of_open build (some d) hs.hStatus hs.hComplete).trans hrun,
    hlogs, ht⟩

/-- `Result` on a finalised object. -/
theorem result_again (build : Build) (d : Digest) (hs : Done m s) :
    Runs (result build (some d)) s [] (.ok, some (writeDigest (hashOf m) d)) s := by
  simp [Runs, result, hs.hStatus, hs.hComplete, hs.iHash]

end SHA256

/-- `SHA256Digest` of a message whose bits can be counted. -/
theorem sha256Digest_eq (build : Build) {m : List UInt8} (fits : m.length < 2 ^ 32) (d : Digest)
    (hm : m.length < 2 ^ 29) :
    ∃ es t, sha256Digest build (.bytes m fits) (some d) =
        ⟨es, .ok ((.ok, some (writeDigest (hashOf m) d)), t)⟩ ∧
      Logs (compressions m) es ∧ SHA256.Done m t := by
  obtain ⟨cs, hcs, es, t, hupdate, hlogs, ht⟩ := SHA256.update_reaches build fits
    SHA256.absorbing_fresh (by simpa using hm)
  obtain ⟨ds, hds, fs, u, hfinalise, hlogs', hu⟩ := SHA256.finalise_reaches build d ht
  refine ⟨es ++ fs, u, hupdate.bind ?_, ?_, hu⟩
  · rw [if_neg (by simp)]
    exact hfinalise
  · simp only [List.nil_append, absorptions_nil] at hcs hds
    rw [hds, hcs]
    exact hlogs.append hlogs'

/-- The digest that `SHA256Digest` writes. -/
def digestOf (build : Build) (m : List UInt8) : Digest :=
  if fits : m.length < 2 ^ 32 then
    match (sha256Digest build (.bytes m fits) (some (Vector.replicate 32 0))).result with
    | .ok ((_, some d), _) => d
    | _ => Vector.replicate 32 0
  else Vector.replicate 32 0

theorem digestOf_eq (build : Build) {m : List UInt8} (hm : m.length < 2 ^ 29) (d : Digest) :
    digestOf build m = writeDigest (hashOf m) d := by
  have fits : m.length < 2 ^ 32 := hm.trans (by decide)
  obtain ⟨es, t, hrun, -, -⟩ := sha256Digest_eq build fits (Vector.replicate 32 0) hm
  rw [digestOf, dif_pos fits, hrun]
  exact writeDigest_eq _ _ _

end LibEmsha
