import LibEmsha.Library.BigEndian
import LibEmsha.SHA256.Absorb

/-!
# The padding that the code applies

`padMessage` puts the marker, zeros and the length behind the message. When 63 bytes are left
in the message block it puts a zero before the marker; `padTail` has this case of its own.
`padMessage_reaches` says that the blocks compressed in the end are those of the message with
that tail.
-/

namespace LibEmsha
open Traced MerkleDamgard Blocks BigEndian SHA256

/-! ## The tail -/

/-- What `padMessage` appends to a message of `n` bits that left `k` bytes in the block. -/
def padTail (k n : ℕ) : List UInt8 :=
  if k = 63 then [0, 0x80] ++ List.replicate 55 0 ++ bytesBE 8 n
  else [0x80] ++ List.replicate ((119 - k) % 64) 0 ++ bytesBE 8 n

/-- A message with what `padMessage` appends. -/
def padded (m : List UInt8) : List UInt8 := m ++ padTail (m.length % 64) (8 * m.length)

theorem length_padded_eq (m : List UInt8) : (padded m).length = 64 * ((m.length + 72) / 64) := by
  simp only [padded, padTail]
  split <;> simp only [List.length_append, List.length_cons, List.length_nil,
    List.length_replicate, length_bytesBE] <;> omega

theorem length_padded (m : List UInt8) : 64 ∣ (padded m).length := ⟨_, length_padded_eq m⟩

/-- The blocks that are compressed for the message `m`. -/
def blocksOf (m : List UInt8) : List Block := (cut 64 (padded m)).1

/-- They are all of the padded message. -/
theorem rest_padded (m : List UInt8) : (cut 64 (padded m)).2 = [] := by
  rw [← List.length_eq_zero_iff, length_rest]
  exact Nat.mod_eq_zero_of_dvd (length_padded m)

/-! ## The length field -/

theorem toUInt8_masked (x c k : UInt64) (hk : k.toNat < 64) (hc : c.toNat >>> k.toNat = 255) :
    ((x &&& c) >>> k).toUInt8 = UInt8.ofNat (x.toNat / 2 ^ k.toNat) := by
  rw [← UInt8.toNat_inj, UInt64.toNat_toUInt8, UInt64.toNat_shiftRight, UInt64.toNat_and,
    Nat.mod_eq_of_lt hk, and_shiftRight _ hc, UInt8.toNat_ofNat', Nat.mod_mod]

theorem toList_packLength (mlen : UInt64) (mb : Block) :
    (packLength mlen mb).toList = mb.toList.take 56 ++ bytesBE 8 mlen.toNat := by
  rw [← List.take_of_length_le (i := 64) (l := (packLength mlen mb).toList) (by simp), packLength]
  iterate 8 rw [take_set_succ]
  have htop : (mlen >>> 56).toUInt8 = UInt8.ofNat (mlen.toNat / 2 ^ 56) := by
    rw [← UInt8.toNat_inj]
    simp [Nat.shiftRight_eq_div_pow]
  have hlow : (mlen &&& 0x00000000000000ff).toUInt8 = UInt8.ofNat mlen.toNat := by
    simpa using toUInt8_masked mlen 0xff 0 (by decide) (by decide)
  rw [htop, hlow, toUInt8_masked mlen 0x00ff000000000000 48 (by decide) (by decide),
    toUInt8_masked mlen 0x0000ff0000000000 40 (by decide) (by decide),
    toUInt8_masked mlen 0x000000ff00000000 32 (by decide) (by decide),
    toUInt8_masked mlen 0x00000000ff000000 24 (by decide) (by decide),
    toUInt8_masked mlen 0x0000000000ff0000 16 (by decide) (by decide),
    toUInt8_masked mlen 0x000000000000ff00 8 (by decide) (by decide)]
  simp [bytesBE, Nat.div_div_eq_div_mul]

/-! ## The blocks of `padMessage` -/

variable {h : Chain} {n : ℕ} {r : List UInt8} {s : SHA256}

/-- The last block: what the message block holds, zeros, and the length. -/
theorem padLength_reaches (build : Build) {v : Block} (hs : Holds h n r s) (hr : r.length ≤ 56)
    (hv : v.toList = r ++ List.replicate (56 - r.length) 0 ++ bytesBE 8 n) :
    Reaches (padLength build) s [⟨h, v, compress h v⟩] () (Holds (compress h v) n []) := by
  generalize hfront : r ++ List.replicate (56 - r.length) 0 = front at hv
  have hlen : front.length = 56 := by rw [← hfront]; simp; omega
  refine (zeroFill_reaches hs hr (by decide)).bind_nil fun t ht => ?_
  rw [hfront] at ht
  have hpack : (packLength t.mlen t.mb).toList = front ++ bytesBE 8 n := by
    rw [toList_packLength, ht.mlen, ← hlen, ht.mb]
  refine (Reaches.modifyState
    (Q := fun u => Holds h n front u ∧ u.mb = v) ⟨?_, ?_⟩).bind_nil fun u hu => ?_
  · -- The length goes behind what the message block holds.
    refine ⟨ht.hStatus, ht.hComplete, ht.iHash, ht.mlen, ht.mbi, ?_⟩
    simp only [hpack, List.take_left]
  · exact Vector.toList_inj.mp (hpack.trans hv.symm)
  · refine (updateMessageBlock_reaches hu.1 hu.2).bind_pure fun w hw => .getState_bind ?_
    rw [assert_of build hw.hStatus]
    exact .pure hw

/-- The block before it, when there is no room for the length. -/
theorem padBlock_reaches (build : Build) (hs : Holds h n r s) (hr : 56 ≤ r.length)
    (hlt : r.length < 64) :
    ∃ v : Block, ∃ r' : List UInt8, r'.length ≤ 56 ∧
      r ++ padTail r.length n =
        v.toList ++ (r' ++ List.replicate (56 - r'.length) 0 ++ bytesBE 8 n) ∧
      Reaches (padBlock build 0x80) s [⟨h, v, compress h v⟩] () (Holds (compress h v) n r') := by
  by_cases hlast : r.length = 63
  · -- One byte is left: it gets a zero, and the next block starts with the marker.
    let v : Block := ⟨(r ++ [0]).toArray, by simp [hlast]⟩
    refine ⟨v, [0x80], by simp, by simp [v, padTail, hlast], ?_⟩
    refine .getState_bind ?_
    rw [if_neg (by rw [hs.mbi]; omega)]
    refine (zeroFill_reaches hs (by omega) (by decide)).bind_nil fun t ht => ?_
    have hv : Holds h n v.toList t := by simpa [v, hlast] using ht
    refine (updateMessageBlock_reaches hv hv.mb_eq).bind_pure fun u hu => ?_
    refine (store_reaches 0x80 hu (by simp)).bind_nil fun w hw => .getState_bind ?_
    rw [assert_of build hw.hStatus]
    exact .pure hw
  · let v : Block := ⟨(r ++ [0x80] ++ List.replicate (63 - r.length) 0).toArray, by simp; omega⟩
    have hzeros : List.replicate ((119 - r.length) % 64) (0 : UInt8) =
        List.replicate (63 - r.length) 0 ++ List.replicate 56 0 := by
      rw [List.replicate_append_replicate]
      congr 1
      omega
    refine ⟨v, [], by simp, by simp [v, padTail, hlast, hzeros], ?_⟩
    refine .getState_bind ?_
    rw [if_pos (by rw [hs.mbi]; omega)]
    refine (store_reaches 0x80 hs hlt).bind_nil fun t ht => ?_
    refine (zeroFill_reaches ht (by simp; omega) (by decide)).bind_nil fun u hu => ?_
    have hv : Holds h n v.toList u := by simpa [v] using hu
    refine (updateMessageBlock_reaches hv hv.mb_eq).bind_pure fun w hw => .getState_bind ?_
    rw [assert_of build hw.hStatus]
    exact .pure hw

/-- What the message block holds and the tail make up the blocks that `padMessage` compresses. -/
theorem padMessage_reaches (build : Build) (hs : Holds h n r s) (hr : r.length < 64) :
    ∃ vs : List Block, r ++ padTail r.length n = join vs ∧
      Reaches (padMessage build 0x80) s (calls compress h vs) ()
        (Holds (vs.foldl compress h) n []) := by
  have hstart : (assert build (s.hStatus = .ok) : Member Unit) = pure () :=
    assert_of build hs.hStatus
  by_cases hroom : r.length < 56
  · -- Marker, zeros and length fit into this block.
    obtain ⟨v, hv⟩ := exists_block (n := 64) (l := r ++ [0x80] ++
      List.replicate (56 - (r ++ [(0x80 : UInt8)]).length) 0 ++ bytesBE 8 n) (by simp; omega)
    have hzeros : (119 - r.length) % 64 = 56 - (r.length + 1) := by omega
    refine ⟨[v], by simp [hv, padTail, hzeros]; omega, .getState_bind ?_⟩
    rw [hstart, Traced.pure_bind, hs.mbi, if_pos hroom]
    exact (store_reaches 0x80 hs hr).bind_nil fun t ht =>
      padLength_reaches build ht (by simp; omega) hv
  · obtain ⟨v, r', hr', htail, hblock⟩ := padBlock_reaches build hs (by omega) hr
    obtain ⟨w, hw⟩ := exists_block (n := 64)
      (l := r' ++ List.replicate (56 - r'.length) 0 ++ bytesBE 8 n) (by simp; omega)
    refine ⟨[v, w], by simp [htail, hw], .getState_bind ?_⟩
    rw [hstart, Traced.pure_bind, hs.mbi, if_neg hroom]
    exact hblock.bind fun t ht => padLength_reaches build ht hr' hw

end LibEmsha
