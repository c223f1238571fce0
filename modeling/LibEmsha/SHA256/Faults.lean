import LibEmsha.SHA256.Limit

/-!
# The outcome of every history

`Update` does not look at the refusal of `addLength`, so the object still takes the byte number
`2 ^ 29`: it stays in the message block, uncounted and not compressed. The next byte is written past
the message block. `Tracks` follows the object up to there, and so the outcome of every history is
known (`history_outcome`).
-/

namespace LibEmsha
open Traced MerkleDamgard Blocks BigEndian

/-- The bits that are counted for `n` bytes. -/
def counted (n : ℕ) : ℕ := min (8 * n) (2 ^ 32 - 8)

/-- The intermediate hash after the message `m`, padded with the bits that were counted. -/
def finalHash (m : List UInt8) : Chain :=
  (cut 64 (m ++ padTail (m.length % 64) (counted m.length))).1.foldl compress emsha256H0

theorem counted_eq {n : ℕ} (h : n < 2 ^ 29) : counted n = 8 * n := Nat.min_eq_left (by omega)

theorem finalHash_eq {m : List UInt8} (hm : m.length < 2 ^ 29) : finalHash m = hashOf m := by
  rw [finalHash, counted_eq hm]
  rfl

namespace SHA256

variable {m data : List UInt8} {s : SHA256} {t : HashState}

/-! ## The byte that is taken and not counted -/

/-- The object is open and absorbed `m`, whose last byte is the byte number `2 ^ 29`. -/
structure Full (m : List UInt8) (s : SHA256) : Prop where
  length : m.length = 2 ^ 29
  holds : ∃ front b, m = front ++ [b] ∧ Holds ((cut 64 front).1.foldl compress emsha256H0)
    (8 * front.length) ((cut 64 front).2 ++ [b]) s

theorem addLength_refused (build : Build) {l : UInt32} (hlt : s.mlen.toNat < 2 ^ 32)
    (hover : 2 ^ 32 ≤ s.mlen.toNat + l.toNat) :
    Runs (addLength build l) s [.addLength .inputTooLong] .inputTooLong s := by
  have hsum : (s.mlen.toUInt32 + l).toUInt64.toNat = s.mlen.toNat + l.toNat - 2 ^ 32 := by
    have hl := l.toNat_lt
    simp only [UInt32.toNat_toUInt64, UInt32.toNat_add, UInt64.toNat_toUInt32]
    omega
  have hwrap : ¬ s.mlen ≤ (s.mlen.toUInt32 + l).toUInt64 := by
    have hl := l.toNat_lt
    rw [UInt64.le_iff_toNat_le, hsum]
    omega
  simp only [Runs, addLength, run_bind, run_getState, Outcome.andThen_ok, if_neg hwrap]
  rfl

/-- It is stored, and nothing else happens. -/
theorem absorb_full (build : Build) (b : UInt8) (hs : Absorbing m s)
    (hm : m.length + 1 = 2 ^ 29) :
    ∃ es t, Runs (absorb build b) s es () t ∧ Full (m ++ [b]) t := by
  obtain ⟨es, t, hstore, -, ht⟩ := store_reaches b hs (length_rest_lt m)
  have hrefused : Runs (addLength build 8) t [.addLength .inputTooLong] .inputTooLong t :=
    addLength_refused build (by rw [ht.mlen]; omega)
      (by rw [ht.mlen, show (8 : UInt32).toNat = 8 from rfl]; omega)
  exact ⟨_, t, hstore.bind (hrefused.bind (.pure () t)), by simpa using hm, m, b, rfl, ht⟩

theorem Full.mbi (hs : Full m s) : s.mbi = 64 := by
  obtain ⟨front, b, rfl, hholds⟩ := hs.holds
  have hlength := hs.length
  rw [List.length_append, List.length_singleton] at hlength
  rw [← UInt8.toNat_inj, hholds.mbi, List.length_append, length_rest, List.length_singleton]
  change front.length % 64 + 1 = 64
  omega

/-! ## The abstract state -/

/-- The object is in the abstract state, up to the byte that is not counted. -/
def Tracks (s : SHA256) : HashState → Prop
  | .absorbing m => m.length < 2 ^ 29 ∧ Absorbing m s ∨ Full m s
  | .done m =>
    m.length ≤ 2 ^ 29 ∧ s.hStatus = .ok ∧ s.hComplete ≠ 0 ∧ s.iHash = finalHash m

theorem tracks_fresh : Tracks fresh .start := .inl ⟨by decide, absorbing_fresh⟩

theorem Tracks.status (hs : Tracks s t) : Status s t := by
  cases t with
  | absorbing m =>
    rcases hs with ⟨-, habsorbing⟩ | hfull
    · exact ⟨Holds.hStatus habsorbing, iff_of_true (Holds.hComplete habsorbing) rfl⟩
    · obtain ⟨front, b, -, hholds⟩ := hfull.holds
      exact ⟨hholds.hStatus, iff_of_true hholds.hComplete rfl⟩
  | done m => exact ⟨hs.2.1, iff_of_false hs.2.2.1 (by simp [HashState.isDone])⟩

theorem Tracks.length_le (hs : Tracks s t) : t.message.length ≤ 2 ^ 29 := by
  cases t with
  | absorbing m =>
    rcases hs with ⟨hlt, -⟩ | hfull
    · exact Nat.le_of_lt hlt
    · exact Nat.le_of_eq hfull.length
  | done m => exact hs.1

/-- The length tells whether the last byte was counted. -/
theorem Tracks.absorbing (hs : Tracks s (.absorbing m)) (hlt : m.length < 2 ^ 29) :
    Absorbing m s := by
  rcases hs with ⟨-, habsorbing⟩ | hfull
  · exact habsorbing
  · exact absurd hfull.length (Nat.ne_of_lt hlt)

theorem Tracks.full (hs : Tracks s (.absorbing m)) (heq : m.length = 2 ^ 29) : Full m s := by
  rcases hs with ⟨hlt, -⟩ | hfull
  · exact absurd heq (Nat.ne_of_lt hlt)
  · exact hfull

/-- The loop of `Update`, up to the byte that is not counted. -/
theorem each_absorb_tracks (build : Build) (hs : Absorbing m s) (hm : m.length < 2 ^ 29)
    (hle : m.length + data.length ≤ 2 ^ 29) :
    ∃ es t, Runs (each (absorb build) data) s es () t ∧ Tracks t (.absorbing (m ++ data)) := by
  rcases Nat.lt_or_eq_of_le hle with hlt | heq
  · obtain ⟨cs, -, es, t, hrun, -, ht⟩ := each_absorb_reaches build hs hlt
    exact ⟨es, t, hrun, .inl ⟨by simpa using hlt, ht⟩⟩
  · -- All but the last byte are counted.
    obtain ⟨front, b, rfl⟩ : ∃ front b, data = front ++ [b] :=
      List.eq_nil_or_concat' data |>.resolve_left (by rintro rfl; simp at heq; omega)
    rw [List.length_append, List.length_singleton, ← Nat.add_assoc] at heq
    obtain ⟨cs, -, es, t, hrun, -, ht⟩ :=
      each_absorb_reaches build hs (show m.length + front.length < 2 ^ 29 by omega)
    obtain ⟨fs, u, hlast, hu⟩ := absorb_full build b ht (by simpa using heq)
    exact ⟨es ++ fs, u, hrun.each_snoc hlast, .inr (by simpa using hu)⟩

/-- `Update` with bytes that fit. -/
theorem update_tracks (build : Build) (fits : data.length < 2 ^ 32)
    (hs : Tracks s (.absorbing m)) (hle : (m ++ data).length ≤ 2 ^ 29) :
    ∃ es t, Runs (update build (.bytes data fits)) s es .ok t ∧
      Tracks t (.absorbing (m ++ data)) := by
  by_cases hdata : data = []
  · subst hdata
    exact ⟨[], s, by simp [Runs, update], by simpa using hs⟩
  rw [List.length_append] at hle
  have hpos := List.length_pos_of_ne_nil hdata
  have hm : m.length < 2 ^ 29 := by omega
  have habsorbing := hs.absorbing hm
  obtain ⟨es, t, hrun, ht⟩ := each_absorb_tracks build habsorbing hm hle
  have hopen : s.hStatus = .ok ∧ s.hComplete = 0 :=
    ⟨Holds.hStatus habsorbing, Holds.hComplete habsorbing⟩
  exact ⟨es, t, by simp [Runs, update, hdata, hopen, hrun.run_eq, ht.status.hStatus], ht⟩

/-- The bytes behind cannot be stored. -/
theorem update_beyond (build : Build) (fits : data.length < 2 ^ 32)
    (hs : Tracks s (.absorbing m)) (hlt : 2 ^ 29 < m.length + data.length) :
    ((update build (.bytes data fits)).run s).result = .error .outOfBounds := by
  have hle : m.length ≤ 2 ^ 29 := hs.length_le
  -- The bytes up to the one that is not counted go through.
  obtain ⟨es, t, hrun, hmbi⟩ : ∃ es t,
      Runs (each (absorb build) (data.take (2 ^ 29 - m.length))) s es () t ∧ t.mbi = 64 := by
    rcases hs with ⟨hm, habsorbing⟩ | hfull
    · have htake : (data.take (2 ^ 29 - m.length)).length = 2 ^ 29 - m.length := by
        rw [List.length_take]
        omega
      have hle : m.length + (data.take (2 ^ 29 - m.length)).length ≤ 2 ^ 29 := by omega
      obtain ⟨es, t, hrun, ht⟩ := each_absorb_tracks build habsorbing hm hle
      exact ⟨es, t, hrun, (ht.full (by rw [List.length_append]; omega)).mbi⟩
    · rw [hfull.length]
      exact ⟨[], s, .pure () s, hfull.mbi⟩
  obtain ⟨x, rest, hrest⟩ : ∃ x rest, data.drop (2 ^ 29 - m.length) = x :: rest :=
    List.exists_cons_of_length_pos (by rw [List.length_drop]; omega)
  have hloop : (each (absorb build) data).run s = ⟨es ++ [.store 64], .error .outOfBounds⟩ := by
    rw [← List.take_append_drop (2 ^ 29 - m.length) data, hrun.each_append, hrest]
    simp [each, absorb_outOfBounds build x hmbi]
  have hdata : data ≠ [] := by rintro rfl; simp at hlt; omega
  simp [update, hdata, hs.status.hStatus, hs.status.hComplete, HashState.isDone, hloop]

/-! ## Digests -/

/-- The padding of an object whose message block is full: the block is compressed, and the marker
starts the next one. -/
theorem padMessage_full (build : Build) {h : Chain} {n : ℕ} {r : List UInt8} (hs : Holds h n r s)
    (hr : r.length = 64) :
    ∃ vs : List Block, r ++ padTail 0 n = join vs ∧
      Reaches (padMessage build 0x80) s (calls compress h vs) ()
        (Holds (vs.foldl compress h) n []) := by
  obtain ⟨v, rfl⟩ := exists_block hr
  obtain ⟨w, hw⟩ := exists_block (n := 64) (l := padTail 0 n) (by simp [padTail])
  have hblock : Reaches (padBlock build 0x80) s [⟨h, v, compress h v⟩] ()
      (Holds (compress h v) n [0x80]) := by
    refine .getState_bind ?_
    rw [if_neg (by simp [hs.mbi])]
    refine (zeroFill_reaches hs (by simp) (by decide)).bind_nil fun t ht => ?_
    have hv : Holds h n v.toList t := by simpa using ht
    refine (updateMessageBlock_reaches hv hv.mb_eq).bind_pure fun u hu => ?_
    refine (store_reaches 0x80 hu (by simp)).bind_nil fun w hw => .getState_bind ?_
    rw [assert_of build hw.hStatus]
    exact .pure hw
  refine ⟨[v, w], by simp [hw], .getState_bind ?_⟩
  rw [assert_of build hs.hStatus, Traced.pure_bind, hs.mbi, if_neg (by simp)]
  exact hblock.bind fun t ht => padLength_reaches build ht (by simp) hw

theorem finalise_tracks (build : Build) (d : Digest) (hs : Tracks s (.absorbing m)) :
    ∃ es t, Runs (finalise build (some d)) s es (.ok, some (writeDigest (finalHash m) d)) t ∧
      Tracks t (.done m) := by
  rcases hs with ⟨hm, hs⟩ | hfull
  · obtain ⟨cs, -, es, t, hrun, -, ht⟩ := finalise_reaches build d hs
    rw [← finalHash_eq hm] at hrun
    exact ⟨es, t, hrun, Nat.le_of_lt hm, ht.hStatus, ht.hComplete,
      (finalHash_eq hm).symm ▸ ht.iHash⟩
  · have hlength := hfull.length
    obtain ⟨front, b, rfl, hholds⟩ := hfull.holds
    rw [List.length_append, List.length_singleton] at hlength
    have hrest : ((cut 64 front).2 ++ [b]).length = 64 := by
      rw [List.length_append, length_rest, List.length_singleton]
      omega
    obtain ⟨vs, hvs, hpad⟩ := padMessage_full build hholds hrest
    -- The blocks are those of the message with the padding behind it.
    have hhash : vs.foldl compress ((cut 64 front).1.foldl compress emsha256H0) =
        finalHash (front ++ [b]) := by
      have hcounted : counted (front ++ [b]).length = 8 * front.length := by
        rw [counted, List.length_append, List.length_singleton]
        omega
      have hmod : (front ++ [b]).length % 64 = 0 := by
        rw [List.length_append, List.length_singleton]
        omega
      have hrest : (cut 64 front).2 ++ ([b] ++ padTail 0 (8 * front.length)) = join vs ++ [] := by
        rw [← List.append_assoc, hvs, List.append_nil]
      have hcut := cut_append hrest (by simp)
      rw [finalHash, hcounted, hmod, List.append_assoc, hcut, List.foldl_append]
    obtain ⟨es, t, hrun, -, hstatus, hcomplete, hchain, -⟩ :=
      finalise_of_padMessage d hholds.hStatus hholds.hComplete hpad
    rw [hhash] at hrun hchain
    exact ⟨es, t, hrun, Nat.le_of_eq hfull.length, hstatus, hcomplete, hchain⟩

/-- `SHA256Digest` writes the same. -/
theorem digestOf_eq_finalHash (build : Build) (hm : m.length ≤ 2 ^ 29) (d : Digest) :
    digestOf build m = writeDigest (finalHash m) d := by
  have fits : m.length < 2 ^ 32 := hm.trans_lt (by decide)
  obtain ⟨es, t, hupdate, ht⟩ := update_tracks build fits tracks_fresh hm
  obtain ⟨fs, u, hfinalise, -⟩ := finalise_tracks build (Vector.replicate 32 0) ht
  have hrun : sha256Digest build (.bytes m fits) (some (Vector.replicate 32 0)) =
      ⟨es ++ fs, .ok ((.ok, some (writeDigest (finalHash m) (Vector.replicate 32 0))), u)⟩ :=
    hupdate.bind (by simpa using hfinalise)
  rw [digestOf, dif_pos fits, hrun]
  exact writeDigest_eq _ _ _

theorem result_tracks (build : Build) (d : Digest) (hs : Tracks s t) :
    ∃ es u, Runs (result build (some d)) s es (.ok, some (digestOf build t.message)) u ∧
      Tracks u (.done t.message) := by
  rw [digestOf_eq_finalHash build hs.length_le d]
  cases t with
  | absorbing m =>
    obtain ⟨es, u, hrun, hu⟩ := finalise_tracks build d hs
    have hcomplete : s.hComplete = 0 := hs.status.hComplete.mpr rfl
    exact ⟨es, u, (run_result_of_open build (some d) hs.status.hStatus hcomplete).trans hrun, hu⟩
  | done m =>
    obtain ⟨hle, hstatus, hcomplete, hchain⟩ := hs
    exact ⟨[], s, by simp [Runs, result, hstatus, hcomplete, hchain], hle, hstatus, hcomplete,
      hchain⟩

/-! ## Calls and histories -/

theorem accepted_tracks (build : Build) {c : Call} (hs : Tracks s t)
    (hle : (t.next c).message.length ≤ 2 ^ 29)
    (hc : ((hashMachine (digestOf build)).answer t c).res = .ok) :
    ∃ es s', Runs (call build c) s es ((hashMachine (digestOf build)).answer t c) s' ∧
      Tracks s' (t.next c) := by
  cases c with
  | reset =>
    refine ⟨[], fresh, rfl, ?_⟩
    cases t <;> exact tracks_fresh
  | update input =>
    by_cases hlength : input.length = 0
    · have hdata := Input.data_of_length_eq_zero hlength
      have hnext : t.next (.update input) = t := by cases t <;> simp [HashState.next, hdata]
      rw [hnext]
      exact ⟨[], s, by simpa [hashMachine, hlength] using update_empty build hlength, hs⟩
    cases input with
    | null n => simp [hashMachine, show n ≠ 0 from hlength] at hc
    | bytes data fits =>
      have hdata : data ≠ [] := by simpa using hlength
      cases t with
      | done m => simp [hashMachine, hdata] at hc
      | absorbing m =>
        obtain ⟨es, u, hrun, hu⟩ := update_tracks build fits hs hle
        exact ⟨es, u, by simpa [hashMachine, hdata] using call_update hrun, hu⟩
  | finalise d =>
    cases d with
    | none => cases hc
    | some d =>
      cases t with
      | done m => cases hc
      | absorbing m =>
        have hm : m.length ≤ 2 ^ 29 := hle
        obtain ⟨es, u, hrun, hu⟩ := finalise_tracks build d hs
        rw [← digestOf_eq_finalHash build hm d] at hrun
        exact ⟨es, u, call_of_pair hrun, hu⟩
  | result d =>
    cases d with
    | none => cases hc
    | some d =>
      obtain ⟨es, u, hrun, hu⟩ := result_tracks build d hs
      cases t <;> exact ⟨es, u, call_of_pair hrun, hu⟩

theorem realizes_hashMachine (build : Build) :
    (hashMachine (digestOf build)).Realizes (hashFault (2 ^ 29 + 1)) (call build) Tracks where
  stops := by
    intro s t c e hs hfault
    obtain ⟨hleave, rfl⟩ := hashFault_eq_some.mp hfault
    -- The call is an `Update` that writes past the message block.
    obtain ⟨m, data, fits, rfl, rfl, hover⟩ :=
      HashState.of_leaves_limit (Nat.lt_succ_of_le hs.length_le) hleave
    exact fault_bind (update_beyond build fits hs (Nat.lt_of_succ_le hover)) _
  answers := by
    intro s t c hs hfault
    have hlimit := hashFault_eq_none.mp hfault
    by_cases hc : ((hashMachine (digestOf build)).answer t c).res = .ok
    · exact accepted_tracks build hs (Nat.le_of_lt_succ hlimit) hc
    · obtain ⟨hrun, -, hnext⟩ := refused_of_status build hs.status hc
      refine ⟨[], s, hrun, ?_⟩
      change Tracks s (t.next c)
      rwa [hnext]

/-- The outcome of every history, whatever is absorbed. Each call answers as the machine does, until
an `Update` would take more than `2 ^ 29` bytes since the last `Reset`: there the history stops with
a write past the message block. -/
theorem history_outcome (build : Build) (cs : List Call) :
    (history build cs).result.map Prod.fst =
      (hashMachine (digestOf build)).outcome (hashFault (2 ^ 29 + 1)) .start cs :=
  (realizes_hashMachine build).result_eq tracks_fresh cs

end SHA256
end LibEmsha
