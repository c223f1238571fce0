import LibEmsha.HMAC.SinglePass
import LibEmsha.SHA256.Faults

/-!
# The outcome of every life of an `HMAC` object

The inner hash takes the padded key block first, so 64 bytes fewer are left for the message. A key
longer than a block has to be hashed itself. And in a debug build `EMSHA_CHECK` does not return the
code of a refused `Update` but fails as an assertion. So the outcome is known for every key, every
build and every history (`lifetime_outcome`).
-/

namespace LibEmsha.HMAC
open Traced SHA256

variable {α : Type} {build : Build} {k : Block} {m data : List UInt8} {s : HMAC} {t : HashState}

theorem runs_onCtx {x : SHA256.Member α} {es : List Event} {a : α} {ctx : SHA256}
    (h : Runs x s.ctx es a ctx) : Runs (onCtx x) s es a { s with ctx := ctx } := h.zoom

theorem runs_intoBuf {x : Option Digest → SHA256.Member (EMSHAResult × Option Digest)}
    {es : List Event} {res : EMSHAResult} {d : Digest} {ctx : SHA256}
    (h : Runs (x (some s.buf)) s.ctx es (res, some d) ctx) :
    Runs (intoBuf x) s es res { s with ctx := ctx, buf := d } := by
  simp [Runs, HMAC.intoBuf, (runs_onCtx h).run_eq]

/-! ## The abstract state -/

/-- The object has the key block `k` and is in the abstract state, up to the byte that is not
counted. -/
def Tracks (build : Build) (k : Block) (s : HMAC) : HashState → Prop
  | .absorbing m => s.k = k ∧ s.hstate = .ipad ∧
      SHA256.Tracks s.ctx (.absorbing ((padKey k ipad).toList ++ m))
  | .done m => 64 + m.length ≤ 2 ^ 29 ∧ s.k = k ∧ s.hstate = .fin ∧ s.buf = tagOf build k m

theorem Tracks.length_le (hs : Tracks build k s t) : 64 + t.message.length ≤ 2 ^ 29 := by
  cases t with
  | absorbing m => simpa using hs.2.2.length_le
  | done m => exact hs.1

theorem Tracks.key (hs : Tracks build k s t) : s.k = k := by
  cases t with
  | absorbing m => exact hs.1
  | done m => exact hs.2.1

theorem Tracks.hstate (hs : Tracks build k s t) :
    s.hstate = if t.isDone then .fin else .ipad := by
  cases t with
  | absorbing m => exact hs.2.1
  | done m => exact hs.2.2.1

/-- In an open object `ctx` took the inner key block and the message. -/
theorem Tracks.ctx (hs : Tracks build k s t) (hopen : t.isDone = false) :
    SHA256.Tracks s.ctx (.absorbing ((padKey k ipad).toList ++ t.message)) := by
  cases t with
  | absorbing m => exact hs.2.2
  | done m => cases hopen

/-- An object that handed out a tag still has it. -/
theorem Tracks.buf (hs : Tracks build k s t) (hdone : t.isDone = true) :
    s.buf = tagOf build k t.message := by
  cases t with
  | absorbing m => cases hdone
  | done m => exact hs.2.2.2

/-- What `reset` leaves. -/
theorem Represents.tracks (hs : Represents build k s .start) : Tracks build k s .start := by
  obtain ⟨buf, hs⟩ := hs
  exact ⟨hs.k, hs.hstate, .inl ⟨by simp, hs.ctx⟩⟩

/-! ## Member functions -/

theorem update_tracks (fits : data.length < 2 ^ 32) (hs : Tracks build k s (.absorbing m))
    (hle : 64 + (m ++ data).length ≤ 2 ^ 29) :
    ∃ es t, Runs (update build (.bytes data fits)) s es .ok t ∧
      Tracks build k t (.absorbing (m ++ data)) := by
  obtain ⟨hk, hstate, hctx⟩ := hs
  obtain ⟨es, ctx, hrun, hctx'⟩ := SHA256.update_tracks build fits hctx (by simpa using hle)
  refine ⟨es, { s with ctx := ctx }, ?_, hk, hstate, by simpa using hctx'⟩
  simp [Runs, update, emshaCheck, hstate, (runs_onCtx hrun).run_eq]

theorem update_beyond (fits : data.length < 2 ^ 32) (hs : Tracks build k s (.absorbing m))
    (hlt : 2 ^ 29 < 64 + m.length + data.length) :
    ((update build (.bytes data fits)).run s).result = .error .outOfBounds := by
  obtain ⟨hk, hstate, hctx⟩ := hs
  have hbeyond := SHA256.update_beyond build fits hctx (by simpa using hlt)
  have hupdate : (update build (.bytes data fits)).run s =
      (onCtx (SHA256.update build (.bytes data fits)) >>= fun res => orInvalid res res do
        assert build ((← getState).hstate = .ipad)
        return .ok).run s := by
    simp [update, emshaCheck, hstate]
  rw [hupdate]
  exact fault_bind (fault_zoom hbeyond) _

theorem finalResult_tracks (d : Digest) (hs : Tracks build k s t) :
    ∃ es u, Runs (finalResult build (some d)) s es (.ok, some (tagOf build k t.message)) u ∧
      Tracks build k u (.done t.message) := by
  cases t with
  | done m => exact ⟨[], s, by simp [Runs, finalResult, hs.2.2.1, hs.2.2.2], hs⟩
  | absorbing m =>
    have hle : 64 + m.length ≤ 2 ^ 29 := hs.length_le
    obtain ⟨hk, hstate, hctx⟩ := hs
    obtain ⟨es, ctx, hresult, -⟩ := SHA256.result_tracks build s.buf hctx
    let inner := digestOf build ((padKey k ipad).toList ++ m)
    obtain ⟨fs, u, houter, -, hu⟩ := outerHash_makes build ⟨.ipad, ctx, k, inner⟩ d
    rw [← tagOf_eq] at houter hu
    refine ⟨es ++ fs, u, ?_, hle, hu⟩
    have hinner : Runs (intoBuf (SHA256.result build)) s es .ok ⟨s.hstate, ctx, s.k, inner⟩ :=
      runs_intoBuf hresult
    simp [Runs, finalResult, hstate, emshaCheck, hinner.run_eq, hk, houter.run_eq]

/-! ## The constructor -/

/-- The key that an object works under. A long null pointer is hashed as the empty string. -/
def keyOf (build : Build) : Input → List UInt8
  | .null n => if 64 < n then (digestOf build []).toList else []
  | .bytes data _ => data

/-- The keys at which the constructor stops: a null pointer that is not hashed is read, and a long
key may have more bytes than can be hashed. -/
def keyFault : Input → Option Fault
  | .null n => if 0 < n ∧ n ≤ 64 then some .nullDereference else none
  | .bytes data _ => if data.length ≤ 2 ^ 29 then none else some .outOfBounds

/-- A key longer than a block. -/
theorem hashKey_runs {ik : Input} {es : List Event} {res : EMSHAResult} {ctx : SHA256}
    (hupdate : Runs (SHA256.update build ik) s.ctx es res ctx)
    (hctx : SHA256.Tracks ctx (.absorbing m)) :
    ∃ fs t, Runs (hashKey build ik) s fs (res, .ok) t ∧
      t.k = writeKey (digestOf build m).toList s.k := by
  obtain ⟨gs, ctx', hresult, -⟩ :=
    SHA256.result_tracks build (Vector.ofFn fun i : Fin 32 => s.k[i]) hctx
  have hctxUpdate := runs_onCtx hupdate
  have hctxResult := runs_onCtx (s := { s with ctx := ctx }) hresult
  refine ⟨es ++ gs, ⟨s.hstate, SHA256.fresh, writeKey (digestOf build m).toList s.k, s.buf⟩, ?_,
    rfl⟩
  simp only [Runs, hashKey, run_bind, hctxUpdate.run_eq, Outcome.andThen_ok, run_getState,
    hctxResult.run_eq, run_modifyState, run_restart, run_pure, Outcome.after_mk]
  simp

theorem keyBlock_digest (build : Build) (m : List UInt8) :
    keyBlock build (digestOf build m).toList =
      writeKey (digestOf build m).toList (Vector.replicate 64 0) := by
  rw [keyBlock, if_pos (by simp)]

/-- A key longer than a block is hashed. -/
theorem setKey_of_long {ik : Input} (h : 64 < ik.length.toNat) :
    setKey build ik = hashKey build ik >>= fun _ => pure () := by
  have h64 : (64 : UInt32).toNat = 64 := rfl
  rw [setKey, if_neg (by rw [UInt32.lt_iff_toNat_lt]; omega),
    if_pos (by rw [UInt32.lt_iff_toNat_lt]; omega)]

theorem setKey_of_hashKey {ik : Input} (h : 64 < ik.length.toNat) {es : List Event}
    {codes : EMSHAResult × EMSHAResult} {t : HMAC} (hrun : Runs (hashKey build ik) s es codes t) :
    Runs (setKey build ik) s (es ++ []) () t := setKey_of_long h ▸ hrun.bind (.pure () t)

theorem setKey_runs (build : Build) {ik : Input} (h : keyFault ik = none) :
    ∃ es t, Runs (setKey build ik) blank es () t ∧ t.k = keyBlock build (keyOf build ik) := by
  cases ik with
  | null n =>
    have h64 : (64 : UInt32).toNat = 64 := rfl
    have hkey : ¬ (0 < n.toNat ∧ n.toNat ≤ 64) := by
      simpa [keyFault, UInt32.lt_iff_toNat_lt, UInt32.le_iff_toNat_le] using h
    by_cases hlong : 64 < n.toNat
    · -- The null pointer is refused, and the empty string is hashed.
      have hzero : n ≠ 0 := by rintro rfl; exact absurd hlong (by decide)
      have hupdate :
          Runs (SHA256.update build (.null n)) blank.ctx [] .nullPointer SHA256.fresh := by
        rw [SHA256.update, if_neg (by simpa using hzero)]
        rfl
      obtain ⟨es, t, hrun, ht⟩ := hashKey_runs hupdate tracks_fresh
      have hlength : 64 < (Input.null n).length.toNat := hlong
      refine ⟨es ++ [], t, setKey_of_hashKey hlength hrun, ?_⟩
      rw [keyOf, if_pos (by rw [UInt32.lt_iff_toNat_lt]; omega), keyBlock_digest]
      exact ht
    · obtain rfl : n = 0 := UInt32.toNat_inj.mp (by simp; omega)
      exact ⟨[], _, rfl, rfl⟩
  | bytes data fits =>
    have hle : data.length ≤ 2 ^ 29 := by simpa [keyFault] using h
    by_cases hlong : 64 < data.length
    · obtain ⟨es, ctx, hupdate, hctx⟩ := SHA256.update_tracks build fits tracks_fresh hle
      obtain ⟨fs, t, hrun, ht⟩ := hashKey_runs (s := blank) hupdate hctx
      refine ⟨fs ++ [], t, setKey_of_hashKey (by rwa [Input.toNat_length_bytes]) hrun, ?_⟩
      rw [List.nil_append] at ht
      change t.k = keyBlock build data
      rw [ht, keyBlock, if_neg (Nat.not_le.mpr hlong)]
      rfl
    · obtain ⟨es, t, hrun, -, ht⟩ := setKey_ends build fits (by omega)
      exact ⟨es, t, hrun, ht⟩

theorem construct_runs (build : Build) {ik : Input} (h : keyFault ik = none) :
    ∃ es t, Runs (construct build ik) blank es () t ∧
      Tracks build (keyBlock build (keyOf build ik)) t .start := by
  obtain ⟨es, t, hkey, ht⟩ := setKey_runs build h
  obtain ⟨fs, u, hreset, -, hu⟩ := reset_ends build t
  exact ⟨_, u, hkey.bind (hreset.bind (.pure () u)), ht ▸ hu.tracks⟩

theorem construct_stops (build : Build) {ik : Input} {e : Fault} (h : keyFault ik = some e) :
    ((construct build ik).run blank).result = .error e := by
  refine fault_bind ?_ _
  cases ik with
  | null n =>
    have h64 : (64 : UInt32).toNat = 64 := rfl
    obtain ⟨⟨hpos, hle⟩, rfl⟩ : (0 < n.toNat ∧ n.toNat ≤ 64) ∧ .nullDereference = e := by
      simpa [keyFault, UInt32.lt_iff_toNat_lt, UInt32.le_iff_toNat_le] using h
    have hzero : n ≠ 0 := by rintro rfl; exact absurd hpos (by decide)
    have hcopy : ((copyKey (.null n)).run blank).result = .error .nullDereference := by
      simp [copyKey, hzero]
    by_cases hshort : n.toNat < 64
    · rw [setKey, if_pos (by simpa [UInt32.lt_iff_toNat_lt] using hshort)]
      exact fault_bind hcopy _
    · rw [setKey, if_neg (by simpa [UInt32.lt_iff_toNat_lt] using hshort),
        if_neg (by simpa [UInt32.lt_iff_toNat_lt] using hle)]
      exact hcopy
  | bytes data fits =>
    obtain ⟨hlong, rfl⟩ : 2 ^ 29 < data.length ∧ .outOfBounds = e := by simpa [keyFault] using h
    rw [setKey_of_long (by rw [Input.toNat_length_bytes]; omega)]
    have hbeyond : ((SHA256.update build (.bytes data fits)).run blank.ctx).result =
        .error .outOfBounds := SHA256.update_beyond build fits tracks_fresh (by simpa using hlong)
    exact fault_bind (fault_bind (fault_zoom hbeyond) _) _

/-! ## Calls -/

/-- A call that the machine accepts is accepted. -/
theorem accepted_tracks {c : Call} (hs : Tracks build k s t)
    (hle : 64 + (t.next c).message.length ≤ 2 ^ 29)
    (hc : ((macMachine (tagOf build k)).answer t c).res = .ok) :
    ∃ es s', Runs (call build c) s es ((macMachine (tagOf build k)).answer t c) s' ∧
      Tracks build k s' (t.next c) := by
  cases c with
  | reset =>
    obtain ⟨es, u, hrun, -, hu⟩ := reset_ends build s
    refine ⟨es ++ [], u, hrun.bind (.pure _ u), ?_⟩
    rw [hs.key] at hu
    cases t <;> exact hu.tracks
  | update input =>
    cases input with
    | null n => cases hc
    | bytes data fits =>
      cases t with
      | done m => cases hc
      | absorbing m =>
        obtain ⟨es, u, hrun, hu⟩ := update_tracks fits hs hle
        exact ⟨es ++ [], u, hrun.bind (.pure _ u), hu⟩
  | finalise d =>
    cases d with
    | none => cases hc
    | some d =>
      obtain ⟨es, u, hrun, hu⟩ := finalResult_tracks d hs
      cases t <;> exact ⟨es ++ [], u, hrun.bind (.pure _ u), hu⟩
  | result d =>
    cases d with
    | none => cases hc
    | some d =>
      obtain ⟨es, u, hrun, hu⟩ := finalResult_tracks d hs
      cases t <;> exact ⟨es ++ [], u, hrun.bind (.pure _ u), hu⟩

/-- A refused `Update` fails as an assertion in a debug build. -/
theorem update_asserts {c : Call} (hs : Tracks .debug k s t) (hc : t.refusesUpdate c = true) :
    ((call .debug c).run s).result = .error .assertion := by
  cases c with
  | update input =>
    refine fault_bind ?_ _
    cases input with
    | null n => simp [update, emshaCheck]
    | bytes data fits =>
      have hfin : s.hstate = .fin := by
        simpa [HashState.refusesUpdate, hs.hstate] using hc
      simp [update, emshaCheck, hfin]
  | reset => cases hc
  | finalise d => cases hc
  | result d => cases hc

/-- A call that the machine refuses is refused, unless it is an `Update` in a debug build. -/
theorem refused_tracks {c : Call} (hs : Tracks build k s t)
    (hupdate : ¬ (build = .debug ∧ t.refusesUpdate c = true))
    (hc : ((macMachine (tagOf build k)).answer t c).res ≠ .ok) :
    Runs (call build c) s [] ((macMachine (tagOf build k)).answer t c) s ∧ t.next c = t := by
  cases build with
  | ndebug =>
    obtain ⟨hrun, -, hnext⟩ :=
      refused_of_hstate (s := s) (fun hdone => by simp [hs.hstate, hdone]) hc
    exact ⟨hrun, hnext⟩
  | debug =>
    cases c with
    | reset => exact (hc rfl).elim
    | update input =>
      refine (hupdate ⟨rfl, ?_⟩).elim
      cases input <;> cases t <;> simp_all [macMachine, HashState.refusesUpdate, HashState.isDone]
    | finalise d =>
      cases d with
      | none => exact ⟨rfl, by cases t <;> rfl⟩
      | some d => exact (hc rfl).elim
    | result d =>
      cases d with
      | none => exact ⟨rfl, by cases t <;> rfl⟩
      | some d => exact (hc rfl).elim

theorem realizes_macMachine (build : Build) (k : Block) :
    (macMachine (tagOf build k)).Realizes (macFault build (2 ^ 29 - 64 + 1)) (call build)
      (Tracks build k) where
  stops := by
    intro s t c e hs hfault
    rw [macFault] at hfault
    split at hfault
    · rename_i hasserts
      obtain ⟨rfl, hc⟩ := hasserts
      obtain rfl := Option.some.inj hfault
      exact update_asserts hs hc
    · obtain ⟨hleave, rfl⟩ := hashFault_eq_some.mp hfault
      have hlength := hs.length_le
      obtain ⟨m, data, fits, rfl, rfl, hover⟩ := HashState.of_leaves_limit (by omega) hleave
      exact fault_bind (update_beyond fits hs (by omega)) _
  answers := by
    intro s t c hs hfault
    rw [macFault] at hfault
    split at hfault
    · cases hfault
    rename_i hasserts
    have hlimit := hashFault_eq_none.mp hfault
    by_cases hc : ((macMachine (tagOf build k)).answer t c).res = .ok
    · exact accepted_tracks hs (by omega) hc
    · obtain ⟨hrun, hnext⟩ := refused_tracks hs hasserts hc
      refine ⟨[], s, hrun, ?_⟩
      change Tracks build k s (t.next c)
      rwa [hnext]

/-! ## Lives -/

/-- What is handed out to a caller who gives a place for it, or none. -/
def handOut (tag : Digest) : Option Digest → EMSHAResult × Option Digest
  | none => (.nullPointer, none)
  | some _ => (.ok, some tag)

/-- The object that `ComputeHMAC` works on, once its message is absorbed. -/
theorem result_handOut (d : Option Digest) (hs : Tracks build k s (.absorbing m)) :
    ∃ es t, Runs (result build d) s es (handOut (tagOf build k m) d) t := by
  cases d with
  | none => exact ⟨[], s, rfl⟩
  | some d =>
    obtain ⟨es, t, hrun, -⟩ := finalResult_tracks d hs
    exact ⟨es, t, hrun⟩

/-- `ComputeHMAC` on any key, message and destination. A null message is refused whatever its
length is, by an assertion in a debug build. Of the key and of the message all bytes that can be
hashed are, and with the first byte more a write leaves the message block. The destruction of the
local object stops nowhere. -/
theorem computeHMAC_outcome (build : Build) (ik m : Input) (d : Option Digest) :
    (computeHMACInScope build ik m d).result.map Prod.fst =
      match keyFault ik, m with
      | some e, _ => .error e
      | none, .null _ => if build = .debug then .error .assertion else .ok (.nullPointer, d)
      | none, .bytes data _ =>
        if 64 + data.length ≤ 2 ^ 29 then
          .ok (handOut (macTag (digestOf build) (macKey (digestOf build) (keyOf build ik)) data) d)
        else .error .outOfBounds := by
  rw [computeHMACInScope_result]
  match hkey : keyFault ik, m with
  | some e, m =>
    have hstop := fault_bind (construct_stops build hkey) fun _ => do
      let res ← update build m
      if res = .ok then result build d else pure (res, d)
    rw [computeHMAC, hstop]
    rfl
  | none, .null n =>
    obtain ⟨es, s, hnew, hs⟩ := construct_runs build hkey
    cases build <;> simp [computeHMAC, hnew.run_eq, update, emshaCheck, Except.map]
  | none, .bytes data fits =>
    obtain ⟨es, s, hnew, hs⟩ := construct_runs build hkey
    rw [← tagOf_keyBlock]
    by_cases hle : 64 + data.length ≤ 2 ^ 29
    · obtain ⟨fs, t, hupdate, ht⟩ := update_tracks fits hs hle
      obtain ⟨gs, u, hresult⟩ := result_handOut d ht
      have hrest := hupdate.bind (f := fun res =>
        if res = .ok then result build d else pure (res, d)) (by simpa using hresult)
      have hcompute : computeHMAC build ik (.bytes data fits) d = _ := hnew.seq hrest
      simp only [hcompute, if_pos hle]
      rfl
    · have hstop := hnew.fault_bind (f := fun _ => do
        let res ← update build (.bytes data fits)
        if res = .ok then result build d else pure (res, d))
        (fault_bind (update_beyond fits hs (by simpa using hle)) _)
      simp only [if_neg hle, computeHMAC, hstop]
      rfl

end LibEmsha.HMAC
