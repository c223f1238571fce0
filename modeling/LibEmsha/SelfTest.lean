import LibEmsha.HexString
import LibEmsha.SHA256.Faults

/-!
# The self-test

`SHA256SelfTest` hashes two messages and compares the digests with stored ones, each several times.
It reports a difference on `stderr`, with `HexString`. What one test does is known for every message
and every expected digest (`runTest_outcome`): it tells the digests apart, but the digest that it
reports as wanted is that of its second message, whatever was expected.
-/

namespace LibEmsha
open Traced Blocks

/-! ## The tests -/

def emptyVector : Digest := #v[
  0xe3, 0xb0, 0xc4, 0x42,
  0x98, 0xfc, 0x1c, 0x14,
  0x9a, 0xfb, 0xf4, 0xc8,
  0x99, 0x6f, 0xb9, 0x24,
  0x27, 0xae, 0x41, 0xe4,
  0x64, 0x9b, 0x93, 0x4c,
  0xa4, 0x95, 0x99, 0x1b,
  0x78, 0x52, 0xb8, 0x55]

def helloWorld : Digest := #v[
  0x09, 0xca, 0x7e, 0x4e,
  0xaa, 0x6e, 0x8a, 0xe9,
  0xc7, 0xd2, 0x61, 0x16,
  0x71, 0x29, 0x18, 0x48,
  0x83, 0x64, 0x4d, 0x07,
  0xdf, 0xba, 0x7c, 0xbf,
  0xbc, 0x4c, 0x8a, 0x2e,
  0x08, 0x36, 0x0d, 0x5b]

/-- `EMSHA_SELF_TEST_ITERS`. -/
def selfTestIters : ℕ := 4

/-- The characters of a string literal. -/
def literal (text : String) : List UInt8 := text.toUTF8.data.toList

/-- What is printed of an array of characters: those before the first zero. -/
def cString (chars : List UInt8) : List UInt8 := chars.takeWhile (· ≠ 0)

/-- The local variables of `runTest` but for `res`, and what was written to `stderr`. -/
structure TestFrame where
  hexString : List UInt8
  d : Digest
  ctx : SHA256
  stderr : List UInt8

/-- The variables as `runTest` initialises them. -/
def TestFrame.start (stderr : List UInt8) : TestFrame where
  hexString := List.replicate 65 0
  d := Vector.replicate 32 0
  ctx := SHA256.fresh
  stderr := stderr

abbrev TestMember (α : Type) : Type := Traced Fault Event TestFrame α

namespace SelfTest

/-- A member function of `ctx`. -/
def onCtx {α : Type} (x : SHA256.Member α) : TestMember α :=
  zoom TestFrame.ctx (fun ctx s => { s with ctx := ctx }) x

/-- `ctx.Result(d)`. -/
def resultIntoD (build : Build) : TestMember EMSHAResult := do
  let (res, d) ← onCtx (SHA256.result build (some (← getState).d))
  modifyState fun s => { s with d := d.getD s.d }
  return res

/-- Keep the array that `HexString` wrote to, or stop with its fault. -/
def keepHex : Except Fault (Unit × HexState) → TestMember Unit
  | .ok (_, h) => modifyState fun s => { s with hexString := h.dest }
  | .error e => throw e

/-- The length of a digest is a `uint32_t`. -/
theorem digest_fits : 32 < 2 ^ 32 := by decide

/-- `HexString(hexString, src, 32)`. -/
def fillHex (table : HexTable) (sizeBits : ℕ) (src : Digest) : TestMember Unit := do
  let s ← getState
  keepHex (hexString table sizeBits s.hexString (.ofVector src digest_fits)).result

/-- `std::cerr << label << hexString << "\n"`, with the digits of `src` in `hexString`. -/
def printHex (table : HexTable) (sizeBits : ℕ) (label : String) (src : Digest) :
    TestMember Unit := do
  fillHex table sizeBits src
  modifyState fun s =>
    { s with stderr := s.stderr ++ (literal label ++ cString s.hexString ++ literal "\n") }

/-- The report of a difference. -/
def report (table : HexTable) (sizeBits : ℕ) : TestMember (Option EMSHAResult) := do
  printHex table sizeBits "[!] have: " (← getState).d
  printHex table sizeBits "[!] want: " helloWorld
  return some .testFailure

/-- The loop that compares the bytes; a code if it returns from the function. -/
def compareBytes (table : HexTable) (sizeBits : ℕ) (expected : Digest) :
    List (Fin 32) → TestMember (Option EMSHAResult)
  | [] => pure none
  | i :: is => do
    let s ← getState
    if expected[i] ≠ s.d[i] then report table sizeBits
    else compareBytes table sizeBits expected is

/-- The loop over `n`, so many times. -/
def iterate (build : Build) (table : HexTable) (sizeBits : ℕ) (expected : Digest) :
    ℕ → TestMember EMSHAResult
  | 0 => pure .ok
  | n + 1 => do
    let res ← resultIntoD build
    if res ≠ .ok then pure res
    else
      let failed ← compareBytes table sizeBits expected (List.finRange 32)
      match failed with
      | some res => pure res
      | none => iterate build table sizeBits expected n

/-- The body of `runTest`. -/
def body (build : Build) (table : HexTable) (sizeBits : ℕ) (input : Input) (expected : Digest) :
    TestMember EMSHAResult := do
  let res ← onCtx (SHA256.update build input)
  if res ≠ .ok then pure res
  else iterate build table sizeBits expected selfTestIters

end SelfTest

/-- `runTest`, on `stderr`. -/
def runTest (build : Build) (table : HexTable) (sizeBits : ℕ) (input : Input) (expected : Digest) :
    Traced Fault Event (List UInt8) EMSHAResult :=
  zoom TestFrame.start (fun s _ => s.stderr) (SelfTest.body build table sizeBits input expected)

/-- `SHA256SelfTest`, on `stderr`. -/
def sha256SelfTest (build : Build) (table : HexTable) (sizeBits : ℕ) :
    Traced Fault Event (List UInt8) EMSHAResult := do
  let res ← runTest build table sizeBits (.bytes [] (by decide)) emptyVector
  if res = .ok then
    let res ← runTest build table sizeBits (.bytes (literal "hello, world") (by decide)) helloWorld
    if res ≠ .ok then
      modifyState (· ++ literal "[!] failed on hello, world.\n")
      return res
    else pure res
  else
    modifyState (· ++ literal "[!] failed on empty vector\n")
    return res

namespace SelfTest

variable (build : Build) (table : HexTable) {sizeBits : ℕ} {expected : Digest} {s : TestFrame}
  {t : HashState}

/-! ## The report -/

/-- A line of the report. -/
def line (label : String) (d : Digest) : List UInt8 :=
  literal label ++ Hex.encode d.toList ++ literal "\n"

/-- The array that the digits are written to still ends with a zero. -/
structure Terminated (s : TestFrame) : Prop where
  length : s.hexString.length = 65
  last : s.hexString.drop 64 = [0]

/-- What is printed of the array is the digits. -/
theorem cString_encode (bs : List UInt8) : cString (Hex.encode bs ++ [0]) = Hex.encode bs := by
  have hdigit : ∀ c ∈ Hex.encode bs, (decide (c ≠ 0)) = true := by
    intro c hc
    have hc' := Hex.isDigit_of_mem_encode hc
    rw [decide_eq_true_eq]
    rintro rfl
    exact absurd hc' (by decide)
  rw [cString, List.takeWhile_append_of_pos hdigit]
  simp

theorem fillHex_runs (hsize : 16 ≤ sizeBits) (src : Digest) (hs : Terminated s) :
    Runs (fillHex table sizeBits src) s [] ()
      { s with hexString := Hex.encode src.toList ++ [0] } := by
  have hbits : 2 * src.toList.length < 2 ^ sizeBits := by
    have hle : 2 ^ 16 ≤ 2 ^ sizeBits := Nat.pow_le_pow_right (by decide) hsize
    rw [Vector.length_toList]
    omega
  have hwritten : hexString table sizeBits s.hexString (.ofVector src digest_fits) = _ :=
    hexString_eq table (by simp) hbits (by simp [hs.length])
  simp only [Vector.length_toList] at hwritten
  simp [Runs, fillHex, keepHex, hwritten, hs.last]

theorem printHex_runs (hsize : 16 ≤ sizeBits) (label : String) (src : Digest)
    (hs : Terminated s) :
    ∃ u, Runs (printHex table sizeBits label src) s [] () u ∧ Terminated u ∧
      u.d = s.d ∧ u.stderr = s.stderr ++ line label src := by
  have hprint := (fillHex_runs table hsize src hs).bind (f := fun _ => modifyState fun s =>
    { s with stderr := s.stderr ++ (literal label ++ cString s.hexString ++ literal "\n") }) rfl
  refine ⟨_, hprint, ⟨by simp, ?_⟩, rfl, ?_⟩
  · exact List.drop_left' (by simp)
  · simp only [cString_encode, line]

theorem report_runs (hsize : 16 ≤ sizeBits) (hs : Terminated s) :
    ∃ u, Runs (report table sizeBits) s [] (some .testFailure) u ∧
      u.stderr = s.stderr ++ line "[!] have: " s.d ++ line "[!] want: " helloWorld := by
  obtain ⟨u, hhave, hu, -, hstderr⟩ := printHex_runs table hsize "[!] have: " s.d hs
  obtain ⟨v, hwant, -, -, hstderr'⟩ := printHex_runs table hsize "[!] want: " helloWorld hu
  refine ⟨v, hhave.bind (hwant.bind (.pure _ v)), ?_⟩
  rw [hstderr', hstderr]

/-! ## One test -/

/-- The bytes are compared up to the first difference. -/
theorem run_compareBytes (is : List (Fin 32)) (s : TestFrame) :
    (compareBytes table sizeBits expected is).run s =
      if is.all fun i => expected[i] = s.d[i] then ⟨[], .ok (none, s)⟩
      else (report table sizeBits).run s := by
  induction is with
  | nil => simp [compareBytes]
  | cons i is ih => by_cases h : expected[i.val] = s.d[i.val] <;> simp [compareBytes, h, ih]

/-- `ctx` hashed the message of `t`, and nothing was reported. -/
structure Quiet (stderr : List UInt8) (t : HashState) (s : TestFrame) : Prop where
  ctx : s.ctx.Tracks t
  terminated : Terminated s
  stderr : s.stderr = stderr

theorem resultIntoD_runs {stderr : List UInt8} (hs : Quiet stderr t s) :
    ∃ es u, Runs (resultIntoD build) s es .ok u ∧ Quiet stderr (.done t.message) u ∧
      u.d = digestOf build t.message := by
  obtain ⟨es, ctx, hresult, hctx⟩ := SHA256.result_tracks build s.d hs.ctx
  exact ⟨es, { s with ctx := ctx, d := digestOf build t.message },
    by simp [Runs, resultIntoD, onCtx, zoom, hresult.run_eq, Except.map],
    ⟨hctx, ⟨hs.terminated.length, hs.terminated.last⟩, hs.stderr⟩, rfl⟩

/-- The digest is the expected one each time. -/
theorem iterate_passes (n : ℕ) {stderr : List UInt8} (hs : Quiet stderr t s)
    (hdigest : digestOf build t.message = expected) :
    ∃ es u, Runs (iterate build table sizeBits expected n) s es .ok u ∧ u.stderr = stderr := by
  induction n generalizing s t with
  | zero => exact ⟨[], s, .pure EMSHAResult.ok s, hs.stderr⟩
  | succ n ih =>
    obtain ⟨es, u, hresult, hu, hd⟩ := resultIntoD_runs build hs
    obtain ⟨fs, v, hrest, hv⟩ := ih hu hdigest
    have hcompare : Runs (compareBytes table sizeBits expected (List.finRange 32)) u [] none u := by
      rw [Runs, run_compareBytes, if_pos (by simp [hd, hdigest])]
    exact ⟨_, v, hresult.bind (by simpa using hcompare.bind hrest), hv⟩

/-- It is not the first time. -/
theorem iterate_fails (hsize : 16 ≤ sizeBits) (n : ℕ) {stderr : List UInt8} (hs : Quiet stderr t s)
    (hdigest : digestOf build t.message ≠ expected) :
    ∃ es u, Runs (iterate build table sizeBits expected (n + 1)) s es .testFailure u ∧
      u.stderr = stderr ++ line "[!] have: " (digestOf build t.message) ++
        line "[!] want: " helloWorld := by
  obtain ⟨es, u, hresult, hu, hd⟩ := resultIntoD_runs build hs
  obtain ⟨v, hreport, hv⟩ := report_runs table hsize hu.terminated
  rw [hu.stderr, hd] at hv
  have hne : ¬ ((List.finRange 32).all fun i => expected[i] = u.d[i]) := fun h => by
    refine hdigest (hd ▸ Vector.ext fun i hi => ?_)
    exact (decide_eq_true_iff.mp (List.all_eq_true.mp h ⟨i, hi⟩ (List.mem_finRange _))).symm
  have hcompare : Runs (compareBytes table sizeBits expected (List.finRange 32)) u []
      (some .testFailure) v := by
    rw [Runs, run_compareBytes, if_neg hne]
    exact hreport
  have hrest := hcompare.bind (f := fun failed => match failed with
    | some res => pure res
    | none => iterate build table sizeBits expected n) (.pure EMSHAResult.testFailure v)
  exact ⟨_, v, hresult.bind (by simpa using hrest), hv⟩

/-- The message is hashed, if it can be read. -/
theorem ctxUpdate_runs {input : Input} (hnull : ¬ (input.isNull = true ∧ input.length ≠ 0))
    (hle : input.data.length ≤ 2 ^ 29) (stderr : List UInt8) :
    ∃ es u, Runs (onCtx (SHA256.update build input)) (TestFrame.start stderr) es .ok u ∧
      Quiet stderr (.absorbing input.data) u := by
  have hupdate : ∃ es ctx, Runs (SHA256.update build input) SHA256.fresh es .ok ctx ∧
      ctx.Tracks (.absorbing input.data) := by
    cases input with
    | null n =>
      have hn : n = 0 := by simpa using hnull
      exact ⟨[], SHA256.fresh, by simp [Runs, SHA256.update, hn], SHA256.tracks_fresh⟩
    | bytes data fits =>
      simpa using SHA256.update_tracks build fits SHA256.tracks_fresh (by simpa using hle)
  obtain ⟨es, ctx, hrun, hctx⟩ := hupdate
  have hzoom : Runs (onCtx (SHA256.update build input)) (TestFrame.start stderr) es .ok _ :=
    Runs.zoom hrun
  exact ⟨es, _, hzoom, hctx, ⟨rfl, rfl⟩, rfl⟩

/-- A test that expects the digest of its message passes. -/
theorem runTest_passes (input : Input) (hnull : ¬ (input.isNull = true ∧ input.length ≠ 0))
    (hle : input.data.length ≤ 2 ^ 29) (hdigest : digestOf build input.data = expected)
    (stderr : List UInt8) :
    ((runTest build table sizeBits input expected).run stderr).result = .ok (.ok, stderr) := by
  obtain ⟨es, u, hupdate, hu⟩ := ctxUpdate_runs build hnull hle stderr
  obtain ⟨fs, v, hpass, hv⟩ := iterate_passes build table selfTestIters hu hdigest
  have hbody : Runs (body build table sizeBits input expected) (TestFrame.start stderr) _ .ok v :=
    hupdate.bind (by simpa using hpass)
  have hrun : (runTest build table sizeBits input expected).run stderr = _ := hbody.zoom
  rw [hrun, hv]

end SelfTest

/-- The result of one test, and `stderr` after it. -/
def testOutcome (build : Build) (input : Input) (expected : Digest) (stderr : List UInt8) :
    Except Fault (EMSHAResult × List UInt8) :=
  if input.isNull = true ∧ input.length ≠ 0 then .ok (.nullPointer, stderr)
  else if 2 ^ 29 < input.data.length then .error .outOfBounds
  else if digestOf build input.data = expected then .ok (.ok, stderr)
  else .ok (.testFailure, stderr ++ SelfTest.line "[!] have: " (digestOf build input.data) ++
    SelfTest.line "[!] want: " helloWorld)

open SelfTest in
/-- The outcome of one test, for every message and every expected digest: `OK` without a word if the
digest is the expected one each time, and otherwise a failure with two lines on `stderr`, of which
the second has the digest of the second message whatever was expected. A null pointer is reported
by its code only, and a message of more than `2 ^ 29` bytes stops the test. -/
theorem runTest_outcome (build : Build) (table : HexTable) {sizeBits : ℕ} (hsize : 16 ≤ sizeBits)
    (input : Input) (expected : Digest) (stderr : List UInt8) :
    ((runTest build table sizeBits input expected).run stderr).result =
      testOutcome build input expected stderr := by
  unfold testOutcome
  by_cases hnull : input.isNull = true ∧ input.length ≠ 0
  · rw [if_pos hnull]
    cases input with
    | null n =>
      have hn : n ≠ 0 := hnull.2
      simp [runTest, body, zoom, onCtx, SHA256.update, hn, Except.map, TestFrame.start]
    | bytes data fits => simp at hnull
  rw [if_neg hnull]
  by_cases hlong : 2 ^ 29 < input.data.length
  · rw [if_pos hlong]
    cases input with
    | null n => simp at hlong
    | bytes data fits =>
      refine fault_zoom (fault_bind (fault_zoom ?_) _)
      exact SHA256.update_beyond build fits SHA256.tracks_fresh (by simpa using hlong)
  rw [if_neg hlong]
  by_cases hdigest : digestOf build input.data = expected
  · rw [if_pos hdigest]
    exact runTest_passes build table input hnull (Nat.not_lt.mp hlong) hdigest stderr
  · rw [if_neg hdigest]
    obtain ⟨es, u, hupdate, hu⟩ := ctxUpdate_runs build hnull (Nat.not_lt.mp hlong) stderr
    obtain ⟨fs, v, hfail, hv⟩ := iterate_fails build table hsize 3 hu hdigest
    have hbody : Runs (body build table sizeBits input expected) (TestFrame.start stderr) _
        .testFailure v := hupdate.bind (by simpa [selfTestIters] using hfail)
    have hrun : (runTest build table sizeBits input expected).run stderr = _ := hbody.zoom
    rw [hrun, hv]
    rfl

/-! ## The two tests of the library -/

/-- The block that is compressed for the empty message. -/
def emptyBlock : Block := ⟨⟨0x80 :: List.replicate 63 0⟩, by decide⟩

/-- The block that is compressed for `hello, world`. -/
def helloBlock : Block :=
  ⟨⟨[0x68, 0x65, 0x6c, 0x6c, 0x6f, 0x2c, 0x20, 0x77, 0x6f, 0x72, 0x6c, 0x64, 0x80] ++
    List.replicate 50 0 ++ [0x60]⟩, by decide⟩

/-- The digest of a message that takes one block. -/
theorem digestOf_of_block (build : Build) {m : List UInt8} {v : Block} (hm : m.length < 2 ^ 29)
    (hv : padded m = v.toList) (d : Digest) :
    digestOf build m = writeDigest (compress emsha256H0 v) d := by
  have hcut : cut 64 (padded m) = ([v], []) := by simpa [hv] using cut_eq [v] (r := []) (by simp)
  rw [digestOf_eq build hm d, hashOf, blocksOf, hcut]
  rfl

set_option maxRecDepth 100000 in
theorem digestOf_empty (build : Build) : digestOf build [] = emptyVector := by
  rw [digestOf_of_block build (v := emptyBlock) (by decide) (by decide +kernel)
    (Vector.replicate 32 0)]
  decide +kernel

set_option maxRecDepth 100000 in
theorem digestOf_hello (build : Build) : digestOf build (literal "hello, world") = helloWorld := by
  rw [digestOf_of_block build (v := helloBlock) (by decide) (by decide +kernel)
    (Vector.replicate 32 0)]
  decide +kernel

/-- The empty message does not have the digest of the other one. -/
theorem runTest_outcome_mismatch :
    ((runTest .ndebug .hexLut 64 (.bytes [] (by decide)) helloWorld).run []).result =
      .ok (.testFailure, SelfTest.line "[!] have: " emptyVector ++
        SelfTest.line "[!] want: " helloWorld) := by
  have houtcome := runTest_outcome .ndebug .hexLut (show 16 ≤ 64 by decide)
    (.bytes [] (by decide)) helloWorld []
  have hne : emptyVector ≠ helloWorld := by decide
  simpa [testOutcome, digestOf_empty, hne] using houtcome

/-- The self-test passes in every build and reports nothing. -/
theorem sha256SelfTest_ok (build : Build) (table : HexTable) (sizeBits : ℕ)
    (stderr : List UInt8) :
    ((sha256SelfTest build table sizeBits).run stderr).result = .ok (.ok, stderr) := by
  have hfirst : ((runTest build table sizeBits (.bytes [] (by decide)) emptyVector).run
      stderr).result = .ok (.ok, stderr) :=
    SelfTest.runTest_passes build table (.bytes [] _) (by simp) (Nat.zero_le _)
      (digestOf_empty build) stderr
  have hsecond : ((runTest build table sizeBits (.bytes (literal "hello, world") (by decide))
      helloWorld).run stderr).result = .ok (.ok, stderr) :=
    SelfTest.runTest_passes build table (.bytes _ _) (by simp)
      (show (literal "hello, world").length ≤ _ by decide) (digestOf_hello build) stderr
  rw [sha256SelfTest, result_bind hfirst, if_pos rfl, result_bind hsecond]
  rfl

end LibEmsha
