import LibEmsha.Library.Hex
import LibEmsha.Model.Interface

/-!
# Writing hexadecimal digits

`HexString`, with the two encoders that the build selects from: a table of all bytes, or a table of
the sixteen digits. Both write the digits of the bytes in order and nothing else
(`hexString_eq`).
-/

namespace LibEmsha
open Traced Hex

/-! ## The tables -/

/-- With or without `EMSHA_NO_HEXLUT`. -/
inductive HexTable where
  | hexLut | noHexLut
  deriving DecidableEq, Repr

/-- A byte of an array that a string literal initialises: the rest of the array is zero. -/
def byteAt (literal : String) (i : ℕ) : UInt8 := literal.toUTF8.data.getD i 0

set_option maxRecDepth 2000 in
/-- The table of `writeHexChar`. -/
def hexLut : Vector String 256 := #v[
  "00", "01", "02", "03", "04", "05", "06", "07", "08", "09", "0a", "0b", "0c", "0d", "0e", "0f",
  "10", "11", "12", "13", "14", "15", "16", "17", "18", "19", "1a", "1b", "1c", "1d", "1e", "1f",
  "20", "21", "22", "23", "24", "25", "26", "27", "28", "29", "2a", "2b", "2c", "2d", "2e", "2f",
  "30", "31", "32", "33", "34", "35", "36", "37", "38", "39", "3a", "3b", "3c", "3d", "3e", "3f",
  "40", "41", "42", "43", "44", "45", "46", "47", "48", "49", "4a", "4b", "4c", "4d", "4e", "4f",
  "50", "51", "52", "53", "54", "55", "56", "57", "58", "59", "5a", "5b", "5c", "5d", "5e", "5f",
  "60", "61", "62", "63", "64", "65", "66", "67", "68", "69", "6a", "6b", "6c", "6d", "6e", "6f",
  "70", "71", "72", "73", "74", "75", "76", "77", "78", "79", "7a", "7b", "7c", "7d", "7e", "7f",
  "80", "81", "82", "83", "84", "85", "86", "87", "88", "89", "8a", "8b", "8c", "8d", "8e", "8f",
  "90", "91", "92", "93", "94", "95", "96", "97", "98", "99", "9a", "9b", "9c", "9d", "9e", "9f",
  "a0", "a1", "a2", "a3", "a4", "a5", "a6", "a7", "a8", "a9", "aa", "ab", "ac", "ad", "ae", "af",
  "b0", "b1", "b2", "b3", "b4", "b5", "b6", "b7", "b8", "b9", "ba", "bb", "bc", "bd", "be", "bf",
  "c0", "c1", "c2", "c3", "c4", "c5", "c6", "c7", "c8", "c9", "ca", "cb", "cc", "cd", "ce", "cf",
  "d0", "d1", "d2", "d3", "d4", "d5", "d6", "d7", "d8", "d9", "da", "db", "dc", "dd", "de", "df",
  "e0", "e1", "e2", "e3", "e4", "e5", "e6", "e7", "e8", "e9", "ea", "eb", "ec", "ed", "ee", "ef",
  "f0", "f1", "f2", "f3", "f4", "f5", "f6", "f7", "f8", "f9", "fa", "fb", "fc", "fd", "fe", "ff"]

/-- The table of `writeHexChar` under `EMSHA_NO_HEXLUT`. -/
def noHexLut : Vector Char 16 := #v[
  '0', '1', '2', '3', '4', '5', '6', '7',
  '8', '9', 'a', 'b', 'c', 'd', 'e', 'f']

theorem toNat_high (src : UInt8) : ((src &&& 0xF0) >>> 4).toNat = src.toNat / 16 := by
  have hsrc := src.toNat_lt
  have hmask : (src.toNat &&& 0xF0) >>> 4 = src.toNat / 2 ^ 4 % 2 ^ 4 := by
    rw [Nat.shiftRight_and_distrib, Nat.shiftRight_eq_div_pow]
    exact Nat.and_two_pow_sub_one_eq_mod _ 4
  rw [UInt8.toNat_shiftRight, UInt8.toNat_and]
  change (src.toNat &&& 0xF0) >>> 4 = _
  omega

theorem toNat_low (src : UInt8) : (src &&& 0xF).toNat = src.toNat % 16 := by
  rw [UInt8.toNat_and]
  exact Nat.and_two_pow_sub_one_eq_mod _ 4

theorem high_lt (src : UInt8) : ((src &&& 0xF0) >>> 4).toNat < 16 := by
  have hsrc := src.toNat_lt
  rw [toNat_high]
  omega

theorem low_lt (src : UInt8) : (src &&& 0xF).toNat < 16 := by
  rw [toNat_low]
  omega

/-- The two bytes that `writeHexChar` reads from its table. -/
def hexChars (table : HexTable) (src : UInt8) : UInt8 × UInt8 :=
  match table with
  | .hexLut =>
    let row := hexLut.get ⟨src.toNat, src.toNat_lt⟩
    (byteAt row 0, byteAt row 1)
  | .noHexLut =>
    ((noHexLut.get ⟨_, high_lt src⟩).toUInt8, (noHexLut.get ⟨_, low_lt src⟩).toUInt8)

/-! ## The loop -/

/-- The destination and the variable `dp`. -/
structure HexState where
  dest : List UInt8
  dp : ℕ

/-- A computation on the destination. The log has the offsets written. -/
abbrev HexMember := Traced Fault ℕ HexState

/-- Write one byte of the destination. -/
def writeByte (offset : ℕ) (x : UInt8) : HexMember Unit := do
  let s ← getState
  emit offset
  if offset < s.dest.length then
    modifyState fun s => { s with dest := s.dest.set offset x }
  else
    throw .outOfBounds

/-- `writeHexChar`, on the destination from `offset` on. -/
def writeHexChar (table : HexTable) (offset : ℕ) (src : UInt8) : HexMember Unit := do
  writeByte offset (hexChars table src).1
  writeByte (offset + 1) (hexChars table src).2

/-- One pass of the loop; `dp` is a `size_t` of so many bits. -/
def hexPass (table : HexTable) (sizeBits : ℕ) (src : UInt8) : HexMember Unit := do
  writeHexChar table (← getState).dp src
  modifyState fun s => { s with dp := (s.dp + 2) % 2 ^ sizeBits }

/-- `HexString`. -/
def hexString (table : HexTable) (sizeBits : ℕ) (dest : List UInt8) (src : Input) :
    Outcome Fault ℕ HexState Unit :=
  (match src with
    | .null n => if n = 0 then pure () else throw .nullDereference
    | .bytes data _ => each (hexPass table sizeBits) data : HexMember Unit).run ⟨dest, 0⟩

/-! ## What is written -/

theorem hexLut_rows : hexLut.toList.map (fun row => (byteAt row 0, byteAt row 1)) =
    (List.range 256).map fun n => (digit (n / 16), digit (n % 16)) := by
  decide +kernel

theorem noHexLut_digits : noHexLut.toList.map Char.toUInt8 = (List.range 16).map digit := by
  decide +kernel

/-- Both tables have the digits of the byte. -/
theorem hexChars_eq (table : HexTable) (src : UInt8) :
    hexChars table src = (digit (src.toNat / 16), digit (src.toNat % 16)) := by
  cases table with
  | hexLut =>
    have hrow := congrArg (·[src.toNat]?) hexLut_rows
    simpa [src.toNat_lt, hexChars, Vector.get] using hrow
  | noHexLut =>
    have hentry : ∀ v (hv : v < 16), (noHexLut.get ⟨v, hv⟩).toUInt8 = digit v := fun v hv => by
      have hdigit := congrArg (·[v]?) noHexLut_digits
      simpa [hv, Vector.get] using hdigit
    rw [hexChars, hentry, hentry, toNat_high, toNat_low]

theorem writeByte_runs {s : HexState} (offset : ℕ) (x : UInt8) (h : offset < s.dest.length) :
    Runs (writeByte offset x) s [offset] () { s with dest := s.dest.set offset x } := by
  simp [Runs, writeByte, h]

/-- The digits of a byte go behind what was written, over two bytes of the destination. -/
theorem writeHexChar_runs (table : HexTable) (src : UInt8) {s : HexState} {front : List UInt8}
    {x y : UInt8} {rest : List UInt8} (hs : s.dest = front ++ x :: y :: rest) :
    Runs (writeHexChar table front.length src) s [front.length, front.length + 1] ()
      { s with dest := front ++ pair src ++ rest } := by
  have hfirst := writeByte_runs (s := s) front.length (hexChars table src).1 (by simp [hs])
  have hsecond := writeByte_runs
    (s := { s with dest := s.dest.set front.length (hexChars table src).1 })
    (front.length + 1) (hexChars table src).2 (by simp [hs])
  have hrun : Runs (writeHexChar table front.length src) s _ () _ := hfirst.bind hsecond
  simpa [hs, hexChars_eq, pair] using hrun

/-- The loop after the bytes `done`: their digits stand at the front of the destination, and the
offsets up to `dp` were written in order. -/
structure Written (dest done : List UInt8) (log : List ℕ) (s : HexState) : Prop where
  log : log = List.range (2 * done.length)
  dp : s.dp = 2 * done.length
  dest : s.dest = encode done ++ dest.drop (2 * done.length)

theorem hexPass_runs (table : HexTable) {sizeBits : ℕ} (b : UInt8) {dest done : List UInt8}
    {log : List ℕ} {s : HexState} (hs : Written dest done log s)
    (hdest : 2 * done.length + 2 ≤ dest.length) (hsize : 2 * done.length + 2 < 2 ^ sizeBits) :
    ∃ es t, Runs (hexPass table sizeBits b) s es () t ∧
      Written dest (done ++ [b]) (log ++ es) t := by
  obtain ⟨rfl, hdp, hfront⟩ := hs
  have hcut : dest.drop (2 * done.length) = dest[2 * done.length] :: dest[2 * done.length + 1] ::
      dest.drop (2 * done.length + 2) := by
    rw [List.drop_eq_getElem_cons (by omega), List.drop_eq_getElem_cons (by omega)]
  rw [hcut] at hfront
  have hwrite := writeHexChar_runs table b hfront
  have hlen : (encode done).length = s.dp := by rw [length_encode, hdp]
  rw [hlen] at hwrite
  have hget : Runs (getState : HexMember HexState) s [] s s := rfl
  have hpass : Runs (hexPass table sizeBits b) s _ () _ :=
    hget.bind (hwrite.bind (show Runs (modifyState _) _ [] () _ from rfl))
  refine ⟨_, _, hpass, ?_, ?_, ?_⟩
  · simp [hdp, Nat.mul_add, List.range_succ]
  · simp only [hdp, List.length_append, List.length_singleton, Nat.mod_eq_of_lt hsize]
    omega
  · simp [encode, Nat.mul_add]

/-- `HexString` writes the digits of the bytes to the front of the destination, at the offsets
below twice the length, in order. -/
theorem hexString_eq (table : HexTable) {sizeBits : ℕ} {dest src : List UInt8}
    (fits : src.length < 2 ^ 32) (hsize : 2 * src.length < 2 ^ sizeBits)
    (hdest : 2 * src.length ≤ dest.length) :
    hexString table sizeBits dest (.bytes src fits) = ⟨List.range (2 * src.length),
      .ok ((), ⟨encode src ++ dest.drop (2 * src.length), 2 * src.length⟩)⟩ := by
  have step : ∀ done b rest log s, src = done ++ b :: rest → Written dest done log s →
      ∃ es t, Runs (hexPass table sizeBits b) s es () t ∧
        Written dest (done ++ [b]) (log ++ es) t := by
    rintro done b rest log s rfl hs
    simp only [List.length_append, List.length_cons] at hsize hdest
    exact hexPass_runs table b hs (by omega) (by omega)
  have start : Written dest [] [] ⟨dest, 0⟩ := ⟨rfl, rfl, rfl⟩
  obtain ⟨es, ⟨out, dp⟩, hrun, hlog, rfl, rfl⟩ := Runs.each_rule step start
  rw [← hlog]
  exact hrun

/-! ## What comes out -/

/-- Within the bounds, both builds write the same digits to the first `2 * n` bytes of the
destination and nothing else. They are lower-case hexadecimal digits, they decode to the source,
and no other source is written so. -/
theorem hexString_encodes (sizeBits : ℕ) (dest src : List UInt8) (fits : src.length < 2 ^ 32)
    (hsize : 2 * src.length < 2 ^ sizeBits) (hdest : 2 * src.length ≤ dest.length) :
    let n := src.length
    ∃ out, (∀ table, hexString table sizeBits dest (.bytes src fits) =
        ⟨List.range (2 * n), .ok ((), ⟨out, 2 * n⟩)⟩) ∧
      out.length = dest.length ∧ out.drop (2 * n) = dest.drop (2 * n) ∧
      (∀ c ∈ out.take (2 * n), IsDigit c) ∧ decode (out.take (2 * n)) = some src ∧
      ∀ table dest' src' fits' log' out' dp', 2 * src'.length < 2 ^ sizeBits →
        2 * src'.length ≤ dest'.length →
        hexString table sizeBits dest' (.bytes src' fits') = ⟨log', .ok ((), ⟨out', dp'⟩)⟩ →
        out'.take (2 * src'.length) = out.take (2 * n) → src' = src := by
  intro n
  have htake : ∀ bs l : List UInt8, (encode bs ++ l).take (2 * bs.length) = encode bs :=
    fun bs l => List.take_left' (length_encode bs)
  refine ⟨encode src ++ dest.drop (2 * n), fun table => hexString_eq table fits hsize hdest, ?_,
    ?_, ?_, ?_, ?_⟩
  · simp only [List.length_append, length_encode, List.length_drop, n]
    omega
  · exact List.drop_left' (length_encode src)
  · rw [htake]
    exact fun c hc => isDigit_of_mem_encode hc
  · rw [htake, decode_encode]
  · intro table dest' src' fits' log' out' dp' hsize' hdest' hrun hout
    rw [hexString_eq table fits' hsize' hdest'] at hrun
    simp only [Outcome.mk.injEq, Except.ok.injEq, Prod.mk.injEq, HexState.mk.injEq] at hrun
    obtain ⟨-, -, rfl, -⟩ := hrun
    rw [htake, htake] at hout
    exact encode_injective hout

/-- Three bytes, with two bytes of the destination left over. -/
theorem hexString_encodes_three :
    ∃ out, (∀ table, hexString table 16 [1, 2, 3, 4, 5, 6, 7, 8]
        (.bytes [0x00, 0x9f, 0xff] (by decide)) = ⟨[0, 1, 2, 3, 4, 5], .ok ((), ⟨out, 6⟩)⟩) ∧
      out.length = 8 ∧ out.drop 6 = [7, 8] ∧ (∀ c ∈ out.take 6, IsDigit c) ∧
      decode (out.take 6) = some [0x00, 0x9f, 0xff] := by
  obtain ⟨out, hrun, hlength, hrest, hdigits, hdecode, -⟩ := hexString_encodes 16
    [1, 2, 3, 4, 5, 6, 7, 8] [0x00, 0x9f, 0xff] (by decide) (by decide) (by decide)
  exact ⟨out, hrun, hlength, hrest, hdigits, hdecode⟩

end LibEmsha
