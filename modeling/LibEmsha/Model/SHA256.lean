import LibEmsha.Model.Interface

/-!
# SHA-256 as the library computes it

The functions of `internal.h`, the class `SHA256` and `SHA256Digest`. Arithmetic is that of
the machine words. A local array that the source leaves uninitialised starts with zeros here;
every entry is written before it is read.
-/

namespace LibEmsha
open Traced

/-! ## Bit functions -/

def rotr32 (x : UInt32) (n : UInt8) : UInt32 := (x >>> n.toUInt32) ||| (x <<< (32 - n.toUInt32))

def sha_ch (x y z : UInt32) : UInt32 := (x &&& y) ^^^ (~~~x &&& z)

def sha_maj (x y z : UInt32) : UInt32 := (x &&& y) ^^^ (x &&& z) ^^^ (y &&& z)

def sha_Sigma0 (x : UInt32) : UInt32 := rotr32 x 2 ^^^ rotr32 x 13 ^^^ rotr32 x 22

def sha_Sigma1 (x : UInt32) : UInt32 := rotr32 x 6 ^^^ rotr32 x 11 ^^^ rotr32 x 25

def sha_sigma0 (x : UInt32) : UInt32 := rotr32 x 7 ^^^ rotr32 x 18 ^^^ (x >>> 3)

def sha_sigma1 (x : UInt32) : UInt32 := rotr32 x 17 ^^^ rotr32 x 19 ^^^ (x >>> 10)

/-! ## Constants -/

def sha256K : Vector UInt32 64 := #v[
  0x428a2f98, 0x71374491, 0xb5c0fbcf, 0xe9b5dba5,
  0x3956c25b, 0x59f111f1, 0x923f82a4, 0xab1c5ed5,
  0xd807aa98, 0x12835b01, 0x243185be, 0x550c7dc3,
  0x72be5d74, 0x80deb1fe, 0x9bdc06a7, 0xc19bf174,
  0xe49b69c1, 0xefbe4786, 0x0fc19dc6, 0x240ca1cc,
  0x2de92c6f, 0x4a7484aa, 0x5cb0a9dc, 0x76f988da,
  0x983e5152, 0xa831c66d, 0xb00327c8, 0xbf597fc7,
  0xc6e00bf3, 0xd5a79147, 0x06ca6351, 0x14292967,
  0x27b70a85, 0x2e1b2138, 0x4d2c6dfc, 0x53380d13,
  0x650a7354, 0x766a0abb, 0x81c2c92e, 0x92722c85,
  0xa2bfe8a1, 0xa81a664b, 0xc24b8b70, 0xc76c51a3,
  0xd192e819, 0xd6990624, 0xf40e3585, 0x106aa070,
  0x19a4c116, 0x1e376c08, 0x2748774c, 0x34b0bcb5,
  0x391c0cb3, 0x4ed8aa4a, 0x5b9cca4f, 0x682e6ff3,
  0x748f82ee, 0x78a5636f, 0x84c87814, 0x8cc70208,
  0x90befffa, 0xa4506ceb, 0xbef9a3f7, 0xc67178f2]

def emsha256H0 : Chain := #v[
  0x6A09E667, 0xBB67AE85, 0x3C6EF372, 0xA54FF53A,
  0x510E527F, 0x9B05688C, 0x1F83D9AB, 0x5BE0CD19]

/-! ## The compression of one block -/

/-- `chunkToUint32`, on the message block. -/
def chunkToUint32 (mb : Block) (offset : ℕ) (h : offset + 4 ≤ 64) : UInt32 :=
  Nat.fold 4 (fun i hi chunk =>
    have hindex : offset + i < 64 := by omega
    (chunk <<< 8) + mb[offset + i].toUInt32) 0

/-- The first sixteen words, `while (i < 16)`. -/
def loadWords (mb : Block) : Vector UInt32 64 :=
  Nat.fold 16 (fun i hi w => w.set i (chunkToUint32 mb (4 * i) (by omega)))
    (Vector.replicate 64 0)

/-- The other words, `for (i = 16; i < 64; i++)`; the index here counts from 0. -/
def expandWords (w : Vector UInt32 64) : Vector UInt32 64 :=
  Nat.fold 48 (fun i hi w => w.set (16 + i)
    (sha_sigma1 w[16 + i - 2] + w[16 + i - 7] + sha_sigma0 w[16 + i - 15] + w[16 + i - 16])) w

/-- The working variables of `updateMessageBlock`. -/
structure Registers where
  a : UInt32
  b : UInt32
  c : UInt32
  d : UInt32
  e : UInt32
  f : UInt32
  g : UInt32
  h : UInt32

/-- One pass of `for (i = 0; i < 64; i++)`. -/
def roundStep (w : Vector UInt32 64) (i : ℕ) (hi : i < 64) (v : Registers) : Registers :=
  let t1 := v.h + sha_Sigma1 v.e + sha_ch v.e v.f v.g + sha256K[i] + w[i]
  let t2 := sha_Sigma0 v.a + sha_maj v.a v.b v.c
  { h := v.g, g := v.f, f := v.e, e := v.d + t1, d := v.c, c := v.b, b := v.a, a := t1 + t2 }

/-- The working variables after the 64 rounds. -/
def rounds (w : Vector UInt32 64) (iHash : Chain) : Registers :=
  Nat.fold 64 (roundStep w)
    ⟨iHash[0], iHash[1], iHash[2], iHash[3], iHash[4], iHash[5], iHash[6], iHash[7]⟩

/-- `i_hash[0] += a` and so on. -/
def Registers.addTo (v : Registers) (iHash : Chain) : Chain :=
  #v[iHash[0] + v.a, iHash[1] + v.b, iHash[2] + v.c, iHash[3] + v.d,
    iHash[4] + v.e, iHash[5] + v.f, iHash[6] + v.g, iHash[7] + v.h]

/-- The intermediate hash that `updateMessageBlock` leaves. -/
def compress (iHash : Chain) (mb : Block) : Chain :=
  (rounds (expandWords (loadWords mb)) iHash).addTo iHash

/-! ## The class -/

/-- An object of the class `SHA256`. -/
structure SHA256 where
  mlen : UInt64
  iHash : Chain
  hStatus : EMSHAResult
  hComplete : UInt8
  mbi : UInt8
  mb : Block
  deriving DecidableEq

/-- A member function of `SHA256`. -/
abbrev SHA256.Member (α : Type) : Type := Traced Fault Event SHA256 α

namespace SHA256

/-- The state that `reset` assigns, whatever was there before. -/
def fresh : SHA256 where
  mlen := 0
  iHash := emsha256H0
  hStatus := .ok
  hComplete := 0
  mbi := 0
  mb := Vector.replicate 64 0

def reset : Member EMSHAResult := do
  modifyState fun _ => fresh
  return (← getState).hStatus

def Reset : Member EMSHAResult := reset

/-- The destructor. -/
def destructor : Member Unit := modifyState fun s => { s with mb := Vector.replicate 64 0 }

/-- `mb[mbi++] = x`. -/
def store (x : UInt8) : Member Unit := do
  let s ← getState
  emit (.store s.mbi)
  if h : s.mbi.toNat < 64 then
    modifyState fun _ => { s with mb := s.mb.set s.mbi.toNat x h, mbi := s.mbi + 1 }
  else
    throw .outOfBounds

/-- Count `l` more bits, in 32 bits although `mlen` has 64. -/
def addLength (build : Build) (l : UInt32) : Member EMSHAResult := do
  let s ← getState
  let tmp : UInt32 := s.mlen.toUInt32 + l
  if s.mlen ≤ tmp.toUInt64 then
    modifyState fun s => { s with mlen := tmp.toUInt64 }
    assert build (0 < tmp.toUInt64)
    emit (.addLength .ok)
    return .ok
  else
    emit (.addLength .inputTooLong)
    return .inputTooLong

def updateMessageBlock : Member Unit := do
  let s ← getState
  emit (.updateMessageBlock s.iHash s.mb (compress s.iHash s.mb))
  modifyState fun s => { s with mbi := 0, iHash := compress s.iHash s.mb }

/-- One pass of the loop of `Update`. The code of `addLength` is only looked at here: when it
is not `OK` the block is not compressed, and the loop goes on. -/
def absorb (build : Build) (b : UInt8) : Member Unit := do
  store b
  let res ← addLength build 8
  if res = .ok ∧ (← getState).mbi = 64 then
    updateMessageBlock
    assert build ((← getState).hStatus = .ok)
  else
    pure ()

/-- `Update`. -/
def update (build : Build) (message : Input) : Member EMSHAResult :=
  if message.length = 0 then pure .ok
  else
    match message with
    | .null _ => pure .nullPointer
    | .bytes data _ => do
      let s ← getState
      if s.hStatus ≠ .ok then pure s.hStatus
      else if s.hComplete ≠ 0 then pure .invalidState
      else
        each (absorb build) data
        return (← getState).hStatus

/-- `while (mbi < bound) mb[mbi++] = 0`. -/
def zeroFill (bound : ℕ) : Member Unit :=
  whileDo (fun s => bound - s.mbi.toNat) (fun s => s.mbi.toNat < bound) (store 0)

/-- The eight bytes of `mlen` at the end of the message block. -/
def packLength (mlen : UInt64) (mb : Block) : Block :=
  (((((((mb.set 56 (mlen >>> 56).toUInt8).set
    57 ((mlen &&& 0x00ff000000000000) >>> 48).toUInt8).set
    58 ((mlen &&& 0x0000ff0000000000) >>> 40).toUInt8).set
    59 ((mlen &&& 0x000000ff00000000) >>> 32).toUInt8).set
    60 ((mlen &&& 0x00000000ff000000) >>> 24).toUInt8).set
    61 ((mlen &&& 0x0000000000ff0000) >>> 16).toUInt8).set
    62 ((mlen &&& 0x000000000000ff00) >>> 8).toUInt8).set
    63 (mlen &&& 0x00000000000000ff).toUInt8

/-- The branch of `padMessage` for a message block with no room for the length: fill it up and
compress it. With only one byte left the marker goes to the next block, and a zero takes its
place. -/
def padBlock (build : Build) (pc : UInt8) : Member Unit := do
  if (← getState).mbi.toNat < 64 - 1 then
    store pc
    zeroFill 64
    updateMessageBlock
  else
    zeroFill 64
    updateMessageBlock
    store pc
  assert build ((← getState).hStatus = .ok)

/-- The end of `padMessage`: zeros, the length, and the last compression. -/
def padLength (build : Build) : Member Unit := do
  zeroFill (64 - 8)
  modifyState fun s => { s with mb := packLength s.mlen s.mb }
  updateMessageBlock
  assert build ((← getState).hStatus = .ok)

/-- Put the marker `pc`, zeros and the length behind the message, and compress. -/
def padMessage (build : Build) (pc : UInt8) : Member Unit := do
  let s ← getState
  assert build (s.hStatus = .ok)
  if s.mbi.toNat < 64 - 8 then
    store pc
  else
    padBlock build pc
  padLength build

end SHA256

/-- `uint32ToChunkInPlace(x, chunk + offset)`. -/
def uint32ToChunkInPlace (x : UInt32) (chunk : Digest) (offset : ℕ) (h : offset + 4 ≤ 32) :
    Digest :=
  (((chunk.set offset ((x &&& 0xff000000) >>> 24).toUInt8).set
    (offset + 1) ((x &&& 0x00ff0000) >>> 16).toUInt8).set
    (offset + 2) ((x &&& 0x0000ff00) >>> 8).toUInt8).set
    (offset + 3) (x &&& 0x000000ff).toUInt8

/-- The eight calls of `uint32ToChunkInPlace` that write a digest. -/
def writeDigest (iHash : Chain) (digest : Digest) : Digest :=
  Nat.fold 8 (fun i hi d => uint32ToChunkInPlace iHash[i] d (4 * i) (by omega)) digest

namespace SHA256

/-- `Finalise`: the code, and the destination afterwards. -/
def finalise (build : Build) (digest : Option Digest) : Member (EMSHAResult × Option Digest) :=
  match digest with
  | none => pure (.nullPointer, none)
  | some d => do
    let s ← getState
    if s.hStatus ≠ .ok then pure (s.hStatus, some d)
    else if s.hComplete ≠ 0 then pure (.invalidState, some d)
    else
      padMessage build 0x80
      assert build ((← getState).hStatus = .ok)
      modifyState fun s => { s with mb := Vector.replicate 64 0, hComplete := 1, mlen := 0 }
      return (.ok, some (writeDigest (← getState).iHash d))

/-- `Result`: the code, and the destination afterwards. -/
def result (build : Build) (digest : Option Digest) : Member (EMSHAResult × Option Digest) :=
  match digest with
  | none => pure (.nullPointer, none)
  | some d => do
    let s ← getState
    if s.hStatus ≠ .ok then pure (s.hStatus, some d)
    else if s.hComplete = 0 then finalise build (some d)
    else pure (.ok, some (writeDigest s.iHash d))

/-- `Size`. -/
def size : UInt32 := 32

/-- A call of the class `Hash` on a `SHA256` object. -/
def call (build : Build) : Call → Member Reply
  | .reset => do
    let res ← Reset
    return ⟨res, none⟩
  | .update m => do
    let res ← update build m
    return ⟨res, none⟩
  | .finalise d => do
    let (res, d') ← finalise build d
    return ⟨res, d'⟩
  | .result d => do
    let (res, d') ← result build d
    return ⟨res, d'⟩

/-- Run calls on an object that was just constructed. -/
def history (build : Build) (calls : List Call) : Outcome Fault Event SHA256 (List Reply) :=
  (answerAll (call build) calls).run fresh

end SHA256

/-- `SHA256Digest`, with what it leaves in its local object. -/
def sha256Digest (build : Build) (m : Input) (d : Option Digest) :
    Outcome Fault Event SHA256 (EMSHAResult × Option Digest) :=
  (do
    let ret ← SHA256.update build m
    if ret ≠ .ok then pure (ret, d) else SHA256.finalise build d : SHA256.Member _).run
    SHA256.fresh

end LibEmsha
