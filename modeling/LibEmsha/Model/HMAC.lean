import LibEmsha.Model.SHA256

/-!
# HMAC as the library computes it

The class `HMAC` and `ComputeHMAC`. The member `ctx` is an object of the class `SHA256`; its
member functions run on that part of the state. The local array `key` is written in full before
it is read, and its wiping after the use is left out, since nothing reads it afterwards.
-/

namespace LibEmsha
open Traced

/-- The states of an `HMAC`, `HMAC_INIT` and so on. -/
inductive HMACState where
  | init | ipad | opad | fin | invalid
  deriving DecidableEq, Repr

/-- An object of the class `HMAC`. -/
structure HMAC where
  hstate : HMACState
  ctx : SHA256
  k : Block
  buf : Digest
  deriving DecidableEq

/-- A member function of `HMAC`. -/
abbrev HMAC.Member (α : Type) : Type := Traced Fault Event HMAC α

namespace HMAC

def ipad : UInt8 := 0x36

def opad : UInt8 := 0x5c

/-- The members as the initialiser list of the constructor leaves them. -/
def blank : HMAC where
  hstate := .init
  ctx := SHA256.fresh
  k := Vector.replicate 64 0
  buf := Vector.replicate 32 0

/-- A member function of `ctx`. -/
def onCtx {α : Type} (x : SHA256.Member α) : Member α :=
  zoom HMAC.ctx (fun ctx s => { s with ctx := ctx }) x

/-- A member function of `ctx` with `buf` as its destination. -/
def intoBuf (x : Option Digest → SHA256.Member (EMSHAResult × Option Digest)) :
    Member EMSHAResult := do
  let (res, d) ← onCtx (x (some (← getState).buf))
  modifyState fun s => { s with buf := d.getD s.buf }
  return res

/-- `ctx.Reset` leaves a new `ctx`. -/
theorem run_restart (s : HMAC) :
    (onCtx SHA256.Reset).run s = ⟨[], .ok (.ok, { s with ctx := SHA256.fresh })⟩ := rfl

/-- Give up on the object unless the code is `OK`. -/
def orInvalid {α : Type} (res : EMSHAResult) (retval : α) (rest : Member α) : Member α :=
  if res ≠ .ok then do
    modifyState fun s => { s with hstate := .invalid }
    return retval
  else rest

/-- `key[i] = k[i] ^ pad`, for all `i`. -/
def padKey (k : Block) (pad : UInt8) : Block := k.map (· ^^^ pad)

def reset (build : Build) : Member EMSHAResult := do
  let _ ← onCtx SHA256.Reset
  modifyState fun s => { s with buf := Vector.replicate 32 0 }
  let key := padKey (← getState).k ipad
  let res ← onCtx (SHA256.update build (.ofVector key (by decide)))
  orInvalid res res do
    modifyState fun s => { s with hstate := .ipad }
    return .ok

def Reset (build : Build) : Member EMSHAResult := reset build

/-! ## The constructor -/

/-- Write the bytes to the beginning of the key. -/
def writeKey (data : List UInt8) (k : Block) : Block :=
  Vector.ofFn fun i => if h : i < data.length then data[i] else k[i]

/-- The loop that copies `ikl` bytes of the argument. -/
def copyKey (ik : Input) : Member Unit :=
  match ik with
  | .null n => if n = 0 then pure () else throw .nullDereference
  | .bytes data _ => modifyState fun s => { s with k := writeKey data s.k }

/-- `while (ikl < HMAC_KEY_LENGTH) k[ikl++] = 0`. -/
def zeroKey (ikl : ℕ) : Member Unit :=
  modifyState fun s => { s with k := Vector.ofFn fun i => if i < ikl then s.k[i] else 0 }

/-- The branch for a key longer than a block: `k` gets its hash. The codes of `ctx.Update` and
of `ctx.Result` are returned here; the constructor looks at neither. -/
def hashKey (build : Build) (ik : Input) : Member (EMSHAResult × EMSHAResult) := do
  let res ← onCtx (SHA256.update build ik)
  let k := (← getState).k
  let (res', d) ← onCtx (SHA256.result build (some (Vector.ofFn fun i : Fin 32 => k[i])))
  modifyState fun s => { s with k := writeKey (d.elim [] Vector.toList) s.k }
  let _ ← onCtx SHA256.Reset
  return (res, res')

/-- The branches on the length of the key. -/
def setKey (build : Build) (ik : Input) : Member Unit :=
  if ik.length < 64 then do
    copyKey ik
    zeroKey ik.length.toNat
  else if 64 < ik.length then do
    let _ ← hashKey build ik
  else
    copyKey ik

/-- The body of the constructor. -/
def construct (build : Build) (ik : Input) : Member Unit := do
  setKey build ik
  let _ ← reset build

/-- The destructor: its body, and then the destructor of the member `ctx`. The other members have
none. -/
def destructor (build : Build) : Member Unit := do
  let _ ← reset build
  modifyState fun s => { s with k := Vector.replicate 64 0 }
  onCtx SHA256.destructor

/-! ## The interface of `Hash` -/

def update (build : Build) (message : Input) : Member EMSHAResult :=
  emshaCheck build (message.isNull = false) .nullPointer do
    let s ← getState
    emshaCheck build (s.hstate = .ipad) .invalidState do
      let res ← onCtx (SHA256.update build message)
      orInvalid res res do
        assert build ((← getState).hstate = .ipad)
        return .ok

/-- What `finalResult` does once the inner hash is in `buf`: the outer hash. -/
def outerHash (build : Build) (d : Digest) : Member (EMSHAResult × Option Digest) := do
  let _ ← onCtx SHA256.Reset
  let key := padKey (← getState).k opad
  let res ← onCtx (SHA256.update build (.ofVector key (by decide)))
  orInvalid res (res, some d) do
    modifyState fun s => { s with hstate := .opad }
    let res ← onCtx (SHA256.update build (.ofVector (← getState).buf (by decide)))
    orInvalid res (res, some d) do
      let res ← intoBuf (SHA256.finalise build)
      orInvalid res (res, some d) do
        assert build ((← getState).hstate = .opad)
        modifyState fun s => { s with hstate := .fin }
        return (.ok, some (← getState).buf)

/-- The code, and the destination afterwards. -/
def finalResult (build : Build) (d : Option Digest) : Member (EMSHAResult × Option Digest) :=
  match d with
  | none => pure (.nullPointer, none)
  | some d => do
    let s ← getState
    if s.hstate = .fin then pure (.ok, some s.buf)
    else
      emshaCheck build (s.hstate = .ipad) (.invalidState, some d) do
        let res ← intoBuf (SHA256.result build)
        orInvalid res (.invalidState, some d) do
          assert build ((← getState).hstate = .ipad)
          outerHash build d

def finalise (build : Build) (digest : Option Digest) : Member (EMSHAResult × Option Digest) :=
  finalResult build digest

def result (build : Build) (digest : Option Digest) : Member (EMSHAResult × Option Digest) :=
  finalResult build digest

/-- `Size`. -/
def size : UInt32 := 32

/-- A call of the class `Hash` on an `HMAC` object. -/
def call (build : Build) : Call → Member Reply
  | .reset => do
    let res ← Reset build
    return ⟨res, none⟩
  | .update m => do
    let res ← update build m
    return ⟨res, none⟩
  | .finalise d => do
    let (res, d') ← finalise build d
    return ⟨res, d'⟩
  | .result d => do
    let (res, d') ← result build d
    return ⟨res, d'⟩

/-- The life of an object: its construction, calls on it, and its destruction. -/
def lifetime (build : Build) (ik : Input) (calls : List Call) :
    Outcome Fault Event HMAC (List Reply) :=
  (do
    construct build ik
    let replies ← answerAll (call build) calls
    destructor build
    return replies : Member _).run blank

end HMAC

/-- `ComputeHMAC`, with what it leaves in its local object. -/
def computeHMAC (build : Build) (k m : Input) (d : Option Digest) :
    Outcome Fault Event HMAC (EMSHAResult × Option Digest) :=
  (do
    HMAC.construct build k
    let res ← HMAC.update build m
    if res = .ok then HMAC.result build d else pure (res, d) : HMAC.Member _).run HMAC.blank

/-- `ComputeHMAC` to the end of its scope, where its local object is destroyed. -/
def computeHMACInScope (build : Build) (k m : Input) (d : Option Digest) :
    Outcome Fault Event HMAC (EMSHAResult × Option Digest) :=
  (computeHMAC build k m d).andThen fun r => do
    HMAC.destructor build
    return r

end LibEmsha
