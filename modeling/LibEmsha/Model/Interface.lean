import Mathlib.Algebra.GroupWithZero.Nat
import LibEmsha.Library.Machine

/-!
# The interface of the library

Result codes, the arguments that callers pass, the two ways of building the library and the
calls of the abstract class `Hash`, which both `SHA256` and `HMAC` implement.

Pointers are modelled by what they point to. A source pointer comes with its length, and the
caller's promise that so many bytes can be read is part of the value (`Input.bytes`); a
destination is null or a buffer of the 32 bytes that a digest takes.
-/

namespace LibEmsha
open Traced

/-- The codes of `EMSHAResult`. -/
inductive EMSHAResult where
  | unknown | ok | testFailure | nullPointer | invalidState | inputTooLong | selfTestDisabled
  deriving DecidableEq, Repr

/-- A digest, or the buffer that receives one (`SHA256_HASH_SIZE` bytes). -/
abbrev Digest := Vector UInt8 32

/-- The message block (`SHA256_MB_SIZE` bytes). -/
abbrev Block := Vector UInt8 64

/-- The intermediate hash. -/
abbrev Chain := Vector UInt32 8

/-- A source pointer and a length: null with any length, or as many bytes as the length says. -/
inductive Input where
  | null (length : UInt32)
  | bytes (data : List UInt8) (fits : data.length < 2 ^ 32)

/-- The length argument. -/
def Input.length : Input → UInt32
  | .null n => n
  | .bytes data _ => UInt32.ofNat data.length

def Input.isNull : Input → Bool
  | .null _ => true
  | .bytes _ _ => false

/-- The bytes that can be read through the pointer. -/
def Input.data : Input → List UInt8
  | .null _ => []
  | .bytes data _ => data

@[simp] theorem Input.length_null (n : UInt32) : (Input.null n).length = n := rfl
@[simp] theorem Input.isNull_null (n : UInt32) : (Input.null n).isNull = true := rfl
@[simp] theorem Input.isNull_bytes (data : List UInt8) (fits : data.length < 2 ^ 32) :
    (Input.bytes data fits).isNull = false := rfl
@[simp] theorem Input.data_null (n : UInt32) : (Input.null n).data = [] := rfl
@[simp] theorem Input.data_bytes (data : List UInt8) (fits : data.length < 2 ^ 32) :
    (Input.bytes data fits).data = data := rfl

@[simp] theorem Input.toNat_length_bytes (data : List UInt8) (fits : data.length < 2 ^ 32) :
    (Input.bytes data fits).length.toNat = data.length := UInt32.toNat_ofNat_of_lt' fits

/-- A length argument is zero just if there is nothing to read behind it. -/
@[simp] theorem Input.length_bytes_eq_zero (data : List UInt8) (fits : data.length < 2 ^ 32) :
    (Input.bytes data fits).length = 0 ↔ data = [] := by
  rw [← UInt32.toNat_inj, toNat_length_bytes]
  exact List.length_eq_zero_iff

theorem Input.data_of_length_eq_zero {m : Input} (h : m.length = 0) : m.data = [] := by
  cases m with
  | null n => rfl
  | bytes data fits => simpa using h

/-- An array passed with its size. -/
def Input.ofVector {n : ℕ} (v : Vector UInt8 n) (fits : n < 2 ^ 32) : Input :=
  .bytes v.toList (by simpa using fits)

/-- What stops a call that has no defined result: a write past the message block, a read
through a null pointer, or an assertion of a build that has them. -/
inductive Fault where
  | outOfBounds | nullDereference | assertion
  deriving DecidableEq, Repr

/-- What a run leaves behind besides its results: the index of each write `mb[mbi]`, the code
of each `addLength` and each `updateMessageBlock`, with the intermediate hash before, the
message block, and the intermediate hash after. -/
inductive Event where
  | store (mbi : UInt8)
  | addLength (res : EMSHAResult)
  | updateMessageBlock (iHash : Chain) (mb : Block) (iHash' : Chain)
  deriving DecidableEq

/-- With or without `NDEBUG`. -/
inductive Build where
  | debug | ndebug
  deriving DecidableEq, Repr

section Checks

variable {m : Type → Type} [Pure m] [MonadExcept Fault m]

/-- `assert`, which is empty under `NDEBUG`. -/
def assert (build : Build) (condition : Prop) [Decidable condition] : m Unit :=
  match build with
  | .ndebug => pure ()
  | .debug => if condition then pure () else throw .assertion

/-- `EMSHA_CHECK`: under `NDEBUG` return the value if the condition fails, else assert it. -/
def emshaCheck {α : Type} (build : Build) (condition : Prop) [Decidable condition] (retval : α)
    (rest : m α) : m α :=
  if condition then rest
  else
    match build with
    | .ndebug => pure retval
    | .debug => throw .assertion

@[simp] theorem assert_of (build : Build) {condition : Prop}
    [Decidable condition] (h : condition) : (assert build condition : m Unit) = pure () := by
  cases build <;> simp [assert, h]

theorem emshaCheck_of {α : Type} (build : Build) {condition : Prop} [Decidable condition]
    (retval : α) (rest : m α) (h : condition) :
    emshaCheck build condition retval rest = rest := if_pos h

end Checks

/-- An assertion that holds or is not made changes nothing. -/
theorem assert_ensures {σ : Type} {P : σ → Prop} {build : Build} (condition : Prop)
    [Decidable condition] :
    Ensures P (assert build condition : Traced Fault Event σ Unit) fun _ => P := by
  cases build with
  | ndebug => exact .pure fun _ h => h
  | debug =>
    by_cases h : condition
    · rw [assert_of .debug h]
      exact .pure fun _ h => h
    · rw [assert, if_neg h]
      exact .throw

theorem emshaCheck_ensures {σ α : Type} {P : σ → Prop} {Q : α → σ → Prop} {build : Build}
    {condition : Prop} [Decidable condition] {retval : α} {rest : Traced Fault Event σ α}
    (hrest : Ensures P rest Q) (hretval : ∀ s, P s → Q retval s) :
    Ensures P (emshaCheck build condition retval rest) Q := by
  by_cases h : condition
  · rw [emshaCheck_of build retval rest h]
    exact hrest
  · unfold emshaCheck
    rw [if_neg h]
    cases build with
    | ndebug => exact .pure hretval
    | debug => exact .throw

theorem assert_keeps {σ γ : Type} {f : σ → γ} (build : Build) (condition : Prop)
    [Decidable condition] : Keeps f (assert build condition : Traced Fault Event σ Unit) :=
  fun _ => assert_ensures condition

theorem emshaCheck_keeps {σ α γ : Type} {f : σ → γ} (build : Build) {condition : Prop}
    [Decidable condition] (retval : α) {rest : Traced Fault Event σ α} (h : Keeps f rest) :
    Keeps f (emshaCheck build condition retval rest) :=
  fun v => emshaCheck_ensures (h v) fun _ hs => hs

/-- A call of the class `Hash`. -/
inductive Call where
  | reset
  | update (message : Input)
  | finalise (digest : Option Digest)
  | result (digest : Option Digest)

/-- The code that a call returns, and its destination afterwards. -/
structure Reply where
  res : EMSHAResult
  digest : Option Digest
  deriving DecidableEq

/-- The destination that a call is given. -/
def Call.destination : Call → Option Digest
  | .finalise d | .result d => d
  | .reset | .update _ => none

/-- A call that asks for a digest. -/
def Call.asksDigest : Call → Bool
  | .finalise _ | .result _ => true
  | .reset | .update _ => false

/-! ## Reading a transcript -/

/-- The message after one more call: what an accepted `Update` appends, what `Reset` forgets. -/
def absorbStep (message : List UInt8) : Call × Reply → List UInt8
  | (.reset, _) => []
  | (.update m, r) => if r.res = .ok then message ++ m.data else message
  | (.finalise _, _) | (.result _, _) => message

/-- The messages of the `Update`s that returned `OK` since the last `Reset`, in order. -/
def absorbed (transcript : List (Call × Reply)) : List UInt8 := transcript.foldl absorbStep []

/-- Whether a digest was handed out, after one more call. -/
def finalisedStep (done : Bool) : Call × Reply → Bool
  | (.reset, _) => false
  | (.update _, _) => done
  | (.finalise _, r) | (.result _, r) => done || r.res = .ok

/-- Whether a digest was handed out since the last `Reset`. -/
def finalised (transcript : List (Call × Reply)) : Bool := transcript.foldl finalisedStep false

end LibEmsha
