import LibEmsha.Model.HMAC
import LibEmsha.SHA256.DataIndependence

/-!
# The bytes of a key or of a message do not steer the code

The same for an `HMAC` object from its constructor to its destructor: two keys of the same length
and histories of calls of the same shapes cannot be told apart by what is written where, by what is
compressed when, by the codes, or by the faults.
-/

namespace LibEmsha.HMAC
open Traced SHA256

/-- Objects that differ only in the key block, in `buf` and in the data of `ctx`. -/
structure SamePublic (s t : HMAC) : Prop where
  hstate : s.hstate = t.hstate
  ctx : SHA256.SamePublic s.ctx t.ctx

/-- The two member functions cannot be told apart on such objects. -/
abbrev Steps {α : Type} (V : α → α → Prop) (x y : Member α) : Prop :=
  Lockstep Event.observe SamePublic V x y

/-- A change of the key block or of `buf`. -/
theorem keeps_steps {f g : HMAC → HMAC} (hf : ∀ s, (f s).hstate = s.hstate ∧ (f s).ctx = s.ctx)
    (hg : ∀ s, (g s).hstate = s.hstate ∧ (g s).ctx = s.ctx) :
    ∀ s t, SamePublic s t → SamePublic (f s) (g t) := by
  intro s t hst
  refine ⟨?_, ?_⟩
  · rw [(hf s).1, (hg t).1, hst.hstate]
  · rw [(hf s).2, (hg t).2]
    exact hst.ctx

section

variable (build : Build)

theorem onCtx_steps {α : Type} {V : α → α → Prop} {x y : SHA256.Member α}
    (h : SHA256.Steps V x y) : Steps V (onCtx x) (onCtx y) :=
  .zoom h (fun _ _ hst => hst.ctx) fun _ _ _ _ huv hst => ⟨hst.hstate, huv⟩

theorem orInvalid_steps {α : Type} {V : α → α → Prop} {res res' : EMSHAResult} {a a' : α}
    {x y : Member α} (hres : res = res') (ha : V a a') (h : Steps V x y) :
    Steps V (orInvalid res a x) (orInvalid res' a' y) := by
  subst hres
  refine .ite Iff.rfl (fun _ => ?_) fun _ => h
  exact .modifyState_bind (fun _ _ hst => ⟨rfl, hst.ctx⟩) fun _ => .pure ha

theorem emshaCheck_steps {α : Type} {V : α → α → Prop} {p q : Prop} [Decidable p] [Decidable q]
    {a a' : α} {x y : Member α} (hpq : p ↔ q) (ha : V a a') (h : p → Steps V x y) :
    Steps V (emshaCheck build p a x) (emshaCheck build q a' y) := by
  refine .ite hpq h fun _ => ?_
  cases build with
  | ndebug => exact .pure ha
  | debug => exact .throw _

theorem ofVector_sameShape {n : ℕ} (v w : Vector UInt8 n) (fits : n < 2 ^ 32) :
    (Input.ofVector v fits).SameShape (Input.ofVector w fits) := .bytes (by simp)

theorem restart_steps : Steps Eq (onCtx SHA256.Reset) (onCtx SHA256.Reset) :=
  onCtx_steps reset_steps

theorem reset_steps : Steps Eq (reset build) (reset build) := by
  refine restart_steps.bind fun _ _ _ => ?_
  refine .modifyState_bind (keeps_steps (fun _ => ⟨rfl, rfl⟩) fun _ => ⟨rfl, rfl⟩) fun _ => ?_
  refine .getState_bind fun s t hst => ?_
  refine (onCtx_steps (update_steps build (ofVector_sameShape _ _ _))).bind fun _ _ hres => ?_
  refine orInvalid_steps hres hres ?_
  exact .modifyState_bind (fun _ _ hst => ⟨rfl, hst.ctx⟩) fun _ => .pure rfl

/-! ## The constructor and the destructor -/

theorem update_steps {m m' : Input} (h : m.SameShape m') :
    Steps Eq (update build m) (update build m') := by
  refine emshaCheck_steps build (by rw [h.isNull_eq]) rfl fun _ => ?_
  refine .getState_bind fun s t hst => emshaCheck_steps build (by rw [hst.hstate]) rfl fun _ => ?_
  refine (onCtx_steps (SHA256.update_steps build h)).bind fun _ _ hres => ?_
  refine orInvalid_steps hres hres (.getState_bind fun _ _ huv => ?_)
  exact (assert_lockstep build (by rw [huv.hstate])).bind fun _ _ _ => .pure rfl

end

end LibEmsha.HMAC
