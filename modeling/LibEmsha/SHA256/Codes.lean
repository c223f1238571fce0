import LibEmsha.Model.SHA256

/-!
# What `SHA256` returns, whatever it is given

Statements of partial correctness, with no bound on the message: if `Update` or `Result` returns at
all, an object in a good state stays in a good state and the code is `OK`.
-/

namespace LibEmsha.SHA256
open Traced

/-- The object is in a good state. -/
def Good (s : SHA256) : Prop := s.hStatus = .ok

/-- The members that say which calls are accepted. No step inside a call changes them. -/
def flags (s : SHA256) : EMSHAResult × UInt8 := (s.hStatus, s.hComplete)

theorem store_keeps (x : UInt8) : Keeps flags (store x) := by
  refine fun v => .read_bind fun s hs => ?_
  refine .bind (R := fun _ s => flags s = v) (.emit fun _ h => h) fun _ => ?_
  split
  · exact .modifyState fun _ _ => hs
  · exact .throw

theorem addLength_keeps (build : Build) (l : UInt32) : Keeps flags (addLength build l) := by
  refine .getState_bind fun s => .ite ?_ (.emit_bind fun _ => .pure _)
  refine .modifyState_bind (fun _ => rfl) fun _ => (assert_keeps build _).bind fun _ => ?_
  exact .emit_bind fun _ => .pure _

theorem updateMessageBlock_keeps : Keeps flags updateMessageBlock :=
  .getState_bind fun _ => .emit_bind fun _ => .modifyState fun _ => rfl

theorem absorb_keeps (build : Build) (b : UInt8) : Keeps flags (absorb build b) := by
  refine (store_keeps b).bind fun _ => (addLength_keeps build 8).bind fun res => ?_
  refine .getState_bind fun s => .ite ?_ (.pure _)
  exact updateMessageBlock_keeps.bind fun _ => .getState_bind fun t => assert_keeps build _

theorem zeroFill_keeps (bound : ℕ) : Keeps flags (zeroFill bound) := .whileDo (store_keeps 0)

/-- So the object stays in a good state. -/
theorem good_of_keeps {α : Type} {x : Member α} (h : Keeps flags x) :
    Ensures Good x fun _ => Good := h.ensures fun p => p.1 = .ok

variable {build : Build}

/-- `Update` with bytes that can be read, on an open object. -/
theorem update_ensures {data : List UInt8} (fits : data.length < 2 ^ 32) (hdata : data ≠ []) :
    Ensures (fun s => Good s ∧ s.hComplete = 0) (update build (.bytes data fits))
      fun res s => res = .ok ∧ Good s := by
  rw [update, if_neg (by simpa using hdata)]
  refine .read_bind fun u hu => ?_
  have hstatus : u.hStatus = .ok := hu.1
  rw [if_neg (not_not.mpr hstatus), if_neg (not_not.mpr hu.2)]
  refine .bind ((good_of_keeps (.each (absorb_keeps build) data)).mono (fun _ h => h.1)
    fun _ _ h => h) fun _ => ?_
  exact .read_bind fun v hv => .pure fun _ h => ⟨hv, h⟩

theorem finalise_ensures (d : Digest) :
    Ensures (fun s => Good s ∧ s.hComplete = 0) (finalise build (some d)) fun p _ => p.1 = .ok := by
  refine .getState_bind fun u hu => ?_
  have hstatus : u.hStatus = .ok := hu.1
  rw [if_neg (not_not.mpr hstatus), if_neg (not_not.mpr hu.2)]
  refine .bind .trivial fun _ => .bind .trivial fun _ => .bind .trivial fun _ => ?_
  refine .bind .trivial fun _ => .bind .trivial fun _ => ?_
  exact .pure fun _ _ => rfl

theorem result_ensures (d : Digest) :
    Ensures Good (result build (some d)) fun p _ => p.1 = .ok := by
  refine .getState_bind fun u (hstatus : u.hStatus = .ok) => ?_
  rw [if_neg (not_not.mpr hstatus)]
  by_cases hcomplete : u.hComplete = 0
  · rw [if_pos hcomplete]
    exact (finalise_ensures d).mono (fun _ h => h ▸ ⟨hstatus, hcomplete⟩) fun _ _ h => h
  · rw [if_neg hcomplete]
    exact .pure fun _ _ => rfl

end LibEmsha.SHA256
