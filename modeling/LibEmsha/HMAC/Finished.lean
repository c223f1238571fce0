import LibEmsha.HMAC.Chunks
import LibEmsha.HMAC.Invariant
import LibEmsha.HMAC.KeyFault
import LibEmsha.SHA256.Finished

/-!
# What a finished `HMAC` object still knows

The tag is computed in `ctx`, which is finished by it, and copied to `buf`. So once a tag was handed
out, every member of the object is known from the key block and the tag: the message and its inner
hash are gone.
-/

namespace LibEmsha.HMAC
open Traced

variable {α : Type} {build : Build} {P : HMAC → Prop} {Q : α → HMAC → Prop}

/-- If the tag was handed out, `ctx` is made of what is in `buf`. -/
def Settled (s : HMAC) : Prop := s.hstate = .fin → s.ctx = SHA256.finished s.buf

theorem settled_of_ne {s : HMAC} (h : s.hstate ≠ .fin) : Settled s := fun hfin => (h hfin).elim

theorem orInvalid_ensures {res : EMSHAResult} {retval : α} {rest : Member α}
    (hinvalid : res ≠ .ok → ∀ s, P s → Q retval { s with hstate := .invalid })
    (hrest : res = .ok → Ensures P rest Q) : Ensures P (orInvalid res retval rest) Q := by
  unfold orInvalid
  split
  · rename_i hres
    refine .bind (R := fun _ => Q retval) (.modifyState (hinvalid hres)) fun _ => ?_
    exact .pure fun _ h => h
  · rename_i hres
    exact hrest (not_not.mp hres)

/-! ## The outer hash -/

/-- `ctx.Update` with an array, on an open object. -/
theorem ctxUpdate_open {n : ℕ} (v : Vector UInt8 n) (fits : n < 2 ^ 32) :
    Ensures (fun s => SHA256.Open s.ctx) (onCtx (SHA256.update build (.ofVector v fits)))
      fun res s => res = .ok ∧ SHA256.Open s.ctx :=
  onCtx_ensures (SHA256.update_open build (by simp [Input.ofVector]))

/-- `ctx.Finalise` to `buf`. -/
theorem ctxFinalise_settles : Ensures (fun s => SHA256.Open s.ctx)
    (intoBuf (SHA256.finalise build)) fun _ s => s.ctx = SHA256.finished s.buf := by
  refine .getState_bind fun u hu => ?_
  have hfinalise : Ensures (· = u) (onCtx (SHA256.finalise build (some u.buf)))
      fun p s => SHA256.MadeOf p.2 s.ctx :=
    (onCtx_ensures (SHA256.finalise_finished build u.buf)).mono (fun _ hs => hs ▸ hu) fun _ _ h => h
  refine hfinalise.bind ?_
  rintro ⟨res, d⟩
  refine .bind (R := fun _ s => s.ctx = SHA256.finished s.buf) (.modifyState ?_) fun _ =>
    .pure fun _ h => h
  rintro s ⟨d', rfl, hctx⟩
  exact hctx

/-- The outer hash starts on a new object. -/
theorem outerHash_settles (d : Digest) :
    Ensures (fun _ => True) (outerHash build d) fun _ s => s.ctx = SHA256.finished s.buf := by
  have hreset : Ensures (fun _ => True) SHA256.Reset fun _ s => SHA256.Open s := by
    refine .bind (R := fun _ => SHA256.Open) (.modifyState fun _ _ => ⟨rfl, rfl⟩) fun _ => ?_
    exact .read_bind fun _ _ => .pure fun _ h => h
  -- Neither `Update` is refused, so it is only the end that decides.
  refine (onCtx_ensures hreset).bind fun _ => .read_bind fun u _ => ?_
  refine (ctxUpdate_open _ _).bind fun res => ?_
  refine orInvalid_ensures (fun hres _ h => (hres h.1).elim) fun _ => ?_
  refine .bind (R := fun _ s => SHA256.Open s.ctx) (.modifyState fun _ h => h.2) fun _ => ?_
  refine .read_bind fun v _ => (ctxUpdate_open _ _).bind fun res => ?_
  refine orInvalid_ensures (fun hres _ h => (hres h.1).elim) fun _ => ?_
  refine (ctxFinalise_settles.mono (fun _ h => h.2) fun _ _ h => h).bind fun res => ?_
  refine orInvalid_ensures (fun _ _ h => h) fun _ => .read_bind fun w _ => ?_
  refine (assert_ensures _).bind fun _ => ?_
  refine .bind (R := fun _ s => s.ctx = SHA256.finished s.buf) (.modifyState fun _ h => h)
    fun _ => ?_
  exact .read_bind fun _ _ => .pure fun _ h => h

/-! ## The calls -/

theorem reset_settled : Ensures (fun _ => True) (reset build) fun _ => Settled := by
  intro s es res t hrun _
  obtain ⟨fs, u, hreset, -, hu⟩ := reset_working build s
  obtain ⟨-, -, rfl⟩ := hrun.deterministic hreset
  exact settled_of_ne (by simp [hu.hstate])

theorem update_settled (m : Input) : Ensures Settled (update build m) fun _ => Settled := by
  refine emshaCheck_ensures (.getState_bind fun u hu => ?_) fun _ h => h
  by_cases hstate : u.hstate = .ipad
  · rw [emshaCheck_of build _ _ hstate]
    have hframe : Ensures (fun s => s.hstate = .ipad) (onCtx (SHA256.update build m))
        fun _ s => s.hstate = .ipad := .zoom_frame fun _ _ h => h
    have hupdate := hframe.mono (fun s (hs : s = u) => hs ▸ hstate) fun _ _ h => h
    refine hupdate.bind fun res => orInvalid_ensures (fun _ _ _ => settled_of_ne (by simp)) ?_
    refine fun _ => .read_bind fun v hv => (assert_ensures _).bind fun _ => .pure fun s hs => ?_
    exact settled_of_ne (by simp [hs])
  · unfold emshaCheck
    rw [if_neg hstate]
    cases build with
    | ndebug => exact .pure fun s hs => hs ▸ hu
    | debug => exact .throw

theorem finalResult_settled (d : Option Digest) :
    Ensures Settled (finalResult build d) fun _ => Settled := by
  cases d with
  | none => exact .pure fun _ h => h
  | some d =>
    refine .read_bind fun u _ => ?_
    split
    · exact .pure fun _ h => h
    refine emshaCheck_ensures ?_ fun _ h => h
    refine .bind .trivial fun res =>
      orInvalid_ensures (fun _ _ _ => settled_of_ne (by simp)) fun _ => ?_
    refine .read_bind fun v _ => .bind .trivial fun _ => ?_
    exact (outerHash_settles d).mono (fun _ _ => trivial) fun _ _ h _ => h

theorem call_settled (c : Call) : Ensures Settled (call build c) fun _ => Settled := by
  cases c with
  | reset =>
    exact .bind (reset_settled.mono (fun _ _ => trivial) fun _ _ h => h) fun _ => .pure fun _ h => h
  | update m => exact (update_settled m).bind fun _ => .pure fun _ h => h
  | finalise d => exact (finalResult_settled d).bind fun _ => .pure fun _ h => h
  | result d => exact (finalResult_settled d).bind fun _ => .pure fun _ h => h

/-- For every key, every build and every history that did not stop: if a tag was handed out since
the last `Reset`, the object is made of the key block and the tag, and of nothing else. -/
theorem fin_of_runs {ik : Input} {cs : List Call} {es fs : List Event} {rs : List Reply}
    {s₀ s : HMAC} (hnew : Runs (construct build ik) blank es () s₀)
    (hrun : Runs (answerAll (call build) cs) s₀ fs rs s)
    (hfinalised : finalised (cs.zip rs) = true) :
    let key := keyBlock build (keyOf build ik)
    let tag := tagOf build key (absorbed (cs.zip rs))
    s = ⟨.fin, SHA256.finished tag, key, tag⟩ := by
  intro key tag
  have hstart : Settled s₀ := settled_of_ne (by simp [(ready_of_construct build hnew).1])
  have hsettled := Ensures.answerAll call_settled cs s₀ fs rs s hrun hstart
  obtain ⟨hs, hmessage, hdone⟩ := tracks_of_runs hnew hrun
  have hstate : s.hstate = .fin := by simpa [hdone, hfinalised] using hs.hstate
  have hbuf : s.buf = tag := by rw [hs.buf (hdone.trans hfinalised), hmessage]
  have hctx := hsettled hstate
  have hmembers : s = ⟨s.hstate, s.ctx, s.k, s.buf⟩ := rfl
  rw [hmembers, hstate, hctx, hbuf, hs.key]

/-- A long key, and a tag asked for twice. -/
theorem fin_of_runs_twice :
    let cs : List Call := [.update (.bytes [5] (by decide)),
      .finalise (some (Vector.replicate 32 0)), .result (some (Vector.replicate 32 0))]
    ∃ es s₀ fs rs s,
      Runs (construct .ndebug (.bytes (List.replicate 65 1) (by decide))) blank es () s₀ ∧
      Runs (answerAll (call .ndebug) cs) s₀ fs rs s ∧ s.ctx = SHA256.finished s.buf := by
  intro cs
  obtain ⟨es, s₀, fs, s, -, -, hnew, hrun, -⟩ := runs_answers
    (show (List.replicate 65 (1 : UInt8)).length < 2 ^ 32 by decide) (by decide)
    (show WithinLimit (2 ^ 29 - 64) (cs ++ [.reset]) by decide) rfl
  have hfin := fin_of_runs hnew hrun rfl
  exact ⟨es, s₀, fs, _, s, hnew, hrun, hfin ▸ rfl⟩

end LibEmsha.HMAC
