import LibEmsha.HMAC.Destruction

/-!
# What `Reset` brings back

`reset` reads nothing of the object but the key block and assigns every other member, and no call
changes the key block. So `Reset` leaves exactly the object that the constructor left, whatever was
done in between, and calls after it are answered as they were on the new object.
-/

namespace LibEmsha.HMAC
open Traced

variable {build : Build} {ik : Input} {s₀ s t u : HMAC} {es fs : List Event}

/-- `reset` depends on the key block only. -/
theorem run_reset_eq (build : Build) (h : s.k = t.k) :
    (reset build).run s = (reset build).run t := by
  simp only [reset, run_bind, run_restart, Outcome.andThen_ok, run_modifyState, run_getState, h]
  rcases hrun : (SHA256.update build (.ofVector (padKey t.k ipad) (by decide))).run
    SHA256.fresh with ⟨es, e | ⟨res, ctx⟩⟩
  · simp [onCtx, zoom, hrun, Except.map]
  · by_cases hres : res = .ok <;> simp [onCtx, zoom, hrun, Except.map, orInvalid, hres]

/-- What one `reset` leaves, a `reset` of any object with that key block leaves. -/
theorem runs_reset_again (hreset : Runs (reset build) t es .ok s₀) (hk : s.k = s₀.k) :
    Runs (reset build) s es .ok s₀ := by
  have hk₀ : s₀.k = t.k := reset_keeps build t.k t es .ok s₀ hreset rfl
  exact (run_reset_eq build (hk.trans hk₀)).trans hreset

/-- The last thing that the constructor does is a `reset` that succeeds. -/
theorem reset_of_construct (hnew : Runs (construct build ik) HMAC.blank es () s₀) :
    ∃ t gs, Runs (reset build) t gs .ok s₀ := by
  obtain ⟨fs, -, t, gs, -, hrest, -⟩ := hnew.of_bind
  obtain ⟨gs', res, u, hs, hreset, hpure, -⟩ := hrest.of_bind
  obtain ⟨-, -, rfl⟩ := hpure.deterministic (.pure () u)
  obtain ⟨ks, v, hok, -, -⟩ := reset_ends build t
  obtain ⟨-, rfl, -⟩ := hreset.deterministic hok
  exact ⟨t, gs', hreset⟩

/-- After any calls on a new object, `Reset` returns `OK` and leaves the new object, whatever the
key is; and whatever calls come then, they come out as on the new object. -/
theorem reset_restores {cs : List Call} {rs : List Reply}
    (hnew : Runs (construct build ik) HMAC.blank es () s₀)
    (hrun : Runs (answerAll (call build) cs) s₀ fs rs s) :
    (∃ gs, Runs (call build .reset) s gs ⟨.ok, none⟩ s₀) ∧
      ∀ ds, ((answerAll (call build) (cs ++ .reset :: ds)).run s₀).result =
        ((answerAll (call build) ds).run s₀).result.map
          fun p => (rs ++ ⟨.ok, none⟩ :: p.1, p.2) := by
  obtain ⟨t, gs, hreset⟩ := reset_of_construct hnew
  have hk : s.k = s₀.k :=
    Ensures.answerAll (fun c => call_keeps build c _) cs s₀ fs rs s hrun rfl
  have hcall : Runs (call build .reset) s gs ⟨.ok, none⟩ s₀ := by
    simp [Runs, call, Reset, (runs_reset_again hreset hk).run_eq]
  refine ⟨⟨gs, hcall⟩, fun ds => ?_⟩
  have hback := hrun.answerAll_append hcall.answerAll_singleton
  rw [List.append_cons, hback.run_answerAll_append]
  rcases hds : (answerAll (call build) ds).run s₀ with ⟨ks, e | ⟨qs, w⟩⟩
  · simp [hds, Except.map]
  · simp [hds, Except.map]

/-- A key that was hashed, and a tag handed out before the `Reset`. -/
theorem reset_restores_finished :
    let cs : List Call := [.update (.bytes [5] (by decide)), .result (some (Vector.replicate 32 0))]
    ∃ es s₀ fs rs s gs,
      Runs (construct .ndebug (.bytes (List.replicate 65 1) (by decide))) HMAC.blank es () s₀ ∧
      Runs (answerAll (call .ndebug) cs) s₀ fs rs s ∧
      Runs (call .ndebug .reset) s gs ⟨.ok, none⟩ s₀ := by
  intro cs
  obtain ⟨es, s₀, fs, s, -, -, hnew, hrun, -⟩ := runs_answers
    (show (List.replicate 65 (1 : UInt8)).length < 2 ^ 32 by decide) (by decide)
    (show WithinLimit (2 ^ 29 - 64) (cs ++ [.reset]) by decide) rfl
  obtain ⟨⟨gs, hreset⟩, -⟩ := reset_restores hnew hrun
  exact ⟨es, s₀, fs, _, s, gs, hnew, hrun, hreset⟩

end LibEmsha.HMAC
