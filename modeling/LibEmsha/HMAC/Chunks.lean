import LibEmsha.HMAC.Reset
import LibEmsha.SHA256.Chunks

/-!
# The pieces of a message under a key

`ComputeHMAC` does with a message what an object does with its pieces: the constructor, `Update`s
and `Result`, and at the end the destructor. So whoever has the message in pieces gets the tag that
`ComputeHMAC` computes, or the fault that stops it.
-/

namespace LibEmsha.HMAC
open Traced

variable (build : Build) {ik : Input} {s : HMAC}

section

variable {α β : Type}

theorem onCtx_pure (a : α) : onCtx (pure a) = pure a := by
  rw [onCtx, zoom_pure]
  exact fun _ => rfl

theorem onCtx_bind (x : SHA256.Member α) (f : α → SHA256.Member β) :
    onCtx (x >>= f) = onCtx x >>= fun a => onCtx (f a) := by
  unfold onCtx
  rw [zoom_bind]
  · exact fun _ _ => rfl
  · exact fun _ _ _ => rfl

/-- The loops of `ctx` are loops of the object. -/
theorem onCtx_each (body : β → SHA256.Member Unit) (bs : List β) :
    onCtx (each body bs) = each (fun b => onCtx (body b)) bs := by
  unfold onCtx
  rw [zoom_each]
  · exact fun _ => rfl
  · exact fun _ _ => rfl
  · exact fun _ _ _ => rfl

end

/-- The object takes more input. -/
def Ready (s : HMAC) : Prop := s.hstate = .ipad ∧ SHA256.Open s.ctx

/-- A new object is ready, whatever the key is. -/
theorem ready_of_construct {es : List Event} (hnew : Runs (construct build ik) blank es () s) :
    Ready s := by
  obtain ⟨t, fs, hreset⟩ := reset_of_construct hnew
  obtain ⟨gs, u, hreset', -, hu⟩ := reset_working build t
  obtain ⟨-, -, rfl⟩ := hreset.deterministic hreset'
  exact ⟨hu.hstate, hu.ctx.hStatus, hu.ctx.hComplete⟩

/-- One pass of the loop of `ctx.Update`. -/
def ctxAbsorb (b : UInt8) : Member Unit := onCtx (SHA256.absorb build b)

/-- It leaves a ready object ready. -/
theorem ctxAbsorb_ready (b : UInt8) : Ensures Ready (ctxAbsorb build b) fun _ => Ready := by
  intro s es res t hrun hs
  unfold ctxAbsorb onCtx at hrun
  obtain ⟨ctx, habsorb, rfl⟩ := hrun.of_zoom
  exact ⟨hs.1, SHA256.absorb_open build b s.ctx es res ctx habsorb hs.2⟩

/-- `ctx.Update` of a ready object is its loop. -/
theorem run_ctxUpdate_ready {m : Input} (hm : m.isNull = false) (hs : Ready s) :
    (onCtx (SHA256.update build m)).run s =
      (each (ctxAbsorb build) m.data >>= fun _ => pure .ok).run s := by
  have hloop := SHA256.run_update_open build m hs.2
  rw [SHA256.openCode, if_neg (by simp [hm])] at hloop
  calc (onCtx (SHA256.update build m)).run s
      = (onCtx (each (SHA256.absorb build) m.data >>= fun _ => pure .ok)).run s :=
        run_zoom_congr hloop
    _ = (each (ctxAbsorb build) m.data >>= fun _ => pure .ok).run s := by
        rw [onCtx_bind, onCtx_each, onCtx_pure]
        rfl

/-- So `Update` of a ready object is the loop of `ctx.Update`. -/
theorem run_update_ready {m : Input} (hm : m.isNull = false) (hs : Ready s) :
    (update build m).run s = (each (ctxAbsorb build) m.data >>= fun _ => pure .ok).run s := by
  have hchecked : (update build m).run s = (onCtx (SHA256.update build m) >>= fun res =>
      orInvalid res res (getState >>= fun t => assert build (t.hstate = .ipad) >>= fun _ =>
        pure .ok)).run s := by
    simp [update, emshaCheck, hm, hs.1]
  rw [hchecked, run_bind_left (run_ctxUpdate_ready build hm hs), Traced.bind_assoc]
  refine run_bind_right fun es _ t hrun => ?_
  have ht : Ready t := Ensures.each (ctxAbsorb_ready build) m.data s es _ t hrun hs
  simp [orInvalid, ht.1]

/-- And `Update`s of a ready object are one loop. -/
theorem run_updates_ready {ms : List Input} (hms : ∀ m ∈ ms, m.isNull = false) (hs : Ready s) :
    (answerAll (call build) (ms.map .update)).run s =
      (each (ctxAbsorb build) (ms.flatMap Input.data) >>= fun _ =>
        pure (ms.map fun _ => ⟨.ok, none⟩)).run s := by
  refine run_answerAll_map (fun m hm t ht => ?_) (ctxAbsorb_ready build) hs
  rw [call, run_bind_left (run_update_ready build (hms m hm) ht), Traced.bind_assoc]
  rfl

/-- The calls of `ComputeHMAC`, one behind the other. -/
theorem computeHMACInScope_map {α : Type} (ik m : Input) (d : Option Digest)
    (f : EMSHAResult × Option Digest → α) :
    (computeHMACInScope build ik m d).map f =
      (construct build ik >>= fun _ => update build m >>= fun res =>
        (if res = .ok then result build d else pure (res, d)) >>= fun p =>
        destructor build >>= fun _ => pure (f p)).run blank := by
  rw [computeHMACInScope, computeHMAC, ← run_bind, map_run]
  simp only [Traced.bind_assoc, Traced.pure_bind]

/-- `ComputeHMAC` of a message is the life of an object with `Update`s of its pieces and one
`Result`, for every key: they log the same, stop with the same fault or not at all, leave the same
and write the same tag. -/
theorem computeHMAC_pieces (ik : Input) (ms : List Input) (m : Input)
    (hms : ∀ p ∈ ms, p.isNull = false) (hm : m.isNull = false)
    (hdata : ms.flatMap Input.data = m.data) (d : Option Digest) :
    lifetime build ik (ms.map .update ++ [.result d]) =
      (computeHMACInScope build ik m d).map fun p =>
        ms.map (fun _ => ⟨.ok, none⟩) ++ [⟨p.1, p.2⟩] := by
  rw [computeHMACInScope_map, lifetime]
  refine run_bind_right fun es _ s hnew => ?_
  have hs : Ready s := ready_of_construct build hnew
  rw [run_bind_left (run_answerAll_append ..), Traced.bind_assoc,
    run_bind_left (run_updates_ready build hms hs), hdata,
    run_bind_left (run_update_ready build hm hs)]
  -- Behind the loop both call `Result`.
  simp only [answerAll_singleton, call, Traced.bind_assoc, Traced.pure_bind, if_true]

/-- Three bytes in two pieces, under a key that is hashed. -/
theorem computeHMAC_pieces_three :
    lifetime .debug (.bytes (List.replicate 65 1) (by decide)) [.update (.bytes [1] (by decide)),
        .update (.bytes [2, 3] (by decide)), .result (some (Vector.replicate 32 0))] =
      (computeHMACInScope .debug (.bytes (List.replicate 65 1) (by decide))
        (.bytes [1, 2, 3] (by decide)) (some (Vector.replicate 32 0))).map
        fun p => [⟨.ok, none⟩, ⟨.ok, none⟩, ⟨p.1, p.2⟩] :=
  computeHMAC_pieces .debug (.bytes (List.replicate 65 1) (by decide))
    [.bytes [1] (by decide), .bytes [2, 3] (by decide)] (.bytes [1, 2, 3] (by decide)) (by simp)
    (by simp) rfl (some (Vector.replicate 32 0))

end LibEmsha.HMAC
