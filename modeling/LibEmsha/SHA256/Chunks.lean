import LibEmsha.Library.Machine
import LibEmsha.SHA256.Codes

/-!
# The pieces of a message

How a message is cut into `Update`s does not matter: not for the object that is left, not for the
writes, the lengths and the compressions, and not for the fault if the message is too long. This is
so from any object, whatever it absorbed before and also if it is finalised. `SHA256Digest` is one
way to cut it.
-/

namespace LibEmsha.SHA256
open Traced

/-- The object takes more input. -/
def Open (s : SHA256) : Prop := s.hStatus = .ok ∧ s.hComplete = 0

instance (s : SHA256) : Decidable (Open s) := inferInstanceAs (Decidable (_ ∧ _))

variable (build : Build) {s : SHA256}

/-- The code of an `Update` of an open object. -/
def openCode (m : Input) : EMSHAResult :=
  if m.isNull = true ∧ m.length ≠ 0 then .nullPointer else .ok

theorem absorb_open (b : UInt8) : Ensures Open (absorb build b) fun _ => Open :=
  (absorb_keeps build b).ensures fun p => p.1 = .ok ∧ p.2 = 0

/-- The loop of `Update` leaves an open object open. -/
theorem each_absorb_open (data : List UInt8) :
    Ensures Open (each (absorb build) data) fun _ => Open := .each (absorb_open build) data

/-- An `Update` of an open object is its loop. -/
theorem run_update_open (m : Input) (hs : Open s) :
    (update build m).run s =
      (each (absorb build) m.data >>= fun _ => pure (openCode m)).run s := by
  by_cases hlength : m.length = 0
  · rw [Input.data_of_length_eq_zero hlength]
    simp [update, openCode, hlength, each]
  cases m with
  | null n =>
    have hn : n ≠ 0 := hlength
    simp [update, openCode, hn, each]
  | bytes data fits =>
    have hdata : data ≠ [] := by simpa using hlength
    have hloop : (update build (.bytes data fits)).run s = (each (absorb build) data >>= fun _ =>
        getState >>= fun t => pure t.hStatus).run s := by
      simp [update, hdata, hs.1, hs.2]
    rw [hloop]
    refine run_bind_right fun es _ t hrun => ?_
    have ht : Open t := each_absorb_open build data s es _ t hrun hs
    simp [openCode, ht.1]

/-- And the object stays open. -/
theorem update_open {m : Input} (hm : ¬ (m.isNull = true ∧ m.length ≠ 0)) :
    Ensures Open (update build m) fun res s => res = .ok ∧ Open s := by
  intro s es res t hrun hs
  have hrun' : Runs (each (absorb build) m.data >>= fun _ => pure (openCode m)) s es res t :=
    (run_update_open build m hs).symm.trans hrun
  obtain ⟨fs, ⟨⟩, u, gs, heach, hpure, -⟩ := hrun'.of_bind
  obtain ⟨-, rfl, rfl⟩ := hpure.deterministic (.pure (openCode m) u)
  exact ⟨if_neg hm, each_absorb_open build m.data s fs () t heach hs⟩

/-- `Update`s of an open object are one loop. -/
theorem run_updates_open (ms : List Input) (hs : Open s) :
    (answerAll (call build) (ms.map .update)).run s =
      (each (absorb build) (ms.flatMap Input.data) >>= fun _ =>
        pure (ms.map fun m => ⟨openCode m, none⟩)).run s := by
  refine run_answerAll_map (fun m _ t ht => ?_) (absorb_open build) hs
  rw [call, run_bind_left (run_update_open build m ht), Traced.bind_assoc]
  rfl

/-- An `Update` of an object that is not open leaves it alone. -/
theorem update_closed (m : Input) (hs : ¬ Open s) :
    ∃ r, Runs (call build (.update m)) s [] r s := by
  by_cases hlength : m.length = 0
  · exact ⟨⟨.ok, none⟩, by simp [Runs, call, update, hlength]⟩
  cases m with
  | null n =>
    have hn : n ≠ 0 := hlength
    exact ⟨⟨.nullPointer, none⟩, by simp [Runs, call, update, hn]⟩
  | bytes data fits =>
    have hdata : data ≠ [] := by simpa using hlength
    by_cases hstatus : s.hStatus = .ok
    · have hcomplete : s.hComplete ≠ 0 := fun h => hs ⟨hstatus, h⟩
      exact ⟨⟨.invalidState, none⟩, by simp [Runs, call, update, hdata, hstatus, hcomplete]⟩
    · exact ⟨⟨s.hStatus, none⟩, by simp [Runs, call, update, hdata, hstatus]⟩

theorem updates_closed (ms : List Input) (hs : ¬ Open s) :
    ∃ rs, Runs (answerAll (call build) (ms.map .update)) s [] rs s := by
  induction ms with
  | nil => exact ⟨[], .pure [] s⟩
  | cons m ms ih =>
    obtain ⟨r, hfirst⟩ := update_closed build m hs
    obtain ⟨rs, hrest⟩ := ih
    exact ⟨r :: rs, hfirst.bind (hrest.bind (.pure (r :: rs) s))⟩

/-- Two ways to cut the same bytes into `Update`s, from any object: they log the same, they stop
with the same fault or not at all, and they leave the same object. -/
theorem updates_rechunk (ms ms' : List Input) (h : ms.flatMap Input.data = ms'.flatMap Input.data)
    (s : SHA256) :
    ((answerAll (call build) (ms.map .update)).run s).forget =
      ((answerAll (call build) (ms'.map .update)).run s).forget := by
  by_cases hs : Open s
  · rw [run_updates_open build ms hs, run_updates_open build ms' hs, forget_run_bind_pure,
      forget_run_bind_pure, h]
  · obtain ⟨rs, hrun⟩ := updates_closed build ms hs
    obtain ⟨rs', hrun'⟩ := updates_closed build ms' hs
    rw [hrun.run_eq, hrun'.run_eq, Outcome.forget_ok, Outcome.forget_ok]

/-- Three bytes in one piece, and in two pieces with nothing between them. -/
theorem updates_rechunk_three :
    ((answerAll (call .debug) ([Input.bytes [1, 2, 3] (by decide)].map .update)).run fresh).forget =
      ((answerAll (call .debug) ([Input.bytes [1] (by decide), .null 7,
        .bytes [2, 3] (by decide)].map .update)).run fresh).forget :=
  updates_rechunk .debug [.bytes [1, 2, 3] (by decide)]
    [.bytes [1] (by decide), .null 7, .bytes [2, 3] (by decide)] rfl fresh

/-! ## `SHA256Digest` -/

/-- `SHA256Digest` of a message is `Update`s of its pieces and one `Finalise`: they log the same,
stop with the same fault or not at all, leave the same object and write the same digest. -/
theorem sha256Digest_pieces (ms : List Input) (m : Input)
    (hms : ∀ p ∈ ms, ¬ (p.isNull = true ∧ p.length ≠ 0)) (hm : ¬ (m.isNull = true ∧ m.length ≠ 0))
    (hdata : ms.flatMap Input.data = m.data) (d : Option Digest) :
    history build (ms.map .update ++ [.finalise d]) =
      (sha256Digest build m d).map fun p => ms.map (fun _ => ⟨.ok, none⟩) ++ [⟨p.1, p.2⟩] := by
  have hfresh : Open fresh := ⟨rfl, rfl⟩
  have hcodes : ms.map (fun p => Reply.mk (openCode p) none) = ms.map fun _ => ⟨.ok, none⟩ :=
    List.map_congr_left fun p hp => by rw [openCode, if_neg (hms p hp)]
  rw [history, run_answerAll_append, run_bind_left (run_updates_open build ms hfresh), hdata,
    hcodes, sha256Digest, map_run, Traced.bind_assoc, Traced.bind_assoc,
    run_bind_left (run_update_open build m hfresh), Traced.bind_assoc, openCode, if_neg hm]
  -- Behind the loop both call `Finalise`.
  rw [Traced.pure_bind, Traced.pure_bind, if_neg (by simp), answerAll_singleton, call,
    Traced.bind_assoc, Traced.bind_assoc]
  rfl

/-- Three bytes in two pieces. -/
theorem sha256Digest_pieces_three :
    history .debug [.update (.bytes [1] (by decide)), .update (.bytes [2, 3] (by decide)),
        .finalise (some (Vector.replicate 32 0))] =
      (sha256Digest .debug (.bytes [1, 2, 3] (by decide)) (some (Vector.replicate 32 0))).map
        fun p => [⟨.ok, none⟩, ⟨.ok, none⟩, ⟨p.1, p.2⟩] :=
  sha256Digest_pieces .debug [.bytes [1] (by decide), .bytes [2, 3] (by decide)]
    (.bytes [1, 2, 3] (by decide)) (by simp) (by simp) rfl (some (Vector.replicate 32 0))

end LibEmsha.SHA256
