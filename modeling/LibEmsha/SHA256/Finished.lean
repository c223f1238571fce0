import LibEmsha.SHA256.Codes
import LibEmsha.SHA256.Extension

/-!
# What a finished object still knows

`Finalise` clears the message block and the length. So once a digest was handed out, every member of
the object is known from the digest, and nothing else of the message is left in it.
-/

namespace LibEmsha.SHA256
open Traced

/-- An object that is made of a digest. -/
def finished (d : Digest) : SHA256 where
  mlen := 0
  iHash := readDigest d
  hStatus := .ok
  hComplete := 1
  mbi := 0
  mb := Vector.replicate 64 0

/-- A digest was handed out, and the object is made of it. -/
def MadeOf (d : Option Digest) (s : SHA256) : Prop := ∃ d', d = some d' ∧ s = finished d'

variable (build : Build)

/-! ## Padding -/

theorem padBlock_keeps (pc : UInt8) : Keeps flags (padBlock build pc) := by
  refine .getState_bind fun s => .ite ?_ ?_
  · refine (store_keeps pc).bind fun _ => (zeroFill_keeps 64).bind fun _ => ?_
    exact updateMessageBlock_keeps.bind fun _ => .getState_bind fun t => assert_keeps build _
  · refine (zeroFill_keeps 64).bind fun _ => updateMessageBlock_keeps.bind fun _ => ?_
    exact (store_keeps pc).bind fun _ => .getState_bind fun t => assert_keeps build _

theorem padLength_keeps : Keeps flags (padLength build) := by
  refine (zeroFill_keeps (64 - 8)).bind fun _ => .modifyState_bind (fun _ => rfl) fun _ => ?_
  exact updateMessageBlock_keeps.bind fun _ => .getState_bind fun t => assert_keeps build _

theorem padMessage_keeps (pc : UInt8) : Keeps flags (padMessage build pc) := by
  refine .getState_bind fun s => (assert_keeps build _).bind fun _ => .ite ?_ ?_
  · exact (store_keeps pc).bind fun _ => padLength_keeps build
  · exact (padBlock_keeps build pc).bind fun _ => padLength_keeps build

/-- The last compression leaves the index at the beginning of the message block. -/
theorem padLength_mbi : Ensures (fun _ => True) (padLength build) fun _ s => s.mbi = 0 := by
  refine .bind .trivial fun _ => .bind .trivial fun _ => ?_
  refine .bind (R := fun _ s => s.mbi = 0) ?_ fun _ => .read_bind fun s _ => assert_ensures _
  exact .getState_bind fun s _ => .bind .trivial fun _ => .modifyState fun _ _ => rfl

theorem padMessage_mbi (pc : UInt8) :
    Ensures (fun _ => True) (padMessage build pc) fun _ s => s.mbi = 0 := by
  refine .read_bind fun s _ => .bind .trivial fun _ => ?_
  split
  · exact .bind .trivial fun _ => (padLength_mbi build).mono (fun _ _ => trivial) fun _ _ h => h
  · exact .bind .trivial fun _ => (padLength_mbi build).mono (fun _ _ => trivial) fun _ _ h => h

/-! ## The calls -/

/-- `Finalise` of an open object leaves an object that is made of the digest. -/
theorem finalise_finished (d : Digest) :
    Ensures (fun s => s.hStatus = .ok ∧ s.hComplete = 0) (finalise build (some d))
      fun p s => MadeOf p.2 s := by
  refine .getState_bind fun u hu => ?_
  rw [if_neg (not_not.mpr hu.1), if_neg (not_not.mpr hu.2)]
  have hpad : Ensures (· = u) (padMessage build 0x80) fun _ s => s.hStatus = .ok ∧ s.mbi = 0 := by
    intro s es a t hrun hs
    have hflags : flags t = flags s := padMessage_keeps build 0x80 (flags s) s es a t hrun rfl
    subst hs
    exact ⟨(congrArg Prod.fst hflags).trans hu.1,
      padMessage_mbi build 0x80 s es a t hrun trivial⟩
  refine .bind hpad fun _ => .read_bind fun t _ => .bind (assert_ensures _) fun _ => ?_
  refine .bind (R := fun _ s => s = { finished d with iHash := s.iHash })
    (.modifyState fun s hs => by simp [finished, hs]) fun _ => .getState_bind fun v hv => ?_
  refine .pure fun s hs => ⟨_, rfl, ?_⟩
  rw [hs, hv, finished, finished, readDigest_writeDigest]

/-- Between two calls an object is open, or it is made of a digest. -/
def OpenOrFinished (s : SHA256) : Prop :=
  s.hStatus = .ok ∧ (s.hComplete = 0 ∨ ∃ d, s = finished d)

theorem update_openOrFinished (m : Input) :
    Ensures OpenOrFinished (update build m) fun _ => OpenOrFinished := by
  unfold update
  split
  · exact .pure fun _ hs => hs
  cases m with
  | null n => exact .pure fun _ hs => hs
  | bytes data fits =>
    refine .getState_bind fun u hu => ?_
    rw [if_neg (not_not.mpr hu.1)]
    split
    · exact .pure fun s hs => hs ▸ hu
    rename_i hopen
    have hloop : Ensures (· = u) (each (absorb build) data)
        fun _ s => s.hStatus = .ok ∧ s.hComplete = 0 :=
      ((Keeps.each (absorb_keeps build) data).ensures fun p => p.1 = .ok ∧ p.2 = 0).mono
        (fun _ hs => hs ▸ ⟨hu.1, not_not.mp hopen⟩) fun _ _ h => h
    exact hloop.bind fun _ => .read_bind fun v _ => .pure fun _ hs => ⟨hs.1, .inl hs.2⟩

theorem finalise_openOrFinished (d : Option Digest) :
    Ensures OpenOrFinished (finalise build d) fun _ => OpenOrFinished := by
  cases d with
  | none => exact .pure fun _ hs => hs
  | some d =>
    intro s es p t hrun hs
    obtain ⟨hstatus, hopen | ⟨d', rfl⟩⟩ := hs
    · obtain ⟨d', -, rfl⟩ := finalise_finished build d s es p t hrun ⟨hstatus, hopen⟩
      exact ⟨rfl, .inr ⟨d', rfl⟩⟩
    · have hrefused : Runs (finalise build (some d)) (finished d') [] (.invalidState, some d)
          (finished d') := by simp [Runs, finalise, finished]
      obtain ⟨-, -, rfl⟩ := hrun.deterministic hrefused
      exact ⟨rfl, .inr ⟨d', rfl⟩⟩

theorem result_openOrFinished (d : Option Digest) :
    Ensures OpenOrFinished (result build d) fun _ => OpenOrFinished := by
  cases d with
  | none => exact .pure fun _ hs => hs
  | some d =>
    refine .getState_bind fun u hu => ?_
    rw [if_neg (not_not.mpr hu.1)]
    split
    · exact (finalise_openOrFinished build (some d)).mono (fun _ hs => hs ▸ hu) fun _ _ h => h
    · exact .pure fun s hs => hs ▸ hu

theorem call_openOrFinished (c : Call) :
    Ensures OpenOrFinished (call build c) fun _ => OpenOrFinished := by
  cases c with
  | reset =>
    intro s es r t hrun hs
    have hreset : Runs (call build .reset) s [] ⟨.ok, none⟩ fresh := rfl
    obtain ⟨-, -, rfl⟩ := hrun.deterministic hreset
    exact ⟨rfl, .inl rfl⟩
  | update m => exact (update_openOrFinished build m).bind fun _ => .pure fun _ hs => hs
  | finalise d => exact (finalise_openOrFinished build d).bind fun _ => .pure fun _ hs => hs
  | result d => exact (result_openOrFinished build d).bind fun _ => .pure fun _ hs => hs

/-- After any history in which a digest was handed out since the last `Reset`, the object is made of
the digest of what was absorbed: nothing else of the message is left in it. -/
theorem finished_of_runs {build : Build} {cs : List Call} {es : List Event} {rs : List Reply}
    {s : SHA256} (hrun : Runs (answerAll (call build) cs) fresh es rs s)
    (hfinalised : finalised (cs.zip rs) = true) :
    s = finished (digestOf build (absorbed (cs.zip rs))) := by
  have hstart : OpenOrFinished fresh := ⟨rfl, .inl rfl⟩
  have hend := Ensures.answerAll (call_openOrFinished build) cs fresh es rs s hrun hstart
  obtain ⟨rfl, hs⟩ := (realizes_hashMachine build).of_runs tracks_fresh hrun
  rw [after_start rfl] at hs
  rw [finalised_zip_answers rfl (isDone_next_hashMachine _)] at hfinalised
  rw [absorbed_zip_answers rfl (message_next_hashMachine _)]
  generalize stateAfter cs = t at hs hfinalised
  cases t with
  | absorbing m => cases hfinalised
  | done m =>
    obtain ⟨hle, -, hcomplete, hchain⟩ := hs
    obtain ⟨-, hopen | ⟨d, rfl⟩⟩ := hend
    · exact (hcomplete hopen).elim
    · have hword : readDigest d = readDigest (digestOf build m) := by
        rw [digestOf_eq_finalHash build hle d, readDigest_writeDigest]
        exact hchain
      rw [HashState.message_done, finished, finished, hword]

/-- Two bytes in two pieces, and the digest asked for twice. -/
theorem finished_of_runs_two :
    let cs : List Call := [.update (.bytes [1] (by decide)), .update (.bytes [2] (by decide)),
      .finalise (some (Vector.replicate 32 0)), .result (some (Vector.replicate 32 0))]
    ∃ es rs s, Runs (answerAll (call .ndebug) cs) fresh es rs s ∧
      s = finished (digestOf .ndebug (absorbed (cs.zip rs))) := by
  intro cs
  obtain ⟨es, s, hrun, -, -⟩ := runs_answers .ndebug (show WithinLimit (2 ^ 29) cs by decide)
  exact ⟨es, _, s, hrun, finished_of_runs hrun rfl⟩

end LibEmsha.SHA256
