import LibEmsha.SHA256.Digest
import LibEmsha.Specification.Machines

/-!
# The class `SHA256` refines the machine of an unkeyed hash

`Represents` relates an object to the message it absorbed or finished. Each call keeps it and
answers as the machine does (`simulates_hashMachine`), so every history does, as long as the
bits of the message can be counted. A call that is refused leaves the object as it was.
-/

namespace LibEmsha.SHA256
open Traced MerkleDamgard

/-- The object is in the abstract state. -/
def Represents (s : SHA256) : HashState → Prop
  | .absorbing m => Absorbing m s
  | .done m => Done m s

/-- The compressions made since the last `Reset`, in the abstract state. -/
def compressed : HashState → List (Application Chain Block)
  | .absorbing m => absorptions m
  | .done m => compressions m

variable {s : SHA256} {t : HashState}

/-- The index stays in the message block. -/
theorem Represents.mbi_lt (h : Represents s t) : s.mbi.toNat < 64 := by
  cases t with
  | absorbing m =>
    rw [Absorbing.mbi_eq h]
    exact Nat.mod_lt _ (by decide)
  | done m =>
    rw [Done.mbi h]
    decide

/-! ## Calls that change nothing -/

theorem update_empty (build : Build) {m : Input} (hm : m.length = 0) :
    Runs (call build (.update m)) s [] ⟨.ok, none⟩ s := by
  simp [Runs, call, update, hm]

theorem update_null (build : Build) {n : UInt32} (hn : n ≠ 0) :
    Runs (call build (.update (.null n))) s [] ⟨.nullPointer, none⟩ s := by
  simp [Runs, call, update, Input.length, hn]

theorem update_done (build : Build) {data : List UInt8} {fits : data.length < 2 ^ 32}
    (hstatus : s.hStatus = .ok) (hcomplete : s.hComplete ≠ 0) (hdata : data ≠ []) :
    Runs (call build (.update (.bytes data fits))) s [] ⟨.invalidState, none⟩ s := by
  simp [Runs, call, update, hdata, hstatus, hcomplete]

theorem finalise_done (build : Build) (d : Digest) (hstatus : s.hStatus = .ok)
    (hcomplete : s.hComplete ≠ 0) :
    Runs (call build (.finalise (some d))) s [] ⟨.invalidState, some d⟩ s := by
  simp [Runs, call, finalise, hstatus, hcomplete]

/-- The object says of itself what the abstract state is. -/
structure Status (s : SHA256) (t : HashState) : Prop where
  hStatus : s.hStatus = .ok
  hComplete : s.hComplete = 0 ↔ t.isDone = false

theorem Represents.status (h : Represents s t) : Status s t := by
  cases t with
  | absorbing m => exact ⟨Holds.hStatus h, iff_of_true (Holds.hComplete h) rfl⟩
  | done m => exact ⟨Done.hStatus h, iff_of_false (Done.hComplete h) (by simp [HashState.isDone])⟩

/-- A call that the machine refuses is refused on the word of the object. -/
theorem refused_of_status (build : Build) {digest : List UInt8 → Digest} {c : Call}
    (hs : Status s t) (hc : ((hashMachine digest).answer t c).res ≠ .ok) :
    Runs (call build c) s [] ((hashMachine digest).answer t c) s ∧
      ((hashMachine digest).answer t c).digest = c.destination ∧ t.next c = t := by
  have hdone : ∀ {m}, t = .done m → s.hComplete ≠ 0 := by
    rintro m rfl
    simp [hs.hComplete, HashState.isDone]
  cases c with
  | reset => exact (hc rfl).elim
  | update input =>
    cases input with
    | null n =>
      have hn : n ≠ 0 := fun h => hc (by simp [hashMachine, h])
      have hanswer : (hashMachine digest).answer t (.update (.null n)) = ⟨.nullPointer, none⟩ := by
        simp [hashMachine, hn]
      rw [hanswer]
      exact ⟨update_null build hn, rfl, by cases t <;> simp [HashState.next]⟩
    | bytes data fits =>
      have hdata : data ≠ [] := fun h => hc (by simp [hashMachine, h])
      cases t with
      | absorbing m => simp [hashMachine, hdata] at hc
      | done m =>
        have hanswer : (hashMachine digest).answer (.done m) (.update (.bytes data fits)) =
            ⟨.invalidState, none⟩ := by simp [hashMachine, hdata]
        rw [hanswer]
        exact ⟨update_done build hs.hStatus (hdone rfl) hdata, rfl, rfl⟩
  | finalise d =>
    cases d with
    | none => exact ⟨rfl, rfl, by cases t <;> rfl⟩
    | some d =>
      cases t with
      | absorbing m => exact (hc rfl).elim
      | done m => exact ⟨finalise_done build d hs.hStatus (hdone rfl), rfl, rfl⟩
  | result d =>
    cases d with
    | none => exact ⟨rfl, rfl, by cases t <;> rfl⟩
    | some d => cases t <;> exact (hc rfl).elim

/-- A call that the machine refuses is refused, and leaves object and destination alone. -/
theorem refused (build : Build) {digest : List UInt8 → Digest} {c : Call} (hs : Represents s t)
    (hc : ((hashMachine digest).answer t c).res ≠ .ok) :
    Runs (call build c) s [] ((hashMachine digest).answer t c) s ∧
      ((hashMachine digest).answer t c).digest = c.destination ∧ t.next c = t :=
  refused_of_status build hs.status hc

/-! ## One call -/

/-- `Update`, as a call. -/
theorem call_update {build : Build} {m : Input} {res : EMSHAResult} {es : List Event} {u : SHA256}
    (h : Runs (update build m) s es res u) :
    Runs (call build (.update m)) s es ⟨res, none⟩ u := by
  have hupdate : (update build m).run s = ⟨es, .ok (res, u)⟩ := h
  simp [Runs, call, hupdate]

/-- A member function that returns a code and the destination, as a call. -/
theorem call_of_pair {x : Member (EMSHAResult × Option Digest)} {res : EMSHAResult}
    {d : Option Digest} {es : List Event} {u : SHA256} (h : Runs x s es (res, d) u) :
    Runs (do let (res, d') ← x; return (⟨res, d'⟩ : Reply)) s es ⟨res, d⟩ u := by
  have hx : x.run s = ⟨es, .ok ((res, d), u)⟩ := h
  simp [Runs, hx]

/-- A call that the machine accepts is accepted. -/
theorem accepted (build : Build) {c : Call} (hs : Represents s t)
    (hlimit : (t.next c).message.length < 2 ^ 29)
    (hc : ((hashMachine (digestOf build)).answer t c).res = .ok) :
    ∃ cs, (c ≠ .reset → compressed (t.next c) = compressed t ++ cs) ∧
      Reaches (call build c) s cs ((hashMachine (digestOf build)).answer t c)
        fun s' => Represents s' (t.next c) := by
  cases c with
  | reset => exact ⟨[], fun h => absurd rfl h, [], fresh, rfl, .nil, absorbing_fresh⟩
  | update input =>
    by_cases hlength : input.length = 0
    · have hdata := Input.data_of_length_eq_zero hlength
      have hnext : t.next (.update input) = t := by cases t <;> simp [HashState.next, hdata]
      rw [hnext]
      refine ⟨[], fun _ => (List.append_nil _).symm, [], s, ?_, .nil, hs⟩
      simpa [hashMachine, hlength] using update_empty build hlength
    cases input with
    | null n => simp [hashMachine, show n ≠ 0 from hlength] at hc
    | bytes data fits =>
      have hdata : data ≠ [] := by simpa using hlength
      cases t with
      | done m => simp [hashMachine, hdata] at hc
      | absorbing m =>
        simp only [HashState.next, HashState.message, Input.data_bytes,
          List.length_append] at hlimit
        obtain ⟨cs, hcs, es, u, hrun, hlogs, hu⟩ := update_reaches build fits hs hlimit
        exact ⟨cs, fun _ => hcs, es, u, by simpa [hashMachine, hdata] using call_update hrun,
          hlogs, hu⟩
  | finalise d =>
    cases d with
    | none => cases hc
    | some d =>
      cases t with
      | done m => cases hc
      | absorbing m =>
        have hm : m.length < 2 ^ 29 := hlimit
        obtain ⟨cs, hcs, es, u, hrun, hlogs, hu⟩ := finalise_reaches build d hs
        rw [← digestOf_eq build hm d] at hrun
        exact ⟨cs, fun _ => hcs, es, u, call_of_pair hrun, hlogs, hu⟩
  | result d =>
    cases d with
    | none => cases hc
    | some d =>
      cases t with
      | done m =>
        have hm : m.length < 2 ^ 29 := hlimit
        have hrun := result_again build d hs
        rw [← digestOf_eq build hm d] at hrun
        exact ⟨[], fun _ => (List.append_nil _).symm, [], s, call_of_pair hrun, .nil, hs⟩
      | absorbing m =>
        have hm : m.length < 2 ^ 29 := hlimit
        obtain ⟨cs, hcs, es, u, hrun, hlogs, hu⟩ := result_reaches build d hs
        rw [← digestOf_eq build hm d] at hrun
        exact ⟨cs, fun _ => hcs, es, u, call_of_pair hrun, hlogs, hu⟩

/-- Any call is answered as the machine answers it, and unless it is `Reset` it goes on with the
compressions. -/
theorem call_reaches (build : Build) {c : Call} (hs : Represents s t)
    (hlimit : (t.next c).message.length < 2 ^ 29) :
    ∃ cs, (c ≠ .reset → compressed (t.next c) = compressed t ++ cs) ∧
      Reaches (call build c) s cs ((hashMachine (digestOf build)).answer t c)
        fun s' => Represents s' (t.next c) := by
  by_cases hc : ((hashMachine (digestOf build)).answer t c).res = .ok
  · exact accepted build hs hlimit hc
  · obtain ⟨hrun, -, hnext⟩ := refused build hs hc
    rw [hnext]
    exact ⟨[], fun _ => (List.append_nil _).symm, [], s, hrun, .nil, hs⟩

theorem simulates_hashMachine (build : Build) :
    (hashMachine (digestOf build)).Simulates (call build) (fun t => t.message.length < 2 ^ 29)
      Event.Sound Represents := by
  intro s t c hs hlimit
  obtain ⟨cs, -, es, s', hrun, hlogs, hs'⟩ := call_reaches build hs hlimit
  exact ⟨es, s', hrun, hs', hlogs.sound⟩

/-! ## Histories -/

/-- A new object answers as the machine does. -/
theorem runs_answers (build : Build) {cs : List Call} (hw : WithinLimit (2 ^ 29) cs) :
    ∃ es s, Runs (answerAll (call build) cs) fresh es
        ((hashMachine (digestOf build)).answers .start cs) s ∧
      Represents s (stateAfter cs) ∧ ∀ e ∈ es, e.Sound := by
  have hfresh : Represents fresh .start := absorbing_fresh
  obtain ⟨es, s, hrun, hs, hsound⟩ :=
    (simulates_hashMachine build).run hfresh ((withinLimit_iff rfl).mp hw)
  rw [after_start rfl] at hs
  exact ⟨es, s, hrun, hs, hsound⟩

/-- After any history that stays within the limit, any call is answered as the machine answers
it; the message is what the history absorbed. A call that is refused, and an `Update` of length
zero, leave the object alone; a refused call leaves the destination alone. -/
theorem refines_hashMachine (build : Build) (cs : List Call) (c : Call)
    (hw : WithinLimit (2 ^ 29) (cs ++ [c])) :
    let machine := hashMachine (digestOf build)
    let t := stateAfter cs
    ∃ es rs s fs r s',
      Runs (answerAll (call build) cs) fresh es rs s ∧ rs = machine.answers .start cs ∧
      Represents s t ∧ t.message = absorbed (cs.zip rs) ∧
      Runs (call build c) s fs r s' ∧ r = machine.answer t c ∧ Represents s' (t.next c) ∧
      (r.res ≠ .ok → s' = s ∧ r.digest = c.destination) ∧
      (∀ m, c = .update m → m.length = 0 → s' = s) := by
  intro machine t
  obtain ⟨hcs, hc⟩ := hw.of_snoc
  obtain ⟨es, s, hrun, hs, -⟩ := runs_answers build hcs
  obtain ⟨fs, s', hcall, hs', -⟩ := simulates_hashMachine build s t c hs hc
  refine ⟨es, _, s, fs, _, s', hrun, rfl, hs, ?_, hcall, rfl, hs', fun hres => ?_, ?_⟩
  · exact (absorbed_zip_answers rfl (message_next_hashMachine _) cs).symm
  · obtain ⟨hrefused, hdestination, -⟩ := refused build hs hres
    exact ⟨(hcall.deterministic hrefused).2.2, hdestination⟩
  · rintro m rfl hm
    exact (hcall.deterministic (update_empty build hm)).2.2

/-- Two pieces of a message, a refused `Finalise`, and a digest. -/
theorem refines_hashMachine_pieces :
    ∃ es rs s, Runs (answerAll (call .ndebug) [.update (.bytes [1, 2] (by decide)),
        .finalise none, .update (.bytes [3] (by decide))]) fresh es rs s ∧
      absorbed (List.zip [.update (.bytes [1, 2] (by decide)), .finalise none,
        .update (.bytes [3] (by decide))] rs) = [1, 2, 3] := by
  obtain ⟨es, rs, s, fs, r, s', hrun, -, -, hmessage, -⟩ := refines_hashMachine .ndebug
    [.update (.bytes [1, 2] (by decide)), .finalise none, .update (.bytes [3] (by decide))]
    (.result (some (Vector.replicate 32 0))) (by decide)
  exact ⟨es, rs, s, hrun, hmessage.symm⟩

end LibEmsha.SHA256
