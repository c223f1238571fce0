import LibEmsha.SHA256.Codes
import LibEmsha.SHA256.Refinement

/-!
# The block buffer after any history

The refinement speaks of histories that stay within the limit throughout. Here only the message
since the last `Reset` has to: whatever went before, even a message too long to be counted, a
`Reset` leaves nothing of it (`tracked_of_runs`). The calls since then leave the same object when
they are made on a new one, and their log says which blocks were compressed.
-/

namespace LibEmsha.SHA256
open Traced MerkleDamgard Blocks

/-! ## The last `Reset` -/

/-- The calls since the last `Reset`, after one more call. -/
def sinceResetStep (calls : List Call) : Call → List Call
  | .reset => []
  | c => calls ++ [c]

/-- The calls since the last `Reset`, in order. -/
def sinceReset (cs : List Call) : List Call := cs.foldl sinceResetStep []

theorem sinceReset_reset (cs : List Call) : sinceReset (cs ++ [.reset]) = [] := by
  rw [sinceReset, List.foldl_concat]
  rfl

theorem sinceReset_snoc (cs : List Call) {c : Call} (hc : c ≠ .reset) :
    sinceReset (cs ++ [c]) = sinceReset cs ++ [c] := by
  rw [sinceReset, List.foldl_concat, ← sinceReset]
  cases c with
  | reset => exact (hc rfl).elim
  | update m => rfl
  | finalise d => rfl
  | result d => rfl

/-! ## One more call -/

theorem absorbed_snoc {cs : List Call} {rs : List Reply} (h : cs.length = rs.length) (c : Call)
    (r : Reply) :
    absorbed ((cs ++ [c]).zip (rs ++ [r])) = absorbStep (absorbed (cs.zip rs)) (c, r) := by
  rw [absorbed, List.zip_append h, List.foldl_append]
  rfl

/-- Only `Reset` forgets bytes. -/
theorem length_le_absorbStep (m : List UInt8) {c : Call} (r : Reply) (hc : c ≠ .reset) :
    m.length ≤ (absorbStep m (c, r)).length := by
  cases c with
  | reset => exact (hc rfl).elim
  | update input =>
    simp only [absorbStep]
    split <;> simp
  | finalise d => exact Nat.le_refl _
  | result d => exact Nat.le_refl _

variable {build : Build} {s s' : SHA256} {t : HashState} {c : Call} {es : List Event} {r : Reply}

/-- If an `Update` returns at all then its code says that the bytes are taken, so a call stays
within the limit as soon as what was accepted does. -/
theorem length_next_lt (hs : Represents s t) (hrun : Runs (call build c) s es r s')
    (h : (absorbStep t.message (c, r)).length < 2 ^ 29) : (t.next c).message.length < 2 ^ 29 := by
  cases c with
  | reset => cases t <;> exact h
  | finalise d => cases d <;> cases t <;> exact h
  | result d => cases d <;> cases t <;> exact h
  | update input =>
    cases t with
    | done m => exact (length_le_absorbStep m r (by simp)).trans_lt h
    | absorbing m =>
      cases input with
      | null n => simpa [absorbStep, HashState.next, HashState.message] using h
      | bytes data fits =>
        by_cases hdata : data = []
        · simpa [absorbStep, HashState.next, HashState.message, hdata] using h
        -- The object is open, so the code is `OK` and the transcript counts the bytes.
        obtain ⟨fs, res, u, gs, hupdate, hpure, -⟩ := hrun.of_bind
        obtain ⟨-, rfl, -⟩ := hpure.deterministic (.pure _ u)
        have hopen : Good s ∧ s.hComplete = 0 := ⟨Holds.hStatus hs, Holds.hComplete hs⟩
        obtain ⟨rfl, -⟩ := update_ensures fits hdata s fs res u hupdate hopen
        exact h

/-! ## Histories -/

/-- As long as the bytes accepted since the last `Reset` can be counted, the object is in an
abstract state with them; the calls since then, made on a new object, leave it too, and the end of
the log, which is theirs, has the compressions of that state. -/
structure Tracked (build : Build) (cs : List Call) (es : List Event) (rs : List Reply)
    (s : SHA256) : Prop where
  length : cs.length = rs.length
  state : (absorbed (cs.zip rs)).length < 2 ^ 29 → ∃ t, t.message = absorbed (cs.zip rs) ∧
    Represents s t ∧ ∃ log rs', log <:+ es ∧
      Runs (answerAll (call build) (sinceReset cs)) fresh log rs' s ∧
      applications log = compressed t

/-- `Reset` starts again. -/
theorem tracked_reset {cs : List Call} {rs : List Reply} {log : List Event}
    (hlength : cs.length = rs.length) :
    Tracked build (cs ++ [.reset]) log (rs ++ [⟨.ok, none⟩]) fresh where
  length := by simp [hlength]
  state _ := by
    rw [absorbed_snoc hlength, sinceReset_reset]
    exact ⟨.start, rfl, absorbing_fresh, [], [], List.nil_suffix, .pure [] fresh,
      absorptions_nil.symm⟩

/-- Any other call goes on. -/
theorem Tracked.snoc {cs : List Call} {rs : List Reply} {log : List Event}
    (h : Tracked build cs log rs s) (hc : c ≠ .reset) (hrun : Runs (call build c) s es r s') :
    Tracked build (cs ++ [c]) (log ++ es) (rs ++ [r]) s' where
  length := by simp [h.length]
  state hn := by
    rw [absorbed_snoc h.length] at hn ⊢
    obtain ⟨t, hmessage, hs, log', rs', hsuffix, hsince, hlog⟩ :=
      h.state ((length_le_absorbStep _ r hc).trans_lt hn)
    rw [← hmessage] at hn ⊢
    obtain ⟨cs', hcs', es', u, hrun', hlogs, hu⟩ :=
      call_reaches build hs (length_next_lt hs hrun hn)
    obtain ⟨rfl, rfl, rfl⟩ := hrun.deterministic hrun'
    have hsince' := hsince.answerAll_append hrun.answerAll_singleton
    rw [← sinceReset_snoc cs hc] at hsince'
    refine ⟨t.next c, (message_next_hashMachine _ t c).symm, hu, _, _,
      List.suffix_append_self_iff.mpr hsuffix, hsince', ?_⟩
    rw [applications_append, hlog, hlogs.applications, hcs' hc]

theorem tracked_of_runs {cs : List Call} {rs : List Reply}
    (h : Runs (answerAll (call build) cs) fresh es rs s) : Tracked build cs es rs s := by
  refine Runs.answerAll_rule (P := Tracked build) ?_ ?_ h
  · exact ⟨rfl, fun _ => ⟨.start, rfl, absorbing_fresh, [], [], List.nil_suffix, .pure [] fresh,
      absorptions_nil.symm⟩⟩
  · intro cs log rs s c es r s' htracked hrun
    by_cases hc : c = .reset
    · subst hc
      have hreset : Runs (call build .reset) s [] ⟨.ok, none⟩ fresh := rfl
      obtain ⟨rfl, rfl, rfl⟩ := hrun.deterministic hreset
      exact tracked_reset htracked.length
    · exact htracked.snoc hc hrun

/-- In every state that a history reaches without a fault, if the object is not finalised and
accepted the `n` bytes `M` since the last `Reset`, with `n` below `2 ^ 29`: the bits are counted,
the index is `n` modulo 64, the message block holds the last bytes of `M` up to the index, and the
intermediate hash is the compression folded over the full blocks of `M`. The log of the calls since
the last `Reset`, with which the log of the history ends, has these compressions, each once and in
order, and no other. -/
theorem blockBuffer_invariant (build : Build) (cs : List Call) {es : List Event} {rs : List Reply}
    {s : SHA256} (hrun : Runs (answerAll (call build) cs) fresh es rs s) (hopen : s.hComplete = 0)
    (hn : (absorbed (cs.zip rs)).length < 2 ^ 29) :
    let M := absorbed (cs.zip rs)
    let n := M.length
    s.mlen.toNat = 8 * n ∧ s.mbi.toNat = n % 64 ∧
      s.mb.toList.take s.mbi.toNat = M.drop (n - n % 64) ∧
      ∃ blocks : List Block, join blocks = M.take (64 * (n / 64)) ∧
        s.iHash = blocks.foldl compress emsha256H0 ∧
        ∃ log rs', log <:+ es ∧ Runs (answerAll (call build) (sinceReset cs)) fresh log rs' s ∧
          applications log = calls compress emsha256H0 blocks := by
  intro M n
  obtain ⟨t, hmessage, hs, hlog⟩ := (tracked_of_runs hrun).state hn
  cases t with
  | done m => exact absurd hopen (Done.hComplete hs)
  | absorbing m =>
    obtain rfl : m = M := hmessage
    have hindex := Absorbing.mbi_eq hs
    refine ⟨Holds.mlen hs, hindex, ?_, (cut 64 M).1, join_blocks M, Holds.iHash hs, hlog⟩
    have hmb := Holds.mb hs
    rw [length_rest, rest_eq_drop] at hmb
    rw [hindex, hmb]
    congr 1
    omega

/-- A message that was finalised, and three bytes after a `Reset`. -/
theorem blockBuffer_invariant_reset :
    ∃ es rs s, Runs (answerAll (call .ndebug) [.update (.bytes [7] (by decide)),
        .result (some (Vector.replicate 32 0)), .reset, .update (.bytes [1, 2] (by decide)),
        .update (.bytes [3] (by decide))]) fresh es rs s ∧
      s.mlen.toNat = 24 ∧ s.mbi.toNat = 3 ∧ s.mb.toList.take s.mbi.toNat = [1, 2, 3] := by
  let cs : List Call := [.update (.bytes [7] (by decide)), .result (some (Vector.replicate 32 0)),
    .reset, .update (.bytes [1, 2] (by decide)), .update (.bytes [3] (by decide))]
  obtain ⟨es, s, hrun, hs, -⟩ := runs_answers .ndebug (show WithinLimit (2 ^ 29) cs by decide)
  have hmessage : absorbed (cs.zip ((hashMachine (digestOf .ndebug)).answers .start cs)) =
      [1, 2, 3] := absorbed_zip_answers rfl (message_next_hashMachine _) cs
  obtain ⟨hmlen, hmbi, hmb, -⟩ := blockBuffer_invariant .ndebug cs hrun (Holds.hComplete hs)
    (by rw [hmessage]; decide)
  rw [hmessage] at hmlen hmbi hmb
  exact ⟨es, _, s, hrun, hmlen, hmbi, hmb⟩

end LibEmsha.SHA256
