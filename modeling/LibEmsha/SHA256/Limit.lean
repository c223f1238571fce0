import LibEmsha.SHA256.Refinement

/-!
# Beyond the length that can be counted

`addLength` counts in 32 bits, so it refuses the byte number `2 ^ 29`. `Update` does not look at
the refusal: the block that this byte completes is not compressed, the index stays at 64, and
the next byte is written past the message block. The theorems here say that the length and the
index are right throughout a history exactly if the history stays below that byte.
-/

namespace LibEmsha.SHA256
open Traced Blocks

/-! ## The byte that is refused -/

variable {m : List UInt8} {s : SHA256}

/-- The byte number `2 ^ 29`. -/
theorem absorb_refused (build : Build) (b : UInt8) (hs : Absorbing m s)
    (hm : m.length + 1 = 2 ^ 29) :
    ∃ t, Runs (absorb build b) s [.store s.mbi, .addLength .inputTooLong] () t ∧
      t.mbi = 64 ∧ t.hStatus = .ok := by
  have hmbi : s.mbi.toNat = 63 := by
    rw [hs.mbi_eq]
    omega
  have hmbi' : s.mbi = 63 := UInt8.toNat_inj.mp hmbi
  have hmlen : s.mlen = 0xfffffff8 := by
    rw [← UInt64.toNat_inj, Holds.mlen hs]
    simp
    omega
  have hstatus : s.hStatus = .ok := Holds.hStatus hs
  refine ⟨{ s with mb := s.mb.set 63 b, mbi := 64 }, ?_, rfl, hstatus⟩
  simp [Runs, absorb, store, addLength, hmbi', hmlen]

/-- Behind it nothing can be stored. -/
theorem absorb_outOfBounds (build : Build) (b : UInt8) (hs : s.mbi = 64) :
    (absorb build b).run s = ⟨[.store 64], .error .outOfBounds⟩ := by
  simp [absorb, store, hs]

/-- An `Update` that reaches the byte: it is refused in the middle of the loop, and then the
`Update` returns `OK` with the index at 64 or writes past the message block. -/
theorem update_overrun (build : Build) {data : List UInt8} (fits : data.length < 2 ^ 32)
    (hs : Absorbing m s) (hm : m.length < 2 ^ 29) (hover : 2 ^ 29 ≤ m.length + data.length) :
    ∃ es, .addLength .inputTooLong ∈ es ∧
      ((∃ t, Runs (update build (.bytes data fits)) s es .ok t ∧ t.mbi = 64) ∨
        (update build (.bytes data fits)).run s =
          ⟨es ++ [.store 64], .error .outOfBounds⟩) := by
  obtain ⟨front, b, rest, rfl, hfront⟩ : ∃ front b rest, data = front ++ b :: rest ∧
      m.length + front.length + 1 = 2 ^ 29 := by
    have hk : 2 ^ 29 - 1 - m.length < data.length := by omega
    refine ⟨data.take (2 ^ 29 - 1 - m.length), data[2 ^ 29 - 1 - m.length],
      data.drop (2 ^ 29 - 1 - m.length + 1), ?_, ?_⟩
    · simp
    · rw [List.length_take]
      omega
  obtain ⟨cs, -, es, t, hrun, -, ht⟩ := each_absorb_reaches build hs
    (show m.length + front.length < 2 ^ 29 by omega)
  obtain ⟨u, hrefused, hmbi, hstatus⟩ :=
    absorb_refused build b ht (by rw [List.length_append]; omega)
  have hloop : (each (absorb build) (front ++ b :: rest)).run s =
      ((each (absorb build) rest).run u).after
        (es ++ [.store t.mbi, .addLength .inputTooLong]) := by
    have hb : (absorb build b).run t = ⟨[.store t.mbi, .addLength .inputTooLong], .ok ((), u)⟩ :=
      hrefused
    rw [hrun.each_append, each, run_bind, hb, Outcome.andThen_ok, Outcome.after_after]
  have hupdate : (update build (.bytes (front ++ b :: rest) fits)).run s =
      (each (absorb build) (front ++ b :: rest) >>= fun _ =>
        do return (← getState).hStatus).run s := by
    have hopen : s.hStatus = .ok ∧ s.hComplete = 0 := ⟨Holds.hStatus hs, Holds.hComplete hs⟩
    simp [update, hopen]
  refine ⟨es ++ [.store t.mbi, .addLength .inputTooLong], by simp, ?_⟩
  cases rest with
  | nil =>
    refine .inl ⟨u, ?_, hmbi⟩
    simp [Runs, hupdate, hloop, each, hstatus]
  | cons x rest =>
    right
    simp [hupdate, hloop, each, absorb_outOfBounds build x hmbi]

/-- A history that leaves the limit does so in some first `Update`, which reaches the byte. -/
theorem exists_overrun {cs : List Call} (hw : ¬ WithinLimit (2 ^ 29) cs) :
    ∃ pre data fits m, pre ++ [.update (.bytes data fits)] <+: cs ∧
      WithinLimit (2 ^ 29) pre ∧ stateAfter pre = .absorbing m ∧ m.length < 2 ^ 29 ∧
      2 ^ 29 ≤ m.length + data.length := by
  have hnext : (hashMachine fun _ => Vector.replicate 32 0).next = HashState.next := rfl
  rw [withinLimit_iff hnext] at hw
  obtain ⟨pre, c, post, rfl, hpre, hleave⟩ := Machine.exists_first_leave (by decide) hw
  rw [← withinLimit_iff hnext] at hpre
  rw [after_start hnext, hnext] at hleave
  have hm : (stateAfter pre).message.length < 2 ^ 29 := hpre pre (List.prefix_refl _)
  obtain ⟨m, data, fits, hstate, rfl, hover⟩ := HashState.of_leaves_limit hm hleave
  rw [hstate] at hm
  exact ⟨pre, data, fits, m, ⟨post, by simp⟩, hpre, hstate, hm, hover⟩

/-! ## The index -/

/-- Throughout the history every write `mb[mbi]` is inside the message block, and so is the
index between calls. -/
def InBounds (build : Build) (cs : List Call) : Prop :=
  ∀ pre, pre <+: cs →
    (∀ mbi, .store mbi ∈ (history build pre).events → mbi.toNat < 64) ∧
    ∀ rs s, (history build pre).result = .ok (rs, s) → s.mbi.toNat < 64

theorem inBounds_of_withinLimit (build : Build) {cs : List Call}
    (hw : WithinLimit (2 ^ 29) cs) : InBounds build cs := by
  intro pre hpre
  obtain ⟨es, s, hrun, hs, hsound⟩ := runs_answers build (hw.of_prefix hpre)
  have hhistory : history build pre = ⟨es, .ok (_, s)⟩ := hrun
  rw [hhistory]
  refine ⟨fun mbi hmbi => hsound _ hmbi, fun rs s' heq => ?_⟩
  obtain ⟨-, rfl⟩ := Prod.mk.inj (Except.ok.inj heq)
  exact hs.mbi_lt

theorem not_inBounds_of_overrun (build : Build) {cs : List Call}
    (hw : ¬ WithinLimit (2 ^ 29) cs) : ¬ InBounds build cs := by
  intro hbounds
  obtain ⟨pre, data, fits, m, hprefix, hpre, hstate, hm, hover⟩ := exists_overrun hw
  obtain ⟨es, s, hrun, hs, -⟩ := runs_answers build hpre
  rw [hstate] at hs
  obtain ⟨hstores, hindex⟩ := hbounds _ hprefix
  obtain ⟨fs, -, hend⟩ := update_overrun build fits hs hm hover
  rcases hend with ⟨t, hupdate, hmbi⟩ | hfault
  · -- The `Update` returns, with the index at 64.
    have hhistory := hrun.answerAll_append (call_update hupdate).answerAll_singleton
    have hlt := hindex _ t (congrArg Outcome.result hhistory)
    rw [hmbi] at hlt
    exact absurd hlt (by decide)
  · -- It writes past the message block.
    have hmem : .store 64 ∈ ((call build (.update (.bytes data fits))).run s).events := by
      simp [call, hfault]
    exact absurd (hstores 64 (hrun.mem_events_snoc hmem)) (by decide)

/-- The index stays in the message block exactly if the history absorbs fewer than `2 ^ 29`
bytes between two `Reset`s. -/
theorem inBounds_iff_withinLimit (build : Build) (cs : List Call) :
    InBounds build cs ↔ WithinLimit (2 ^ 29) cs :=
  ⟨fun h => by_contra fun hw => not_inBounds_of_overrun build hw h, inBounds_of_withinLimit build⟩

/-- An `Update` with `2 ^ 29` bytes leaves the limit. -/
theorem not_withinLimit_update {data : List UInt8} {fits : data.length < 2 ^ 32}
    (h : 2 ^ 29 ≤ data.length) : ¬ WithinLimit (2 ^ 29) [.update (.bytes data fits)] := by
  intro hw
  have hlt : ([] ++ data).length < 2 ^ 29 := hw _ (List.prefix_refl _)
  exact absurd hlt (Nat.not_lt.mpr h)

/-- `2 ^ 29` zeros leave the index at 64. -/
theorem not_inBounds_zeros :
    ¬ InBounds .ndebug [.update (.bytes (List.replicate (2 ^ 29) 0)
      (by rw [List.length_replicate]; decide))] :=
  not_inBounds_of_overrun .ndebug (not_withinLimit_update (by rw [List.length_replicate]))

/-! ## The length -/

/-- Throughout the history, for each `Update`: if it returns `OK` on an open object, the length
is eight times the number of bytes absorbed; and if `addLength` refuses a byte in it, the `Update`
returns `InputTooLong`, and no `Finalise` or `Result` returns `OK` before the next `Reset`. -/
def CountsLength (build : Build) (cs : List Call) : Prop :=
  ∀ pre m, pre ++ [.update m] <+: cs →
    ∀ es rs s, Runs (answerAll (call build) pre) fresh es rs s →
      (∀ fs r t, Runs (call build (.update m)) s fs r t → r.res = .ok → t.hComplete = 0 →
        let n := (absorbed ((pre ++ [Call.update m]).zip (rs ++ [r]))).length
        8 * n < 2 ^ 64 → t.mlen.toNat = 8 * n) ∧
      (.addLength .inputTooLong ∈ ((call build (.update m)).run s).events →
        ∃ fs r t, Runs (call build (.update m)) s fs r t ∧ r.res = .inputTooLong ∧
          ∀ mid c, pre ++ .update m :: (mid ++ [c]) <+: cs → .reset ∉ mid → c.asksDigest = true →
            ∀ gs qs q u, Runs (answerAll (call build) (mid ++ [c])) t gs (qs ++ [q]) u →
              q.res ≠ .ok)

theorem countsLength_of_withinLimit (build : Build) {cs : List Call}
    (hw : WithinLimit (2 ^ 29) cs) : CountsLength build cs := by
  intro pre m hpre es rs s hrun
  obtain ⟨hpre', hm⟩ := (hw.of_prefix hpre).of_snoc
  obtain ⟨es', s', hrun', hs, -⟩ := runs_answers build hpre'
  obtain ⟨rfl, rfl, rfl⟩ := hrun.deterministic hrun'
  obtain ⟨fs', t', hcall, ht, hsound⟩ := simulates_hashMachine build s _ (.update m) hs hm
  constructor
  · intro fs r t hupdate hok hopen n hn
    obtain ⟨rfl, rfl, rfl⟩ := hupdate.deterministic hcall
    have hmessage : absorbed ((pre ++ [Call.update m]).zip ((hashMachine (digestOf build)).answers
        .start pre ++ [(hashMachine (digestOf build)).answer (stateAfter pre) (.update m)])) =
        (stateAfter (pre ++ [.update m])).message := by
      rw [← absorbed_zip_answers rfl (message_next_hashMachine (digestOf build)),
        Machine.answers_append]
      rfl
    have hnext : stateAfter (pre ++ [.update m]) = (stateAfter pre).next (.update m) := by
      simp [stateAfter]
    simp only [n, hmessage, hnext]
    change Represents t ((stateAfter pre).next (.update m)) at ht
    cases hstate : (stateAfter pre).next (.update m) with
    | absorbing M =>
      rw [hstate] at ht
      exact Holds.mlen ht
    | done M =>
      rw [hstate] at ht
      exact absurd hopen (Done.hComplete ht)
  · intro hrefused
    have hcall' : (call build (.update m)).run s = ⟨fs', .ok (_, t')⟩ := hcall
    rw [hcall'] at hrefused
    exact absurd (hsound _ hrefused) (by simp [Event.Sound])

theorem not_countsLength_of_overrun (build : Build) {cs : List Call}
    (hw : ¬ WithinLimit (2 ^ 29) cs) : ¬ CountsLength build cs := by
  intro hcounts
  obtain ⟨pre, data, fits, m, hprefix, hpre, hstate, hm, hover⟩ := exists_overrun hw
  obtain ⟨es, s, hrun, hs, -⟩ := runs_answers build hpre
  rw [hstate] at hs
  obtain ⟨fs, hrefused, hend⟩ := update_overrun build fits hs hm hover
  obtain ⟨-, hpoison⟩ := hcounts pre _ hprefix es _ s hrun
  rcases hend with ⟨t, hupdate, -⟩ | hfault
  · -- The `Update` returns, but it returns `OK`.
    have hcall : Runs (call build (.update (.bytes data fits))) s fs ⟨.ok, none⟩ t :=
      call_update hupdate
    have hevents : ((call build (.update (.bytes data fits))).run s).events = fs :=
      congrArg Outcome.events hcall
    obtain ⟨gs, r, u, hcall', hr, -⟩ := hpoison (hevents ▸ hrefused)
    rw [← (hcall.deterministic hcall').2.1] at hr
    cases hr
  · -- It does not return.
    have hcall : (call build (.update (.bytes data fits))).run s =
        ⟨fs ++ [.store 64], .error .outOfBounds⟩ := by
      simp [call, hfault]
    obtain ⟨gs, r, u, hcall', -⟩ := hpoison (by simp [hcall, hrefused])
    have herror := hcall.symm.trans hcall'
    simp at herror

/-- The length is right, and no digest is made from a wrong one, exactly if the history absorbs
fewer than `2 ^ 29` bytes between two `Reset`s. -/
theorem countsLength_iff_withinLimit (build : Build) (cs : List Call) :
    CountsLength build cs ↔ WithinLimit (2 ^ 29) cs :=
  ⟨fun h => by_contra fun hw => not_countsLength_of_overrun build hw h,
    countsLength_of_withinLimit build⟩

/-- The refusal of the last of `2 ^ 29` zeros does not reach the caller. -/
theorem not_countsLength_zeros :
    ¬ CountsLength .ndebug [.update (.bytes (List.replicate (2 ^ 29) 0)
      (by rw [List.length_replicate]; decide))] :=
  not_countsLength_of_overrun .ndebug (not_withinLimit_update (by rw [List.length_replicate]))

end LibEmsha.SHA256
