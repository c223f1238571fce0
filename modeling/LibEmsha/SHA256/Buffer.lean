import LibEmsha.Library.Blocks
import LibEmsha.Library.MerkleDamgard
import LibEmsha.Model.SHA256

/-!
# The message block as a buffer

`Holds h n r s` says that the object `s` is open, has the intermediate hash `h` and counted `n`
bits, and that `r` is what its message block holds up to the index. Each operation on the
message block takes such a state to another one; `Reaches` records in passing that all writes
stay inside the block, that no length is refused, and which blocks are compressed.
-/

namespace LibEmsha
open Traced MerkleDamgard Blocks

/-! ## What is logged -/

/-- A write inside the message block, and a length that is counted. -/
def Event.Sound : Event → Prop
  | .store mbi => mbi.toNat < 64
  | .addLength res => res = .ok
  | .updateMessageBlock _ _ _ => True

/-- The compressions of a log, in order. -/
def applications (es : List Event) : List (Application Chain Block) :=
  es.filterMap fun
    | .updateMessageBlock iHash mb iHash' => some ⟨iHash, mb, iHash'⟩
    | .store _ | .addLength _ => none

theorem mem_applications {es : List Event} {x : Application Chain Block} :
    x ∈ applications es ↔ .updateMessageBlock x.chain x.block x.result ∈ es := by
  rw [applications, List.mem_filterMap]
  constructor
  · rintro ⟨e, he, hx⟩
    cases e <;> simp_all
    subst hx
    exact he
  · exact fun he => ⟨_, he, rfl⟩

theorem applications_append (es fs : List Event) :
    applications (es ++ fs) = applications es ++ applications fs := List.filterMap_append

/-- All events are sound, and the compressions are `calls`. -/
structure Logs (calls : List (Application Chain Block)) (es : List Event) : Prop where
  sound : ∀ e ∈ es, e.Sound
  applications : applications es = calls

theorem Logs.nil : Logs [] [] := ⟨by simp, rfl⟩

theorem Logs.append {cs ds : List (Application Chain Block)} {es fs : List Event}
    (he : Logs cs es) (hf : Logs ds fs) : Logs (cs ++ ds) (es ++ fs) where
  sound e h := (List.mem_append.mp h).elim (he.sound e) (hf.sound e)
  applications := by rw [applications_append, he.applications, hf.applications]

/-- From `s` the member function returns `a` in a state that satisfies `Q`, with the
compressions `calls` and only sound events. -/
def Reaches {α : Type} (x : SHA256.Member α) (s : SHA256)
    (calls : List (Application Chain Block)) (a : α) (Q : SHA256 → Prop) : Prop :=
  Meets x (Logs calls) s a Q

namespace Reaches

variable {α β : Type} {s t : SHA256} {a : α} {b : β} {P Q : SHA256 → Prop}
  {cs ds : List (Application Chain Block)}

protected theorem pure (h : Q s) : Reaches (pure a) s [] a Q := Meets.pure .nil h

protected theorem modifyState {f : SHA256 → SHA256} (h : Q (f s)) :
    Reaches (modifyState f) s [] () Q := Meets.modifyState .nil h

protected theorem bind {x : SHA256.Member α} {f : α → SHA256.Member β} (hx : Reaches x s cs a P)
    (hf : ∀ t, P t → Reaches (f a) t ds b Q) : Reaches (x >>= f) s (cs ++ ds) b Q :=
  Meets.bind (fun _ _ => Logs.append) hx hf

/-- A step that compresses nothing in front of others. -/
theorem bind_nil {x : SHA256.Member α} {f : α → SHA256.Member β} (hx : Reaches x s [] a P)
    (hf : ∀ t, P t → Reaches (f a) t ds b Q) : Reaches (x >>= f) s ds b Q := Reaches.bind hx hf

/-- A step that compresses nothing after another. -/
theorem bind_pure {x : SHA256.Member α} {f : α → SHA256.Member β} (hx : Reaches x s cs a P)
    (hf : ∀ t, P t → Reaches (f a) t [] b Q) : Reaches (x >>= f) s cs b Q :=
  List.append_nil cs ▸ Reaches.bind hx hf

theorem getState_bind {f : SHA256 → SHA256.Member β} (h : Reaches (f s) s ds b Q) :
    Reaches (getState >>= f) s ds b Q := Meets.getState_bind h

end Reaches

namespace SHA256

/-- The object is open, with intermediate hash `h` and `n` bits counted, and its message block
holds `r` up to the index. -/
structure Holds (h : Chain) (n : ℕ) (r : List UInt8) (s : SHA256) : Prop where
  hStatus : s.hStatus = .ok
  hComplete : s.hComplete = 0
  iHash : s.iHash = h
  mlen : s.mlen.toNat = n
  mbi : s.mbi.toNat = r.length
  mb : s.mb.toList.take r.length = r

variable {h : Chain} {n : ℕ} {r : List UInt8} {s : SHA256}

theorem Holds.mb_eq {b : Block} (hs : Holds h n b.toList s) : s.mb = b :=
  eq_of_take_eq (by simpa using hs.mb)

/-- A new or a reset object holds nothing. -/
theorem holds_fresh : Holds emsha256H0 0 [] fresh := ⟨rfl, rfl, rfl, rfl, rfl, rfl⟩

theorem store_reaches (x : UInt8) (hs : Holds h n r s) (hr : r.length < 64) :
    Reaches (store x) s [] () (Holds h n (r ++ [x])) := by
  have hlt : s.mbi.toNat < 64 := by rw [hs.mbi]; exact hr
  refine ⟨[.store s.mbi], { s with mb := s.mb.set s.mbi.toNat x hlt, mbi := s.mbi + 1 }, ?_,
    ⟨by simpa [Event.Sound] using hlt, rfl⟩, hs.hStatus, hs.hComplete, hs.iHash, hs.mlen, ?_, ?_⟩
  · simp [Runs, store, hlt]
  · have hone : (1 : UInt8).toNat = 1 := rfl
    simp only [UInt8.toNat_add, hone, List.length_append, List.length_singleton, hs.mbi]
    omega
  · simp only [List.length_append, List.length_singleton, ← hs.mbi]
    rw [take_set_succ, hs.mbi, hs.mb]

theorem addLength_reaches (build : Build) (l : UInt32) (hs : Holds h n r s) (hl : 0 < l.toNat)
    (hn : n + l.toNat < 2 ^ 32) :
    Reaches (addLength build l) s [] .ok (Holds h (n + l.toNat) r) := by
  have htmp : (s.mlen.toUInt32 + l).toUInt64.toNat = n + l.toNat := by
    simp only [UInt32.toNat_toUInt64, UInt32.toNat_add, UInt64.toNat_toUInt32, hs.mlen]
    omega
  have hle : s.mlen ≤ (s.mlen.toUInt32 + l).toUInt64 := by
    rw [UInt64.le_iff_toNat_le, htmp, hs.mlen]
    omega
  have hpos : 0 < (s.mlen.toUInt32 + l).toUInt64 := by
    rw [UInt64.lt_iff_toNat_lt, htmp]
    exact Nat.lt_of_lt_of_le hl (Nat.le_add_left _ _)
  refine ⟨[.addLength .ok], { s with mlen := (s.mlen.toUInt32 + l).toUInt64 }, ?_,
    ⟨by simp [Event.Sound], rfl⟩, hs.hStatus, hs.hComplete, hs.iHash, htmp, hs.mbi, hs.mb⟩
  simp only [Runs, addLength, run_bind, run_getState, Outcome.andThen_ok, if_pos hle,
    run_modifyState, assert_of build hpos]
  rfl

theorem updateMessageBlock_reaches {b : Block} (hs : Holds h n r s) (hb : s.mb = b) :
    Reaches updateMessageBlock s [⟨h, b, compress h b⟩] () (Holds (compress h b) n []) := by
  obtain ⟨hstatus, hcomplete, rfl, hmlen, -, -⟩ := hs
  subst hb
  exact ⟨[.updateMessageBlock s.iHash s.mb (compress s.iHash s.mb)],
    { s with mbi := 0, iHash := compress s.iHash s.mb }, rfl,
    ⟨by simp [Event.Sound], rfl⟩, hstatus, hcomplete, rfl, hmlen, rfl, rfl⟩

theorem zeroFill_reaches {bound : ℕ} (hs : Holds h n r s) (hr : r.length ≤ bound)
    (hbound : bound ≤ 64) :
    Reaches (zeroFill bound) s [] ()
      (Holds h n (r ++ List.replicate (bound - r.length) 0)) := by
  let P : List Event → SHA256 → Prop := fun log t =>
    Logs [] log ∧ ∃ k, Holds h n (r ++ List.replicate k 0) t ∧ r.length + k ≤ bound
  have start : P [] s := ⟨.nil, 0, by simpa using hs, hr⟩
  have step : ∀ log t, P log t → decide (t.mbi.toNat < bound) = true → ∃ es u,
      Runs (store 0) t es () u ∧ bound - u.mbi.toNat < bound - t.mbi.toNat ∧ P (log ++ es) u := by
    rintro log t ⟨hlog, k, ht, hk⟩ htest
    have hmbi := ht.mbi
    simp only [List.length_append, List.length_replicate, decide_eq_true_eq] at hmbi htest
    obtain ⟨es, u, hu, hes, hu'⟩ := store_reaches 0 ht (by simp; omega)
    have hmbi' := hu'.mbi
    simp only [List.length_append, List.length_replicate, List.length_singleton] at hmbi'
    refine ⟨es, u, hu, by omega, hlog.append hes, k + 1, ?_, by omega⟩
    simpa [List.replicate_succ'] using hu'
  obtain ⟨es, t, hrun, htest, hlogs, k, ht, hk⟩ := Runs.while_rule step start
  -- The loop ends with the index at the bound, so the number of zeros is known.
  have hmbi := ht.mbi
  simp only [List.length_append, List.length_replicate, decide_eq_false_iff_not] at hmbi htest
  obtain rfl : k = bound - r.length := by omega
  exact ⟨es, t, hrun, hlogs, ht⟩

end SHA256
end LibEmsha
