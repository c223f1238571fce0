import LibEmsha.Model.HMAC
import LibEmsha.SHA256.Refinement

/-!
# The class `HMAC` refines the machine of a keyed hash

One `SHA256` object serves the key, the inner hash and the outer hash, and `buf` holds first the
inner digest and then the tag. `Represents` ties `hstate`, `ctx`, `k` and `buf` to the abstract
state: while the object is open, `ctx` absorbed the inner key block and the message; when it is
finished, `buf` is the tag.
-/

namespace LibEmsha
open Traced SHA256 MerkleDamgard

/-- All events are sound. -/
def SoundLog (es : List Event) : Prop := ∀ e ∈ es, e.Sound

theorem SoundLog.nil : SoundLog [] := by simp [SoundLog]

theorem SoundLog.append (es fs : List Event) (he : SoundLog es) (hf : SoundLog fs) :
    SoundLog (es ++ fs) := fun e h => (List.mem_append.mp h).elim (he e) (hf e)

namespace HMAC

variable {α β : Type} {a : α} {b : β} {s : HMAC} {P Q : HMAC → Prop}
  {cs ds : List (Application Chain Block)}

/-- From `s` the member function returns `a` in a state that satisfies `Q`. -/
def Ends (x : Member α) (s : HMAC) (a : α) (Q : HMAC → Prop) : Prop := Meets x SoundLog s a Q

namespace Ends

protected theorem pure (h : Q s) : Ends (pure a) s a Q := Meets.pure .nil h

protected theorem modifyState {f : HMAC → HMAC} (h : Q (f s)) : Ends (modifyState f) s () Q :=
  Meets.modifyState .nil h

protected theorem bind {x : Member α} {f : α → Member β} (hx : Ends x s a P)
    (hf : ∀ t, P t → Ends (f a) t b Q) : Ends (x >>= f) s b Q := Meets.bind SoundLog.append hx hf

theorem getState_bind {f : HMAC → Member β} (h : Ends (f s) s b Q) :
    Ends (getState >>= f) s b Q := Meets.getState_bind h

theorem onCtx {x : SHA256.Member α} {R : SHA256 → Prop} (h : Reaches x s.ctx cs a R)
    (hput : ∀ ctx, R ctx → Q { s with ctx := ctx }) : Ends (onCtx x) s a Q := by
  obtain ⟨es, t, hr, hl, hR⟩ := h
  exact Meets.zoom ⟨es, t, hr, hl.sound, hR⟩ hput

end Ends

/-- The same, with the compressions `cs` and no other. -/
def Makes (x : Member α) (s : HMAC) (cs : List (Application Chain Block)) (a : α)
    (Q : HMAC → Prop) : Prop := Meets x (Logs cs) s a Q

namespace Makes

theorem ends {x : Member α} (h : Makes x s cs a Q) : Ends x s a Q := by
  obtain ⟨es, t, hr, hl, hQ⟩ := h
  exact ⟨es, t, hr, hl.sound, hQ⟩

protected theorem pure (h : Q s) : Makes (pure a) s [] a Q := Meets.pure .nil h

protected theorem modifyState {f : HMAC → HMAC} (h : Q (f s)) : Makes (modifyState f) s [] () Q :=
  Meets.modifyState .nil h

protected theorem bind {x : Member α} {f : α → Member β} (hx : Makes x s cs a P)
    (hf : ∀ t, P t → Makes (f a) t ds b Q) : Makes (x >>= f) s (cs ++ ds) b Q :=
  Meets.bind (fun _ _ => Logs.append) hx hf

/-- A step that compresses nothing in front of others. -/
theorem bind_nil {x : Member α} {f : α → Member β} (hx : Makes x s [] a P)
    (hf : ∀ t, P t → Makes (f a) t ds b Q) : Makes (x >>= f) s ds b Q := Makes.bind hx hf

/-- A step that compresses nothing after another. -/
theorem bind_pure {x : Member α} {f : α → Member β} (hx : Makes x s cs a P)
    (hf : ∀ t, P t → Makes (f a) t [] b Q) : Makes (x >>= f) s cs b Q :=
  List.append_nil cs ▸ Makes.bind hx hf

theorem getState_bind {f : HMAC → Member β} (h : Makes (f s) s cs b Q) :
    Makes (getState >>= f) s cs b Q := Meets.getState_bind h

theorem onCtx {x : SHA256.Member α} {R : SHA256 → Prop} (h : Reaches x s.ctx cs a R)
    (hput : ∀ ctx, R ctx → Q { s with ctx := ctx }) : Makes (onCtx x) s cs a Q := Meets.zoom h hput

theorem intoBuf {x : Option Digest → SHA256.Member (EMSHAResult × Option Digest)}
    {res : EMSHAResult} {d : Digest} {R : SHA256 → Prop}
    (h : Reaches (x (some s.buf)) s.ctx cs (res, some d) R)
    (hput : ∀ ctx, R ctx → Q { s with ctx := ctx, buf := d }) : Makes (intoBuf x) s cs res Q := by
  refine .getState_bind ?_
  refine (Makes.onCtx (Q := fun t => Q { t with buf := d }) h hput).bind_pure fun t ht => ?_
  exact (Makes.modifyState ht).bind_nil fun u hu => .pure hu

end Makes

@[simp] theorem orInvalid_ok (retval : α) (rest : Member α) : orInvalid .ok retval rest = rest := by
  simp [orInvalid]

/-! ## The parts of the object -/

/-- The object with everything it is made of, while `ctx` absorbs `x`. -/
structure Working (k : Block) (hstate : HMACState) (buf : Digest) (x : List UInt8) (s : HMAC) :
    Prop where
  k : s.k = k
  hstate : s.hstate = hstate
  buf : s.buf = buf
  ctx : Absorbing x s.ctx

section

variable (build : Build) {k : Block} {hstate : HMACState} {buf d : Digest} {m x : List UInt8}

/-- `ctx.Reset`. -/
theorem restart_makes (s : HMAC) :
    Makes (onCtx SHA256.Reset) s [] .ok (Working s.k s.hstate s.buf []) :=
  .onCtx ⟨[], SHA256.fresh, rfl, .nil, absorbing_fresh⟩ fun _ h => ⟨rfl, rfl, rfl, h⟩

/-- The compressions that absorbing `data` behind `x` makes. -/
def absorptionsAfter (x data : List UInt8) : List (Application Chain Block) :=
  (absorptions (x ++ data)).drop (absorptions x).length

/-- The compressions that finishing makes once `x` is absorbed. -/
def compressionsAfter (x : List UInt8) : List (Application Chain Block) :=
  (compressions x).drop (absorptions x).length

theorem absorptions_append_after (x data : List UInt8) :
    absorptions (x ++ data) = absorptions x ++ absorptionsAfter x data := by
  rw [absorptionsAfter, absorptions_append, List.drop_left]

theorem absorptionsAfter_nil (x : List UInt8) : absorptionsAfter [] x = absorptions x := by
  rw [absorptionsAfter, absorptions_nil, List.nil_append, List.length_nil, List.drop_zero]

theorem compressions_eq_after (x : List UInt8) :
    compressions x = absorptions x ++ compressionsAfter x := by
  rw [compressionsAfter, compressions_eq, List.drop_left]

/-- `ctx.Update` with bytes that can be read. -/
theorem ctxUpdate_makes {data : List UInt8} (fits : data.length < 2 ^ 32)
    (hs : Working k hstate buf x s) (hx : x.length + data.length < 2 ^ 29) :
    Makes (onCtx (SHA256.update build (.bytes data fits))) s (absorptionsAfter x data) .ok
      (Working k hstate buf (x ++ data)) := by
  obtain ⟨cs, hcs, hupdate⟩ := update_reaches build fits hs.ctx hx
  rw [absorptions_append_after, List.append_cancel_left_eq] at hcs
  exact hcs ▸ .onCtx hupdate fun _ h => ⟨hs.k, hs.hstate, hs.buf, h⟩

/-- `ctx.Update` with an array. -/
theorem ctxUpdate_ofVector_makes {n : ℕ} (v : Vector UInt8 n) (fits : n < 2 ^ 32)
    (hs : Working k hstate buf x s) (hx : x.length + n < 2 ^ 29) :
    Makes (onCtx (SHA256.update build (.ofVector v fits))) s (absorptionsAfter x v.toList) .ok
      (Working k hstate buf (x ++ v.toList)) :=
  ctxUpdate_makes build (by simpa using fits) hs (by simpa using hx)

/-! ## The abstract state -/

/-- The tag that the object computes. -/
def tagOf (k : Block) (m : List UInt8) : Digest := macTag (digestOf build) k.toList m

/-- The object has the key block `k` and is in the abstract state. -/
def Represents (k : Block) (s : HMAC) : HashState → Prop
  | .absorbing m => ∃ buf, Working k .ipad buf ((padKey k ipad).toList ++ m) s
  | .done m => s.k = k ∧ s.hstate = .fin ∧ s.buf = tagOf build k m

theorem toList_padKey (k : Block) (pad : UInt8) :
    (padKey k pad).toList = k.toList.map (· ^^^ pad) := Vector.toList_map

/-- The tag, by the two padded key blocks. -/
theorem tagOf_eq : tagOf build k m = digestOf build ((padKey k opad).toList ++
    (digestOf build ((padKey k ipad).toList ++ m)).toList) := by
  rw [toList_padKey, toList_padKey]
  rfl

/-! ## Member functions -/

/-- `reset` leaves the key block and what it makes of it, nothing else. -/
theorem reset_makes (s : HMAC) :
    Makes (reset build) s (absorptions (padKey s.k ipad).toList) .ok
      (Working s.k .ipad (Vector.replicate 32 0) (padKey s.k ipad).toList) := by
  rw [← absorptionsAfter_nil]
  refine (restart_makes s).bind_nil fun t ht => ?_
  refine (Makes.modifyState (Q := Working s.k s.hstate (Vector.replicate 32 0) [])
    ⟨ht.k, ht.hstate, rfl, ht.ctx⟩).bind_nil fun u hu => .getState_bind ?_
  rw [hu.k]
  refine (ctxUpdate_ofVector_makes build _ (by decide) hu (by simp)).bind_pure fun v hv => ?_
  rw [orInvalid_ok]
  refine (Makes.modifyState
    (Q := Working s.k .ipad (Vector.replicate 32 0) (padKey s.k ipad).toList) ?_).bind_nil
    fun w hw => .pure hw
  exact ⟨hv.k, rfl, hv.buf, by simpa using hv.ctx⟩

theorem reset_working (s : HMAC) :
    Ends (reset build) s .ok
      (Working s.k .ipad (Vector.replicate 32 0) (padKey s.k ipad).toList) :=
  (reset_makes build s).ends

theorem reset_ends (s : HMAC) :
    Ends (reset build) s .ok fun t => Represents build s.k t .start := by
  obtain ⟨es, t, hrun, hsound, ht⟩ := reset_working build s
  exact ⟨es, t, hrun, hsound, _, ht.k, ht.hstate, ht.buf, by simpa using ht.ctx⟩

theorem update_makes {data : List UInt8} (fits : data.length < 2 ^ 32)
    (hs : Represents build k s (.absorbing m)) (hm : 64 + (m ++ data).length < 2 ^ 29) :
    Makes (update build (.bytes data fits)) s (absorptionsAfter ((padKey k ipad).toList ++ m) data)
      .ok fun t => Represents build k t (.absorbing (m ++ data)) := by
  obtain ⟨buf, hs⟩ := hs
  rw [update, emshaCheck_of build _ _ (by simp)]
  refine .getState_bind ?_
  rw [emshaCheck_of build _ _ hs.hstate]
  refine (ctxUpdate_makes build fits hs (by simp at hm ⊢; omega)).bind_pure fun t ht => ?_
  rw [orInvalid_ok]
  refine .getState_bind ?_
  rw [assert_of build ht.hstate]
  exact .pure ⟨buf, by simpa using ht⟩

theorem update_ends {data : List UInt8} (fits : data.length < 2 ^ 32)
    (hs : Represents build k s (.absorbing m)) (hm : 64 + (m ++ data).length < 2 ^ 29) :
    Ends (update build (.bytes data fits)) s .ok
      fun t => Represents build k t (.absorbing (m ++ data)) := (update_makes build fits hs hm).ends

/-- The outer hash of what is in `buf`. -/
theorem outerHash_makes (s : HMAC) (d : Digest) :
    let outer := (padKey s.k opad).toList ++ s.buf.toList
    Makes (outerHash build d) s (compressions outer) (.ok, some (digestOf build outer))
      fun t => t.k = s.k ∧ t.hstate = .fin ∧ t.buf = digestOf build outer := by
  intro outer
  have hlength : outer.length < 2 ^ 29 := by simp [outer]
  -- The key block, `buf` and the padding are compressed one after another.
  have hcalls : compressions outer = absorptionsAfter [] (padKey s.k opad).toList ++
      (absorptionsAfter (padKey s.k opad).toList s.buf.toList ++ compressionsAfter outer) := by
    rw [compressions_eq_after, absorptions_append_after, absorptionsAfter_nil, List.append_assoc]
  rw [hcalls]
  generalize hout : digestOf build outer = out
  refine (restart_makes s).bind_nil fun t ht => .getState_bind ?_
  rw [ht.k]
  refine (ctxUpdate_ofVector_makes build _ (by decide) ht (by simp)).bind fun u hu => ?_
  rw [orInvalid_ok]
  refine (Makes.modifyState (Q := Working s.k .opad s.buf (padKey s.k opad).toList)
    ⟨hu.k, rfl, hu.buf, by simpa using hu.ctx⟩).bind_nil fun v hv => .getState_bind ?_
  rw [hv.buf]
  refine (ctxUpdate_ofVector_makes build _ (by decide) hv (by simp)).bind fun w hw => ?_
  rw [orInvalid_ok]
  obtain ⟨cs, hcs, hfinalise⟩ := finalise_reaches build w.buf hw.ctx
  rw [compressions_eq_after, List.append_cancel_left_eq] at hcs
  rw [← digestOf_eq build hlength, hout, ← hcs] at hfinalise
  refine (Makes.intoBuf (Q := fun w => w.k = s.k ∧ w.hstate = .opad ∧ w.buf = out) hfinalise
    fun _ _ => ⟨hw.k, hw.hstate, rfl⟩).bind_pure fun x hx => ?_
  rw [orInvalid_ok]
  refine .getState_bind ?_
  rw [assert_of build hx.2.1, Traced.pure_bind]
  refine (Makes.modifyState (Q := fun y => y.k = s.k ∧ y.hstate = .fin ∧ y.buf = out)
    ⟨hx.1, rfl, hx.2.2⟩).bind_nil fun y hy => .getState_bind ?_
  rw [hy.2.2]
  exact .pure hy

/-- The first `Finalise` or `Result` computes the tag. -/
theorem finalResult_makes (d : Digest) (hs : Represents build k s (.absorbing m))
    (hm : 64 + m.length < 2 ^ 29) :
    let inner := (padKey k ipad).toList ++ m
    Makes (finalResult build (some d)) s (compressionsAfter inner ++
        compressions ((padKey k opad).toList ++ (digestOf build inner).toList))
      (.ok, some (tagOf build k m)) fun t => Represents build k t (.done m) := by
  intro inner
  obtain ⟨buf, hs⟩ := hs
  refine .getState_bind ?_
  rw [if_neg (by simp [hs.hstate]), emshaCheck_of build _ _ hs.hstate]
  obtain ⟨cs, hcs, hresult⟩ := result_reaches build s.buf hs.ctx
  rw [compressions_eq_after, List.append_cancel_left_eq] at hcs
  rw [← digestOf_eq build (by simpa using hm), ← hcs] at hresult
  refine (Makes.intoBuf (Q := fun t => t.k = k ∧ t.hstate = .ipad ∧
    t.buf = digestOf build inner) hresult fun _ _ => ⟨hs.k, hs.hstate, rfl⟩).bind fun t ht => ?_
  rw [orInvalid_ok]
  refine .getState_bind ?_
  rw [assert_of build ht.2.1, Traced.pure_bind]
  have houter := outerHash_makes build t d
  simp only [ht.1, ht.2.2, inner, ← tagOf_eq] at houter
  exact houter

theorem finalResult_first (d : Digest) (hs : Represents build k s (.absorbing m))
    (hm : 64 + m.length < 2 ^ 29) :
    Ends (finalResult build (some d)) s (.ok, some (tagOf build k m))
      fun t => Represents build k t (.done m) := (finalResult_makes build d hs hm).ends

/-- Every further one copies it. -/
theorem finalResult_again (d : Digest) (hs : Represents build k s (.done m)) :
    Ends (finalResult build (some d)) s (.ok, some (tagOf build k m))
      fun t => Represents build k t (.done m) := by
  refine .getState_bind ?_
  rw [if_pos hs.2.1, hs.2.2]
  exact .pure hs

theorem finalResult_ends {t : HashState} (d : Digest) (hs : Represents build k s t)
    (hm : 64 + t.message.length < 2 ^ 29) :
    Ends (finalResult build (some d)) s (.ok, some (tagOf build k t.message))
      fun s' => Represents build k s' (.done t.message) := by
  cases t with
  | absorbing m => exact finalResult_first build d hs hm
  | done m => exact finalResult_again build d hs

/-! ## Calls that change nothing -/

/-- A null pointer is refused whatever the length. -/
theorem update_null (s : HMAC) (n : UInt32) :
    Runs (call .ndebug (.update (.null n))) s [] ⟨.nullPointer, none⟩ s := by
  simp [Runs, call, update, emshaCheck]

theorem update_done {data : List UInt8} (fits : data.length < 2 ^ 32) (hs : s.hstate = .fin) :
    Runs (call .ndebug (.update (.bytes data fits))) s [] ⟨.invalidState, none⟩ s := by
  simp [Runs, call, update, emshaCheck, hs]

/-- A call that the machine refuses is refused, whatever else is in the object. -/
theorem refused_of_hstate {tag : List UInt8 → Digest} {t : HashState} {c : Call}
    (hs : t.isDone = true → s.hstate = .fin) (hc : ((macMachine tag).answer t c).res ≠ .ok) :
    Runs (call .ndebug c) s [] ((macMachine tag).answer t c) s ∧
      ((macMachine tag).answer t c).digest = c.destination ∧ t.next c = t := by
  cases c with
  | reset => exact (hc rfl).elim
  | update input =>
    cases input with
    | null n => exact ⟨update_null s n, rfl, by cases t <;> simp [HashState.next]⟩
    | bytes data fits =>
      cases t with
      | absorbing m => exact (hc rfl).elim
      | done m => exact ⟨update_done fits (hs rfl), rfl, rfl⟩
  | finalise d =>
    cases d with
    | none => exact ⟨rfl, rfl, by cases t <;> rfl⟩
    | some d => exact (hc rfl).elim
  | result d =>
    cases d with
    | none => exact ⟨rfl, rfl, by cases t <;> rfl⟩
    | some d => exact (hc rfl).elim

/-- A call that the machine refuses is refused, and leaves object and destination alone. -/
theorem refused {tag : List UInt8 → Digest} {t : HashState} {c : Call}
    (hs : Represents build k s t) (hc : ((macMachine tag).answer t c).res ≠ .ok) :
    Runs (call .ndebug c) s [] ((macMachine tag).answer t c) s ∧
      ((macMachine tag).answer t c).digest = c.destination ∧ t.next c = t := by
  refine refused_of_hstate (fun hdone => ?_) hc
  cases t with
  | absorbing m => cases hdone
  | done m => exact hs.2.1

/-! ## One call -/

/-- A member function that returns a code and the destination, as a call. -/
theorem Ends.reply {x : Member (EMSHAResult × Option Digest)} {res : EMSHAResult}
    {d : Option Digest} (h : Ends x s (res, d) Q) :
    Ends (do let (res, d') ← x; return (⟨res, d'⟩ : Reply)) s ⟨res, d⟩ Q :=
  h.bind fun _ ht => .pure ht

/-- A call that the machine accepts is accepted. -/
theorem accepted {t : HashState} {c : Call} (hs : Represents .ndebug k s t)
    (hlimit : 64 + (t.next c).message.length < 2 ^ 29)
    (hc : ((macMachine (tagOf .ndebug k)).answer t c).res = .ok) :
    Ends (call .ndebug c) s ((macMachine (tagOf .ndebug k)).answer t c)
      fun s' => Represents .ndebug k s' (t.next c) := by
  cases c with
  | reset =>
    have hk : s.k = k := by
      cases t with
      | absorbing m => exact hs.choose_spec.k
      | done m => exact hs.1
    exact (reset_ends .ndebug s).bind fun u hu => .pure (hk ▸ hu)
  | update input =>
    cases input with
    | null n => cases hc
    | bytes data fits =>
      cases t with
      | done m => cases hc
      | absorbing m =>
        exact (update_ends .ndebug fits hs hlimit).bind fun u hu => .pure hu
  | finalise d =>
    cases d with
    | none => cases hc
    | some d => cases t <;> exact (finalResult_ends .ndebug d hs hlimit).reply
  | result d =>
    cases d with
    | none => cases hc
    | some d => cases t <;> exact (finalResult_ends .ndebug d hs hlimit).reply

theorem simulates_macMachine (k : Block) :
    (macMachine (tagOf .ndebug k)).Simulates (call .ndebug)
      (fun t => t.message.length < 2 ^ 29 - 64) Event.Sound (Represents .ndebug k) := by
  intro s t c hs hlimit
  by_cases hc : ((macMachine (tagOf .ndebug k)).answer t c).res = .ok
  · obtain ⟨es, s', hrun, hsound, hs'⟩ := accepted hs (Nat.add_lt_of_lt_sub' hlimit) hc
    exact ⟨es, s', hrun, hs', hsound⟩
  · obtain ⟨hrun, -, hnext⟩ := refused .ndebug hs hc
    refine ⟨[], s, hrun, ?_, by simp⟩
    change Represents .ndebug k s (t.next c)
    rwa [hnext]

end
end HMAC
end LibEmsha
