import LibEmsha.Library.Traced

/-!
# Objects answering calls, and the machines they refine

An object is a step function `κ → Traced ε ω σ ρ`: a call is answered with a reply and
changes the state. A `Machine` says what the replies should be over an abstract state.
`Simulates` relates the two by one call at a time; `Simulates.run` carries it to every
sequence of calls, as long as the abstract states stay within a bound. `exists_first_leave`
finds the call with which a run leaves the bound. `Realizes` says more: it also names the calls at
which the object stops, so that `Realizes.result_eq` tells the outcome of every sequence of calls.
-/

/-- An abstract machine: its reply to a call and the state after it. -/
structure Machine (τ κ ρ : Type) where
  answer : τ → κ → ρ
  next : τ → κ → τ

/-- Answer the calls one after another. -/
def Traced.answerAll {ε ω σ κ ρ : Type} (step : κ → Traced ε ω σ ρ) :
    List κ → Traced ε ω σ (List ρ)
  | [] => pure []
  | c :: cs => do
    let r ← step c
    let rs ← Traced.answerAll step cs
    return r :: rs

namespace Machine
open Traced

variable {ε ω σ τ κ ρ : Type}

/-- The abstract state after the calls. -/
def after (m : Machine τ κ ρ) (t : τ) (cs : List κ) : τ := cs.foldl m.next t

/-- The replies to the calls. -/
def answers (m : Machine τ κ ρ) : τ → List κ → List ρ
  | _, [] => []
  | t, c :: cs => m.answer t c :: m.answers (m.next t c) cs

@[simp] theorem after_nil (m : Machine τ κ ρ) (t : τ) : m.after t [] = t := rfl
@[simp] theorem after_cons (m : Machine τ κ ρ) (t : τ) (c : κ) (cs : List κ) :
    m.after t (c :: cs) = m.after (m.next t c) cs := rfl

theorem answers_append (m : Machine τ κ ρ) (t : τ) (cs ds : List κ) :
    m.answers t (cs ++ ds) = m.answers t cs ++ m.answers (m.after t cs) ds := by
  induction cs generalizing t with
  | nil => rfl
  | cons c cs ih => simp [answers, ih]

/-- Every abstract state that the calls pass through satisfies `P`. -/
def Within (m : Machine τ κ ρ) (P : τ → Prop) (t : τ) (cs : List κ) : Prop :=
  ∀ pre, pre <+: cs → P (m.after t pre)

theorem within_nil {m : Machine τ κ ρ} {P : τ → Prop} {t : τ} : m.Within P t [] ↔ P t := by
  simp [Within]

theorem within_cons {m : Machine τ κ ρ} {P : τ → Prop} {t : τ} {c : κ} {cs : List κ} :
    m.Within P t (c :: cs) ↔ P t ∧ m.Within P (m.next t c) cs := by
  refine ⟨fun h => ⟨h [] (List.nil_prefix), fun pre hpre => h (c :: pre) ?_⟩, ?_⟩
  · exact (List.prefix_cons_inj c).mpr hpre
  · rintro ⟨ht, h⟩ pre hpre
    cases pre with
    | nil => exact ht
    | cons d pre =>
      obtain ⟨rfl, htail⟩ := List.cons_prefix_cons.mp hpre
      exact h pre htail

/-- A run that leaves the bound does so with some first call. -/
theorem exists_first_leave {m : Machine τ κ ρ} {P : τ → Prop} {t : τ} {cs : List κ}
    (ht : P t) (h : ¬ m.Within P t cs) :
    ∃ pre c post, cs = pre ++ c :: post ∧ m.Within P t pre ∧
      ¬ P (m.next (m.after t pre) c) := by
  induction cs generalizing t with
  | nil => exact (h (within_nil.mpr ht)).elim
  | cons c cs ih =>
    by_cases hc : P (m.next t c)
    · have hcs : ¬ m.Within P (m.next t c) cs := fun hw => h (within_cons.mpr ⟨ht, hw⟩)
      obtain ⟨pre, d, post, rfl, hpre, hd⟩ := ih hc hcs
      exact ⟨c :: pre, d, post, rfl, within_cons.mpr ⟨ht, hpre⟩, hd⟩
    · exact ⟨[], c, cs, rfl, within_nil.mpr ht, hc⟩

/-- One call at a time, the object answers as the machine does, logs only events in `Q`
and keeps the relation, as long as the abstract state stays in `P`. -/
def Simulates (m : Machine τ κ ρ) (step : κ → Traced ε ω σ ρ) (P : τ → Prop) (Q : ω → Prop)
    (R : σ → τ → Prop) : Prop :=
  ∀ s t c, R s t → P (m.next t c) →
    ∃ es s', Runs (step c) s es (m.answer t c) s' ∧ R s' (m.next t c) ∧ ∀ e ∈ es, Q e

/-- The relation of one call carries over to every sequence of calls. -/
theorem Simulates.run {m : Machine τ κ ρ} {step : κ → Traced ε ω σ ρ} {P : τ → Prop}
    {Q : ω → Prop} {R : σ → τ → Prop} (h : m.Simulates step P Q R) {s : σ} {t : τ}
    {cs : List κ} (hR : R s t) (hw : m.Within P t cs) :
    ∃ es s', Runs (answerAll step cs) s es (m.answers t cs) s' ∧ R s' (m.after t cs) ∧
      ∀ e ∈ es, Q e := by
  induction cs generalizing s t with
  | nil => exact ⟨[], s, .pure [] s, hR, by simp⟩
  | cons c cs ih =>
    have hnext := (within_cons.mp hw).2
    obtain ⟨es, u, hc, hR', hQ⟩ := h s t c hR (hnext [] List.nil_prefix)
    obtain ⟨fs, v, hcs, hR'', hQ'⟩ := ih hR' hnext
    refine ⟨es ++ (fs ++ []), v, hc.bind (hcs.bind (.pure _ v)), hR'', ?_⟩
    intro e he
    simp only [List.append_nil, List.mem_append] at he
    exact he.elim (hQ e) (hQ' e)

/-! ### Machines that stop -/

/-- What comes of the calls when the machine stops at those to which `fault` assigns a fault. -/
def outcome (m : Machine τ κ ρ) (fault : τ → κ → Option ε) : τ → List κ → Except ε (List ρ)
  | _, [] => .ok []
  | t, c :: cs =>
    match fault t c with
    | some e => .error e
    | none => (m.outcome fault (m.next t c) cs).map (m.answer t c :: ·)

/-- One call at a time, the object stops where the machine stops, and otherwise answers as the
machine does and keeps the relation. -/
structure Realizes (m : Machine τ κ ρ) (fault : τ → κ → Option ε) (step : κ → Traced ε ω σ ρ)
    (R : σ → τ → Prop) : Prop where
  stops : ∀ {s t c e}, R s t → fault t c = some e → ((step c).run s).result = .error e
  answers : ∀ {s t c}, R s t → fault t c = none →
    ∃ es s', Runs (step c) s es (m.answer t c) s' ∧ R s' (m.next t c)

/-- So it is with every sequence of calls. -/
theorem Realizes.result_eq {m : Machine τ κ ρ} {fault : τ → κ → Option ε}
    {step : κ → Traced ε ω σ ρ} {R : σ → τ → Prop} (h : m.Realizes fault step R) {s : σ} {t : τ}
    (hR : R s t) (cs : List κ) :
    ((answerAll step cs).run s).result.map Prod.fst = m.outcome fault t cs := by
  induction cs generalizing s t with
  | nil => rfl
  | cons c cs ih =>
    rw [outcome, answerAll]
    match hfault : fault t c with
    | some e =>
      rw [fault_bind (h.stops hR hfault)]
      rfl
    | none =>
      obtain ⟨es, u, hrun, hu⟩ := h.answers hR hfault
      have hrun' : (step c).run s = ⟨es, .ok (m.answer t c, u)⟩ := hrun
      rw [← ih hu, run_bind, hrun', Outcome.andThen_ok, run_bind]
      match (answerAll step cs).run u with
      | ⟨fs, .ok (rs, v)⟩ => rfl
      | ⟨fs, .error e⟩ => rfl

/-- Calls that went through were answered as the machine answers them, and kept the relation. -/
theorem Realizes.of_runs {m : Machine τ κ ρ} {fault : τ → κ → Option ε}
    {step : κ → Traced ε ω σ ρ} {R : σ → τ → Prop} (h : m.Realizes fault step R) {s s' : σ} {t : τ}
    {cs : List κ} {es : List ω} {rs : List ρ} (hR : R s t)
    (hrun : Runs (answerAll step cs) s es rs s') : rs = m.answers t cs ∧ R s' (m.after t cs) := by
  induction cs generalizing s t es rs with
  | nil =>
    obtain ⟨-, rfl, rfl⟩ := hrun.deterministic (.pure [] s)
    exact ⟨rfl, hR⟩
  | cons c cs ih =>
    obtain ⟨fs, r, u, gs, hc, hrest, -⟩ := hrun.of_bind
    obtain ⟨hs, rs', v, ks, hcs, hpure, -⟩ := hrest.of_bind
    obtain ⟨-, rfl, rfl⟩ := hpure.deterministic (.pure _ v)
    match hfault : fault t c with
    | some e =>
      have hc' : (step c).run s = ⟨fs, .ok (r, u)⟩ := hc
      have hstop := h.stops hR hfault
      rw [hc'] at hstop
      cases hstop
    | none =>
      obtain ⟨fs', u', hanswer, hu⟩ := h.answers hR hfault
      obtain ⟨-, rfl, rfl⟩ := hc.deterministic hanswer
      obtain ⟨rfl, hv⟩ := ih hu hcs
      exact ⟨rfl, hv⟩

end Machine

namespace Traced

variable {ε ω σ κ ρ : Type}

theorem answerAll_singleton (step : κ → Traced ε ω σ ρ) (c : κ) :
    answerAll step [c] = step c >>= fun r => pure [r] := rfl

/-- Calls are answered in two parts, faults included. -/
theorem run_answerAll_append (step : κ → Traced ε ω σ ρ) (cs ds : List κ) (s : σ) :
    (answerAll step (cs ++ ds)).run s =
      (answerAll step cs >>= fun rs =>
        answerAll step ds >>= fun rs' => pure (rs ++ rs')).run s := by
  induction cs generalizing s with
  | nil =>
    rcases hrun : (answerAll step ds).run s with ⟨es, e | ⟨rs, t⟩⟩
    · simp [answerAll, hrun]
    · simp [answerAll, hrun]
  | cons c cs ih =>
    simp only [List.cons_append, answerAll, run_bind]
    rcases (step c).run s with ⟨es, e | ⟨r, t⟩⟩
    · rfl
    rw [Outcome.andThen_ok, Outcome.andThen_ok, run_bind, ih, run_bind, run_bind]
    rcases (answerAll step cs).run t with ⟨fs, e | ⟨rs, u⟩⟩
    · rfl
    rcases hrest : (answerAll step ds).run u with ⟨gs, e | ⟨rs', v⟩⟩
    · simp [hrest]
    · simp [hrest]

/-- Calls that each visit their own elements, and then reply, visit all elements in one go. `P` says
from which states they do so. -/
theorem run_answerAll_map {β γ : Type} {step : κ → Traced ε ω σ ρ} {body : γ → Traced ε ω σ Unit}
    {f : β → κ} {elements : β → List γ} {reply : β → ρ} {P : σ → Prop} {bs : List β}
    (hstep : ∀ b ∈ bs, ∀ s, P s →
      (step (f b)).run s = (each body (elements b) >>= fun _ => pure (reply b)).run s)
    (hkeep : ∀ c, Ensures P (body c) fun _ => P) {s : σ} (hs : P s) :
    (answerAll step (bs.map f)).run s =
      (each body (bs.flatMap elements) >>= fun _ => pure (bs.map reply)).run s := by
  induction bs generalizing s with
  | nil => rfl
  | cons b bs ih =>
    obtain ⟨hb, hbs⟩ := List.forall_mem_cons.mp hstep
    rw [List.map_cons, List.flatMap_cons, answerAll, run_bind_left (hb s hs),
      run_bind_left (run_each_append ..), bind_assoc, bind_assoc]
    refine run_bind_right fun es _ t hrun => ?_
    have ht : P t := Ensures.each hkeep (elements b) s es _ t hrun hs
    rw [Traced.pure_bind, run_bind_left (ih hbs ht), bind_assoc]
    rfl

/-- After the first calls are answered, the rest is answered from the state they leave. -/
theorem Runs.run_answerAll_append {step : κ → Traced ε ω σ ρ} {cs ds : List κ} {s t : σ}
    {es : List ω} {rs : List ρ} (h : Runs (answerAll step cs) s es rs t) :
    (answerAll step (cs ++ ds)).run s =
      ((answerAll step ds >>= fun rs' => pure (rs ++ rs')).run t).after es := by
  have hcs : (answerAll step cs).run s = ⟨es, .ok (rs, t)⟩ := h
  rw [Traced.run_answerAll_append, run_bind, hcs, Outcome.andThen_ok]

theorem Runs.answerAll_append {step : κ → Traced ε ω σ ρ} {cs ds : List κ} {s t u : σ}
    {es fs : List ω} {rs rs' : List ρ} (h : Runs (answerAll step cs) s es rs t)
    (h' : Runs (answerAll step ds) t fs rs' u) :
    Runs (answerAll step (cs ++ ds)) s (es ++ fs) (rs ++ rs') u := by
  have hds : (answerAll step ds).run t = ⟨fs, .ok (rs', u)⟩ := h'
  simp [Runs, h.run_answerAll_append, hds]

theorem Runs.answerAll_singleton {step : κ → Traced ε ω σ ρ} {c : κ} {s t : σ} {es : List ω}
    {r : ρ} (h : Runs (step c) s es r t) : Runs (answerAll step [c]) s es [r] t := by
  have hc : (step c).run s = ⟨es, .ok (r, t)⟩ := h
  simp [Runs, answerAll, hc]

/-- The rule for the calls of a run that goes through: `P` speaks of the calls made, the log, the
replies and the state, and every call carries it on. -/
theorem Runs.answerAll_rule {step : κ → Traced ε ω σ ρ}
    {P : List κ → List ω → List ρ → σ → Prop} {s₀ : σ} (start : P [] [] [] s₀)
    (call : ∀ cs log rs s c es r t, P cs log rs s → Runs (step c) s es r t →
      P (cs ++ [c]) (log ++ es) (rs ++ [r]) t)
    {cs : List κ} {es : List ω} {rs : List ρ} {s : σ} (h : Runs (answerAll step cs) s₀ es rs s) :
    P cs es rs s := by
  suffices go : ∀ ds cs log rs t es qs s, P cs log rs t → Runs (answerAll step ds) t es qs s →
      P (cs ++ ds) (log ++ es) (rs ++ qs) s from go cs [] [] [] s₀ es rs s start h
  intro ds
  induction ds with
  | nil =>
    intro cs log rs t es qs s hP hrun
    obtain ⟨rfl, rfl, rfl⟩ := hrun.deterministic (.pure [] t)
    simpa using hP
  | cons d ds ih =>
    intro cs log rs t es qs s hP hrun
    obtain ⟨fs, r, u, gs, hd, hrest, rfl⟩ := hrun.of_bind
    obtain ⟨hs, qs', v, ks, hds, hpure, rfl⟩ := hrest.of_bind
    obtain ⟨rfl, rfl, rfl⟩ := hpure.deterministic (.pure _ v)
    simpa using ih _ _ _ u _ _ _ (call cs log rs t d fs r u hP hd) hds

/-- The log of a call that ends a run is part of the log of the run, faults included. -/
theorem Runs.mem_events_snoc {step : κ → Traced ε ω σ ρ} {cs : List κ} {c : κ} {s t : σ}
    {es : List ω} {rs : List ρ} {e : ω} (h : Runs (answerAll step cs) s es rs t)
    (he : e ∈ ((step c).run t).events) : e ∈ ((answerAll step (cs ++ [c])).run s).events := by
  match hrun : (step c).run t with
  | ⟨ks, .ok (q, w)⟩ => simp_all [h.run_answerAll_append, answerAll]
  | ⟨ks, .error f⟩ => simp_all [h.run_answerAll_append, answerAll]

/-- What each call keeps, the calls keep. -/
theorem Ensures.answerAll {step : κ → Traced ε ω σ ρ} {P : σ → Prop}
    (h : ∀ c, Ensures P (step c) fun _ => P) (cs : List κ) :
    Ensures P (answerAll step cs) fun _ => P := by
  induction cs with
  | nil => exact .pure fun _ hs => hs
  | cons c cs ih => exact .bind (h c) fun _ => .bind ih fun _ => .pure fun _ hs => hs

end Traced
