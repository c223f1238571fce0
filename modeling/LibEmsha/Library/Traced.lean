import Mathlib.Data.List.Basic
import Mathlib.Logic.Function.Basic

/-!
# Computations with a state, a log of events and faults

`Traced ε ω σ α` is a computation over an explicit state `σ` that logs events of type `ω`
and may stop with a fault of type `ε`. The log survives a fault, so a statement can speak
of what was done before the computation stopped.

`Runs x s es a t` is the big-step judgement of a run without a fault: from the state `s`
it logs exactly `es`, returns `a` and ends in `t`. `Meets` and `Ensures` are the triples of total
and of partial correctness over it. The two loop forms come with their rules: `each` visits a
list, `whileDo` repeats while a test holds, under a measure. Loops that only count, with no state
but a value, are `Nat.fold`; their rules stand at the end.
-/

/-- The events of a run and its end: a fault, or a value with the final state. -/
structure Outcome (ε ω σ α : Type) where
  events : List ω
  result : Except ε (α × σ)

/-- A computation over the state `σ`, logging `ω` and faulting with `ε`. -/
structure Traced (ε ω σ α : Type) where
  run : σ → Outcome ε ω σ α

variable {ε ω σ τ α β γ : Type}

/-- Put earlier events in front of an outcome. -/
def Outcome.after (es : List ω) (o : Outcome ε ω σ α) : Outcome ε ω σ α :=
  ⟨es ++ o.events, o.result⟩

/-- Go on from an outcome, unless it is a fault. -/
def Outcome.andThen (o : Outcome ε ω σ α) (f : α → Traced ε ω σ β) : Outcome ε ω σ β :=
  match o.result with
  | .ok (a, t) => ((f a).run t).after o.events
  | .error e => ⟨o.events, .error e⟩

/-- Change the value of an outcome. -/
def Outcome.map (f : α → β) (o : Outcome ε ω σ α) : Outcome ε ω σ β :=
  ⟨o.events, o.result.map fun p => (f p.1, p.2)⟩

/-- What is left of an outcome when nobody looks at the value. -/
def Outcome.forget (o : Outcome ε ω σ α) : Outcome ε ω σ Unit :=
  ⟨o.events, o.result.map fun p => ((), p.2)⟩

@[simp] theorem Outcome.after_mk (es fs : List ω) (r : Except ε (α × σ)) :
    Outcome.after es ⟨fs, r⟩ = ⟨es ++ fs, r⟩ := rfl
@[simp] theorem Outcome.after_nil (o : Outcome ε ω σ α) : o.after [] = o := rfl
@[simp] theorem Outcome.after_after (es fs : List ω) (o : Outcome ε ω σ α) :
    (o.after fs).after es = o.after (es ++ fs) := by
  simp [Outcome.after]
@[simp] theorem Outcome.andThen_ok (es : List ω) (a : α) (t : σ) (f : α → Traced ε ω σ β) :
    Outcome.andThen ⟨es, .ok (a, t)⟩ f = ((f a).run t).after es := rfl
@[simp] theorem Outcome.andThen_error (es : List ω) (e : ε) (f : α → Traced ε ω σ β) :
    Outcome.andThen ⟨es, .error e⟩ f = ⟨es, .error e⟩ := rfl

@[simp] theorem Outcome.map_ok (f : α → β) (es : List ω) (a : α) (t : σ) :
    Outcome.map f (⟨es, .ok (a, t)⟩ : Outcome ε ω σ α) = ⟨es, .ok (f a, t)⟩ := rfl
@[simp] theorem Outcome.map_error (f : α → β) (es : List ω) (e : ε) :
    Outcome.map f (⟨es, .error e⟩ : Outcome ε ω σ α) = ⟨es, .error e⟩ := rfl

@[simp] theorem Outcome.forget_ok (es : List ω) (a : α) (t : σ) :
    Outcome.forget (⟨es, .ok (a, t)⟩ : Outcome ε ω σ α) = ⟨es, .ok ((), t)⟩ := rfl
@[simp] theorem Outcome.forget_error (es : List ω) (e : ε) :
    Outcome.forget (⟨es, .error e⟩ : Outcome ε ω σ α) = ⟨es, .error e⟩ := rfl
@[simp] theorem Outcome.forget_after (es : List ω) (o : Outcome ε ω σ α) :
    (o.after es).forget = o.forget.after es := rfl
theorem Outcome.forget_unit (o : Outcome ε ω σ Unit) : o.forget = o := by
  rcases o with ⟨es, e | ⟨⟨⟩, t⟩⟩ <;> rfl

namespace Traced

instance : Monad (Traced ε ω σ) where
  pure a := ⟨fun s => ⟨[], .ok (a, s)⟩⟩
  bind x f := ⟨fun s => (x.run s).andThen f⟩

def getState : Traced ε ω σ σ := ⟨fun s => ⟨[], .ok (s, s)⟩⟩
def modifyState (f : σ → σ) : Traced ε ω σ Unit := ⟨fun s => ⟨[], .ok ((), f s)⟩⟩
def emit (e : ω) : Traced ε ω σ Unit := ⟨fun s => ⟨[e], .ok ((), s)⟩⟩

instance : MonadExcept ε (Traced ε ω σ) where
  throw e := ⟨fun _ => ⟨[], .error e⟩⟩
  tryCatch x handle := ⟨fun s => match (x.run s).result with
    | .ok _ => x.run s
    | .error e => ((handle e).run s).after (x.run s).events⟩

@[simp] theorem run_pure (a : α) (s : σ) :
    (pure a : Traced ε ω σ α).run s = ⟨[], .ok (a, s)⟩ := rfl
@[simp] theorem run_bind (x : Traced ε ω σ α) (f : α → Traced ε ω σ β) (s : σ) :
    (x >>= f).run s = (x.run s).andThen f := rfl
theorem pure_bind (a : α) (f : α → Traced ε ω σ β) : (pure a >>= f) = f a := rfl
theorem bind_assoc (x : Traced ε ω σ α) (f : α → Traced ε ω σ β) (g : β → Traced ε ω σ γ) :
    x >>= f >>= g = x >>= fun a => f a >>= g := by
  refine congrArg Traced.mk (funext fun s => ?_)
  rw [run_bind]
  rcases x.run s with ⟨es, e | ⟨a, t⟩⟩
  · rfl
  · rw [Outcome.andThen_ok, Outcome.andThen_ok, run_bind]
    rcases (f a).run t with ⟨fs, e | ⟨b, u⟩⟩
    · rfl
    · simp
@[simp] theorem run_getState (s : σ) : (getState : Traced ε ω σ σ).run s = ⟨[], .ok (s, s)⟩ := rfl
@[simp] theorem run_modifyState (f : σ → σ) (s : σ) :
    (modifyState f : Traced ε ω σ Unit).run s = ⟨[], .ok ((), f s)⟩ := rfl
@[simp] theorem run_emit (e : ω) (s : σ) :
    (emit e : Traced ε ω σ Unit).run s = ⟨[e], .ok ((), s)⟩ := rfl
@[simp] theorem run_throw (e : ε) (s : σ) :
    (throw e : Traced ε ω σ α).run s = ⟨[], .error e⟩ := rfl

/-- From `s` the computation logs `es`, returns `a` and ends in `t`, without a fault. -/
def Runs (x : Traced ε ω σ α) (s : σ) (es : List ω) (a : α) (t : σ) : Prop :=
  x.run s = ⟨es, .ok (a, t)⟩

theorem Runs.run_eq {x : Traced ε ω σ α} {s t : σ} {es : List ω} {a : α} (h : Runs x s es a t) :
    x.run s = ⟨es, .ok (a, t)⟩ := h

theorem Runs.deterministic {x : Traced ε ω σ α} {s t t' : σ} {es es' : List ω} {a a' : α}
    (h : Runs x s es a t) (h' : Runs x s es' a' t') : es = es' ∧ a = a' ∧ t = t' := by
  have he : (⟨es, .ok (a, t)⟩ : Outcome ε ω σ α) = ⟨es', .ok (a', t')⟩ := h.symm.trans h'
  simp_all

protected theorem Runs.pure (a : α) (s : σ) : Runs (pure a : Traced ε ω σ α) s [] a s := rfl

protected theorem Runs.bind {x : Traced ε ω σ α} {f : α → Traced ε ω σ β} {s t u : σ}
    {es fs : List ω} {a : α} {b : β} (hx : Runs x s es a t) (hf : Runs (f a) t fs b u) :
    Runs (x >>= f) s (es ++ fs) b u := by
  unfold Runs at *
  rw [run_bind, hx, Outcome.andThen_ok, hf, Outcome.after_mk]

theorem Runs.seq {x : Traced ε ω σ α} {y : Traced ε ω σ β} {s t u : σ} {es fs : List ω}
    {a : α} {b : β} (hx : Runs x s es a t) (hy : Runs y t fs b u) :
    Runs (x >>= fun _ => y) s (es ++ fs) b u := hx.bind hy

/-- A run of a sequence splits at its first step. -/
theorem Runs.of_bind {x : Traced ε ω σ α} {f : α → Traced ε ω σ β} {s u : σ}
    {gs : List ω} {b : β} (h : Runs (x >>= f) s gs b u) :
    ∃ es a t fs, Runs x s es a t ∧ Runs (f a) t fs b u ∧ gs = es ++ fs := by
  unfold Runs at *
  rw [run_bind] at h
  match hx : x.run s with
  | ⟨es, .error e⟩ => simp [hx] at h
  | ⟨es, .ok (a, t)⟩ =>
    rw [hx, Outcome.andThen_ok] at h
    match hf : (f a).run t with
    | ⟨fs, q⟩ =>
      simp only [hf, Outcome.after_mk, Outcome.mk.injEq] at h
      exact ⟨es, a, t, fs, rfl, by rw [hf, h.2], h.1.symm⟩

/-- From one state, a first part can be replaced by another one that runs as it does there. -/
theorem run_bind_left {x y : Traced ε ω σ α} {s : σ} (h : x.run s = y.run s)
    (f : α → Traced ε ω σ β) : (x >>= f).run s = (y >>= f).run s := by
  rw [run_bind, run_bind, h]

/-- What follows can be replaced by what runs as it does in every state that is reached. -/
theorem run_bind_right {x : Traced ε ω σ α} {f g : α → Traced ε ω σ β} {s : σ}
    (h : ∀ es a t, Runs x s es a t → (f a).run t = (g a).run t) :
    (x >>= f).run s = (x >>= g).run s := by
  rw [run_bind, run_bind]
  rcases hx : x.run s with ⟨es, e | ⟨a, t⟩⟩
  · rfl
  · rw [Outcome.andThen_ok, Outcome.andThen_ok, h es a t hx]

/-- A change of the value is one more step. -/
theorem map_run (x : Traced ε ω σ α) (f : α → β) (s : σ) :
    (x.run s).map f = (x >>= fun a => pure (f a)).run s := by
  rw [run_bind]
  rcases x.run s with ⟨es, e | ⟨a, t⟩⟩
  · rfl
  · simp

/-- A value that is only replaced is forgotten all the same. -/
theorem forget_run_bind_pure (x : Traced ε ω σ Unit) (b : β) (s : σ) :
    ((x >>= fun _ => pure b).run s).forget = x.run s := by
  rw [← Outcome.forget_unit (x.run s), run_bind]
  rcases x.run s with ⟨es, e | ⟨a, t⟩⟩
  · rfl
  · simp

/-- A sequence stops with its first part. -/
theorem fault_bind {x : Traced ε ω σ α} {s : σ} {e : ε} (h : (x.run s).result = .error e)
    (f : α → Traced ε ω σ β) : ((x >>= f).run s).result = .error e := by
  rw [run_bind, Outcome.andThen, h]

/-- Behind a first part that goes through, a sequence ends as its second. -/
theorem result_bind {x : Traced ε ω σ α} {s t : σ} {a : α} (h : (x.run s).result = .ok (a, t))
    (f : α → Traced ε ω σ β) : ((x >>= f).run s).result = ((f a).run t).result := by
  rw [run_bind, Outcome.andThen, h]
  rfl

/-- How a sequence ends depends on how its first part ends, not on what that logs. -/
theorem result_bind_congr {x y : Traced ε ω σ α} {s : σ} (h : (x.run s).result = (y.run s).result)
    (f : α → Traced ε ω σ β) : ((x >>= f).run s).result = ((y >>= f).run s).result := by
  rw [run_bind, run_bind, Outcome.andThen, Outcome.andThen, h]
  split <;> rfl

/-- Behind a first part that goes through, a sequence stops with its second. -/
theorem Runs.fault_bind {x : Traced ε ω σ α} {f : α → Traced ε ω σ β} {s t : σ} {es : List ω}
    {a : α} {e : ε} (hx : Runs x s es a t) (h : ((f a).run t).result = .error e) :
    ((x >>= f).run s).result = .error e :=
  (result_bind (congrArg Outcome.result hx) f).trans h

/-! ## Triples -/

/-- Total correctness: from `s` the computation runs without a fault, logs events that satisfy
`L`, returns `a` and ends in a state that satisfies `Q`. -/
def Meets (x : Traced ε ω σ α) (L : List ω → Prop) (s : σ) (a : α) (Q : σ → Prop) : Prop :=
  ∃ es t, Runs x s es a t ∧ L es ∧ Q t

/-- Partial correctness: a run without a fault from a state that satisfies `P` returns a value
and ends in a state that satisfy `Q`. -/
def Ensures (P : σ → Prop) (x : Traced ε ω σ α) (Q : α → σ → Prop) : Prop :=
  ∀ s es a t, Runs x s es a t → P s → Q a t

section Triples

variable {L M N : List ω → Prop} {P Q : σ → Prop} {s : σ} {a : α} {b : β}
  {x : Traced ε ω σ α} {f : α → Traced ε ω σ β}

theorem Meets.pure (hnil : L []) (h : Q s) : Meets (Pure.pure a : Traced ε ω σ α) L s a Q :=
  ⟨[], s, .pure a s, hnil, h⟩

theorem Meets.modifyState {g : σ → σ} (hnil : L []) (h : Q (g s)) :
    Meets (modifyState g : Traced ε ω σ Unit) L s () Q := ⟨[], g s, rfl, hnil, h⟩

theorem Meets.bind (happend : ∀ es fs, L es → M fs → N (es ++ fs)) (hx : Meets x L s a P)
    (hf : ∀ t, P t → Meets (f a) M t b Q) : Meets (x >>= f) N s b Q := by
  obtain ⟨es, t, hr, hl, hP⟩ := hx
  obtain ⟨fs, u, hr', hl', hQ⟩ := hf t hP
  exact ⟨es ++ fs, u, hr.bind hr', happend es fs hl hl', hQ⟩

theorem Meets.getState_bind {g : σ → Traced ε ω σ β} (h : Meets (g s) L s b Q) :
    Meets (getState >>= g) L s b Q := by
  obtain ⟨es, t, hr, hl, hQ⟩ := h
  have hget : Runs (getState : Traced ε ω σ σ) s [] s s := rfl
  exact ⟨es, t, hget.bind hr, hl, hQ⟩

theorem Ensures.pure {Q : α → σ → Prop} (h : ∀ s, P s → Q a s) :
    Ensures P (Pure.pure a : Traced ε ω σ α) Q := by
  intro s es b t hr hs
  obtain ⟨-, rfl, rfl⟩ := hr.deterministic (.pure a s)
  exact h _ hs

theorem Ensures.bind {R : α → σ → Prop} {Q : β → σ → Prop} (hx : Ensures P x R)
    (hf : ∀ a, Ensures (R a) (f a) Q) : Ensures P (x >>= f) Q := by
  intro s es b t hr hs
  obtain ⟨fs, a, u, gs, hx', hf', -⟩ := hr.of_bind
  exact hf a u gs b t hf' (hx s fs a u hx' hs)

/-- The state that was read is known in what follows. -/
theorem Ensures.getState_bind {g : σ → Traced ε ω σ β} {Q : β → σ → Prop}
    (h : ∀ u, P u → Ensures (· = u) (g u) Q) : Ensures P (getState >>= g) Q := by
  intro s es b t hr hs
  obtain ⟨fs, a, u, gs, hget, hg, -⟩ := hr.of_bind
  have hget' : Runs (getState : Traced ε ω σ σ) s [] s s := rfl
  obtain ⟨-, rfl, rfl⟩ := hget.deterministic hget'
  exact h _ hs _ _ _ _ hg rfl

/-- What is known before a read is known after it. -/
theorem Ensures.read_bind {g : σ → Traced ε ω σ β} {Q : β → σ → Prop}
    (h : ∀ u, P u → Ensures P (g u) Q) : Ensures P (getState >>= g) Q := by
  refine .getState_bind fun u hu => ?_
  rintro s es b t hr rfl
  exact h s hu s es b t hr hu

theorem Ensures.modifyState {g : σ → σ} {Q : Unit → σ → Prop} (h : ∀ s, P s → Q () (g s)) :
    Ensures P (modifyState g : Traced ε ω σ Unit) Q := by
  intro s es b t hr hs
  have hmodify : Runs (Traced.modifyState g : Traced ε ω σ Unit) s [] () (g s) := rfl
  obtain ⟨-, -, rfl⟩ := hr.deterministic hmodify
  exact h s hs

theorem Ensures.emit {e : ω} {Q : Unit → σ → Prop} (h : ∀ s, P s → Q () s) :
    Ensures P (emit e : Traced ε ω σ Unit) Q := by
  intro s es b t hr hs
  have hemit : Runs (Traced.emit e : Traced ε ω σ Unit) s [e] () s := rfl
  obtain ⟨-, -, rfl⟩ := hr.deterministic hemit
  exact h _ hs

theorem Ensures.throw {e : ε} {Q : α → σ → Prop} :
    Ensures P (throw e : Traced ε ω σ α) Q := by
  intro s es b t hr hs
  simp [Runs] at hr

theorem Ensures.trivial : Ensures P x fun _ _ => True := fun _ _ _ _ _ _ => True.intro

/-- A precondition that does not speak of the state is a hypothesis. -/
theorem Ensures.of_fact {p : Prop} {Q : α → σ → Prop} (h : p → Ensures (fun _ => True) x Q) :
    Ensures (fun _ => p) x Q := fun s es a t hr hp => h hp s es a t hr True.intro

theorem Ensures.mono {P' : σ → Prop} {Q Q' : α → σ → Prop} (h : Ensures P x Q)
    (hP : ∀ s, P' s → P s) (hQ : ∀ a s, Q a s → Q' a s) : Ensures P' x Q' :=
  fun s es a t hr hs => hQ a t (h s es a t hr (hP s hs))

end Triples

/-! ## Visiting a list -/

/-- Run the body for every element of the list, in order. -/
def each (body : β → Traced ε ω σ Unit) : List β → Traced ε ω σ Unit
  | [] => pure ()
  | b :: bs => do
    body b
    each body bs

/-- A visit goes through the first part of a list and then the second. -/
theorem run_each_append (body : β → Traced ε ω σ Unit) (bs cs : List β) (s : σ) :
    (each body (bs ++ cs)).run s = (each body bs >>= fun _ => each body cs).run s := by
  induction bs generalizing s with
  | nil => rfl
  | cons b bs ih =>
    simp only [List.cons_append, each, run_bind]
    match (body b).run s with
    | ⟨es, .error e⟩ => rfl
    | ⟨es, .ok (_, t)⟩ =>
      rw [Outcome.andThen_ok, Outcome.andThen_ok, ih, run_bind]
      match (each body bs).run t with
      | ⟨fs, .error e⟩ => rfl
      | ⟨fs, .ok (_, u)⟩ => simp

theorem Runs.each_append {body : β → Traced ε ω σ Unit} {bs cs : List β} {s t : σ}
    {es : List ω} (h : Runs (each body bs) s es () t) :
    (each body (bs ++ cs)).run s = ((each body cs).run t).after es := by
  have hrun : (each body bs).run s = ⟨es, .ok ((), t)⟩ := h
  rw [run_each_append, run_bind, hrun, Outcome.andThen_ok]

theorem Runs.each_snoc {body : β → Traced ε ω σ Unit} {bs : List β} {b : β} {s t u : σ}
    {es fs : List ω} (h : Runs (each body bs) s es () t) (hb : Runs (body b) t fs () u) :
    Runs (each body (bs ++ [b])) s (es ++ fs) () u := by
  have hb' : (body b).run t = ⟨fs, .ok ((), u)⟩ := hb
  simp [Runs, h.each_append, each, hb']

/-- The rule for a visit that goes through: `P` speaks of the elements done, the events
logged so far and the state, and every step carries it on. -/
theorem Runs.each_rule {body : β → Traced ε ω σ Unit} {P : List β → List ω → σ → Prop}
    {bs : List β} {log : List ω} {s : σ}
    (step : ∀ done b rest log s, bs = done ++ b :: rest → P done log s →
      ∃ es t, Runs (body b) s es () t ∧ P (done ++ [b]) (log ++ es) t)
    (h : P [] log s) : ∃ es t, Runs (each body bs) s es () t ∧ P bs (log ++ es) t := by
  suffices go : ∀ rest done log s, bs = done ++ rest → P done log s →
      ∃ es t, Runs (each body rest) s es () t ∧ P bs (log ++ es) t from
    go bs [] log s rfl h
  intro rest
  induction rest with
  | nil =>
    intro done log s hbs hP
    exact ⟨[], s, .pure () s, by simpa [hbs] using hP⟩
  | cons b rest ih =>
    intro done log s hbs hP
    obtain ⟨es, t, hb, hP'⟩ := step done b rest log s hbs hP
    obtain ⟨fs, u, hr, hP''⟩ := ih (done ++ [b]) (log ++ es) t (by simp [hbs]) hP'
    exact ⟨es ++ fs, u, hb.seq hr, by simpa using hP''⟩

/-- What each body keeps, the visit keeps. -/
theorem Ensures.each {body : β → Traced ε ω σ Unit} {P : σ → Prop}
    (h : ∀ b, Ensures P (body b) fun _ => P) (bs : List β) :
    Ensures P (each body bs) fun _ => P := by
  induction bs with
  | nil => exact .pure fun _ hs => hs
  | cons b bs ih => exact .bind (h b) fun _ => ih

/-! ## Repeating while a test holds -/

/-- At most `n` repetitions of the body, as long as the test holds. -/
def repeatWhile (test : σ → Bool) (body : Traced ε ω σ Unit) : ℕ → Traced ε ω σ Unit
  | 0 => pure ()
  | n + 1 => do
    let s ← getState
    if test s then
      body
      repeatWhile test body n
    else
      pure ()

/-- Repeat the body while the test holds; the measure bounds the repetitions. -/
def whileDo (measure : σ → ℕ) (test : σ → Bool) (body : Traced ε ω σ Unit) :
    Traced ε ω σ Unit := do
  let s ← getState
  repeatWhile test body (measure s)

/-- The rule for a loop that goes through: each repetition keeps `P` and lowers the measure,
and where the measure is zero the test fails. -/
theorem Runs.while_rule {measure : σ → ℕ} {test : σ → Bool} {body : Traced ε ω σ Unit}
    {P : List ω → σ → Prop} {log : List ω} {s : σ}
    (step : ∀ log s, P log s → test s = true → ∃ es t, Runs body s es () t ∧
      measure t < measure s ∧ P (log ++ es) t)
    (h : P log s) :
    ∃ es t, Runs (whileDo measure test body) s es () t ∧ test t = false ∧ P (log ++ es) t := by
  suffices go : ∀ n log s, measure s ≤ n → P log s → ∃ es t,
      Runs (repeatWhile test body n) s es () t ∧ test t = false ∧ P (log ++ es) t by
    obtain ⟨es, t, hr, ht, hP⟩ := go (measure s) log s (Nat.le_refl _) h
    exact ⟨es, t, hr, ht, hP⟩
  intro n
  induction n with
  | zero =>
    intro log s hn hP
    cases htest : test s with
    | false => exact ⟨[], s, .pure () s, htest, by simpa using hP⟩
    | true =>
      obtain ⟨_, t, _, hm, _⟩ := step log s hP htest
      omega
  | succ n ih =>
    intro log s hn hP
    cases htest : test s with
    | false => exact ⟨[], s, by simp [Runs, repeatWhile, htest], htest, by simpa using hP⟩
    | true =>
      obtain ⟨es, t, hb, hm, hP'⟩ := step log s hP htest
      obtain ⟨fs, u, hr, hu, hP''⟩ := ih (log ++ es) t (by omega) hP'
      refine ⟨es ++ fs, u, ?_, hu, by simpa using hP''⟩
      have hseq := hb.seq hr
      simpa [Runs, repeatWhile, htest] using hseq

/-- What the body keeps, the loop keeps. -/
theorem Ensures.whileDo {measure : σ → ℕ} {test : σ → Bool} {body : Traced ε ω σ Unit}
    {P : σ → Prop} (h : Ensures P body fun _ => P) :
    Ensures P (whileDo measure test body) fun _ => P := by
  refine read_bind fun s _ => ?_
  generalize measure s = n
  induction n with
  | zero => exact .pure fun _ hs => hs
  | succ n ih =>
    refine read_bind fun t _ => ?_
    cases test t with
    | false => exact .pure fun _ hs => hs
    | true => exact .bind h fun _ => ih

/-! ## Running on a part of the state -/

/-- Run a computation on the part of the state that `view` reads and `put` writes back. -/
def zoom (view : τ → σ) (put : σ → τ → τ) (x : Traced ε ω σ α) : Traced ε ω τ α :=
  ⟨fun t => ⟨(x.run (view t)).events,
    (x.run (view t)).result.map fun p => (p.1, put p.2 t)⟩⟩

theorem Runs.zoom {view : τ → σ} {put : σ → τ → τ} {x : Traced ε ω σ α} {t : τ} {s : σ}
    {es : List ω} {a : α} (h : Runs x (view t) es a s) :
    Runs (zoom view put x) t es a (put s t) := by
  unfold Runs at *
  simp [Traced.zoom, h, Except.map]

/-- It runs as another one that does so on that part. -/
theorem run_zoom_congr {view : τ → σ} {put : σ → τ → τ} {x y : Traced ε ω σ α} {t : τ}
    (h : x.run (view t) = y.run (view t)) :
    (zoom view put x).run t = (zoom view put y).run t := by
  simp only [zoom, h]

section

variable {view : τ → σ} {put : σ → τ → τ}

theorem zoom_pure (hget : ∀ t, put (view t) t = t) (a : α) :
    zoom view put (pure a : Traced ε ω σ α) = pure a :=
  congrArg Traced.mk (funext fun t => by simp [Except.map, hget])

theorem zoom_bind (hview : ∀ s t, view (put s t) = s)
    (hput : ∀ s s' t, put s' (put s t) = put s' t) (x : Traced ε ω σ α)
    (f : α → Traced ε ω σ β) :
    zoom view put (x >>= f) = zoom view put x >>= fun a => zoom view put (f a) := by
  refine congrArg Traced.mk (funext fun t => ?_)
  rcases hx : x.run (view t) with ⟨es, e | ⟨a, s⟩⟩
  · simp [zoom, hx, Except.map]
  · rcases hf : (f a).run s with ⟨fs, e | ⟨b, u⟩⟩
    · simp [zoom, hx, hf, hview, Except.map]
    · simp [zoom, hx, hf, hview, hput, Except.map]

/-- A visit that runs on a part of the state. -/
theorem zoom_each (hget : ∀ t, put (view t) t = t) (hview : ∀ s t, view (put s t) = s)
    (hput : ∀ s s' t, put s' (put s t) = put s' t) (body : β → Traced ε ω σ Unit) (bs : List β) :
    zoom view put (each body bs) = each (fun b => zoom view put (body b)) bs := by
  induction bs with
  | nil => exact zoom_pure hget ()
  | cons b bs ih => rw [each, each, zoom_bind hview hput, ih]

end

theorem fault_zoom {view : τ → σ} {put : σ → τ → τ} {x : Traced ε ω σ α} {t : τ} {e : ε}
    (h : (x.run (view t)).result = .error e) :
    ((zoom view put x).run t).result = .error e := by
  simp [zoom, h, Except.map]

theorem Runs.of_zoom {view : τ → σ} {put : σ → τ → τ} {x : Traced ε ω σ α} {t u : τ}
    {es : List ω} {a : α} (h : Runs (Traced.zoom view put x) t es a u) :
    ∃ s, Runs x (view t) es a s ∧ u = put s t := by
  unfold Runs Traced.zoom at *
  match hx : x.run (view t) with
  | ⟨fs, .error e⟩ => simp [hx, Except.map] at h
  | ⟨fs, .ok (b, s)⟩ =>
    simp only [hx, Except.map, Outcome.mk.injEq, Except.ok.injEq, Prod.mk.injEq] at h
    obtain ⟨rfl, rfl, rfl⟩ := h
    exact ⟨s, rfl, rfl⟩

theorem Meets.zoom {view : τ → σ} {put : σ → τ → τ} {x : Traced ε ω σ α} {t : τ}
    {L : List ω → Prop} {a : α} {P : σ → Prop} {Q : τ → Prop} (h : Meets x L (view t) a P)
    (hput : ∀ s, P s → Q (put s t)) : Meets (Traced.zoom view put x) L t a Q := by
  obtain ⟨es, s, hr, hl, hP⟩ := h
  exact ⟨es, put s t, hr.zoom, hl, hput s hP⟩

theorem Ensures.zoom {view : τ → σ} {put : σ → τ → τ} {x : Traced ε ω σ α} {P : σ → Prop}
    {Q : α → σ → Prop} {Q' : α → τ → Prop} (h : Ensures P x Q)
    (hput : ∀ a s t, Q a s → Q' a (put s t)) :
    Ensures (fun t => P (view t)) (Traced.zoom view put x) Q' := by
  intro t es a u hr ht
  obtain ⟨s, hs, rfl⟩ := hr.of_zoom
  exact hput a s t (h _ es a s hs ht)

/-- What writing the part back keeps, running on the part keeps. -/
theorem Ensures.zoom_frame {view : τ → σ} {put : σ → τ → τ} {x : Traced ε ω σ α} {P : τ → Prop}
    (hput : ∀ s t, P t → P (put s t)) : Ensures P (Traced.zoom view put x) fun _ => P := by
  intro t es a u hr ht
  obtain ⟨s, -, rfl⟩ := hr.of_zoom
  exact hput s t ht

/-! ## Parts of the state that do not change -/

/-- The computation does not change what `f` reads from the state. -/
def Keeps (f : σ → γ) (x : Traced ε ω σ α) : Prop :=
  ∀ v, Ensures (fun s => f s = v) x fun _ s => f s = v

namespace Keeps

variable {f : σ → γ} {x : Traced ε ω σ α} {p q : Traced ε ω σ β}

/-- So it keeps every condition on it. -/
theorem ensures (h : Keeps f x) (P : γ → Prop) :
    Ensures (fun s => P (f s)) x fun _ s => P (f s) := by
  intro s es a t hr hs
  have hft : f t = f s := h (f s) s es a t hr rfl
  rwa [hft]

protected theorem pure (a : α) : Keeps f (pure a : Traced ε ω σ α) :=
  fun _ => Ensures.pure fun _ h => h

protected theorem bind {g : α → Traced ε ω σ β} (hx : Keeps f x) (hg : ∀ a, Keeps f (g a)) :
    Keeps f (x >>= g) := fun v => Ensures.bind (hx v) fun a => hg a v

theorem getState_bind {g : σ → Traced ε ω σ β} (h : ∀ s, Keeps f (g s)) :
    Keeps f (getState >>= g) := fun v => Ensures.read_bind fun s _ => h s v

theorem modifyState {g : σ → σ} (hg : ∀ s, f (g s) = f s) :
    Keeps f (modifyState g : Traced ε ω σ Unit) :=
  fun _ => Ensures.modifyState fun s hs => (hg s).trans hs

theorem modifyState_bind {g : σ → σ} {y : Unit → Traced ε ω σ β} (hg : ∀ s, f (g s) = f s)
    (hy : ∀ u, Keeps f (y u)) : Keeps f (Traced.modifyState g >>= y) := (modifyState hg).bind hy

theorem emit_bind {e : ω} {y : Unit → Traced ε ω σ β} (hy : ∀ u, Keeps f (y u)) :
    Keeps f (emit e >>= y) := fun v => Ensures.bind (.emit fun _ h => h) fun u => hy u v

theorem ite {c : Prop} [Decidable c] (hp : Keeps f p) (hq : Keeps f q) :
    Keeps f (if c then p else q) := by
  split
  · exact hp
  · exact hq

theorem each {body : β → Traced ε ω σ Unit} (h : ∀ b, Keeps f (body b)) (bs : List β) :
    Keeps f (each body bs) := fun v => Ensures.each (fun b => h b v) bs

theorem whileDo {measure : σ → ℕ} {test : σ → Bool} {body : Traced ε ω σ Unit}
    (h : Keeps f body) : Keeps f (whileDo measure test body) := fun v => Ensures.whileDo (h v)

end Keeps

end Traced

/-! ## Counted loops -/

namespace Loops

/-- What holds at the start of `for (i = 0; i < n; i++) a = f i a` and is kept by every pass holds
at the end. -/
theorem fold_invariant {P : ℕ → α → Prop} {n : ℕ} {f : (i : ℕ) → i < n → α → α} {a : α}
    (start : P 0 a) (pass : ∀ i (hi : i < n) x, P i x → P (i + 1) (f i hi x)) :
    P n (Nat.fold n f a) := by
  induction n with
  | zero => exact start
  | succ n ih =>
    rw [Nat.fold_succ]
    exact pass n _ _ (ih fun i hi => pass i (by omega))

/-- Two loops of the same length whose passes agree stay related. -/
theorem fold_related {R : α → β → Prop} {n : ℕ} {f : (i : ℕ) → i < n → α → α}
    {g : (i : ℕ) → i < n → β → β} {a : α} {b : β} (start : R a b)
    (pass : ∀ i (hi : i < n) x y, R x y → R (f i hi x) (g i hi y)) :
    R (Nat.fold n f a) (Nat.fold n g b) := by
  induction n with
  | zero => exact start
  | succ n ih =>
    rw [Nat.fold_succ, Nat.fold_succ]
    exact pass n _ _ _ (ih fun i hi => pass i (by omega))

end Loops
