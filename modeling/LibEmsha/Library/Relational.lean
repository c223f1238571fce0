import Mathlib.Data.List.Forall2
import LibEmsha.Library.Machine

/-!
# Two runs side by side

`Lockstep obs R V x y` is the relational triple of two computations that an observer cannot tell
apart: from states related by `R` they log events that look the same through `obs`, they fault
alike or they return values related by `V`, and the states stay related. It comes with one rule for
each construct of a computation. Where the observer sees everything and the states are equal, it
says that two computations are the same (`Alike.eq`).
-/

namespace Traced

variable {ε ω σ τ κ ρ α β ο : Type}

/-! ## Runs that look the same -/

/-- Outcomes that look the same through `obs`. -/
inductive Alike (obs : ω → ο) (R : σ → σ → Prop) (V : α → α → Prop) :
    Outcome ε ω σ α → Outcome ε ω σ α → Prop
  | returns {es es' : List ω} {a a' : α} {s s' : σ} (events : es.map obs = es'.map obs)
      (value : V a a') (state : R s s') : Alike obs R V ⟨es, .ok (a, s)⟩ ⟨es', .ok (a', s')⟩
  | faults {es es' : List ω} (e : ε) (events : es.map obs = es'.map obs) :
      Alike obs R V ⟨es, .error e⟩ ⟨es', .error e⟩

section

variable {obs : ω → ο} {R : σ → σ → Prop} {V : α → α → Prop} {W : β → β → Prop}

theorem Alike.after {es es' : List ω} {o o' : Outcome ε ω σ α} (h : Alike obs R V o o')
    (hes : es.map obs = es'.map obs) : Alike obs R V (o.after es) (o'.after es') := by
  cases h with
  | returns events value state => exact .returns (by simp [hes, events]) value state
  | faults e events => exact .faults e (by simp [hes, events])

/-- Outcomes that look the same to an observer who sees everything are the same. -/
theorem Alike.eq {P : σ → Prop} {o o' : Outcome ε ω σ α}
    (h : Alike id (fun s t => s = t ∧ P s) Eq o o') : o = o' := by
  cases h with
  | returns events value state => simp_all
  | faults e events => simp_all

/-- From related states the two computations look the same, and the states stay related. -/
def Lockstep (obs : ω → ο) (R : σ → σ → Prop) (V : α → α → Prop) (x y : Traced ε ω σ α) : Prop :=
  ∀ s t, R s t → Alike obs R V (x.run s) (y.run t)

namespace Lockstep

variable {x y x' y' : Traced ε ω σ α} {f g : α → Traced ε ω σ β}

protected theorem pure {a b : α} (h : V a b) :
    Lockstep obs R V (pure a : Traced ε ω σ α) (pure b) := fun _ _ hst => .returns rfl h hst

/-- A computation looks like itself, and goes on doing so as long as it keeps what is assumed. -/
theorem of_ensures {P : σ → Prop} (h : Ensures P x fun _ => P) :
    Lockstep obs (fun s t => s = t ∧ P s) Eq x x := by
  rintro s _ ⟨rfl, hs⟩
  match hrun : x.run s with
  | ⟨es, .ok (a, t)⟩ => exact .returns rfl rfl ⟨rfl, h s es a t hrun hs⟩
  | ⟨es, .error e⟩ => exact .faults e rfl

protected theorem bind (hx : Lockstep obs R V x y)
    (hf : ∀ a b, V a b → Lockstep obs R W (f a) (g b)) :
    Lockstep obs R W (x >>= f) (y >>= g) := by
  intro s t hst
  have h := hx s t hst
  rw [run_bind, run_bind]
  generalize x.run s = o at h
  generalize y.run t = o' at h
  cases h with
  | returns events value state => exact (hf _ _ value _ _ state).after events
  | faults e events => exact .faults e events

theorem getState_bind {f g : σ → Traced ε ω σ β}
    (h : ∀ s t, R s t → Lockstep obs R W (f s) (g t)) :
    Lockstep obs R W (getState >>= f) (getState >>= g) := fun s t hst => h s t hst s t hst

theorem modifyState {f g : σ → σ} (h : ∀ s t, R s t → R (f s) (g t)) :
    Lockstep obs R Eq (modifyState f : Traced ε ω σ Unit) (modifyState g) :=
  fun s t hst => .returns rfl rfl (h s t hst)

theorem modifyState_bind {f g : σ → σ} {p q : Unit → Traced ε ω σ β}
    (h : ∀ s t, R s t → R (f s) (g t)) (hpq : ∀ u, Lockstep obs R W (p u) (q u)) :
    Lockstep obs R W (Traced.modifyState f >>= p) (Traced.modifyState g >>= q) :=
  (modifyState h).bind fun u _ _ => hpq u

theorem emit_bind {e e' : ω} {p q : Unit → Traced ε ω σ β} (h : obs e = obs e')
    (hpq : ∀ u, Lockstep obs R W (p u) (q u)) :
    Lockstep obs R W (emit e >>= p) (emit e' >>= q) :=
  fun s t hst => (hpq () s t hst).after (by simp [h])

theorem throw (e : ε) : Lockstep obs R V (throw e : Traced ε ω σ α) (throw e) :=
  fun _ _ _ => .faults e rfl

theorem ite {p q : Prop} [Decidable p] [Decidable q] (hpq : p ↔ q)
    (hx : p → Lockstep obs R V x y) (hx' : ¬ p → Lockstep obs R V x' y') :
    Lockstep obs R V (if p then x else x') (if q then y else y') := by
  by_cases hp : p
  · rw [if_pos hp, if_pos (hpq.mp hp)]
    exact hx hp
  · rw [if_neg hp, if_neg (mt hpq.mpr hp)]
    exact hx' hp

/-- Visits of two lists whose elements are related one by one. -/
theorem each {body body' : β → Traced ε ω σ Unit} {S : β → β → Prop} {bs cs : List β}
    (h : ∀ b c, S b c → Lockstep obs R Eq (body b) (body' c)) (hbs : List.Forall₂ S bs cs) :
    Lockstep obs R Eq (each body bs) (Traced.each body' cs) := by
  induction hbs with
  | nil => exact .pure rfl
  | cons hb _ ih => exact (h _ _ hb).bind fun _ _ _ => ih

theorem repeatWhile {test : σ → Bool} {body : Traced ε ω σ Unit}
    (htest : ∀ s t, R s t → test s = test t) (hbody : Lockstep obs R Eq body body) (n : ℕ) :
    Lockstep obs R Eq (repeatWhile test body n) (Traced.repeatWhile test body n) := by
  induction n with
  | zero => exact .pure rfl
  | succ n ih =>
    refine getState_bind fun s t hst =>
      .ite (by rw [htest s t hst]) (fun _ => ?_) fun _ => .pure rfl
    exact hbody.bind fun _ _ _ => ih

/-- A loop whose measure and test look at related parts only. -/
theorem whileDo {measure : σ → ℕ} {test : σ → Bool} {body : Traced ε ω σ Unit}
    (hmeasure : ∀ s t, R s t → measure s = measure t) (htest : ∀ s t, R s t → test s = test t)
    (hbody : Lockstep obs R Eq body body) :
    Lockstep obs R Eq (whileDo measure test body) (Traced.whileDo measure test body) := by
  refine getState_bind fun s t hst => ?_
  rw [hmeasure s t hst]
  exact repeatWhile htest hbody _

/-- Running on a part of the state. -/
theorem zoom {view : τ → σ} {put : σ → τ → τ} {R' : τ → τ → Prop} (h : Lockstep obs R V x y)
    (hview : ∀ s t, R' s t → R (view s) (view t))
    (hput : ∀ u v s t, R u v → R' s t → R' (put u s) (put v t)) :
    Lockstep obs R' V (Traced.zoom view put x) (Traced.zoom view put y) := by
  intro s t hst
  have hxy := h _ _ (hview s t hst)
  unfold Traced.zoom
  dsimp only
  generalize x.run (view s) = o at hxy
  generalize y.run (view t) = o' at hxy
  cases hxy with
  | returns events value state => exact .returns events value (hput _ _ s t state hst)
  | faults e events => exact .faults e events

theorem answerAll {step step' : κ → Traced ε ω σ ρ} {S : κ → κ → Prop} {V : ρ → ρ → Prop}
    {cs ds : List κ} (h : ∀ c d, S c d → Lockstep obs R V (step c) (step' d))
    (hcs : List.Forall₂ S cs ds) :
    Lockstep obs R (List.Forall₂ V) (answerAll step cs) (Traced.answerAll step' ds) := by
  induction hcs with
  | nil => exact .pure .nil
  | cons hc _ ih =>
    exact (h _ _ hc).bind fun r r' hr => ih.bind fun rs rs' hrs => .pure (.cons hr hrs)

end Lockstep

end

end Traced
