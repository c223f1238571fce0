import Mathlib.Data.List.Infix
import LibEmsha.Model.Interface

/-!
# What a hash object is for

The abstract machines behind the class `Hash`. A state is a message, still open or done. The
machines are given the function from messages to digests; `hashMachine` describes `SHA256` and
`macMachine` describes `HMAC`, which differ in the arguments they refuse and in what
`Finalise` does when it is called again.
-/

namespace LibEmsha

/-- The message absorbed since the last `Reset`, still open or done. -/
inductive HashState where
  | absorbing (message : List UInt8)
  | done (message : List UInt8)

namespace HashState

/-- Nothing absorbed. -/
def start : HashState := .absorbing []

def message : HashState → List UInt8
  | .absorbing m | .done m => m

@[simp] theorem message_absorbing (m : List UInt8) : (absorbing m).message = m := rfl
@[simp] theorem message_done (m : List UInt8) : (done m).message = m := rfl

def isDone : HashState → Bool
  | .absorbing _ => false
  | .done _ => true

/-- No more input is taken once a digest was asked for, until `Reset`. -/
def next : HashState → Call → HashState
  | _, .reset => .absorbing []
  | .absorbing m, .update input => .absorbing (m ++ input.data)
  | .absorbing m, .finalise (some _) | .absorbing m, .result (some _) => .done m
  | .absorbing m, .finalise none | .absorbing m, .result none => .absorbing m
  | .done m, _ => .done m

end HashState

/-- The state after the calls. -/
def stateAfter (cs : List Call) : HashState := cs.foldl HashState.next .start

/-- The bytes absorbed between two `Reset`s stay below the limit, throughout the calls. -/
def WithinLimit (limit : ℕ) (cs : List Call) : Prop :=
  ∀ pre, pre <+: cs → (stateAfter pre).message.length < limit

theorem WithinLimit.of_prefix {limit : ℕ} {pre cs : List Call} (h : WithinLimit limit cs)
    (hpre : pre <+: cs) : WithinLimit limit pre := fun p hp => h p (hp.trans hpre)

/-- A history with one more call. -/
theorem WithinLimit.of_snoc {limit : ℕ} {cs : List Call} {c : Call}
    (h : WithinLimit limit (cs ++ [c])) :
    WithinLimit limit cs ∧ ((stateAfter cs).next c).message.length < limit := by
  refine ⟨h.of_prefix (List.prefix_append cs [c]), ?_⟩
  have hlast := h (cs ++ [c]) (List.prefix_refl _)
  rwa [stateAfter, List.foldl_concat] at hlast

/-- Only an `Update` of an open object with bytes that can be read leaves the limit. -/
theorem HashState.of_leaves_limit {limit : ℕ} {t : HashState} {c : Call}
    (ht : t.message.length < limit) (hleave : ¬ (t.next c).message.length < limit) :
    ∃ m data fits, t = .absorbing m ∧ c = .update (.bytes data fits) ∧
      limit ≤ m.length + data.length := by
  have hempty : ([] : List UInt8).length < limit := Nat.zero_lt_of_lt ht
  cases t with
  | done m =>
    -- A finished object takes no input.
    cases c with
    | reset => exact (hleave hempty).elim
    | update input => exact (hleave ht).elim
    | finalise d => cases d <;> exact (hleave ht).elim
    | result d => cases d <;> exact (hleave ht).elim
  | absorbing m =>
    cases c with
    | reset => exact (hleave hempty).elim
    | finalise d => cases d <;> exact (hleave ht).elim
    | result d => cases d <;> exact (hleave ht).elim
    | update input =>
      cases input with
      | null n => exact (hleave (by simpa [next, message] using ht)).elim
      | bytes data fits => exact ⟨m, data, fits, rfl, rfl, by simpa [next, message] using hleave⟩

instance (limit : ℕ) (cs : List Call) : Decidable (WithinLimit limit cs) :=
  decidable_of_iff (∀ pre ∈ cs.inits, (stateAfter pre).message.length < limit)
    (by simp [WithinLimit])

/-- The machine of an unkeyed hash. -/
def hashMachine (digest : List UInt8 → Digest) : Machine HashState Call Reply where
  next := HashState.next
  answer
    | _, .reset => ⟨.ok, none⟩
    | t, .update input =>
      if input.length = 0 then ⟨.ok, none⟩
      else if input.isNull then ⟨.nullPointer, none⟩
      else
        match t with
        | .absorbing _ => ⟨.ok, none⟩
        | .done _ => ⟨.invalidState, none⟩
    | _, .finalise none | _, .result none => ⟨.nullPointer, none⟩
    | .absorbing m, .finalise (some _) => ⟨.ok, some (digest m)⟩
    | .done _, .finalise (some d) => ⟨.invalidState, some d⟩
    | t, .result (some _) => ⟨.ok, some (digest t.message)⟩

/-- The calls at which an object stops that takes fewer than `limit` bytes. -/
def hashFault (limit : ℕ) (t : HashState) (c : Call) : Option Fault :=
  if (t.next c).message.length < limit then none else some .outOfBounds

theorem hashFault_eq_none {limit : ℕ} {t : HashState} {c : Call} :
    hashFault limit t c = none ↔ (t.next c).message.length < limit := by
  rw [hashFault]
  split <;> simp [*]

theorem hashFault_eq_some {limit : ℕ} {t : HashState} {c : Call} {e : Fault} :
    hashFault limit t c = some e ↔ ¬ (t.next c).message.length < limit ∧ .outOfBounds = e := by
  rw [hashFault]
  split <;> simp [*]

/-- The machine of a keyed hash. -/
def macMachine (tag : List UInt8 → Digest) : Machine HashState Call Reply where
  next := HashState.next
  answer
    | _, .reset => ⟨.ok, none⟩
    | t, .update input =>
      if input.isNull then ⟨.nullPointer, none⟩
      else
        match t with
        | .absorbing _ => ⟨.ok, none⟩
        | .done _ => ⟨.invalidState, none⟩
    | _, .finalise none | _, .result none => ⟨.nullPointer, none⟩
    | t, .finalise (some _) | t, .result (some _) => ⟨.ok, some (tag t.message)⟩

/-- The `Update`s that a keyed hash refuses. -/
def HashState.refusesUpdate (t : HashState) : Call → Bool
  | .update input => input.isNull || t.isDone
  | .reset | .finalise _ | .result _ => false

/-- The calls at which an object stops that takes fewer than `limit` bytes and that asserts, in a
debug build, that its `Update`s are not refused. -/
def macFault (build : Build) (limit : ℕ) (t : HashState) (c : Call) : Option Fault :=
  if build = .debug ∧ t.refusesUpdate c = true then some .assertion else hashFault limit t c

section

variable {tag : List UInt8 → Digest} {t : HashState} {c : Call}

/-- A digest that is handed out is the tag of the message. -/
theorem macMachine_digest (hc : c.asksDigest = true)
    (hok : ((macMachine tag).answer t c).res = .ok) :
    ((macMachine tag).answer t c).digest = some (tag t.message) := by
  cases c with
  | reset => cases hc
  | update input => cases hc
  | finalise d =>
    cases d with
    | none => cases hok
    | some d => rfl
  | result d =>
    cases d with
    | none => cases hok
    | some d => rfl

/-- It is handed out whenever there is a place for it. -/
theorem macMachine_asked {d : Digest} (hc : c = .finalise (some d) ∨ c = .result (some d)) :
    (macMachine tag).answer t c = ⟨.ok, some (tag t.message)⟩ := by
  rcases hc with rfl | rfl <;> rfl

theorem macMachine_update_done (ht : t.isDone = true) (input : Input) :
    ((macMachine tag).answer t (.update input)).res ≠ .ok := by
  cases t with
  | absorbing m => cases ht
  | done m => cases input <;> simp [macMachine]

end

/-! ## Histories of a machine -/

/-- A machine that goes on as `HashState.next` does passes through these states. -/
theorem after_start {machine : Machine HashState Call Reply}
    (hnext : machine.next = HashState.next) (cs : List Call) :
    machine.after .start cs = stateAfter cs := by
  rw [Machine.after, hnext, stateAfter]

/-- Calls stay within the limit exactly if such a machine stays within it. -/
theorem withinLimit_iff {machine : Machine HashState Call Reply}
    (hnext : machine.next = HashState.next) {limit : ℕ} {cs : List Call} :
    WithinLimit limit cs ↔ machine.Within (fun t => t.message.length < limit) .start cs := by
  simp only [WithinLimit, Machine.Within, after_start hnext]

/-! ## The keyed hash -/

/-- The key of one block: a longer key is hashed first, and zeros fill the block. -/
def macKey (digest : List UInt8 → Digest) (key : List UInt8) : List UInt8 :=
  let short := if key.length ≤ 64 then key else (digest key).toList
  short ++ List.replicate (64 - short.length) 0

/-- The tag of a message under a key of one block. -/
def macTag (digest : List UInt8 → Digest) (key message : List UInt8) : Digest :=
  digest (key.map (· ^^^ 0x5c) ++ (digest (key.map (· ^^^ 0x36) ++ message)).toList)

/-! ## Messages and transcripts -/

theorem message_next_hashMachine (digest : List UInt8 → Digest) (t : HashState) (c : Call) :
    absorbStep t.message (c, (hashMachine digest).answer t c) = (t.next c).message := by
  cases c with
  | reset => cases t <;> rfl
  | update input =>
    cases input with
    | null n => cases t <;> simp [absorbStep, HashState.next, HashState.message]
    | bytes data fits =>
      by_cases hdata : data = [] <;> cases t <;>
        simp [absorbStep, hashMachine, HashState.next, HashState.message, hdata]
  | finalise d => cases d <;> cases t <;> rfl
  | result d => cases d <;> cases t <;> rfl

theorem message_next_macMachine (tag : List UInt8 → Digest) (t : HashState) (c : Call) :
    absorbStep t.message (c, (macMachine tag).answer t c) = (t.next c).message := by
  cases c with
  | reset => cases t <;> rfl
  | update input =>
    cases input <;> cases t <;> simp [absorbStep, macMachine, HashState.next, HashState.message]
  | finalise d => cases d <;> cases t <;> rfl
  | result d => cases d <;> cases t <;> rfl

/-- The message of the state is what the transcript says was absorbed. -/
theorem absorbed_zip_answers {machine : Machine HashState Call Reply}
    (hnext : machine.next = HashState.next)
    (hstep : ∀ t c, absorbStep t.message (c, machine.answer t c) = (t.next c).message)
    (cs : List Call) :
    absorbed (cs.zip (machine.answers .start cs)) = (stateAfter cs).message := by
  suffices go : ∀ t, (cs.zip (machine.answers t cs)).foldl absorbStep t.message =
      (cs.foldl HashState.next t).message from go .start
  induction cs with
  | nil => exact fun _ => rfl
  | cons c cs ih =>
    intro t
    simp only [Machine.answers, List.zip_cons_cons, List.foldl_cons, hstep, hnext, ih]

theorem isDone_next_hashMachine (digest : List UInt8 → Digest) (t : HashState) (c : Call) :
    finalisedStep t.isDone (c, (hashMachine digest).answer t c) = (t.next c).isDone := by
  cases c with
  | reset => cases t <;> rfl
  | update input => cases t <;> rfl
  | finalise d => cases d <;> cases t <;> rfl
  | result d => cases d <;> cases t <;> rfl

theorem isDone_next_macMachine (tag : List UInt8 → Digest) (t : HashState) (c : Call) :
    finalisedStep t.isDone (c, (macMachine tag).answer t c) = (t.next c).isDone := by
  cases c with
  | reset => cases t <;> rfl
  | update input => cases t <;> rfl
  | finalise d => cases d <;> cases t <;> rfl
  | result d => cases d <;> cases t <;> rfl

/-- The state is done when the transcript says so. -/
theorem finalised_zip_answers {machine : Machine HashState Call Reply}
    (hnext : machine.next = HashState.next)
    (hstep : ∀ t c, finalisedStep t.isDone (c, machine.answer t c) = (t.next c).isDone)
    (cs : List Call) :
    finalised (cs.zip (machine.answers .start cs)) = (stateAfter cs).isDone := by
  suffices go : ∀ t, (cs.zip (machine.answers t cs)).foldl finalisedStep t.isDone =
      (cs.foldl HashState.next t).isDone from go .start
  induction cs with
  | nil => exact fun _ => rfl
  | cons c cs ih =>
    intro t
    simp only [Machine.answers, List.zip_cons_cons, List.foldl_cons, hstep, hnext, ih]

end LibEmsha
