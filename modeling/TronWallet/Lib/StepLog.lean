import TronWallet.Lib.UnorderedMap

/-!
# Logs of computations that may break off

A `StepLog` lists the steps a computation takes and tells whether it comes to its end.
Logs are composed as the computations are: what follows a log that breaks off is not
taken.  A log acts on a state by its steps, one after the other.
-/

set_option autoImplicit false

namespace TronWallet.Lib

/-- The steps a computation takes, and whether it comes to its end. -/
structure StepLog (ε : Type) where
  steps : List ε
  complete : Bool

namespace StepLog

variable {ε σ α err : Type}

/-- No step is taken, and the end is reached. -/
def done : StepLog ε := ⟨[], true⟩

/-- No step is taken, and the end is not reached. -/
def broken : StepLog ε := ⟨[], false⟩

/-- One step. -/
def single (e : ε) : StepLog ε := ⟨[e], true⟩

/-- One log after the other. -/
def andThen (l l' : StepLog ε) : StepLog ε :=
  if l.complete then ⟨l.steps ++ l'.steps, l'.complete⟩ else l

/-- A log that needs a value, and breaks off when there is none. -/
def after (x : Except err α) (f : α → StepLog ε) : StepLog ε :=
  match x with
  | .ok a => f a
  | .error _ => broken

/-- Behind a result the log goes on with it. -/
@[simp] theorem after_ok (a : α) (f : α → StepLog ε) :
    after (.ok a : Except err α) f = f a := rfl

/-- Behind an error the log breaks off. -/
@[simp] theorem after_error (e : err) (f : α → StepLog ε) : after (.error e) f = broken := rfl

/-- A log with no steps has come to its end. -/
@[simp] theorem complete_done : (done : StepLog ε).complete = true := rfl

/-- A log that breaks off has not come to its end. -/
@[simp] theorem complete_broken : (broken : StepLog ε).complete = false := rfl

/-- A log of one step has come to its end. -/
@[simp] theorem complete_single (e : ε) : (single e).complete = true := rfl

/-- A sequence comes to its end when both parts do. -/
theorem complete_andThen {l l' : StepLog ε} :
    (l.andThen l').complete = true ↔ l.complete = true ∧ l'.complete = true := by
  unfold andThen
  cases h : l.complete <;> simp [h]

/-- Nothing more to do changes nothing. -/
@[simp] theorem andThen_done (l : StepLog ε) : l.andThen done = l := by
  unfold andThen done
  cases l with
  | mk steps complete => cases complete <;> simp

/-- The state after the steps of a log. -/
def run (act : σ → ε → σ) (l : StepLog ε) (s : σ) : σ := l.steps.foldl act s

section Run

variable (act : σ → ε → σ)

/-- A log with no steps leaves the state. -/
@[simp] theorem run_done (s : σ) : (done : StepLog ε).run act s = s := rfl

/-- A log that breaks off at once leaves the state. -/
@[simp] theorem run_broken (s : σ) : (broken : StepLog ε).run act s = s := rfl

/-- A log of one step is that step. -/
@[simp] theorem run_single (e : ε) (s : σ) : (single e).run act s = act s e := rfl

/-- Behind a log that has come to its end the other one is run. -/
theorem run_andThen_of_complete {l l' : StepLog ε} (h : l.complete = true) (s : σ) :
    (l.andThen l').run act s = l'.run act (l.run act s) := by
  unfold andThen run
  rw [if_pos h, List.foldl_append]

/-- Behind a log that breaks off nothing is run. -/
theorem run_andThen_of_not_complete {l l' : StepLog ε} (h : ¬ l.complete = true) (s : σ) :
    (l.andThen l').run act s = l.run act s := by
  unfold andThen
  rw [if_neg h]

/-- What every step keeps, a log keeps. -/
theorem run_keeps {I : σ → Prop} (h : ∀ s e, I s → I (act s e)) (l : StepLog ε) {s : σ}
    (hs : I s) : I (l.run act s) := by
  unfold run
  induction l.steps generalizing s with
  | nil => exact hs
  | cons e steps ih => exact ih (h s e hs)

end Run

/-! ## Steps that assign entries of a map -/

variable {K V : Type} [DecidableEq K]

/-- A table each step of a log assigns at most one entry of holds, after the log, the
entries assigned. -/
theorem foldl_eq_insertAll {act : σ → ε → σ} {table : σ → UnorderedMap K V}
    {entry : ε → Option (K × V)}
    (h : ∀ s e, table (act s e) = UnorderedMap.insertAll (table s) (entry e).toList)
    (steps : List ε) (s : σ) :
    table (steps.foldl act s) = UnorderedMap.insertAll (table s) (steps.filterMap entry) := by
  induction steps generalizing s with
  | nil => rfl
  | cons e steps ih =>
      rw [List.foldl_cons, ih, h]
      cases he : entry e with
      | none =>
          rw [List.filterMap_cons_none he]
          rfl
      | some p =>
          rw [List.filterMap_cons_some he]
          rfl

/-- Such a table is unchanged exactly when the entries assigned repeat it. -/
theorem lookup_run_eq_self {act : σ → ε → σ} {table : σ → UnorderedMap K V}
    {entry : ε → Option (K × V)}
    (h : ∀ s e, table (act s e) = UnorderedMap.insertAll (table s) (entry e).toList)
    (l : StepLog ε) (s : σ) :
    (∀ k, (table (l.run act s)).lookup k = (table s).lookup k) ↔
      UnorderedMap.Repeats (table s) (l.steps.filterMap entry) := by
  unfold run
  rw [foldl_eq_insertAll h]
  exact UnorderedMap.lookup_insertAll_eq_self

end StepLog

end TronWallet.Lib
