import TronWallet.Model.Bytes

/-!
# Calls that may throw

A member function of the wallet either returns or throws, and in both cases leaves the
object in some state: what was assigned before a throw stays assigned.  `Exec σ α` is
such a call, Lean's state monad with exceptions in which the state survives the
exception.  `finalState` is the state the call leaves either way, `result?` the value of
a call that returned.
-/

set_option autoImplicit false

namespace TronWallet.Model

/-- The ways a call can end other than by returning. -/
inductive Exn where
  /-- `PasswordUnknown`, thrown by `DontKnowThrow`. -/
  | passwordUnknown
  /-- `std::out_of_range`, thrown by `at`. -/
  | outOfRange
  /-- `std::length_error`, a vector that would exceed `max_size`. -/
  | lengthError
  /-- `CryptoException`. -/
  | cryptoException
  /-- `BadRLP`. -/
  | badRLP
  /-- `BadCast`. -/
  | badCast
  /-- `OversizeRLP`. -/
  | oversizeRLP
  /-- `UndersizeRLP`. -/
  | undersizeRLP
  /-- `RLPException`. -/
  | rlpException
  /-- A member function called through a null pointer. -/
  | nullPointer
  /-- A read past the end of a buffer. -/
  | outOfBounds
  /-- A loop that does not end within the rounds allowed to it. -/
  | stillLooping
deriving DecidableEq, Repr

/-- A computation that returns has returned from its first part. -/
theorem bind_eq_ok {ε α β : Type} {x : Except ε α} {f : α → Except ε β} {b : β}
    (h : (x >>= f) = .ok b) : ∃ a, x = .ok a ∧ f a = .ok b := by
  cases x with
  | error e => cases h
  | ok a => exact ⟨a, rfl, h⟩

/-- A call on an object of state `σ` that returns an `α` or throws. -/
abbrev Exec (σ α : Type) := EStateM Exn σ α

namespace Exec

variable {σ τ α β : Type}

/-- The state a call leaves, whether it returns or throws. -/
def finalState (f : Exec σ α) (s : σ) : σ :=
  match f s with
  | .ok _ s' => s'
  | .error _ s' => s'

/-- The value a call returns, `none` when it throws. -/
def result? (f : Exec σ α) (s : σ) : Option α :=
  match f s with
  | .ok a _ => some a
  | .error _ _ => none

/-- A computation without state, in a call. -/
def ofExcept (x : Except Exn α) : Exec σ α := fun s =>
  match x with
  | .ok a => .ok a s
  | .error e => .error e s

/-- A call with a local variable: what the variable holds at the end is returned. -/
def withLocal (init : τ) (f : Exec (σ × τ) Unit) : Exec σ τ := fun s =>
  match f (s, init) with
  | .ok _ (s', t) => .ok t s'
  | .error e (s', _) => .error e s'

/-- `try … catch (...)`: whatever is thrown, the value given is returned. -/
def catching (f : Exec σ α) (a : α) : Exec σ α := fun s =>
  match f s with
  | .ok b s' => .ok b s'
  | .error _ s' => .ok a s'

/-! ## Running the parts of a call -/

/-- A sequence runs its second part only when the first one returns. -/
theorem bind_apply (f : Exec σ α) (g : α → Exec σ β) (s : σ) :
    (f >>= g) s = match f s with
      | .ok a s' => g a s'
      | .error e s' => .error e s' := by
  show EStateM.bind f g s = _
  unfold EStateM.bind
  cases f s <;> rfl

/-- A function is applied to the result, if there is one. -/
theorem map_apply (g : α → β) (f : Exec σ α) (s : σ) :
    (g <$> f) s = match f s with
      | .ok a s' => .ok (g a) s'
      | .error e s' => .error e s' := by
  show EStateM.map g f s = _
  unfold EStateM.map
  cases f s <;> rfl

/-- Whatever the call throws, the state it leaves is kept. -/
theorem catching_apply (f : Exec σ α) (a : α) (s : σ) :
    catching f a s = match f s with
      | .ok b s' => .ok b s'
      | .error _ s' => .ok a s' := rfl

/-- A value is returned in the same state. -/
@[simp] theorem pure_apply (a : α) (s : σ) : (pure a : Exec σ α) s = .ok a s := rfl

/-- `get` returns the state and leaves it. -/
@[simp] theorem get_apply (s : σ) : (get : Exec σ σ) s = .ok s s := rfl

/-- `set` replaces the state. -/
@[simp] theorem set_apply (s t : σ) : (set t : Exec σ PUnit) s = .ok ⟨⟩ t := rfl

/-- `modify` applies a function to the state. -/
@[simp] theorem modify_apply (f : σ → σ) (s : σ) :
    (modify f : Exec σ PUnit) s = .ok ⟨⟩ (f s) := rfl

/-- An exception leaves the state as it is at the throw. -/
@[simp] theorem throw_apply (e : Exn) (s : σ) : (throw e : Exec σ α) s = .error e s := rfl

/-- A result of a function without state is returned. -/
@[simp] theorem ofExcept_ok (a : α) (s : σ) : ofExcept (.ok a) s = .ok a s := rfl

/-- An exception of a function without state is thrown on. -/
@[simp] theorem ofExcept_error (e : Exn) (s : σ) :
    ofExcept (.error e : Except Exn α) s = .error e s := rfl

/-! ## The state a call leaves -/

/-- The state behind a call that returns. -/
theorem finalState_of_ok {f : Exec σ α} {s s' : σ} {a : α} (h : f s = .ok a s') :
    finalState f s = s' := by
  unfold finalState
  rw [h]

/-- The state behind a call that throws. -/
theorem finalState_of_error {f : Exec σ α} {s s' : σ} {e : Exn} (h : f s = .error e s') :
    finalState f s = s' := by
  unfold finalState
  rw [h]

/-- Returning a value leaves the state. -/
@[simp] theorem finalState_pure (a : α) (s : σ) : finalState (pure a : Exec σ α) s = s := rfl

/-- A function without state leaves the state. -/
@[simp] theorem finalState_ofExcept (x : Except Exn α) (s : σ) :
    finalState (ofExcept x) s = s := by
  cases x <;> rfl

/-- A call that looks at the state first. -/
@[simp] theorem finalState_get_bind (g : σ → Exec σ β) (s : σ) :
    finalState (get >>= g) s = finalState (g s) s := rfl

/-- A call that replaces the state first. -/
@[simp] theorem finalState_set_bind (t : σ) (g : PUnit → Exec σ β) (s : σ) :
    finalState (set t >>= g) s = finalState (g ⟨⟩) t := rfl

/-- A call that changes the state first. -/
@[simp] theorem finalState_modify_bind (f : σ → σ) (g : PUnit → Exec σ β) (s : σ) :
    finalState (modify f >>= g) s = finalState (g ⟨⟩) (f s) := rfl

/-- The state behind a change. -/
@[simp] theorem finalState_modify (f : σ → σ) (s : σ) :
    finalState (modify f : Exec σ PUnit) s = f s := rfl

/-- A value without state, once computed, is handed on in the same state. -/
theorem finalState_ofExcept_bind (x : Except Exn α) (g : α → Exec σ β) (s : σ) :
    finalState (ofExcept x >>= g) s = match x with
      | .ok a => finalState (g a) s
      | .error _ => s := by
  cases x <;> rfl

/-- Sequencing: what a call leaves when the first part returns, and when it throws. -/
theorem finalState_bind (f : Exec σ α) (g : α → Exec σ β) (s : σ) :
    finalState (f >>= g) s = match f s with
      | .ok a s' => finalState (g a) s'
      | .error _ s' => s' := by
  unfold finalState
  rw [bind_apply]
  cases f s <;> rfl

/-- A call has a result if it returns it in its final state. -/
theorem result?_eq_some {f : Exec σ α} {s : σ} {a : α} :
    result? f s = some a ↔ f s = .ok a (finalState f s) := by
  unfold result? finalState
  cases f s <;> simp

/-- The result of a call that returns. -/
theorem result?_of_ok {f : Exec σ α} {s s' : σ} {a : α} (h : f s = .ok a s') :
    result? f s = some a := by
  unfold result?
  rw [h]

/-! ## How a call ends -/

/-- The call leaves the state `s'`, and returns exactly when `ok` holds. -/
def Ends (f : Exec σ α) (s : σ) (ok : Prop) (s' : σ) : Prop :=
  (ok ∧ ∃ a, f s = .ok a s') ∨ (¬ ok ∧ ∃ e, f s = .error e s')

namespace Ends

variable {f : Exec σ α} {s s' : σ} {ok : Prop}

/-- A call that ends in a state has it as its final state. -/
theorem finalState_eq (h : Ends f s ok s') : finalState f s = s' := by
  rcases h with ⟨-, a, h⟩ | ⟨-, e, h⟩
  · exact finalState_of_ok h
  · exact finalState_of_error h

/-- What follows a call runs in the state the call leaves, if it returns. -/
theorem bind (h : Ends f s ok s') {g : α → Exec σ β} {ok' : Prop} {s'' : σ}
    (hg : ∀ a, f s = .ok a s' → Ends (g a) s' ok' s'') (hthrow : ¬ ok → s' = s'') :
    Ends (f >>= g) s (ok ∧ ok') s'' := by
  rcases h with ⟨hok, a, h⟩ | ⟨hok, e, h⟩
  · rcases hg a h with ⟨hok', b, hb⟩ | ⟨hok', e, he⟩
    · exact Or.inl ⟨⟨hok, hok'⟩, b, by rw [bind_apply, h]; exact hb⟩
    · exact Or.inr ⟨fun hand => hok' hand.2, e, by rw [bind_apply, h]; exact he⟩
  · exact Or.inr ⟨fun hand => hok hand.1, e, by rw [bind_apply, h, ← hthrow hok]⟩

/-- Returning something else after a call changes nothing. -/
theorem bind_pure (h : Ends f s ok s') (g : α → β) :
    Ends (f >>= fun a => pure (g a)) s ok s' := by
  rcases h with ⟨hok, a, h⟩ | ⟨hok, e, h⟩
  · exact Or.inl ⟨hok, g a, by rw [bind_apply, h]; rfl⟩
  · exact Or.inr ⟨hok, e, by rw [bind_apply, h]⟩

end Ends

/-! ## What a call keeps -/

/-- Whatever holds before the call holds after it, whether it returns or throws. -/
def Keeps (I : σ → Prop) (f : Exec σ α) : Prop := ∀ s, I s → I (finalState f s)

namespace Keeps

variable {I : σ → Prop}

/-- A function without state keeps every invariant. -/
theorem of_ofExcept (x : Except Exn α) : Keeps I (ofExcept x) := by
  intro s hs
  rwa [finalState_ofExcept]

/-- Returning a value keeps every invariant. -/
theorem of_pure (a : α) : Keeps I (pure a) := fun _ hs => hs

/-- A change keeps what the function keeps. -/
theorem of_modify {f : σ → σ} (hf : ∀ s, I s → I (f s)) : Keeps I (modify f) := hf

/-- Two calls that keep an invariant keep it one after the other. -/
theorem bind {f : Exec σ α} {g : α → Exec σ β} (hf : Keeps I f) (hg : ∀ a, Keeps I (g a)) :
    Keeps I (f >>= g) := by
  intro s hs
  have hmid := hf s hs
  rw [finalState_bind]
  cases h : f s with
  | ok a s' =>
      rw [finalState_of_ok h] at hmid
      exact hg a s' hmid
  | error e s' =>
      rw [finalState_of_error h] at hmid
      exact hmid

/-- After a value without state, only what the value can be matters. -/
theorem ofExcept_bind {x : Except Exn α} {g : α → Exec σ β} (hg : ∀ a, Keeps I (g a)) :
    Keeps I (ofExcept x >>= g) := bind (of_ofExcept x) hg

/-- A change and a call that both keep the invariant. -/
theorem modify_bind {f : σ → σ} {g : PUnit → Exec σ β} (hf : ∀ s, I s → I (f s))
    (hg : ∀ a, Keeps I (g a)) : Keeps I (modify f >>= g) := bind (of_modify hf) hg

/-- A call on the state that is read keeps the invariant if it does so from that state. -/
theorem get_bind {g : σ → Exec σ β} (hg : ∀ s, I s → I (finalState (g s) s)) :
    Keeps I (get >>= g) := hg

/-- A loop keeps what its body keeps. -/
theorem forM {γ : Type} {body : γ → Exec σ PUnit} (hbody : ∀ c, Keeps I (body c)) (l : List γ) :
    Keeps I (l.forM body) := by
  induction l with
  | nil => exact of_pure _
  | cons c l ih => exact bind (hbody c) fun _ => ih

/-- A caught exception leaves the state of the throw, which meets the invariant as well. -/
theorem catching {f : Exec σ α} (hf : Keeps I f) (a : α) : Keeps I (Exec.catching f a) := by
  intro s hs
  have h := hf s hs
  unfold finalState at h ⊢
  unfold Exec.catching
  cases hrun : f s <;> rw [hrun] at h <;> exact h

/-- Local variables of a call are no part of the invariant. -/
theorem withLocal {τ : Type} {init : τ} {f : Exec (σ × τ) PUnit}
    (hf : Keeps (fun s => I s.1) f) : Keeps I (Exec.withLocal init f) := by
  intro s hs
  have h := hf (s, init) hs
  unfold finalState at h ⊢
  unfold Exec.withLocal
  cases hrun : f (s, init) <;> rw [hrun] at h <;> exact h

end Keeps

end Exec

end TronWallet.Model
