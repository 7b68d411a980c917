import Mathlib.Data.List.Induction

/-!
# Runs of a deterministic machine under a step condition

A machine is a function `next : S → A → S`.  `runFrom next s as` is the state after the
actions `as`, taken in order from `s`.  A step condition sees the actions already taken,
the state before the step and the action about to be taken; `EveryStep next G s as` says
that each step of the run meets it.

`observed next see s as` lists what an observer of the steps has seen.

One rule carries every result about runs, in three forms.  `EveryStep.invariant` turns a
step lemma into a statement about each state a run reaches, `EveryStep.invariant_from`
does the same for the part of a run that follows a given point, and
`EveryStep.invariant_along` for such a part in which only some actions are taken.
`EveryStep.congr_of_invariant` compares two conditions along a run.  An invariant may speak
about the actions taken so far as well as about the state, so that what a run has done needs
no field in the state.
-/

set_option autoImplicit false

namespace TronWallet.Lib

universe u v

variable {S : Type u} {A : Type v}

/-- The state after taking the actions `as` in order from `s`. -/
def runFrom (next : S → A → S) (s : S) (as : List A) : S := as.foldl next s

variable (next : S → A → S) (s : S)

/-- No action, no change. -/
@[simp] theorem runFrom_nil : runFrom next s [] = s := rfl

/-- The last action of a run is taken in the state the others lead to. -/
@[simp] theorem runFrom_concat (as : List A) (a : A) :
    runFrom next s (as ++ [a]) = next (runFrom next s as) a := by
  simp [runFrom]

/-- What a run from a state shows: what is seen of each step, in order. -/
def observed {O : Type*} (see : S → A → Option O) : S → List A → List O
  | _, [] => []
  | s, a :: as => (see s a).toList ++ observed see (next s a) as

/-- A run shows what it has shown before the last step, and what is seen of that. -/
@[simp] theorem observed_concat {O : Type*} (see : S → A → Option O) (as : List A) (a : A) :
    observed next see s (as ++ [a]) =
      observed next see s as ++ (see (runFrom next s as) a).toList := by
  induction as generalizing s with
  | nil => simp [observed]
  | cons b as ih =>
      rw [List.cons_append, observed, observed, ih, List.append_assoc]
      rfl

/-- What has been shown stays shown. -/
theorem mem_observed_concat {O : Type*} {see : S → A → Option O} {as : List A} {x : O} (a : A)
    (h : x ∈ observed next see s as) : x ∈ observed next see s (as ++ [a]) := by
  rw [observed_concat]
  exact List.mem_append_left _ h

/-- Every step of the run `as` from `s` meets the condition `G`, which is given the
actions before the step, the state before it and the action. -/
def EveryStep (G : List A → S → A → Prop) (as : List A) : Prop :=
  ∀ (before : List A) (a : A) (rest : List A), as = before ++ a :: rest →
    G before (runFrom next s before) a

namespace EveryStep

variable {next : S → A → S} {s : S} {G : List A → S → A → Prop}

/-- The empty run meets every condition. -/
theorem nil : EveryStep next s G [] := by
  intro before a rest h
  simp at h

/-- An initial part of a run meets the condition the whole run meets. -/
theorem of_append {as bs : List A} (h : EveryStep next s G (as ++ bs)) :
    EveryStep next s G as := by
  intro before a rest has
  refine h before a (rest ++ bs) ?_
  rw [has, List.append_assoc, List.cons_append]

/-- The step after an initial part of a run meets the condition. -/
theorem at_step {as bs : List A} {a : A} (h : EveryStep next s G (as ++ a :: bs)) :
    G as (runFrom next s as) a :=
  h as a bs rfl

/-- A run meets the condition when its steps do one after the other. -/
theorem concat {as : List A} {a : A} (h : EveryStep next s G as)
    (ha : G as (runFrom next s as) a) : EveryStep next s G (as ++ [a]) := by
  intro before b rest heq
  rcases List.eq_nil_or_concat rest with rfl | ⟨rest', c, rfl⟩
  · obtain ⟨rfl, hb⟩ := List.append_inj' heq rfl
    cases hb
    exact ha
  · rw [List.concat_eq_append, ← List.cons_append, ← List.append_assoc] at heq
    obtain ⟨rfl, -⟩ := List.append_inj' heq rfl
    exact h before b rest' rfl

/-- A condition that does not look back is met by a run when the first step meets it and the
rest of the run does. -/
theorem cons {Q : S → A → Prop} {a : A} {as : List A} (ha : Q s a)
    (h : EveryStep next (next s a) (fun _ => Q) as) : EveryStep next s (fun _ => Q) (a :: as) := by
  intro before b rest heq
  cases before with
  | nil =>
      obtain ⟨rfl, -⟩ := List.cons.inj heq
      exact ha
  | cons c before =>
      obtain ⟨rfl, hrest⟩ := List.cons.inj heq
      exact h before b rest hrest

/-- A stronger condition on the steps gives the weaker one. -/
theorem mono {G' : List A → S → A → Prop} {as : List A} (h : EveryStep next s G as)
    (hG : ∀ before st a, G before st a → G' before st a) : EveryStep next s G' as :=
  fun before a rest has => hG _ _ _ (h before a rest has)

/-- Two conditions met by every step are met together. -/
theorem and {G' : List A → S → A → Prop} {as : List A} (h : EveryStep next s G as)
    (h' : EveryStep next s G' as) :
    EveryStep next s (fun before st a => G before st a ∧ G' before st a) as :=
  fun before a rest has => ⟨h before a rest has, h' before a rest has⟩

/-- **The invariant rule along some actions**: what holds after `start` and is preserved by
each later step that meets the condition holds as long as only actions of a kind are
taken, if those are the ones that preserve it. -/
theorem invariant_along {I : List A → S → Prop} {Allowed : A → Prop} (start : List A)
    (hstart : I start (runFrom next s start))
    (hstep : ∀ done a, start <+: done → Allowed a → I done (runFrom next s done) →
      G done (runFrom next s done) a → I (done ++ [a]) (next (runFrom next s done) a)) :
    ∀ later, (∀ a ∈ later, Allowed a) → EveryStep next s G (start ++ later) →
      I (start ++ later) (runFrom next s (start ++ later)) := by
  intro later
  induction later using List.reverseRecOn with
  | nil =>
      intro _ _
      simpa using hstart
  | append_singleton later a ih =>
      intro hallowed h
      rw [← List.append_assoc] at h ⊢
      rw [runFrom_concat]
      refine hstep _ a (List.prefix_append start later) (hallowed a (by simp)) ?_ h.at_step
      exact ih (fun b hb => hallowed b (List.mem_append_left _ hb)) h.of_append

/-- **The invariant rule from a point on**: what holds after `start` and is preserved by
each later step that meets the condition holds at the end of every run that begins
with `start`. -/
theorem invariant_from {I : List A → S → Prop} (start : List A)
    (hstart : I start (runFrom next s start))
    (hstep : ∀ done a, start <+: done → I done (runFrom next s done) →
      G done (runFrom next s done) a → I (done ++ [a]) (next (runFrom next s done) a)) :
    ∀ later, EveryStep next s G (start ++ later) →
      I (start ++ later) (runFrom next s (start ++ later)) := fun later =>
  invariant_along start hstart
    (fun done a hprefix _ => hstep done a hprefix) later fun _ _ => trivial

/-- **The invariant rule**: what holds at the start and is preserved by each step that
meets the condition holds at the end of every run. -/
theorem invariant {I : List A → S → Prop} (hstart : I [] s)
    (hstep : ∀ done a, I done (runFrom next s done) →
      G done (runFrom next s done) a → I (done ++ [a]) (next (runFrom next s done) a))
    {as : List A} (h : EveryStep next s G as) : I as (runFrom next s as) := by
  have key := invariant_from (G := G) (I := I) [] hstart
    (fun done a _ hI hG => hstep done a hI hG) as
  simpa using key (by simpa using h)

/-- **Two conditions that an invariant makes equivalent are met by the same runs**, if each
step that meets them preserves the invariant. -/
theorem congr_of_invariant {G' : List A → S → A → Prop} {I : List A → S → Prop}
    (hstart : I [] s)
    (hstep : ∀ done a, I done (runFrom next s done) → G done (runFrom next s done) a →
      I (done ++ [a]) (next (runFrom next s done) a))
    (hiff : ∀ done a, I done (runFrom next s done) →
      (G done (runFrom next s done) a ↔ G' done (runFrom next s done) a))
    {as : List A} : EveryStep next s G as ↔ EveryStep next s G' as := by
  constructor
  · intro h before a rest has
    rw [has] at h
    exact (hiff before a (invariant hstart hstep h.of_append)).mp h.at_step
  · intro h before a rest has
    rw [has] at h
    refine (hiff before a ?_).mpr h.at_step
    exact invariant hstart (fun done a hI hG' => hstep done a hI ((hiff done a hI).mpr hG'))
      h.of_append

/-- Going through a run step by step, each step being tested. -/
def check (next : S → A → S) (G : List A → S → A → Prop) [∀ done s a, Decidable (G done s a)] :
    List A → S → List A → Bool
  | _, _, [] => true
  | done, s, a :: as => decide (G done s a) && check next G (done ++ [a]) (next s a) as

/-- A run that passes the test meets the condition. -/
theorem of_check [∀ done s a, Decidable (G done s a)] {as : List A}
    (h : check next G [] s as = true) : EveryStep next s G as := by
  have hgen : ∀ (as done : List A) (s : S), check next G done s as = true →
      ∀ before a rest, as = before ++ a :: rest → G (done ++ before) (runFrom next s before) a := by
    intro as
    induction as with
    | nil =>
        intro done s _ before a rest heq
        simp at heq
    | cons b as ih =>
        intro done s hcheck before a rest heq
        rw [check, Bool.and_eq_true, decide_eq_true_eq] at hcheck
        cases before with
        | nil =>
            obtain ⟨rfl, rfl⟩ := List.cons.inj heq
            simpa using hcheck.1
        | cons c before =>
            obtain ⟨rfl, hrest⟩ := List.cons.inj heq
            have hstep := ih (done ++ [b]) (next s b) hcheck.2 before a rest hrest
            rw [List.append_assoc] at hstep
            exact hstep
  intro before a rest heq
  simpa using hgen as [] s h before a rest heq

end EveryStep

end TronWallet.Lib
