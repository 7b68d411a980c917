import TronWallet.Analysis.NetworkContexts
import TronWallet.Reference.NetworkRuns

/-!
# The newest request and its own cancellation

A call cancels the context registered for the type called before.  It registers a context
of its own only when its type has none; when an older request of the same type is still in
the pool, cancelled by the call in between, the new call cancels the one in between and
then returns without posting anything.  Calls of types A, B and A leave nothing but
cancelled requests.

`KeepsNewest` says when that does not happen.  Each context of the pool belongs to an
outstanding request or to the call being made (`Owned`), so that a context found there and
not cancelled is that of a live request.
-/

set_option autoImplicit false

namespace TronWallet.Theorems

open TronWallet.Lib TronWallet.Model TronWallet.Analysis TronWallet.Reference

variable {Arg Reply : Type}

/-! ## The property -/

/-- The call that returns with a step: its type and the context it has cancelled. -/
def returning (s : NetworkThread Arg Reply) :
    NetworkAction Arg Reply → Option (NetworkRequestType × Option Context)
  | .ui =>
    match s.ui with
    | .canceled type _ other =>
      (s.requestContextPool_.lookup type).map fun _ => (type, other)
    | .marked type _ other _ => some (type, other)
    | _ => none
  | _ => none

/-- A call that has cancelled another request leaves a live request of its type. -/
def NewestKept (empty : Reply) (s : NetworkThread Arg Reply) (a : NetworkAction Arg Reply) :
    Prop :=
  ∀ type other, returning s a = some (type, some other) →
    ∃ r ∈ live (s.step empty a), r.type = type

/-! ## The condition -/

/-- A call that has cancelled another request does not find a cancelled context of its own
type, and `ReSetSub` does not cancel the pool while a call has a context in it that it has
not posted yet. -/
def KeepsNewest (_ : List (NetworkAction Arg Reply)) (s : NetworkThread Arg Reply) :
    NetworkAction Arg Reply → Prop
  | .ui =>
    match s.ui with
    | .canceled type _ (some _) =>
      ∀ context ∈ s.requestContextPool_.lookup type, context ∉ s.cancelled
    | _ => True
  | .worker =>
    CancelsPool s → ∀ p ∈ uiContext s.ui, p.2 ∉ s.requestContextPool_.pairs.map Prod.snd
  | _ => True

instance (done : List (NetworkAction Arg Reply)) (s : NetworkThread Arg Reply)
    (a : NetworkAction Arg Reply) : Decidable (KeepsNewest done s a) := by
  unfold KeepsNewest
  split
  · split <;> infer_instance
  · infer_instance
  · infer_instance

/-! ## Runs -/

/-- The context a call has registered has not been cancelled. -/
def Uncancelled (s : NetworkThread Arg Reply) : Prop :=
  ∀ p ∈ uiContext s.ui, p.2 ∉ s.cancelled

/-- Under the condition nothing cancels the context of a call before it is posted. -/
theorem uncancelled_step (empty : Reply) {done : List (NetworkAction Arg Reply)}
    {s : NetworkThread Arg Reply} {a : NetworkAction Arg Reply} (hb : Bounded s)
    (hu : Uncancelled s) (hG : KeepsNewest done s a) : Uncancelled (s.step empty a) := by
  have hmoves := moves_step empty s a
  generalize s.step empty a = s' at hmoves ⊢
  cases hmoves with
  | registers type arg other hui =>
      intro p hp hc
      cases hp
      exact Nat.lt_irrefl _ (hb.cancelled _ hc)
  | marks type arg other context hui =>
      intro p hp
      exact hu p (by rw [hui]; exact hp)
  | cancelsPool worker hnext hworker hrequests =>
      intro p hp hc
      rcases List.mem_append.mp hc with hc | hc
      · exact hG hnext p hp hc
      · exact hu p hp hc
  | calls => exact fun p hp => by cases hp
  | reads => exact fun p hp => by cases hp
  | looksUp => exact fun p hp => by cases hp
  | cancels => exact fun p hp => by cases hp
  | spares => exact fun p hp => by cases hp
  | returns => exact fun p hp => by cases hp
  | misses => exact fun p hp => by cases hp
  | posts => exact fun p hp => by cases hp
  | _ => exact hu

/-- What holds in every state of a run that meets the condition. -/
structure NewestInvariant (s : NetworkThread Arg Reply) : Prop where
  bounded : Bounded s
  owned : Owned s
  uncancelled : Uncancelled s

/-- A thread that has just been made knows of no context. -/
theorem newestInvariant_start (full solidity : Bytes) :
    NewestInvariant (NetworkThread.start full solidity : NetworkThread Arg Reply) where
  bounded := bounded_start full solidity
  owned := owned_start full solidity
  uncancelled := fun _ h => by cases h

/-- A step that meets the condition keeps the newest request. -/
theorem newestKept_step (empty : Reply) {done : List (NetworkAction Arg Reply)}
    {s : NetworkThread Arg Reply} {a : NetworkAction Arg Reply} (h : NewestInvariant s)
    (hG : KeepsNewest done s a) : NewestKept empty s a := by
  intro type other hreturning
  cases a with
  | ui =>
      unfold returning at hreturning
      unfold NetworkThread.step NetworkThread.uiStep
      cases hui : s.ui with
      | canceled type' arg other' =>
          simp only [hui] at hreturning ⊢
          cases hpool : s.requestContextPool_.lookup type' with
          | none =>
              rw [hpool] at hreturning
              cases hreturning
          | some context =>
              rw [hpool] at hreturning
              cases hreturning
              simp only [KeepsNewest, hui] at hG
              simp only [NetworkThread.getRequestContext, hpool]
              rcases h.owned.owner type context hpool with ⟨r, hr, htype, hcontext⟩ | howner
              · refine ⟨r, mem_live.mpr ⟨hr, ?_⟩, htype⟩
                rw [hcontext]
                exact hG context hpool
              · rw [hui] at howner
                cases howner
      | marked type' arg other' context =>
          simp only [hui] at hreturning ⊢
          cases hreturning
          have huncancelled := h.uncancelled (type, context) (by rw [hui]; rfl)
          refine ⟨⟨type, arg, context⟩, mem_live.mpr ⟨?_, huncancelled⟩, rfl⟩
          rw [outstanding_posts]
          exact List.mem_append_right _ (List.mem_singleton_self _)
      | _ =>
          rw [hui] at hreturning
          cases hreturning
  | _ => cases hreturning

/-- In every run whose steps meet the condition, a call that cancels another request leaves
a live request of its type. -/
theorem newestKept_run (empty : Reply) (full solidity : Bytes)
    (as : List (NetworkAction Arg Reply))
    (h : EveryStep (NetworkThread.step empty) (NetworkThread.start full solidity) KeepsNewest as) :
    EveryStep (NetworkThread.step empty) (NetworkThread.start full solidity)
      (fun _ s a => NewestKept empty s a) as := by
  intro before a rest has
  subst has
  have hinv : NewestInvariant
      (runFrom (NetworkThread.step empty) (NetworkThread.start full solidity) before) := by
    refine EveryStep.invariant (I := fun _ s => NewestInvariant s)
      (newestInvariant_start full solidity) ?_ h.of_append
    intro done a hI hG
    exact ⟨bounded_step empty a hI.bounded, owned_step empty a hI.bounded hI.owned,
      uncancelled_step empty hI.bounded hI.uncancelled hG⟩
  exact newestKept_step empty hinv h.at_step

/-- A call for a transaction supersedes one for an account, which is answered as cancelled;
then a call for the account supersedes that for the transaction. -/
def supersedingCalls : List NumberAction :=
  requesting .Request_GetAccount 5 ++ requesting .Request_CreateTransaction 6 ++
    answering .CANCELLED 0 ++ completing ++ requesting .Request_ListWitnesses 7 ++
    requesting .Request_GetAccount 8

/-- In that run every call that cancels another request is kept. -/
theorem newestKept_superseding :
    EveryStep (NetworkThread.step 0) quietThread (fun _ s a => NewestKept 0 s a)
      supersedingCalls :=
  newestKept_run 0 [1] [2] supersedingCalls (EveryStep.of_check (by decide))

/-- The second call for an account cancels the outstanding request for a transaction and
posts nothing, the first one being cancelled and still in the pool: no request is live. -/
theorem newest_request_lost :
    let s := runFrom (NetworkThread.step 0) quietThread
      (requesting .Request_GetAccount 5 ++ requesting .Request_CreateTransaction 6 ++
        [.call .Request_GetAccount 7, .ui, .ui, .ui])
    returning s .ui = some (.Request_GetAccount, some 1) ∧
      (∃ r ∈ outstanding s, r.type = .Request_CreateTransaction ∧ r.context = 1) ∧
      ¬NewestKept 0 s .ui := by
  refine ⟨by decide, ⟨⟨.Request_CreateTransaction, 6, 1⟩, by decide, rfl, rfl⟩, ?_⟩
  intro h
  have hlive : live ((runFrom (NetworkThread.step 0) quietThread
      (requesting .Request_GetAccount 5 ++ requesting .Request_CreateTransaction 6 ++
        [.call .Request_GetAccount 7, .ui, .ui, .ui])).step 0 .ui) = [] := by decide
  obtain ⟨r, hr, -⟩ := h .Request_GetAccount 1 (by decide)
  rw [hlive] at hr
  cases hr

end TronWallet.Theorems
