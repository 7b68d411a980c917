import TronWallet.Analysis.NetworkSteps

/-!
# Contexts

Contexts are numbered in the order they are made, and a state knows of none that has not
been made (`Bounded`).  The pool holds contexts of outstanding requests and of the call
being made, under their types (`Owned`).  A task that has removed its type from the pool
does not have its present context there, because every later registration is of a new one.
-/

set_option autoImplicit false

namespace TronWallet.Analysis

open TronWallet.Lib TronWallet.Model

variable {Arg Reply : Type}

/-- The type and the context a call has registered and not posted yet. -/
def uiContext : Ui Arg → Option (NetworkRequestType × Context)
  | .registered type _ _ context => some (type, context)
  | .marked type _ _ context => some (type, context)
  | _ => none

/-- The contexts a call holds that it has looked up or registered. -/
def uiContexts : Ui Arg → List Context
  | .found _ _ other => other.toList
  | .registered _ _ _ context => [context]
  | .marked _ _ _ context => [context]
  | _ => []

/-! ## Contexts that have been made -/

/-- Every context a state knows of has been made. -/
structure Bounded (s : NetworkThread Arg Reply) : Prop where
  pool : ∀ type c, s.requestContextPool_.lookup type = some c → c < s.contexts
  cancelled : ∀ c ∈ s.cancelled, c < s.contexts
  outstanding : ∀ r ∈ outstanding s, r.context < s.contexts
  ui : ∀ c ∈ uiContexts s.ui, c < s.contexts

/-- The pool after a registration holds the new context or what it held before. -/
theorem lookup_register {pool : UnorderedMap NetworkRequestType Context}
    {type type' : NetworkRequestType} {c c' : Context}
    (h : (UnorderedMap.emplace pool type c).lookup type' = some c') :
    (type' = type ∧ c' = c) ∨ pool.lookup type' = some c' := by
  rw [UnorderedMap.lookup_emplace] at h
  by_cases htype : type' = type
  · rw [if_pos htype] at h
    cases hpool : pool.lookup type with
    | none =>
        rw [hpool, Option.getD_none] at h
        exact Or.inl ⟨htype, (Option.some.inj h).symm⟩
    | some d =>
        rw [hpool, Option.getD_some] at h
        exact Or.inr (by rw [htype, hpool, h])
  · rw [if_neg htype] at h
    exact Or.inr h

/-- The pool after a removal holds what it held before for another type. -/
theorem lookup_unregister {pool : UnorderedMap NetworkRequestType Context}
    {type type' : NetworkRequestType} {c : Context}
    (h : (pool.erase type).lookup type' = some c) :
    type' ≠ type ∧ pool.lookup type' = some c := by
  rw [UnorderedMap.lookup_erase_eq] at h
  by_cases htype : type' = type
  · rw [if_pos htype] at h
    cases h
  · rw [if_neg htype] at h
    exact ⟨htype, h⟩

/-- A task of a request that keeps its context knows of no other. -/
theorem Bounded.of_running {s : NetworkThread Arg Reply} (hb : Bounded s)
    {r r' : Running Arg Reply} (hworker : s.worker = .running r) (hrequest : r'.request = r.request)
    (hcontext : r'.context = r.context) : Bounded { s with worker := .running r' } := by
  refine ⟨hb.pool, hb.cancelled, fun r'' hr => hb.outstanding r'' ?_, hb.ui⟩
  rw [outstanding_running hworker, ← hrequest, ← hcontext]
  exact hr

/-- Contexts stay below the next one. -/
theorem bounded_step (empty : Reply) {s : NetworkThread Arg Reply}
    (a : NetworkAction Arg Reply) (hb : Bounded s) : Bounded (s.step empty a) := by
  have hmoves := moves_step empty s a
  generalize s.step empty a = s' at hmoves ⊢
  cases hmoves with
  | stays => exact hb
  | calls => exact ⟨hb.pool, hb.cancelled, hb.outstanding, by simp [uiContexts]⟩
  | reads => exact ⟨hb.pool, hb.cancelled, hb.outstanding, by simp [uiContexts]⟩
  | looksUp type arg last hui =>
      refine ⟨hb.pool, hb.cancelled, hb.outstanding, fun c hc => hb.pool last c ?_⟩
      simpa [uiContexts] using hc
  | cancels type arg context hui =>
      refine ⟨hb.pool, fun c hc => ?_, hb.outstanding, by simp [uiContexts]⟩
      rcases List.mem_cons.mp hc with rfl | hc
      · exact hb.ui c (by rw [hui]; simp [uiContexts])
      · exact hb.cancelled c hc
  | spares => exact ⟨hb.pool, hb.cancelled, hb.outstanding, by simp [uiContexts]⟩
  | returns => exact ⟨hb.pool, hb.cancelled, hb.outstanding, by simp [uiContexts]⟩
  | misses => exact ⟨hb.pool, hb.cancelled, hb.outstanding, by simp [uiContexts]⟩
  | registers type arg other hui =>
      refine ⟨fun t c hc => ?_, fun c hc => Nat.lt_succ_of_lt (hb.cancelled c hc),
        fun r hr => Nat.lt_succ_of_lt (hb.outstanding r hr), by simp [uiContexts]⟩
      rcases lookup_register hc with ⟨-, rfl⟩ | hc
      · exact Nat.lt_succ_self _
      · exact Nat.lt_succ_of_lt (hb.pool t c hc)
  | marks type arg other context hui =>
      exact ⟨hb.pool, hb.cancelled, hb.outstanding, fun c hc => hb.ui c (by rw [hui]; exact hc)⟩
  | posts type arg other context hui =>
      refine ⟨hb.pool, hb.cancelled, fun r hr => ?_, by simp [uiContexts]⟩
      rw [outstanding_posts] at hr
      rcases List.mem_append.mp hr with hr | hr
      · exact hb.outstanding r hr
      · rw [List.mem_singleton.mp hr]
        exact hb.ui context (by rw [hui]; exact List.mem_singleton_self _)
  | postsOther _ task ha htask hui =>
      refine ⟨hb.pool, hb.cancelled, fun r hr => hb.outstanding r ?_, hb.ui⟩
      rwa [outstanding_posts s task s.ui, htask, List.append_nil] at hr
  | takes r queue hworker hqueue =>
      refine ⟨hb.pool, hb.cancelled, fun r' hr' => hb.outstanding r' ?_, hb.ui⟩
      rw [outstanding_take hworker hqueue]
      exact hr'
  | takesOther task queue worker hworker hqueue htask hrequests =>
      refine ⟨hb.pool, hb.cancelled, fun r hr => hb.outstanding r ?_, hb.ui⟩
      rw [outstanding_queue hrequests] at hr
      rwa [outstanding_takeOther hworker hqueue htask]
  | starts r point hworker hpoint =>
      exact hb.of_running hworker rfl rfl
  | ends r cancelled point status retValue hworker hpoint hstatus =>
      exact hb.of_running hworker rfl rfl
  | unregisters r point hworker hpoint =>
      refine ⟨fun t c hc => hb.pool t c (lookup_unregister hc).2, hb.cancelled,
        fun r' hr' => hb.outstanding r' ?_, hb.ui⟩
      rw [outstanding_running hworker]
      exact hr'
  | renews r hworker hpoint hstatus =>
      refine ⟨fun t c hc => ?_, fun c hc => Nat.lt_succ_of_lt (hb.cancelled c hc),
        fun r' hr' => ?_, fun c hc => Nat.lt_succ_of_lt (hb.ui c hc)⟩
      · rcases lookup_register hc with ⟨-, rfl⟩ | hc
        · exact Nat.lt_succ_self _
        · exact Nat.lt_succ_of_lt (hb.pool t c hc)
      · rcases List.mem_cons.mp hr' with rfl | hr'
        · exact Nat.lt_succ_self _
        · refine Nat.lt_succ_of_lt (hb.outstanding r' ?_)
          rw [outstanding_running hworker]
          exact List.mem_cons_of_mem _ hr'
  | invokes r hworker hnext =>
      exact hb.of_running hworker rfl rfl
  | finishes r hworker hpoint =>
      refine ⟨hb.pool, hb.cancelled, fun r' hr' => hb.outstanding r' ?_, hb.ui⟩
      rw [outstanding_running hworker]
      exact List.mem_cons_of_mem _ hr'
  | resets full solidity stub solidity_stub extension_stub worker hreset hworker hrequests =>
      refine ⟨hb.pool, hb.cancelled, fun r hr => hb.outstanding r ?_, hb.ui⟩
      rw [outstanding_queue hrequests] at hr
      rwa [outstanding_queue hworker]
  | cancelsPool worker hnext hworker hrequests =>
      refine ⟨hb.pool, fun c hc => ?_, fun r hr => hb.outstanding r ?_, hb.ui⟩
      · rcases List.mem_append.mp hc with hc | hc
        · obtain ⟨p, hp, rfl⟩ := List.mem_map.mp hc
          exact hb.pool p.1 p.2 (UnorderedMap.mem_pairs.mp hp)
        · exact hb.cancelled c hc
      · rw [outstanding_queue hrequests] at hr
        rwa [outstanding_queue hworker]
  | clearsPool worker hnext hworker hrequests =>
      refine ⟨fun t c hc => ?_, hb.cancelled, fun r hr => hb.outstanding r ?_, hb.ui⟩
      · simp at hc
      · rw [outstanding_queue hrequests] at hr
        rwa [outstanding_queue hworker]

/-! ## Owners -/

/-- Whether the task has removed its type from the pool and not registered it again. -/
def Released : Point → Prop
  | .unregistered => True
  | .unregisteredAgain => True
  | .invoked => True
  | _ => False

instance (point : Point) : Decidable (Released point) := by
  cases point <;> unfold Released <;> infer_instance

/-- An RPC that starts has not been followed by a removal. -/
theorem not_released_beforeRpc {cancelled : Bool} {p q : Point}
    (h : beforeRpc cancelled p = some q) : ¬Released q := by
  cases p <;> cases h <;> exact id

/-- An RPC that has ended has not been followed by a removal. -/
theorem not_released_afterRpc {p q : Point} {cancelled : Bool}
    (h : afterRpc p = some (cancelled, q)) : ¬Released q := by
  cases p <;> cases h <;> exact id

/-- A removal is a removal. -/
theorem released_afterEnd {p q : Point} (h : afterEnd p = some q) : Released q := by
  cases p <;> cases h <;> trivial

/-- A context of the pool is that of an outstanding request or of the call being made, and
the task that has removed its type does not have its context there. -/
structure Owned (s : NetworkThread Arg Reply) : Prop where
  owner : ∀ type c, s.requestContextPool_.lookup type = some c →
    (∃ r ∈ outstanding s, r.type = type ∧ r.context = c) ∨ uiContext s.ui = some (type, c)
  released : ∀ r, s.worker = .running r → Released r.point →
    s.requestContextPool_.lookup r.request.type ≠ some r.context

/-- A step of a call that has registered no context keeps every owner when it touches neither
the pool nor the tasks. -/
theorem Owned.of_ui {s s' : NetworkThread Arg Reply} (ho : Owned s)
    (hui : uiContext s.ui = none) (hpool : s'.requestContextPool_ = s.requestContextPool_)
    (hqueue : s'.queue = s.queue) (hworker : s'.worker = s.worker) : Owned s' := by
  have houtstanding : outstanding s' = outstanding s := by
    unfold outstanding
    rw [hqueue, hworker]
  refine ⟨fun t c hc => ?_, fun r hr hreleased => ?_⟩
  · rw [hpool] at hc
    rw [houtstanding]
    exact (ho.owner t c hc).imp_right fun h => by rw [hui] at h; cases h
  · rw [hworker] at hr
    rw [hpool]
    exact ho.released r hr hreleased

/-- A task of a request that keeps its context, and has removed its type only if it had
before, keeps every owner. -/
theorem Owned.of_running {s : NetworkThread Arg Reply} (ho : Owned s) {r r' : Running Arg Reply}
    (hworker : s.worker = .running r) (hrequest : r'.request = r.request)
    (hcontext : r'.context = r.context) (hreleased : Released r'.point → Released r.point) :
    Owned { s with worker := .running r' } := by
  refine ⟨fun t c hc => ?_, fun r'' hr' hpoint => ?_⟩
  · have howner := ho.owner t c hc
    rw [outstanding_running hworker, ← hrequest, ← hcontext] at howner
    exact howner
  · cases hr'
    rw [hrequest, hcontext]
    exact ho.released r hworker (hreleased hpoint)

/-- While the worker runs no request, neither before the step nor after it, the queue alone
says which requests are outstanding. -/
theorem Owned.of_queue {s s' : NetworkThread Arg Reply} (ho : Owned s)
    (hpool : s'.requestContextPool_ = s.requestContextPool_) (hqueue : s'.queue = s.queue)
    (hui : s'.ui = s.ui) (hworker : workerRequests s.worker = [])
    (hrequests : workerRequests s'.worker = []) : Owned s' := by
  refine ⟨fun t c hc => ?_, fun r hr => ?_⟩
  · rw [hpool] at hc
    have howner := ho.owner t c hc
    rw [outstanding_queue hworker] at howner
    rw [outstanding_queue hrequests, hqueue, hui]
    exact howner
  · exact absurd hr (ne_running_of_workerRequests hrequests r)

/-- The contexts of the pool keep their owners. -/
theorem owned_step (empty : Reply) {s : NetworkThread Arg Reply}
    (a : NetworkAction Arg Reply) (hb : Bounded s) (ho : Owned s) : Owned (s.step empty a) := by
  have hmoves := moves_step empty s a
  generalize s.step empty a = s' at hmoves ⊢
  cases hmoves with
  | stays => exact ho
  | calls type arg hui hlast =>
      exact ho.of_ui (by rw [hui]; rfl) rfl rfl rfl
  | reads type arg hui =>
      exact ho.of_ui (by rw [hui]; rfl) rfl rfl rfl
  | looksUp type arg last hui =>
      exact ho.of_ui (by rw [hui]; rfl) rfl rfl rfl
  | cancels type arg context hui =>
      exact ho.of_ui (by rw [hui]; rfl) rfl rfl rfl
  | spares type arg hui =>
      exact ho.of_ui (by rw [hui]; rfl) rfl rfl rfl
  | returns type arg other context hui hpool =>
      exact ho.of_ui (by rw [hui]; rfl) rfl rfl rfl
  | misses type arg other hui hpool =>
      exact ho.of_ui (by rw [hui]; rfl) rfl rfl rfl
  | registers type arg other hui =>
      refine ⟨fun t c hc => ?_, fun r hr hpoint hc => ?_⟩
      · rcases lookup_register hc with ⟨rfl, rfl⟩ | hc
        · exact Or.inr rfl
        · refine Or.inl ((ho.owner t c hc).resolve_right fun h => ?_)
          rw [hui] at h
          cases h
      · rcases lookup_register hc with ⟨-, heq⟩ | hc
        · have hlt : r.context < s.contexts := by
            refine hb.outstanding { r.request with context := r.context } ?_
            rw [outstanding_running (s := s) hr]
            exact List.mem_cons_self
          exact (Nat.ne_of_lt hlt) heq
        · exact ho.released r hr hpoint hc
  | marks type arg other context hui =>
      refine ⟨fun t c hc => (ho.owner t c hc).imp_right fun h => ?_, ho.released⟩
      rw [hui] at h
      exact h
  | posts type arg other context hui =>
      refine ⟨fun t c hc => Or.inl ?_, ho.released⟩
      rw [outstanding_posts]
      rcases ho.owner t c hc with ⟨r, hr, htype⟩ | h
      · exact ⟨r, List.mem_append_left _ hr, htype⟩
      · rw [hui] at h
        cases h
        exact ⟨⟨type, arg, context⟩, List.mem_append_right _ (List.mem_singleton_self _), rfl, rfl⟩
  | postsOther _ task ha htask hui =>
      refine ⟨fun t c hc => ?_, ho.released⟩
      rw [outstanding_posts s task s.ui, htask, List.append_nil]
      exact ho.owner t c hc
  | takes r queue hworker hqueue =>
      refine ⟨fun t c hc => ?_, fun r' hr' hpoint => ?_⟩
      · have howner := ho.owner t c hc
        rw [outstanding_take hworker hqueue] at howner
        exact howner
      · cases hr'
        exact hpoint.elim
  | takesOther task queue worker hworker hqueue htask hrequests =>
      refine ⟨fun t c hc => ?_, fun r' hr' => ?_⟩
      · have howner := ho.owner t c hc
        rw [outstanding_takeOther hworker hqueue htask] at howner
        rw [outstanding_queue hrequests]
        exact howner
      · exact absurd hr' (ne_running_of_workerRequests hrequests r')
  | starts r point hworker hpoint =>
      exact ho.of_running hworker rfl rfl fun h => (not_released_beforeRpc hpoint h).elim
  | ends r cancelled point status retValue hworker hpoint hstatus =>
      exact ho.of_running hworker rfl rfl fun h => (not_released_afterRpc hpoint h).elim
  | unregisters r point hworker hpoint =>
      refine ⟨fun t c hc => ?_, fun r' hr' _ hc => ?_⟩
      · have howner := ho.owner t c (lookup_unregister hc).2
        rw [outstanding_running hworker] at howner
        exact howner
      · cases hr'
        exact (lookup_unregister hc).1 rfl
  | renews r hworker hpoint hstatus =>
      refine ⟨fun t c hc => ?_, fun r' hr' hreleased => ?_⟩
      · rcases lookup_register hc with ⟨rfl, rfl⟩ | hc
        · exact Or.inl ⟨_, List.mem_cons_self, rfl, rfl⟩
        · refine (ho.owner t c hc).imp_left ?_
          rintro ⟨r', hr', htype, hcontext⟩
          rw [outstanding_running hworker] at hr'
          rcases List.mem_cons.mp hr' with rfl | hr'
          · -- the old context is not in the pool any more
            refine absurd hc ?_
            rw [← htype, ← hcontext]
            exact ho.released r hworker (by rw [hpoint]; trivial)
          · exact ⟨r', List.mem_cons_of_mem _ hr', htype, hcontext⟩
      · cases hr'
        exact hreleased.elim
  | invokes r hworker hnext =>
      refine ho.of_running hworker rfl rfl fun _ => ?_
      rcases hnext with ⟨hpoint, -⟩ | hpoint <;> rw [hpoint] <;> trivial
  | finishes r hworker hpoint =>
      refine ⟨fun t c hc => ?_, fun r' hr' => by cases hr'⟩
      refine (ho.owner t c hc).imp_left ?_
      rintro ⟨r', hr', htype, hcontext⟩
      rw [outstanding_running hworker] at hr'
      rcases List.mem_cons.mp hr' with rfl | hr'
      · refine absurd hc ?_
        rw [← htype, ← hcontext]
        exact ho.released r hworker (by rw [hpoint]; trivial)
      · exact ⟨r', hr', htype, hcontext⟩
  | resets full solidity stub solidity_stub extension_stub worker hreset hworker hrequests =>
      exact ho.of_queue rfl rfl rfl hworker hrequests
  | cancelsPool worker hnext hworker hrequests =>
      exact ho.of_queue rfl rfl rfl hworker hrequests
  | clearsPool worker hnext hworker hrequests =>
      refine ⟨fun t c hc => ?_, fun r' hr' => ?_⟩
      · simp at hc
      · exact absurd hr' (ne_running_of_workerRequests hrequests r')

/-- A thread that has just been made knows of no context. -/
theorem bounded_start (full solidity : Bytes) :
    Bounded (NetworkThread.start full solidity : NetworkThread Arg Reply) where
  pool _ _ h := by cases h
  cancelled _ h := by cases h
  outstanding _ h := by cases h
  ui _ h := by cases h

/-- At the start no context is owned twice. -/
theorem owned_start (full solidity : Bytes) :
    Owned (NetworkThread.start full solidity : NetworkThread Arg Reply) where
  owner _ _ h := by cases h
  released _ h := by cases h

end TronWallet.Analysis
