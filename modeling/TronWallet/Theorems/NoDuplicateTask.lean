import TronWallet.Analysis.NetworkContexts
import TronWallet.Reference.NetworkRuns

/-!
# No two tasks of one type

A call posts a task only when it finds no context of its type in the pool.  An outstanding
request is in the pool from the moment its call registers it, with two exceptions:
`ReSetSub` may have cleared the pool since then, and the task itself removes its type after
each RPC, before it is finished.  `GuardedByPool` is the condition that no call comes to its
lookup in such a moment, and `Registered` the invariant that these are the only exceptions.
-/

set_option autoImplicit false

namespace TronWallet.Theorems

open TronWallet.Lib TronWallet.Model TronWallet.Analysis TronWallet.Reference

variable {Arg Reply : Type}

/-! ## The condition -/

/-- The contexts a step clears from the pool. -/
def clearing (s : NetworkThread Arg Reply) (a : NetworkAction Arg Reply) :
    Option (List Context) :=
  match a with
  | .worker => if ClearsPool s then some (s.requestContextPool_.pairs.map Prod.snd) else none
  | _ => none

/-- The contexts `ReSetSub` has cleared from the pool in a run. -/
def cleared (empty : Reply) (s : NetworkThread Arg Reply) (done : List (NetworkAction Arg Reply)) :
    List Context := (observed (NetworkThread.step empty) clearing s done).flatten

/-- When a call looks up its own type, no outstanding request of that type has had its
context cleared from the pool by `ReSetSub`, and no running task of that type has removed
itself. -/
def GuardedByPool (empty : Reply) (start : NetworkThread Arg Reply)
    (done : List (NetworkAction Arg Reply)) (s : NetworkThread Arg Reply) :
    NetworkAction Arg Reply → Prop
  | .ui =>
    match s.ui with
    | .canceled type _ _ =>
      (∀ r ∈ outstanding s, r.type = type → r.context ∉ cleared empty start done) ∧
        match s.worker with
        | .running r => r.request.type = type → ¬Released r.point
        | _ => True
    | _ => True
  | _ => True

instance (empty : Reply) (start : NetworkThread Arg Reply)
    (done : List (NetworkAction Arg Reply)) (s : NetworkThread Arg Reply)
    (a : NetworkAction Arg Reply) : Decidable (GuardedByPool empty start done s a) :=
  match a with
  | .ui => by
    unfold GuardedByPool
    exact match s.ui with
      | .canceled .. => @instDecidableAnd _ _ inferInstance
        (match s.worker with
          | .idle | .running _ | .reSetSub .. => inferInstance)
      | .idle | .differs .. | .readLast .. | .found .. | .missing .. | .registered ..
      | .marked .. => inferInstance
  | .call .. | .worker | .reSetSub .. | .account | .rpcEnd .. => by
    unfold GuardedByPool
    infer_instance

/-! ## The invariant -/

/-- The type of a call that has found no context of its own. -/
def uiType : Ui Arg → Option NetworkRequestType
  | .missing type .. => some type
  | .registered type .. => some type
  | .marked type .. => some type
  | _ => none

/-- A context is in the pool under a type, or has been cleared. -/
def InPool (wiped : List Context) (s : NetworkThread Arg Reply) (type : NetworkRequestType)
    (c : Context) : Prop :=
  s.requestContextPool_.lookup type = some c ∨ c ∈ wiped

/-- The types of the outstanding requests and of the call being made differ, and their
contexts are in the pool except where the condition says. -/
structure Registered (wiped : List Context) (s : NetworkThread Arg Reply) : Prop where
  nodup : ((outstanding s).map Request.type).Nodup
  fresh : ∀ type ∈ uiType s.ui, type ∉ (outstanding s).map Request.type
  queued : ∀ r ∈ s.queue.flatMap taskRequests, InPool wiped s r.type r.context
  running : ∀ r, s.worker = .running r → ¬Released r.point →
    InPool wiped s r.request.type r.context
  released : ∀ r, s.worker = .running r → Released r.point →
    s.requestContextPool_.lookup r.request.type = none
  ui : ∀ p ∈ uiContext s.ui, InPool wiped s p.1 p.2

/-- What has been cleared stays cleared. -/
theorem InPool.mono {wiped wiped' : List Context} {s : NetworkThread Arg Reply}
    {type : NetworkRequestType} {c : Context} (h : InPool wiped s type c)
    (hw : ∀ c ∈ wiped, c ∈ wiped') : InPool wiped' s type c := h.imp_right (hw c)

/-- More contexts may be wiped. -/
theorem Registered.mono {wiped wiped' : List Context} {s : NetworkThread Arg Reply}
    (h : Registered wiped s) (hw : ∀ c ∈ wiped, c ∈ wiped') : Registered wiped' s where
  nodup := h.nodup
  fresh := h.fresh
  queued r hr := (h.queued r hr).mono hw
  running r hr hpoint := (h.running r hr hpoint).mono hw
  released := h.released
  ui p hp := (h.ui p hp).mono hw

/-- Nobody has registered the type of a call that has found no context of its own. -/
theorem lookup_of_fresh {wiped : List Context} {s : NetworkThread Arg Reply}
    {type : NetworkRequestType} {arg : Arg} {other : Option Context} (ho : Owned s)
    (h : Registered wiped s) (hui : s.ui = .missing type arg other) :
    s.requestContextPool_.lookup type = none := by
  cases hpool : s.requestContextPool_.lookup type with
  | none => rfl
  | some c =>
      rcases ho.owner type c hpool with ⟨r, hr, htype, -⟩ | howner
      · exact absurd (List.mem_map.mpr ⟨r, hr, htype⟩) (h.fresh type (by rw [hui]; rfl))
      · rw [hui] at howner
        cases howner

/-- Registering a type that has no context puts the new one there. -/
theorem lookup_emplace_of_none {pool : UnorderedMap NetworkRequestType Context}
    {type : NetworkRequestType} {c : Context} (h : pool.lookup type = none) :
    (UnorderedMap.emplace pool type c).lookup type = some c := by
  rw [UnorderedMap.lookup_emplace, if_pos rfl, h, Option.getD_none]

/-- Registering a type leaves the contexts of other types alone. -/
theorem lookup_emplace_of_ne {pool : UnorderedMap NetworkRequestType Context}
    {type type' : NetworkRequestType} {c : Context} (h : type' ≠ type) :
    (UnorderedMap.emplace pool type c).lookup type' = pool.lookup type' := by
  rw [UnorderedMap.lookup_emplace, if_neg h]

/-- The type of a running task is that of an outstanding request. -/
theorem type_mem_of_running {s : NetworkThread Arg Reply} {r : Running Arg Reply}
    (h : s.worker = .running r) : r.request.type ∈ (outstanding s).map Request.type := by
  rw [outstanding_running h]
  exact List.mem_cons_self

/-- The type of a queued request is that of an outstanding one. -/
theorem type_mem_of_queued {s : NetworkThread Arg Reply} {r : Request Arg}
    (h : r ∈ s.queue.flatMap taskRequests) : r.type ∈ (outstanding s).map Request.type :=
  List.mem_map.mpr ⟨r, List.mem_append_right _ h, rfl⟩

/-- The types of queued requests differ from that of the running task. -/
theorem type_ne_of_queued {s : NetworkThread Arg Reply} {r : Running Arg Reply} {q : Request Arg}
    (hnodup : ((outstanding s).map Request.type).Nodup) (hr : s.worker = .running r)
    (hq : q ∈ s.queue.flatMap taskRequests) : q.type ≠ r.request.type := by
  rw [outstanding_running hr, List.map_cons, List.nodup_cons] at hnodup
  intro heq
  exact hnodup.1 (List.mem_map.mpr ⟨q, hq, heq⟩)

/-- The type a call has registered is not that of the running task. -/
theorem Registered.ui_ne {wiped : List Context} {s : NetworkThread Arg Reply}
    {r : Running Arg Reply} {p : NetworkRequestType × Context} (h : Registered wiped s)
    (hr : s.worker = .running r) (hp : p ∈ uiContext s.ui) : p.1 ≠ r.request.type := by
  intro heq
  have htype : p.1 ∈ uiType s.ui := by
    revert hp
    cases s.ui <;> rintro ⟨⟩ <;> rfl
  refine h.fresh p.1 htype ?_
  rw [heq]
  exact type_mem_of_running hr

/-- A step by which nothing of a state matters but the place of the call. -/
theorem Registered.of_ui {wiped : List Context} {s : NetworkThread Arg Reply} {ui : Ui Arg}
    (h : Registered wiped s) (htype : uiType ui = none) (hcontext : uiContext ui = none) :
    Registered wiped { s with ui } where
  nodup := h.nodup
  fresh type hmem := by
    rw [show uiType ui = none from htype] at hmem
    cases hmem
  queued := h.queued
  running := h.running
  released := h.released
  ui p hp := by
    rw [show uiContext ui = none from hcontext] at hp
    cases hp

/-- A step of the worker that changes neither the pool nor the requests. -/
theorem Registered.of_worker {wiped : List Context} {s : NetworkThread Arg Reply}
    (h : Registered wiped s) {r r' : Running Arg Reply} (hworker : s.worker = .running r)
    (hrequest : r'.request = r.request) (hcontext : r'.context = r.context)
    (hpoint : Released r'.point ↔ Released r.point) :
    Registered wiped { s with worker := .running r' } := by
  have hout : outstanding { s with worker := .running r' } = outstanding s := by
    rw [outstanding_running hworker, ← hrequest, ← hcontext]
    rfl
  refine ⟨?_, ?_, h.queued, fun x hx hreleased => ?_, fun x hx hreleased => ?_, h.ui⟩
  · rw [hout]
    exact h.nodup
  · rw [hout]
    exact h.fresh
  · cases hx
    rw [hrequest, hcontext]
    exact h.running r hworker fun hr => hreleased (hpoint.mpr hr)
  · cases hx
    rw [hrequest]
    exact h.released r hworker (hpoint.mp hreleased)

/-- A step of the task of a request that changes the pool under its own type alone. -/
theorem Registered.of_pool {wiped : List Context} {s s' : NetworkThread Arg Reply}
    (h : Registered wiped s) {r r' : Running Arg Reply} (hworker : s.worker = .running r)
    (hworker' : s'.worker = .running r') (hrequest : r'.request = r.request)
    (hqueue : s'.queue = s.queue) (hui : s'.ui = s.ui)
    (hpool : ∀ type ≠ r.request.type,
      s'.requestContextPool_.lookup type = s.requestContextPool_.lookup type)
    (hheld : ¬Released r'.point → InPool wiped s' r'.request.type r'.context)
    (hgone : Released r'.point → s'.requestContextPool_.lookup r'.request.type = none) :
    Registered wiped s' := by
  have htypes : (outstanding s').map Request.type = (outstanding s).map Request.type := by
    rw [outstanding_running hworker', outstanding_running hworker, hqueue, List.map_cons,
      List.map_cons, hrequest]
  have hkeep : ∀ type ≠ r.request.type, ∀ c, InPool wiped s type c → InPool wiped s' type c := by
    intro type hne c hc
    unfold InPool
    rw [hpool type hne]
    exact hc
  have hrunning : ∀ x, s'.worker = .running x → x = r' := fun x hx =>
    Worker.running.inj (hx.symm.trans hworker')
  refine ⟨?_, ?_, fun q hq => ?_, fun x hx hpoint => ?_, fun x hx hpoint => ?_, fun p hp => ?_⟩
  · rw [htypes]
    exact h.nodup
  · rw [htypes, hui]
    exact h.fresh
  · rw [hqueue] at hq
    exact hkeep _ (type_ne_of_queued h.nodup hworker hq) _ (h.queued q hq)
  · obtain rfl := hrunning x hx
    exact hheld hpoint
  · obtain rfl := hrunning x hx
    exact hgone hpoint
  · rw [hui] at hp
    exact hkeep _ (h.ui_ne hworker hp) _ (h.ui p hp)

/-- A task that is not that of a request leaves the requests of the queue. -/
theorem Registered.of_queue {wiped : List Context} {s s' : NetworkThread Arg Reply}
    (h : Registered wiped s) (hworker : workerRequests s.worker = [])
    (hworker' : workerRequests s'.worker = [])
    (hqueue : s'.queue.flatMap taskRequests = s.queue.flatMap taskRequests)
    (hui : s'.ui = s.ui)
    (hpool : ∀ type c, InPool wiped s type c → InPool wiped s' type c) :
    Registered wiped s' := by
  have hout : outstanding s' = outstanding s := by
    rw [outstanding_queue hworker', outstanding_queue hworker, hqueue]
  have hnone : ∀ x, s'.worker ≠ .running x := by
    intro x hx
    rw [hx] at hworker'
    cases hworker'
  refine ⟨?_, ?_, ?_, fun x hx => absurd hx (hnone x), fun x hx => absurd hx (hnone x), ?_⟩
  · rw [hout]
    exact h.nodup
  · rw [hout, hui]
    exact h.fresh
  · rw [hqueue]
    exact fun r hr => hpool _ _ (h.queued r hr)
  · rw [hui]
    exact fun p hp => hpool _ _ (h.ui p hp)

/-- A lookup that finds nothing, where the condition is met, tells that no request of the
type is outstanding. -/
theorem not_mem_of_guarded {wiped : List Context} {s : NetworkThread Arg Reply}
    {type : NetworkRequestType} (h : Registered wiped s)
    (hpool : s.requestContextPool_.lookup type = none)
    (hwiped : ∀ r ∈ outstanding s, r.type = type → r.context ∉ wiped)
    (hreleased : ∀ r, s.worker = .running r → r.request.type = type → ¬Released r.point) :
    type ∉ (outstanding s).map Request.type := by
  intro hmem
  obtain ⟨r, hr, htype⟩ := List.mem_map.mp hmem
  have hnot : ∀ c, InPool wiped s type c → c ∈ wiped := by
    rintro c (hc | hc)
    · rw [hpool] at hc
      cases hc
    · exact hc
  rcases List.mem_append.mp hr with hr' | hr'
  · cases hworker : s.worker with
    | running x =>
        rw [hworker] at hr'
        rw [List.mem_singleton.mp hr'] at hr htype
        have hin := h.running x hworker (hreleased x hworker htype)
        rw [show x.request.type = type from htype] at hin
        exact hwiped _ hr htype (hnot _ hin)
    | _ =>
        rw [hworker] at hr'
        cases hr'
  · have hin := h.queued r hr'
    rw [htype] at hin
    exact hwiped r hr htype (hnot _ hin)

/-- A step that meets the condition keeps the invariant; `wiped'` adds what the step
clears. -/
theorem registered_moves {empty : Reply} {wiped wiped' : List Context}
    {s s' : NetworkThread Arg Reply} {a : NetworkAction Arg Reply} (hmoves : Moves empty s a s')
    (ho : Owned s) (hold : Registered wiped s) (hw : ∀ c ∈ wiped, c ∈ wiped')
    (hclear : ClearsPool s → a = .worker →
      ∀ type c, s.requestContextPool_.lookup type = some c → c ∈ wiped')
    (hG : ∀ type arg other, a = .ui → s.ui = .canceled type arg other →
      (∀ r ∈ outstanding s, r.type = type → r.context ∉ wiped) ∧
        ∀ r, s.worker = .running r → r.request.type = type → ¬Released r.point) :
    Registered wiped' s' := by
  have h := hold.mono hw
  cases hmoves with
  | stays => exact h
  | calls => exact h.of_ui rfl rfl
  | reads => exact h.of_ui rfl rfl
  | looksUp => exact h.of_ui rfl rfl
  | cancels =>
      exact ⟨h.nodup, fun t ht => (by cases ht), h.queued, h.running, h.released,
        fun p hp => (by cases hp)⟩
  | spares => exact h.of_ui rfl rfl
  | returns => exact h.of_ui rfl rfl
  | misses type arg other hui hpool =>
      obtain ⟨hwiped, hreleased⟩ := hG type arg other rfl hui
      refine ⟨h.nodup, fun t ht => ?_, h.queued, h.running, h.released,
        fun p hp => (by cases hp)⟩
      cases ht
      exact not_mem_of_guarded (s := s) hold hpool hwiped hreleased
  | registers type arg other hui =>
      have hnone := lookup_of_fresh ho h hui
      have hne : ∀ t ∈ (outstanding s).map Request.type, t ≠ type := by
        intro t ht heq
        rw [heq] at ht
        exact h.fresh type (by rw [hui]; rfl) ht
      have hkeep : ∀ t ∈ (outstanding s).map Request.type, ∀ c, InPool wiped' s t c →
          InPool wiped' { s with
            requestContextPool_ := UnorderedMap.emplace s.requestContextPool_ type s.contexts
            contexts := s.contexts + 1
            ui := .registered type arg other s.contexts } t c := by
        intro t ht c hc
        unfold InPool
        rw [lookup_emplace_of_ne (hne t ht)]
        exact hc
      refine ⟨h.nodup, fun t ht => ?_, fun r hr => ?_, fun r hr hpoint => ?_,
        fun r hr hpoint => ?_, fun p hp => ?_⟩
      · cases ht
        exact h.fresh type (by rw [hui]; rfl)
      · exact hkeep _ (type_mem_of_queued hr) _ (h.queued r hr)
      · exact hkeep _ (type_mem_of_running (s := s) hr) _ (h.running r hr hpoint)
      · show (UnorderedMap.emplace _ _ _).lookup _ = none
        rw [lookup_emplace_of_ne (hne _ (type_mem_of_running (s := s) hr))]
        exact h.released r hr hpoint
      · cases hp
        exact Or.inl (lookup_emplace_of_none hnone)
  | marks type arg other context hui =>
      refine ⟨h.nodup, fun t ht => ?_, h.queued, h.running, h.released, fun p hp => ?_⟩
      · exact h.fresh t (by rw [hui]; exact ht)
      · exact h.ui p (by rw [hui]; exact hp)
  | posts type arg other context hui =>
      have hfresh := h.fresh type (by rw [hui]; rfl)
      refine ⟨?_, fun t ht => (by cases ht), fun r hr => ?_, h.running, h.released,
        fun p hp => (by cases hp)⟩
      · rw [outstanding_posts, List.map_append]
        refine List.nodup_append'.mpr ⟨h.nodup, List.nodup_singleton _, ?_⟩
        intro t ht ht'
        rw [List.mem_singleton.mp ht'] at ht
        exact hfresh ht
      · rw [List.flatMap_append, List.mem_append] at hr
        rcases hr with hr | hr
        · exact h.queued r hr
        · rw [List.mem_singleton.mp hr]
          exact h.ui (type, context) (by rw [hui]; rfl)
  | postsOther _ task ha htask hui =>
      have hout : outstanding { s with queue := s.queue ++ [task] } = outstanding s := by
        rw [outstanding_posts s task s.ui, htask, List.append_nil]
      refine ⟨by rw [hout]; exact h.nodup, by rw [hout]; exact h.fresh, fun r hr => ?_, h.running,
        h.released, h.ui⟩
      rw [List.flatMap_append, List.flatMap_singleton, htask, List.append_nil] at hr
      exact h.queued r hr
  | takes r queue hworker hqueue =>
      have hout := outstanding_take hworker hqueue
      have hqueued : ∀ q ∈ r :: queue.flatMap taskRequests, InPool wiped' s q.type q.context := by
        intro q hq
        refine h.queued q ?_
        rw [hqueue]
        exact hq
      refine ⟨?_, ?_, fun q hq => hqueued q (List.mem_cons_of_mem _ hq), fun x hx _ => ?_,
        fun x hx hpoint => ?_, h.ui⟩
      · have hnodup := h.nodup
        rw [hout] at hnodup
        exact hnodup
      · have hfresh := h.fresh
        rw [hout] at hfresh
        exact hfresh
      · cases hx
        exact hqueued r List.mem_cons_self
      · cases hx
        exact hpoint.elim
  | takesOther task queue worker hworker hqueue htask hrequests =>
      refine h.of_queue (by rw [hworker]; rfl) hrequests ?_ rfl fun _ _ hp => hp
      rw [hqueue, List.flatMap_cons, htask, List.nil_append]
  | starts r point hworker hpoint =>
      refine h.of_worker hworker rfl rfl ?_
      have hafter := not_released_beforeRpc hpoint
      refine ⟨fun hr => absurd hr hafter, fun hr => ?_⟩
      cases hp : r.point <;> rw [hp] at hr hpoint <;> first | exact hr.elim | cases hpoint
  | ends r cancelled point status retValue hworker hpoint hstatus =>
      refine h.of_worker hworker rfl rfl ?_
      have hafter := not_released_afterRpc hpoint
      refine ⟨fun hr => absurd hr hafter, fun hr => ?_⟩
      cases hp : r.point <;> rw [hp] at hr hpoint <;> first | exact hr.elim | cases hpoint
  | unregisters r point hworker hpoint =>
      refine h.of_pool hworker rfl rfl rfl rfl (fun type hne => ?_)
        (fun hheld => (hheld (released_afterEnd hpoint)).elim) (fun _ => ?_)
      · rw [UnorderedMap.lookup_erase_eq, if_neg hne]
      · rw [UnorderedMap.lookup_erase_eq, if_pos rfl]
  | renews r hworker hpoint hstatus =>
      have hnone := h.released r hworker (by rw [hpoint]; trivial)
      refine h.of_pool hworker rfl rfl rfl rfl (fun type hne => lookup_emplace_of_ne hne)
        (fun _ => Or.inl (lookup_emplace_of_none hnone)) (fun hgone => hgone.elim)
  | invokes r hworker hnext =>
      refine h.of_worker hworker rfl rfl ⟨fun _ => ?_, fun _ => trivial⟩
      rcases hnext with ⟨hpoint, -⟩ | hpoint <;> rw [hpoint] <;> trivial
  | finishes r hworker hpoint =>
      have hout := outstanding_running hworker
      refine ⟨?_, fun t ht => ?_, h.queued, fun x hx => (by cases hx), fun x hx => (by cases hx),
        h.ui⟩
      · have hnodup := h.nodup
        rw [hout] at hnodup
        exact (List.nodup_cons.mp hnodup).2
      · have hfresh := h.fresh t ht
        rw [hout, List.map_cons, List.mem_cons, not_or] at hfresh
        exact hfresh.2
  | resets full solidity stub solidity_stub extension_stub worker hreset hworker hrequests =>
      exact h.of_queue hworker hrequests rfl rfl fun _ _ hp => hp
  | cancelsPool worker hnext hworker hrequests =>
      exact h.of_queue hworker hrequests rfl rfl fun _ _ hp => hp
  | clearsPool worker hnext hworker hrequests =>
      refine h.of_queue hworker hrequests rfl rfl fun type c hp => Or.inr ?_
      rcases hp with hp | hp
      · exact hclear hnext rfl type c hp
      · exact hp

/-! ## Runs -/

/-- What a run has cleared, and what its next step clears. -/
theorem cleared_concat (empty : Reply) (start : NetworkThread Arg Reply)
    (done : List (NetworkAction Arg Reply)) (a : NetworkAction Arg Reply) :
    cleared empty start (done ++ [a]) = cleared empty start done ++
      (clearing (runFrom (NetworkThread.step empty) start done) a).toList.flatten := by
  unfold cleared
  rw [observed_concat, List.flatten_append]

/-- A step that meets the condition keeps the invariant. -/
theorem registered_step (empty : Reply) {start : NetworkThread Arg Reply}
    {done : List (NetworkAction Arg Reply)} {a : NetworkAction Arg Reply}
    (ho : Owned (runFrom (NetworkThread.step empty) start done))
    (h : Registered (cleared empty start done) (runFrom (NetworkThread.step empty) start done))
    (hG : GuardedByPool empty start done (runFrom (NetworkThread.step empty) start done) a) :
    Registered (cleared empty start (done ++ [a]))
      ((runFrom (NetworkThread.step empty) start done).step empty a) := by
  generalize hs : runFrom (NetworkThread.step empty) start done = s at ho h hG ⊢
  rw [cleared_concat, hs]
  refine registered_moves (moves_step empty s a) ho h (fun c hc => List.mem_append_left _ hc) ?_ ?_
  · intro hclears ha type c hc
    refine List.mem_append_right _ ?_
    rw [ha]
    unfold clearing
    rw [if_pos hclears]
    simp only [Option.toList_some, List.flatten_cons, List.flatten_nil, List.append_nil]
    exact List.mem_map.mpr ⟨(type, c), UnorderedMap.mem_pairs.mpr hc, rfl⟩
  · intro type arg other ha hui
    subst ha
    simp only [GuardedByPool, hui] at hG
    refine ⟨hG.1, fun r hr => ?_⟩
    have hreleased := hG.2
    rw [hr] at hreleased
    exact hreleased

/-- In every run whose steps meet the condition, the outstanding requests are of different
types. -/
theorem noDuplicate_run (empty : Reply) (full solidity : Bytes)
    (as : List (NetworkAction Arg Reply))
    (h : EveryStep (NetworkThread.step empty) (NetworkThread.start full solidity)
      (GuardedByPool empty (NetworkThread.start full solidity)) as) :
    ((outstanding (runFrom (NetworkThread.step empty) (NetworkThread.start full solidity) as)).map
      Request.type).Nodup := by
  have hstart : Registered [] (NetworkThread.start full solidity : NetworkThread Arg Reply) :=
    { nodup := List.nodup_nil
      fresh := fun _ h => (by cases h)
      queued := fun _ h => (by cases h)
      running := fun _ h => (by cases h)
      released := fun _ h => (by cases h)
      ui := fun _ h => (by cases h) }
  have hinv := EveryStep.invariant
    (I := fun done s => Bounded s ∧ Owned s ∧
      Registered (cleared empty (NetworkThread.start full solidity) done) s)
    ⟨bounded_start full solidity, owned_start full solidity, hstart⟩
    (fun done a ⟨hb, ho, hr⟩ hG => ⟨bounded_step empty a hb, owned_step empty a hb ho,
      registered_step empty ho hr hG⟩) h
  exact hinv.2.2.nodup

/-- An endpoint is changed while no request is outstanding; later a broadcast is made
again and superseded, and after it has completed there is another one. -/
def guardedCalls : List NumberAction :=
  [.reSetSub [3] []] ++ resetting ++ requesting .Request_BroadcastTransaction 5 ++
    answering .UNAVAILABLE 0 ++ [.worker, .worker, .worker] ++
    requesting .Request_ListWitnesses 6 ++ [.rpcEnd .OK 1] ++ completing ++
    requesting .Request_BroadcastTransaction 7

/-- In that run the outstanding requests are of different types. -/
theorem noDuplicate_guarded :
    ((outstanding (runFrom (NetworkThread.step 0) quietThread guardedCalls)).map
      Request.type).Nodup :=
  noDuplicate_run 0 [1] [2] guardedCalls (EveryStep.of_check (by decide))

/-- A broadcast that is about to be made again has removed its type from the pool; after a
call for something else a second broadcast is posted beside it. -/
theorem two_broadcasts :
    ¬((outstanding (runFrom (NetworkThread.step 0) quietThread
      (requesting .Request_BroadcastTransaction 5 ++ answering .UNAVAILABLE 0 ++ [.worker] ++
        requesting .Request_ListWitnesses 6 ++
        requesting .Request_BroadcastTransaction 7))).map Request.type).Nodup := by
  decide

end TronWallet.Theorems
