import TronWallet.Analysis.NetworkContexts
import TronWallet.Reference.NetworkRuns

/-!
# Replies and what callbacks receive

The task of a request tests the status of its RPC for UNAVAILABLE alone.  Whatever the
status is in the end, the callback gets the message, which then is the empty one or what an
RPC that failed has left in it.

All messages of a run are genuine, whatever the worker still does after it, if and only if
every RPC ends well (`genuine_iff`): with OK or, where it is the first one of its task, with
UNAVAILABLE, after which a second one is made.  `Journal` relates the attempts and callbacks of
a run to the place of the running task; a task whose last RPC has ended with another status is
two steps from its callback at most.
-/

set_option autoImplicit false

namespace TronWallet.Theorems

open TronWallet.Lib TronWallet.Model TronWallet.Analysis TronWallet.Reference

variable {Arg Reply : Type}

/-! ## Attempts and callbacks -/

/-- An RPC that has ended, or a callback that has been invoked. -/
inductive NetworkEvent (Arg Reply : Type) where
  | attempt (request : Request Arg) (status : StatusCode) (retValue : Reply)
  | callback (request : Request Arg) (retValue : Reply)
deriving DecidableEq

/-- The request an event is about. -/
def NetworkEvent.request : NetworkEvent Arg Reply → Request Arg
  | .attempt request .. => request
  | .callback request _ => request

/-- The event of a step. -/
def networkEvent (s : NetworkThread Arg Reply) :
    NetworkAction Arg Reply → Option (NetworkEvent Arg Reply)
  | .rpcEnd status retValue =>
    match s.worker with
    | .running r =>
      match afterRpc r.point with
      | some (cancelled, _) =>
        if cancelled = true ∧ status ≠ .CANCELLED then none
        else some (.attempt r.request status retValue)
      | none => none
    | _ => none
  | .worker =>
    match s.worker with
    | .running r => if Invokes r then some (.callback r.request r.retValue) else none
    | _ => none
  | _ => none

/-- The events of a run. -/
def networkEvents (empty : Reply) (s : NetworkThread Arg Reply)
    (as : List (NetworkAction Arg Reply)) : List (NetworkEvent Arg Reply) :=
  observed (NetworkThread.step empty) networkEvent s as

/-- Every callback has received the message of an RPC of its request that ended with OK. -/
def Genuine (events : List (NetworkEvent Arg Reply)) : Prop :=
  ∀ r m, NetworkEvent.callback r m ∈ events → NetworkEvent.attempt r .OK m ∈ events

/-! ## The invariant -/

/-- The contexts of requests no task has been taken for. -/
def waiting (s : NetworkThread Arg Reply) : List Context :=
  (s.queue.flatMap taskRequests).map Request.context ++ (uiContext s.ui).toList.map Prod.snd

/-- Whether an RPC of the task has ended and no other one has been begun. -/
def Over : Point → Prop
  | .ended => True
  | .unregistered => True
  | .endedAgain => True
  | .unregisteredAgain => True
  | .invoked => True
  | _ => False

/-- What the running task has to do with the events about its request. -/
structure Recorded (events : List (NetworkEvent Arg Reply)) (r : Running Arg Reply) : Prop where
  callback : ∀ m, NetworkEvent.callback r.request m ∈ events → r.point = .invoked
  attempt : ∀ m, NetworkEvent.attempt r.request .OK m ∈ events →
    Over r.point ∧ r.status = .OK ∧ r.retValue = m
  ended : Over r.point → NetworkEvent.attempt r.request r.status r.retValue ∈ events

/-- What the events of a run have to do with the state it has reached. -/
structure Journal (events : List (NetworkEvent Arg Reply)) (s : NetworkThread Arg Reply) :
    Prop where
  nodup : (waiting s).Nodup
  waits : ∀ c ∈ waiting s, c < s.contexts
  past : ∀ e ∈ events, e.request.context < s.contexts ∧ e.request.context ∉ waiting s
  taken : ∀ r, s.worker = .running r →
    r.request.context < s.contexts ∧ r.request.context ∉ waiting s
  recorded : ∀ r, s.worker = .running r → Recorded events r

/-- A step that neither records an event nor changes what waits. -/
theorem Journal.of_eq {events : List (NetworkEvent Arg Reply)} {s s' : NetworkThread Arg Reply}
    (h : Journal events s) (hwaiting : waiting s' = waiting s)
    (hcontexts : s'.contexts = s.contexts)
    (hworker : ∀ r', s'.worker = .running r' → ∃ r, s.worker = .running r ∧
      r'.request = r.request ∧ (Recorded events r → Recorded events r')) : Journal events s' where
  nodup := by
    rw [hwaiting]
    exact h.nodup
  waits := by
    rw [hwaiting, hcontexts]
    exact h.waits
  past := by
    rw [hwaiting, hcontexts]
    exact h.past
  taken := by
    rw [hwaiting, hcontexts]
    intro r' hr'
    obtain ⟨r, hr, hrequest, -⟩ := hworker r' hr'
    rw [hrequest]
    exact h.taken r hr
  recorded r' hr' := by
    obtain ⟨r, hr, -, himp⟩ := hworker r' hr'
    exact himp (h.recorded r hr)

/-- The running task stays as it is. -/
theorem same_worker {events : List (NetworkEvent Arg Reply)} {s s' : NetworkThread Arg Reply}
    (h : s'.worker = s.worker) : ∀ r', s'.worker = .running r' → ∃ r, s.worker = .running r ∧
      r'.request = r.request ∧ (Recorded events r → Recorded events r') :=
  fun r' hr' => ⟨r', h ▸ hr', rfl, id⟩

/-- The task of a request goes on. -/
theorem next_point {events : List (NetworkEvent Arg Reply)} {s s' : NetworkThread Arg Reply}
    {r r₁ : Running Arg Reply} (hworker : s.worker = .running r)
    (hworker' : s'.worker = .running r₁)
    (hrequest : r₁.request = r.request) (hrecorded : Recorded events r → Recorded events r₁) :
    ∀ r', s'.worker = .running r' → ∃ r, s.worker = .running r ∧
      r'.request = r.request ∧ (Recorded events r → Recorded events r') := by
  intro r' hr'
  rw [hworker'] at hr'
  cases hr'
  exact ⟨r, hworker, hrequest, hrecorded⟩

/-- No request is being worked on. -/
theorem no_request {events : List (NetworkEvent Arg Reply)} {s s' : NetworkThread Arg Reply}
    (h : workerRequests s'.worker = []) : ∀ r', s'.worker = .running r' →
      ∃ r, s.worker = .running r ∧ r'.request = r.request ∧
        (Recorded events r → Recorded events r') := by
  intro r' hr'
  rw [hr'] at h
  cases h

/-- Before an RPC ends there is nothing on record about the request. -/
theorem Recorded.none_of_not_over {events : List (NetworkEvent Arg Reply)} {r : Running Arg Reply}
    (h : Recorded events r) (hpoint : ¬Over r.point) :
    (∀ m, NetworkEvent.callback r.request m ∉ events) ∧
      ∀ m, NetworkEvent.attempt r.request .OK m ∉ events := by
  refine ⟨fun m hm => ?_, fun m hm => hpoint (h.attempt m hm).1⟩
  rw [h.callback m hm] at hpoint
  exact hpoint trivial

/-- An RPC ends, and no other one will be made. -/
theorem Recorded.ends {events : List (NetworkEvent Arg Reply)} {r : Running Arg Reply}
    (h : Recorded events r) (hpoint : ¬Over r.point) {point : Point} (hover : Over point)
    (status : StatusCode) (retValue : Reply) :
    Recorded (events ++ [.attempt r.request status retValue])
      { r with retValue, status, point } := by
  obtain ⟨hcallback, hattempt⟩ := h.none_of_not_over hpoint
  refine ⟨fun m hm => ?_, fun m hm => ?_, fun _ =>
    List.mem_append_right _ (List.mem_singleton_self _)⟩
  · rcases List.mem_append.mp hm with hm | hm
    · exact absurd hm (hcallback m)
    · cases List.mem_singleton.mp hm
  · rcases List.mem_append.mp hm with hm | hm
    · exact absurd hm (hattempt m)
    · cases List.mem_singleton.mp hm
      exact ⟨hover, rfl, rfl⟩

/-- A task whose callback comes next has had its last RPC. -/
theorem Over.of_invokes {r : Running Arg Reply} (h : Invokes r) : Over r.point := by
  rcases h with ⟨hpoint, -⟩ | hpoint
  · rw [hpoint]
    trivial
  · rw [hpoint]
    trivial

/-- The callback is invoked. -/
theorem Recorded.invokes {events : List (NetworkEvent Arg Reply)} {r : Running Arg Reply}
    (h : Recorded events r) (hnext : Invokes r) :
    Recorded (events ++ [.callback r.request r.retValue]) { r with point := .invoked } := by
  refine ⟨fun _ _ => rfl, fun m hm => ?_, fun _ =>
    List.mem_append_left _ (h.ended (Over.of_invokes hnext))⟩
  rcases List.mem_append.mp hm with hm | hm
  · exact ⟨trivial, (h.attempt m hm).2⟩
  · cases List.mem_singleton.mp hm

/-- What waits is what is queued, unless a call has registered a context. -/
theorem waiting_of_ui {s : NetworkThread Arg Reply} (h : uiContext s.ui = none) :
    waiting s = (s.queue.flatMap taskRequests).map Request.context := by
  rw [waiting, h]
  exact List.append_nil _

/-! ## What a step does to the invariant -/

/-- A step of the UI thread that registers nothing and posts nothing. -/
theorem Journal.of_ui {events : List (NetworkEvent Arg Reply)} {s s' : NetworkThread Arg Reply}
    (h : Journal events s) (hui : uiContext s.ui = none) (hui' : uiContext s'.ui = none)
    (hqueue : s'.queue = s.queue) (hcontexts : s'.contexts = s.contexts)
    (hworker : s'.worker = s.worker) : Journal events s' := by
  refine h.of_eq ?_ hcontexts (same_worker hworker)
  rw [waiting_of_ui hui', waiting_of_ui hui, hqueue]

/-- A new context waits. -/
theorem Journal.registers {events : List (NetworkEvent Arg Reply)}
    {s s' : NetworkThread Arg Reply} (h : Journal events s)
    (hwaiting : waiting s' = waiting s ++ [s.contexts])
    (hcontexts : s'.contexts = s.contexts + 1) (hworker : s'.worker = s.worker) :
    Journal events s' := by
  have hlater : ∀ c, c < s.contexts ∧ c ∉ waiting s →
      c < s'.contexts ∧ c ∉ waiting s' := by
    rintro c ⟨hlt, hnot⟩
    rw [hwaiting, hcontexts]
    refine ⟨Nat.lt_succ_of_lt hlt, fun hc => ?_⟩
    rcases List.mem_append.mp hc with hc | hc
    · exact hnot hc
    · rw [List.mem_singleton.mp hc] at hlt
      exact Nat.lt_irrefl _ hlt
  refine ⟨?_, fun c hc => ?_, fun e he => hlater _ (h.past e he),
    fun r hr => hlater _ (h.taken r (hworker ▸ hr)), fun r hr => h.recorded r (hworker ▸ hr)⟩
  · rw [hwaiting]
    refine List.nodup_append'.mpr ⟨h.nodup, List.nodup_singleton _, fun c hc hc' => ?_⟩
    rw [List.mem_singleton.mp hc'] at hc
    exact Nat.lt_irrefl _ (h.waits _ hc)
  · rw [hwaiting] at hc
    rw [hcontexts]
    rcases List.mem_append.mp hc with hc | hc
    · exact Nat.lt_succ_of_lt (h.waits c hc)
    · rw [List.mem_singleton.mp hc]
      exact Nat.lt_succ_self _

/-- The context that has waited longest is taken: nothing is on record about its request. -/
theorem Journal.takes {events : List (NetworkEvent Arg Reply)} {s s' : NetworkThread Arg Reply}
    (h : Journal events s) {r : Running Arg Reply} (hpoint : ¬Over r.point)
    (hwaiting : waiting s = r.request.context :: waiting s')
    (hcontexts : s'.contexts = s.contexts) (hworker : s'.worker = .running r) :
    Journal events s' := by
  have hnodup := h.nodup
  rw [hwaiting, List.nodup_cons] at hnodup
  have hmem : r.request.context ∈ waiting s := by
    rw [hwaiting]
    exact List.mem_cons_self
  have hrunning : ∀ x, s'.worker = .running x → x = r := fun x hx =>
    Worker.running.inj (hx.symm.trans hworker)
  refine ⟨hnodup.2, fun c hc => ?_, fun e he => ?_, fun x hx => ?_, fun x hx => ?_⟩
  · rw [hcontexts]
    apply h.waits
    rw [hwaiting]
    exact List.mem_cons_of_mem _ hc
  · obtain ⟨hlt, hnot⟩ := h.past e he
    rw [hwaiting, List.mem_cons, not_or] at hnot
    exact ⟨hcontexts ▸ hlt, hnot.2⟩
  · obtain rfl := hrunning x hx
    exact ⟨hcontexts ▸ h.waits _ hmem, hnodup.1⟩
  · obtain rfl := hrunning x hx
    exact ⟨fun m hm => absurd hmem (h.past _ hm).2, fun m hm => absurd hmem (h.past _ hm).2,
      fun hover => absurd hover hpoint⟩

/-- An event about the request of the running task is recorded. -/
theorem Journal.records {events : List (NetworkEvent Arg Reply)} {s s' : NetworkThread Arg Reply}
    (h : Journal events s) {r r' : Running Arg Reply} {e : NetworkEvent Arg Reply}
    (hwaiting : waiting s' = waiting s) (hcontexts : s'.contexts = s.contexts)
    (hworker : s.worker = .running r) (hworker' : s'.worker = .running r')
    (hrequest : r'.request = r.request) (he : e.request = r.request)
    (hrecorded : Recorded (events ++ [e]) r') : Journal (events ++ [e]) s' := by
  have hrunning : ∀ x, s'.worker = .running x → x = r' := fun x hx =>
    Worker.running.inj (hx.symm.trans hworker')
  have htaken := h.taken r hworker
  rw [← hwaiting, ← hcontexts] at htaken
  refine ⟨?_, ?_, fun e' he' => ?_, fun x hx => ?_, fun x hx => ?_⟩
  · rw [hwaiting]
    exact h.nodup
  · rw [hwaiting, hcontexts]
    exact h.waits
  · rcases List.mem_append.mp he' with he' | he'
    · rw [hwaiting, hcontexts]
      exact h.past e' he'
    · rw [List.mem_singleton.mp he', he]
      exact htaken
  · rw [hrunning x hx, hrequest]
    exact htaken
  · rw [hrunning x hx]
    exact hrecorded

/-! ## Steps -/

/-- A step with an event changes the state. -/
theorem step_ne_of_event (empty : Reply) {s : NetworkThread Arg Reply}
    {a : NetworkAction Arg Reply} {e : NetworkEvent Arg Reply} (h : networkEvent s a = some e) :
    s.step empty a ≠ s := by
  intro hsame
  have hworker := congrArg NetworkThread.worker hsame
  cases a with
  | rpcEnd status retValue =>
      unfold networkEvent at h
      unfold NetworkThread.step NetworkThread.rpcEnds at hworker
      cases hw : s.worker with
      | running r =>
          cases hpoint : r.point with
          | rpc cancelled =>
              simp only [hw, hpoint, afterRpc] at h hworker
              by_cases hc : cancelled = true ∧ status ≠ .CANCELLED
              · rw [if_pos hc] at h
                cases h
              · rw [if_neg hc] at hworker
                have := congrArg Running.point (Worker.running.inj hworker)
                rw [hpoint] at this
                cases this
          | rpcAgain cancelled =>
              simp only [hw, hpoint, afterRpc] at h hworker
              by_cases hc : cancelled = true ∧ status ≠ .CANCELLED
              · rw [if_pos hc] at h
                cases h
              · rw [if_neg hc] at hworker
                have := congrArg Running.point (Worker.running.inj hworker)
                rw [hpoint] at this
                cases this
          | _ =>
              simp only [hw, hpoint, afterRpc] at h
              cases h
      | _ =>
          simp only [hw] at h
          cases h
  | worker =>
      unfold networkEvent at h
      unfold NetworkThread.step NetworkThread.workerStep at hworker
      cases hw : s.worker with
      | running r =>
          simp only [hw] at h hworker
          by_cases hnext : Invokes r
          · unfold NetworkThread.requestStep at hworker
            rcases hnext with ⟨hpoint, hstatus⟩ | hpoint
            · simp only [hpoint, if_neg hstatus] at hworker
              have := congrArg Running.point (Worker.running.inj hworker)
              rw [hpoint] at this
              cases this
            · simp only [hpoint] at hworker
              have := congrArg Running.point (Worker.running.inj hworker)
              rw [hpoint] at this
              cases this
          · rw [if_neg hnext] at h
            cases h
      | _ =>
          simp only [hw] at h
          cases h
  | _ => cases h

/-- The worker records nothing unless it invokes the callback. -/
theorem networkEvent_worker_none {s : NetworkThread Arg Reply}
    (h : ∀ r, s.worker = .running r → ¬Invokes r) :
    networkEvent s .worker = none := by
  unfold networkEvent
  cases hw : s.worker with
  | running r =>
      simp only
      rw [if_neg (h r hw)]
  | _ => rfl

/-- The task of a request records nothing unless it invokes the callback. -/
theorem networkEvent_worker_of_running {s : NetworkThread Arg Reply} {r : Running Arg Reply}
    (hworker : s.worker = .running r) (h : ¬Invokes r) : networkEvent s .worker = none := by
  apply networkEvent_worker_none
  intro x hx
  obtain rfl := Worker.running.inj (hworker.symm.trans hx)
  exact h

/-- Without a request nothing is recorded. -/
theorem networkEvent_worker_of_none {s : NetworkThread Arg Reply}
    (h : workerRequests s.worker = []) : networkEvent s .worker = none := by
  apply networkEvent_worker_none
  intro x hx
  rw [hx] at h
  cases h

/-- A step records its event and keeps the invariant. -/
theorem journal_step (empty : Reply) {events : List (NetworkEvent Arg Reply)}
    {s : NetworkThread Arg Reply} (a : NetworkAction Arg Reply) (h : Journal events s) :
    Journal (events ++ (networkEvent s a).toList) (s.step empty a) := by
  have hmoves := moves_step empty s a
  have hevent : ∀ e, networkEvent s a = some e → s.step empty a ≠ s := fun _ =>
    step_ne_of_event empty
  generalize s.step empty a = s' at hmoves hevent ⊢
  have hquiet : networkEvent s a = none → Journal events s' →
      Journal (events ++ (networkEvent s a).toList) s' := by
    intro hnone hj
    rw [hnone]
    simpa using hj
  cases hmoves with
  | stays =>
      cases he : networkEvent s a with
      | none => simpa using h
      | some e => exact absurd rfl (hevent e he)
  | calls type arg hui => exact hquiet rfl (h.of_ui (by rw [hui]; rfl) rfl rfl rfl rfl)
  | reads type arg hui => exact hquiet rfl (h.of_ui (by rw [hui]; rfl) rfl rfl rfl rfl)
  | looksUp type arg last hui => exact hquiet rfl (h.of_ui (by rw [hui]; rfl) rfl rfl rfl rfl)
  | cancels type arg context hui => exact hquiet rfl (h.of_ui (by rw [hui]; rfl) rfl rfl rfl rfl)
  | spares type arg hui => exact hquiet rfl (h.of_ui (by rw [hui]; rfl) rfl rfl rfl rfl)
  | returns type arg other context hui =>
      exact hquiet rfl (h.of_ui (by rw [hui]; rfl) rfl rfl rfl rfl)
  | misses type arg other hui => exact hquiet rfl (h.of_ui (by rw [hui]; rfl) rfl rfl rfl rfl)
  | registers type arg other hui =>
      refine hquiet rfl (h.registers ?_ rfl rfl)
      rw [waiting_of_ui (s := s) (by rw [hui]; rfl)]
      rfl
  | marks type arg other context hui =>
      refine hquiet rfl (h.of_eq ?_ rfl (same_worker rfl))
      rw [waiting, waiting, hui]
      rfl
  | posts type arg other context hui =>
      refine hquiet rfl (h.of_eq ?_ rfl (same_worker rfl))
      rw [waiting_of_ui rfl, waiting, hui, List.flatMap_append, List.map_append]
      rfl
  | postsOther _ task ha htask hui =>
      refine hquiet (by cases a <;> first | rfl | cases ha) (h.of_eq ?_ rfl (same_worker rfl))
      rw [waiting_of_ui (by rw [hui]; rfl), waiting_of_ui (by rw [hui]; rfl), List.flatMap_append,
        List.flatMap_singleton, htask, List.append_nil]
  | takes r queue hworker hqueue =>
      refine hquiet (networkEvent_worker_of_none (by rw [hworker]; rfl)) (h.takes id ?_ rfl rfl)
      rw [waiting, hqueue]
      rfl
  | takesOther task queue worker hworker hqueue htask hrequests =>
      refine hquiet (networkEvent_worker_of_none (by rw [hworker]; rfl))
        (h.of_eq ?_ rfl (no_request hrequests))
      rw [waiting, waiting, hqueue, List.flatMap_cons, htask, List.nil_append]
  | starts r point hworker hpoint =>
      have hover : ¬Over r.point := by
        cases hp : r.point <;> rw [hp] at hpoint <;> first | exact id | cases hpoint
      have hover' : ¬Over point := by
        cases hp : r.point <;> rw [hp] at hpoint <;> cases hpoint <;> exact id
      refine hquiet (networkEvent_worker_of_running hworker fun hnext =>
        hover (Over.of_invokes hnext)) (h.of_eq rfl rfl (next_point hworker rfl rfl fun hr => ?_))
      obtain ⟨hcallback, hattempt⟩ := hr.none_of_not_over hover
      exact ⟨fun m hm => absurd hm (hcallback m), fun m hm => absurd hm (hattempt m),
        fun h => absurd h hover'⟩
  | ends r cancelled point status retValue hworker hpoint hstatus =>
      have hover : ¬Over r.point := by
        cases hp : r.point <;> rw [hp] at hpoint <;> first | exact id | cases hpoint
      have hover' : Over point := by
        cases hp : r.point <;> rw [hp] at hpoint <;> cases hpoint <;> trivial
      have hev : networkEvent s (.rpcEnd status retValue) =
          some (.attempt r.request status retValue) := by
        unfold networkEvent
        simp only [hworker, hpoint]
        rw [if_neg]
        rintro ⟨hc, hs⟩
        exact hs (hstatus hc)
      rw [hev]
      exact h.records rfl rfl hworker rfl rfl rfl
        ((h.recorded r hworker).ends hover hover' status retValue)
  | unregisters r point hworker hpoint =>
      have hnext : ¬Invokes r := by
        rintro (⟨hp, -⟩ | hp) <;> rw [hp] at hpoint <;> cases hpoint
      refine hquiet (networkEvent_worker_of_running hworker hnext)
        (h.of_eq rfl rfl (next_point hworker rfl rfl fun hr => ⟨fun m hm => ?_, fun m hm => ?_,
          fun _ => hr.ended ?_⟩))
      · have hp := hr.callback m hm
        rw [hp] at hpoint
        cases hpoint
      · obtain ⟨-, hok, hval⟩ := hr.attempt m hm
        refine ⟨?_, hok, hval⟩
        cases hp : r.point <;> rw [hp] at hpoint <;> cases hpoint <;> trivial
      · cases hp : r.point <;> rw [hp] at hpoint <;> cases hpoint <;> trivial
  | renews r hworker hpoint hstatus =>
      have hnext : ¬Invokes r := by
        rintro (⟨-, hs⟩ | hp)
        · exact hs hstatus
        · rw [hp] at hpoint
          cases hpoint
      refine hquiet (networkEvent_worker_of_running hworker hnext)
        ⟨h.nodup, fun c hc => Nat.lt_succ_of_lt (h.waits c hc),
          fun e he => ⟨Nat.lt_succ_of_lt (h.past e he).1, (h.past e he).2⟩, fun x hx => ?_,
          fun x hx => ?_⟩
      · cases hx
        exact ⟨Nat.lt_succ_of_lt (h.taken r hworker).1, (h.taken r hworker).2⟩
      · cases hx
        have hr := h.recorded r hworker
        refine ⟨fun m hm => ?_, fun m hm => ?_, fun hover => hover.elim⟩
        · have hp := hr.callback m hm
          rw [hp] at hpoint
          cases hpoint
        · have hok := (hr.attempt m hm).2.1
          rw [hstatus] at hok
          cases hok
  | invokes r hworker hnext =>
      have hev : networkEvent s .worker = some (.callback r.request r.retValue) := by
        unfold networkEvent
        simp only [hworker]
        rw [if_pos hnext]
      rw [hev]
      exact h.records rfl rfl hworker rfl rfl rfl ((h.recorded r hworker).invokes hnext)
  | finishes r hworker hpoint =>
      have hnext : ¬Invokes r := by
        rintro (⟨hp, -⟩ | hp) <;> rw [hp] at hpoint <;> cases hpoint
      exact hquiet (networkEvent_worker_of_running hworker hnext)
        (h.of_eq rfl rfl (no_request rfl))
  | resets full solidity stub solidity_stub extension_stub worker hreset hworker hrequests =>
      exact hquiet (networkEvent_worker_of_none hworker) (h.of_eq rfl rfl (no_request hrequests))
  | cancelsPool worker hnext hworker hrequests =>
      exact hquiet (networkEvent_worker_of_none hworker) (h.of_eq rfl rfl (no_request hrequests))
  | clearsPool worker hnext hworker hrequests =>
      exact hquiet (networkEvent_worker_of_none hworker) (h.of_eq rfl rfl (no_request hrequests))

/-! ## Runs -/

/-- The invariant holds in every run. -/
theorem journal_run (empty : Reply) (full solidity : Bytes)
    (as : List (NetworkAction Arg Reply)) :
    Journal (networkEvents empty (NetworkThread.start full solidity) as)
      (runFrom (NetworkThread.step empty) (NetworkThread.start full solidity) as) := by
  have hstart : Journal [] (NetworkThread.start full solidity : NetworkThread Arg Reply) :=
    { nodup := List.nodup_nil
      waits := fun _ h => (by cases h)
      past := fun _ h => (by cases h)
      taken := fun _ h => (by cases h)
      recorded := fun _ h => (by cases h) }
  refine EveryStep.invariant (G := fun _ _ _ => True)
    (I := fun done s => Journal (networkEvents empty (NetworkThread.start full solidity) done) s)
    hstart ?_ fun _ _ _ _ => trivial
  intro done a hI _
  unfold networkEvents
  rw [observed_concat]
  exact journal_step empty a hI

/-! ## The statuses of the RPCs -/

/-- The status of an RPC that ends is OK or, for the first RPC of a task, UNAVAILABLE.  An RPC
whose context had been cancelled when it started ends as cancelled or not at all. -/
def EndsWell (s : NetworkThread Arg Reply) : NetworkAction Arg Reply → Prop
  | .rpcEnd status _ =>
    match s.worker with
    | .running r =>
      match r.point with
      | .rpc cancelled =>
        (cancelled = true → status = .CANCELLED) → status = .OK ∨ status = .UNAVAILABLE
      | .rpcAgain cancelled => (cancelled = true → status = .CANCELLED) → status = .OK
      | _ => True
    | _ => True
  | _ => True

/-- A callback that a step invokes is given what an RPC that ended with OK has left. -/
def DeliversOk (s : NetworkThread Arg Reply) (a : NetworkAction Arg Reply) : Prop :=
  a = .worker → ∀ r, s.worker = .running r → Invokes r → r.status = .OK

/-- Whether the last RPC of the task has ended and its callback has not been invoked yet. -/
def Answered (r : Running Arg Reply) : Prop :=
  match r.point with
  | .ended => r.status ≠ .UNAVAILABLE
  | .unregistered => r.status ≠ .UNAVAILABLE
  | .endedAgain => True
  | .unregisteredAgain => True
  | _ => False

/-- The last RPC of the running task has ended with another status than OK. -/
def Failed (s : NetworkThread Arg Reply) : Prop :=
  ∃ r, s.worker = .running r ∧ Answered r ∧ r.status ≠ .OK

/-- What is recorded when an RPC ends. -/
theorem networkEvent_rpcEnd {s : NetworkThread Arg Reply} {status : StatusCode}
    {retValue : Reply} {e : NetworkEvent Arg Reply}
    (h : networkEvent s (.rpcEnd status retValue) = some e) :
    ∃ r, s.worker = .running r ∧ ¬Over r.point ∧ e = .attempt r.request status retValue := by
  unfold networkEvent at h
  cases hw : s.worker with
  | running r =>
      simp only [hw] at h
      cases hpoint : afterRpc r.point with
      | none =>
          simp only [hpoint] at h
          cases h
      | some after =>
          simp only [hpoint] at h
          split at h
          · cases h
          · cases h
            refine ⟨r, rfl, ?_, rfl⟩
            cases hp : r.point <;> rw [hp] at hpoint <;> first | exact id | cases hpoint
  | _ =>
      simp only [hw] at h
      cases h

/-- **A step keeps the messages genuine** if and only if a callback it invokes is given the
message of an RPC that ended with OK. -/
theorem genuine_step_iff {events : List (NetworkEvent Arg Reply)} {s : NetworkThread Arg Reply}
    {a : NetworkAction Arg Reply} (h : Journal events s) :
    Genuine (events ++ (networkEvent s a).toList) ↔ Genuine events ∧ DeliversOk s a := by
  have hquiet : networkEvent s a = none → DeliversOk s a →
      (Genuine (events ++ (networkEvent s a).toList) ↔ Genuine events ∧ DeliversOk s a) := by
    intro hnone hok
    rw [hnone, Option.toList_none, List.append_nil]
    exact (and_iff_left hok).symm
  cases a with
  | worker =>
      by_cases hnext : ∃ r, s.worker = .running r ∧ Invokes r
      · obtain ⟨r, hworker, hnext⟩ := hnext
        have hev : networkEvent s .worker = some (.callback r.request r.retValue) := by
          unfold networkEvent
          simp only [hworker]
          rw [if_pos hnext]
        have hr := h.recorded r hworker
        rw [hev, Option.toList_some]
        constructor
        · refine fun hgenuine => ⟨fun q m hm => ?_, fun _ x hx _ => ?_⟩
          · rcases List.mem_append.mp (hgenuine q m (List.mem_append_left _ hm)) with hold | hnew
            · exact hold
            · cases List.mem_singleton.mp hnew
          · obtain rfl := Worker.running.inj (hworker.symm.trans hx)
            rcases List.mem_append.mp (hgenuine r.request r.retValue
              (List.mem_append_right _ (List.mem_singleton_self _))) with hold | hnew
            · exact (hr.attempt _ hold).2.1
            · cases List.mem_singleton.mp hnew
        · rintro ⟨hgenuine, hok⟩ q m hm
          refine List.mem_append_left _ ?_
          rcases List.mem_append.mp hm with hold | hnew
          · exact hgenuine q m hold
          · cases List.mem_singleton.mp hnew
            have hended := hr.ended (Over.of_invokes hnext)
            rwa [hok rfl r hworker hnext] at hended
      · refine hquiet (networkEvent_worker_none fun r hr hi => hnext ⟨r, hr, hi⟩) ?_
        exact fun _ r hr hi => absurd ⟨r, hr, hi⟩ hnext
  | rpcEnd status retValue =>
      cases hev : networkEvent s (.rpcEnd status retValue) with
      | none =>
          rw [← hev]
          exact hquiet hev (fun ha => by cases ha)
      | some e =>
          obtain ⟨r, hworker, hover, rfl⟩ := networkEvent_rpcEnd hev
          have hnone := ((h.recorded r hworker).none_of_not_over hover).1
          rw [Option.toList_some]
          constructor
          · refine fun hgenuine => ⟨fun q m hm => ?_, fun ha => by cases ha⟩
            rcases List.mem_append.mp (hgenuine q m (List.mem_append_left _ hm)) with hold | hnew
            · exact hold
            · cases List.mem_singleton.mp hnew
              exact absurd hm (hnone _)
          · rintro ⟨hgenuine, -⟩ q m hm
            rcases List.mem_append.mp hm with hold | hnew
            · exact List.mem_append_left _ (hgenuine q m hold)
            · cases List.mem_singleton.mp hnew
  | _ => exact hquiet rfl (fun ha => by cases ha)

/-- The messages of a run are genuine if and only if each step that invokes a callback gives it
the message of an RPC that ended with OK. -/
theorem genuine_iff_deliversOk (empty : Reply) (full solidity : Bytes)
    (as : List (NetworkAction Arg Reply)) :
    Genuine (networkEvents empty (NetworkThread.start full solidity) as) ↔
      EveryStep (NetworkThread.step empty) (NetworkThread.start full solidity)
        (fun _ s a => DeliversOk s a) as := by
  induction as using List.reverseRecOn with
  | nil => exact iff_of_true (fun _ _ hm => by cases hm) EveryStep.nil
  | append_singleton as a ih =>
      rw [networkEvents, observed_concat, ← networkEvents,
        genuine_step_iff (journal_run empty full solidity as), ih]
      exact ⟨fun h => h.1.concat h.2, fun h => ⟨h.of_append, h.at_step⟩⟩

/-- What a step does to a task whose last RPC has ended well. -/
theorem answered_step (empty : Reply) {s : NetworkThread Arg Reply}
    {a : NetworkAction Arg Reply} (hends : EndsWell s a) (h : ¬Failed s) :
    ¬Failed (s.step empty a) := by
  rintro ⟨r', hr', hanswered, hfailed⟩
  have hmoves := moves_step empty s a
  generalize s.step empty a = s' at hmoves hr'
  have hkept : s'.worker = s.worker → False := fun hsame =>
    h ⟨r', hsame ▸ hr', hanswered, hfailed⟩
  cases hmoves with
  | takes r queue hworker hqueue =>
      cases hr'
      exact hanswered
  | takesOther task queue worker hworker hqueue htask hrequests =>
      exact ne_running_of_workerRequests hrequests r' hr'
  | starts r point hworker hpoint =>
      cases hr'
      cases hp : r.point <;> rw [hp] at hpoint <;> cases hpoint <;> exact hanswered
  | ends r cancelled point status retValue hworker hpoint hstatus =>
      cases hr'
      unfold EndsWell at hends
      rw [hworker] at hends
      cases hp : r.point with
      | rpc =>
          rw [hp] at hpoint
          simp only [hp] at hends
          cases hpoint
          exact (hends hstatus).elim hfailed hanswered
      | rpcAgain =>
          rw [hp] at hpoint
          simp only [hp] at hends
          cases hpoint
          exact hfailed (hends hstatus)
      | _ =>
          rw [hp] at hpoint
          cases hpoint
  | unregisters r point hworker hpoint =>
      cases hr'
      refine h ⟨r, hworker, ?_, hfailed⟩
      unfold Answered at hanswered ⊢
      cases hp : r.point <;> rw [hp] at hpoint <;> cases hpoint <;> exact hanswered
  | renews r hworker hpoint hstatus =>
      cases hr'
      exact hanswered
  | invokes r hworker hnext =>
      cases hr'
      exact hanswered
  | finishes r hworker hpoint => cases hr'
  | resets full solidity stub solidity_stub extension_stub worker hreset hworker hrequests =>
      exact ne_running_of_workerRequests hrequests r' hr'
  | cancelsPool worker hnext hworker hrequests =>
      exact ne_running_of_workerRequests hrequests r' hr'
  | clearsPool worker hnext hworker hrequests =>
      exact ne_running_of_workerRequests hrequests r' hr'
  | _ => exact hkept rfl

/-- A task whose last RPC has failed goes on to its callback. -/
theorem failed_step (empty : Reply) {s : NetworkThread Arg Reply} {a : NetworkAction Arg Reply}
    (hok : DeliversOk s a) (h : Failed s) : Failed (s.step empty a) := by
  obtain ⟨r, hr, hanswered, hfailed⟩ := h
  have hmoves := moves_step empty s a
  generalize s.step empty a = s' at hmoves ⊢
  unfold Answered at hanswered
  cases hmoves with
  | takes r' queue hworker hqueue =>
      rw [hr] at hworker
      cases hworker
  | takesOther task queue worker hworker hqueue htask hrequests =>
      rw [hr] at hworker
      cases hworker
  | starts r' point hworker hpoint =>
      obtain rfl := Worker.running.inj (hr.symm.trans hworker)
      cases hp : r.point <;> rw [hp] at hpoint hanswered <;> first | exact hanswered.elim |
        cases hpoint
  | ends r' cancelled point status retValue hworker hpoint hstatus =>
      obtain rfl := Worker.running.inj (hr.symm.trans hworker)
      cases hp : r.point <;> rw [hp] at hpoint hanswered <;> first | exact hanswered.elim |
        cases hpoint
  | unregisters r' point hworker hpoint =>
      obtain rfl := Worker.running.inj (hr.symm.trans hworker)
      refine ⟨_, rfl, ?_, hfailed⟩
      unfold Answered
      cases hp : r.point <;> rw [hp] at hpoint hanswered <;> cases hpoint <;> exact hanswered
  | renews r' hworker hpoint hstatus =>
      obtain rfl := Worker.running.inj (hr.symm.trans hworker)
      rw [hpoint] at hanswered
      exact absurd hstatus hanswered
  | invokes r' hworker hnext =>
      obtain rfl := Worker.running.inj (hr.symm.trans hworker)
      exact (hfailed (hok rfl r hr hnext)).elim
  | finishes r' hworker hpoint =>
      obtain rfl := Worker.running.inj (hr.symm.trans hworker)
      rw [hpoint] at hanswered
      exact hanswered.elim
  | resets full solidity stub solidity_stub extension_stub worker hreset hworker hrequests =>
      exact absurd hr (ne_running_of_workerRequests hworker r)
  | cancelsPool worker hnext hworker hrequests =>
      exact absurd hr (ne_running_of_workerRequests hworker r)
  | clearsPool worker hnext hworker hrequests =>
      exact absurd hr (ne_running_of_workerRequests hworker r)
  | _ => exact ⟨r, hr, hanswered, hfailed⟩

/-- A task whose last RPC has failed invokes its callback in the next step of the worker but
one at the latest. -/
theorem Failed.not_deliversOk (empty : Reply) {s : NetworkThread Arg Reply} (h : Failed s)
    (hok : DeliversOk s .worker) : ¬DeliversOk (s.step empty .worker) .worker := by
  obtain ⟨r, hr, hanswered, hfailed⟩ := h
  have hstep : s.step empty .worker = s.requestStep r := by
    unfold NetworkThread.step NetworkThread.workerStep
    rw [hr]
  unfold Answered at hanswered
  rw [hstep]
  unfold NetworkThread.requestStep
  intro hnext
  cases hp : r.point with
  | ended =>
      simp only [hp] at hnext hanswered
      exact hfailed (hnext rfl { r with point := .unregistered } rfl (Or.inl ⟨rfl, hanswered⟩))
  | unregistered =>
      rw [hp] at hanswered
      exact hfailed (hok rfl r hr (Or.inl ⟨hp, hanswered⟩))
  | endedAgain =>
      simp only [hp] at hnext
      exact hfailed (hnext rfl { r with point := .unregisteredAgain } rfl (Or.inr rfl))
  | unregisteredAgain => exact hfailed (hok rfl r hr (Or.inr hp))
  | _ =>
      rw [hp] at hanswered
      exact hanswered

/-- An RPC that ends badly leaves a task whose last RPC has failed. -/
theorem failed_of_not_endsWell (empty : Reply) {s : NetworkThread Arg Reply}
    {a : NetworkAction Arg Reply} (h : ¬EndsWell s a) : Failed (s.step empty a) := by
  unfold EndsWell at h
  cases a with
  | rpcEnd status retValue =>
      unfold NetworkThread.step NetworkThread.rpcEnds
      cases hw : s.worker with
      | running r =>
          simp only [hw] at h
          cases hp : r.point with
          | rpc cancelled =>
              simp only [hp, Classical.not_imp, not_or] at h
              obtain ⟨hstatus, hok, havailable⟩ := h
              simp only [hp]
              rw [if_neg fun hc => hc.2 (hstatus hc.1)]
              exact ⟨_, rfl, havailable, hok⟩
          | rpcAgain cancelled =>
              simp only [hp, Classical.not_imp] at h
              obtain ⟨hstatus, hok⟩ := h
              simp only [hp]
              rw [if_neg fun hc => hc.2 (hstatus hc.1)]
              exact ⟨_, rfl, trivial, hok⟩
          | _ =>
              simp only [hp, not_true_eq_false] at h
      | _ => simp only [hw, not_true_eq_false] at h
  | _ => exact absurd trivial h

/-- In every run, and however long the worker goes on after it, callbacks receive the messages
of RPCs that ended with OK if and only if every RPC of the run ends well: with OK or, as the
first one of its task, with UNAVAILABLE. -/
theorem genuine_iff (empty : Reply) (full solidity : Bytes)
    (as : List (NetworkAction Arg Reply)) :
    (∀ n, Genuine (networkEvents empty (NetworkThread.start full solidity)
        (as ++ List.replicate n .worker))) ↔
      EveryStep (NetworkThread.step empty) (NetworkThread.start full solidity)
        (fun _ s a => EndsWell s a) as := by
  simp only [genuine_iff_deliversOk]
  constructor
  · intro h before a rest has
    by_contra hbad
    -- After this step the task has failed, and it stays so to the end of the run.
    have hfailed : Failed (runFrom (NetworkThread.step empty) (NetworkThread.start full solidity)
        as) := by
      have hrun := h 0
      rw [List.replicate_zero, List.append_nil] at hrun
      rw [show as = (before ++ [a]) ++ rest by simp [has]] at hrun ⊢
      refine EveryStep.invariant_from (I := fun _ s => Failed s) (before ++ [a]) ?_
        (fun done b _ hI hG => failed_step empty hG hI) rest hrun
      rw [runFrom_concat]
      exact failed_of_not_endsWell empty hbad
    -- One of the next two steps of the worker then invokes its callback.
    have hfirst := h 2 as .worker [.worker] rfl
    have hsecond := h 2 (as ++ [.worker]) .worker [] (by simp [List.replicate_succ])
    rw [runFrom_concat] at hsecond
    exact hfailed.not_deliversOk empty hfirst hsecond
  · intro h n
    have hends : EveryStep (NetworkThread.step empty) (NetworkThread.start full solidity)
        (fun _ s a => EndsWell s a) (as ++ List.replicate n .worker) := by
      induction n with
      | zero => simpa using h
      | succ n ih =>
          rw [List.replicate_succ', ← List.append_assoc]
          exact ih.concat trivial
    intro before a rest has
    rw [has] at hends
    have hwell : ¬Failed (runFrom (NetworkThread.step empty) (NetworkThread.start full solidity)
        before) :=
      EveryStep.invariant (I := fun _ s => ¬Failed s) (by rintro ⟨r, hr, -⟩; cases hr)
        (fun done b hI hG => answered_step empty hG hI) hends.of_append
    rintro - r hr hnext
    by_contra hbad
    refine hwell ⟨r, hr, ?_, hbad⟩
    unfold Answered
    rcases hnext with ⟨hpoint, hstatus⟩ | hpoint
    · rw [hpoint]
      exact hstatus
    · rw [hpoint]
      trivial

/-- A request for an account is superseded before it starts and ends as cancelled; its
callback receives the empty message. -/
theorem empty_message_delivered :
    ¬Genuine (networkEvents 0 quietThread
      (requesting .Request_GetAccount 5 ++ requesting .Request_CreateTransaction 6 ++
        answering .CANCELLED 0 ++ completing)) := by
  intro h
  have hcallback : NetworkEvent.callback ⟨.Request_GetAccount, 5, 0⟩ 0 ∈ networkEvents 0 quietThread
      (requesting .Request_GetAccount 5 ++ requesting .Request_CreateTransaction 6 ++
        answering .CANCELLED 0 ++ completing) := by decide
  have hattempt := h _ _ hcallback
  revert hattempt
  decide

end TronWallet.Theorems
