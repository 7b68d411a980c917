import TronWallet.Lib.GuardedRun
import TronWallet.Model.NetworkThread

/-!
# The steps of the network thread

`Moves empty s a s'` lists what a step can do, one constructor for each kind of access to
shared data; the points of a task that differ in their place alone share a constructor.
Every invariant of `NetworkThread` is a case analysis of it (`moves_step`).

A request is outstanding while its task is queued or running.  `outstanding` lists the
outstanding requests, each with the context of the RPC it will make, makes or made last,
and `live` keeps those whose context has not been cancelled.
-/

set_option autoImplicit false

namespace TronWallet.Analysis

open TronWallet.Lib TronWallet.Model

variable {Arg Reply : Type}

/-! ## Outstanding requests -/

/-- The requests among tasks. -/
def taskRequests : NetworkTask Arg → List (Request Arg)
  | .request r => [r]
  | _ => []

/-- The request a worker has in hand, with its present context. -/
def workerRequests : Worker Arg Reply → List (Request Arg)
  | .running r => [{ r.request with context := r.context }]
  | _ => []

/-- A worker without a request in hand runs no task of one. -/
theorem ne_running_of_workerRequests {worker : Worker Arg Reply} (h : workerRequests worker = [])
    (r : Running Arg Reply) : worker ≠ .running r := by
  rintro rfl
  cases h

/-- The requests posted and not finished. -/
def outstanding (s : NetworkThread Arg Reply) : List (Request Arg) :=
  workerRequests s.worker ++ s.queue.flatMap taskRequests

/-- The outstanding requests that have not been cancelled. -/
def live (s : NetworkThread Arg Reply) : List (Request Arg) :=
  (outstanding s).filter fun r => r.context ∉ s.cancelled

/-- A live request is outstanding, and its context has not been cancelled. -/
theorem mem_live {s : NetworkThread Arg Reply} {r : Request Arg} :
    r ∈ live s ↔ r ∈ outstanding s ∧ r.context ∉ s.cancelled := by
  rw [live, List.mem_filter, decide_eq_true_eq]

/-! ## Steps -/

/-- The starting points of the two RPCs. -/
def beforeRpc (cancelled : Bool) : Point → Option Point
  | .start => some (.rpc cancelled)
  | .again => some (.rpcAgain cancelled)
  | _ => none

/-- The ends of the two RPCs, and whether the context had been cancelled. -/
def afterRpc : Point → Option (Bool × Point)
  | .rpc cancelled => some (cancelled, .ended)
  | .rpcAgain cancelled => some (cancelled, .endedAgain)
  | _ => none

/-- Where the context is removed from the pool. -/
def afterEnd : Point → Option Point
  | .ended => some .unregistered
  | .endedAgain => some .unregisteredAgain
  | _ => none

/-- Whether the callback comes next. -/
def Invokes (r : Running Arg Reply) : Prop :=
  (r.point = .unregistered ∧ r.status ≠ .UNAVAILABLE) ∨ r.point = .unregisteredAgain

instance (r : Running Arg Reply) : Decidable (Invokes r) := by
  unfold Invokes
  infer_instance

/-- Whether a task of `ReSetSub` cancels the pool next: it changes an endpoint, and the pool
is not empty. -/
def CancelsPool (s : NetworkThread Arg Reply) : Prop :=
  UnorderedMap.isEmpty s.requestContextPool_ = false ∧
    match s.worker with
    | .reSetSub full _ .full => full ≠ [] ∧ full ≠ s.full_address_port_
    | .reSetSub _ solidity .solidity => solidity ≠ [] ∧ s.solidity_address_port_ ≠ solidity
    | _ => False

instance (s : NetworkThread Arg Reply) : Decidable (CancelsPool s) := by
  unfold CancelsPool
  refine @instDecidableAnd _ _ inferInstance ?_
  split <;> infer_instance

/-- Whether a task of `ReSetSub` clears the pool next. -/
def ClearsPool (s : NetworkThread Arg Reply) : Prop :=
  match s.worker with
  | .reSetSub _ _ .fullCanceled => True
  | .reSetSub _ _ .solidityCanceled => True
  | _ => False

instance (s : NetworkThread Arg Reply) : Decidable (ClearsPool s) := by
  unfold ClearsPool
  split <;> infer_instance

/-- The task an action posts that is not that of a request. -/
def postedTask : NetworkAction Arg Reply → Option (NetworkTask Arg)
  | .reSetSub full solidity => some (.reSetSub full solidity)
  | .account => some .account
  | _ => none

/-- What a step can do. -/
inductive Moves (empty : Reply) (s : NetworkThread Arg Reply) :
    NetworkAction Arg Reply → NetworkThread Arg Reply → Prop
  | stays (a : NetworkAction Arg Reply) : Moves empty s a s
  | calls (type : NetworkRequestType) (arg : Arg) (hui : s.ui = .idle)
      (hlast : s.lastCallType_ ≠ type) :
      Moves empty s (.call type arg) { s with ui := .differs type arg }
  | reads (type : NetworkRequestType) (arg : Arg) (hui : s.ui = .differs type arg) :
      Moves empty s .ui { s with ui := .readLast type arg s.lastCallType_ }
  | looksUp (type : NetworkRequestType) (arg : Arg) (last : NetworkRequestType)
      (hui : s.ui = .readLast type arg last) :
      Moves empty s .ui { s with ui := .found type arg (s.requestContextPool_.lookup last) }
  | cancels (type : NetworkRequestType) (arg : Arg) (context : Context)
      (hui : s.ui = .found type arg (some context)) :
      Moves empty s .ui
        { s with cancelled := context :: s.cancelled, ui := .canceled type arg (some context) }
  | spares (type : NetworkRequestType) (arg : Arg) (hui : s.ui = .found type arg none) :
      Moves empty s .ui { s with ui := .canceled type arg none }
  | returns (type : NetworkRequestType) (arg : Arg) (other : Option Context) (context : Context)
      (hui : s.ui = .canceled type arg other)
      (hpool : s.requestContextPool_.lookup type = some context) :
      Moves empty s .ui { s with ui := .idle }
  | misses (type : NetworkRequestType) (arg : Arg) (other : Option Context)
      (hui : s.ui = .canceled type arg other)
      (hpool : s.requestContextPool_.lookup type = none) :
      Moves empty s .ui { s with ui := .missing type arg other }
  | registers (type : NetworkRequestType) (arg : Arg) (other : Option Context)
      (hui : s.ui = .missing type arg other) :
      Moves empty s .ui
        { s with
          requestContextPool_ := UnorderedMap.emplace s.requestContextPool_ type s.contexts
          contexts := s.contexts + 1
          ui := .registered type arg other s.contexts }
  | marks (type : NetworkRequestType) (arg : Arg) (other : Option Context) (context : Context)
      (hui : s.ui = .registered type arg other context) :
      Moves empty s .ui { s with lastCallType_ := type, ui := .marked type arg other context }
  | posts (type : NetworkRequestType) (arg : Arg) (other : Option Context) (context : Context)
      (hui : s.ui = .marked type arg other context) :
      Moves empty s .ui
        { s with queue := s.queue ++ [.request ⟨type, arg, context⟩], ui := .idle }
  | postsOther (a : NetworkAction Arg Reply) (task : NetworkTask Arg)
      (ha : postedTask a = some task) (htask : taskRequests task = []) (hui : s.ui = .idle) :
      Moves empty s a { s with queue := s.queue ++ [task] }
  | takes (r : Request Arg) (queue : List (NetworkTask Arg)) (hworker : s.worker = .idle)
      (hqueue : s.queue = .request r :: queue) :
      Moves empty s .worker
        { s with
          queue
          worker := .running
            { request := r, context := r.context, retValue := empty, status := .OK,
              point := .start } }
  | takesOther (task : NetworkTask Arg) (queue : List (NetworkTask Arg)) (worker : Worker Arg Reply)
      (hworker : s.worker = .idle) (hqueue : s.queue = task :: queue)
      (htask : taskRequests task = []) (hrequests : workerRequests worker = []) :
      Moves empty s .worker { s with queue, worker }
  | starts (r : Running Arg Reply) (point : Point) (hworker : s.worker = .running r)
      (hpoint : beforeRpc (decide (r.context ∈ s.cancelled)) r.point = some point) :
      Moves empty s .worker { s with worker := .running { r with point } }
  | ends (r : Running Arg Reply) (cancelled : Bool) (point : Point) (status : StatusCode)
      (retValue : Reply) (hworker : s.worker = .running r)
      (hpoint : afterRpc r.point = some (cancelled, point))
      (hstatus : cancelled = true → status = .CANCELLED) :
      Moves empty s (.rpcEnd status retValue)
        { s with worker := .running { r with retValue, status, point } }
  | unregisters (r : Running Arg Reply) (point : Point) (hworker : s.worker = .running r)
      (hpoint : afterEnd r.point = some point) :
      Moves empty s .worker
        { s with
          requestContextPool_ := s.requestContextPool_.erase r.request.type
          worker := .running { r with point } }
  | renews (r : Running Arg Reply) (hworker : s.worker = .running r)
      (hpoint : r.point = .unregistered) (hstatus : r.status = .UNAVAILABLE) :
      Moves empty s .worker
        { s with
          requestContextPool_ :=
            UnorderedMap.emplace s.requestContextPool_ r.request.type s.contexts
          contexts := s.contexts + 1
          worker := .running { r with context := s.contexts, point := .again } }
  | invokes (r : Running Arg Reply) (hworker : s.worker = .running r) (hnext : Invokes r) :
      Moves empty s .worker { s with worker := .running { r with point := .invoked } }
  | finishes (r : Running Arg Reply) (hworker : s.worker = .running r)
      (hpoint : r.point = .invoked) :
      Moves empty s .worker { s with lastCallType_ := .RequestCount, worker := .idle }
  | resets (full solidity stub solidity_stub extension_stub : Bytes) (worker : Worker Arg Reply)
      (hreset : ∃ full solidity point, s.worker = .reSetSub full solidity point)
      (hworker : workerRequests s.worker = []) (hrequests : workerRequests worker = []) :
      Moves empty s .worker
        { s with
          full_address_port_ := full
          solidity_address_port_ := solidity
          stub_ := stub
          solidity_stub_ := solidity_stub
          extension_stub_ := extension_stub
          worker }
  | cancelsPool (worker : Worker Arg Reply) (hnext : CancelsPool s)
      (hworker : workerRequests s.worker = []) (hrequests : workerRequests worker = []) :
      Moves empty s .worker
        { s with cancelled := s.requestContextPool_.pairs.map Prod.snd ++ s.cancelled, worker }
  | clearsPool (worker : Worker Arg Reply) (hnext : ClearsPool s)
      (hworker : workerRequests s.worker = []) (hrequests : workerRequests worker = []) :
      Moves empty s .worker { s with requestContextPool_ := ∅, worker }

/-- The UI thread moves as described. -/
theorem moves_uiStep (empty : Reply) (s : NetworkThread Arg Reply) :
    Moves empty s .ui s.uiStep := by
  unfold NetworkThread.uiStep
  cases hui : s.ui with
  | idle => exact .stays _
  | differs type arg => exact .reads type arg hui
  | readLast type arg last => exact .looksUp type arg last hui
  | found type arg other =>
      cases other with
      | none => exact .spares type arg hui
      | some context => exact .cancels type arg context hui
  | canceled type arg other =>
      simp only [NetworkThread.getRequestContext]
      cases hpool : s.requestContextPool_.lookup type with
      | none => exact .misses type arg other hui hpool
      | some context => exact .returns type arg other context hui hpool
  | missing type arg other => exact .registers type arg other hui
  | registered type arg other context => exact .marks type arg other context hui
  | marked type arg other context => exact .posts type arg other context hui

/-- The task of a request moves as described. -/
theorem moves_requestStep (empty : Reply) {s : NetworkThread Arg Reply} {r : Running Arg Reply}
    (hworker : s.worker = .running r) : Moves empty s .worker (s.requestStep r) := by
  unfold NetworkThread.requestStep
  cases hpoint : r.point with
  | start => exact .starts r _ hworker (by rw [hpoint]; rfl)
  | rpc cancelled => exact .stays _
  | ended => exact .unregisters r _ hworker (by rw [hpoint]; rfl)
  | unregistered =>
      simp only
      by_cases hstatus : r.status = .UNAVAILABLE
      · rw [if_pos hstatus]
        exact .renews r hworker hpoint hstatus
      · rw [if_neg hstatus]
        exact .invokes r hworker (Or.inl ⟨hpoint, hstatus⟩)
  | again => exact .starts r _ hworker (by rw [hpoint]; rfl)
  | rpcAgain cancelled => exact .stays _
  | endedAgain => exact .unregisters r _ hworker (by rw [hpoint]; rfl)
  | unregisteredAgain => exact .invokes r hworker (Or.inr hpoint)
  | invoked => exact .finishes r hworker hpoint

/-- A task of `ReSetSub` moves as described. -/
theorem moves_reSetSubStep (empty : Reply) {s : NetworkThread Arg Reply} {full solidity : Bytes}
    {point : ResetPoint} (hworker : s.worker = .reSetSub full solidity point) :
    Moves empty s .worker (s.reSetSubStep full solidity point) := by
  have hnone : workerRequests s.worker = [] := by rw [hworker]; rfl
  cases point with
  | full =>
      unfold NetworkThread.reSetSubStep
      simp only
      by_cases hchange : full ≠ [] ∧ full ≠ s.full_address_port_
      · rw [if_pos hchange]
        cases hempty : UnorderedMap.isEmpty s.requestContextPool_ with
        | true => exact .resets _ _ _ _ _ _ ⟨_, _, _, hworker⟩ hnone rfl
        | false =>
            refine .cancelsPool _ ⟨hempty, ?_⟩ hnone rfl
            rw [hworker]
            exact hchange
      · rw [if_neg hchange]
        exact .resets _ _ _ _ _ _ ⟨_, _, _, hworker⟩ hnone rfl
  | fullCanceled => exact .clearsPool _ (by unfold ClearsPool; rw [hworker]; trivial) hnone rfl
  | fullCleared => exact .resets _ _ _ _ _ _ ⟨_, _, _, hworker⟩ hnone rfl
  | solidity =>
      unfold NetworkThread.reSetSubStep
      simp only
      by_cases hchange : solidity ≠ [] ∧ s.solidity_address_port_ ≠ solidity
      · rw [if_pos hchange]
        cases hempty : UnorderedMap.isEmpty s.requestContextPool_ with
        | true => exact .resets _ _ _ _ _ _ ⟨_, _, _, hworker⟩ hnone rfl
        | false =>
            refine .cancelsPool _ ⟨hempty, ?_⟩ hnone rfl
            rw [hworker]
            exact hchange
      · rw [if_neg hchange]
        exact .resets _ _ _ _ _ _ ⟨_, _, _, hworker⟩ hnone rfl
  | solidityCanceled => exact .clearsPool _ (by unfold ClearsPool; rw [hworker]; trivial) hnone rfl
  | solidityCleared => exact .resets _ _ _ _ _ _ ⟨_, _, _, hworker⟩ hnone rfl

/-- The worker moves as described. -/
theorem moves_workerStep (empty : Reply) (s : NetworkThread Arg Reply) :
    Moves empty s .worker (s.workerStep empty) := by
  unfold NetworkThread.workerStep
  cases hworker : s.worker with
  | idle =>
      simp only
      cases hqueue : s.queue with
      | nil => exact .stays _
      | cons task queue =>
          cases task with
          | request r => exact .takes r queue hworker hqueue
          | reSetSub full solidity => exact .takesOther _ queue _ hworker hqueue rfl rfl
          | account => exact .takesOther _ queue .idle hworker hqueue rfl rfl
  | running r => exact moves_requestStep empty hworker
  | reSetSub full solidity point => exact moves_reSetSubStep empty hworker

/-- The end of an RPC is as described. -/
theorem moves_rpcEnds (empty : Reply) (s : NetworkThread Arg Reply) (status : StatusCode)
    (retValue : Reply) : Moves empty s (.rpcEnd status retValue) (s.rpcEnds status retValue) := by
  unfold NetworkThread.rpcEnds
  cases hworker : s.worker with
  | idle => exact .stays _
  | reSetSub full solidity point => exact .stays _
  | running r =>
      cases hpoint : r.point with
      | rpc cancelled =>
          simp only [hpoint]
          by_cases h : cancelled = true ∧ status ≠ .CANCELLED
          · rw [if_pos h]
            exact .stays _
          · rw [if_neg h]
            exact .ends r cancelled _ status retValue hworker (by rw [hpoint]; rfl)
              fun hc => Decidable.of_not_not fun hs => h ⟨hc, hs⟩
      | rpcAgain cancelled =>
          simp only [hpoint]
          by_cases h : cancelled = true ∧ status ≠ .CANCELLED
          · rw [if_pos h]
            exact .stays _
          · rw [if_neg h]
            exact .ends r cancelled _ status retValue hworker (by rw [hpoint]; rfl)
              fun hc => Decidable.of_not_not fun hs => h ⟨hc, hs⟩
      | _ =>
          simp only [hpoint]
          exact .stays _

/-- Every step moves as described. -/
theorem moves_step (empty : Reply) (s : NetworkThread Arg Reply) (a : NetworkAction Arg Reply) :
    Moves empty s a (s.step empty a) := by
  cases a with
  | call type arg =>
      unfold NetworkThread.step
      cases hui : s.ui with
      | idle =>
          simp only [if_true]
          by_cases h : type = .RequestCount ∨ s.lastCallType_ = type
          · rw [if_pos h]
            exact .stays _
          · rw [if_neg h]
            exact .calls type arg hui fun hl => h (Or.inr hl)
      | _ => exact .stays _
  | ui => exact moves_uiStep empty s
  | reSetSub full solidity =>
      unfold NetworkThread.step
      cases hui : s.ui with
      | idle =>
          simp only [if_true]
          rw [← hui]
          exact .postsOther _ (.reSetSub full solidity) rfl rfl hui
      | _ => exact .stays _
  | account =>
      unfold NetworkThread.step
      cases hui : s.ui with
      | idle =>
          simp only [if_true]
          rw [← hui]
          exact .postsOther _ .account rfl rfl hui
      | _ => exact .stays _
  | worker => exact moves_workerStep empty s
  | rpcEnd status retValue => exact moves_rpcEnds empty s status retValue

/-! ## What a step does to the outstanding requests -/

/-- A task at the end of the queue adds its requests at the end. -/
theorem outstanding_posts (s : NetworkThread Arg Reply) (task : NetworkTask Arg) (ui : Ui Arg) :
    outstanding { s with queue := s.queue ++ [task], ui } = outstanding s ++ taskRequests task := by
  simp only [outstanding, List.flatMap_append, List.flatMap_singleton, List.append_assoc]

/-- The request of a running task comes first. -/
theorem outstanding_running {s : NetworkThread Arg Reply} {r : Running Arg Reply}
    (h : s.worker = .running r) :
    outstanding s = { r.request with context := r.context } ::
      s.queue.flatMap taskRequests := by
  rw [outstanding, h]
  rfl

/-- Without a running task there are the requests of the queue. -/
theorem outstanding_queue {s : NetworkThread Arg Reply} (h : workerRequests s.worker = []) :
    outstanding s = s.queue.flatMap taskRequests := by
  rw [outstanding, h, List.nil_append]

/-- Taking a request from the queue leaves it outstanding. -/
theorem outstanding_take {s : NetworkThread Arg Reply} {r : Request Arg}
    {queue : List (NetworkTask Arg)} (hworker : s.worker = .idle)
    (hqueue : s.queue = .request r :: queue) :
    outstanding s = r :: queue.flatMap taskRequests := by
  rw [outstanding, hworker, hqueue]
  rfl

/-- Taking another task changes nothing outstanding. -/
theorem outstanding_takeOther {s : NetworkThread Arg Reply} {task : NetworkTask Arg}
    {queue : List (NetworkTask Arg)} (hworker : s.worker = .idle)
    (hqueue : s.queue = task :: queue) (htask : taskRequests task = []) :
    outstanding s = queue.flatMap taskRequests := by
  rw [outstanding, hworker, hqueue, List.flatMap_cons, htask]
  rfl

end TronWallet.Analysis
