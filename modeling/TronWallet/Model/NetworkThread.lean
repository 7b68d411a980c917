import TronWallet.Lib.UnorderedMap
import TronWallet.Model.Bytes

/-!
# Requests to the nodes

`CNetworkThread`: the request methods on the UI thread, all of them instances of the macro
`RPC_PROC`, and the one thread that runs the tasks of the `io_service`.  The two threads
share `lastCallType_` and `requestContextPool_`, so each of them is cut at every access to
shared data: `Ui` and `Point` say where a call and a task stand and what their local
variables hold, and `NetworkThread.step` lets one thread go on to its next access.  A task
of `ReSetSub` goes through the pool without the lock; cancelling every context of the pool
is one step here and clearing it another.

A context is a number, and has been cancelled when it is among `cancelled`.  How an RPC ends
and what it leaves in the message is an input of the step in which it ends, except that an
RPC whose context was cancelled before it started ends as cancelled.
-/

set_option autoImplicit false

namespace TronWallet.Model

open TronWallet.Lib

/-- SOURCE: wallet/core/network_thread.h:13-48 -/
inductive NetworkRequestType where
  | Request_GetAccount
  | Request_AccountNetMessage
  | Request_CreateTransaction
  | Request_BroadcastTransaction
  | Request_UpdateAccount
  | Request_VoteWitnessAccount
  | Request_CreateAssetIssue
  | Request_ListWitnesses
  | Request_UpdateWitness
  | Request_CreateWitness
  | Request_TransferAsset
  | Request_ParticipateAssetIssue
  | Request_FreezeBalance
  | Request_UnfreezeBalance
  | Request_WithdrawBalance
  | Request_ListNodes
  | Request_GetAssetIssueList
  | Request_GetAssetIssueByAccount
  | Request_GetAssetIssueByName
  | Request_GetNowBlock
  | Request_GetBlockByNum
  | Request_TotalTransaction
  | Request_GetBlockById
  | Request_GetBlockByLimitNext
  | Request_GetBlockByLatestNum
  | Request_GetTransactionById
  | Request_UpdateAsset
  | Request_getTransactionsFromThis
  | Request_getTransactionsToThis
  | RequestCount
deriving DecidableEq

/-- A `grpc::ClientContext`. -/
abbrev Context := ℕ

/-- How an RPC ended. -/
inductive StatusCode where
  | OK
  | CANCELLED
  | UNAVAILABLE
  | other (code : ℕ)
deriving DecidableEq

/-- What the lambda of a request has captured: the type, `RequestArg` and `context`. -/
structure Request (Arg : Type) where
  type : NetworkRequestType
  arg : Arg
  context : Context
deriving DecidableEq

/-- A task of the `io_service`.  `Login` and `CreateAccountWrapper` post tasks that touch
nothing of this. -/
inductive NetworkTask (Arg : Type) where
  | request (r : Request Arg)
  | reSetSub (full_address_port solidity_address_port : Bytes)
  | account
deriving DecidableEq

/-- Where a call of `RPC_PROC` stands, between two accesses to shared data.
SOURCE: wallet/core/network_thread.cpp:149-164 -/
inductive Ui (Arg : Type) where
  /-- No call is being made. -/
  | idle
  /-- `lastCallType_` was not the type of the call. -/
  | differs (type : NetworkRequestType) (arg : Arg)
  /-- `lastCallType_` has been read again. -/
  | readLast (type : NetworkRequestType) (arg : Arg) (last : NetworkRequestType)
  /-- Its context has been looked up. -/
  | found (type : NetworkRequestType) (arg : Arg) (other : Option Context)
  /-- That context, if there is one, has been cancelled. -/
  | canceled (type : NetworkRequestType) (arg : Arg) (other : Option Context)
  /-- The type of the call has no context. -/
  | missing (type : NetworkRequestType) (arg : Arg) (other : Option Context)
  /-- A context has been registered. -/
  | registered (type : NetworkRequestType) (arg : Arg) (other : Option Context)
      (context : Context)
  /-- `lastCallType_` has been set. -/
  | marked (type : NetworkRequestType) (arg : Arg) (other : Option Context) (context : Context)
deriving DecidableEq

/-- Where the task of a request stands.
SOURCE: wallet/core/network_thread.cpp:165-184 -/
inductive Point where
  | start
  /-- The RPC is under way; whether its context was cancelled when it started. -/
  | rpc (cancelled : Bool)
  | ended
  | unregistered
  /-- A context has been registered for the second RPC. -/
  | again
  | rpcAgain (cancelled : Bool)
  | endedAgain
  | unregisteredAgain
  /-- The callback has been invoked. -/
  | invoked
deriving DecidableEq

/-- The task of a request with its local variables; `context` is that of the RPC under way
or made last. -/
structure Running (Arg Reply : Type) where
  request : Request Arg
  context : Context
  retValue : Reply
  status : StatusCode
  point : Point
deriving DecidableEq

/-- Where a task of `ReSetSub` stands. SOURCE: wallet/core/network_thread.cpp:75-102 -/
inductive ResetPoint where
  | full
  | fullCanceled
  | fullCleared
  | solidity
  | solidityCanceled
  | solidityCleared
deriving DecidableEq

/-- What the thread of the `io_service` is doing. -/
inductive Worker (Arg Reply : Type) where
  | idle
  | running (r : Running Arg Reply)
  | reSetSub (full_address_port solidity_address_port : Bytes) (point : ResetPoint)
deriving DecidableEq

/-- The state of `CNetworkThread` and of the two threads.  A stub is the address its
channel was created for.
SOURCE: wallet/core/network_thread.h:106-121 -/
structure NetworkThread (Arg Reply : Type) where
  full_address_port_ : Bytes
  solidity_address_port_ : Bytes
  stub_ : Bytes
  solidity_stub_ : Bytes
  extension_stub_ : Bytes
  requestContextPool_ : UnorderedMap NetworkRequestType Context := ∅
  lastCallType_ : NetworkRequestType := .RequestCount
  contexts : ℕ := 0
  cancelled : List Context := []
  queue : List (NetworkTask Arg) := []
  worker : Worker Arg Reply := .idle
  ui : Ui Arg := .idle

/-- A step of one of the threads. -/
inductive NetworkAction (Arg Reply : Type) where
  /-- A request method is called. -/
  | call (type : NetworkRequestType) (arg : Arg)
  /-- The call goes on. -/
  | ui
  | reSetSub (full_address_port solidity_address_port : Bytes)
  /-- `Login` or `CreateAccountWrapper` is called. -/
  | account
  /-- The worker goes on. -/
  | worker
  /-- The RPC under way ends. -/
  | rpcEnd (status : StatusCode) (retValue : Reply)
deriving DecidableEq

namespace NetworkThread

variable {Arg Reply : Type}

/-! ## Shared data -/

/-- SOURCE: wallet/core/network_thread.cpp:119-127 -/
def getRequestContext (s : NetworkThread Arg Reply) (type : NetworkRequestType) :
    Option Context := s.requestContextPool_.lookup type

/-- Makes a context, and registers it unless the type has one; the context is
`s.contexts` in either case.
SOURCE: wallet/core/network_thread.cpp:129-135 -/
def registerRequestContext (s : NetworkThread Arg Reply) (type : NetworkRequestType) :
    NetworkThread Arg Reply :=
  { s with
    requestContextPool_ := UnorderedMap.emplace s.requestContextPool_ type s.contexts
    contexts := s.contexts + 1 }

/-- SOURCE: wallet/core/network_thread.cpp:137-143 -/
def unregisterRequestContext (s : NetworkThread Arg Reply) (type : NetworkRequestType) :
    NetworkThread Arg Reply :=
  { s with requestContextPool_ := s.requestContextPool_.erase type }

/-- `context->TryCancel()`. -/
def tryCancel (s : NetworkThread Arg Reply) (context : Context) : NetworkThread Arg Reply :=
  { s with cancelled := context :: s.cancelled }

/-- Cancels the contexts of the pool. SOURCE: wallet/core/network_thread.cpp:80-82 -/
def cancelPool (s : NetworkThread Arg Reply) : NetworkThread Arg Reply :=
  { s with cancelled := s.requestContextPool_.pairs.map Prod.snd ++ s.cancelled }

/-! ## The UI thread -/

/-- The UI thread goes on with the call it is making.
SOURCE: wallet/core/network_thread.cpp:150-165, 185-187 -/
def uiStep (s : NetworkThread Arg Reply) : NetworkThread Arg Reply :=
  match s.ui with
  | .idle => s
  | .differs type arg => { s with ui := .readLast type arg s.lastCallType_ }
  | .readLast type arg last => { s with ui := .found type arg (s.getRequestContext last) }
  | .found type arg other =>
    match other with
    | some context => { s.tryCancel context with ui := .canceled type arg other }
    | none => { s with ui := .canceled type arg other }
  | .canceled type arg other =>
    match s.getRequestContext type with
    | some _ => { s with ui := .idle }
    | none => { s with ui := .missing type arg other }
  | .missing type arg other =>
    { s.registerRequestContext type with ui := .registered type arg other s.contexts }
  | .registered type arg other context =>
    { s with lastCallType_ := type, ui := .marked type arg other context }
  | .marked type arg _ context =>
    { s with queue := s.queue ++ [.request ⟨type, arg, context⟩], ui := .idle }

/-! ## The thread of the tasks -/

/-- The task of a request goes on; while an RPC is under way it waits.
SOURCE: wallet/core/network_thread.cpp:165-184 -/
def requestStep (s : NetworkThread Arg Reply) (r : Running Arg Reply) :
    NetworkThread Arg Reply :=
  match r.point with
  | .start =>
    { s with worker := .running { r with point := .rpc (decide (r.context ∈ s.cancelled)) } }
  | .rpc _ => s
  | .ended =>
    { s.unregisterRequestContext r.request.type with
      worker := .running { r with point := .unregistered } }
  | .unregistered =>
    if r.status = .UNAVAILABLE then
      { s.registerRequestContext r.request.type with
        worker := .running { r with context := s.contexts, point := .again } }
    else { s with worker := .running { r with point := .invoked } }
  | .again =>
    { s with worker := .running { r with point := .rpcAgain (decide (r.context ∈ s.cancelled)) } }
  | .rpcAgain _ => s
  | .endedAgain =>
    { s.unregisterRequestContext r.request.type with
      worker := .running { r with point := .unregisteredAgain } }
  | .unregisteredAgain => { s with worker := .running { r with point := .invoked } }
  | .invoked => { s with lastCallType_ := .RequestCount, worker := .idle }

/-- A task of `ReSetSub` goes on.  The pool is tested once: it is then both cancelled and
cleared, or neither.
SOURCE: wallet/core/network_thread.cpp:62-102 -/
def reSetSubStep (s : NetworkThread Arg Reply) (full solidity : Bytes) :
    ResetPoint → NetworkThread Arg Reply
  | .full =>
    if full ≠ [] ∧ full ≠ s.full_address_port_ then
      if UnorderedMap.isEmpty s.requestContextPool_ then
        { s with worker := .reSetSub full solidity .fullCleared }
      else { s.cancelPool with worker := .reSetSub full solidity .fullCanceled }
    else { s with worker := .reSetSub full solidity .solidity }
  | .fullCanceled =>
    { s with requestContextPool_ := ∅, worker := .reSetSub full solidity .fullCleared }
  | .fullCleared =>
    { s with
      full_address_port_ := full
      stub_ := full
      worker := .reSetSub full solidity .solidity }
  | .solidity =>
    if solidity ≠ [] ∧ s.solidity_address_port_ ≠ solidity then
      if UnorderedMap.isEmpty s.requestContextPool_ then
        { s with worker := .reSetSub full solidity .solidityCleared }
      else { s.cancelPool with worker := .reSetSub full solidity .solidityCanceled }
    else { s with worker := .idle }
  | .solidityCanceled =>
    { s with requestContextPool_ := ∅, worker := .reSetSub full solidity .solidityCleared }
  | .solidityCleared =>
    { s with
      solidity_address_port_ := solidity
      solidity_stub_ := solidity
      extension_stub_ := solidity
      worker := .idle }

/-- The worker takes the next task or goes on with the one it has.  The message of a request
is `empty` at first. -/
def workerStep (empty : Reply) (s : NetworkThread Arg Reply) : NetworkThread Arg Reply :=
  match s.worker with
  | .idle =>
    match s.queue with
    | [] => s
    | .request r :: queue =>
      { s with
        queue
        worker := .running
          { request := r, context := r.context, retValue := empty, status := .OK,
            point := .start } }
    | .reSetSub full solidity :: queue =>
      { s with queue, worker := .reSetSub full solidity .full }
    | .account :: queue => { s with queue }
  | .running r => s.requestStep r
  | .reSetSub full solidity point => s.reSetSubStep full solidity point

/-- The RPC under way ends. -/
def rpcEnds (s : NetworkThread Arg Reply) (status : StatusCode) (retValue : Reply) :
    NetworkThread Arg Reply :=
  match s.worker with
  | .running r =>
    match r.point with
    | .rpc cancelled =>
      if cancelled = true ∧ status ≠ .CANCELLED then s
      else { s with worker := .running { r with retValue, status, point := .ended } }
    | .rpcAgain cancelled =>
      if cancelled = true ∧ status ≠ .CANCELLED then s
      else { s with worker := .running { r with retValue, status, point := .endedAgain } }
    | _ => s
  | _ => s

/-- One step; an action that is not possible in a state leaves it as it is. -/
def step (empty : Reply) (s : NetworkThread Arg Reply) :
    NetworkAction Arg Reply → NetworkThread Arg Reply
  | .call type arg =>
    if s.ui matches .idle then
      if type = .RequestCount ∨ s.lastCallType_ = type then s
      else { s with ui := .differs type arg }
    else s
  | .ui => s.uiStep
  | .reSetSub full solidity =>
    if s.ui matches .idle then { s with queue := s.queue ++ [.reSetSub full solidity] } else s
  | .account => if s.ui matches .idle then { s with queue := s.queue ++ [.account] } else s
  | .worker => s.workerStep empty
  | .rpcEnd status retValue => s.rpcEnds status retValue

/-- A thread that has just been made, with the endpoints of its configuration.
SOURCE: wallet/core/network_thread.cpp:13-17, network_thread.h:106-107 -/
def start (full solidity : Bytes) : NetworkThread Arg Reply where
  full_address_port_ := full
  solidity_address_port_ := solidity
  stub_ := full
  solidity_stub_ := solidity
  extension_stub_ := solidity

end NetworkThread

end TronWallet.Model
