import TronWallet.Model.NetworkThread

/-!
# Requests on given inputs

Short names for the actions of runs of the network thread that are evaluated.  Arguments
and replies are numbers, and the message without a reply is zero.
-/

set_option autoImplicit false

namespace TronWallet.Reference

open TronWallet.Lib TronWallet.Model

/-- Actions on requests and replies that are numbers. -/
abbrev NumberAction := NetworkAction ℕ ℕ

/-- A thread without requests. -/
def quietThread : NetworkThread ℕ ℕ := NetworkThread.start [1] [2]

/-- A call that goes through without a pause. -/
def requesting (type : NetworkRequestType) (arg : ℕ) : List NumberAction :=
  .call type arg :: List.replicate 7 .ui

/-- The worker takes a request, and its RPC ends. -/
def answering (status : StatusCode) (reply : ℕ) : List NumberAction :=
  [.worker, .worker, .rpcEnd status reply]

/-- The worker takes the last steps of a request that is not made again. -/
def completing : List NumberAction := List.replicate 3 .worker

/-- A task of `ReSetSub` that changes one endpoint while the pool is empty, from being taken to
its end. -/
def resetting : List NumberAction := List.replicate 4 .worker

end TronWallet.Reference
