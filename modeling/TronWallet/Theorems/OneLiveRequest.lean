import TronWallet.Analysis.NetworkSteps
import TronWallet.Reference.NetworkRuns

/-!
# At most one live request

A call is to cancel the request made before it, which it looks for under `lastCallType_`.
A task that completes sets `lastCallType_` back although a newer request may be waiting,
and from its first `UnregiesterRequestContext` on it is not in the pool itself; a task that
is made again after UNAVAILABLE gets a context nobody has cancelled.  In all these cases
two requests are live.

`FindsLive` is the condition under which that does not happen.  The invariant `Settled`
depends on where the call being made stands: once it has cancelled what it has found,
nothing is live until it posts its own task.
-/

set_option autoImplicit false

namespace TronWallet.Theorems

open TronWallet.Lib TronWallet.Model TronWallet.Analysis TronWallet.Reference

variable {Arg Reply : Type}

/-! ## The condition -/

/-- No call has looked for a request to cancel and not yet posted its own. -/
def BeforeLookup : Ui Arg → Prop
  | .idle => True
  | .differs .. => True
  | .readLast .. => True
  | _ => False

instance (ui : Ui Arg) : Decidable (BeforeLookup ui) := by
  cases ui <;> unfold BeforeLookup <;> infer_instance

/-- A call that looks for the context of the last type finds that of every live request, and
a request is made again only when no other one is live and no call is about to post. -/
def FindsLive (_ : List (NetworkAction Arg Reply)) (s : NetworkThread Arg Reply) :
    NetworkAction Arg Reply → Prop
  | .ui =>
    match s.ui with
    | .readLast _ _ last =>
      ∀ r ∈ live s, s.requestContextPool_.lookup last = some r.context
    | _ => True
  | .worker =>
    match s.worker with
    | .running r => r.point = .unregistered → r.status = .UNAVAILABLE →
      BeforeLookup s.ui ∧ ∀ q ∈ s.queue.flatMap taskRequests, q.context ∈ s.cancelled
    | _ => True
  | _ => True

instance (done : List (NetworkAction Arg Reply)) (s : NetworkThread Arg Reply)
    (a : NetworkAction Arg Reply) : Decidable (FindsLive done s a) :=
  match a with
  | .ui => by
    unfold FindsLive
    exact match s.ui with
      | .idle | .differs .. | .readLast .. | .found .. | .canceled .. | .missing ..
      | .registered .. | .marked .. => inferInstance
  | .worker => by
    unfold FindsLive
    exact match s.worker with
      | .idle | .running _ | .reSetSub .. => inferInstance
  | .call .. | .reSetSub .. | .account | .rpcEnd .. => by unfold FindsLive; infer_instance

/-! ## The invariant -/

/-- What is live while a call stands where it does. -/
def Settled (ui : Ui Arg) (l : List (Request Arg)) : Prop :=
  match ui with
  | .idle => l.length ≤ 1
  | .differs .. => l.length ≤ 1
  | .readLast .. => l.length ≤ 1
  | .found _ _ other => l.length ≤ 1 ∧ ∀ r ∈ l, other = some r.context
  | _ => l = []

/-- Wherever the call stands, at most one request is live. -/
theorem Settled.length_le {ui : Ui Arg} {l : List (Request Arg)} (h : Settled ui l) :
    l.length ≤ 1 := by
  cases ui with
  | idle => exact h
  | differs => exact h
  | readLast => exact h
  | found => exact h.1
  | _ =>
      rw [show l = [] from h]
      exact Nat.zero_le 1

/-- Fewer live requests do no harm. -/
theorem Settled.sublist {ui : Ui Arg} {l l' : List (Request Arg)} (h : Settled ui l)
    (hl : l'.Sublist l) : Settled ui l' := by
  cases ui with
  | idle => exact hl.length_le.trans h
  | differs => exact hl.length_le.trans h
  | readLast => exact hl.length_le.trans h
  | found => exact ⟨hl.length_le.trans h.1, fun r hr => h.2 r (hl.subset hr)⟩
  | _ =>
      rw [show l = [] from h] at hl
      exact List.sublist_nil.mp hl

/-- Fewer outstanding requests and more cancelled contexts leave fewer live requests. -/
theorem live_sublist {s s' : NetworkThread Arg Reply}
    (hout : (outstanding s').Sublist (outstanding s)) (hc : ∀ c ∈ s.cancelled, c ∈ s'.cancelled) :
    (live s').Sublist (live s) := by
  refine List.Sublist.trans ?_ (hout.filter _)
  refine List.monotone_filter_right _ fun r hr => ?_
  rw [decide_eq_true_eq] at hr ⊢
  exact fun h => hr (hc _ h)

/-- The same outstanding requests and the same cancelled contexts leave the same live
requests. -/
theorem settled_of_eq {s s' : NetworkThread Arg Reply} (h : Settled s.ui (live s))
    (hout : outstanding s' = outstanding s) (hc : s'.cancelled = s.cancelled)
    (hui : s'.ui = s.ui) : Settled s'.ui (live s') := by
  rw [hui]
  exact h.sublist (live_sublist (by rw [hout]) (by rw [hc]; exact fun _ h => h))

/-- A step that meets the condition keeps the invariant. -/
theorem settled_step (empty : Reply) {done : List (NetworkAction Arg Reply)}
    {s : NetworkThread Arg Reply} {a : NetworkAction Arg Reply} (h : Settled s.ui (live s))
    (hG : FindsLive done s a) : Settled (s.step empty a).ui (live (s.step empty a)) := by
  have hmoves := moves_step empty s a
  generalize s.step empty a = s' at hmoves ⊢
  cases hmoves with
  | stays => exact h
  | calls type arg hui hlast =>
      rw [hui] at h
      exact h
  | reads type arg hui =>
      rw [hui] at h
      exact h
  | looksUp type arg last hui =>
      rw [hui] at h
      simp only [FindsLive, hui] at hG
      exact ⟨h, hG⟩
  | cancels type arg context hui =>
      rw [hui] at h
      refine List.eq_nil_iff_forall_not_mem.mpr fun r hr => ?_
      obtain ⟨hr, hc⟩ := mem_live.mp hr
      rw [List.mem_cons, not_or] at hc
      have hfound := h.2 r (mem_live.mpr ⟨hr, hc.2⟩)
      exact hc.1 (Option.some.inj hfound).symm
  | spares type arg hui =>
      rw [hui] at h
      refine List.eq_nil_iff_forall_not_mem.mpr fun r hr => ?_
      cases h.2 r hr
  | returns type arg other context hui hpool =>
      rw [hui] at h
      exact le_of_eq_of_le (congrArg List.length h) (Nat.zero_le 1)
  | misses type arg other hui hpool =>
      rw [hui] at h
      exact h
  | registers type arg other hui =>
      rw [hui] at h
      exact h
  | marks type arg other context hui =>
      rw [hui] at h
      exact h
  | posts type arg other context hui =>
      rw [hui] at h
      have hnone : (outstanding s).filter (fun r => r.context ∉ s.cancelled) = [] := h
      show (live _).length ≤ 1
      rw [live, outstanding_posts, List.filter_append, hnone, List.nil_append]
      exact List.length_filter_le _ _
  | postsOther _ task ha htask hui =>
      refine settled_of_eq h ?_ rfl rfl
      rw [outstanding_posts s task s.ui, htask, List.append_nil]
  | takes r queue hworker hqueue =>
      exact settled_of_eq h (outstanding_take hworker hqueue).symm rfl rfl
  | takesOther task queue worker hworker hqueue htask hrequests =>
      refine settled_of_eq h ?_ rfl rfl
      rw [outstanding_queue hrequests, outstanding_takeOther hworker hqueue htask]
  | starts r point hworker hpoint =>
      exact settled_of_eq h (outstanding_running hworker).symm rfl rfl
  | ends r cancelled point status retValue hworker hpoint hstatus =>
      exact settled_of_eq h (outstanding_running hworker).symm rfl rfl
  | unregisters r point hworker hpoint =>
      exact settled_of_eq h (outstanding_running hworker).symm rfl rfl
  | renews r hworker hpoint hstatus =>
      simp only [FindsLive, hworker] at hG
      obtain ⟨hbefore, hqueue⟩ := hG hpoint hstatus
      have hnone : (s.queue.flatMap taskRequests).filter (fun r => r.context ∉ s.cancelled) = [] :=
        List.filter_eq_nil_iff.mpr fun q hq => by simpa using hqueue q hq
      have hlen : ∀ x : Request Arg,
          ((x :: s.queue.flatMap taskRequests).filter fun r =>
            r.context ∉ s.cancelled).length ≤ 1 := by
        intro x
        rw [List.filter_cons, hnone]
        split <;> simp
      show Settled s.ui (live _)
      cases hui : s.ui with
      | idle => exact hlen _
      | differs => exact hlen _
      | readLast => exact hlen _
      | _ =>
          rw [hui] at hbefore
          exact hbefore.elim
  | invokes r hworker hnext =>
      exact settled_of_eq h (outstanding_running hworker).symm rfl rfl
  | finishes r hworker hpoint =>
      refine h.sublist (live_sublist ?_ fun _ hc => hc)
      rw [outstanding_running hworker]
      exact List.sublist_cons_self _ _
  | resets full solidity stub solidity_stub extension_stub worker hreset hworker hrequests =>
      refine settled_of_eq h ?_ rfl rfl
      rw [outstanding_queue hrequests, outstanding_queue hworker]
  | cancelsPool worker hnext hworker hrequests =>
      refine h.sublist (live_sublist ?_ fun _ hc => List.mem_append_right _ hc)
      rw [outstanding_queue hrequests, outstanding_queue hworker]
  | clearsPool worker hnext hworker hrequests =>
      refine settled_of_eq h ?_ rfl rfl
      rw [outstanding_queue hrequests, outstanding_queue hworker]

/-! ## Runs -/

/-- In every run whose steps meet the condition, at most one outstanding request has not
been cancelled. -/
theorem oneLive_run (empty : Reply) (full solidity : Bytes) (as : List (NetworkAction Arg Reply))
    (h : EveryStep (NetworkThread.step empty) (NetworkThread.start full solidity) FindsLive as) :
    (live (runFrom (NetworkThread.step empty) (NetworkThread.start full solidity)
      as)).length ≤ 1 := by
  have hstart : Settled (NetworkThread.start full solidity : NetworkThread Arg Reply).ui
      (live (NetworkThread.start full solidity : NetworkThread Arg Reply)) := Nat.zero_le 1
  have hsettled := EveryStep.invariant (I := fun _ s => Settled s.ui (live s)) hstart
    (fun done a hI hG => settled_step empty hI hG) h
  exact hsettled.length_le

/-- A request for an account is made again after the node was not available, and superseded
by one for a transaction. -/
def againAndSuperseded : List NumberAction :=
  requesting .Request_GetAccount 5 ++ answering .UNAVAILABLE 0 ++
    [.worker, .worker, .worker] ++ requesting .Request_CreateTransaction 6 ++
    [.rpcEnd .CANCELLED 0] ++ completing

/-- In that run one request is live. -/
theorem oneLive_superseded :
    (live (runFrom (NetworkThread.step 0) quietThread againAndSuperseded)).length ≤ 1 :=
  oneLive_run 0 [1] [2] againAndSuperseded (EveryStep.of_check (by decide +kernel))

/-- A superseded task completes while the newer request is queued; the third call then
finds nothing to cancel. -/
theorem two_live_requests :
    (live (runFrom (NetworkThread.step 0) quietThread
      (requesting .Request_GetAccount 5 ++ requesting .Request_CreateTransaction 6 ++
        answering .CANCELLED 0 ++ completing ++
          requesting .Request_ListWitnesses 7))).length = 2 := by
  decide

end TronWallet.Theorems
