import TronWallet.Lib.GuardedRun
import TronWallet.Model.LoadedForm

/-!
# The control of the form of the loaded items

The pointer to the control is used at three places: `OnItemClick` tests it before the old
control is destroyed, but neither tests what `CreateShowInfoControl` has returned, nor does
the destructor test whether there is a control.  A run is safe as long as each click on a
row hits an item that has a control, and the form is only destroyed after such a click.

The results hold for items of any kind (`noNullControl_iff`); of the transactions those have
a control whose first contract is a transfer or a freeze (`createShowInfoControl_isSome_iff`).
-/

set_option autoImplicit false

namespace TronWallet.Theorems

open TronWallet.Lib TronWallet.Model TronWallet.Model.LoadedForm

variable {T : Type}

/-! ## What has happened -/

/-- The list that has been loaded last. -/
def lastLoaded (before : List (LoadedFormAction T)) : List T :=
  before.foldl (fun datas a => match a with
    | .loadDatas datas' => datas'
    | _ => datas) []

/-- A row of the list has been clicked. -/
def RowClicked (before : List (LoadedFormAction T)) : Prop :=
  ∃ done row later, before = done ++ .onItemClick row :: later ∧ row < (lastLoaded done).length

/-- The list that is shown is that of the last load. -/
theorem lastLoaded_concat (before : List (LoadedFormAction T)) (a : LoadedFormAction T) :
    lastLoaded (before ++ [a]) = match a with
      | .loadDatas datas => datas
      | _ => lastLoaded before := by
  unfold lastLoaded
  rw [List.foldl_append, List.foldl_cons, List.foldl_nil]

/-- A row has been clicked before, or it is clicked in the last step. -/
theorem rowClicked_concat (before : List (LoadedFormAction T)) (a : LoadedFormAction T) :
    RowClicked (before ++ [a]) ↔
      RowClicked before ∨ ∃ row, a = .onItemClick row ∧ row < (lastLoaded before).length := by
  constructor
  · rintro ⟨done, row, later, heq, hrow⟩
    rcases List.eq_nil_or_concat later with rfl | ⟨later', b, rfl⟩
    · obtain ⟨rfl, ha⟩ := List.append_inj' heq rfl
      exact Or.inr ⟨row, (List.cons.inj ha).1, hrow⟩
    · rw [List.concat_eq_append, ← List.cons_append, ← List.append_assoc] at heq
      obtain ⟨rfl, -⟩ := List.append_inj' heq rfl
      exact Or.inl ⟨done, row, later', rfl, hrow⟩
  · rintro (⟨done, row, later, rfl, hrow⟩ | ⟨row, rfl, hrow⟩)
    · exact ⟨done, row, later ++ [a], by simp, hrow⟩
    · exact ⟨before, row, [], rfl, hrow⟩

/-! ## The property and the condition -/

variable (create : T → Option InfoForm)

/-- **No call goes through a null pointer** at a step. -/
def CallsControl (_ : List (LoadedFormAction T)) (form : Option (LoadedForm T))
    (a : LoadedFormAction T) : Prop :=
  ∀ s, form = some s → ∀ s', perform create a s ≠ .error .nullPointer s'

/-- The condition of a step while the form exists: a row that is clicked holds an item with
a control, and the form is destroyed after a row has been clicked. -/
def ControlMade (before : List (LoadedFormAction T)) (_ : Option (LoadedForm T))
    (a : LoadedFormAction T) : Prop :=
  .destroy ∉ before →
    match a with
    | .loadDatas _ => True
    | .onItemClick row => ∀ data, (lastLoaded before)[row]? = some data → (create data).isSome
    | .destroy => RowClicked before

/-! ## What the actions do -/

section Actions

variable (s : LoadedForm T)

/-- A control that exists is called. -/
theorem callControl_of_some {s : LoadedForm T} {c : InfoForm} (h : s.info_control_ = some c) :
    callControl s = .ok () s := by
  unfold callControl
  rw [Exec.bind_apply, Exec.get_apply]
  simp only [h]
  rfl

/-- Without a control the call goes through a null pointer. -/
theorem callControl_of_none {s : LoadedForm T} (h : s.info_control_ = none) :
    callControl s = .error .nullPointer s := by
  unfold callControl
  rw [Exec.bind_apply, Exec.get_apply]
  simp only [h]
  rfl

/-- A click beyond the list does nothing. -/
theorem onItemClick_of_none {row : ℕ} (h : s.datas_[row]? = none) :
    onItemClick create row s = .ok () s := by
  unfold onItemClick
  rw [Exec.bind_apply, Exec.get_apply]
  simp only [h]
  rfl

/-- A click on a row replaces the control and then calls the new one. -/
theorem onItemClick_of_some {row : ℕ} {data : T} (h : s.datas_[row]? = some data) :
    onItemClick create row s = callControl { s with info_control_ := create data } := by
  unfold onItemClick
  rw [Exec.bind_apply, Exec.get_apply]
  simp only [h]
  cases hcontrol : s.info_control_ with
  | none => rfl
  | some c =>
      simp only [Option.isSome_some, if_true]
      rw [Exec.bind_apply, callControl_of_some hcontrol]
      rfl

variable {s}

/-- A click that does not crash leaves the form it ends with. -/
theorem step_onItemClick {row : ℕ} {s' : LoadedForm T}
    (h : onItemClick create row s = .ok () s') :
    LoadedForm.step create (some s) (.onItemClick row) = some s' := by
  have hperform : perform create (.onItemClick row) s = .ok () s' := h
  simp only [LoadedForm.step, hperform]

/-- Destroying the form, where its control can be called, leaves none. -/
theorem step_destroy {s' : LoadedForm T} (h : callControl s = .ok () s') :
    LoadedForm.step create (some s) .destroy = none := by
  have hperform : perform create .destroy s = .ok () s' := h
  simp only [LoadedForm.step, hperform]

end Actions

/-! ## Runs -/

/-- The invariant: the form holds the last list, and a control exactly if a row has been
clicked; it is gone once it has been destroyed. -/
def FormTracks (before : List (LoadedFormAction T)) (form : Option (LoadedForm T)) : Prop :=
  (.destroy ∈ before → form = none) ∧
    (.destroy ∉ before → ∃ s, form = some s ∧ s.datas_ = lastLoaded before ∧
      (s.info_control_.isSome ↔ RowClicked before))

/-- Where the invariant holds, the condition of a step is exactly that no call goes through
a null pointer. -/
theorem FormTracks.callsControl_iff {before : List (LoadedFormAction T)}
    {form : Option (LoadedForm T)} (h : FormTracks before form) (a : LoadedFormAction T) :
    CallsControl create before form a ↔ ControlMade create before form a := by
  unfold CallsControl ControlMade
  by_cases hgone : .destroy ∈ before
  · rw [h.1 hgone]
    simp [hgone]
  obtain ⟨s, rfl, hdatas, hcontrol⟩ := h.2 hgone
  simp only [hgone, not_false_eq_true, true_imp_iff, Option.some.injEq, forall_eq']
  cases a with
  | loadDatas datas =>
      refine iff_of_true ?_ trivial
      intro s' h
      cases h
  | onItemClick row =>
      change (∀ s', onItemClick create row s ≠ _) ↔ _
      dsimp only
      rw [← hdatas]
      cases hrow : s.datas_[row]? with
      | none =>
          rw [onItemClick_of_none create s hrow]
          simp
      | some data =>
          rw [onItemClick_of_some create s hrow]
          cases hmade : create data with
          | none =>
              rw [callControl_of_none rfl]
              simp [hmade]
          | some c =>
              rw [callControl_of_some rfl]
              simp [hmade]
  | destroy =>
      change (∀ s', callControl s ≠ _) ↔ _
      dsimp only
      rw [← hcontrol]
      cases hshown : s.info_control_ with
      | none =>
          rw [callControl_of_none hshown]
          simp
      | some c =>
          rw [callControl_of_some hshown]
          simp

/-- A step without a call through a null pointer preserves the invariant. -/
theorem FormTracks.step {before : List (LoadedFormAction T)} {form : Option (LoadedForm T)}
    (h : FormTracks before form) {a : LoadedFormAction T}
    (hcalls : ControlMade create before form a) :
    FormTracks (before ++ [a]) (LoadedForm.step create form a) := by
  by_cases hgone : .destroy ∈ before
  · have hform := h.1 hgone
    constructor
    · intro _
      rw [hform]
      rfl
    · intro hstill
      exact absurd (List.mem_append_left _ hgone) hstill
  obtain ⟨s, rfl, hdatas, hcontrol⟩ := h.2 hgone
  have hmade := hcalls hgone
  cases a with
  | loadDatas datas =>
      have hstill : .destroy ∉ before ++ [.loadDatas datas] := by simp [hgone]
      refine ⟨fun hmem => absurd hmem hstill, fun _ => ⟨_, rfl, ?_, ?_⟩⟩
      · rw [lastLoaded_concat]
      · rw [rowClicked_concat]
        simpa using hcontrol
  | onItemClick row =>
      have hstill : .destroy ∉ before ++ [.onItemClick row] := by simp [hgone]
      refine ⟨fun hmem => absurd hmem hstill, fun _ => ?_⟩
      rw [lastLoaded_concat, rowClicked_concat]
      cases hrow : s.datas_[row]? with
      | none =>
          refine ⟨s, step_onItemClick create (onItemClick_of_none create s hrow), hdatas, ?_⟩
          have hbeyond : ¬ row < (lastLoaded before).length := by
            rw [← hdatas]
            exact not_lt.mpr (List.getElem?_eq_none_iff.mp hrow)
          simp [hcontrol, hbeyond]
      | some data =>
          obtain ⟨c, hc⟩ := Option.isSome_iff_exists.mp (hmade data (by rw [← hdatas]; exact hrow))
          have hwithin : row < (lastLoaded before).length := by
            rw [← hdatas]
            exact (List.getElem?_eq_some_iff.mp hrow).1
          have hclick := onItemClick_of_some create s hrow
          rw [callControl_of_some hc] at hclick
          refine ⟨_, step_onItemClick create hclick, hdatas, ?_⟩
          simp [hc, hwithin]
  | destroy =>
      refine ⟨fun _ => ?_, fun hstill => absurd (List.mem_append_right _ (by simp)) hstill⟩
      obtain ⟨c, hc⟩ := Option.isSome_iff_exists.mp (hcontrol.mpr hmade)
      exact step_destroy create (callControl_of_some hc)

/-- **Exactly the runs in which no call goes through a null pointer**, for items of any
kind. -/
theorem noNullControl_iff (actions : List (LoadedFormAction T)) :
    EveryStep (LoadedForm.step create) (some {}) (CallsControl create) actions ↔
      EveryStep (LoadedForm.step create) (some {}) (ControlMade create) actions := by
  have hstart : FormTracks (T := T) [] (some {}) := by
    refine ⟨fun hmem => absurd hmem List.not_mem_nil, fun _ => ⟨_, rfl, rfl, ?_⟩⟩
    refine iff_of_false (by simp) ?_
    rintro ⟨done, row, later, heq, -⟩
    simp at heq
  refine EveryStep.congr_of_invariant (I := FormTracks) hstart ?_ ?_
  · intro done a htracks hcalls
    exact htracks.step create ((htracks.callsControl_iff create a).mp hcalls)
  · intro done a htracks
    exact htracks.callsControl_iff create a

/-! ## Loaded transactions -/

/-- The control of a transaction. -/
def controlOf (t : Transaction) : Option InfoForm := createShowInfoControl (.transaction t)

/-- The first contract of a transaction is one that is shown. -/
def ShownFirst (t : Transaction) : Prop :=
  ∃ contract ∈ t.raw_data.contract.head?,
    contract.type = .TransferContract ∨ contract.type = .TransferAssetContract ∨
      contract.type = .FreezeBalanceContract

/-- There is a control for exactly the contract types that are shown. -/
theorem controlOf_isSome_iff (t : Transaction) : (controlOf t).isSome ↔ ShownFirst t := by
  unfold controlOf createShowInfoControl ShownFirst
  cases hcontract : t.raw_data.contract with
  | nil => simp [hcontract]
  | cons contract rest =>
      simp only [hcontract, List.head?_cons, Option.mem_def, Option.some.injEq, exists_eq_left']
      cases contract.type <;> simp

/-- The condition for transactions: a row that is clicked holds one whose first contract is
shown, and the form is destroyed after a row has been clicked. -/
def ShowsTransactions (before : List (LoadedFormAction Transaction))
    (_ : Option (LoadedForm Transaction)) (a : LoadedFormAction Transaction) : Prop :=
  .destroy ∉ before →
    match a with
    | .loadDatas _ => True
    | .onItemClick row => ∀ t, (lastLoaded before)[row]? = some t → ShownFirst t
    | .destroy => RowClicked before

/-- **Exactly the runs in which the control is there whenever it is used.** -/
theorem detailControl_iff (actions : List (LoadedFormAction Transaction)) :
    EveryStep (LoadedForm.step controlOf) (some {}) (CallsControl controlOf) actions ↔
      EveryStep (LoadedForm.step controlOf) (some {}) ShowsTransactions actions := by
  have hsame : ∀ before form a,
      ControlMade controlOf before form a ↔ ShowsTransactions before form a := by
    intro before form a
    unfold ControlMade ShowsTransactions
    cases a with
    | onItemClick row => simp only [controlOf_isSome_iff]
    | _ => exact Iff.rfl
  rw [noNullControl_iff]
  constructor
  · intro h
    exact h.mono fun before form a => (hsame before form a).mp
  · intro h
    exact h.mono fun before form a => (hsame before form a).mpr

/-- A transfer. -/
def loadedTransfer : Transaction where
  raw_data := { contract := [{ type := .TransferContract, parameter := ⟨[97], [10, 1, 65]⟩ }] }

/-- The form is destroyed before anything has been clicked. -/
theorem destroyed_without_click :
    ¬ EveryStep (LoadedForm.step controlOf) (some {}) (CallsControl controlOf)
      [.loadDatas [loadedTransfer], .destroy] := by
  intro h
  have hdestroy := h [.loadDatas [loadedTransfer]] .destroy [] rfl
  exact hdestroy _ rfl _ rfl

end TronWallet.Theorems
