import TronWallet.Model.Exec
import TronWallet.Model.InfoForms

/-!
# The form of the loaded items

`CLoadedForm<T>`: the list of the items that have been loaded and the control that shows
the item clicked last.  The control is made by `CreateShowInfoControl`, which returns no
control for some items, and is a parameter as it is in the template.
-/

set_option autoImplicit false

namespace TronWallet.Model

variable {T : Type}

/-- SOURCE: wallet/gui/loaded_form.h:124-130 -/
structure LoadedForm (T : Type) where
  datas_ : List T := []
  info_control_ : Option InfoForm := none

/-- What happens to a form. -/
inductive LoadedFormAction (T : Type) where
  | loadDatas (datas : List T)
  /-- The button of a row of the list is pressed, `GetItemIndex` having given its index. -/
  | onItemClick (row : ℕ)
  /-- The form is destroyed. -/
  | destroy

namespace LoadedForm

/-- A call through the pointer to the control. -/
def callControl : Exec (LoadedForm T) Unit := do
  let s ← get
  match s.info_control_ with
  | some _ => return
  | none => throw .nullPointer

/-- SOURCE: wallet/gui/loaded_form.h:97-106 -/
def loadDatas (datas : List T) : Exec (LoadedForm T) Unit :=
  modify fun s => { s with datas_ := datas }

/-- Shows the control of an item; `UICreate` is called through the pointer.
SOURCE: wallet/gui/loaded_form.h:108-120 -/
def onItemClick (create : T → Option InfoForm) (row : ℕ) : Exec (LoadedForm T) Unit := do
  let s ← get
  match s.datas_[row]? with
  | none => return
  | some data =>
    if s.info_control_.isSome then callControl
    set { s with info_control_ := create data }
    callControl

/-- The destructor; `UIDestroy` is called through the pointer.
SOURCE: wallet/gui/loaded_form.h:91-95 -/
def destroy : Exec (LoadedForm T) Unit := callControl

/-- An action. -/
def perform (create : T → Option InfoForm) : LoadedFormAction T → Exec (LoadedForm T) Unit
  | .loadDatas datas => loadDatas datas
  | .onItemClick row => onItemClick create row
  | .destroy => destroy

/-- What an action leaves: nothing once the form is destroyed, or the program has ended in a
call through a null pointer. -/
def step (create : T → Option InfoForm) (form : Option (LoadedForm T))
    (a : LoadedFormAction T) : Option (LoadedForm T) :=
  match form with
  | none => none
  | some s =>
    match perform create a s, a with
    | .ok _ _, .destroy => none
    | .ok _ s', _ => some s'
    | .error _ _, _ => none

end LoadedForm

end TronWallet.Model
