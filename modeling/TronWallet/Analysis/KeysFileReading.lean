import TronWallet.Analysis.Stores
import TronWallet.Lib.StepLog

/-!
# What loading notes before it fails

`load` notes what it reads as it reads it, and whatever is thrown ends the reading where it
is.  `textLog` is the log of a text: each thing noted, in order, and whether the text is
read to its end.  It depends on the text and on which keys are stored, and on nothing
else.  The logs are put together as the calls are, so that each call of the loader has one
lemma (`loadInfo_logs`, `loadHint_logs`, `loadTables_logs`, `loadText_logs`) and
`load_logs` is their sum.
-/

set_option autoImplicit false

namespace TronWallet.Analysis

open TronWallet.Lib TronWallet.Model

variable (P : Platform)

/-! ## Calls with a log -/

/-- The call does to a part of the state what a log does to it, and returns exactly when the
log comes to its end. -/
def Logs {σ μ ε α : Type} (view : σ → μ) (act : μ → ε → μ) (f : Exec σ α) (s : σ)
    (l : StepLog ε) : Prop :=
  ∃ s', Exec.Ends f s (l.complete = true) s' ∧ view s' = l.run act (view s)

namespace Logs

variable {σ μ ε α β : Type} {view : σ → μ} {act : μ → ε → μ} {s : σ} {l l' : StepLog ε}

/-- A call that leaves the view has an empty log. -/
theorem of_ok {f : Exec σ α} {a : α} {s' : σ} (h : f s = .ok a s') (hview : view s' = view s) :
    Logs view act f s .done :=
  ⟨s', Or.inl ⟨rfl, a, h⟩, hview⟩

/-- A call that throws at once has a log that breaks off. -/
theorem of_error {f : Exec σ α} {e : Exn} (h : f s = .error e s) : Logs view act f s .broken :=
  ⟨s, Or.inr ⟨by simp, e, h⟩, rfl⟩

/-- The log of a call depends on what the call does only. -/
theorem congr {f g : Exec σ α} (h : f s = g s) (hg : Logs view act g s l) :
    Logs view act f s l := by
  obtain ⟨s', hends, hview⟩ := hg
  unfold Exec.Ends at hends
  rw [← h] at hends
  exact ⟨s', hends, hview⟩

/-- What follows a call that returns runs on the state the log leaves. -/
theorem bind {f : Exec σ α} {g : α → Exec σ β} (hf : Logs view act f s l)
    (hg : ∀ a s', f s = .ok a s' → view s' = l.run act (view s) → Logs view act (g a) s' l') :
    Logs view act (f >>= g) s (l.andThen l') := by
  obtain ⟨s₁, hends, hview⟩ := hf
  rcases hends with ⟨hdone, a, h⟩ | ⟨hdone, e, h⟩
  · obtain ⟨s₂, hends, hview'⟩ := hg a s₁ h hview
    refine ⟨s₂, ?_, ?_⟩
    · rw [StepLog.complete_andThen]
      exact Exec.Ends.bind (Or.inl ⟨hdone, a, h⟩) (fun a' h' => by
        rw [h] at h'
        cases h'
        exact hends) fun hnot => (hnot hdone).elim
    · rw [StepLog.run_andThen_of_complete act hdone, hview', hview]
  · refine ⟨s₁, Or.inr ⟨?_, e, by rw [Exec.bind_apply, h]⟩, ?_⟩
    · rw [StepLog.complete_andThen]
      exact fun hand => hdone hand.1
    · rw [StepLog.run_andThen_of_not_complete act hdone, hview]

/-- A value without state is needed first. -/
theorem ofExcept_bind {x : Except Exn α} {g : α → Exec σ β} {k : α → StepLog ε}
    (hg : ∀ a, Logs view act (g a) s (k a)) :
    Logs view act (Exec.ofExcept x >>= g) s (.after x k) := by
  cases x with
  | ok a => exact hg a
  | error e => exact of_error rfl

/-- The log of a call that looks at the state first. -/
theorem of_get {g : σ → Exec σ β} (hg : Logs view act (g s) s l) :
    Logs view act (get >>= g) s l := hg

/-- The log of a call that first changes what is not viewed. -/
theorem of_set {g : PUnit → Exec σ β} {s' : σ} (hview : view s' = view s)
    (hg : Logs view act (g ⟨⟩) s' l) : Logs view act (set s' >>= g) s l := by
  obtain ⟨s'', hends, hview'⟩ := hg
  exact ⟨s'', hends, by rw [hview', hview]⟩

/-- A step, and what follows it. -/
theorem single_bind {g : PUnit → Exec σ β} {s' : σ} {e : ε} (hview : view s' = act (view s) e)
    (hg : Logs view act (g ⟨⟩) s' l) :
    Logs view act (set s' >>= g) s ((StepLog.single e).andThen l) := by
  refine bind ⟨s', Or.inl ⟨rfl, ⟨⟩, rfl⟩, hview⟩ fun a s'' h _ => ?_
  cases h
  exact hg

/-- The log of a function without state. -/
theorem of_ofExcept (x : Except Exn α) :
    Logs view act (Exec.ofExcept x) s (.after x fun _ => .done) := by
  cases x with
  | ok a => exact of_ok rfl rfl
  | error e => exact of_error rfl

/-- A local variable is no part of what the log is about. -/
theorem withLocal {τ : Type} {init : τ} {f : Exec (σ × τ) Unit}
    (hf : Logs (fun x => view x.1) act f (s, init) l) :
    Logs view act (Exec.withLocal init f) s l := by
  obtain ⟨⟨s', t⟩, hends, hview⟩ := hf
  refine ⟨s', ?_, hview⟩
  rcases hends with ⟨hdone, a, h⟩ | ⟨hdone, e, h⟩
  · exact Or.inl ⟨hdone, t, by unfold Exec.withLocal; rw [h]⟩
  · exact Or.inr ⟨hdone, e, by unfold Exec.withLocal; rw [h]⟩

end Logs

/-- The call returns a value when a log comes to its end; else it throws, and has done to a
part of the state what the log does to it. -/
def LogsFailure {σ μ ε α : Type} (view : σ → μ) (act : μ → ε → μ) (f : Exec σ α) (s : σ) (b : α)
    (l : StepLog ε) : Prop :=
  (l.complete = true ∧ ∃ s', f s = .ok b s') ∨
    (¬ l.complete = true ∧ ∃ e s', f s = .error e s' ∧ view s' = l.run act (view s))

namespace LogsFailure

variable {σ μ ε α β : Type} {view : σ → μ} {act : μ → ε → μ} {s : σ} {l : StepLog ε} {b : β}

/-- The log of a call that returns without a change. -/
theorem of_returns {f : Exec σ β} (h : ∃ s', f s = .ok b s') :
    LogsFailure view act f s b .done :=
  Or.inl ⟨rfl, h⟩

/-- The log behind a function without state is that of its result. -/
theorem ofExcept_bind {x : Except Exn α} {g : α → Exec σ β} {k : α → StepLog ε}
    (hg : ∀ a, LogsFailure view act (g a) s b (k a)) :
    LogsFailure view act (Exec.ofExcept x >>= g) s b (.after x k) := by
  cases x with
  | ok a => exact hg a
  | error e => exact Or.inr ⟨by simp, e, s, rfl, rfl⟩

/-- What follows the call with the log always returns. -/
theorem of_bind {f : Exec σ α} {g : α → Exec σ β} (hf : Logs view act f s l)
    (hg : ∀ a s', ∃ s'', g a s' = .ok b s'') : LogsFailure view act (f >>= g) s b l := by
  obtain ⟨s', ⟨hdone, a, h⟩ | ⟨hdone, e, h⟩, hview⟩ := hf
  · obtain ⟨s'', h'⟩ := hg a s'
    exact Or.inl ⟨hdone, s'', by rw [Exec.bind_apply, h]; exact h'⟩
  · exact Or.inr ⟨hdone, e, s', by rw [Exec.bind_apply, h], hview⟩

end LogsFailure

/-- The log of a range-based loop with the rounds left to it. -/
def loopLog {ε : Type} (body : Bytes → StepLog ε) : ℕ → Bytes → StepLog ε
  | 0, _ => .done
  | rounds + 1, rest =>
    if rest = [] then .done
    else .after (RLP.sizeAsEncoded rest) fun n =>
      .after (RLP.check true true (cropped rest 0 n)) fun _ =>
        (body (cropped rest 0 n)).andThen (loopLog body rounds (croppedFrom rest n))

/-- The log of a range-based loop over an item. -/
def listLog {ε : Type} (d : Bytes) (body : Bytes → StepLog ε) : StepLog ε :=
  if RLP.isList d then .after (RLP.payload d) fun p => loopLog body p.length p else .done

/-- **The range-based loop logs what its body logs**, item after item; the body may rely on
what every step keeps. -/
theorem forEach_logs {σ μ ε : Type} {view : σ → μ} {act : μ → ε → μ} {I : μ → Prop}
    (hact : ∀ m e, I m → I (act m e)) {body : Bytes → Exec σ Unit} {log : Bytes → StepLog ε}
    (hbody : ∀ d s, I (view s) → Logs view act (body d) s (log d)) (d : Bytes) {s : σ}
    (hs : I (view s)) : Logs view act (RLP.forEach d body) s (listLog d log) := by
  have hloop : ∀ rounds rest s, I (view s) →
      Logs view act (RLP.forEachLoop body rounds rest) s (loopLog log rounds rest) := by
    intro rounds
    induction rounds with
    | zero => exact fun rest s _ => .of_ok rfl rfl
    | succ rounds ih =>
        intro rest s hs
        unfold RLP.forEachLoop loopLog
        split
        · exact .of_ok rfl rfl
        · refine .ofExcept_bind fun n => .ofExcept_bind fun _ =>
            .bind (hbody _ s hs) fun _ s' _ hview => ih _ s' ?_
          rw [hview]
          exact StepLog.run_keeps act hact _ hs
  unfold RLP.forEach listLog
  split
  · exact .ofExcept_bind fun p => hloop _ _ s hs
  · exact .of_ok rfl rfl

/-! ## What is noted -/

/-- One thing noted while the keys file is read. -/
inductive Noting where
  /-- The identifier and the address of an account, in the two lookup tables. -/
  | lookup (uuid : H128) (addr : Address)
  /-- The information of an account. -/
  | info (addr : Address) (ki : KeyInfo)
  /-- The address of a key, in the store. -/
  | address (uuid : H128) (addr : Address)
  /-- A password hint. -/
  | hint (passHash : H256) (text : Bytes)

/-- Noting one thing. -/
def note (m : KeyManager) : Noting → KeyManager
  | .lookup uuid addr => m.noteLookup uuid addr
  | .info addr ki => { m with m_keyInfo := m.m_keyInfo.insert addr ki }
  | .address uuid addr => { m with m_store := (m.m_store.noteAddress uuid addr).2 }
  | .hint passHash text =>
    { m with m_passwordHint := m.m_passwordHint.insert passHash text }

/-- The log of the fields that follow the identifier and the address of an account. -/
def fieldsLog (uuid : H128) (addr : Address) (d : Bytes) (i : RLP) : StepLog Noting :=
  .after (i.item 2) fun (d2, i) =>
    .after (RLP.toHash 32 d2) fun passHash =>
      .after (i.item 3) fun (d3, i) =>
        .after (RLP.toString d3) fun name =>
          .after (RLP.itemCount d) fun n =>
            .after (if 4 < n then (do
                let (d4, _) ← i.item 4
                RLP.toString d4)
              else .ok []) fun hint =>
                if uuid ≠ 0 then
                  ⟨[.info addr ⟨passHash, name, hint⟩, .address uuid addr], true⟩
                else .single (.info addr ⟨passHash, name, hint⟩)

/-- The log of one account, given which keys are stored. -/
def infoLog (stored : H128 → Bool) (d : Bytes) : StepLog Noting :=
  let i : RLP := { m_data := d }
  .after (i.item 1) fun (d1, i) =>
    .after (RLP.toHash 16 d1) fun uuid =>
      .after (i.item 0) fun (d0, i) =>
        .after (RLP.toHash 20 d0) fun addr =>
          if uuid ≠ 0 ∧ stored uuid = false then .done
          else if uuid ≠ 0 then
            (StepLog.single (.lookup uuid addr)).andThen (fieldsLog uuid addr d i)
          else fieldsLog uuid addr d i

/-- The log of one password hint. -/
def hintLog (d : Bytes) : StepLog Noting :=
  let i : RLP := { m_data := d }
  .after (i.item 0) fun (d0, i) =>
    .after (RLP.toHash 32 d0) fun passHash =>
      .after (i.item 1) fun (d1, _) =>
        .after (RLP.toString d1) fun text => .single (.hint passHash text)

/-- The log of the accounts, the hints and the default password. -/
def tablesLog (stored : H128 → Bool) (s : RLP) : StepLog Noting :=
  .after (s.item 1) fun (d1, s) => (listLog d1 (infoLog stored)).andThen <|
    .after (s.item 2) fun (d2, s) => (listLog d2 hintLog).andThen <|
      .after (s.item 3) fun (d3, _) => .after (RLP.toString d3) fun _ => .done

/-- The log of a text; one that is not of version 1 is not read further. -/
def textLog (stored : H128 → Bool) (bs : Bytes) : StepLog Noting :=
  .after (RLP.ofBytes bs) fun s => .after (s.item 0) fun (d0, s) =>
    .after (RLP.toInt 4 d0) fun version =>
      if version = 1 then tablesLog stored s else .done

/-! ## The log is what the calls do -/

/-- Noting something neither stores a key nor removes one. -/
theorem contains_note (m : KeyManager) (e : Noting) :
    (note m e).m_store.contains = m.m_store.contains := by
  cases e with
  | address uuid addr =>
      funext u
      have hkey := congrArg Option.isSome (encryptedKey_noteAddress m.m_store uuid addr u)
      rw [Option.isSome_map, Option.isSome_map] at hkey
      unfold SecretStore.contains note
      rw [Bool.eq_iff_iff, decide_eq_true_eq, decide_eq_true_eq, ← AList.lookup_isSome,
        ← AList.lookup_isSome, hkey]
  | lookup uuid addr => rfl
  | info addr ki => rfl
  | hint passHash text => rfl

/-- The part of the loop's body after the identifier has been noted. -/
theorem fields_logs (uuid : H128) (addr : Address) (d : Bytes) (i : RLP) (w : Opened)
    (saveRequired : Bool) :
    Logs (fun x : Opened × Bool => x.1.m) note (do
        let (d2, i) ← Exec.ofExcept (i.item 2)
        let passHash : H256 ← Exec.ofExcept (RLP.toHash 32 d2)
        let (d3, i) ← Exec.ofExcept (i.item 3)
        let name ← Exec.ofExcept (RLP.toString d3)
        let n ← Exec.ofExcept (RLP.itemCount d)
        let hint ← (if 4 < n then do
            let (d4, _) ← Exec.ofExcept (i.item 4)
            Exec.ofExcept (RLP.toString d4)
          else pure [] : Exec (Opened × Bool) Bytes)
        let w := { w with m :=
          { w.m with m_keyInfo := w.m.m_keyInfo.insert addr ⟨passHash, name, hint⟩ } }
        if uuid ≠ 0 then
          let (noted, store) := w.m.m_store.noteAddress uuid addr
          set ({ w with m := { w.m with m_store := store } }, saveRequired || noted)
        else
          set (w, saveRequired))
      (w, saveRequired) (fieldsLog uuid addr d i) := by
  unfold fieldsLog
  refine .ofExcept_bind fun ⟨d2, i⟩ => .ofExcept_bind fun passHash => .ofExcept_bind fun ⟨d3, i⟩ =>
    .ofExcept_bind fun name => .ofExcept_bind fun n => ?_
  have hhint : ((if 4 < n then do
        let (d4, _) ← Exec.ofExcept (i.item 4)
        Exec.ofExcept (RLP.toString d4)
      else pure [] : Exec (Opened × Bool) Bytes)) =
      Exec.ofExcept (if 4 < n then (do
        let (d4, _) ← i.item 4
        RLP.toString d4)
      else .ok []) := by
    split
    · funext x
      cases h : i.item 4 <;> rfl
    · rfl
  dsimp only at hhint ⊢
  rw [hhint]
  refine .ofExcept_bind fun hint => ?_
  split
  · exact ⟨_, Or.inl ⟨rfl, (), rfl⟩, rfl⟩
  · exact ⟨_, Or.inl ⟨rfl, (), rfl⟩, rfl⟩

/-- The log of an account that is listed. -/
theorem loadInfo_logs {stored : H128 → Bool} (d : Bytes) (x : Opened × Bool)
    (hstored : x.1.m.m_store.contains = stored) :
    Logs (fun x : Opened × Bool => x.1.m) note (KeyManager.loadInfo d) x (infoLog stored d) := by
  obtain ⟨w, saveRequired⟩ := x
  dsimp only at hstored
  unfold KeyManager.loadInfo infoLog
  refine .ofExcept_bind fun ⟨d1, i⟩ => .ofExcept_bind fun uuid => .ofExcept_bind fun ⟨d0, i⟩ =>
    .ofExcept_bind fun addr => ?_
  refine .of_get ?_
  dsimp only
  rw [hstored]
  split
  · exact .of_ok rfl rfl
  · by_cases hzero : uuid ≠ 0
    · have hw : (if uuid ≠ 0 then ({ w with m := w.m.noteLookup uuid addr } : Opened) else w) =
          { w with m := w.m.noteLookup uuid addr } := if_pos hzero
      rw [hw, show (if uuid ≠ 0 then (StepLog.single (.lookup uuid addr)).andThen
        (fieldsLog uuid addr d i) else fieldsLog uuid addr d i) = _ from if_pos hzero]
      exact .single_bind rfl (fields_logs uuid addr d i _ saveRequired)
    · have hw : (if uuid ≠ 0 then ({ w with m := w.m.noteLookup uuid addr } : Opened) else w) =
          w := if_neg hzero
      rw [hw, show (if uuid ≠ 0 then (StepLog.single (.lookup uuid addr)).andThen
        (fieldsLog uuid addr d i) else fieldsLog uuid addr d i) = _ from if_neg hzero]
      exact .of_set rfl (fields_logs uuid addr d i w saveRequired)

/-- The log of a hint. -/
theorem loadHint_logs (d : Bytes) (w : Opened) :
    Logs Opened.m note (KeyManager.loadHint d) w (hintLog d) := by
  unfold KeyManager.loadHint hintLog
  exact .ofExcept_bind fun ⟨d0, i⟩ => .ofExcept_bind fun passHash => .ofExcept_bind fun ⟨d1, _⟩ =>
    .ofExcept_bind fun text => ⟨_, Or.inl ⟨rfl, (), rfl⟩, rfl⟩

/-- Saving the store afterwards changes no table. -/
theorem loadInfos_logs {stored : H128 → Bool} (d : Bytes) (w : Opened)
    (hstored : w.m.m_store.contains = stored) :
    Logs Opened.m note (KeyManager.loadInfos d) w (listLog d (infoLog stored)) := by
  have hloop := Logs.withLocal (forEach_logs (I := fun m => m.m_store.contains = stored)
    (fun m e hm => (contains_note m e).trans hm) (fun d x hx => loadInfo_logs d x hx) d
    (s := (w, false)) hstored)
  rw [← StepLog.andThen_done (listLog d (infoLog stored))]
  refine hloop.bind fun saveRequired w' _ _ => ?_
  split
  · exact .of_ok rfl rfl
  · exact .of_ok rfl rfl

/-- The log of the tables. -/
theorem loadTables_logs {stored : H128 → Bool} (s : RLP) (w : Opened)
    (hstored : w.m.m_store.contains = stored) :
    Logs Opened.m note (KeyManager.loadTables s) w (tablesLog stored s) := by
  unfold KeyManager.loadTables tablesLog
  exact .ofExcept_bind fun ⟨d1, s⟩ => .bind (loadInfos_logs d1 w hstored) fun _ w₁ _ _ =>
    .ofExcept_bind fun ⟨d2, s⟩ => .bind
      (forEach_logs (I := fun _ => True) (fun _ _ _ => trivial) (fun d x _ => loadHint_logs d x) d2
        trivial) fun _ w₂ _ _ =>
    .ofExcept_bind fun ⟨d3, s⟩ => .of_ofExcept _

/-- The log of the text of a keys file. -/
theorem loadText_logs {stored : H128 → Bool} (key : H128) (pass bs : Bytes) (w : Opened)
    (hstored : w.m.m_store.contains = stored) :
    LogsFailure Opened.m note (KeyManager.loadText P key pass bs) w true (textLog stored bs) := by
  unfold KeyManager.loadText textLog
  refine .ofExcept_bind fun s => .ofExcept_bind fun ⟨d0, s⟩ => .ofExcept_bind fun version => ?_
  dsimp only
  split
  · exact .of_bind (loadTables_logs s w hstored) fun default w' => ⟨_, rfl⟩
  · exact .of_returns ⟨_, rfl⟩

/-- **When loading fails and what it has noted by then.** -/
theorem load_logs (pass : Bytes) (w : Opened) (hkeys : w.host.keys ≠ []) :
    let key := KeyManager.fileKey P pass w.host.salt
    let log := textLog w.m.m_store.contains (P.decryptSymNoAuth key 0 w.host.keys)
    (log.complete = true ∧ Exec.result? (KeyManager.load P pass) w = some true) ∨
      (¬ log.complete = true ∧ Exec.result? (KeyManager.load P pass) w = some false ∧
        (Exec.finalState (KeyManager.load P pass) w).m = log.run note (withFileKey key w).m) := by
  intro key log
  have hbody : KeyManager.loadBody P pass w =
      KeyManager.loadText P key pass (P.decryptSymNoAuth key 0 w.host.keys)
        (withFileKey key w) := by
    unfold KeyManager.loadBody
    rw [Exec.bind_apply, Exec.get_apply]
    dsimp only
    rw [if_neg hkeys]
    rfl
  have hlogs : LogsFailure Opened.m note
      (KeyManager.loadText P key pass (P.decryptSymNoAuth key 0 w.host.keys)) (withFileKey key w)
      true log := loadText_logs P key pass _ _ rfl
  rcases hlogs with ⟨hdone, w', h⟩ | ⟨hdone, e, w', h, hview⟩
  · have hload : KeyManager.load P pass w = .ok true w' := by
      rw [KeyManager.load, Exec.catching_apply, hbody, h]
    exact Or.inl ⟨hdone, Exec.result?_of_ok hload⟩
  · have hload : KeyManager.load P pass w = .ok false w' := by
      rw [KeyManager.load, Exec.catching_apply, hbody, h]
    exact Or.inr ⟨hdone, Exec.result?_of_ok hload, by rw [Exec.finalState_of_ok hload, hview]⟩

end TronWallet.Analysis
