import TronWallet.Analysis.NetworkSteps
import TronWallet.Model.ConnectionForm
import TronWallet.Reference.Formats
import TronWallet.Theorems.JsonFiles

/-!
# Saved and live node settings

The form accepts a node whose two fields are both empty, and one whose address has the
pattern of an address somewhere in it.  For empty fields it still passes `":"` to
`ReSetSub`, which takes that for a new endpoint; an address that only contains one is
passed on whole; and a port may hold a character that the JSON reader refuses, so that the
next start does not read the file.  `ProperNode` is what is left: the address is one and the
port can be read back, or nothing is entered where nothing was before.

The task of `ReSetSub` runs while the UI thread goes on, so the statement is about every run
from the state in which the task begins to one in which it is over (`settings_agree_iff`).
The next start reads the file with the wallet's own reader; `load_saved` says what it finds.
-/

set_option autoImplicit false

namespace TronWallet.Theorems

open TronWallet.Lib TronWallet.Model TronWallet.Analysis TronWallet.Reference

variable {Arg Reply : Type}

/-! ## Addresses -/

/-- One to three digits, a number below 256. -/
def IsOctet (s : Bytes) : Prop :=
  1 ≤ s.length ∧ s.length ≤ 3 ∧ s.all isDigit = true ∧
    s.foldl (fun n c => 10 * n + (c.toNat - 48)) 0 ≤ 255

instance (s : Bytes) : Decidable (IsOctet s) := by
  unfold IsOctet
  infer_instance

/-- A dotted-quad address. -/
def DottedQuad (s : Bytes) : Prop :=
  ∃ a b c d, IsOctet a ∧ IsOctet b ∧ IsOctet c ∧ IsOctet d ∧
    s = a ++ 46 :: (b ++ 46 :: (c ++ 46 :: d))

/-! ## The property -/

/-- The settings of one node agree: with both fields given the live endpoint is an address and
the port, and what the next start computes; with both empty it is what it was. -/
structure NodeAgrees (address port before after nextStart : Bytes) : Prop where
  given : address ≠ [] → port ≠ [] → ∃ quad, DottedQuad quad ∧ after = endpoint quad port
  empty : address = [] → port = [] → after = before
  saved : address ≠ [] → port ≠ [] → after = nextStart

/-- The condition on the fields of one node and its endpoint: an address and a port without
NULs that the JSON reader lets through, or nothing where nothing was before. -/
def ProperNode (address port before : Bytes) : Prop :=
  (DottedQuad address ∧ CleanText port) ∨
    (address = [] ∧ port = [] ∧ before = endpoint [] [])

/-! ## The task of ReSetSub -/

/-- A task of `ReSetSub` with given endpoints is running. -/
def Resetting (full solidity : Bytes) : Worker Arg Reply → Prop
  | .reSetSub full' solidity' _ => full' = full ∧ solidity' = solidity
  | _ => False

instance (full solidity : Bytes) (worker : Worker Arg Reply) :
    Decidable (Resetting full solidity worker) := by
  cases worker <;> unfold Resetting <;> infer_instance

/-- Where the task stands. -/
theorem Resetting.point {full solidity : Bytes} {worker : Worker Arg Reply}
    (h : Resetting full solidity worker) : ∃ point, worker = .reSetSub full solidity point := by
  cases worker with
  | reSetSub full' solidity' point =>
      obtain ⟨rfl, rfl⟩ := h
      exact ⟨point, rfl⟩
  | _ => exact h.elim

/-- The stubs are those of the endpoints. -/
def Connected (s : NetworkThread Arg Reply) : Prop :=
  s.stub_ = s.full_address_port_ ∧ s.solidity_stub_ = s.solidity_address_port_ ∧
    s.extension_stub_ = s.solidity_address_port_

/-- The endpoint after `ReSetSub` with a new one. -/
def resetEndpoint (new old : Bytes) : Bytes := if new ≠ [] then new else old

/-- A new endpoint that is empty or the old one changes nothing. -/
theorem resetEndpoint_of_kept {new old : Bytes} (h : ¬(new ≠ [] ∧ new ≠ old)) :
    resetEndpoint new old = old := by
  unfold resetEndpoint
  by_cases hne : new ≠ []
  · rw [if_pos hne]
    exact Decidable.of_not_not fun heq => h ⟨hne, heq⟩
  · rw [if_neg hne]

/-- Where a task of `ReSetSub` stands, the endpoints it found are replaced so far. -/
def ResetSoFar (full solidity full₀ solidity₀ : Bytes) (s : NetworkThread Arg Reply) : Prop :=
  Connected s ∧
    match s.worker with
    | .reSetSub full' solidity' point => full' = full ∧ solidity' = solidity ∧
      match point with
      | .full => s.full_address_port_ = full₀ ∧ s.solidity_address_port_ = solidity₀
      | .fullCanceled =>
        s.full_address_port_ = full₀ ∧ s.solidity_address_port_ = solidity₀ ∧ full ≠ []
      | .fullCleared =>
        s.full_address_port_ = full₀ ∧ s.solidity_address_port_ = solidity₀ ∧ full ≠ []
      | .solidity => s.full_address_port_ = resetEndpoint full full₀ ∧
        s.solidity_address_port_ = solidity₀
      | .solidityCanceled => s.full_address_port_ = resetEndpoint full full₀ ∧
        s.solidity_address_port_ = solidity₀ ∧ solidity ≠ []
      | .solidityCleared => s.full_address_port_ = resetEndpoint full full₀ ∧
        s.solidity_address_port_ = solidity₀ ∧ solidity ≠ []
    | _ => s.full_address_port_ = resetEndpoint full full₀ ∧
      s.solidity_address_port_ = resetEndpoint solidity solidity₀

/-- Every step keeps the stubs with their endpoints. -/
theorem connected_step (empty : Reply) {s : NetworkThread Arg Reply}
    (a : NetworkAction Arg Reply) (h : Connected s) : Connected (s.step empty a) := by
  by_cases ha : a = .worker ∧ ∃ full solidity point, s.worker = .reSetSub full solidity point
  · obtain ⟨rfl, full, solidity, point, hworker⟩ := ha
    unfold NetworkThread.step NetworkThread.workerStep
    rw [hworker]
    cases point with
    | full =>
        unfold NetworkThread.reSetSubStep
        simp only
        split
        · split <;> exact h
        · exact h
    | fullCanceled => exact h
    | fullCleared => exact ⟨rfl, h.2⟩
    | solidity =>
        unfold NetworkThread.reSetSubStep
        simp only
        split
        · split <;> exact h
        · exact h
    | solidityCanceled => exact h
    | solidityCleared => exact ⟨h.1, rfl, rfl⟩
  · have hmoves := moves_step empty s a
    generalize s.step empty a = s' at hmoves ⊢
    cases hmoves with
    | resets full solidity stub solidity_stub extension_stub worker hreset =>
        exact absurd ⟨rfl, hreset⟩ ha
    | _ => exact h

/-- While a task of `ReSetSub` is running, what other threads do leaves it and the
endpoints. -/
theorem frame_step (empty : Reply) {s : NetworkThread Arg Reply} {a : NetworkAction Arg Reply}
    {full solidity : Bytes} {point : ResetPoint}
    (hworker : s.worker = .reSetSub full solidity point) (ha : a ≠ .worker) :
    (s.step empty a).worker = s.worker ∧
      (s.step empty a).full_address_port_ = s.full_address_port_ ∧
      (s.step empty a).solidity_address_port_ = s.solidity_address_port_ := by
  have hmoves := moves_step empty s a
  generalize s.step empty a = s' at hmoves ⊢
  cases hmoves with
  | ends r cancelled point status retValue hrunning =>
      rw [hworker] at hrunning
      cases hrunning
  | takes => exact absurd rfl ha
  | takesOther => exact absurd rfl ha
  | starts => exact absurd rfl ha
  | unregisters => exact absurd rfl ha
  | renews => exact absurd rfl ha
  | invokes => exact absurd rfl ha
  | finishes => exact absurd rfl ha
  | resets => exact absurd rfl ha
  | cancelsPool => exact absurd rfl ha
  | clearsPool => exact absurd rfl ha
  | _ => exact ⟨rfl, rfl, rfl⟩

/-- A step of the task, or one of another thread while it is running. -/
theorem resetSoFar_step (empty : Reply) {s : NetworkThread Arg Reply}
    {a : NetworkAction Arg Reply} {full solidity full₀ solidity₀ : Bytes}
    (hreset : Resetting full solidity s.worker)
    (h : ResetSoFar full solidity full₀ solidity₀ s) :
    ResetSoFar full solidity full₀ solidity₀ (s.step empty a) := by
  obtain ⟨point, hworker⟩ := hreset.point
  refine ⟨connected_step empty a h.1, ?_⟩
  have hbody := h.2
  rw [hworker] at hbody
  obtain ⟨-, -, hbody⟩ := hbody
  by_cases ha : a = .worker
  · subst ha
    unfold NetworkThread.step NetworkThread.workerStep
    rw [hworker]
    cases point with
    | full =>
        obtain ⟨hf, hs⟩ := hbody
        unfold NetworkThread.reSetSubStep
        simp only
        by_cases hchange : full ≠ [] ∧ full ≠ s.full_address_port_
        · rw [if_pos hchange]
          cases UnorderedMap.isEmpty s.requestContextPool_ with
          | true => exact ⟨rfl, rfl, hf, hs, hchange.1⟩
          | false => exact ⟨rfl, rfl, hf, hs, hchange.1⟩
        · rw [if_neg hchange]
          refine ⟨rfl, rfl, ?_, hs⟩
          rw [hf] at hchange
          exact hf.trans (resetEndpoint_of_kept hchange).symm
    | fullCanceled => exact ⟨rfl, rfl, hbody⟩
    | fullCleared =>
        obtain ⟨hf, hs, hne⟩ := hbody
        exact ⟨rfl, rfl, (if_pos hne).symm, hs⟩
    | solidity =>
        obtain ⟨hf, hs⟩ := hbody
        unfold NetworkThread.reSetSubStep
        simp only
        by_cases hchange : solidity ≠ [] ∧ s.solidity_address_port_ ≠ solidity
        · rw [if_pos hchange]
          cases UnorderedMap.isEmpty s.requestContextPool_ with
          | true => exact ⟨rfl, rfl, hf, hs, hchange.1⟩
          | false => exact ⟨rfl, rfl, hf, hs, hchange.1⟩
        · rw [if_neg hchange]
          refine ⟨hf, hs.trans (resetEndpoint_of_kept ?_).symm⟩
          rw [hs] at hchange
          exact fun hc => hchange ⟨hc.1, Ne.symm hc.2⟩
    | solidityCanceled => exact ⟨rfl, rfl, hbody⟩
    | solidityCleared =>
        obtain ⟨hf, hs, hne⟩ := hbody
        exact ⟨hf, (if_pos hne).symm⟩
  · obtain ⟨hw, hf, hs⟩ := frame_step empty hworker ha
    rw [hw, hworker, hf, hs]
    exact ⟨rfl, rfl, hbody⟩

/-- When a task of `ReSetSub` is over, each endpoint is the new one, if that is not empty. -/
theorem reset_run (empty : Reply) {s : NetworkThread Arg Reply} {full solidity : Bytes}
    (hconnected : Connected s) (hworker : s.worker = .reSetSub full solidity .full)
    {as : List (NetworkAction Arg Reply)}
    (hrun : EveryStep (NetworkThread.step empty) s
      (fun _ st _ => Resetting full solidity st.worker) as)
    (hdone : (runFrom (NetworkThread.step empty) s as).worker = .idle) :
    (runFrom (NetworkThread.step empty) s as).stub_ =
        resetEndpoint full s.stub_ ∧
      (runFrom (NetworkThread.step empty) s as).solidity_stub_ =
        resetEndpoint solidity s.solidity_stub_ := by
  have hstart : ResetSoFar full solidity s.full_address_port_ s.solidity_address_port_ s := by
    refine ⟨hconnected, ?_⟩
    rw [hworker]
    exact ⟨rfl, rfl, rfl, rfl⟩
  have hend := EveryStep.invariant
    (I := fun _ st => ResetSoFar full solidity s.full_address_port_ s.solidity_address_port_ st)
    hstart (fun done a hI hG => resetSoFar_step empty hG hI) hrun
  obtain ⟨hconnected', hbody⟩ := hend
  rw [hdone] at hbody
  rw [hconnected'.1, hconnected'.2.1, hconnected.1, hconnected.2.1]
  exact hbody

/-! ## The file -/

/-- A node of the settings, entry by entry. -/
theorem createNode_eq (address port : Bytes) : createNode address port =
    [([97, 100, 100, 114, 101, 115, 115], .string address),
      ([112, 111, 114, 116], .string port)] := rfl

/-- The dictionary of the settings, entry by entry. -/
theorem configDetails_eq (fa fp sa sp : Bytes) : configDetails fa fp sa sp =
    [(fullKey, .dictionary (createNode fa fp)),
      (solidityKey, .dictionary (createNode sa sp))] := rfl

/-- A dictionary of two entries in order. -/
theorem sorted_pair {key key' : Bytes} {v v' : Value} (h : key < key') :
    Dictionary.Sorted [(key, v), (key', v')] :=
  List.pairwise_pair.mpr h

/-- What `Load` finds for the two nodes in the dictionary of the settings. -/
theorem nodeEndpoint_configDetails (fa fp sa sp : Bytes) :
    NetworkConfig.nodeEndpoint (configDetails fa fp sa sp) fullKey =
        (if fa ≠ [] ∧ fp ≠ [] then endpoint fa fp else []) ∧
      NetworkConfig.nodeEndpoint (configDetails fa fp sa sp) solidityKey =
        (if sa ≠ [] ∧ sp ≠ [] then endpoint sa sp else []) := ⟨rfl, rfl⟩

/-- A dictionary of two entries is well formed as far as the entries are. -/
theorem wellFormed_pair {text : Bytes → Prop} {n : ℕ} {key key' : Bytes} {v v' : Value}
    (hlt : key < key') (hkey : text key) (hkey' : text key') :
    WellFormed text (fun _ => False) (n + 1) (.dictionary [(key, v), (key', v')]) ↔
      WellFormed text (fun _ => False) n v ∧ WellFormed text (fun _ => False) n v' := by
  constructor
  · intro h
    cases h with
    | dictionary _ _ entries =>
        exact ⟨entries _ List.mem_cons_self, entries _ (List.mem_cons_of_mem _ List.mem_cons_self)⟩
  · rintro ⟨hv, hv'⟩
    exact .dictionary (sorted_pair hlt)
      (List.forall_mem_cons.mpr ⟨hkey, List.forall_mem_singleton.mpr hkey'⟩)
      (List.forall_mem_cons.mpr ⟨hv, List.forall_mem_singleton.mpr hv'⟩)

/-- A text is well formed as far as its characters are. -/
theorem wellFormed_string {text : Bytes → Prop} {n : ℕ} {s : Bytes} :
    WellFormed text (fun _ => False) n (.string s) ↔ text s := by
  constructor
  · intro h
    cases h with
    | string characters => exact characters
  · exact .string

/-- The settings are well formed as far as their texts are. -/
theorem wellFormed_configDetails {text : Bytes → Prop} (hclean : ∀ s, CleanText s → text s)
    (fa fp sa sp : Bytes) :
    WellFormed text (fun _ => False) (kStackMaxDepth - 1)
        (.dictionary (configDetails fa fp sa sp)) ↔
      (text fa ∧ text fp) ∧ text sa ∧ text sp := by
  have hnode : ∀ address port : Bytes, WellFormed text (fun _ => False) (kStackMaxDepth - 2)
      (.dictionary (createNode address port)) ↔ text address ∧ text port := by
    intro address port
    rw [createNode_eq]
    refine (wellFormed_pair (n := kStackMaxDepth - 3) (by decide) (hclean _ (cleanText_of_all rfl))
      (hclean _ (cleanText_of_all rfl))).trans ?_
    rw [wellFormed_string, wellFormed_string]
  rw [configDetails_eq]
  refine (wellFormed_pair (n := kStackMaxDepth - 2) (by decide) (hclean _ (cleanText_of_all rfl))
    (hclean _ (cleanText_of_all rfl))).trans ?_
  rw [hnode, hnode]

/-- What is left of a dictionary of two entries with clean keys. -/
theorem readBack_pair {key key' : Bytes} {v v' : Value} (hlt : key < key')
    (hkey : CleanText key) (hkey' : CleanText key') :
    readBack (.dictionary [(key, v), (key', v')]) =
      .dictionary [(key, readBack v), (key', readBack v')] := by
  rw [readBack, readBackEntries, readBackEntries, readBackEntries, keptText_of_cleanText hkey,
    keptText_of_cleanText hkey', dictionaryOf_sorted (sorted_pair hlt)]

/-- What is left of the settings are the settings of what is left of their texts. -/
theorem readBack_configDetails (fa fp sa sp : Bytes) :
    readBack (.dictionary (configDetails fa fp sa sp)) =
      .dictionary (configDetails (keptText fa) (keptText fp) (keptText sa) (keptText sp)) := by
  have hnode : ∀ address port : Bytes, readBack (.dictionary (createNode address port)) =
      .dictionary (createNode (keptText address) (keptText port)) := by
    intro address port
    rw [createNode_eq, readBack_pair (by decide) (cleanText_of_all rfl) (cleanText_of_all rfl),
      readBack, readBack]
    rfl
  rw [configDetails_eq, readBack_pair (by decide) (cleanText_of_all rfl) (cleanText_of_all rfl),
    hnode, hnode]
  rfl

/-- An endpoint has its colon. -/
theorem endpoint_ne_nil (address port : Bytes) : endpoint address port ≠ [] := by
  unfold endpoint
  simp

/-- The endpoint of a node after `Load` has read the fields, and what it is otherwise. -/
def loadedEndpoint (address port initial : Bytes) : Bytes :=
  if address ≠ [] ∧ port ≠ [] then endpoint address port else initial

/-- A node whose fields are both given is loaded with their endpoint. -/
theorem loadedEndpoint_given {address port initial : Bytes} (h : address ≠ [])
    (hempty : address.isEmpty = port.isEmpty) :
    loadedEndpoint address port initial = endpoint address port := by
  refine if_pos ⟨h, fun hport => h ?_⟩
  rwa [← List.isEmpty_iff, hempty, List.isEmpty_iff]

variable (F : FileFormats) {doubleToString : ℚ → Bytes} {stringToDouble : Bytes → Option ℚ}

/-- **What `Load` computes from the saved file**: the endpoints of what is left of the texts, or
the initial ones when the reader refuses one of them. -/
theorem load_saved {path fa fp sa sp : Bytes} {files : Files} (full solidity : Bytes)
    (hfile : files.lookup path = some ((walletFormats F doubleToString stringToDouble).jsonWrite
      (.dictionary (configDetails fa fp sa sp)))) :
    NetworkConfig.load (walletFormats F doubleToString stringToDouble) files path full solidity =
      if (WritableText fa ∧ WritableText fp) ∧ WritableText sa ∧ WritableText sp then
        (loadedEndpoint (keptText fa) (keptText fp) full,
          loadedEndpoint (keptText sa) (keptText sp) solidity)
      else (full, solidity) := by
  have hstorable : Storable (kStackMaxDepth - 1) (.dictionary (configDetails fa fp sa sp)) :=
    (wellFormed_configDetails (fun _ _ => trivial) fa fp sa sp).mpr
      ⟨⟨trivial, trivial⟩, trivial, trivial⟩
  have hwritable : Writable (kStackMaxDepth - 1) (.dictionary (configDetails fa fp sa sp)) ↔
      (WritableText fa ∧ WritableText fp) ∧ WritableText sa ∧ WritableText sp :=
    wellFormed_configDetails (fun _ h => writableText_of_validText h.1) fa fp sa sp
  have hroot : ∀ v, deserializeFile (walletFormats F doubleToString stringToDouble) files path =
      some v ↔ ((WritableText fa ∧ WritableText fp) ∧ WritableText sa ∧ WritableText sp) ∧
        v = .dictionary
          (configDetails (keptText fa) (keptText fp) (keptText sa) (keptText sp)) := by
    intro v
    rw [deserializeFile_walletFormats hfile, deserialize_write_iff _ stringToDouble hstorable,
      hwritable, readBack_configDetails]
  have hnode : ∀ address port initial : Bytes,
      (if (if address ≠ [] ∧ port ≠ [] then endpoint address port else []) ≠ [] then
        (if address ≠ [] ∧ port ≠ [] then endpoint address port else []) else initial) =
      loadedEndpoint address port initial := by
    intro address port initial
    unfold loadedEndpoint
    by_cases hgiven : address ≠ [] ∧ port ≠ []
    · rw [if_pos hgiven, if_pos (endpoint_ne_nil address port), if_pos hgiven]
    · rw [if_neg hgiven, if_neg (not_not.mpr rfl), if_neg hgiven]
  by_cases hall : (WritableText fa ∧ WritableText fp) ∧ WritableText sa ∧ WritableText sp
  · rw [if_pos hall]
    unfold NetworkConfig.load
    rw [(hroot _).mpr ⟨hall, rfl⟩]
    obtain ⟨hfull, hsolidity⟩ := nodeEndpoint_configDetails (keptText fa) (keptText fp)
      (keptText sa) (keptText sp)
    simp only [hfull, hsolidity, hnode]
  · have hnone : deserializeFile (walletFormats F doubleToString stringToDouble) files path =
        none := Option.eq_none_iff_forall_ne_some.mpr fun v hv => hall ((hroot v).mp hv).1
    rw [if_neg hall]
    unfold NetworkConfig.load
    rw [hnone]

/-! ## The form -/

/-- The fields of a node that is not refused are both given or both empty. -/
theorem isEmpty_of_check {address port : Bytes}
    (h : ConnectionForm.checkIPAddress address port = none) : address.isEmpty = port.isEmpty := by
  unfold ConnectionForm.checkIPAddress at h
  by_cases hne : address.isEmpty ≠ port.isEmpty
  · rw [if_pos hne] at h
    cases h
  · exact Decidable.of_not_not hne

/-- What is known once the form has called `ReSetSub`. -/
theorem onSave_reSetSub {disk : Disk} {path fa fp sa sp full solidity : Bytes}
    {files files' : Files}
    (h : ConnectionForm.onSave F disk path fa fp sa sp files =
      some (.reSetSub full solidity, files')) :
    ConnectionForm.checkIPAddress fa fp = none ∧ ConnectionForm.checkIPAddress sa sp = none ∧
      full = endpoint fa fp ∧ solidity = endpoint sa sp ∧
      files' = files.insert path (F.jsonWrite (.dictionary (configDetails fa fp sa sp))) := by
  unfold ConnectionForm.onSave at h
  cases hfull : ConnectionForm.checkIPAddress fa fp with
  | some text =>
      rw [hfull] at h
      cases h
  | none =>
      cases hsolidity : ConnectionForm.checkIPAddress sa sp with
      | some text =>
          rw [hfull, hsolidity] at h
          cases h
      | none =>
          rw [hfull, hsolidity] at h
          simp only [ConnectionForm.save] at h
          by_cases hdir : disk.makesDirectories
          · rw [if_pos hdir] at h
            by_cases hopen : disk.opensFile
            · have hser : serializeFile F disk path (configDetails fa fp sa sp) files =
                  (true, files.insert path
                    (F.jsonWrite (.dictionary (configDetails fa fp sa sp)))) :=
                if_pos hopen
              simp only [hser, if_true] at h
              cases h
              exact ⟨rfl, rfl, rfl, rfl, rfl⟩
            · have hser : serializeFile F disk path (configDetails fa fp sa sp) files =
                  (false, files) := if_neg hopen
              simp only [hser] at h
              cases h
          · rw [if_neg hdir] at h
            cases h

/-- A dotted-quad address has its dots. -/
theorem dottedQuad_ne_nil {s : Bytes} (h : DottedQuad s) : s ≠ [] := by
  obtain ⟨a, b, c, d, -, -, -, -, rfl⟩ := h
  simp

/-- The settings of a node agree if and only if its address is one and the next start computes
the same endpoint, or nothing is entered where nothing was before. -/
theorem nodeAgrees_iff {address port before nextStart : Bytes}
    (hempty : address.isEmpty = port.isEmpty) :
    NodeAgrees address port before (resetEndpoint (endpoint address port) before) nextStart ↔
      (DottedQuad address ∧ nextStart = endpoint address port) ∨
        (address = [] ∧ port = [] ∧ before = endpoint [] []) := by
  have hreset : resetEndpoint (endpoint address port) before = endpoint address port :=
    if_pos (endpoint_ne_nil address port)
  have hport : port = [] ↔ address = [] := by
    rw [← List.isEmpty_iff, ← hempty, List.isEmpty_iff]
  rw [hreset]
  constructor
  · intro h
    by_cases ha : address = []
    · refine Or.inr ⟨ha, hport.mpr ha, ?_⟩
      rw [← h.empty ha (hport.mpr ha), ha, hport.mpr ha]
    · have hp : port ≠ [] := fun hp => ha (hport.mp hp)
      obtain ⟨quad, hquad, heq⟩ := h.given ha hp
      unfold endpoint at heq
      rw [List.append_left_inj, List.append_left_inj] at heq
      exact Or.inl ⟨heq ▸ hquad, (h.saved ha hp).symm⟩
  · rintro (⟨hquad, hnext⟩ | ⟨ha, hp, hbefore⟩)
    · exact ⟨fun _ _ => ⟨address, hquad, rfl⟩, fun h => absurd h (dottedQuad_ne_nil hquad),
        fun _ _ => hnext.symm⟩
    · exact ⟨fun h => absurd ha h, fun _ _ => by rw [hbefore, ha, hp], fun h => absurd ha h⟩

/-- A dotted-quad address is read back. -/
theorem cleanText_dottedQuad {s : Bytes} (h : DottedQuad s) : CleanText s := by
  have hoctet : ∀ {t : Bytes}, IsOctet t → t.all (fun c => c < 128 ∧ c ≠ 0) = true := by
    intro t ht
    refine List.all_eq_true.mpr fun c hc => decide_eq_true ?_
    have hdigit : 48 ≤ c ∧ c ≤ 57 := of_decide_eq_true (List.all_eq_true.mp ht.2.2.1 c hc)
    refine ⟨UInt8.lt_of_le_of_lt hdigit.2 (by decide), ?_⟩
    rintro rfl
    exact absurd hdigit.1 (by decide)
  obtain ⟨a, b, c, d, ha, hb, hc, hd, rfl⟩ := h
  apply cleanText_of_all
  simp only [List.all_append, List.all_cons, hoctet ha, hoctet hb, hoctet hc, hoctet hd]
  decide

/-- The texts of such a node are read back. -/
theorem ProperNode.clean {address port before : Bytes} (h : ProperNode address port before) :
    CleanText address ∧ CleanText port := by
  rcases h with ⟨hquad, hport⟩ | ⟨rfl, rfl, -⟩
  · exact ⟨cleanText_dottedQuad hquad, hport⟩
  · exact ⟨cleanText_of_all rfl, cleanText_of_all rfl⟩

/-- A port that the next start reads as it was entered is clean: it is what is left of a text,
or the end of an endpoint that is. -/
theorem cleanText_port {address port initial nextStart : Bytes} {readable : Prop}
    [Decidable readable] (hreadable : readable → WritableText port) (haddress : CleanText address)
    (hinitial : initial.all (fun c => c < 128 ∧ c ≠ 0) = true)
    (hnext : nextStart =
      if readable then loadedEndpoint (keptText address) (keptText port) initial else initial)
    (hsame : nextStart = endpoint address port) : CleanText port := by
  have hport : initial = endpoint address port → CleanText port := by
    rintro rfl
    rw [endpoint, List.all_append, Bool.and_eq_true] at hinitial
    exact cleanText_of_all hinitial.2
  by_cases hread : readable
  · rw [if_pos hread, loadedEndpoint] at hnext
    by_cases hgiven : keptText address ≠ [] ∧ keptText port ≠ []
    · rw [if_pos hgiven, hsame, keptText_of_cleanText haddress] at hnext
      rw [List.append_cancel_left hnext]
      exact cleanText_keptText (hreadable hread)
    · rw [if_neg hgiven] at hnext
      exact hport (hnext.symm.trans hsame)
  · rw [if_neg hread] at hnext
    exact hport (hnext.symm.trans hsame)

/-- Every step keeps the stubs with their endpoints, from the start on. -/
theorem connected_run (empty : Reply) (full₀ solidity₀ : Bytes)
    (before : List (NetworkAction Arg Reply)) :
    Connected (runFrom (NetworkThread.step empty) (NetworkThread.start full₀ solidity₀) before) :=
  EveryStep.invariant (G := fun _ _ _ => True) (I := fun _ s => Connected s) ⟨rfl, rfl, rfl⟩
    (fun _ a hI _ => connected_step empty a hI) fun _ _ _ _ => trivial

/-- After settings have been saved and the task of `ReSetSub` has run, the live endpoints and
those of the next start agree as they should if and only if each node was entered with an
address and a port that can be read back, or left empty with nothing before. -/
theorem settings_agree_iff (empty : Reply) {disk : Disk}
    {path fa fp sa sp full solidity full₀ solidity₀ : Bytes} {files files' : Files}
    {before as : List (NetworkAction Arg Reply)} {s : NetworkThread Arg Reply}
    (hsaved : ConnectionForm.onSave (walletFormats F doubleToString stringToDouble) disk path
      fa fp sa sp files = some (.reSetSub full solidity, files'))
    (hs : s = runFrom (NetworkThread.step empty) (NetworkThread.start full₀ solidity₀) before)
    (htask : s.worker = .reSetSub full solidity .full)
    (hrun : EveryStep (NetworkThread.step empty) s
      (fun _ st _ => Resetting full solidity st.worker) as)
    (hdone : (runFrom (NetworkThread.step empty) s as).worker = .idle) :
    (NodeAgrees fa fp s.stub_ (runFrom (NetworkThread.step empty) s as).stub_
        (NetworkConfig.load (walletFormats F doubleToString stringToDouble) files' path
          NetworkConfig.initialFull NetworkConfig.initialSolidity).1 ∧
      NodeAgrees sa sp s.solidity_stub_ (runFrom (NetworkThread.step empty) s as).solidity_stub_
        (NetworkConfig.load (walletFormats F doubleToString stringToDouble) files' path
          NetworkConfig.initialFull NetworkConfig.initialSolidity).2) ↔
      ProperNode fa fp s.stub_ ∧ ProperNode sa sp s.solidity_stub_ := by
  obtain ⟨hfull, hsolidity, rfl, rfl, rfl⟩ := onSave_reSetSub _ hsaved
  have hconnected : Connected s := hs ▸ connected_run empty full₀ solidity₀ before
  obtain ⟨hstub, hstub'⟩ := reset_run empty hconnected htask hrun hdone
  rw [load_saved F _ _ (AList.lookup_insert files), hstub, hstub',
    nodeAgrees_iff (isEmpty_of_check hfull), nodeAgrees_iff (isEmpty_of_check hsolidity)]
  constructor
  · rintro ⟨hfullNode, hsolidityNode⟩
    refine ⟨hfullNode.imp (fun h => ⟨h.1, ?_⟩) id, hsolidityNode.imp (fun h => ⟨h.1, ?_⟩) id⟩
    · exact cleanText_port (fun hall => hall.1.2) (cleanText_dottedQuad h.1) rfl
        (apply_ite Prod.fst _ _ _) h.2
    · exact cleanText_port (fun hall => hall.2.2) (cleanText_dottedQuad h.1) rfl
        (apply_ite Prod.snd _ _ _) h.2
  · rintro ⟨hfullNode, hsolidityNode⟩
    obtain ⟨hfa, hfp⟩ := hfullNode.clean
    obtain ⟨hsa, hsp⟩ := hsolidityNode.clean
    -- The reader lets all four texts through, and nothing of them is lost.
    rw [if_pos ⟨⟨writableText_of_validText hfa.1, writableText_of_validText hfp.1⟩,
      writableText_of_validText hsa.1, writableText_of_validText hsp.1⟩,
      keptText_of_cleanText hfa, keptText_of_cleanText hfp, keptText_of_cleanText hsa,
      keptText_of_cleanText hsp]
    exact ⟨hfullNode.imp (fun h => ⟨h.1, loadedEndpoint_given (dottedQuad_ne_nil h.1)
        (isEmpty_of_check hfull)⟩) id,
      hsolidityNode.imp (fun h => ⟨h.1, loadedEndpoint_given (dottedQuad_ne_nil h.1)
        (isEmpty_of_check hsolidity)⟩) id⟩

/-! ## Runs -/

/-- The text `1.2.3.4`. -/
def someAddress : Bytes := [49, 46, 50, 46, 51, 46, 52]

/-- The text `80`. -/
def somePort : Bytes := [56, 48]

/-- The text `x1.2.3.4567`. -/
def looseAddress : Bytes := [120, 49, 46, 50, 46, 51, 46, 52, 53, 54, 55]

/-- The text `80` and the noncharacter U+FFFF. -/
def unreadablePort : Bytes := [56, 48, 0xEF, 0xBF, 0xBF]

/-- The path of the settings. -/
def somePath : Bytes := [99]

/-- A disk on which everything works. -/
def workingDisk : Disk := ⟨true, true⟩

/-- The formats with the wallet's own JSON. -/
def someFormats : FileFormats := walletFormats formats (fun _ => []) fun _ => none

/-- The files after the settings have been saved. -/
def savedFiles (fa fp sa sp : Bytes) : Files :=
  (∅ : Files).insert somePath (someFormats.jsonWrite (.dictionary (configDetails fa fp sa sp)))

/-- A thread whose task of `ReSetSub` has been taken. -/
def aboutToReset (full solidity : Bytes) : NetworkThread ℕ ℕ :=
  runFrom (NetworkThread.step 0) (NetworkThread.start [1] [2])
    [.reSetSub full solidity, .worker]

/-- The four steps of the task when both endpoints change and the pool is empty, with a call
begun in between. -/
def resetSteps : List (NetworkAction ℕ ℕ) :=
  [.worker, .worker, .call .Request_GetAccount 5, .worker, .ui, .worker]

/-- The address of the example is a well-formed one. -/
theorem dottedQuad_someAddress : DottedQuad someAddress :=
  ⟨[49], [50], [51], [52], by decide, by decide, by decide, by decide, rfl⟩

/-- The form accepts the address. -/
theorem check_someAddress : ConnectionForm.checkIPAddress someAddress somePort = none := by
  decide

/-- The form saves two nodes entered with addresses. -/
theorem onSave_entered : ConnectionForm.onSave someFormats workingDisk somePath someAddress somePort
    someAddress somePort ∅ =
      some (.reSetSub (endpoint someAddress somePort) (endpoint someAddress somePort),
        savedFiles someAddress somePort someAddress somePort) := by
  unfold ConnectionForm.onSave
  rw [check_someAddress]
  rfl

/-- Two nodes entered with addresses agree. -/
theorem settings_agree_entered :
    NodeAgrees someAddress somePort [1]
        (runFrom (NetworkThread.step 0) (aboutToReset (endpoint someAddress somePort)
          (endpoint someAddress somePort)) resetSteps).stub_
        (NetworkConfig.load someFormats (savedFiles someAddress somePort someAddress somePort)
          somePath NetworkConfig.initialFull NetworkConfig.initialSolidity).1 ∧
      NodeAgrees someAddress somePort [2]
        (runFrom (NetworkThread.step 0) (aboutToReset (endpoint someAddress somePort)
          (endpoint someAddress somePort)) resetSteps).solidity_stub_
        (NetworkConfig.load someFormats (savedFiles someAddress somePort someAddress somePort)
          somePath NetworkConfig.initialFull NetworkConfig.initialSolidity).2 := by
  have hstart : aboutToReset (endpoint someAddress somePort) (endpoint someAddress somePort) =
      runFrom (NetworkThread.step 0) (NetworkThread.start [1] [2])
        [.reSetSub (endpoint someAddress somePort) (endpoint someAddress somePort), .worker] := rfl
  exact (settings_agree_iff formats 0 onSave_entered hstart rfl
    (EveryStep.of_check (by decide)) (by decide)).mpr
    ⟨Or.inl ⟨dottedQuad_someAddress, cleanText_of_all rfl⟩,
      Or.inl ⟨dottedQuad_someAddress, cleanText_of_all rfl⟩⟩

/-- The form accepts an address that only contains one together with an empty node.  After
the task the endpoint of the first is no address with the port, and that of the second is
not what it was.  It accepts a port with a noncharacter too, and the next start then does not
read the file. -/
theorem settings_disagree :
    ((∃ files,
      ConnectionForm.onSave someFormats workingDisk somePath looseAddress somePort [] [] ∅ =
        some (.reSetSub (endpoint looseAddress somePort) (endpoint [] []), files)) ∧
    ∀ fullNext solidityNext,
      ¬NodeAgrees looseAddress somePort [1]
        (runFrom (NetworkThread.step 0) (aboutToReset (endpoint looseAddress somePort)
          (endpoint [] [])) resetSteps).stub_ fullNext ∧
      ¬NodeAgrees [] [] [2]
        (runFrom (NetworkThread.step 0) (aboutToReset (endpoint looseAddress somePort)
          (endpoint [] [])) resetSteps).solidity_stub_ solidityNext) ∧
    ConnectionForm.onSave someFormats workingDisk somePath someAddress unreadablePort someAddress
        somePort ∅ = some (.reSetSub (endpoint someAddress unreadablePort)
          (endpoint someAddress somePort),
        savedFiles someAddress unreadablePort someAddress somePort) ∧
      ¬NodeAgrees someAddress unreadablePort [1]
        (runFrom (NetworkThread.step 0) (aboutToReset (endpoint someAddress unreadablePort)
          (endpoint someAddress somePort)) resetSteps).stub_
        (NetworkConfig.load someFormats (savedFiles someAddress unreadablePort someAddress somePort)
          somePath NetworkConfig.initialFull NetworkConfig.initialSolidity).1 := by
  have hfull : ConnectionForm.checkIPAddress looseAddress somePort = none := by decide
  have hsolidity : ConnectionForm.checkIPAddress [] [] = none := by decide
  have hstub : (runFrom (NetworkThread.step 0) (aboutToReset (endpoint looseAddress somePort)
      (endpoint [] [])) resetSteps).stub_ = endpoint looseAddress somePort := by decide
  have hstub' : (runFrom (NetworkThread.step 0) (aboutToReset (endpoint looseAddress somePort)
      (endpoint [] [])) resetSteps).solidity_stub_ = [58] := by decide
  have hport : ConnectionForm.checkIPAddress someAddress unreadablePort = none := by decide
  have hunread : ¬WritableText unreadablePort := by decide
  refine ⟨⟨⟨savedFiles looseAddress somePort [] [], ?_⟩, fun fullNext solidityNext => ⟨?_, ?_⟩⟩,
    ?_, ?_⟩
  · unfold ConnectionForm.onSave
    rw [hfull, hsolidity]
    rfl
  · intro h
    obtain ⟨quad, ⟨a, b, c, d, ha, -, -, -, hquad⟩, heq⟩ := h.given (by decide) (by decide)
    rw [hstub] at heq
    unfold endpoint at heq
    rw [List.append_left_inj, List.append_left_inj] at heq
    rw [hquad] at heq
    -- the first octet would begin with the letter
    cases a with
    | nil => exact absurd ha.1 (by decide)
    | cons x a =>
        have hx : x = 120 := (List.cons.inj heq).1.symm
        have hdigit := List.all_eq_true.mp ha.2.2.1 x List.mem_cons_self
        rw [hx] at hdigit
        exact absurd hdigit (by decide)
  · intro h
    have hkept := h.empty rfl rfl
    rw [hstub'] at hkept
    exact absurd hkept (by decide)
  · unfold ConnectionForm.onSave
    rw [hport, check_someAddress]
    rfl
  · intro h
    have hload : NetworkConfig.load someFormats
        (savedFiles someAddress unreadablePort someAddress somePort) somePath
        NetworkConfig.initialFull NetworkConfig.initialSolidity =
          (NetworkConfig.initialFull, NetworkConfig.initialSolidity) :=
      (load_saved formats _ _ (AList.lookup_insert _)).trans (if_neg fun hall => hunread hall.1.2)
    have hsaved := h.saved (by decide) (by decide)
    rw [hload] at hsaved
    revert hsaved
    decide

end TronWallet.Theorems
