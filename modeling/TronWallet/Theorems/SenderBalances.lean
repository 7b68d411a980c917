import TronWallet.Lib.GuardedRun
import TronWallet.Model.SendForm
import TronWallet.Reference.SendRuns

/-!
# The balances a transfer is checked against

The callback of `UpdteAddress` assigns the figures of a reply to the table and never removes
one, so the table is the closed form of the replies so far: under each name it holds the
figure of the last reply, for whatever address, that has the name.  Looking up the selected
item makes an entry of zero of a text that is no such name, as that of a name which wide
characters do not hold (`Tracks.table`).

The table is therefore exactly what the account now selected owns when that account's latest
reply agrees with the last reply of every name and has every text that has been selected, and
only then (`checksOwn_iff`).
-/

set_option autoImplicit false

namespace TronWallet.Theorems

open TronWallet.Lib TronWallet.Model TronWallet.Reference

variable {D : Doubles} {P : Platform}

/-! ## The property and the condition -/

/-- The figure an account has under a name, if any. -/
def Holds (D : Doubles) (a : AccountMessage) (name : Bytes) (v : D.Number) : Prop :=
  (name = trxName ∧ v = toTrx D a.balance) ∨
    ∃ amount, a.asset.lookup name = some amount ∧ v = D.ofInt amount

/-- The replies of a run, each with the address it was asked for. -/
def replies (P : Platform) (start : SendForm D) (done : List SendAction) :
    List (Bytes × AccountMessage) := observed (SendForm.step P) SendForm.delivered start done

/-- The latest reply for an address. -/
def latestReply (rs : List (Bytes × AccountMessage)) (address : Bytes) : Option AccountMessage :=
  (rs.reverse.find? fun r => r.1 = address).map Prod.snd

/-- The table an accepted transfer has been checked against holds exactly what the latest
reply for the selected address says. -/
def ChecksOwn (P : Platform) (start : SendForm D) (done : List SendAction) (s : SendForm D)
    (act : SendAction) : Prop :=
  (s.accepted P act).isSome → ∃ a, latestReply (replies P start done) s.address_ = some a ∧
    ∀ name v, s.assert_.lookup name = some v ↔ Holds D a name v

/-- The figure a reply assigns to a name; an asset comes after the balance. -/
def figure (D : Doubles) (a : AccountMessage) (name : Bytes) : Option D.Number :=
  ((a.asset.lookup name).map D.ofInt).or
    (if name = trxName then some (toTrx D a.balance) else none)

/-- The figure of the last reply that has the name. -/
def lastFigure (D : Doubles) (rs : List (Bytes × AccountMessage)) (name : Bytes) :
    Option D.Number :=
  rs.reverse.findSome? fun r => figure D r.2 name

/-- The text of the item that is selected, if one is. -/
def selectedText (s : SendForm D) : Option Bytes := s.curSel.map fun cur => s.token_.getD cur []

/-- The texts that have been selected in the box, by the user or by a reply. -/
def selections (P : Platform) (start : SendForm D) (done : List SendAction) : List Bytes :=
  observed (SendForm.step P) (fun s act => selectedText (s.step P act)) start done

/-- When a transfer is accepted, a reply for the selected address has come, it has no asset
called TRX with a figure of its own, for every name it says the same as the last reply, for any
address, that has the name, and every text that has been selected is a name it has. -/
def RepliesAgree (P : Platform) (start : SendForm D) (done : List SendAction) (s : SendForm D)
    (act : SendAction) : Prop :=
  (s.accepted P act).isSome → ∃ a, latestReply (replies P start done) s.address_ = some a ∧
    (∀ amount, a.asset.lookup trxName = some amount → D.ofInt amount = toTrx D a.balance) ∧
    (∀ name, lastFigure D (replies P start done) name = figure D a name) ∧
    ∀ text ∈ selections P start done, (figure D a text).isSome

/-! ## The invariant -/

/-- The entry of a name that no reply has. -/
def shownFigure (D : Doubles) (seen : List Bytes) (name : Bytes) : Option D.Number :=
  if name ∈ seen then some (D.ofInt 0) else none

/-- The table follows the replies and the texts that have been selected. -/
structure Tracks (rs : List (Bytes × AccountMessage)) (seen : List Bytes) (s : SendForm D) :
    Prop where
  table : ∀ name, s.assert_.lookup name = (lastFigure D rs name).or (shownFigure D seen name)
  selected : ∀ text, selectedText s = some text → text ∈ seen

/-- Nothing has been shown before the first reply. -/
theorem tracks_start (offline : Bool) : Tracks [] [] (SendForm.start D offline) where
  table _ := rfl
  selected text h := by cases h

/-- The last figure of a name after one more reply. -/
theorem lastFigure_concat (rs : List (Bytes × AccountMessage)) (r : Bytes × AccountMessage)
    (name : Bytes) :
    lastFigure D (rs ++ [r]) name = (figure D r.2 name).or (lastFigure D rs name) := by
  unfold lastFigure
  rw [List.reverse_append, List.reverse_singleton, List.singleton_append, List.findSome?_cons]
  cases figure D r.2 name <;> rfl

/-- The entry of a name after one more text has been selected. -/
theorem shownFigure_concat (seen : List Bytes) (text name : Bytes) :
    shownFigure D (seen ++ [text]) name =
      (shownFigure D seen name).or (if name = text then some (D.ofInt 0) else none) := by
  unfold shownFigure
  by_cases hseen : name ∈ seen
  · rw [if_pos (List.mem_append_left _ hseen), if_pos hseen, Option.some_or]
  · rw [if_neg hseen, Option.none_or]
    exact if_congr ((List.mem_append.trans (or_iff_right hseen)).trans List.mem_singleton) rfl rfl

/-- A text that has been selected before changes nothing. -/
theorem shownFigure_of_mem {seen : List Bytes} {text : Bytes} (h : text ∈ seen) (name : Bytes) :
    shownFigure D (seen ++ [text]) name = shownFigure D seen name := by
  unfold shownFigure
  refine if_congr ⟨fun hname => ?_, List.mem_append_left _⟩ rfl rfl
  rcases List.mem_append.mp hname with hname | hname
  · exact hname
  · rwa [List.mem_singleton.mp hname]

/-! ## What the operations do to the table -/

/-- The table after a name has been looked up. -/
theorem lookup_getAvaliable_or (s : SendForm D) (type name : Bytes) :
    (s.getAvaliable type).2.assert_.lookup name =
      (s.assert_.lookup name).or (if name = type then some (D.ofInt 0) else none) := by
  unfold SendForm.getAvaliable
  rw [UnorderedMap.lookup_emplace]
  by_cases hname : name = type
  · rw [if_pos hname, if_pos hname, hname]
    cases s.assert_.lookup type <;> rfl
  · rw [if_neg hname, if_neg hname, Option.or_none]

/-- The table after a reply has been assigned. -/
theorem lookup_assignReply (o : Order) (a : AccountMessage) (t : UnorderedMap Bytes D.Number)
    (name : Bytes) : (SendForm.assignReply o a t).lookup name =
      (figure D a name).or (t.lookup name) := by
  unfold SendForm.assignReply figure
  rcases UnorderedMap.lookup_insertAll (t.insert trxName (toTrx D a.balance))
    ((o.iterate a.asset).map fun p => (p.1, D.ofInt p.2)) name with ⟨v, hmem, hv⟩ | ⟨hnot, heq⟩
  · obtain ⟨⟨name', amount⟩, hp, hpair⟩ := List.mem_map.mp hmem
    obtain ⟨rfl, rfl⟩ := Prod.mk.inj hpair
    rw [hv, o.mem_iterate.mp hp]
    rfl
  · have hnone : a.asset.lookup name = none := by
      by_contra hne
      obtain ⟨amount, hamount⟩ := Option.ne_none_iff_exists'.mp hne
      exact hnot (D.ofInt amount)
        (List.mem_map.mpr ⟨(name, amount), o.mem_iterate.mpr hamount, rfl⟩)
    rw [heq, hnone, UnorderedMap.lookup_insert_eq]
    by_cases hname : name = trxName
    · simp only [if_pos hname, Option.map_none, Option.none_or, Option.some_or]
    · simp only [if_neg hname, Option.map_none, Option.none_or]

variable {rs : List (Bytes × AccountMessage)} {seen : List Bytes} {s s' : SendForm D}

/-- A step that changes neither the table nor the item that is selected. -/
theorem Tracks.keeps (h : Tracks rs seen s) (htable : s'.assert_ = s.assert_)
    (hsel : selectedText s' = selectedText s) :
    Tracks rs (seen ++ (selectedText s').toList) s' := by
  rw [hsel]
  cases htext : selectedText s with
  | none =>
      rw [Option.toList_none, List.append_nil]
      refine ⟨fun name => htable ▸ h.table name, fun text ht => ?_⟩
      rw [hsel, htext] at ht
      cases ht
  | some text =>
      rw [Option.toList_some]
      refine ⟨fun name => ?_, fun text' ht => ?_⟩
      · rw [htable, h.table, shownFigure_of_mem (h.selected text htext)]
      · rw [hsel, htext] at ht
        cases ht
        exact List.mem_append_right _ (List.mem_singleton_self _)

/-- The selected item is looked up. -/
theorem Tracks.looksUp {text : Bytes}
    (htable : ∀ name, s.assert_.lookup name = (lastFigure D rs name).or (shownFigure D seen name))
    (htext : selectedText s = some text) :
    Tracks rs (seen ++ (selectedText (s.getAvaliable text).2).toList)
      (s.getAvaliable text).2 := by
  have hsame : selectedText (s.getAvaliable text).2 = some text := htext
  rw [hsame, Option.toList_some]
  refine ⟨fun name => ?_, fun text' ht => ?_⟩
  · rw [lookup_getAvaliable_or, htable, shownFigure_concat, Option.or_assoc]
  · rw [hsame] at ht
    cases ht
    exact List.mem_append_right _ (List.mem_singleton_self _)

/-- A reply is assigned, and the first item of the box is selected. -/
theorem tracks_onReply (o : Order) (r : Bytes × AccountMessage) (h : Tracks rs seen s) :
    Tracks (rs ++ [r]) (seen ++ (selectedText (SendForm.onReply o r.2 s)).toList)
      (SendForm.onReply o r.2 s) := by
  unfold SendForm.onReply SendForm.showAvaliable
  refine Tracks.looksUp (fun name => ?_) rfl
  rw [lookup_assignReply, lastFigure_concat, h.table, Option.or_assoc]

/-- The button to send looks up the selected item, or nothing. -/
theorem tracks_getSendInfo (h : Tracks rs seen s) (to_text amount_text : Bytes) :
    Tracks rs (seen ++ (selectedText (s.getSendInfo P to_text amount_text).2).toList)
      (s.getSendInfo P to_text amount_text).2 := by
  have hsame : Tracks rs (seen ++ (selectedText s).toList) s := h.keeps rfl rfl
  unfold SendForm.getSendInfo
  split
  · exact hsame
  split
  · exact hsame
  split
  · exact hsame
  split
  · exact hsame
  split
  · exact hsame
  split
  · exact hsame
  split
  · exact hsame
  · rename_i cur hcur
    have htext : selectedText s = some (s.token_.getD cur []) := by
      rw [selectedText, hcur]
      rfl
    have hshown := Tracks.looksUp h.table htext
    dsimp only
    split
    · exact hshown
    · exact hshown

/-! ## Runs -/

/-- What a step keeps. -/
theorem tracks_step (h : Tracks rs seen s) (act : SendAction) :
    Tracks (rs ++ (s.delivered act).toList) (seen ++ (selectedText (s.step P act)).toList)
      (s.step P act) := by
  have hquiet : s.delivered act = none → rs ++ (s.delivered act).toList = rs := by
    intro hnone
    rw [hnone, Option.toList_none, List.append_nil]
  cases act with
  | updateAddress address posted =>
      rw [hquiet rfl]
      exact h.keeps rfl rfl
  | actionBtnClick address posted =>
      rw [hquiet rfl]
      unfold SendForm.step SendForm.onActionBtnClick
      by_cases hadd : SendForm.parseAddress P address = []
      · simp only [if_pos hadd]
        exact h.keeps rfl rfl
      · simp only [if_neg hadd]
        exact h.keeps rfl rfl
  | reply o i a =>
      by_cases hi : i < s.pending.length
      · have hseen : s.delivered (.reply o i a) = some (s.pending[i], a) := by
          simp only [SendForm.delivered, List.getElem?_eq_getElem hi, Option.map_some]
        have hstep : s.step P (.reply o i a) =
            SendForm.onReply o a { s with pending := s.pending.eraseIdx i } := if_pos hi
        rw [hseen, hstep]
        exact tracks_onReply o (s.pending[i], a) ⟨h.table, h.selected⟩
      · have hseen : s.delivered (.reply o i a) = none := by
          simp only [SendForm.delivered, List.getElem?_eq_none (Nat.le_of_not_lt hi),
            Option.map_none]
        have hstep : s.step P (.reply o i a) = s := if_neg hi
        rw [hquiet hseen, hstep]
        exact h.keeps rfl rfl
  | selChanged i =>
      rw [hquiet rfl]
      by_cases hi : i < s.token_.length
      · have hstep : s.step P (.selChanged i) =
            ({ s with curSel := some i }.getAvaliable (s.token_.getD i [])).2 := if_pos hi
        rw [hstep]
        exact Tracks.looksUp h.table rfl
      · have hstep : s.step P (.selChanged i) = s := if_neg hi
        rw [hstep]
        exact h.keeps rfl rfl
  | send to_text amount_text =>
      rw [hquiet rfl]
      exact tracks_getSendInfo h to_text amount_text

/-- In every run the table follows the replies and the texts that have been selected. -/
theorem tracks_run (offline : Bool) (run : List SendAction) :
    Tracks (replies P (SendForm.start D offline) run) (selections P (SendForm.start D offline) run)
      (runFrom (SendForm.step P) (SendForm.start D offline) run) := by
  refine EveryStep.invariant (G := fun _ _ _ => True)
    (I := fun done s => Tracks (replies P (SendForm.start D offline) done)
      (selections P (SendForm.start D offline) done) s)
    (tracks_start offline) ?_ fun _ _ _ _ => trivial
  intro done act h _
  unfold replies selections at h ⊢
  rw [observed_concat, observed_concat]
  exact tracks_step h act

/-! ## What the table says -/

/-- A name that the latest reply for an address has is a name some reply has. -/
theorem lastFigure_ne_none {address name : Bytes} {a : AccountMessage}
    (ha : latestReply rs address = some a) (h : (figure D a name).isSome) :
    lastFigure D rs name ≠ none := by
  obtain ⟨r, hr, rfl⟩ := Option.map_eq_some_iff.mp ha
  intro hnone
  rw [lastFigure, List.findSome?_eq_none_iff] at hnone
  rw [hnone r (List.mem_of_find?_eq_some hr)] at h
  cases h

/-- The table gives every name the figure of a reply if and only if that reply agrees with the
last one of every name and has every text that has been selected. -/
theorem Tracks.table_iff (h : Tracks rs seen s) {address : Bytes} {a : AccountMessage}
    (ha : latestReply rs address = some a) :
    (∀ name, s.assert_.lookup name = figure D a name) ↔
      (∀ name, lastFigure D rs name = figure D a name) ∧
        ∀ text ∈ seen, (figure D a text).isSome := by
  constructor
  · intro htable
    refine ⟨fun name => ?_, fun text htext => ?_⟩
    · rw [← htable name, h.table]
      cases hlast : lastFigure D rs name with
      | some v => rfl
      | none =>
          rw [Option.none_or]
          by_contra hne
          refine lastFigure_ne_none (D := D) ha ?_ hlast
          rw [← htable name, h.table, hlast, Option.none_or]
          exact Option.isSome_iff_ne_none.mpr (Ne.symm hne)
    · rw [← htable text, h.table, shownFigure, if_pos htext, Option.isSome_or, Option.isSome_some,
        Bool.or_true]
  · rintro ⟨hlast, hselected⟩ name
    rw [h.table, hlast]
    by_cases hseen : name ∈ seen
    · obtain ⟨v, hv⟩ := Option.isSome_iff_exists.mp (hselected name hseen)
      rw [hv, Option.some_or]
    · rw [shownFigure, if_neg hseen, Option.or_none]

/-- A table is exactly what an account owns when it gives every name the figure the
account's reply assigns, and that reply has one figure for TRX. -/
theorem exact_iff {t : Bytes → Option D.Number} {a : AccountMessage} :
    (∀ name v, t name = some v ↔ Holds D a name v) ↔
      (∀ amount, a.asset.lookup trxName = some amount → D.ofInt amount = toTrx D a.balance) ∧
        ∀ name, t name = figure D a name := by
  constructor
  · intro h
    have htrx : t trxName = some (toTrx D a.balance) := (h _ _).mpr (Or.inl ⟨rfl, rfl⟩)
    have hone : ∀ amount, a.asset.lookup trxName = some amount →
        D.ofInt amount = toTrx D a.balance := by
      intro amount hamount
      have hasset := (h trxName (D.ofInt amount)).mpr (Or.inr ⟨amount, hamount, rfl⟩)
      exact Option.some.inj (hasset.symm.trans htrx)
    refine ⟨hone, fun name => ?_⟩
    unfold figure
    cases hasset : a.asset.lookup name with
    | some amount => exact (h _ _).mpr (Or.inr ⟨amount, hasset, rfl⟩)
    | none =>
        by_cases hname : name = trxName
        · rw [if_pos hname, hname]
          exact htrx
        · rw [if_neg hname]
          cases ht : t name with
          | none => rfl
          | some v =>
              rcases (h name v).mp ht with ⟨htrx', -⟩ | ⟨amount, hamount, -⟩
              · exact absurd htrx' hname
              · rw [hasset] at hamount
                cases hamount
  · rintro ⟨hone, hall⟩ name v
    rw [hall name]
    unfold figure Holds
    cases hasset : a.asset.lookup name with
    | some amount =>
        constructor
        · intro hv
          exact Or.inr ⟨amount, rfl, (Option.some.inj hv).symm⟩
        · rintro (⟨rfl, rfl⟩ | ⟨amount', hamount, rfl⟩)
          · exact congrArg some (hone amount hasset)
          · rw [Option.some.inj hamount]
            rfl
    | none =>
        by_cases hname : name = trxName
        · rw [if_pos hname]
          constructor
          · intro hv
            exact Or.inl ⟨hname, (Option.some.inj hv).symm⟩
          · rintro (⟨-, rfl⟩ | ⟨amount', hamount, -⟩)
            · rfl
            · cases hamount
        · rw [if_neg hname]
          constructor
          · intro hv
            cases hv
          · rintro (⟨htrx, -⟩ | ⟨amount', hamount, -⟩)
            · exact absurd htrx hname
            · cases hamount

/-- **Exactly when every accepted transfer is checked against the sender's own balances**: when at
each accepted transfer the latest reply for the selected address agrees with the last reply of
every name and has every text that has been selected. -/
theorem checksOwn_iff (offline : Bool) (run : List SendAction) :
    EveryStep (SendForm.step P) (SendForm.start D offline)
        (ChecksOwn P (SendForm.start D offline)) run ↔
      EveryStep (SendForm.step P) (SendForm.start D offline)
        (RepliesAgree P (SendForm.start D offline)) run := by
  refine forall_congr' fun before => forall_congr' fun act => forall_congr' fun _ =>
    forall_congr' fun _ => ?_
  have htracks : Tracks (replies P (SendForm.start D offline) before) _
    (runFrom (SendForm.step P) (SendForm.start D offline) before) := tracks_run offline before
  unfold ChecksOwn RepliesAgree
  refine imp_congr_right fun _ => exists_congr fun a => and_congr_right fun ha => ?_
  rw [exact_iff, htracks.table_iff ha]

/-- The name U+1F600, which 16-bit characters do not hold. -/
def wideName : Bytes := [0xF0, 0x9F, 0x98, 0x80]

/-- An account with an asset of that name. -/
def wideAccount : AccountMessage where
  balance := 5000000
  asset := (∅ : UnorderedMap Bytes ℤ).insert wideName 5

/-- An asset of the account selected before is sent from one that has none.  And an asset whose
name does not fit into wide characters leaves an entry under another name. -/
theorem foreign_asset_accepted :
    ¬EveryStep (SendForm.step reference) (SendForm.start integers false)
      (ChecksOwn reference (SendForm.start integers false))
      (selecting aliceAddress aliceAccount ++ selecting bobAddress bobAccount ++
        [.selChanged 1, .send aliceText [50]]) ∧
    ¬EveryStep (SendForm.step reference) (SendForm.start integers false)
      (ChecksOwn reference (SendForm.start integers false))
      (selecting aliceAddress wideAccount ++ [.selChanged 1, .send bobText [50]]) := by
  constructor
  · intro h
    have hstep := h (selecting aliceAddress aliceAccount ++ selecting bobAddress bobAccount ++
      [.selChanged 1]) (.send aliceText [50]) [] rfl
    obtain ⟨a, ha, hall⟩ := hstep (by decide)
    have hbob : bobAccount = a := Option.some.inj ha
    subst hbob
    rcases (hall assetName (5 : ℤ)).mp rfl with ⟨hname, -⟩ | ⟨amount, hamount, -⟩
    · exact absurd hname (by decide)
    · cases hamount
  · intro h
    have hstep := h (selecting aliceAddress wideAccount ++ [.selChanged 1])
      (.send bobText [50]) [] rfl
    obtain ⟨a, ha, hall⟩ := hstep (by decide)
    have hwide : wideAccount = a := Option.some.inj ha
    subst hwide
    have hentry : (runFrom (SendForm.step reference) (SendForm.start integers false)
        (selecting aliceAddress wideAccount ++ [.selChanged 1])).assert_.lookup
          [0xEF, 0x98, 0x80] = some (0 : ℤ) := rfl
    rcases (hall _ _).mp hentry with ⟨hname, -⟩ | ⟨amount, hamount, -⟩
    · exact absurd hname (by decide)
    · cases hamount

end TronWallet.Theorems
