import TronWallet.Analysis.JsonRoundTrip
import TronWallet.Analysis.Texts

/-!
# Texts that go over the screen

A text from the node is shown as a wide string and read from the control as UTF-8 again.
A unit of the wide string has 16 bits and the conversions take each unit for a character, so
a character beyond the first plane comes back as another one, and what is not UTF-8 comes
back as replacement characters.

The short cuts for ASCII make no difference (`wideToUTF8_eq`, `utf8ToWide_eq`): both
directions are character by character (`shown_eq`).  A text comes back as it was if and only
if it is UTF-8 of the first plane (`shown_eq_self_iff`).
-/

set_option autoImplicit false

namespace TronWallet.Theorems

open TronWallet.Lib TronWallet.Model TronWallet.Analysis

/-! ## The short cuts -/

/-- A wide string of ASCII is cut to bytes by the conversion, too. -/
theorem convertToUTF8_of_ascii {w : Wide} (h : ∀ c ∈ w, c < 128) :
    convertToUTF8 w = w.map UInt16.toUInt8 := by
  have hunit : ∀ c ∈ w, writeUnicodeCharacter ((readWideCharacter c).getD replacementCharacter) =
      [c.toUInt8] := by
    intro c hc
    have hlt : c.toNat < 128 := UInt16.lt_iff_toNat_lt.mp (h c hc)
    rw [readWideCharacter, validCodepoint_of_ascii hlt, Option.getD_some,
      writeUnicodeCharacter_ofNat hlt]
    rfl
  rw [convertToUTF8, List.flatMap_congr hunit, List.map_eq_flatMap]

/-- The characters of ASCII are its bytes. -/
theorem convertToWide_of_ascii {s : Bytes} (h : ∀ c ∈ s, c < 128) : convertToWide s = widen s := by
  have hunit : ∀ c ∈ s, writeWideCharacter (Char.ofNat c.toNat) = [c.toUInt16] := by
    intro c hc
    have hlt : c.toNat < 128 := UInt8.lt_iff_toNat_lt.mp (h c hc)
    rw [writeWideCharacter, toNat_of_validCodepoint (validCodepoint_of_ascii hlt)]
    exact congrArg (fun u => [u]) (UInt16.ofNat_uInt8ToNat c)
  have hs : characters s = s.map fun c => Char.ofNat c.toNat := by
    conv_lhs => rw [← encodeAll_ascii h]
    exact characters_encodeAll _
  rw [convertToWide, hs, List.flatMap_map, List.flatMap_congr hunit, widen, List.map_eq_flatMap]

/-- **To UTF-8 the short cut makes no difference.** -/
theorem wideToUTF8_eq (w : Wide) : wideToUTF8 utfConversions w = convertToUTF8 w := by
  unfold wideToUTF8
  by_cases hascii : w.all (· < 128) = true
  · rw [if_pos hascii, convertToUTF8_of_ascii fun c hc =>
      of_decide_eq_true (List.all_eq_true.mp hascii c hc)]
  · rw [if_neg hascii]
    rfl

/-- **To a wide string the short cut makes no difference.** -/
theorem utf8ToWide_eq (s : Bytes) : utf8ToWide utfConversions.toWide s = convertToWide s := by
  unfold utf8ToWide
  by_cases hascii : isStringASCII s = true
  · rw [if_pos hascii, convertToWide_of_ascii fun c hc =>
      of_decide_eq_true (List.all_eq_true.mp hascii c hc)]
  · rw [if_neg hascii]
    rfl

/-! ## There and back -/

/-- A text as it is read from the control in which it is shown. -/
def shown (s : Bytes) : Bytes := wideToUTF8 utfConversions (utf8ToWide utfConversions.toWide s)

/-- What comes back of a character: the one of its lower 16 bits. -/
def narrowed (c : Char) : Char :=
  (validCodepoint (c.toNat % 65536)).getD replacementCharacter

/-- **What comes back of a text**, character by character. -/
theorem shown_eq (s : Bytes) : shown s = utf8.encodeAll ((characters s).map narrowed) := by
  rw [shown, wideToUTF8_eq, utf8ToWide_eq, convertToUTF8, convertToWide, StreamCode.encodeAll,
    List.flatMap_map, List.flatMap_assoc]
  refine List.flatMap_congr fun c _ => ?_
  rw [writeWideCharacter, List.flatMap_singleton, readWideCharacter, UInt16.toNat_ofNat']
  rfl

/-- A character that comes back is of the first plane. -/
theorem narrowed_lt (c : Char) : (narrowed c).toNat < 65536 := by
  unfold narrowed
  cases hvalid : validCodepoint (c.toNat % 65536) with
  | none => decide
  | some d =>
      rw [Option.getD_some, toNat_of_validCodepoint hvalid]
      exact Nat.mod_lt _ (by decide)

/-- A character of the first plane comes back. -/
theorem narrowed_of_lt {c : Char} (h : c.toNat < 65536) : narrowed c = c := by
  rw [narrowed, Nat.mod_eq_of_lt h, validCodepoint_toNat, Option.getD_some]

/-- UTF-8 of the first plane. -/
def FirstPlane (s : Bytes) : Prop := ∃ cs, s = utf8.encodeAll cs ∧ ∀ c ∈ cs, c.toNat < 65536

/-- What comes back is UTF-8 of the first plane. -/
theorem firstPlane_shown (s : Bytes) : FirstPlane (shown s) :=
  ⟨_, shown_eq s, List.forall_mem_map.mpr fun c _ => narrowed_lt c⟩

/-- Text of the first plane comes back. -/
theorem shown_of_firstPlane {s : Bytes} (h : FirstPlane s) : shown s = s := by
  obtain ⟨cs, rfl, hcs⟩ := h
  rw [shown_eq, characters_encodeAll, List.map_congr_left fun c hc => narrowed_of_lt (hcs c hc),
    List.map_id']

/-- **A text comes back as it was if and only if it is UTF-8 of the first plane**, and what has
come back once comes back for good. -/
theorem shown_eq_self_iff (s : Bytes) :
    (shown s = s ↔ FirstPlane s) ∧ shown (shown s) = shown s := by
  refine ⟨⟨fun h => ?_, shown_of_firstPlane⟩, shown_of_firstPlane (firstPlane_shown s)⟩
  rw [← h]
  exact firstPlane_shown s

end TronWallet.Theorems
