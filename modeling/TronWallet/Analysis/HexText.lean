import TronWallet.Model.Bytes

/-!
# Texts that are read as hexadecimal

`fromHex` without exceptions reads more than it should.  A text of an even number of
hexadecimal digits gives its bytes (`hexBytes`).  Of other texts, `0x` in front is skipped
and a zero is understood in front of an odd number of characters; a bad digit then gives no
bytes at all, which is also what the empty text stands for (`fromHex_eq`).
-/

set_option autoImplicit false

namespace TronWallet.Analysis

open TronWallet.Model

/-- The bytes of an even number of hexadecimal digits, `none` for any other text. -/
def hexBytes : Bytes → Option Bytes
  | [] => some []
  | [_] => none
  | h :: l :: rest =>
    match fromHexChar h, fromHexChar l with
    | some h, some l => (hexBytes rest).map (UInt8.ofNat (h * 16 + l) :: ·)
    | _, _ => none

/-- A text without the `0x` in front. -/
def stripped (s : Bytes) : Bytes := if s.take 2 = [48, 120] then s.drop 2 else s

/-- A text with a zero in front if its length is odd. -/
def evened (s : Bytes) : Bytes := if s.length % 2 = 1 then 48 :: s else s

/-- The texts that have bytes. -/
theorem hexBytes_isSome_iff (s : Bytes) :
    (hexBytes s).isSome ↔ s.length % 2 = 0 ∧ ∀ c ∈ s, (fromHexChar c).isSome := by
  induction s using hexBytes.induct with
  | case1 => simp [hexBytes]
  | case2 c => simp [hexBytes]
  | case3 h l rest vh vl hh hl ih =>
      rw [hexBytes, hh, hl]
      simp only [Option.isSome_map, ih, List.length_cons, List.forall_mem_cons, hh, hl,
        Option.isSome_some, true_and]
      constructor
      · rintro ⟨heven, hrest⟩
        exact ⟨by omega, hrest⟩
      · rintro ⟨heven, hrest⟩
        exact ⟨by omega, hrest⟩
  | case4 h l rest hbad =>
      rw [hexBytes]
      cases hh : fromHexChar h with
      | none => simp [hh]
      | some vh =>
          cases hl : fromHexChar l with
          | none => simp [hl]
          | some vl => exact (hbad vh vl hh hl).elim

/-- On an even number of characters the pairs are read the same way. -/
theorem fromHexPairs_eq_hexBytes {s : Bytes} (heven : s.length % 2 = 0) :
    fromHexPairs s = hexBytes s := by
  induction s using hexBytes.induct with
  | case1 => rfl
  | case2 c => cases heven
  | case3 h l rest vh vl hh hl ih =>
      rw [List.length_cons, List.length_cons] at heven
      rw [fromHexPairs, hexBytes, hh, hl, ih (by omega)]
  | case4 h l rest hbad =>
      rw [fromHexPairs, hexBytes]
      cases hh : fromHexChar h with
      | none => rfl
      | some vh =>
          cases hl : fromHexChar l with
          | none => rfl
          | some vl => exact (hbad vh vl hh hl).elim

/-- **What `fromHex` makes of a text.** -/
theorem fromHex_eq (s : Bytes) : fromHex s = (hexBytes (evened (stripped s))).getD [] := by
  have hparity : (stripped s).length % 2 = s.length % 2 := by
    unfold stripped
    by_cases hmark : s.take 2 = [48, 120]
    · rw [if_pos hmark, List.length_drop]
      have hlen := congrArg List.length hmark
      rw [List.length_take] at hlen
      simp only [List.length_cons, List.length_nil] at hlen
      omega
    · rw [if_neg hmark]
  unfold fromHex evened
  dsimp only
  rw [show (if s.take 2 = [48, 120] then s.drop 2 else s) = stripped s from rfl]
  by_cases hodd : s.length % 2 = 1
  · rw [if_pos hodd, if_pos (hparity.trans hodd)]
    cases hs : stripped s with
    | nil =>
        rw [hs] at hparity
        simp only [List.length_nil] at hparity
        omega
    | cons c rest =>
        rw [hs, List.length_cons] at hparity
        have hzero : fromHexChar 48 = some 0 := rfl
        dsimp only
        rw [hexBytes, hzero, fromHexPairs_eq_hexBytes (by omega)]
        cases fromHexChar c with
        | none => rfl
        | some h => simp
  · have heven : (stripped s).length % 2 = 0 := by omega
    rw [if_neg hodd, if_neg (by omega), fromHexPairs_eq_hexBytes heven]

/-- A text of an even number of digits is read as it is. -/
theorem evened_stripped_of_hexBytes {s b : Bytes} (h : hexBytes s = some b) :
    evened (stripped s) = s := by
  obtain ⟨heven, hdigits⟩ := (hexBytes_isSome_iff s).mp (by rw [h]; rfl)
  have hmark : ¬ s.take 2 = [48, 120] := by
    intro hmark
    have hmem : (120 : UInt8) ∈ s.take 2 := by
      rw [hmark]
      decide
    have hdigit := hdigits 120 (List.mem_of_mem_take hmem)
    cases hdigit
  unfold evened stripped
  rw [if_neg hmark, if_neg (by omega)]

/-- Well-formed hexadecimal is read as its bytes. -/
theorem fromHex_of_hexBytes {s b : Bytes} (h : hexBytes s = some b) : fromHex s = b := by
  rw [fromHex_eq, evened_stripped_of_hexBytes h, h, Option.getD_some]

end TronWallet.Analysis
