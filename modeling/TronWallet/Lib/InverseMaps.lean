import Mathlib.Logic.Relator
import TronWallet.Lib.UnorderedMap

/-!
# Two maps kept inverse to each other

Two tables that are to be inverse are updated one at a time.  Noting a pair in both keeps
them inverse when every pair noted comes from one relation that is unique both ways, and
forgetting a pair keeps them inverse when it is forgotten on both sides.
-/

set_option autoImplicit false

namespace TronWallet.Lib

variable {A U : Type} [DecidableEq A]

/-- The pairs of a map are related. -/
def Within (R : A → U → Prop) (f : UnorderedMap A U) : Prop := ∀ a u, f.lookup a = some u → R a u

namespace Within

variable {R : A → U → Prop} {f : UnorderedMap A U} {a : A} {u : U}

/-- The empty table is within every relation. -/
theorem empty : Within R (∅ : UnorderedMap A U) := by
  intro a u h
  cases h

/-- A table stays within a wider relation. -/
theorem mono {R' : A → U → Prop} (h : Within R f) (hR : ∀ a u, R a u → R' a u) : Within R' f :=
  fun a u hau => hR a u (h a u hau)

/-- A pair of the relation may be entered. -/
theorem insert (h : Within R f) (hau : R a u) : Within R (f.insert a u) := by
  intro a' u' heq
  rw [UnorderedMap.lookup_insert_eq] at heq
  by_cases ha : a' = a
  · rw [if_pos ha] at heq
    cases heq
    rw [ha]
    exact hau
  · rw [if_neg ha] at heq
    exact h a' u' heq

/-- Erasing keeps a table within the relation. -/
theorem erase (h : Within R f) : Within R (f.erase a) := by
  intro a' u' heq
  rw [UnorderedMap.lookup_erase_eq] at heq
  by_cases ha : a' = a
  · rw [if_pos ha] at heq
    cases heq
  · rw [if_neg ha] at heq
    exact h a' u' heq

end Within

variable [DecidableEq U]

/-- One map takes a key to a value exactly when the other one takes the value to the key. -/
def Inverse (f : UnorderedMap A U) (g : UnorderedMap U A) : Prop :=
  ∀ a u, f.lookup a = some u ↔ g.lookup u = some a

namespace Inverse

variable {f : UnorderedMap A U} {g : UnorderedMap U A} {a : A} {u : U}

/-- Two empty tables are inverse to each other. -/
theorem empty : Inverse (∅ : UnorderedMap A U) (∅ : UnorderedMap U A) := by
  intro a u
  simp

/-- **Noting a related pair** keeps the maps inverse, if the relation is unique both ways. -/
theorem insert {R : A → U → Prop} (hR : Relator.BiUnique R) (h : Inverse f g)
    (hin : Within R f) (hau : R a u) : Inverse (f.insert a u) (g.insert u a) := by
  intro a' u'
  rw [UnorderedMap.lookup_insert_eq, UnorderedMap.lookup_insert_eq]
  by_cases ha : a' = a
  · subst ha
    by_cases hu : u' = u
    · subst hu
      rw [if_pos rfl, if_pos rfl]
      simp
    · rw [if_pos rfl, if_neg hu, ← h a' u']
      constructor
      · intro heq
        exact (hu (Option.some.inj heq).symm).elim
      · intro heq
        exact (hu (hR.2 (hin a' u' heq) hau)).elim
  · rw [if_neg ha]
    by_cases hu : u' = u
    · subst hu
      rw [if_pos rfl]
      constructor
      · intro heq
        exact (ha (hR.1 (hin a' u' heq) hau)).elim
      · intro heq
        exact (ha (Option.some.inj heq).symm).elim
    · rw [if_neg hu]
      exact h a' u'

/-- Forgetting a pair keeps the maps inverse. -/
theorem erase (h : Inverse f g) (hau : f.lookup a = some u) :
    Inverse (f.erase a) (g.erase u) := by
  have hua : g.lookup u = some a := (h a u).mp hau
  intro a' u'
  rw [UnorderedMap.lookup_erase_eq, UnorderedMap.lookup_erase_eq]
  by_cases ha : a' = a
  · subst ha
    by_cases hu : u' = u
    · simp [hu]
    · rw [if_pos rfl, if_neg hu, ← h a' u', hau]
      simp [Ne.symm hu]
  · rw [if_neg ha]
    by_cases hu : u' = u
    · subst hu
      rw [if_pos rfl, h a' u', hua]
      simp [Ne.symm ha]
    · rw [if_neg hu]
      exact h a' u'

/-- Forgetting a key that one map does not have, and any value of the other: the maps stay
inverse exactly when the value is not there either. -/
theorem erase_of_none (h : Inverse f g) (ha : f.lookup a = none) :
    Inverse (f.erase a) (g.erase u) ↔ g.lookup u = none := by
  constructor
  · intro herase
    by_contra hne
    obtain ⟨a', ha'⟩ := Option.ne_none_iff_exists'.mp hne
    have hau : f.lookup a' = some u := (h a' u).mpr ha'
    have hne : a' ≠ a := by
      rintro rfl
      rw [ha] at hau
      cases hau
    have hkept := (herase a' u).mp (by rw [UnorderedMap.lookup_erase_eq, if_neg hne, hau])
    rw [UnorderedMap.lookup_erase_eq, if_pos rfl] at hkept
    cases hkept
  · intro hu a' u'
    rw [UnorderedMap.lookup_erase_eq, UnorderedMap.lookup_erase_eq]
    have hleft : (if a' = a then none else f.lookup a') = f.lookup a' := by
      by_cases ha' : a' = a
      · rw [if_pos ha', ha', ha]
      · rw [if_neg ha']
    have hright : (if u' = u then none else g.lookup u') = g.lookup u' := by
      by_cases hu' : u' = u
      · rw [if_pos hu', hu', hu]
      · rw [if_neg hu']
    rw [hleft, hright]
    exact h a' u'

end Inverse

end TronWallet.Lib
