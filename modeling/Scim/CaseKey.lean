set_option autoImplicit false

/-!
# Names compared without regard to case

Attribute names, sub-attribute names and schema URIs identify the same thing when they differ
only in the case of the letters `A` to `Z`.  Every comparison of names in this library goes
through one key, so that it is an equivalence by construction.

## Main definitions

* `Scim.caseKey` — the characters of a name with `A` … `Z` replaced by `a` … `z`.
* `Scim.SameName` — equality of the keys.

## Main results

* `Scim.SameName.refl`, `SameName.symm`, `SameName.trans` — it is an equivalence.
-/

namespace Scim

/-- The form in which names are compared: the letters `A` to `Z` become `a` to `z`, and every
other character, an accented letter too, stays itself. -/
def caseKey (name : String) : List Char := name.toList.map Char.toLower

/-- Two names are the same when they have the same key. -/
def SameName (a b : String) : Prop := caseKey a = caseKey b

instance (a b : String) : Decidable (SameName a b) :=
  inferInstanceAs (Decidable (caseKey a = caseKey b))

@[refl] theorem SameName.refl (a : String) : SameName a a := rfl

@[symm] theorem SameName.symm {a b : String} (h : SameName a b) : SameName b a :=
  Eq.symm h

theorem SameName.trans {a b c : String} (h : SameName a b) (h' : SameName b c) :
    SameName a c :=
  Eq.trans h h'

/-- Only the empty name has the empty key. -/
theorem caseKey_eq_nil_iff {name : String} : caseKey name = [] ↔ name = "" := by
  rw [caseKey, List.map_eq_nil_iff, String.toList_eq_nil_iff]

end Scim
