set_option autoImplicit false

/-!
# Lists with one element per key

A resource keeps its attributes in the order in which they first appeared, with at most one
attribute per name.  This module holds the operations of such a list for any notion of key.
A replaced element keeps its position, and a new one comes last.

## Main definitions

* `Scim.Keyed.get?` — the element under a key.
* `Scim.Keyed.insert`, `erase` — put an element in or take one out, and say what stood there.
* `Scim.Keyed.ofList` — insert a list of elements one after the other.
* `Scim.Keyed.distinct` — the first of each class of equal elements.

## Main results

* `Scim.Keyed.insert_fst`, `erase_fst` — both answer what `get?` answered before.
-/

namespace Scim.Keyed

variable {α κ : Type} [DecidableEq κ]

/-- The first element whose key is `k`. -/
def get? (key : α → κ) (k : κ) : List α → Option α
  | [] => none
  | x :: xs => if key x = k then some x else get? key k xs

/-- Puts `x` in the place of the element with its key, or at the end when there is none.  The
first component is the element that was replaced. -/
def insert (key : α → κ) (x : α) : List α → Option α × List α
  | [] => (none, [x])
  | y :: ys =>
    if key y = key x then (some y, x :: ys)
    else
      let rest := insert key x ys
      (rest.1, y :: rest.2)

/-- Takes out the element with key `k`.  The first component is that element. -/
def erase (key : α → κ) (k : κ) : List α → Option α × List α
  | [] => (none, [])
  | y :: ys =>
    if key y = k then (some y, ys)
    else
      let rest := erase key k ys
      (rest.1, y :: rest.2)

/-- Inserts the elements of a list in order: of two with one key the later stands in the place
of the earlier. -/
def ofList (key : α → κ) (xs : List α) : List α :=
  xs.foldl (fun kept x => (insert key x kept).2) []

@[simp] theorem insert_fst (key : α → κ) (x : α) (xs : List α) :
    (insert key x xs).1 = get? key (key x) xs := by
  induction xs with
  | nil => rfl
  | cons y ys ih => by_cases h : key y = key x <;> simp [insert, get?, h, ih]

@[simp] theorem erase_fst (key : α → κ) (k : κ) (xs : List α) :
    (erase key k xs).1 = get? key k xs := by
  induction xs with
  | nil => rfl
  | cons y ys ih => by_cases h : key y = k <;> simp [erase, get?, h, ih]

/-- Keeps the first of each class of elements that `==` does not tell apart. -/
def distinct {β : Type} [BEq β] : List β → List β
  | [] => []
  | x :: xs => x :: (distinct xs).filter fun y => !(x == y)

end Scim.Keyed
