import Scim.Proofs.Outcome
import Scim.Resource.Reader

set_option autoImplicit false

/-!
# Members that are null

A member whose value is `null` says the same as no member at all: at the top level, in the object of
an extension and in a complex value, whether its name is known or not.  Leaving all of them out may
empty an extension, a complex value or an item of a multi-valued attribute, which then counts as
absent as it did before.

## Main definitions

* `Scim.Json.withoutNulls` — a document without the members that are `null`, at every depth.

## Main results

* `Scim.Json.flatMapM_membersWithoutNulls` — a run over the members of an object that passes over
  `null` does not see that they are left out.
* `Scim.Descriptor.readAttribute_withoutNulls` — nor does the reader of an attribute.
* `Scim.AttributeMap.ofJson_withoutNulls` — nor does the reader of a resource.
-/

namespace Scim

/-! ## Leaving members out -/

namespace Json

mutual

/-- A value without the members of objects that are `null`, at every depth.  The items of an array
all stay, `null` or not. -/
def withoutNulls : Json → Json
  | .null => .null
  | .bool b => .bool b
  | .number n => .number n
  | .string s => .string s
  | .array items => .array (itemsWithoutNulls items)
  | .object members => .object (membersWithoutNulls members)

/-- The items of an array, without the members in them that are `null`. -/
def itemsWithoutNulls : List Json → List Json
  | [] => []
  | x :: xs => withoutNulls x :: itemsWithoutNulls xs

/-- The members of an object that are not `null`, without the members in them that are. -/
def membersWithoutNulls : List (String × Json) → List (String × Json)
  | [] => []
  | (key, x) :: rest =>
    if x.isNull then membersWithoutNulls rest
    else (key, withoutNulls x) :: membersWithoutNulls rest

end

variable {β ε : Type}

@[simp] lemma withoutNulls_array (items : List Json) :
    (array items).withoutNulls = .array (itemsWithoutNulls items) := by
  rw [withoutNulls]

@[simp] lemma withoutNulls_object (members : List (String × Json)) :
    (object members).withoutNulls = .object (membersWithoutNulls members) := by
  rw [withoutNulls]

/-- Nothing becomes `null`. -/
@[simp] lemma isNull_withoutNulls (value : Json) : value.withoutNulls.isNull = value.isNull := by
  cases value <;> simp [withoutNulls, isNull]

/-- A run over the items of an array, each of which is read as before. -/
lemma filterMapM_itemsWithoutNulls {f : Json → Except ε (Option β)}
    (hread : ∀ x, f x.withoutNulls = f x) (items : List Json) :
    (itemsWithoutNulls items).filterMapM f = items.filterMapM f := by
  induction items with
  | nil => rw [itemsWithoutNulls]
  | cons x xs ih => rw [itemsWithoutNulls, List.filterMapM_cons, List.filterMapM_cons, hread, ih]

/-- **A run over the members of an object that passes over `null`** does not see that the members
that are `null` are left out. -/
lemma flatMapM_membersWithoutNulls {f : String × Json → Except ε (List β)}
    (hnull : ∀ m, m.2.isNull = true → f m = .ok [])
    (hread : ∀ m, f (m.1, m.2.withoutNulls) = f m) (members : List (String × Json)) :
    (membersWithoutNulls members).flatMapM f = members.flatMapM f := by
  induction members with
  | nil => rw [membersWithoutNulls]
  | cons m rest ih =>
    obtain ⟨key, x⟩ := m
    rw [membersWithoutNulls]
    split
    · rename_i hx
      rw [List.flatMapM_cons, hnull (key, x) hx, ih]
      exact (id_map (rest.flatMapM f)).symm
    · rw [List.flatMapM_cons, List.flatMapM_cons, hread (key, x), ih]

/-- The same for a run whose steps give one result at most. -/
lemma filterMapM_membersWithoutNulls {f : String × Json → Except ε (Option β)}
    (hnull : ∀ m, m.2.isNull = true → f m = .ok none)
    (hread : ∀ m, f (m.1, m.2.withoutNulls) = f m) (members : List (String × Json)) :
    (membersWithoutNulls members).filterMapM f = members.filterMapM f := by
  rw [Outcome.filterMapM_eq_flatMapM, Outcome.filterMapM_eq_flatMapM]
  apply flatMapM_membersWithoutNulls
  · intro m hm
    rw [hnull m hm]
    rfl
  · intro m
    rw [hread]

end Json

/-! ## Reading attributes -/

namespace Descriptor

variable (d : Descriptor)

/-- A scalar is read as before: what has members or items is refused whatever they are. -/
lemma readScalar_withoutNulls (value : Json) :
    d.readScalar value.withoutNulls = d.readScalar value := by
  cases value with
  | array items => unfold readScalar; cases d.type <;> simp [typeError, Json.kind]
  | object members => unfold readScalar; cases d.type <;> simp [typeError, Json.kind]
  | _ => rw [Json.withoutNulls]

/-- The values of an attribute are read as before when each of them is. -/
lemma readValues_withoutNulls {read : Json → Except ResourceError (Option Value)}
    (hread : ∀ v, read v.withoutNulls = read v) (value : Json) :
    d.readValues read value.withoutNulls = d.readValues read value := by
  unfold readValues
  cases hmulti : d.isMultiValued with
  | true =>
    cases value with
    | array items => simp [Json.filterMapM_itemsWithoutNulls hread]
    | _ => simp [Json.withoutNulls]
  | false =>
    cases value with
    | object members =>
      have hobject := hread (.object members)
      rw [Json.withoutNulls_object] at hobject ⊢
      simp only [hobject]
    | _ => simp [Json.withoutNulls]

/-- The values of a simple attribute are read as before. -/
lemma readSimple_withoutNulls (value : Json) :
    d.readSimple value.withoutNulls = d.readSimple value := by
  apply d.readValues_withoutNulls
  intro v
  rw [d.readScalar_withoutNulls]

/-- A member of a complex value is read as before, after the check for `null`. -/
lemma readSub_withoutNulls (key : String) (value : Json) :
    d.readSub key value.withoutNulls = d.readSub key value := by
  simp [readSub, readSimple_withoutNulls]

/-- A complex value is read as before, and emptied ones count as absent as they did. -/
lemma readEntry_withoutNulls (value : Json) :
    d.readEntry value.withoutNulls = d.readEntry value := by
  cases value with
  | object members =>
    have hmembers : (Json.membersWithoutNulls members).filterMapM (fun m => d.readSub m.1 m.2) =
        members.filterMapM fun m => d.readSub m.1 m.2 := by
      apply Json.filterMapM_membersWithoutNulls
      · intro m hm
        simp [readSub, hm]
      · intro m
        exact d.readSub_withoutNulls m.1 m.2
    simp [readEntry, hmembers]
  | array items => simp [readEntry, typeError, Json.kind]
  | _ => rw [Json.withoutNulls]

/-- **An attribute is read as before.** -/
lemma readAttribute_withoutNulls (value : Json) :
    d.readAttribute value.withoutNulls = d.readAttribute value := by
  unfold readAttribute
  split
  · exact d.readValues_withoutNulls d.readEntry_withoutNulls value
  · exact d.readSimple_withoutNulls value

end Descriptor

/-! ## Reading resources -/

namespace ResourceType

variable (t : ResourceType)

/-- A member of the part of one schema is read as before. -/
lemma readIn_withoutNulls (schema key : String) (value : Json) :
    t.readIn schema key value.withoutNulls = t.readIn schema key value := by
  unfold readIn
  split
  · rfl
  · rename_i d _
    exact d.readAttribute_withoutNulls value

/-- A member of a resource is read as before. -/
lemma readMember_withoutNulls (key : String) (value : Json) :
    t.readMember key value.withoutNulls = t.readMember key value := by
  unfold readMember
  rw [Json.isNull_withoutNulls]
  split
  · rfl
  · split
    · -- the object of an extension
      rename_i extension _
      cases value with
      | object members =>
        apply Json.filterMapM_membersWithoutNulls
        · intro m hm
          rw [if_pos hm]
        · intro m
          rw [Json.isNull_withoutNulls, t.readIn_withoutNulls]
      | array items => simp [Json.kind]
      | _ => rw [Json.withoutNulls]
    · rw [t.readIn_withoutNulls]

end ResourceType

namespace AttributeMap

/-- **Null members are absent members.**  For every resource type and every document, leaving out
all members that are `null`, at every depth, does not change what the document is read as: the same
attributes in the same order, or the same error.

**Proof sketch.**  Each of the three loops over members, that of a resource, of an extension and of
a complex value, passes over `null` before it looks at the name.  What it reads of the other members
is by induction the same, and errors name nothing of a value but its kind. -/
theorem ofJson_withoutNulls (t : ResourceType) (document : Json) :
    ofJson t document.withoutNulls = ofJson t document := by
  cases document with
  | object members =>
    have hmembers : (Json.membersWithoutNulls members).flatMapM (fun m => t.readMember m.1 m.2) =
        members.flatMapM fun m => t.readMember m.1 m.2 := by
      apply Json.flatMapM_membersWithoutNulls
      · intro m hm
        rw [ResourceType.readMember, if_pos (.inr hm)]
      · intro m
        exact t.readMember_withoutNulls m.1 m.2
    simp [ofJson, hmembers]
  | array items => simp [ofJson]
  | _ => rw [Json.withoutNulls]

-- items of arrays stay, be they `null` or emptied
example : (Json.object [("a", .null), ("b", .array [.null, .object [("c", .null)]])]).withoutNulls =
    .object [("b", .array [.null, .object []])] := by
  rfl

end AttributeMap

end Scim
