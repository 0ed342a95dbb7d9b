import Scim.AttributeMap

set_option autoImplicit false

/-!
# Agreement of resources

The values of a multi-valued attribute have no order that a service provider must keep.  Two
resources agree when they have the same attributes, equal ones where there is one value and the
same set of values where there may be several.

## Main definitions

* `Scim.Value.sameSet` — two lists hold the same values, whatever their order and repetitions.
* `Scim.Attribute.agrees` — two attributes of one key say the same.
* `Scim.AttributeMap.agrees` — two resources say the same.
-/

namespace Scim

/-- Whether each value of the first list is in the second. -/
def Value.subset (vs ws : List Value) : Bool := vs.all fun v => ws.any fun w => w == v

/-- Whether two lists hold the same values, whatever their order and repetitions. -/
def Value.sameSet (vs ws : List Value) : Bool := subset vs ws && subset ws vs

/-- Whether two attributes of one key say the same. -/
def Attribute.agrees (a b : Attribute) : Bool :=
  if a.isMultiValued then Value.sameSet a.values b.values else a == b

/-- Whether two maps have equally many attributes and the second has one that says the same for
each of the first. -/
def AttributeMap.agrees (m n : AttributeMap) : Bool :=
  m.size == n.size &&
    m.toList.all fun a => (n.get? a.schema a.name).any fun b => a.agrees b

end Scim
