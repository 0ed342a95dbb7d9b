import Scim.AttributeMap
import Scim.Selector

set_option autoImplicit false

/-!
# The selected part of a resource

What a selector sees of a resource: the selected attributes with their selected sub-attributes.
Entries of which nothing is selected are left out, and so are repeated values and attributes
without any value.

## Main definitions

* `Scim.Selector.projectEntry`, `projectValue?` — the selected part of a value.
* `Scim.Selector.projectAttribute?` — the selected part of an attribute.
* `Scim.Selector.project` — the selected part of a resource.
-/

namespace Scim.Selector

/-- The selected sub-attributes of an entry of an attribute. -/
def projectEntry (s : Selector) (a : Attribute) (e : Entry) : Entry :=
  ⟨e.subAttributes.filter fun sub => s.matchesSub a.schema a.name sub.name⟩

/-- The selected part of a value of an attribute, unless nothing of it is selected.  A simple
value has no parts. -/
def projectValue? (s : Selector) (a : Attribute) : Value → Option Value
  | .simple j => some (.simple j)
  | .complex e =>
    let part := s.projectEntry a e
    if part.isEmpty then none else some (.complex part)

/-- The selected part of an attribute, each value once, unless no value is left. -/
def projectAttribute? (s : Selector) (a : Attribute) : Option Attribute :=
  if s.matchesAttribute a.schema a.name then
    let values := Keyed.distinct (a.values.filterMap (s.projectValue? a))
    if values.isEmpty then none else some { a with values }
  else none

/-- The selected part of a resource. -/
def project (s : Selector) (m : AttributeMap) : AttributeMap :=
  .ofList (m.toList.filterMap s.projectAttribute?)

end Scim.Selector
