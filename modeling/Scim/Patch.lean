import Scim.Diff
import Scim.Registry
import Scim.Resource

set_option autoImplicit false

/-!
# PATCH bodies

The body of a PATCH request is a partial resource.  Updated attributes stand in it with their new
values, and the paths to delete are the values of `meta.attributes`.  A service provider ignores
read-only attributes, so they are left out.

## Main definitions

* `Scim.Diff.patch` — the body as an attribute map.
* `Scim.Diff.patchJson` — the written body.
* `Scim.Diff.partialResource` — the body as a resource of some kind.
* `Scim.ScimError` — every error that a caller of this library may meet.
-/

namespace Scim

/-- The errors of the operations that tie the parts of this library together. -/
inductive ScimError where
  | invalidPath (cause : PathError)
  | invalidResource (resourceType : String) (cause : ResourceError)
  | registry (cause : RegistryError)
deriving DecidableEq, Repr

/-- The text of an error. -/
def ScimError.message : ScimError → String
  | .invalidPath cause => s!"Invalid attribute path: {cause.message}"
  | .invalidResource type cause => s!"Invalid {type} resource: {cause.message}"
  | .registry cause => cause.message

namespace Diff

/-- The attribute `meta` that lists the deletions. -/
def deletionMeta (d : Diff) : Except Defect Attribute :=
  match d.type.metaAttribute? with
  | none => .error (.missingMeta d.type.name d.type.core)
  | some metaAttribute =>
    match metaAttribute.sub? deletionListName with
    | none => .error (.missingDeletionList d.type.name)
    | some list =>
      let paths : Attribute := ⟨list, d.deletedPaths.map Value.string⟩
      .ok (.single metaAttribute (.complex (.ofList [paths])))

/-- The updates that a service provider does not ignore. -/
def writableUpdates (d : Diff) : List Attribute :=
  d.updates.filter fun a => !a.descriptor.isReadOnly

/-- The body of the PATCH request.  It has a defect when there are deletions and the resource
type has no place for them. -/
def patch (d : Diff) : Except Defect AttributeMap := do
  if d.deletions.isEmpty then
    return .ofList d.writableUpdates
  else
    return .ofList ((← d.deletionMeta) :: d.writableUpdates)

/-- The written body. -/
def patchJson (d : Diff) : Except Defect Json :=
  d.patch.map fun body => body.toJson d.type

/-- The body as a resource that a factory makes. -/
def partialResource {R : Type} (d : Diff) (factory : ResourceFactory R) :
    Except Defect (Except ScimError R) :=
  d.patch.map fun body =>
    (factory d.type body).mapError fun cause => .invalidResource d.type.name cause

end Diff

end Scim
