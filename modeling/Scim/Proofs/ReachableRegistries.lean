import Scim.Proofs.Locality

set_option autoImplicit false

/-!
# Registries that are reached

A registry starts empty or with the standard schemas.  From there it changes by requests: schemas
are added or replaced, and resource types are registered, whether or not the schemas that they
name are there.  Whatever the schemas say, each resource type that a registry holds was made by one
of its registrations.  So entries of its resources can always be marked for removal, and comparing
two of them has no defect.

## Main definitions

* `Scim.Registry.Reachable` — the registries that some sequence of requests makes.

## Main results

* `Scim.Registry.Reachable.isRegistered` — every resource type of a reachable registry was
  registered.
* `Scim.Registry.Reachable.exists_holder` — what a registration answers is held by a reachable
  registry.
* `Scim.Diff.between_no_defect` — comparing resources of a registered type has no defect.
-/

namespace Scim

namespace Registry

variable {r r' : Registry} {t : ResourceType} {name endpoint core : String}
  {extensions : List String}

/-! ## Requests -/

/-- The registries that are reached from the empty or the standard one by any sequence of requests.
The added schemas are arbitrary, and so are the names of a registration, which may fail. -/
inductive Reachable : Registry → Prop
  /-- Nothing has been requested of the empty registry. -/
  | empty : Reachable .empty
  /-- Nothing has been requested of the standard registry. -/
  | standard : Reachable .standard
  /-- A schema is added, or replaces one of the same URI. -/
  | addSchema {r : Registry} (h : Reachable r) (schema : Schema) : Reachable (r.addSchema schema)
  /-- A resource type is registered, unless a schema is missing. -/
  | register {r : Registry} (h : Reachable r) (name endpoint core : String)
      (extensions : List String) : Reachable (r.afterRegister name endpoint core extensions)

/-- A registration that succeeds keeps the resource type that it answers under its name. -/
lemma resourceTypes_of_register
    (h : r.register name endpoint core extensions = .ok (t, r')) :
    r'.resourceTypes = (Keyed.insert ResourceType.name t r.resourceTypes).2 := by
  obtain ⟨coreSchema, extensionSchemas, -, -, -, rfl⟩ := ResourceType.register_ok h
  rfl

/-- After a registration that succeeds the registry is the one that it answers. -/
lemma afterRegister_eq (h : r.register name endpoint core extensions = .ok (t, r')) :
    r.afterRegister name endpoint core extensions = r' := by
  rw [afterRegister, h]

/-! ## The invariant -/

/-- Every resource type that a registry holds was registered. -/
def Sound (r : Registry) : Prop := ∀ t ∈ r.resourceTypes, t.IsRegistered

/-- The empty registry holds no resource types. -/
lemma sound_empty : empty.Sound := by
  intro t ht
  cases ht

/-- Adding a schema changes no resource type, even if it was built from one with the same URI. -/
lemma Sound.addSchema (h : r.Sound) (schema : Schema) : (r.addSchema schema).Sound := h

/-- A registration adds the resource type that it builds, if any. -/
lemma Sound.afterRegister (h : r.Sound) (name endpoint core : String) (extensions : List String) :
    (r.afterRegister name endpoint core extensions).Sound := by
  cases hregister : r.register name endpoint core extensions with
  | error e =>
    rw [Registry.afterRegister, hregister]
    exact h
  | ok answer =>
    obtain ⟨built, r'⟩ := answer
    rw [afterRegister_eq hregister]
    intro t ht
    rw [resourceTypes_of_register hregister] at ht
    rcases Keyed.mem_insert ht with rfl | ht
    · exact ⟨r, r', name, endpoint, core, extensions, hregister⟩
    · exact h t ht

/-- The standard registry is made of the empty one by such steps. -/
lemma sound_standard : standard.Sound :=
  ((((sound_empty.addSchema _).addSchema _).addSchema _).afterRegister _ _ _ _).afterRegister
    _ _ _ _

/-- **Every resource type of a reachable registry was registered.** -/
theorem Reachable.isRegistered (h : r.Reachable) : ∀ t ∈ r.resourceTypes, t.IsRegistered := by
  change r.Sound
  induction h with
  | empty => exact sound_empty
  | standard => exact sound_standard
  | addSchema _ schema ih => exact ih.addSchema schema
  | register _ name endpoint core extensions ih =>
    exact ih.afterRegister name endpoint core extensions

/-- **What a registration answers is held.**  The registry that it leaves is reachable, too, and
holds the resource type. -/
theorem Reachable.exists_holder (h : r.Reachable)
    (hregister : r.register name endpoint core extensions = .ok (t, r')) :
    r'.Reachable ∧ t ∈ r'.resourceTypes := by
  constructor
  · rw [← afterRegister_eq hregister]
    exact h.register name endpoint core extensions
  · rw [resourceTypes_of_register hregister]
    have hfound : Keyed.get? ResourceType.name t.name
        (Keyed.insert ResourceType.name t r.resourceTypes).2 = some t := by
      rw [Keyed.get?_insert, if_pos rfl]
    exact Keyed.mem_of_get? hfound

end Registry

/-! ## A resource type with names of its own -/

/-- A schema that defines `meta` as a text and a sub-attribute `operation` as a truth value, each in
a spelling of its own. -/
def toolSchema : Schema where
  id := "urn:tool"
  name := "Tool"
  attributes :=
    [ Standard.plain "Meta",
      Standard.entries "parts" [Standard.plain "value", Standard.plain "OPERATION" .boolean] ]

/-- The resource type that is built from that schema. -/
def toolType : ResourceType :=
  .ofSchemas "Tool" "Tools" (toolSchema.withCommon Standard.common).withOperations []

/-- The empty registry with that schema. -/
def toolRegistry : Registry := Registry.empty.addSchema toolSchema

/-- The registration finds the schema, however it is spelled. -/
lemma register_tool : toolRegistry.register "Tool" "Tools" "URN:Tool" [] =
    .ok (toolType, toolRegistry.afterRegister "Tool" "Tools" "URN:Tool" []) :=
  rfl

/-- A tool with a text and some parts. -/
def toolJson (text : String) (parts : List String) : Json :=
  .object [("meta", .string text), ("parts", .array (parts.map fun p =>
    .object [("value", .string p)]))]

/-! ## Differences without defect -/

namespace Diff

/-- **Comparing resources of a registered type has no defect.**  For every registry that is
reached, every resource type that it holds, any two resources read as that type and any selector,
the difference exists.  In particular no entry lacks the sub-attribute that marks it for removal,
however the schemas spell or type an `operation` of their own. -/
theorem between_no_defect {r : Registry} (hr : r.Reachable) {t : ResourceType}
    (ht : t ∈ r.resourceTypes) {source target : AttributeMap} {sourceJson targetJson : Json}
    (hsource : AttributeMap.ofJson t sourceJson = .ok source)
    (htarget : AttributeMap.ofJson t targetJson = .ok target) (s : Selector) :
    ∃ d, between t source target s = .ok d :=
  ⟨_, between_eq (hr.isRegistered t ht) (AttributeMap.conforms_of_ofJson hsource)
    (AttributeMap.conforms_of_ofJson htarget) s⟩

/-- A tool loses one of two parts, so that an entry has to be marked by the truth value
`OPERATION`. -/
theorem between_no_defect_tools : ∃ source target d,
    AttributeMap.ofJson toolType (toolJson "a" ["1", "2"]) = .ok source ∧
    AttributeMap.ofJson toolType (toolJson "a" ["2"]) = .ok target ∧
    between toolType source target .all = .ok d := by
  have hreached : toolRegistry.Reachable := .addSchema .empty toolSchema
  obtain ⟨hr, ht⟩ := hreached.exists_holder register_tool
  obtain ⟨source, hsource⟩ : ∃ source,
      AttributeMap.ofJson toolType (toolJson "a" ["1", "2"]) = .ok source := ⟨_, rfl⟩
  obtain ⟨target, htarget⟩ : ∃ target,
      AttributeMap.ofJson toolType (toolJson "a" ["2"]) = .ok target := ⟨_, rfl⟩
  obtain ⟨d, hd⟩ := between_no_defect hr ht hsource htarget .all
  exact ⟨source, target, d, hsource, htarget, hd⟩

end Diff

end Scim
