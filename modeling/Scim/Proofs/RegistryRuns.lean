import Scim.Proofs.ReachableRegistries

set_option autoImplicit false

/-!
# Runs of a registry

A registry serves requests one after the other: documents are added or replaced, and resource types
are registered or fail to be.  What it answers afterwards can be read off a log of the requests,
without following the registry: the latest document of a URI, word for word, and the resource type
that the latest successful registration of a name built from the documents of its time.

## Main definitions

* `Scim.Registry.Request`, `Scim.Registry.run` — requests and what a registry becomes by them.
* `Scim.Registry.document?`, `Scim.Registry.type?` — documents and resource types by a log.
* `Scim.Registry.Answers` — a registry answers every request from a log.

## Main results

* `Scim.Registry.register_of_built`, `Scim.Registry.register_of_unknown` — when a registration
  succeeds, and how it fails.
* `Scim.Registry.Holds.run` — a registry keeps what its log says.
* `Scim.Registry.answers_run` — the empty and the standard registry answer from their logs after
  any run.
-/

namespace Scim

namespace Registry

/-! ## Requests -/

/-- A request that may change a registry. -/
inductive Request where
  | addSchema (schema : Schema)
  | register (name endpoint core : String) (extensions : List String)

/-- The registry after a request. -/
def serve (r : Registry) : Request → Registry
  | .addSchema schema => r.addSchema schema
  | .register name endpoint core extensions => r.afterRegister name endpoint core extensions

/-- The registry after several requests. -/
def run (r : Registry) (requests : List Request) : Registry := requests.foldl serve r

/-- The requests that make the standard registry of the empty one. -/
def standardRequests : List Request :=
  [.addSchema Standard.user, .addSchema Standard.group, .addSchema Standard.enterpriseUser,
    .register "User" "Users" Standard.userId [Standard.enterpriseUserId],
    .register "Group" "Groups" Standard.groupId []]

/-- The standard registry is one that is reached from the empty one. -/
lemma run_standardRequests : empty.run standardRequests = standard := rfl

/-! ## Logs

A log lists requests, the latest first. -/

/-- The document that was added last under a URI. -/
def document? (log : List Request) (id : String) : Option Schema :=
  log.findSome? fun
    | .addSchema schema => if SameName schema.id id then some schema else none
    | .register _ _ _ _ => none

/-- A document is found under its own URI, and hides an older one. -/
lemma document?_addSchema (schema : Schema) (log : List Request) (id : String) :
    document? (.addSchema schema :: log) id =
      if SameName schema.id id then some schema else document? log id := by
  rw [document?, List.findSome?_cons]
  by_cases hid : SameName schema.id id
  · simp only [if_pos hid]
  · simp only [if_neg hid]
    rfl

/-- The resource type that a registration builds of the documents it finds, if it finds all. -/
def built? (find? : String → Option Schema) (name endpoint core : String)
    (extensions : List String) : Option ResourceType := do
  let coreSchema ← find? core
  let extensionSchemas ← extensions.mapM find?
  return .ofSchemas name endpoint (coreSchema.withCommon Standard.common).withOperations
    (extensionSchemas.map Schema.withOperations)

/-- The resource type that was registered last under exactly this name, of the documents added
before. -/
def type? (name : String) : List Request → Option ResourceType
  | [] => none
  | .addSchema _ :: log => type? name log
  | .register name' endpoint core extensions :: log =>
    if name' = name then
      (built? (document? log) name' endpoint core extensions).or (type? name log)
    else type? name log

/-- A registry that answers every request as its log says. -/
structure Answers (r : Registry) (log : List Request) : Prop where
  /-- A look-up of a schema answers the document that was added last, as it was added. -/
  schema?_eq : ∀ id, r.schema? id = document? log id
  /-- A look-up of a resource type answers the one that was registered last. -/
  resourceType_eq : ∀ name, r.resourceType name =
    (type? name log).elim (.error (.unknownResourceType name)) .ok
  /-- A registration succeeds if all schemas are known, and answers what it builds of them. -/
  register_ok : ∀ name endpoint core extensions,
    (∀ id ∈ core :: extensions, (document? log id).isSome = true) →
      ∃ t r', built? (document? log) name endpoint core extensions = some t ∧
        r.register name endpoint core extensions = .ok (t, r')
  /-- A registration names the first unknown schema. -/
  register_error : ∀ name endpoint core extensions id,
    (core :: extensions).find? (fun id => (document? log id).isNone) = some id →
      r.register name endpoint core extensions = .error (.schemaNotFound id)
  /-- A registration that fails could have been left out, whatever is requested later. -/
  run_failed : ∀ name endpoint core extensions, ∀ id ∈ core :: extensions,
    document? log id = none → ∀ later,
      r.run (.register name endpoint core extensions :: later) = r.run later

/-! ## Registrations -/

variable {r : Registry} {t : ResourceType} {name endpoint core : String}
  {extensions : List String} {log : List Request}

/-- Schemas that are all there are found. -/
lemma mapM_findSchema_of_some {schemas : List Schema}
    (h : extensions.mapM r.schema? = some schemas) :
    extensions.mapM r.findSchema = .ok schemas := by
  induction extensions generalizing schemas with
  | nil =>
    cases h
    rfl
  | cons id ids ih =>
    rw [List.mapM_cons] at h
    obtain ⟨schema, hschema, h⟩ := Option.bind_eq_some_iff.mp h
    obtain ⟨rest, hrest, h⟩ := Option.bind_eq_some_iff.mp h
    cases h
    rw [List.mapM_cons, ih hrest, findSchema, hschema]
    rfl

/-- The first schema that is not there is missed. -/
lemma mapM_findSchema_of_none {id : String}
    (h : extensions.find? (fun id => (r.schema? id).isNone) = some id) :
    extensions.mapM r.findSchema = .error (.schemaNotFound id) := by
  induction extensions with
  | nil => cases h
  | cons first ids ih =>
    rw [List.find?_cons] at h
    rw [List.mapM_cons]
    cases hfirst : r.schema? first with
    | none =>
      rw [hfirst] at h
      cases h
      rw [findSchema, hfirst]
      rfl
    | some schema =>
      rw [hfirst] at h
      rw [findSchema, hfirst, ih h]
      rfl

/-- **A registration that finds its schemas succeeds**, and keeps what it builds. -/
theorem register_of_built (h : built? r.schema? name endpoint core extensions = some t) :
    r.register name endpoint core extensions = .ok (t,
      { r with resourceTypes := (Keyed.insert ResourceType.name t r.resourceTypes).2 }) := by
  obtain ⟨coreSchema, hcore, h⟩ := Option.bind_eq_some_iff.mp h
  obtain ⟨extensionSchemas, hextensions, h⟩ := Option.bind_eq_some_iff.mp h
  cases h
  rw [register, findSchema, hcore]
  dsimp only
  rw [mapM_findSchema_of_some hextensions]
  rfl

/-- **A registration that misses a schema fails**, with the first one that it misses. -/
theorem register_of_unknown {id : String}
    (h : (core :: extensions).find? (fun id => (r.schema? id).isNone) = some id) :
    r.register name endpoint core extensions = .error (.schemaNotFound id) := by
  rw [List.find?_cons] at h
  rw [register, findSchema]
  cases hcore : r.schema? core with
  | none =>
    rw [hcore] at h
    cases h
    rfl
  | some schema =>
    rw [hcore] at h
    dsimp only
    rw [mapM_findSchema_of_none h]
    rfl

/-- Schemas that are all known are built of. -/
lemma exists_built {find? : String → Option Schema} (name endpoint : String)
    (h : ∀ id ∈ core :: extensions, (find? id).isSome = true) :
    ∃ t, built? find? name endpoint core extensions = some t := by
  have hmapM : ∀ ids : List String, (∀ id ∈ ids, (find? id).isSome = true) →
      ∃ schemas, ids.mapM find? = some schemas := by
    intro ids
    induction ids with
    | nil => exact fun _ => ⟨[], rfl⟩
    | cons id ids ih =>
      intro hids
      rw [List.forall_mem_cons] at hids
      obtain ⟨schema, hschema⟩ := Option.isSome_iff_exists.mp hids.1
      obtain ⟨schemas, hschemas⟩ := ih hids.2
      exact ⟨schema :: schemas, by rw [List.mapM_cons, hschema, hschemas]; rfl⟩
  rw [List.forall_mem_cons] at h
  obtain ⟨coreSchema, hcore⟩ := Option.isSome_iff_exists.mp h.1
  obtain ⟨schemas, hschemas⟩ := hmapM extensions h.2
  exact ⟨_, by rw [built?, hcore, hschemas]; rfl⟩

/-- Where nothing is built, a schema is unknown. -/
lemma exists_unknown_of_built {find? : String → Option Schema}
    (h : built? find? name endpoint core extensions = none) :
    ∃ id ∈ core :: extensions, find? id = none := by
  by_contra hall
  have hknown : ∀ id ∈ core :: extensions, (find? id).isSome = true := fun id hid =>
    Option.isSome_iff_ne_none.mpr fun hnone => hall ⟨id, hid, hnone⟩
  obtain ⟨t, ht⟩ := exists_built name endpoint hknown
  rw [ht] at h
  cases h

/-- A resource type has the name under which it is registered. -/
lemma name_of_built {find? : String → Option Schema}
    (h : built? find? name endpoint core extensions = some t) : t.name = name := by
  obtain ⟨coreSchema, -, h⟩ := Option.bind_eq_some_iff.mp h
  obtain ⟨extensionSchemas, -, h⟩ := Option.bind_eq_some_iff.mp h
  cases h
  rfl

/-- A registration that fails changes nothing. -/
lemma afterRegister_of_unknown {id : String} (hid : id ∈ core :: extensions)
    (h : r.schema? id = none) : r.afterRegister name endpoint core extensions = r := by
  have hsome : ((core :: extensions).find? fun id => (r.schema? id).isNone).isSome = true :=
    List.find?_isSome.mpr ⟨id, hid, Option.isNone_iff_eq_none.mpr h⟩
  obtain ⟨first, hfirst⟩ := Option.isSome_iff_exists.mp hsome
  rw [afterRegister, register_of_unknown hfirst]

/-! ## Runs -/

/-- A registry that holds what its log says. -/
structure Holds (r : Registry) (log : List Request) : Prop where
  schema?_eq : ∀ id, r.schema? id = document? log id
  type?_eq : ∀ name, Keyed.get? ResourceType.name name r.resourceTypes = type? name log

/-- The empty registry holds nothing. -/
lemma holds_empty : empty.Holds [] := ⟨fun _ => rfl, fun _ => rfl⟩

/-- **What one request changes.**  A new document stands under its URI and leaves all resource types
as they are; a registration that succeeds stands under its name and leaves all documents as they
are; and one that fails leaves everything. -/
theorem Holds.serve (h : r.Holds log) (request : Request) :
    (r.serve request).Holds (request :: log) := by
  cases request with
  | addSchema schema =>
    refine ⟨fun id => ?_, h.type?_eq⟩
    rw [schema?, Registry.serve, addSchema, Keyed.get?_insert, document?_addSchema,
      ← h.schema?_eq]
    rfl
  | register name endpoint core extensions =>
    have hfind : r.schema? = document? log := funext h.schema?_eq
    cases hbuilt : built? r.schema? name endpoint core extensions with
    | some t =>
      have hserve : r.serve (.register name endpoint core extensions) =
          { r with resourceTypes := (Keyed.insert ResourceType.name t r.resourceTypes).2 } :=
        afterRegister_eq (register_of_built hbuilt)
      rw [hserve]
      refine ⟨h.schema?_eq, fun wanted => ?_⟩
      rw [Keyed.get?_insert, name_of_built hbuilt, type?, ← hfind, hbuilt, h.type?_eq]
      rfl
    | none =>
      obtain ⟨id, hid, hnone⟩ := exists_unknown_of_built hbuilt
      rw [Registry.serve, afterRegister_of_unknown hid hnone]
      refine ⟨h.schema?_eq, fun wanted => ?_⟩
      rw [type?, ← hfind, hbuilt, Option.none_or, ite_self]
      exact h.type?_eq wanted

/-- **A registry keeps what its log says**, over any number of requests. -/
theorem Holds.run (h : r.Holds log) (requests : List Request) :
    (r.run requests).Holds (requests.reverse ++ log) := by
  induction requests generalizing r log with
  | nil => exact h
  | cons request requests ih =>
    rw [List.reverse_cons, List.append_assoc]
    exact ih (h.serve request)

/-- A registry that holds what its log says answers from it. -/
lemma Holds.answers (h : r.Holds log) : r.Answers log := by
  have hfind : r.schema? = document? log := funext h.schema?_eq
  refine ⟨h.schema?_eq, fun name => ?_, fun name endpoint core extensions hall => ?_,
    fun name endpoint core extensions id hid => ?_,
    fun name endpoint core extensions id hid hnone later => ?_⟩
  · rw [resourceType, h.type?_eq]
    cases type? name log <;> rfl
  · obtain ⟨t, ht⟩ := exists_built name endpoint hall
    refine ⟨t, _, ht, register_of_built ?_⟩
    rw [hfind, ht]
  · refine register_of_unknown ?_
    rw [hfind, hid]
  · rw [← hfind] at hnone
    rw [Registry.run, List.foldl_cons, Registry.serve, afterRegister_of_unknown hid hnone]
    rfl

/-- **Registries answer from their logs.**  After any requests to the empty or the standard
registry, in any order and whether or not they succeed, a look-up of a schema answers the document
added last under its URI without regard to case, as it was added.  A look-up of a resource type
answers what the latest successful registration under exactly its name built of the documents added
before it, whatever was added after.  A registration fails exactly if a schema that it names is
unknown, and then all later answers are as if it had not been requested.

**Proof sketch.**  One request changes what the registry holds as it changes the log: the map of
documents by an insertion under a URI, the map of resource types by one under a name, or neither.
By induction this holds over any run, and the standard registry is itself a run of the empty one. -/
theorem answers_run (requests : List Request) :
    (empty.run requests).Answers requests.reverse ∧
      (standard.run requests).Answers (standardRequests ++ requests).reverse := by
  have hempty := fun requests => (holds_empty.run requests).answers
  simp only [List.append_nil] at hempty
  refine ⟨hempty requests, ?_⟩
  have hstandard : standard.run requests = empty.run (standardRequests ++ requests) := by
    rw [run, run, List.foldl_append, ← run_standardRequests]
    rfl
  rw [hstandard]
  exact hempty (standardRequests ++ requests)

end Registry

end Scim
