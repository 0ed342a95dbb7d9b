import Scim.Proofs.JsonText
import Scim.Proofs.Outcome
import Scim.Proofs.RecordFields

set_option autoImplicit false

/-!
# Schema documents

Many documents are read as one schema: fields may be left out for their defaults, members with
other names are skipped, and there are shorter forms for records and names.  The relation
`DescribedBy` says which documents these are, field by field and without the reader's calls; the
reader is shown to agree with it in both directions.  The document that is written for a schema
describes it, so it is read as that schema again, and a document that is read and written has become
the normal one.

A reader of trees has room for a number of containers that enclose each other.  The reader of
values takes as much room as the value needs.  The reader of texts has `Json.Raw.nestingLimit`, a
bound of its own on any text, so what is said of texts is said of documents that stay within it.

## Main definitions

* `Scim.AttributeDefinition.DescribedBy`, `Scim.Schema.DescribedBy` — what a document describes.
* `Scim.Schema.Normalises`, `NormalisesText` — reading and writing makes the documents of a reader
  normal, as values and as texts.

## Main results

* `Scim.AttributeDefinition.describedBy_of_ofRaw?`, `Scim.Schema.describedBy_of_ofRaw?` — what is
  read is described.
* `Scim.AttributeDefinition.DescribedBy.ofRaw?_eq_some`, `Scim.Schema.DescribedBy.ofRaw?_eq_some` —
  what is described is read.
* `Scim.AttributeDefinition.describedBy_toJson`, `Scim.Schema.describedBy_toJson` — what is written
  is described.
* `Scim.Schema.written_document_laws` — schema documents survive being written back.
-/

namespace Scim

open Json (Raw)

namespace AttributeDefinition

/-- What a document states of a definition, without its sub-attributes: a name and a type, which it
must state, and fields that are left out for their defaults.  `Names` says which trees write the
names of types, mutabilities and uniquenesses. -/
structure StatedBy (Names : Raw → String → Prop) (d : AttributeDefinition) (tree : Raw) : Prop where
  record : tree.IsRecord fieldNames
  name : tree.States fieldNames "name" fun v => v = .string (some d.name)
  type : tree.States fieldNames "type" fun v => Names v d.type.name
  multiValued : tree.StatesOr fieldNames "multiValued" (d.multiValued = false)
    fun v => v = .bool d.multiValued
  required : tree.StatesOr fieldNames "required" (d.required = false)
    fun v => v = .bool d.required
  caseExact : tree.StatesOr fieldNames "caseExact" (d.caseExact = false)
    fun v => v = .bool d.caseExact
  mutability : tree.StatesOr fieldNames "mutability" (d.mutability = .readWrite)
    fun v => Names v d.mutability.name
  uniqueness : tree.StatesOr fieldNames "uniqueness" (d.uniqueness = .none)
    fun v => Names v d.uniqueness.name

/-- A document describes a definition when it states its fields, and a list of documents that
describe its sub-attributes, in order; the list is left out when it is empty. -/
inductive DescribedBy : AttributeDefinition → Raw → Prop
  | mk {d : AttributeDefinition} {tree : Raw} {items : List Raw}
    (stated : d.StatedBy Raw.Names tree)
    (list : tree.StatesOr fieldNames "subAttributes" (items = []) fun v => v = .array items)
    (subs : List.Forall₂ DescribedBy d.subAttributes items) : DescribedBy d tree

variable {d : AttributeDefinition} {ds : List AttributeDefinition} {room : Nat} {tree : Raw}

/-- What one call of the reader reads. -/
lemma ofRaw?_succ_eq_some_iff : ofRaw? (room + 1) tree = some d ↔
    d.StatedBy (fun v name => v.variant? room = some name) tree ∧
      tree.StatesOr fieldNames "subAttributes" (d.subAttributes = [])
        fun v => listOfRaw? room v = some d.subAttributes := by
  have htype (t : DataType) (v : Raw) :
      (v.variant? room).bind DataType.ofName? = some t ↔ v.variant? room = some t.name :=
    Raw.variant?_bind_eq_some_iff fun _ => DataType.ofName?_eq_some_iff
  have hmutability (m : Mutability) (v : Raw) :
      (v.variant? room).bind Mutability.ofName? = some m ↔ v.variant? room = some m.name :=
    Raw.variant?_bind_eq_some_iff fun _ => Mutability.ofName?_eq_some_iff
  have huniqueness (u : Uniqueness) (v : Raw) :
      (v.variant? room).bind Uniqueness.ofName? = some u ↔ v.variant? room = some u.name :=
    Raw.variant?_bind_eq_some_iff fun _ => Uniqueness.ofName?_eq_some_iff
  rw [ofRaw?]
  cases hrecord : tree.record? fieldNames with
  | none =>
    exact iff_of_false (by simp) fun h => Raw.not_isRecord_of_record? hrecord h.1.record
  | some fields =>
    simp only [Option.bind_eq_bind, Option.bind_eq_some_iff, Option.pure_def, Option.some.injEq,
      exists_eq_left',
      Raw.field?_string?_iff hrecord (show "name" ∈ fieldNames by decide),
      Raw.field?_eq_some_iff hrecord (show "type" ∈ fieldNames by decide), htype,
      Raw.fieldOr_bool?_iff hrecord (show "multiValued" ∈ fieldNames by decide),
      Raw.fieldOr_bool?_iff hrecord (show "required" ∈ fieldNames by decide),
      Raw.fieldOr_bool?_iff hrecord (show "caseExact" ∈ fieldNames by decide),
      Raw.fieldOr_eq_some_iff hrecord (show "mutability" ∈ fieldNames by decide), hmutability,
      Raw.fieldOr_eq_some_iff hrecord (show "uniqueness" ∈ fieldNames by decide), huniqueness,
      Raw.fieldOr_eq_some_iff hrecord (show "subAttributes" ∈ fieldNames by decide)]
    constructor
    · rintro ⟨_, hname, _, htype, _, hmulti, _, hreq, _, hcase, _, hmut, _, huniq, _, hsubs, rfl⟩
      exact ⟨⟨Raw.isRecord_of_record? hrecord, hname, htype, hmulti, hreq, hcase, hmut, huniq⟩,
        hsubs⟩
    · rintro ⟨⟨_, hname, htype, hmulti, hreq, hcase, hmut, huniq⟩, hsubs⟩
      exact ⟨_, hname, _, htype, _, hmulti, _, hreq, _, hcase, _, hmut, _, huniq, _, hsubs,
        by cases d; rfl⟩

/-- A list is read item by item, in an array that takes one container of the room. -/
lemma listOfRaw?_eq_some_iff : listOfRaw? room tree = some ds ↔ ∃ inner items,
    room = inner + 1 ∧ tree = .array items ∧
      List.Forall₂ (fun item d => ofRaw? inner item = some d) items ds := by
  cases room with
  | zero => simp [listOfRaw?]
  | succ inner =>
    cases tree <;> simp [listOfRaw?, Outcome.mapM_eq_some_iff]

/-- A list is read where each of its items is read in as much room as it is deep. -/
lemma listOfRaw?_eq_some {items : List Raw}
    (h : List.Forall₂ (fun d item => ∀ room, item.depth ≤ room → ofRaw? room item = some d) ds
      items)
    (hroom : (Raw.array items).depth ≤ room) : listOfRaw? room (.array items) = some ds := by
  rw [Raw.depth] at hroom
  obtain ⟨inner, rfl⟩ : ∃ inner, room = inner + 1 := ⟨room - 1, by omega⟩
  refine listOfRaw?_eq_some_iff.mpr ⟨inner, items, rfl, rfl, ?_⟩
  refine (Outcome.forall₂_imp_mem h fun d _ item hitem hread => ?_).flip
  exact hread inner ((Raw.depth_le_depthItems hitem).trans (by omega))

/-- Readers without room read nothing. -/
lemma exists_room_of_ofRaw? (h : ofRaw? room tree = some d) : ∃ inner, room = inner + 1 := by
  cases room with
  | zero => simp [ofRaw?] at h
  | succ inner => exact ⟨inner, rfl⟩

/-- What is stated stays stated when names may be written in other ways. -/
lemma StatedBy.imp {N N' : Raw → String → Prop} (h : d.StatedBy N tree)
    (hN : ∀ name value text, tree.stated? fieldNames name = some value → N value text →
      N' value text) : d.StatedBy N' tree where
  record := h.record
  name := h.name
  type := h.type.imp fun v hv => hN _ v _ hv
  multiValued := h.multiValued
  required := h.required
  caseExact := h.caseExact
  mutability := h.mutability.imp id fun v hv => hN _ v _ hv
  uniqueness := h.uniqueness.imp id fun v hv => hN _ v _ hv

/-- Sub-attributes that are read come one by one from a list of documents. -/
lemma exists_items_of_listOfRaw?
    (h : tree.StatesOr fieldNames "subAttributes" (ds = []) fun v => listOfRaw? room v = some ds) :
    ∃ items, tree.StatesOr fieldNames "subAttributes" (items = []) (fun v => v = .array items) ∧
      List.Forall₂ (fun d item => ∃ inner, ofRaw? inner item = some d) ds items := by
  rcases h with ⟨hnone, rfl⟩ | ⟨value, hvalue, hread⟩
  · exact ⟨[], .inl ⟨hnone, rfl⟩, .nil⟩
  · obtain ⟨inner, items, -, rfl, hitems⟩ := listOfRaw?_eq_some_iff.mp hread
    exact ⟨items, .inr ⟨_, hvalue, rfl⟩, hitems.flip.imp fun _ _ hitem => ⟨inner, hitem⟩⟩

/-- **What is read is described**, by induction on the sub-attributes. -/
theorem describedBy_of_ofRaw? (h : ofRaw? room tree = some d) : d.DescribedBy tree := by
  induction d using inductionOn generalizing room tree with
  | subs d ih =>
    obtain ⟨inner, rfl⟩ := exists_room_of_ofRaw? h
    obtain ⟨hstated, hsubs⟩ := ofRaw?_succ_eq_some_iff.mp h
    obtain ⟨items, hlist, hitems⟩ := exists_items_of_listOfRaw? hsubs
    refine ⟨hstated.imp fun _ _ _ _ => Raw.names_of_variant?, hlist, ?_⟩
    exact Outcome.forall₂_imp_mem hitems fun sub hsub item _ ⟨_, hitem⟩ => ih sub hsub hitem

/-- **What is described is read**, where the room is as large as the document is deep. -/
theorem DescribedBy.ofRaw?_eq_some (h : d.DescribedBy tree) (hroom : tree.depth ≤ room) :
    ofRaw? room tree = some d := by
  induction d using inductionOn generalizing room tree with
  | subs d ih =>
    obtain ⟨hstated, hlist, hsubs⟩ := h
    obtain ⟨inner, rfl⟩ : ∃ inner, room = inner + 1 := by
      obtain ⟨value, hvalue, -⟩ := hstated.name
      have := Raw.depth_lt_of_stated? hvalue
      exact ⟨room - 1, by omega⟩
    refine ofRaw?_succ_eq_some_iff.mpr ⟨hstated.imp fun name value text hvalue hname => ?_,
      hlist.imp ?_ fun value hvalue heq => ?_⟩
    · have := Raw.depth_lt_of_stated? hvalue
      exact Raw.variant?_of_names hname (by omega)
    · rintro rfl
      exact List.forall₂_nil_right_iff.mp hsubs
    · subst heq
      have := Raw.depth_lt_of_stated? hvalue
      refine listOfRaw?_eq_some ?_ (by omega)
      exact Outcome.forall₂_imp_mem hsubs fun sub hsub item _ h _ hroom => ih sub hsub h hroom

/-! ### Writing -/

/-- Written definitions. -/
lemma listToJson_eq_map (ds : List AttributeDefinition) : listToJson ds = ds.map toJson := by
  induction ds with
  | nil => rfl
  | cons d ds ih => rw [listToJson, ih, List.map_cons]

/-- A written definition has all fields. -/
lemma toJson_eq (d : AttributeDefinition) : d.toJson = Json.ofMembers
    [("name", .string d.name), ("type", .string d.type.name), ("multiValued", .bool d.multiValued),
      ("required", .bool d.required), ("caseExact", .bool d.caseExact),
      ("mutability", .string d.mutability.name), ("uniqueness", .string d.uniqueness.name),
      ("subAttributes", .array (d.subAttributes.map toJson))] := by
  cases d
  rw [toJson, listToJson_eq_map]

/-- The trees of written definitions. -/
lemma toRaw_array_map_toJson (ds : List AttributeDefinition) :
    (Json.array (ds.map toJson)).toRaw = .array (ds.map fun d => d.toJson.toRaw) := by
  rw [Json.toRaw, Json.toRawItems_eq_map, List.map_map]
  rfl

/-- **What is written is described.** -/
theorem describedBy_toJson (d : AttributeDefinition) : d.DescribedBy d.toJson.toRaw := by
  induction d using inductionOn with
  | subs d ih =>
    rw [toJson_eq]
    -- each field states the member that is written for it
    refine ⟨{
      record := Json.isRecord_ofMembers _ _
      name := Json.states_ofMembers (.string d.name) rfl (Json.toRaw_string _)
      type := Json.states_ofMembers (.string d.type.name) rfl (Json.names_toRaw _)
      multiValued := Json.statesOr_ofMembers (.bool d.multiValued) rfl (Json.toRaw_bool _)
      required := Json.statesOr_ofMembers (.bool d.required) rfl (Json.toRaw_bool _)
      caseExact := Json.statesOr_ofMembers (.bool d.caseExact) rfl (Json.toRaw_bool _)
      mutability := Json.statesOr_ofMembers (.string d.mutability.name) rfl (Json.names_toRaw _)
      uniqueness := Json.statesOr_ofMembers (.string d.uniqueness.name) rfl (Json.names_toRaw _) },
      Json.statesOr_ofMembers (.array (d.subAttributes.map toJson)) rfl (toRaw_array_map_toJson _),
      ?_⟩
    exact List.forall₂_map_right_iff.mpr (List.forall₂_same.mpr ih)

/-- No number occurs in a written definition. -/
lemma numberless_toJson (d : AttributeDefinition) : d.toJson.Numberless := by
  induction d using inductionOn with
  | subs d ih =>
    rw [toJson_eq]
    refine .ofMembers ?_
    simp only [List.forall_mem_cons]
    exact ⟨.string _, .string _, .bool _, .bool _, .bool _, .string _, .string _,
      .array (List.forall_mem_map.mpr ih), List.forall_mem_nil _⟩

end AttributeDefinition

namespace Schema

/-- A document describes a schema when it states an identifier, a name and a list of documents that
describe its attributes, in order; a description is left out when it is empty. -/
structure DescribedBy (s : Schema) (tree : Raw) : Prop where
  record : tree.IsRecord fieldNames
  id : tree.States fieldNames "id" fun v => v = .string (some s.id)
  name : tree.States fieldNames "name" fun v => v = .string (some s.name)
  description : tree.StatesOr fieldNames "description" (s.description = "")
    fun v => v = .string (some s.description)
  attributes : tree.States fieldNames "attributes" fun v =>
    ∃ items, v = .array items ∧ List.Forall₂ AttributeDefinition.DescribedBy s.attributes items

variable {s : Schema} {room : Nat} {tree : Raw}

/-- What the reader reads in the fields of a schema. -/
lemma ofRaw?_succ_eq_some_iff : ofRaw? (room + 1) tree = some s ↔ tree.IsRecord fieldNames ∧
    tree.States fieldNames "id" (fun v => v = .string (some s.id)) ∧
    tree.States fieldNames "name" (fun v => v = .string (some s.name)) ∧
    tree.StatesOr fieldNames "description" (s.description = "")
      (fun v => v = .string (some s.description)) ∧
    tree.States fieldNames "attributes" fun v =>
      AttributeDefinition.listOfRaw? room v = some s.attributes := by
  rw [ofRaw?]
  cases hrecord : tree.record? fieldNames with
  | none =>
    exact iff_of_false (by simp) fun h => Raw.not_isRecord_of_record? hrecord h.1
  | some fields =>
    simp only [Option.bind_eq_bind, Option.bind_eq_some_iff, Option.pure_def, Option.some.injEq,
      exists_eq_left',
      Raw.field?_string?_iff hrecord (show "id" ∈ fieldNames by decide),
      Raw.field?_string?_iff hrecord (show "name" ∈ fieldNames by decide),
      Raw.fieldOr_string?_iff hrecord (show "description" ∈ fieldNames by decide),
      Raw.field?_eq_some_iff hrecord (show "attributes" ∈ fieldNames by decide)]
    constructor
    · rintro ⟨_, hid, _, hname, _, hdescription, _, hattributes, rfl⟩
      exact ⟨Raw.isRecord_of_record? hrecord, hid, hname, hdescription, hattributes⟩
    · rintro ⟨_, hid, hname, hdescription, hattributes⟩
      exact ⟨_, hid, _, hname, _, hdescription, _, hattributes, rfl⟩

/-- **What is read is described.** -/
theorem describedBy_of_ofRaw? (h : ofRaw? room tree = some s) : s.DescribedBy tree := by
  cases room with
  | zero => cases h
  | succ room =>
    obtain ⟨hrecord, hid, hname, hdescription, hattributes⟩ := ofRaw?_succ_eq_some_iff.mp h
    refine ⟨hrecord, hid, hname, hdescription, hattributes.imp fun value _ hread => ?_⟩
    obtain ⟨inner, items, -, rfl, hitems⟩ := AttributeDefinition.listOfRaw?_eq_some_iff.mp hread
    exact ⟨items, rfl, hitems.flip.imp fun _ _ => AttributeDefinition.describedBy_of_ofRaw?⟩

/-- **What is described is read**, where the room is as large as the document is deep. -/
theorem DescribedBy.ofRaw?_eq_some (h : s.DescribedBy tree) (hroom : tree.depth ≤ room) :
    ofRaw? room tree = some s := by
  obtain ⟨hrecord, hid, hname, hdescription, hattributes⟩ := h
  obtain ⟨room, rfl⟩ : ∃ inner, room = inner + 1 := by
    obtain ⟨value, hvalue, -⟩ := hid
    have := Raw.depth_lt_of_stated? hvalue
    exact ⟨room - 1, by omega⟩
  refine ofRaw?_succ_eq_some_iff.mpr ⟨hrecord, hid, hname, hdescription, hattributes.imp ?_⟩
  rintro _ hvalue ⟨items, rfl, hitems⟩
  have := Raw.depth_lt_of_stated? hvalue
  refine AttributeDefinition.listOfRaw?_eq_some ?_ (by omega)
  exact hitems.imp fun _ _ hitem _ => hitem.ofRaw?_eq_some

/-- **What is written is described.** -/
theorem describedBy_toJson (s : Schema) : s.DescribedBy s.toJson.toRaw := by
  rw [toJson, AttributeDefinition.listToJson_eq_map]
  exact {
    record := Json.isRecord_ofMembers _ _
    id := Json.states_ofMembers (.string s.id) rfl (Json.toRaw_string _)
    name := Json.states_ofMembers (.string s.name) rfl (Json.toRaw_string _)
    description := Json.statesOr_ofMembers (.string s.description) rfl (Json.toRaw_string _)
    attributes := Json.states_ofMembers (.array (s.attributes.map AttributeDefinition.toJson)) rfl
      ⟨_, AttributeDefinition.toRaw_array_map_toJson _, List.forall₂_map_right_iff.mpr
        (List.forall₂_same.mpr fun d _ => d.describedBy_toJson)⟩ }

/-- No number occurs in a written schema. -/
lemma numberless_toJson (s : Schema) : s.toJson.Numberless := by
  rw [toJson, AttributeDefinition.listToJson_eq_map]
  refine .ofMembers ?_
  simp only [List.forall_mem_cons]
  exact ⟨.string _, .string _, .string _,
    .array (List.forall_mem_map.mpr fun d _ => d.numberless_toJson), List.forall_mem_nil _⟩

/-! ## Documents -/

variable {document : Json} {text : String}

/-- A value is read as the schema that it describes. -/
lemma ofJson?_eq_some_iff : ofJson? document = some s ↔ s.DescribedBy document.toRaw := by
  constructor
  · exact describedBy_of_ofRaw?
  · intro h
    refine h.ofRaw?_eq_some ?_
    rw [Json.depth_toRaw]
    exact Nat.le_succ _

/-- A written schema is read again. -/
lemma ofJson?_toJson (s : Schema) : ofJson? s.toJson = some s :=
  ofJson?_eq_some_iff.mpr s.describedBy_toJson

/-- A text is read as a schema that it describes. -/
lemma describedBy_of_ofText? (h : ofText? text = some s) :
    ∃ tree, Raw.ofText? text = some tree ∧ s.DescribedBy tree := by
  obtain ⟨tree, htree, hread⟩ := Option.bind_eq_some_iff.mp h
  exact ⟨tree, htree, describedBy_of_ofRaw? hread⟩

/-- A text that describes a schema is read, unless it is too deep. -/
lemma DescribedBy.ofText?_eq_some (h : s.DescribedBy tree) (htext : Raw.ofText? text = some tree)
    (hdepth : tree.depth ≤ Raw.nestingLimit) : ofText? text = some s :=
  Option.bind_eq_some_iff.mpr ⟨tree, htext, h.ofRaw?_eq_some hdepth⟩

/-- The text of a written schema is read again, unless it is too deep. -/
lemma ofText?_render_toJson (hdepth : s.toJson.depth ≤ Raw.nestingLimit) :
    ofText? s.toJson.render = some s :=
  s.describedBy_toJson.ofText?_eq_some s.numberless_toJson.ofText?_render
    (by rwa [Json.depth_toRaw])

/-- What becomes of a document that is read and written. -/
def rewritten? {α : Type} (read? : α → Option Schema) (document : α) : Option Json :=
  (read? document).map toJson

/-- Reading and writing normalises documents: the result is read as the same schema, and reading and
writing it again changes nothing. -/
def Normalises {α : Type} (read? : α → Option Schema) : Prop :=
  ∀ document normal, rewritten? read? document = some normal →
    ofJson? normal = read? document ∧ rewritten? ofJson? normal = some normal

/-- The same for the text of the result, unless the result is too deep for the reader of texts. -/
def NormalisesText {α : Type} (read? : α → Option Schema) : Prop :=
  ∀ document normal, rewritten? read? document = some normal → normal.depth ≤ Raw.nestingLimit →
    ofText? normal.render = read? document ∧ rewritten? ofText? normal.render = some normal

/-- Whatever is read, a written schema is read as itself. -/
lemma normalises {α : Type} (read? : α → Option Schema) : Normalises read? := by
  intro document normal h
  obtain ⟨s, hread, rfl⟩ := Option.map_eq_some_iff.mp h
  rw [rewritten?, ofJson?_toJson, hread]
  exact ⟨rfl, rfl⟩

/-- So is the text of a written schema. -/
lemma normalisesText {α : Type} (read? : α → Option Schema) : NormalisesText read? := by
  intro document normal h hdepth
  obtain ⟨s, hread, rfl⟩ := Option.map_eq_some_iff.mp h
  rw [rewritten?, ofText?_render_toJson hdepth, hread]
  exact ⟨rfl, rfl⟩

/-- A document describes one schema at most. -/
lemma DescribedBy.unique {t : Schema} (hs : s.DescribedBy tree) (ht : t.DescribedBy tree) : s = t :=
  Option.some.inj ((hs.ofRaw?_eq_some le_rfl).symm.trans (ht.ofRaw?_eq_some le_rfl))

/-- **Schema documents survive being written back.**  Every schema, however deep its definitions
are, is read again from the value that it is written as, and from the text of that value unless the
text reader refuses it for its depth.  So every document that is read, as a value or as a text, is
normalised by writing it, as a value and, within that depth, as a text.  A value is read as the
schema that it describes, and as no other; so is a text that is not too deep.

**Proof sketch.** What is written for a schema describes it (`describedBy_toJson`), and readers read
what is described (`DescribedBy.ofRaw?_eq_some`); both are inductions on the sub-attributes.  The
text is that of a value without numbers, which the parser reads as its tree
(`Json.Numberless.ofText?_render`).  The rest follows, as what is read is described
(`describedBy_of_ofRaw?`). -/
theorem written_document_laws :
    (∀ s : Schema, ofJson? s.toJson = some s) ∧
    (∀ s : Schema, s.toJson.depth ≤ Raw.nestingLimit → ofText? s.toJson.render = some s) ∧
    Normalises ofJson? ∧ Normalises ofText? ∧ NormalisesText ofJson? ∧ NormalisesText ofText? ∧
    (∀ document s, ofJson? document = some s ↔ s.DescribedBy document.toRaw) ∧
    (∀ text tree, Raw.ofText? text = some tree →
      (∀ s, ofText? text = some s → s.DescribedBy tree) ∧
      (tree.depth ≤ Raw.nestingLimit → ∀ s, s.DescribedBy tree → ofText? text = some s)) := by
  refine ⟨ofJson?_toJson, fun _ => ofText?_render_toJson, normalises _, normalises _,
    normalisesText _, normalisesText _, fun _ _ => ofJson?_eq_some_iff,
    fun text tree htext => ⟨fun s hread => ?_, ?_⟩⟩
  · obtain ⟨tree', htree, hdescribed⟩ := describedBy_of_ofText? hread
    rw [htext] at htree
    cases htree
    exact hdescribed
  · exact fun hdepth s h => h.ofText?_eq_some htext hdepth

/-- A schema as an array of its fields, with a definition that has its type as a key, a member of
another name, and no field with a default. -/
example : ofRaw? 4 (.array
      [ .string (some "urn:note"), .string (some "Note"), .string (some ""),
        .array [.object [(some "type", .object [(some "boolean", .null)]), (some "hint", .null),
          (some "name", .string (some "done"))]] ]) =
    some { id := "urn:note", name := "Note",
           attributes := [{ name := "done", type := .boolean }] } := by
  rfl

end Schema

end Scim
