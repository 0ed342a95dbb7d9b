import Scim.Schema.Document
import Scim.Proofs.JsonMembers

set_option autoImplicit false

/-!
# Records in JSON trees

A record is written as an object, whose unknown members are skipped, or as an array of its fields.
What a tree states of a field is the same question for both, and the reader of fields answers it.

## Main definitions

* `Scim.Json.Raw.IsRecord` — whether a tree can be read as a record with given fields.
* `Scim.Json.Raw.stated?` — what it states for a field.
* `Scim.Json.Raw.States`, `StatesOr` — a field states something, or is left out if it may be.
* `Scim.Json.Raw.Names` — the trees that write a name.
* `Scim.Json.Raw.depth` — how many containers of a tree enclose each other.

## Main results

* `Scim.Json.Raw.isSome_record?_iff`, `lookup_record?` — the reader of fields accepts records, and
  finds what they state.
* `Scim.Json.Raw.field?_eq_some_iff`, `fieldOr_eq_some_iff` — so do the readers of one field.
* `Scim.Json.isRecord_ofMembers`, `stated?_ofMembers` — an object that is made of members is a
  record of them.
-/

namespace Scim.Json

namespace Raw

variable {names : List String} {name : String} {members : List (Option String × Raw)}
  {fields : List (String × Raw)} {tree value : Raw}

/-! ## Records -/

/-- The trees that can be read as a record with fields of the given names.  An object has texts for
keys and no field twice; an array has no more items than there are names. -/
inductive IsRecord (names : List String) : Raw → Prop
  | object {members : List (Option String × Raw)} (keys : ∀ m ∈ members, m.1 ≠ none)
    (once : ∀ name ∈ names, (members.map Prod.fst).count (some name) ≤ 1) :
    IsRecord names (.object members)
  | array {items : List Raw} (h : items.length ≤ names.length) : IsRecord names (.array items)

/-- What a tree states for a field: the member with its name, or the item in its place. -/
def stated? (tree : Raw) (names : List String) (name : String) : Option Raw :=
  match tree with
  | .object members => members.lookup (some name)
  | .array items => items[names.idxOf name]?
  | _ => none

/-- A key that is not looked up is not there. -/
lemma lookup_eq_none_iff_count {key : Option String} :
    members.lookup key = none ↔ (members.map Prod.fst).count key = 0 := by
  rw [List.lookup_eq_none_iff, List.count_eq_zero]
  simp only [List.mem_map, not_exists, not_and, bne_iff_ne, ne_eq]
  exact forall₂_congr fun m _ => ne_comm

/-- The known fields of an object are its members with known names. -/
lemma lookup_knownFields? (h : knownFields? names members = some fields) (hname : name ∈ names) :
    fields.lookup name = members.lookup (some name) := by
  induction members generalizing fields with
  | nil =>
    cases h
    rfl
  | cons m rest ih =>
    obtain ⟨key, value⟩ := m
    cases key with
    | none => simp [knownFields?] at h
    | some k =>
      cases hrest : knownFields? names rest with
      | none => simp [knownFields?, hrest] at h
      | some kept =>
        have ih := ih hrest
        simp only [knownFields?, hrest] at h
        rw [lookup_cons_eq, ← ih]
        by_cases hkey : name = k
        · subst hkey
          rw [if_neg (not_not.mpr hname)] at h
          split at h
          · cases h
          · cases h
            rw [List.lookup_cons_self, if_pos rfl]
        · rw [if_neg fun heq => hkey (Option.some.inj heq)]
          split at h
          · cases h
            rfl
          · split at h
            · cases h
            · cases h
              rw [lookup_cons_eq, if_neg hkey]

/-- A member may come before others when its name is not known or none of the others has it. -/
lemma isSome_knownFields?_cons {k : String} :
    (knownFields? names ((some k, value) :: members)).isSome = true ↔
      (knownFields? names members).isSome = true ∧
        (k ∈ names → members.lookup (some k) = none) := by
  cases hrest : knownFields? names members with
  | none => simp [knownFields?, hrest]
  | some kept =>
    simp only [knownFields?, hrest, Option.isSome_some, true_and]
    by_cases hk : k ∈ names
    · rw [if_neg (not_not.mpr hk), lookup_knownFields? hrest hk]
      cases members.lookup (some k) <;> simp [hk]
    · simp [hk]

/-- The known fields of an object are there when all keys are texts and no field occurs twice. -/
lemma isSome_knownFields?_iff : (knownFields? names members).isSome = true ↔
    (∀ m ∈ members, m.1 ≠ none) ∧
      ∀ name ∈ names, (members.map Prod.fst).count (some name) ≤ 1 := by
  induction members with
  | nil => simp [knownFields?]
  | cons m rest ih =>
    obtain ⟨key, value⟩ := m
    cases key with
    | none => simp [knownFields?]
    | some k =>
      have hcount : (∀ name ∈ names,
          (((some k, value) :: rest).map Prod.fst).count (some name) ≤ 1) ↔
          (∀ name ∈ names, (rest.map Prod.fst).count (some name) ≤ 1) ∧
            (k ∈ names → rest.lookup (some k) = none) := by
        simp only [List.map_cons, List.count_cons, beq_iff_eq, Option.some.injEq,
          lookup_eq_none_iff_count]
        constructor
        · intro h
          refine ⟨fun name hname => by have := h name hname; omega, fun hk => ?_⟩
          have := h k hk
          rw [if_pos rfl] at this
          omega
        · rintro ⟨hrest, hk⟩ name hname
          split
          · rename_i heq
            subst heq
            rw [hk hname]
          · exact hrest name hname
      rw [isSome_knownFields?_cons, ih, hcount, List.forall_mem_cons, and_assoc]
      simp

/-- Items are found under the names of their places. -/
lemma lookup_zip {items : List Raw} (hname : name ∈ names) :
    (names.zip items).lookup name = items[names.idxOf name]? := by
  induction names generalizing items with
  | nil => simp at hname
  | cons n ns ih =>
    cases items with
    | nil => simp
    | cons item items =>
      rw [List.zip_cons_cons, lookup_cons_eq]
      by_cases hn : name = n
      · subst hn
        simp
      · have hmem : name ∈ ns := (List.mem_cons.mp hname).resolve_left hn
        rw [if_neg hn, List.idxOf_cons_ne _ (Ne.symm hn), ih hmem, List.getElem?_cons_succ]

/-- **The reader of fields accepts records.** -/
lemma isSome_record?_iff : (tree.record? names).isSome = true ↔ tree.IsRecord names := by
  cases tree with
  | object members =>
    rw [record?, isSome_knownFields?_iff]
    exact ⟨fun ⟨hkeys, honce⟩ => .object hkeys honce, fun | .object hkeys honce => ⟨hkeys, honce⟩⟩
  | array items =>
    rw [record?, Option.isSome_ite]
    exact ⟨.array, fun | .array h => h⟩
  | _ => exact iff_of_false (by simp [record?]) nofun

/-- What has fields is a record. -/
lemma isRecord_of_record? (h : tree.record? names = some fields) : tree.IsRecord names :=
  isSome_record?_iff.mp (by rw [h]; rfl)

/-- What has no fields is none. -/
lemma not_isRecord_of_record? (h : tree.record? names = none) : ¬ tree.IsRecord names := by
  rw [← isSome_record?_iff, h]
  exact Bool.false_ne_true

/-- **The reader of fields finds what a record states.** -/
lemma lookup_record? (h : tree.record? names = some fields) (hname : name ∈ names) :
    fields.lookup name = tree.stated? names name := by
  cases tree with
  | object members => exact lookup_knownFields? h hname
  | array items =>
    rw [record?] at h
    split at h
    · cases h
      exact lookup_zip hname
    · cases h
  | _ => cases h

/-! ## Fields -/

/-- A field states something with a property. -/
def States (tree : Raw) (names : List String) (name : String) (property : Raw → Prop) : Prop :=
  ∃ value, tree.stated? names name = some value ∧ property value

/-- A field states something with a property, or is left out where a condition allows it. -/
def StatesOr (tree : Raw) (names : List String) (name : String) (condition : Prop)
    (property : Raw → Prop) : Prop :=
  (tree.stated? names name = none ∧ condition) ∨ tree.States names name property

/-- A field that states something states it. -/
lemma States.imp {p q : Raw → Prop} (h : tree.States names name p)
    (hpq : ∀ value, tree.stated? names name = some value → p value → q value) :
    tree.States names name q := by
  obtain ⟨value, hvalue, hp⟩ := h
  exact ⟨value, hvalue, hpq value hvalue hp⟩

/-- The same for a field that may be left out. -/
lemma StatesOr.imp {c d : Prop} {p q : Raw → Prop} (h : tree.StatesOr names name c p) (hcd : c → d)
    (hpq : ∀ value, tree.stated? names name = some value → p value → q value) :
    tree.StatesOr names name d q :=
  Or.imp (And.imp_right hcd) (fun hp => hp.imp hpq) h

/-- The reader of a field reads what the record states for it. -/
lemma field?_eq_some_iff {α : Type} {read? : Raw → Option α} {x : α}
    (h : tree.record? names = some fields) (hname : name ∈ names) :
    field? fields name read? = some x ↔ tree.States names name fun v => read? v = some x := by
  rw [field?, lookup_record? h hname, Option.bind_eq_some_iff]
  rfl

/-- The reader of a field with a default takes the default when the record states nothing. -/
lemma fieldOr_eq_some_iff {α : Type} {read? : Raw → Option α} {default x : α}
    (h : tree.record? names = some fields) (hname : name ∈ names) :
    fieldOr fields name default read? = some x ↔
      tree.StatesOr names name (x = default) fun v => read? v = some x := by
  rw [fieldOr, lookup_record? h hname, StatesOr, States]
  cases tree.stated? names name with
  | none => simp [eq_comm]
  | some value => simp

/-! ## Leaves and names -/

/-- The trees that write a name: as a text, or as the only key of an object with `null` as its
value. -/
inductive Names : Raw → String → Prop
  | text (name : String) : Names (.string (some name)) name
  | key (name : String) : Names (.object [(some name, .null)]) name

/-- The reader of texts reads texts. -/
@[simp] lemma string?_eq_some_iff : tree.string? = some name ↔ tree = .string (some name) := by
  cases tree <;> simp [string?]

/-- The reader of truth values reads truth values. -/
@[simp] lemma bool?_eq_some_iff {b : Bool} : tree.bool? = some b ↔ tree = .bool b := by
  cases tree <;> simp [bool?]

/-- A field that is read as a text states one. -/
lemma field?_string?_iff {text : String} (h : tree.record? names = some fields)
    (hname : name ∈ names) :
    field? fields name string? = some text ↔
      tree.States names name fun v => v = .string (some text) := by
  simp only [field?_eq_some_iff h hname, string?_eq_some_iff]

/-- A field that is read as a text, with a default. -/
lemma fieldOr_string?_iff {default text : String} (h : tree.record? names = some fields)
    (hname : name ∈ names) :
    fieldOr fields name default string? = some text ↔
      tree.StatesOr names name (text = default) fun v => v = .string (some text) := by
  simp only [fieldOr_eq_some_iff h hname, string?_eq_some_iff]

/-- A field that is read as a truth value, with a default. -/
lemma fieldOr_bool?_iff {default b : Bool} (h : tree.record? names = some fields)
    (hname : name ∈ names) :
    fieldOr fields name default bool? = some b ↔
      tree.StatesOr names name (b = default) fun v => v = .bool b := by
  simp only [fieldOr_eq_some_iff h hname, bool?_eq_some_iff]

/-- Something with a single name is read where that name is. -/
lemma variant?_bind_eq_some_iff {α : Type} {ofName? : String → Option α} {x : α} {room : Nat}
    (h : ∀ text, ofName? text = some x ↔ text = name) :
    (tree.variant? room).bind ofName? = some x ↔ tree.variant? room = some name := by
  simp only [Option.bind_eq_some_iff, h, exists_eq_right]

/-- What is read as a name writes it. -/
lemma names_of_variant? {room : Nat} (h : tree.variant? room = some name) : tree.Names name := by
  unfold variant? at h
  split at h
  · subst h
    exact .text name
  · split at h
    · cases h
    · subst h
      exact .key name
  · cases h

/-! ## Depth -/

mutual

/-- The largest number of containers in a tree that enclose each other. -/
def depth : Raw → Nat
  | .array items => depthItems items + 1
  | .object members => depthMembers members + 1
  | _ => 0

/-- The depth of the deepest item of an array. -/
def depthItems : List Raw → Nat
  | [] => 0
  | x :: xs => max (depth x) (depthItems xs)

/-- The depth of the deepest member of an object. -/
def depthMembers : List (Option String × Raw) → Nat
  | [] => 0
  | (_, x) :: xs => max (depth x) (depthMembers xs)

end

/-- No item of an array is deeper than the deepest. -/
lemma depth_le_depthItems {items : List Raw} (h : value ∈ items) :
    value.depth ≤ depthItems items := by
  induction items with
  | nil => cases h
  | cons x xs ih =>
    rw [depthItems]
    rcases List.mem_cons.mp h with rfl | h
    · exact le_max_left _ _
    · exact (ih h).trans (le_max_right _ _)

/-- No member of an object is deeper than the deepest. -/
lemma depth_le_depthMembers {m : Option String × Raw} (h : m ∈ members) :
    m.2.depth ≤ depthMembers members := by
  induction members with
  | nil => cases h
  | cons n rest ih =>
    obtain ⟨key, x⟩ := n
    rw [depthMembers]
    rcases List.mem_cons.mp h with rfl | h
    · exact le_max_left _ _
    · exact (ih h).trans (le_max_right _ _)

/-- What a record states for a field is less deep than the record. -/
lemma depth_lt_of_stated? (h : tree.stated? names name = some value) :
    value.depth < tree.depth := by
  cases tree with
  | object members =>
    obtain ⟨before, after, rfl, -⟩ := List.lookup_eq_some_iff.mp h
    have hmem : (some name, value) ∈ before ++ (some name, value) :: after :=
      List.mem_append_right _ List.mem_cons_self
    exact Nat.lt_succ_of_le (depth_le_depthMembers hmem)
  | array items => exact Nat.lt_succ_of_le (depth_le_depthItems (List.mem_of_getElem? h))
  | _ => cases h

/-- Names are read where the room is as large as they are deep. -/
lemma variant?_of_names {room : Nat} (h : tree.Names name) (hroom : tree.depth ≤ room) :
    tree.variant? room = some name := by
  cases h with
  | text => rfl
  | key =>
    rw [depth] at hroom
    rw [variant?, if_neg (by omega)]

end Raw

/-! ## Objects made of members -/

/-- The trees of items. -/
lemma toRawItems_eq_map (items : List Json) : toRawItems items = items.map toRaw := by
  induction items with
  | nil => rfl
  | cons x xs ih => rw [toRawItems, ih, List.map_cons]

/-- The trees of members. -/
lemma toRawMembers_eq_map (members : List (String × Json)) :
    toRawMembers members = members.map fun m => (some m.1, m.2.toRaw) := by
  induction members with
  | nil => rfl
  | cons m rest ih =>
    obtain ⟨key, x⟩ := m
    rw [toRawMembers, ih, List.map_cons]

/-- An object that is made of members is a record, whatever the names of the fields are. -/
lemma isRecord_ofMembers (members : List (String × Json)) (names : List String) :
    (ofMembers members).toRaw.IsRecord names := by
  have hnodup : ((putAll [] members).map Prod.fst).Nodup :=
    Ascending.nodup_keys (Ascending.putAll .nil members)
  rw [ofMembers, toRaw, toRawMembers_eq_map]
  refine .object (fun m hm => ?_) fun name _ => ?_
  · obtain ⟨n, -, rfl⟩ := List.mem_map.mp hm
    exact Option.some_ne_none _
  · have hkeys : ((putAll [] members).map fun m => (some m.1, m.2.toRaw)).map Prod.fst =
        ((putAll [] members).map Prod.fst).map some := by
      rw [List.map_map, List.map_map]
      rfl
    rw [hkeys]
    exact List.nodup_iff_count_le_one.mp (hnodup.map (Option.some_injective _)) _

/-- What an object states for a field is what its member says. -/
lemma stated?_object (members : List (String × Json)) (names : List String) (name : String) :
    (object members).toRaw.stated? names name = (members.lookup name).map toRaw := by
  rw [toRaw, toRawMembers_eq_map, Raw.stated?]
  induction members with
  | nil => rfl
  | cons m rest ih =>
    rw [List.map_cons, lookup_cons_eq, lookup_cons_eq, ih]
    simp only [Option.some.injEq]
    split <;> rfl

/-- What an object that is made of members states is what the last member of a name says. -/
lemma stated?_ofMembers (members : List (String × Json)) (names : List String) (name : String) :
    (ofMembers members).toRaw.stated? names name =
      (members.reverse.lookup name).map toRaw := by
  rw [ofMembers, stated?_object, lookup_putAll]
  exact congrArg (Option.map toRaw) (Option.or_none ..)

/-- The tree of a truth value. -/
lemma toRaw_bool (b : Bool) : (bool b).toRaw = .bool b := by rw [toRaw]

/-- The tree of a text. -/
lemma toRaw_string (text : String) : (string text).toRaw = .string (some text) := by rw [toRaw]

/-- A text writes itself as a name. -/
lemma names_toRaw (text : String) : (string text).toRaw.Names text := by
  rw [toRaw_string]
  exact .text text

/-- A field of an object that is made of members states what the last member of its name says. -/
lemma states_ofMembers {members : List (String × Json)} {names : List String} {name : String}
    {property : Raw → Prop} (value : Json) (hvalue : members.reverse.lookup name = some value)
    (hproperty : property value.toRaw) :
    (ofMembers members).toRaw.States names name property := by
  refine ⟨value.toRaw, ?_, hproperty⟩
  rw [stated?_ofMembers, hvalue]
  rfl

/-- The same for a field that may be left out. -/
lemma statesOr_ofMembers {members : List (String × Json)} {names : List String} {name : String}
    {condition : Prop} {property : Raw → Prop} (value : Json)
    (hvalue : members.reverse.lookup name = some value) (hproperty : property value.toRaw) :
    (ofMembers members).toRaw.StatesOr names name condition property :=
  .inr (states_ofMembers value hvalue hproperty)

mutual

/-- The tree of a value is as deep as the value. -/
lemma depth_toRaw : (v : Json) → v.toRaw.depth = v.depth
  | .null => rfl
  | .bool _ => rfl
  | .number _ => rfl
  | .string _ => rfl
  | .array items => by rw [toRaw, Raw.depth, depth, depthItems_toRaw items]
  | .object members => by rw [toRaw, Raw.depth, depth, depthMembers_toRaw members]

/-- The same for the items of an array. -/
lemma depthItems_toRaw : (items : List Json) → Raw.depthItems (toRawItems items) = depthItems items
  | [] => rfl
  | x :: xs => by rw [toRawItems, Raw.depthItems, depthItems, depth_toRaw x, depthItems_toRaw xs]

/-- The same for the members of an object. -/
lemma depthMembers_toRaw : (members : List (String × Json)) →
    Raw.depthMembers (toRawMembers members) = depthMembers members
  | [] => rfl
  | (_, x) :: rest => by
    rw [toRawMembers, Raw.depthMembers, depthMembers, depth_toRaw x, depthMembers_toRaw rest]

end

end Scim.Json
