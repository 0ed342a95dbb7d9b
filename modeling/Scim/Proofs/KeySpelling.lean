import Scim.Proofs.ReadingOrder
import Scim.Proofs.RoundTrip

set_option autoImplicit false

/-!
# The spelling of keys

Members are read by ascending key, and capital letters come before small ones.  So a key in another
spelling is read at another time: attributes are put in at other places, and another error may come
first.  When no object has two keys that differ only in case, the attributes that are read are the
same all the same, as each look-up on the way has no regard to case and no two attributes compete
for one place.

## Main definitions

* `Scim.Json.Respelled` — documents that differ only in the case of the keys of their objects.
* `Scim.Json.hasUniqueKeys` — no object has two keys that differ only in case.
* `Scim.Json.schemasKeys` — the top-level keys that may be the list of schemas.
* `Scim.Json.Twin` — two spellings of one value, in neither of which keys are ambiguous.

## Main results

* `Scim.Descriptor.readAttribute_alike`, `Scim.ResourceType.readMember_alike` — respelled values and
  members are both refused, or read as the same attributes.
* `Scim.ResourceType.nodup_readMembers` — no two attributes that are read have one key.
* `Scim.AttributeMap.ofJson_respelled` — respelled documents are both refused, or read as equal
  resources.
-/

namespace Scim

open Outcome

/-! ## Documents in two spellings -/

namespace Json

mutual

/-- The same value up to the case of the keys of objects, and so up to the order in which these list
their members. -/
inductive Respelled : Json → Json → Prop
  | null : Respelled .null .null
  | bool (b : Bool) : Respelled (.bool b) (.bool b)
  | number (n : Number) : Respelled (.number n) (.number n)
  | string (s : String) : Respelled (.string s) (.string s)
  | array {xs ys : List Json} (h : List.Forall₂ Respelled xs ys) : Respelled (.array xs) (.array ys)
  | object {ms ns ns' : List (String × Json)} (h : List.Forall₂ RespelledMember ms ns)
      (hperm : ns.Perm ns') : Respelled (.object ms) (.object ns')

/-- The same member up to the case of its key and of the keys in its value. -/
inductive RespelledMember : String × Json → String × Json → Prop
  | mk {k l : String} {x y : Json} (hkey : SameName k l) (h : Respelled x y) :
    RespelledMember (k, x) (l, y)

end

mutual

/-- Whether no object in a value has two keys that differ only in case. -/
def hasUniqueKeys : Json → Bool
  | .null => true
  | .bool _ => true
  | .number _ => true
  | .string _ => true
  | .array items => itemsHaveUniqueKeys items
  | .object members => (members.map fun m => caseKey m.1).Nodup && membersHaveUniqueKeys members

/-- The same for the items of an array. -/
def itemsHaveUniqueKeys : List Json → Bool
  | [] => true
  | x :: xs => hasUniqueKeys x && itemsHaveUniqueKeys xs

/-- The same for the values of the members of an object. -/
def membersHaveUniqueKeys : List (String × Json) → Bool
  | [] => true
  | (_, x) :: rest => hasUniqueKeys x && membersHaveUniqueKeys rest

end

/-- The keys of an object at the top level of a document that are `schemas` up to case. -/
def schemasKeys (document : Json) : List String :=
  ((document.object?.getD []).map Prod.fst).filter fun key => SameName key schemasKey

/-- The keys in an array are unique when those in its items are. -/
lemma hasUniqueKeys_array {items : List Json} :
    (array items).hasUniqueKeys = true ↔ ∀ x ∈ items, x.hasUniqueKeys = true := by
  rw [hasUniqueKeys]
  induction items with
  | nil => simp [itemsHaveUniqueKeys]
  | cons x xs ih => simp [itemsHaveUniqueKeys, ih]

/-- The keys in an object are unique when its own are and those in its members. -/
lemma hasUniqueKeys_object {members : List (String × Json)} :
    (object members).hasUniqueKeys = true ↔ (members.map fun m => caseKey m.1).Nodup ∧
      ∀ m ∈ members, m.2.hasUniqueKeys = true := by
  have hmembers : membersHaveUniqueKeys members = true ↔
      ∀ m ∈ members, m.2.hasUniqueKeys = true := by
    induction members with
    | nil => simp [membersHaveUniqueKeys]
    | cons m rest ih =>
      obtain ⟨key, x⟩ := m
      simp [membersHaveUniqueKeys, ih]
  rw [hasUniqueKeys, Bool.and_eq_true, decide_eq_true_eq, hmembers]

/-- In objects with the same top-level keys that may be the list of schemas, a member is the list of
schemas when the one of the same name is. -/
lemma eq_schemasKey_of_sameName {ms ns : List (String × Json)}
    (h : (object ms).schemasKeys = (object ns).schemasKeys)
    (hunique : (ns.map fun n => caseKey n.1).Nodup) {m n : String × Json} (hm : m ∈ ms)
    (hn : n ∈ ns) (hname : SameName m.1 n.1) (hkey : m.1 = schemasKey) : n.1 = schemasKey := by
  have hmem : schemasKey ∈ (object ms).schemasKeys := by
    refine List.mem_filter.mpr ⟨?_, by simp [SameName.refl]⟩
    rw [← hkey]
    exact List.mem_map_of_mem hm
  rw [h] at hmem
  obtain ⟨n', hn', hkey'⟩ := List.mem_map.mp (List.mem_filter.mp hmem).1
  have hsame : caseKey n.1 = caseKey n'.1 := by
    rw [hkey', ← hkey]
    exact hname.symm
  rw [List.inj_on_of_nodup_map hunique hn hn' hsame]
  exact hkey'

/-- Two spellings of one value, in neither of which keys are ambiguous. -/
structure Twin (v w : Json) : Prop where
  respelled : v.Respelled w
  left : v.hasUniqueKeys = true
  right : w.hasUniqueKeys = true

/-- Two spellings of one member, in neither of which keys are ambiguous. -/
structure TwinMember (m n : String × Json) : Prop where
  key : SameName m.1 n.1
  value : m.2.Twin n.2

namespace Twin

/-- Both spellings are `null`, or neither is. -/
lemma isNull_eq {v w : Json} (h : v.Twin w) : v.isNull = w.isNull := by
  cases h.respelled <;> rfl

/-- The items of an array are respelled one by one. -/
lemma items {xs ys : List Json} (h : (array xs).Twin (array ys)) : List.Forall₂ Twin xs ys := by
  obtain ⟨hrespelled, hxs, hys⟩ := h
  rw [hasUniqueKeys_array] at hxs hys
  cases hrespelled with
  | array hitems =>
    induction hitems with
    | nil => exact .nil
    | cons hxy _ ih =>
      rw [List.forall_mem_cons] at hxs hys
      exact .cons ⟨hxy, hxs.1, hys.1⟩ (ih hxs.2 hys.2)

/-- Each member of either spelling of an object is a member of the other, respelled. -/
lemma members {ms ns : List (String × Json)} (h : (object ms).Twin (object ns)) :
    Covers TwinMember ms ns := by
  obtain ⟨hrespelled, hms, hns⟩ := h
  have hleft := (hasUniqueKeys_object.mp hms).2
  have hright := (hasUniqueKeys_object.mp hns).2
  cases hrespelled with
  | object hmembers hperm =>
    apply (covers_of_forall₂ hmembers).imp_perm hperm
    rintro _ hm _ hn ⟨hkey, hvalue⟩
    exact ⟨hkey, hvalue, hleft _ hm, hright _ hn⟩

/-- The keys of an object are not repeated, regardless of case. -/
lemma nodup_keys {ms : List (String × Json)} {w : Json} (h : (object ms).Twin w) :
    (ms.map fun m => caseKey m.1).Nodup :=
  (hasUniqueKeys_object.mp h.left).1

end Twin

end Json

/-! ## Reading attributes -/

/-- Two attributes have one descriptor, and in order values that are related. -/
def Attribute.Valuewise (R : Value → Value → Prop) (a b : Attribute) : Prop :=
  a.descriptor = b.descriptor ∧ List.Forall₂ R a.values b.values

namespace Descriptor

variable (d : Descriptor) {v w : Json} {m n : String × Json}

/-- A scalar has no keys, and everything else is refused. -/
lemma readScalar_alike (h : v.Twin w) : Alike (· = ·) (d.readScalar v) (d.readScalar w) := by
  cases h.respelled with
  | array hitems => unfold readScalar; cases d.type <;> exact .error _ _
  | object hmembers hperm => unfold readScalar; cases d.type <;> exact .error _ _
  | _ => exact .refl (fun _ => rfl) _

/-- The values of an attribute are read alike when each of them is. -/
lemma readValues_alike {read : Json → Except ResourceError (Option Value)}
    {R : Value → Value → Prop}
    (hread : ∀ v w, v.Twin w → Alike (Option.Rel R) (read v) (read w)) (h : v.Twin w) :
    Alike (Option.Rel (Attribute.Valuewise R)) (d.readValues read v) (d.readValues read w) := by
  -- the attributes are made of the values, if there are any
  have hmake : ∀ {x y : Except ResourceError (List Value)}, Alike (List.Forall₂ R) x y →
      Alike (Option.Rel (Attribute.Valuewise R))
        (x >>= fun values => pure (if values.isEmpty then none else some ⟨d, values⟩))
        (y >>= fun values => pure (if values.isEmpty then none else some ⟨d, values⟩)) := by
    intro x y hxy
    refine hxy.bind fun values values' _ _ hvalues => .ok ?_
    cases hvalues with
    | nil => exact .none
    | cons hhead htail => exact .some ⟨rfl, .cons hhead htail⟩
  have hone : ∀ o p : Option Value, Option.Rel R o p → List.Forall₂ R o.toList p.toList := by
    rintro _ _ (h | _)
    · exact .cons h .nil
    · exact .nil
  unfold readValues
  have hrespelled := h.respelled
  cases d.isMultiValued with
  | true =>
    cases hrespelled with
    | array hitems => exact hmake (alike_filterMapM h.items hread)
    | _ => exact .error _ _
  | false =>
    cases hrespelled with
    | array hitems => exact .error _ _
    | _ => exact hmake ((hread _ _ h).map hone)

/-- Simple attributes are read alike. -/
lemma readSimple_alike (h : v.Twin w) :
    Alike (Option.Rel (· = ·)) (d.readSimple v) (d.readSimple w) := by
  have hread : ∀ v w : Json, v.Twin w → Alike (Option.Rel (· = ·))
      ((d.readScalar v).map some) ((d.readScalar w).map some) :=
    fun v w hvw => (d.readScalar_alike hvw).map fun _ _ heq => .some heq
  refine (d.readValues_alike hread h).imp_some fun a b _ _ hab => ?_
  obtain ⟨da, va⟩ := a
  obtain ⟨db, vb⟩ := b
  obtain ⟨hd, hvalues⟩ := hab
  rw [List.forall₂_eq_eq_eq] at hvalues
  cases hd
  cases hvalues
  rfl

/-- Members of a complex value are read alike, as sub-attributes are found regardless of case. -/
lemma readSub_alike (h : Json.TwinMember m n) :
    Alike (Option.Rel (· = ·)) (d.readSub m.1 m.2) (d.readSub n.1 n.2) := by
  unfold readSub
  rw [h.value.isNull_eq, sub?_congr h.key]
  split
  · exact .ok .none
  · split
    · exact .error _ _
    · split
      · exact .error _ _
      · exact readSimple_alike _ h.value

/-- A sub-attribute that is read has the name that was asked for. -/
lemma sameName_of_readSub {key : String} {a : Attribute} (h : d.readSub key v = .ok (some a)) :
    SameName a.name key := by
  unfold readSub at h
  split at h
  · cases h
  · split at h
    · cases h
    · rename_i sub hsub
      split at h
      · cases h
      · rw [Attribute.name, (readSimple_ok h).descriptor_eq]
        exact sameName_of_sub? hsub

/-- **Complex values are read alike**: as entries that answer alike, though their sub-attributes may
have come in another order. -/
lemma readEntry_alike (h : v.Twin w) :
    Alike (Option.Rel Value.Same) (d.readEntry v) (d.readEntry w) := by
  have hrespelled := h.respelled
  cases hrespelled with
  | @object ms _ ns hmembers hperm =>
    have hrun := alike_filterMapM_covers h.members fun m _ n _ hmn => d.readSub_alike hmn
    refine hrun.bind fun subs subs' hsubs _ hcover => .ok ?_
    have hmem : ∀ a, a ∈ subs' ↔ a ∈ subs := fun a =>
      ⟨fun ha => by simpa using hcover.right a ha, fun ha => by simpa using hcover.left a ha⟩
    cases subs with
    | nil =>
      have hnil : subs' = [] := List.eq_nil_iff_forall_not_mem.mpr fun a ha => by
        simpa using (hmem a).mp ha
      subst hnil
      exact .none
    | cons a as =>
      have hne : subs' ≠ [] := List.ne_nil_of_mem ((hmem a).mpr List.mem_cons_self)
      have hnodup : ((a :: as).map Attribute.nameKey).Nodup :=
        nodup_filterMapM hsubs h.nodup_keys fun m b hb => d.sameName_of_readSub hb
      have hunique : ∀ b ∈ a :: as, b.UniqueNames := by
        intro b hb
        obtain ⟨m, -, hm⟩ := exists_of_mem_filterMapM hsubs b hb
        obtain ⟨sub, -, -, hconforms⟩ := readSub_ok hm
        exact hconforms.uniqueNames
      rw [if_neg (by simp), if_neg (by simpa using hne)]
      exact .some (.ofList hnodup hmem hunique)
  | _ => exact .error _ _

/-- **Attributes are read alike.** -/
lemma readAttribute_alike (h : v.Twin w) :
    Alike (Option.Rel Attribute.Same) (d.readAttribute v) (d.readAttribute w) := by
  unfold readAttribute
  split
  · refine (d.readValues_alike (fun v w hvw => d.readEntry_alike hvw) h).imp_some ?_
    exact fun a b _ _ hab => ⟨hab.1, hab.2⟩
  · refine (d.readSimple_alike h).imp_some fun a b ha _ hab => ?_
    subst hab
    exact .refl (readSimple_ok ha).uniqueNames

end Descriptor

/-! ## Reading members -/

namespace ResourceType

variable (t : ResourceType) {m n : String × Json}

/-- Extensions are found regardless of case. -/
lemma extension?_congr {key key' : String} (h : SameName key key') :
    t.extension? key = t.extension? key' := by
  unfold extension?
  congr 1
  funext s
  exact decide_eq_decide.mpr ⟨fun hs => hs.trans h, fun hs => hs.trans h.symm⟩

/-- Members of the part of one schema are read alike, as its attributes are found regardless of
case. -/
lemma readIn_alike (schema : String) (h : Json.TwinMember m n) :
    Alike (Option.Rel Attribute.Same) (t.readIn schema m.1 m.2) (t.readIn schema n.1 n.2) := by
  unfold readIn
  rw [t.attribute?_congr (.refl schema) h.key]
  split
  · exact .error _ _
  · exact Descriptor.readAttribute_alike _ h.value

/-- **Members of a resource are read alike**, when both are the list of schemas or neither is. -/
lemma readMember_alike (h : Json.TwinMember m n) (hschemas : m.1 = schemasKey ↔ n.1 = schemasKey) :
    Alike (Covers Attribute.Same) (t.readMember m.1 m.2) (t.readMember n.1 n.2) := by
  unfold readMember
  rw [h.value.isNull_eq, t.extension?_congr h.key]
  simp only [hschemas]
  split
  · exact .ok ⟨by simp, by simp⟩
  · split
    · -- the object of an extension
      obtain ⟨k, v⟩ := m
      obtain ⟨l, w⟩ := n
      have hvalue : v.Twin w := h.value
      have hrespelled := hvalue.respelled
      cases hrespelled with
      | object hmembers hperm =>
        apply alike_filterMapM_covers hvalue.members
        intro m _ n _ hmn
        rw [hmn.value.isNull_eq]
        split
        · exact .ok .none
        · exact t.readIn_alike _ hmn
      | _ => exact .error _ _
    · exact (t.readIn_alike t.core h).map fun _ _ => covers_toList

/-! ## No two attributes under one key -/

variable {t} {key : String} {value : Json} {members : List (String × Json)} {as : List Attribute}

/-- An attribute that a member holds belongs to the extension that the key names, or has the key as
its name in the core schema. -/
lemma origin_of_readMember (h : t.readMember key value = .ok as) : ∀ a ∈ as,
    (∃ e ∈ t.extensions, SameName e key ∧ SameName a.schema e) ∨
      SameName a.schema t.core ∧ SameName a.name key := by
  intro a ha
  rcases readMember_cases h with
    rfl | ⟨extension, members, hextension, -, hrun⟩ | ⟨-, b, rfl, hread⟩
  · cases ha
  · obtain ⟨m, -, hm⟩ := exists_of_mem_filterMapM hrun a ha
    split at hm
    · cases hm
    · have hname : SameName extension key := by simpa using List.find?_some hextension
      exact .inl ⟨extension, List.mem_of_find?_eq_some hextension, hname,
        (sameName_of_readIn hm).1⟩
  · cases List.mem_singleton.mp ha
    exact .inr (sameName_of_readIn hread)

/-- One member holds no two attributes of one key. -/
lemma pairwise_of_readMember (h : t.readMember key value = .ok as)
    (hunique : value.hasUniqueKeys = true) : as.Pairwise fun a b => a.key ≠ b.key := by
  rcases readMember_cases h with rfl | ⟨extension, members, -, rfl, hrun⟩ | ⟨-, b, rfl, -⟩
  · exact .nil
  · have hnames : (as.map Attribute.nameKey).Nodup := by
      refine nodup_filterMapM hrun (Json.hasUniqueKeys_object.mp hunique).1 fun m a hm => ?_
      split at hm
      · cases hm
      · exact (sameName_of_readIn hm).2
    exact (List.pairwise_map.mp hnames).imp fun hne hkey => hne (congrArg Prod.snd hkey)
  · exact List.pairwise_singleton _ _

/-- **No two attributes that are read have one key**, when no object has ambiguous keys and no
extension has the URI of the core schema. -/
lemma nodup_readMembers (hcore : ∀ e ∈ t.extensions, ¬ SameName e t.core)
    (hunique : (Json.object members).hasUniqueKeys = true)
    (h : (members.flatMapM fun m => t.readMember m.1 m.2) = .ok as) :
    (as.map Attribute.key).Nodup := by
  obtain ⟨hkeys, hvalues⟩ := Json.hasUniqueKeys_object.mp hunique
  refine List.pairwise_map.mpr (pairwise_flatMapM h ?_ ?_)
  · exact fun m hm bs hbs => pairwise_of_readMember hbs (hvalues m hm)
  · refine (List.pairwise_map.mp hkeys).imp fun {m n} hne bs cs hbs hcs b hb c hc hkey => ?_
    have hschema : SameName b.schema c.schema := congrArg Prod.fst hkey
    have hname : SameName b.name c.name := congrArg Prod.snd hkey
    rcases origin_of_readMember hbs b hb with ⟨e, he, hem, hbe⟩ | ⟨hbcore, hbm⟩ <;>
      rcases origin_of_readMember hcs c hc with ⟨f, hf, hfn, hcf⟩ | ⟨hccore, hcn⟩
    · exact hne (hem.symm.trans (hbe.symm.trans (hschema.trans (hcf.trans hfn))))
    · exact hcore e he (hbe.symm.trans (hschema.trans hccore))
    · exact hcore f hf (hcf.symm.trans (hschema.symm.trans hbcore))
    · exact hne (hbm.symm.trans (hname.trans hcn))

end ResourceType

/-! ## Reading resources -/

namespace AttributeMap

/-- **The spelling of keys does not matter.**  For every resource type none of whose extensions has
the URI of the core schema, take two documents that differ only in the case of keys at whatever
depth, though not of the top-level key `schemas`, and in neither of which an object has two keys
that differ only in case.  They are both refused, or read as equal resources.

**Proof sketch.**  Every look-up on the way has no regard to case, so each member is read as the
same attributes in either spelling, up to the order in entries.  As keys are unique and no extension is
taken for the core schema, no two attributes that are read compete for one place, so that the order
in which they are put in does not matter. -/
theorem ofJson_respelled {t : ResourceType} {document document' : Json}
    (hcore : ∀ e ∈ t.extensions, ¬ SameName e t.core) (h : document.Respelled document')
    (hunique : document.hasUniqueKeys = true) (hunique' : document'.hasUniqueKeys = true)
    (hschemas : document.schemasKeys = document'.schemasKeys) :
    (∃ e e', ofJson t document = .error e ∧ ofJson t document' = .error e') ∨
      ∃ m n, ofJson t document = .ok m ∧ ofJson t document' = .ok n ∧
        (m == n) = true ∧ (n == m) = true := by
  have htwin : document.Twin document' := ⟨h, hunique, hunique'⟩
  suffices halike : Alike (fun m n => m.WellFormed ∧ n.WellFormed ∧ m.Same n)
      (ofJson t document) (ofJson t document') by
    refine halike.error_or_ok.imp_right ?_
    rintro ⟨m, n, hm, hn, hmwf, hnwf, hsame⟩
    exact ⟨m, n, hm, hn, hsame.symm.beq hnwf hmwf, hsame.beq hmwf hnwf⟩
  cases h with
  | @object ms _ ns hmembers hperm =>
    have hkeys := (Json.hasUniqueKeys_object.mp hunique).1
    have hkeys' := (Json.hasUniqueKeys_object.mp hunique').1
    have hrun := alike_flatMapM htwin.members fun m hm n hn hmn => t.readMember_alike hmn
      ⟨Json.eq_schemasKey_of_sameName hschemas hkeys' hm hn hmn.key,
        Json.eq_schemasKey_of_sameName hschemas.symm hkeys hn hm hmn.key.symm⟩
    refine hrun.bind fun as bs has _ hcover => .ok ⟨wellFormed_ofList as, wellFormed_ofList bs, ?_⟩
    exact same_ofList (ResourceType.nodup_readMembers hcore hunique has) hcover
  | _ => exact .error _ _

/-- A team with a member and an account. -/
def plainTeam : Json :=
  .object [("members", .array [.object [("primary", .bool true), ("value", .string "1")]]),
    ("name", .string "a"),
    ("urn:accounts", .object [("costCenter", .string "c"), ("division", .string "d")])]

/-- The same team with keys in capital letters, which come first, at all depths. -/
def shoutedTeam : Json :=
  .object [("NAME", .string "a"),
    ("URN:ACCOUNTS", .object [("DIVISION", .string "d"), ("costCenter", .string "c")]),
    ("members", .array [.object [("VALUE", .string "1"), ("primary", .bool true)]])]

/-- The two teams differ only in the case of keys. -/
lemma respelled_plainTeam : plainTeam.Respelled shoutedTeam := by
  have hvalue : SameName "value" "VALUE" := by decide +kernel
  have hdivision : SameName "division" "DIVISION" := by decide +kernel
  have hname : SameName "name" "NAME" := by decide +kernel
  have haccounts : SameName "urn:accounts" "URN:ACCOUNTS" := by decide +kernel
  have hmember : (Json.object [("primary", .bool true), ("value", .string "1")]).Respelled
      (.object [("VALUE", .string "1"), ("primary", .bool true)]) :=
    .object (.cons (.mk (.refl _) (.bool _)) (.cons (.mk hvalue (.string _)) .nil)) (.swap _ _ _)
  have haccount : (Json.object [("costCenter", .string "c"), ("division", .string "d")]).Respelled
      (.object [("DIVISION", .string "d"), ("costCenter", .string "c")]) :=
    .object (.cons (.mk (.refl _) (.string _)) (.cons (.mk hdivision (.string _)) .nil))
      (.swap _ _ _)
  refine .object (.cons (.mk (.refl _) (.array (.cons hmember .nil)))
    (.cons (.mk hname (.string _)) (.cons (.mk haccounts haccount) .nil))) ?_
  exact (List.Perm.swap _ _ _).trans (.cons _ (.swap _ _ _))

/-- The two teams are read as equal resources, which list their attributes in different orders. -/
theorem ofJson_respelled_team : ∃ m n, ofJson teamType plainTeam = .ok m ∧
    ofJson teamType shoutedTeam = .ok n ∧ (m == n) = true ∧ (n == m) = true ∧
    m.toList.map Attribute.name = ["members", "name", "costCenter", "division"] ∧
    n.toList.map Attribute.name = ["name", "members", "division", "costCenter"] := by
  obtain ⟨m, hm, hnames⟩ : ∃ m, ofJson teamType plainTeam = .ok m ∧
      m.toList.map Attribute.name = ["members", "name", "costCenter", "division"] := ⟨_, rfl, rfl⟩
  obtain ⟨n, hn, hnames'⟩ : ∃ n, ofJson teamType shoutedTeam = .ok n ∧
      n.toList.map Attribute.name = ["name", "members", "division", "costCenter"] := ⟨_, rfl, rfl⟩
  rcases ofJson_respelled keysApart_teamType.extension_ne_core respelled_plainTeam
    (by decide +kernel) (by decide +kernel) (by decide +kernel) with
    ⟨e, e', he, -⟩ | ⟨m', n', hm', hn', hbeq, hbeq'⟩
  · rw [hm] at he
    cases he
  · obtain rfl : m = m' := Except.ok.inj (hm.symm.trans hm')
    obtain rfl : n = n' := Except.ok.inj (hn.symm.trans hn')
    exact ⟨m, n, hm, hn, hbeq, hbeq', hnames, hnames'⟩

-- another spelling may be refused for another reason
example : ofJson teamType (.object [("x", .bool true), ("y", .bool true)]) =
      .error (.unknownAttribute "x" "urn:team") ∧
    ofJson teamType (.object [("Y", .bool true), ("x", .bool true)]) =
      .error (.unknownAttribute "Y" "urn:team") :=
  ⟨rfl, rfl⟩

end AttributeMap

end Scim
