import Scim.Attribute
import Scim.Proofs.Reconciliation

set_option autoImplicit false

/-!
# Equality of values

Numbers are equal when their canonical forms are, and so are JSON values.  Entries compare by a
look-up in one direction only; that this is an equivalence rests on their sub-attributes having
pairwise different names, at every depth.

## Main definitions

* `Scim.Json.canon` — a value with both zeros made one; it decides equality.
* `Scim.Value.UniqueNames`, `Scim.Entry.UniqueNames`, `Scim.Attribute.UniqueNames` — no entry in
  the tree has two sub-attributes of one name.

## Main results

* `Scim.Json.beq_iff` — equality of JSON values is equality of canonical forms.
* `Scim.Entry.beq_iff` — entries are equal when their look-ups are, name by name.
* `Scim.Value.equivOn`, `Scim.Entry.equivOn`, `Scim.Attribute.equivOn` — equality is an
  equivalence among trees with unique names.
-/

namespace Scim

/-! ## JSON values -/

/-- A number with both zeros made one. -/
def Number.canon : Number → Number
  | .integer n => .integer n
  | .decimal x => .decimal (if x.significand = 0 then .zero false else x)

/-- Numbers are equal when their canonical forms are. -/
lemma Number.beq_iff (m n : Number) : (m == n) = true ↔ m.canon = n.canon := by
  have hdecimal : ∀ x y : Binary64, Binary64.beq x y = true ↔
      (if x.significand = 0 then Binary64.zero false else x) =
        if y.significand = 0 then Binary64.zero false else y := by
    intro x y
    by_cases hx : x.significand = 0 <;> by_cases hy : y.significand = 0
    · simp [Binary64.beq, hx, hy]
    · have hne : x ≠ y := fun h => hy (h ▸ hx)
      have hne' : Binary64.zero false ≠ y := fun h => hy (h ▸ rfl)
      simp [Binary64.beq, hx, hy, hne, hne']
    · have hne : x ≠ y := fun h => hx (h ▸ hy)
      have hne' : x ≠ Binary64.zero false := fun h => hx (h ▸ rfl)
      simp [Binary64.beq, hx, hy, hne, hne']
    · simp [Binary64.beq, hx, hy]
  change Number.beq m n = true ↔ _
  cases m <;> cases n <;> simp [Number.beq, Number.canon, hdecimal]

namespace Json

mutual

/-- A value in which every number is canonical. -/
def canon : Json → Json
  | .null => .null
  | .bool b => .bool b
  | .number n => .number n.canon
  | .string s => .string s
  | .array items => .array (canonItems items)
  | .object members => .object (canonMembers members)

/-- The canonical forms of the items of an array. -/
def canonItems : List Json → List Json
  | [] => []
  | x :: xs => canon x :: canonItems xs

/-- The canonical forms of the members of an object. -/
def canonMembers : List (String × Json) → List (String × Json)
  | [] => []
  | (k, x) :: xs => (k, canon x) :: canonMembers xs

end

mutual

/-- Values are equal when their canonical forms are. -/
theorem beq_iff_canon : ∀ a b : Json, Json.beq a b = true ↔ a.canon = b.canon
  | .array xs, b => by
    cases b <;> simp [Json.beq, canon, beqItems_iff_canon xs]
  | .object xs, b => by
    cases b <;> simp [Json.beq, canon, beqMembers_iff_canon xs]
  | .number m, b => by
    cases b <;> simp [Json.beq, canon, Number.beq_iff]
  | .null, b => by cases b <;> simp [Json.beq, canon]
  | .bool _, b => by cases b <;> simp [Json.beq, canon]
  | .string _, b => by cases b <;> simp [Json.beq, canon]

/-- The same for the items of arrays. -/
theorem beqItems_iff_canon :
    ∀ xs ys : List Json, beqItems xs ys = true ↔ canonItems xs = canonItems ys
  | [], ys => by cases ys <;> simp [beqItems, canonItems]
  | x :: xs, ys => by
    cases ys with
    | nil => simp [beqItems, canonItems]
    | cons y ys => simp [beqItems, canonItems, beq_iff_canon x y, beqItems_iff_canon xs ys]

/-- The same for the members of objects. -/
theorem beqMembers_iff_canon :
    ∀ xs ys : List (String × Json), beqMembers xs ys = true ↔ canonMembers xs = canonMembers ys
  | [], ys => by cases ys <;> simp [beqMembers, canonMembers]
  | (k, x) :: xs, ys => by
    cases ys with
    | nil => simp [beqMembers, canonMembers]
    | cons y ys =>
      obtain ⟨l, y⟩ := y
      simp [beqMembers, canonMembers, beq_iff_canon x y, beqMembers_iff_canon xs ys, and_assoc]

end

/-- Equality of JSON values is equality of canonical forms. -/
lemma beq_iff (a b : Json) : (a == b) = true ↔ a.canon = b.canon := beq_iff_canon a b

instance : EquivBEq Json where
  rfl := fun {a} => (beq_iff a a).mpr rfl
  symm := fun {a b} h => (beq_iff b a).mpr ((beq_iff a b).mp h).symm
  trans := fun {a b c} h h' =>
    (beq_iff a c).mpr (((beq_iff a b).mp h).trans ((beq_iff b c).mp h'))

end Json

/-! ## Trees with unique names -/

mutual

/-- Every entry in a value has sub-attributes of pairwise different names. -/
def Value.UniqueNames : Value → Prop
  | .simple _ => True
  | .complex e => Entry.UniqueNames e

/-- An entry has sub-attributes of pairwise different names, and so have the entries in it. -/
def Entry.UniqueNames : Entry → Prop
  | ⟨subs⟩ => (subs.map Attribute.nameKey).Nodup ∧ Attribute.AllUniqueNames subs

/-- The entries in each of several attributes have unique names. -/
def Attribute.AllUniqueNames : List Attribute → Prop
  | [] => True
  | a :: as => Attribute.UniqueNames a ∧ Attribute.AllUniqueNames as

/-- The entries in an attribute have unique names. -/
def Attribute.UniqueNames : Attribute → Prop
  | ⟨_, values⟩ => Value.AllUniqueNames values

/-- The entries in each of several values have unique names. -/
def Value.AllUniqueNames : List Value → Prop
  | [] => True
  | v :: vs => Value.UniqueNames v ∧ Value.AllUniqueNames vs

end

/-- A list of attributes has unique names when each of them has. -/
lemma Attribute.allUniqueNames_iff {as : List Attribute} :
    Attribute.AllUniqueNames as ↔ ∀ a ∈ as, a.UniqueNames := by
  induction as with
  | nil => simp [Attribute.AllUniqueNames]
  | cons a as ih => simp [Attribute.AllUniqueNames, ih]

/-- A list of values has unique names when each of them has. -/
lemma Value.allUniqueNames_iff {vs : List Value} :
    Value.AllUniqueNames vs ↔ ∀ v ∈ vs, v.UniqueNames := by
  induction vs with
  | nil => simp [Value.AllUniqueNames]
  | cons v vs ih => simp [Value.AllUniqueNames, ih]

@[simp] lemma Value.uniqueNames_simple (j : Json) : (Value.simple j).UniqueNames := by
  rw [Value.UniqueNames]
  trivial

@[simp] lemma Value.uniqueNames_complex (e : Entry) :
    (Value.complex e).UniqueNames ↔ e.UniqueNames := by
  rw [Value.UniqueNames]

/-- An attribute has unique names when its values have. -/
lemma Attribute.uniqueNames_iff {a : Attribute} :
    a.UniqueNames ↔ ∀ v ∈ a.values, v.UniqueNames := by
  obtain ⟨d, vs⟩ := a
  rw [Attribute.UniqueNames, Value.allUniqueNames_iff]

/-- An entry has unique names when it repeats none itself and its sub-attributes have them. -/
lemma Entry.uniqueNames_iff {e : Entry} :
    e.UniqueNames ↔ (e.subAttributes.map Attribute.nameKey).Nodup ∧
      ∀ a ∈ e.subAttributes, a.UniqueNames := by
  obtain ⟨subs⟩ := e
  rw [Entry.UniqueNames, Attribute.allUniqueNames_iff]

/-! ## Equality by parts -/

@[simp] lemma Value.simple_beq_simple (j k : Json) :
    (Value.simple j == Value.simple k) = (j == k) := by
  change Value.beq _ _ = _
  rw [Value.beq]

@[simp] lemma Value.complex_beq_complex (e f : Entry) :
    (Value.complex e == Value.complex f) = (e == f) := by
  change Value.beq _ _ = Entry.beq _ _
  rw [Value.beq]

@[simp] lemma Value.simple_beq_complex (j : Json) (f : Entry) :
    (Value.simple j == Value.complex f) = false := by
  change Value.beq _ _ = _
  simp [Value.beq]

@[simp] lemma Value.complex_beq_simple (e : Entry) (k : Json) :
    (Value.complex e == Value.simple k) = false := by
  change Value.beq _ _ = _
  simp [Value.beq]

/-- Attributes are equal when they have one key and equal values in the same order. -/
lemma Attribute.beq_iff {a b : Attribute} :
    (a == b) = true ↔
      a.key = b.key ∧ List.Forall₂ (fun v w => (v == w) = true) a.values b.values := by
  have hlist : ∀ vs ws : List Value, Value.beqList vs ws = true ↔
      List.Forall₂ (fun v w => (v == w) = true) vs ws := by
    intro vs
    induction vs with
    | nil => intro ws; cases ws <;> simp [Value.beqList]
    | cons v vs ih =>
      intro ws
      cases ws with
      | nil => simp [Value.beqList]
      | cons w ws =>
        rw [Value.beqList, Bool.and_eq_true, ih, List.forall₂_cons]
        exact Iff.rfl
  obtain ⟨d, vs⟩ := a
  change Attribute.beq _ _ = true ↔ _
  rw [Attribute.beq, Bool.and_eq_true, hlist, beq_iff_eq]
  exact Iff.rfl

/-- What the one-directional search for sub-attributes finds. -/
lemma Entry.allFound_iff {as bs : List Attribute} :
    Entry.allFound as bs = true ↔
      ∀ a ∈ as, ∃ b, Keyed.get? Attribute.nameKey a.nameKey bs = some b ∧ (a == b) = true := by
  induction as with
  | nil => simp [Entry.allFound]
  | cons a as ih =>
    rw [Entry.allFound, Bool.and_eq_true, ih, List.forall_mem_cons]
    refine and_congr_left fun _ => ?_
    cases Keyed.get? Attribute.nameKey a.nameKey bs with
    | none => simp
    | some b =>
      simp only [Option.some.injEq, exists_eq_left']
      exact Iff.rfl

/-- **Entries are equal name by name.** -/
lemma Entry.beq_iff {e f : Entry} (he : e.UniqueNames) (hf : f.UniqueNames) :
    (e == f) = true ↔ ∀ k, Option.Rel (fun a b => (a == b) = true)
      (Keyed.get? Attribute.nameKey k e.subAttributes)
      (Keyed.get? Attribute.nameKey k f.subAttributes) := by
  rw [← Keyed.forall_found_iff (Entry.uniqueNames_iff.mp he).1 (Entry.uniqueNames_iff.mp hf).1]
  obtain ⟨subs⟩ := e
  obtain ⟨subs'⟩ := f
  change Entry.beq _ _ = true ↔ _
  rw [Entry.beq, Bool.and_eq_true, beq_iff_eq, Entry.allFound_iff]

/-! ## Equality is an equivalence -/

/-- What makes `==` an equivalence, for one value on the left. -/
structure BeqLaws {β : Type} [BEq β] (P : β → Prop) (x : β) : Prop where
  refl : (x == x) = true
  symm : ∀ y, P y → (x == y) = true → (y == x) = true
  trans : ∀ y z, P y → P z → (x == y) = true → (y == z) = true → (x == z) = true

/-- The laws for an entry from those for its sub-attributes. -/
lemma Entry.laws_of_subAttributes {e : Entry} (he : e.UniqueNames)
    (hsubs : ∀ a ∈ e.subAttributes, BeqLaws Attribute.UniqueNames a) :
    BeqLaws Entry.UniqueNames e := by
  have hmem : ∀ {f : Entry} {k : List Char} {a : Attribute}, f.UniqueNames →
      Keyed.get? Attribute.nameKey k f.subAttributes = some a → a.UniqueNames :=
    fun hf h => (Entry.uniqueNames_iff.mp hf).2 _ (Keyed.mem_of_get? h)
  refine ⟨(Entry.beq_iff he he).mpr fun k => ?_,
    fun f hf h => (Entry.beq_iff hf he).mpr fun k => ?_,
    fun f g hf hg h h' => (Entry.beq_iff he hg).mpr fun k => ?_⟩
  · cases ha : Keyed.get? Attribute.nameKey k e.subAttributes with
    | none => exact .none
    | some a => exact .some (hsubs a (Keyed.mem_of_get? ha)).refl
  · have hk := (Entry.beq_iff he hf).mp h k
    cases ha : Keyed.get? Attribute.nameKey k e.subAttributes with
    | none =>
      rw [ha] at hk
      generalize Keyed.get? Attribute.nameKey k f.subAttributes = o at hk ⊢
      cases hk
      exact .none
    | some a =>
      rw [ha] at hk
      cases hb : Keyed.get? Attribute.nameKey k f.subAttributes with
      | none => rw [hb] at hk; cases hk
      | some b =>
        rw [hb] at hk
        cases hk with
        | some hab => exact .some ((hsubs a (Keyed.mem_of_get? ha)).symm b (hmem hf hb) hab)
  · have hk := (Entry.beq_iff he hf).mp h k
    have hk' := (Entry.beq_iff hf hg).mp h' k
    cases hb : Keyed.get? Attribute.nameKey k f.subAttributes with
    | none =>
      rw [hb] at hk hk'
      generalize Keyed.get? Attribute.nameKey k e.subAttributes = o at hk ⊢
      generalize Keyed.get? Attribute.nameKey k g.subAttributes = p at hk' ⊢
      cases hk; cases hk'
      exact .none
    | some b =>
      rw [hb] at hk hk'
      cases ha : Keyed.get? Attribute.nameKey k e.subAttributes with
      | none => rw [ha] at hk; cases hk
      | some a =>
        cases hc : Keyed.get? Attribute.nameKey k g.subAttributes with
        | none => rw [hc] at hk'; cases hk'
        | some c =>
          rw [ha] at hk
          rw [hc] at hk'
          cases hk with
          | some hab =>
            cases hk' with
            | some hbc =>
              exact .some ((hsubs a (Keyed.mem_of_get? ha)).trans b c (hmem hf hb) (hmem hg hc)
                hab hbc)

section Lists

variable {β : Type} [BEq β] {P : β → Prop} {xs : List β} (hxs : ∀ x ∈ xs, BeqLaws P x)

include hxs in
/-- Equality of lists, element by element, is symmetric. -/
lemma BeqLaws.forall₂_symm {ys : List β} (hys : ∀ y ∈ ys, P y)
    (h : List.Forall₂ (fun x y => (x == y) = true) xs ys) :
    List.Forall₂ (fun x y => (x == y) = true) ys xs := by
  induction h with
  | nil => exact .nil
  | cons hxy _ ih =>
    rw [List.forall_mem_cons] at hxs hys
    exact .cons (hxs.1.symm _ hys.1 hxy) (ih hxs.2 hys.2)

include hxs in
/-- Equality of lists, element by element, is transitive. -/
lemma BeqLaws.forall₂_trans {ys zs : List β} (hys : ∀ y ∈ ys, P y) (hzs : ∀ z ∈ zs, P z)
    (h : List.Forall₂ (fun x y => (x == y) = true) xs ys)
    (h' : List.Forall₂ (fun x y => (x == y) = true) ys zs) :
    List.Forall₂ (fun x y => (x == y) = true) xs zs := by
  induction h generalizing zs with
  | nil => exact h'
  | cons hxy _ ih =>
    cases h' with
    | cons hyz h' =>
      rw [List.forall_mem_cons] at hxs hys hzs
      exact .cons (hxs.1.trans _ _ hys.1 hzs.1 hxy hyz) (ih hxs.2 hys.2 hzs.2 h')

end Lists

/-- The laws for an attribute from those for its values. -/
lemma Attribute.laws_of_values {a : Attribute}
    (hvalues : ∀ v ∈ a.values, BeqLaws Value.UniqueNames v) :
    BeqLaws Attribute.UniqueNames a := by
  refine ⟨Attribute.beq_iff.mpr ⟨rfl, List.forall₂_same.mpr fun v hv => (hvalues v hv).refl⟩,
    fun b hb h => ?_, fun b c hb hc h h' => ?_⟩
  · obtain ⟨hkey, hlist⟩ := Attribute.beq_iff.mp h
    exact Attribute.beq_iff.mpr
      ⟨hkey.symm, BeqLaws.forall₂_symm hvalues (Attribute.uniqueNames_iff.mp hb) hlist⟩
  · obtain ⟨hkey, hlist⟩ := Attribute.beq_iff.mp h
    obtain ⟨hkey', hlist'⟩ := Attribute.beq_iff.mp h'
    exact Attribute.beq_iff.mpr ⟨hkey.trans hkey', BeqLaws.forall₂_trans hvalues
      (Attribute.uniqueNames_iff.mp hb) (Attribute.uniqueNames_iff.mp hc) hlist hlist'⟩

/-- The laws for a scalar. -/
lemma Value.laws_simple (j : Json) : BeqLaws Value.UniqueNames (.simple j) := by
  refine ⟨by simp, fun w _ h => ?_, fun w u _ _ h h' => ?_⟩
  · cases w with
    | simple k => simpa using BEq.symm (by simpa using h)
    | complex e => simp at h
  · cases w with
    | complex e => simp at h
    | simple k =>
      cases u with
      | complex e => simp at h'
      | simple l => simpa using BEq.trans (b := k) (by simpa using h) (by simpa using h')

/-- The laws for a complex value from those for its entry. -/
lemma Value.laws_complex {e : Entry} (he : BeqLaws Entry.UniqueNames e) :
    BeqLaws Value.UniqueNames (.complex e) := by
  refine ⟨by simpa using he.refl, fun w hw h => ?_, fun w u hw hu h h' => ?_⟩
  · cases w with
    | simple k => simp at h
    | complex f => simpa using he.symm f (by simpa using hw) (by simpa using h)
  · cases w with
    | simple k => simp at h
    | complex f =>
      cases u with
      | simple l => simp at h'
      | complex g =>
        simpa using he.trans f g (by simpa using hw) (by simpa using hu) (by simpa using h)
          (by simpa using h')

mutual

/-- The laws for every value with unique names. -/
theorem Value.laws : ∀ v : Value, v.UniqueNames → BeqLaws Value.UniqueNames v
  | .simple j, _ => Value.laws_simple j
  | .complex e, h => Value.laws_complex (Entry.laws e h)

/-- The laws for every entry with unique names. -/
theorem Entry.laws : ∀ e : Entry, e.UniqueNames → BeqLaws Entry.UniqueNames e
  | ⟨subs⟩, h => Entry.laws_of_subAttributes h (Attribute.laws_of_mem subs h.2)

/-- The laws for each of several attributes with unique names. -/
theorem Attribute.laws_of_mem : ∀ as : List Attribute, Attribute.AllUniqueNames as →
    ∀ a ∈ as, BeqLaws Attribute.UniqueNames a
  | [], _ => by simp
  | a :: as, h =>
    List.forall_mem_cons.mpr ⟨Attribute.laws a h.1, Attribute.laws_of_mem as h.2⟩

/-- The laws for every attribute with unique names. -/
theorem Attribute.laws : ∀ a : Attribute, a.UniqueNames → BeqLaws Attribute.UniqueNames a
  | ⟨_, vs⟩, h => Attribute.laws_of_values (Value.laws_of_mem vs h)

/-- The laws for each of several values with unique names. -/
theorem Value.laws_of_mem : ∀ vs : List Value, Value.AllUniqueNames vs →
    ∀ v ∈ vs, BeqLaws Value.UniqueNames v
  | [], _ => by simp
  | v :: vs, h => List.forall_mem_cons.mpr ⟨Value.laws v h.1, Value.laws_of_mem vs h.2⟩

end

/-- The laws for each value of a kind make equality an equivalence. -/
lemma EquivOn.of_laws {β : Type} [BEq β] {P : β → Prop} (h : ∀ x, P x → BeqLaws P x) :
    EquivOn P where
  refl := fun x hx => (h x hx).refl
  symm := fun x y hx hy => (h x hx).symm y hy
  trans := fun x y z hx hy hz => (h x hx).trans y z hy hz

/-- Equality of values is an equivalence. -/
theorem Value.equivOn : EquivOn Value.UniqueNames := .of_laws Value.laws

/-- Equality of entries is an equivalence. -/
theorem Entry.equivOn : EquivOn Entry.UniqueNames := .of_laws Entry.laws

/-- Equality of attributes is an equivalence. -/
theorem Attribute.equivOn : EquivOn Attribute.UniqueNames := .of_laws Attribute.laws

end Scim
