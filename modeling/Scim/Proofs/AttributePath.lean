import Scim.AttributePath
import Scim.Proofs.Reconciliation

set_option autoImplicit false

/-!
# Written attribute paths

A path whose names fit the grammar and whose schema is not empty is read back as it was written.

## Main definitions

* `Scim.AttributePath.IsName` — the names of the grammar.
* `Scim.AttributePath.WellFormed` — the paths that can be written.
* `Scim.AttributePath.target` — the key of the attribute that a path names.
* `Scim.AttributePath.lower` — a path in lower case.

## Main results

* `Scim.AttributePath.parse_render` — reading a written path gives the path.
* `Scim.AttributePath.key_eq_of_render` — written paths that differ only in case are equal paths.
* `Scim.AttributePath.equivOn` — equality of paths is an equivalence that keeps the target.
-/

namespace Scim.AttributePath

/-- A name of the grammar: not empty, and with characters of names only. -/
def IsName (name : String) : Prop :=
  name ≠ "" ∧ ∀ c ∈ name.toList, isNameCharacter c = true

instance (name : String) : Decidable (IsName name) :=
  -- over the list, as the characters are finitely many and would all be tried
  decidable_of_iff (name ≠ "" ∧ name.toList.all isNameCharacter = true)
    (and_congr_right' List.all_eq_true)

/-- A path that can be written: its names fit the grammar and its schema is not empty. -/
structure WellFormed (path : AttributePath) : Prop where
  name : IsName path.name
  sub : ∀ sub, path.sub = some sub → IsName sub
  schema : ∀ schema, path.schema = some schema → schema ≠ ""

/-! ## Splitting at separators -/

/-- No separator, no split. -/
lemma splitLast?_eq_none {separator : Char} {cs : List Char} (h : separator ∉ cs) :
    splitLast? separator cs = none := by
  induction cs with
  | nil => rfl
  | cons c cs ih =>
    rw [List.mem_cons, not_or] at h
    rw [splitLast?, ih h.2]
    exact if_neg (Ne.symm h.1)

/-- The split is at the separator behind which no other stands. -/
lemma splitLast?_append {separator : Char} (before : List Char) {behind : List Char}
    (h : separator ∉ behind) :
    splitLast? separator (before ++ separator :: behind) = some (before, behind) := by
  induction before with
  | nil =>
    rw [List.nil_append, splitLast?, splitLast?_eq_none h]
    exact if_pos rfl
  | cons c cs ih => rw [List.cons_append, splitLast?, ih]

/-- No character of a name is a separator. -/
lemma IsName.not_mem {name : String} (h : IsName name) {c : Char}
    (hc : isNameCharacter c = false) : c ∉ name.toList :=
  fun hmem => Bool.false_ne_true (hc.symm.trans (h.2 c hmem))

/-- A name of the grammar is accepted. -/
lemma checkName_ok {name : String} (h : IsName name) (e : PathError) :
    checkName e name.toList = .ok () := by
  have hne : ¬ name.toList.isEmpty = true := by
    rw [List.isEmpty_iff, String.toList_eq_nil_iff]
    exact h.1
  have hfind : name.toList.find? (fun c => !isNameCharacter c) = none :=
    List.find?_eq_none.mpr fun c hc => by simp [h.2 c hc]
  rw [checkName, if_neg hne, hfind]

/-! ## Reading back -/

/-- The characters of the part of a written path behind the schema. -/
def writtenNames (path : AttributePath) : List Char :=
  path.name.toList ++
    match path.sub with
    | some sub => '.' :: sub.toList
    | none => []

/-- The characters of a written path. -/
lemma toList_render (path : AttributePath) : path.render.toList =
    (match path.schema with
      | some schema => schema.toList ++ [':']
      | none => []) ++ path.writtenNames := by
  obtain ⟨schema, name, sub⟩ := path
  cases schema <;> cases sub <;> simp [render, writtenNames]

/-- The names of a written path are read back. -/
lemma parseNames_writtenNames {path : AttributePath} (h : path.WellFormed) (text : String) :
    parseNames text path.schema path.writtenNames = .ok path := by
  obtain ⟨schema, name, sub⟩ := path
  have hname : IsName name := h.name
  have hpoint : ∀ c ∈ name.toList, (c != '.') = true := by
    intro c hc
    have hne : c ≠ '.' := fun heq => hname.not_mem (by decide) (heq ▸ hc)
    simpa using hne
  cases sub with
  | none =>
    rw [parseNames, writtenNames, List.append_nil, List.takeWhile_eq_self_iff.mpr hpoint,
      List.dropWhile_eq_nil_iff.mpr hpoint]
    simp only [checkName_ok hname]
    rw [String.ofList_toList]
    rfl
  | some sub =>
    have hsub : IsName sub := h.sub sub rfl
    have htake : (name.toList ++ '.' :: sub.toList).takeWhile (· != '.') = name.toList := by
      rw [List.takeWhile_append_of_pos hpoint]
      simp
    have hdrop : (name.toList ++ '.' :: sub.toList).dropWhile (· != '.') = '.' :: sub.toList := by
      rw [List.dropWhile_append_of_pos hpoint]
      simp
    have hno : ¬ sub.toList.contains '.' = true := by
      rw [List.contains_iff_mem]
      exact hsub.not_mem (by decide)
    rw [parseNames, writtenNames]
    simp only [htake, hdrop, if_neg hno, checkName_ok hname, checkName_ok hsub]
    rw [String.ofList_toList, String.ofList_toList]
    rfl

/-- **A written path is read back.** -/
theorem parse_render {path : AttributePath} (h : path.WellFormed) :
    parse path.render = .ok path := by
  have hnames : ':' ∉ path.writtenNames := by
    obtain ⟨schema, name, sub⟩ := path
    have hname : ':' ∉ name.toList := h.name.not_mem (by decide)
    cases sub with
    | none => simpa [writtenNames] using hname
    | some sub =>
      have hsub : ':' ∉ sub.toList := (h.sub sub rfl).not_mem (by decide)
      simp [writtenNames, hname, hsub]
  have hne : ¬ path.render.isEmpty = true := by
    rw [String.isEmpty_iff, ← String.toList_eq_nil_iff, toList_render, writtenNames]
    simp [h.name.1]
  rw [parse, if_neg hne, toList_render]
  cases hschema : path.schema with
  | none =>
    rw [List.nil_append, splitLast?_eq_none hnames]
    rw [← hschema]
    exact parseNames_writtenNames h _
  | some schema =>
    have hschema' : schema.toList ≠ [] := by
      rw [ne_eq, String.toList_eq_nil_iff]
      exact h.schema schema hschema
    rw [List.append_assoc, List.singleton_append, splitLast?_append _ hnames]
    split
    · rename_i heq
      simp only [Option.some.injEq, Prod.mk.injEq] at heq
      exact absurd heq.1 hschema'
    · rename_i heq
      simp only [Option.some.injEq, Prod.mk.injEq] at heq
      rw [← heq.1, ← heq.2, String.ofList_toList, ← hschema]
      exact parseNames_writtenNames h _
    · rename_i heq
      cases heq

/-! ## Lower case -/

/-- A text in lower case. -/
def lowered (text : String) : String := String.ofList (caseKey text)

/-- A path with all its parts in lower case. -/
def lower (path : AttributePath) : AttributePath :=
  ⟨path.schema.map lowered, lowered path.name, path.sub.map lowered⟩

/-- No text but the empty one is empty in lower case. -/
lemma lowered_ne_empty {text : String} (h : text ≠ "") : lowered text ≠ "" := by
  rw [ne_eq, ← String.toList_eq_nil_iff, lowered, String.toList_ofList, caseKey,
    List.map_eq_nil_iff, String.toList_eq_nil_iff]
  exact h

/-- The grammar of names has no regard to case. -/
lemma isNameCharacter_toLower (c : Char) : isNameCharacter c.toLower = isNameCharacter c := by
  by_cases hupper : c.isUpper = true
  · simp [isNameCharacter, Char.isAlphanum, Char.isAlpha, hupper]
  · rw [Char.toLower_eq_of_not_isUpper hupper]

/-- A name of the grammar is one in lower case. -/
lemma IsName.lowered {name : String} (h : IsName name) : IsName (lowered name) := by
  refine ⟨lowered_ne_empty h.1, fun c hc => ?_⟩
  rw [AttributePath.lowered, String.toList_ofList] at hc
  obtain ⟨x, hx, rfl⟩ := List.mem_map.mp hc
  rw [isNameCharacter_toLower]
  exact h.2 x hx

/-- A path that can be written can be written in lower case. -/
lemma WellFormed.lower {path : AttributePath} (h : path.WellFormed) : path.lower.WellFormed := by
  refine ⟨h.name.lowered, fun sub hsub => ?_, fun schema hschema => ?_⟩
  · obtain ⟨x, hx, rfl⟩ := Option.map_eq_some_iff.mp hsub
    exact (h.sub x hx).lowered
  · obtain ⟨x, hx, rfl⟩ := Option.map_eq_some_iff.mp hschema
    exact lowered_ne_empty (h.schema x hx)

/-- The separators have no case, so that a path in lower case is written like the path. -/
lemma render_lower (path : AttributePath) : path.lower.render = lowered path.render := by
  obtain ⟨schema, name, sub⟩ := path
  rw [← String.toList_inj, lowered, String.toList_ofList, caseKey, toList_render, toList_render]
  cases schema <;> cases sub <;>
    simp [lower, lowered, writtenNames, caseKey, Char.toLower]

/-- Paths that are the same in lower case are equal. -/
lemma key_eq_of_lower_eq {p q : AttributePath} (h : p.lower = q.lower) : p.key = q.key := by
  have hlowered : Function.Injective String.ofList := fun _ _ => String.ofList_inj.mp
  obtain ⟨schema, name, sub⟩ := p
  obtain ⟨schema', name', sub'⟩ := q
  simp only [lower, AttributePath.mk.injEq] at h
  obtain ⟨hschema, hname, hsub⟩ := h
  have hmap : ∀ {x y : Option String}, x.map lowered = y.map lowered →
      x.map caseKey = y.map caseKey := by
    intro x y hxy
    refine Option.map_injective hlowered ?_
    rwa [Option.map_map, Option.map_map]
  simp only [key, hmap hschema, hmap hsub, hlowered hname]

/-- **Written paths that differ only in case are equal paths.**

**Proof sketch.**  In lower case both are written alike, and a written path is read back. -/
theorem key_eq_of_render {p q : AttributePath} (hp : p.WellFormed) (hq : q.WellFormed)
    (h : SameName p.render q.render) : p.key = q.key := by
  have hrender : p.lower.render = q.lower.render := by
    rw [render_lower, render_lower, lowered, lowered, h]
  have hparse := parse_render hp.lower
  rw [hrender, parse_render hq.lower] at hparse
  exact key_eq_of_lower_eq (Except.ok.inj hparse).symm

/-! ## Equality and targets -/

/-- Paths are equal when their keys are. -/
lemma beq_iff {p q : AttributePath} : (p == q) = true ↔ p.key = q.key := by
  change (p.key == q.key) = true ↔ _
  exact beq_iff_eq

/-- Equality of paths is an equivalence. -/
lemma equivOn : EquivOn fun _ : AttributePath => True where
  refl := fun _ _ => beq_iff.mpr rfl
  symm := fun _ _ _ _ h => beq_iff.mpr (beq_iff.mp h).symm
  trans := fun _ _ _ _ _ _ h h' => beq_iff.mpr ((beq_iff.mp h).trans (beq_iff.mp h'))

/-- The key of the attribute that a path names, in a resource with the given core schema. -/
def target (core : String) (path : AttributePath) : List Char × List Char :=
  (caseKey (path.schemaOr core), caseKey path.name)

/-- Equal paths name one attribute. -/
lemma target_congr (core : String) {p q : AttributePath} (h : (p == q) = true) :
    p.target core = q.target core := by
  obtain ⟨s, n, b⟩ := p
  obtain ⟨s', n', b'⟩ := q
  have hkey := beq_iff.mp h
  simp only [key, Prod.mk.injEq] at hkey
  obtain ⟨hschema, hname, -⟩ := hkey
  refine Prod.ext ?_ hname
  cases s <;> cases s' <;> simp_all [target, schemaOr]

/-- Of equal paths both name a sub-attribute, or none does. -/
lemma isSome_sub_of_beq {p q : AttributePath} (h : (p == q) = true) :
    p.sub.isSome = q.sub.isSome := by
  have hsub : p.sub.map caseKey = q.sub.map caseKey := congrArg (fun k => k.2.2) (beq_iff.mp h)
  simpa using congrArg Option.isSome hsub

end Scim.AttributePath
