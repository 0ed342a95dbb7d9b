import Scim.Proofs.AttributePath
import Scim.Proofs.Outcome

set_option autoImplicit false

/-!
# The notation of attribute paths

An attribute path is written `[schema:]name[.name]`.  Names are words over the letters and digits
of ASCII, `_`, `$` and `-`; a schema is any text that is not empty and may itself hold colons and
points.  This module states that notation without the parser, and shows that the parser accepts
exactly its texts and takes each apart in the only way there is.

## Main definitions

* `Scim.AttributePath.IsWord` — the words of the notation.
* `Scim.AttributePath.Denotes` — the texts of the notation, each with its parts.

## Main results

* `Scim.AttributePath.parse_eq_ok_iff` — what is read is what the path is written as.
* `Scim.AttributePath.denotes_iff` — the notation is the written form of well-formed paths.
* `Scim.AttributePath.parse_iff_denotes` — the parser reads the notation, exactly.
-/

namespace Scim.AttributePath

/-! ## The notation -/

/-- The characters of words: the class `[A-Za-z0-9_$-]`. -/
def IsWordCharacter (c : Char) : Prop :=
  'A' ≤ c ∧ c ≤ 'Z' ∨ 'a' ≤ c ∧ c ≤ 'z' ∨ '0' ≤ c ∧ c ≤ '9' ∨ c = '_' ∨ c = '$' ∨ c = '-'

/-- A word: one or more of its characters. -/
def IsWord (text : String) : Prop := text ≠ "" ∧ ∀ c ∈ text.toList, IsWordCharacter c

/-- A text of the notation and the parts that it is made of: a word, two words with a point between
them, or one of these behind a schema and a colon. -/
inductive Denotes : String → AttributePath → Prop
  | word {name : String} (hname : IsWord name) : Denotes name ⟨none, name, none⟩
  | words {name sub : String} (hname : IsWord name) (hsub : IsWord sub) :
      Denotes (name ++ "." ++ sub) ⟨none, name, some sub⟩
  | qualified {schema text name : String} {sub : Option String} (hschema : schema ≠ "")
      (h : Denotes text ⟨none, name, sub⟩) :
      Denotes (schema ++ ":" ++ text) ⟨some schema, name, sub⟩

/-! ## Words -/

/-- The parser knows the characters of words. -/
lemma isNameCharacter_iff {c : Char} : isNameCharacter c = true ↔ IsWordCharacter c := by
  simp only [isNameCharacter, IsWordCharacter, Char.isAlphanum, Char.isAlpha, Char.isUpper,
    Char.isLower, Char.isDigit, Bool.or_eq_true, Bool.and_eq_true, decide_eq_true_eq, Char.le_def,
    ge_iff_le]
  tauto

/-- The names of the parser are the words. -/
lemma isName_iff {text : String} : IsName text ↔ IsWord text := by
  simp only [IsName, IsWord, isNameCharacter_iff]

/-! ## The parser accepts no more -/

/-- A split is one at a separator. -/
lemma eq_append_of_splitLast? {separator : Char} {cs before behind : List Char}
    (h : splitLast? separator cs = some (before, behind)) :
    cs = before ++ separator :: behind := by
  induction cs generalizing before behind with
  | nil => cases h
  | cons c cs ih =>
    rw [splitLast?] at h
    split at h
    · rename_i before' behind' hsplit
      cases h
      rw [ih hsplit, List.cons_append]
    · split at h
      · rename_i hc
        cases h
        rw [hc, List.nil_append]
      · cases h

/-- What is accepted is a name of the grammar. -/
lemma isName_of_checkName {e : PathError} {name : List Char} (h : checkName e name = .ok ()) :
    IsName (String.ofList name) := by
  rw [checkName] at h
  split at h
  · cases h
  · rename_i hne
    split at h
    · cases h
    · rename_i hfind
      refine ⟨fun hempty => hne ?_, fun c hc => ?_⟩
      · rw [List.isEmpty_iff, ← String.toList_ofList (l := name), hempty]
        rfl
      · rw [String.toList_ofList] at hc
        simpa using List.find?_eq_none.mp hfind c hc

/-- What is read behind the schema was written there. -/
lemma of_parseNames_eq_ok {text : String} {schema : Option String} {names : List Char}
    {path : AttributePath} (h : parseNames text schema names = .ok path) :
    path.schema = schema ∧ path.writtenNames = names ∧ IsName path.name ∧
      ∀ sub, path.sub = some sub → IsName sub := by
  have hparts := List.takeWhile_append_dropWhile (p := (· != '.')) (l := names)
  rw [parseNames] at h
  split at h
  · rename_i hnone
    obtain ⟨_, hname, h⟩ := Outcome.bind_eq_ok_iff.mp h
    cases h
    rw [hnone, List.append_nil] at hparts
    refine ⟨rfl, ?_, isName_of_checkName hname, fun sub hsub => by cases hsub⟩
    rw [writtenNames, String.toList_ofList, List.append_nil, hparts]
  · rename_i c sub hsome
    split at h
    · cases h
    · obtain ⟨_, hname, h⟩ := Outcome.bind_eq_ok_iff.mp h
      obtain ⟨_, hsub, h⟩ := Outcome.bind_eq_ok_iff.mp h
      cases h
      have hpoint : c = '.' := by
        have hhead := List.head?_dropWhile_not (p := (· != '.')) names
        rw [hsome] at hhead
        simpa using hhead
      rw [hsome, hpoint] at hparts
      refine ⟨rfl, ?_, isName_of_checkName hname, fun sub' hsub' => ?_⟩
      · rw [writtenNames, String.toList_ofList]
        dsimp only
        rw [String.toList_ofList, hparts]
      · cases hsub'
        exact isName_of_checkName hsub

/-- **What is read is what the path is written as.**

**Proof sketch.**  A written path is read back.  Conversely the parser cuts its text at a colon and
at a point, so that putting the parts together again gives the text, and it accepts no part that
the grammar excludes. -/
theorem parse_eq_ok_iff {text : String} {path : AttributePath} :
    parse text = .ok path ↔ path.WellFormed ∧ path.render = text := by
  constructor
  · intro h
    rw [parse] at h
    split at h
    · cases h
    · split at h
      · cases h
      · rename_i schema names hne hsplit
        obtain ⟨hschema, hnames, hname, hsub⟩ := of_parseNames_eq_ok h
        refine ⟨⟨hname, hsub, fun s hs => ?_⟩, ?_⟩
        · rw [hschema] at hs
          cases hs
          rwa [ne_eq, ← String.toList_eq_nil_iff, String.toList_ofList]
        · rw [← String.toList_inj, toList_render, hschema, hnames, eq_append_of_splitLast? hsplit]
          simp
      · obtain ⟨hschema, hnames, hname, hsub⟩ := of_parseNames_eq_ok h
        refine ⟨⟨hname, hsub, fun s hs => ?_⟩, ?_⟩
        · rw [hschema] at hs
          cases hs
        · rw [← String.toList_inj, toList_render, hschema, hnames, List.nil_append]
  · rintro ⟨hpath, rfl⟩
    exact parse_render hpath

/-! ## The parser reads the notation -/

/-- **The notation is the written form of well-formed paths.** -/
theorem denotes_iff {text : String} {path : AttributePath} :
    Denotes text path ↔ path.WellFormed ∧ path.render = text := by
  constructor
  · intro h
    induction h with
    | word hname =>
      exact ⟨⟨isName_iff.mpr hname, by simp, by simp⟩, by simp [render]⟩
    | words hname hsub =>
      refine ⟨⟨isName_iff.mpr hname, fun sub heq => ?_, by simp⟩,
        by simp [render, String.append_assoc]⟩
      cases heq
      exact isName_iff.mpr hsub
    | qualified hschema _ ih =>
      obtain ⟨hpath, rfl⟩ := ih
      refine ⟨⟨hpath.name, hpath.sub, fun schema heq => ?_⟩, by simp [render, String.append_assoc]⟩
      cases heq
      exact hschema
  · rintro ⟨hpath, rfl⟩
    obtain ⟨schema, name, sub⟩ := path
    have hname : IsWord name := isName_iff.mp hpath.name
    have hbare : Denotes (render ⟨none, name, sub⟩) ⟨none, name, sub⟩ := by
      cases sub with
      | none => simpa [render] using Denotes.word hname
      | some sub =>
        have hsub : IsWord sub := isName_iff.mp (hpath.sub sub rfl)
        simpa [render, String.append_assoc] using Denotes.words hname hsub
    cases schema with
    | none => exact hbare
    | some schema =>
      have hqualified := Denotes.qualified (hpath.schema schema rfl) hbare
      simpa [render, String.append_assoc] using hqualified

/-- **The parser reads the notation, exactly.**  A text is accepted, with certain parts, if and only
if it is the text of the notation that is made of those parts.  There is only one way to take a
text apart, the parts keep their spelling, and written again they give the text.  Whatever parts
the notation allows, the path that is built of them is written so that it is read back as it was.

**Proof sketch.**  The notation is the written form of well-formed paths, which are what the parser
reads.  As it gives one answer for a text, no text has two decompositions. -/
theorem parse_iff_denotes :
    (∀ (text : String) (path : AttributePath), parse text = .ok path ↔ Denotes text path) ∧
    (∀ (text : String) (path other : AttributePath), Denotes text path → Denotes text other →
      other = path) ∧
    (∀ (text : String) (path : AttributePath), parse text = .ok path → path.render = text) ∧
    ∀ (schema : Option String) (name : String) (sub : Option String),
      (∀ s, schema = some s → s ≠ "") → IsWord name → (∀ s, sub = some s → IsWord s) →
        parse (ofParts schema name sub).render = .ok ⟨schema, name, sub⟩ := by
  have hreads : ∀ (text : String) (path : AttributePath),
      parse text = .ok path ↔ Denotes text path :=
    fun text path => parse_eq_ok_iff.trans denotes_iff.symm
  refine ⟨hreads, fun text path other hpath hother => ?_, fun text path h =>
    (parse_eq_ok_iff.mp h).2, fun schema name sub hschema hname hsub => ?_⟩
  · have hparse := (hreads text other).mpr hother
    rw [(hreads text path).mpr hpath] at hparse
    exact (Except.ok.inj hparse).symm
  · have hparts : ofParts schema name sub = ⟨schema, name, sub⟩ := by
      rw [ofParts]
      congr 1
      cases schema with
      | none => rfl
      | some s => simpa [Option.filter] using hschema s rfl
    rw [hparts]
    exact parse_render ⟨isName_iff.mpr hname, fun s hs => isName_iff.mpr (hsub s hs), hschema⟩

/-- A reference to a member, with a point in its schema, is a text of the notation and is read back.
With two points behind the schema nothing is. -/
theorem parse_iff_denotes_reference :
    Denotes "urn:a.b:members.$ref" ⟨some "urn:a.b", "members", some "$ref"⟩ ∧
    IsWord "members" ∧ IsWord "$ref" ∧
    parse (ofParts (some "urn:a.b") "members" (some "$ref")).render =
      .ok ⟨some "urn:a.b", "members", some "$ref"⟩ ∧
    ∀ path, ¬Denotes "urn:a.b:members.$ref.value" path := by
  obtain ⟨hreads, -, -, hbuilt⟩ := parse_iff_denotes
  have hmembers : IsWord "members" := isName_iff.mp (by decide)
  have href : IsWord "$ref" := isName_iff.mp (by decide)
  refine ⟨(hreads _ _).mp rfl, hmembers, href, hbuilt _ _ _ ?_ hmembers ?_, fun path h => ?_⟩
  · intro s hs
    cases hs
    decide
  · intro s hs
    cases hs
    exact href
  · have hparse := (hreads _ _).mpr h
    cases hparse

end Scim.AttributePath
