import Scim.Proofs.PathNotation

set_option autoImplicit false

/-!
# Attribute paths that differ in case

Two texts that differ only in the case of the letters of ASCII are read alike: as equal paths, or
with the same error.  Conversely equal paths are written alike up to case, so that the parts of a
path, which are compared one by one, tell as much apart as its text does.  The reason is that the
separators and all characters outside the grammar have no case: reading a text in lower case is
reading the text and then putting everything into lower case.

## Main definitions

* `Scim.PathError.Alike` — the same error, up to the case of the texts in it.
* `Scim.SameBeyondAscii` — texts that agree wherever a character is not one of ASCII.

## Main results

* `Scim.AttributePath.parse_lowered` — reading and putting into lower case commute.
* `Scim.AttributePath.beq_iff_sameName` — accepted texts are equal paths when they are the same
  up to case.
* `Scim.AttributePath.parse_up_to_case` — the identity of paths is that of their texts.
-/

namespace Scim

/-! ## Characters -/

/-- Only a separator becomes one in lower case. -/
lemma toLower_eq_iff {c separator : Char} (h : separator.isAlpha = false) :
    c.toLower = separator ↔ c = separator := by
  by_cases hupper : c.isUpper = true
  · have hletter : c.isAlpha = true := by simp [Char.isAlpha, hupper]
    refine iff_of_false ?_ ?_
    · rintro rfl
      rw [Char.isAlpha_toLower_eq_isAlpha, hletter] at h
      cases h
    · rintro rfl
      rw [hletter] at h
      cases h
  · rw [Char.toLower_eq_of_not_isUpper hupper]

/-- Different characters that are the same in lower case are letters of ASCII. -/
lemma isAlpha_of_toLower_eq {c d : Char} (h : c.toLower = d.toLower) (hne : c ≠ d) :
    c.isAlpha = true ∧ d.isAlpha = true := by
  have halpha : c.isAlpha = d.isAlpha := by
    rw [← Char.isAlpha_toLower_eq_isAlpha c, h, Char.isAlpha_toLower_eq_isAlpha]
  by_cases hc : c.isUpper = true
  · have hletter : c.isAlpha = true := by simp [Char.isAlpha, hc]
    exact ⟨hletter, halpha ▸ hletter⟩
  · by_cases hd : d.isUpper = true
    · have hletter : d.isAlpha = true := by simp [Char.isAlpha, hd]
      exact ⟨halpha ▸ hletter, hletter⟩
    · rw [Char.toLower_eq_of_not_isUpper hc, Char.toLower_eq_of_not_isUpper hd] at h
      exact absurd h hne

/-- Letters are characters of ASCII. -/
lemma toNat_lt_of_isAlpha {c : Char} (h : c.isAlpha = true) : c.toNat < 128 := by
  simp only [Char.isAlpha, Char.isUpper, Char.isLower, Bool.or_eq_true, Bool.and_eq_true,
    decide_eq_true_eq, UInt32.le_iff_toNat_le, ge_iff_le] at h
  change 65 ≤ c.toNat ∧ c.toNat ≤ 90 ∨ 97 ≤ c.toNat ∧ c.toNat ≤ 122 at h
  omega

/-! ## Texts -/

/-- Two texts of one length that have the same character wherever one of them has a character
outside ASCII. -/
def SameBeyondAscii (t u : String) : Prop :=
  List.Forall₂ (fun c d => 128 ≤ c.toNat ∨ 128 ≤ d.toNat → c = d) t.toList u.toList

/-- Comparing texts without regard to case folds no character outside ASCII. -/
lemma SameName.sameBeyondAscii {t u : String} (h : SameName t u) : SameBeyondAscii t u := by
  have hfolded : List.Forall₂ (fun c d => c.toLower = d.toLower) t.toList u.toList := by
    have hmapped :
        List.Forall₂ (· = ·) (t.toList.map Char.toLower) (u.toList.map Char.toLower) := by
      rw [List.forall₂_eq_eq_eq]
      exact h
    rwa [List.forall₂_map_left_iff, List.forall₂_map_right_iff] at hmapped
  refine hfolded.imp fun c d hcd hrange => ?_
  by_contra hne
  obtain ⟨hc, hd⟩ := isAlpha_of_toLower_eq hcd hne
  have hc := toNat_lt_of_isAlpha hc
  have hd := toNat_lt_of_isAlpha hd
  omega

/-! ## Errors -/

/-- The same error, about texts that are the same up to case and about the same character. -/
inductive PathError.Alike : PathError → PathError → Prop
  | empty : Alike .empty .empty
  | emptySchema {t u : String} (h : SameName t u) : Alike (.emptySchema t) (.emptySchema u)
  | emptyAttribute {t u : String} (h : SameName t u) :
      Alike (.emptyAttribute t) (.emptyAttribute u)
  | emptySubAttribute {t u : String} (h : SameName t u) :
      Alike (.emptySubAttribute t) (.emptySubAttribute u)
  | tooManySeparators {t u : String} (h : SameName t u) :
      Alike (.tooManySeparators t) (.tooManySeparators u)
  | invalidCharacter {t u : String} (h : SameName t u) (c : Char) :
      Alike (.invalidCharacter t c) (.invalidCharacter u c)

namespace AttributePath

/-- Texts are the same in lower case when they are the same up to case. -/
lemma lowered_eq_iff {t u : String} : lowered t = lowered u ↔ SameName t u := by
  rw [lowered, lowered, String.ofList_inj]
  rfl

/-- An error with its texts in lower case. -/
def lowerError : PathError → PathError
  | .empty => .empty
  | .emptySchema path => .emptySchema (lowered path)
  | .emptyAttribute path => .emptyAttribute (lowered path)
  | .emptySubAttribute path => .emptySubAttribute (lowered path)
  | .tooManySeparators token => .tooManySeparators (lowered token)
  | .invalidCharacter token c => .invalidCharacter (lowered token) c

/-- Errors that are the same in lower case are alike. -/
lemma alike_of_lowerError_eq {e e' : PathError} (h : lowerError e = lowerError e') :
    e.Alike e' := by
  cases e <;> cases e' <;>
    simp only [lowerError, PathError.emptySchema.injEq, PathError.emptyAttribute.injEq,
      PathError.emptySubAttribute.injEq, PathError.tooManySeparators.injEq,
      PathError.invalidCharacter.injEq, lowered_eq_iff, reduceCtorEq] at h
  · exact .empty
  · exact .emptySchema h
  · exact .emptyAttribute h
  · exact .emptySubAttribute h
  · exact .tooManySeparators h
  · obtain ⟨htoken, rfl⟩ := h
    exact .invalidCharacter htoken _

/-- What reading gives, with all texts in lower case. -/
def lowerOutcome : Except PathError AttributePath → Except PathError AttributePath
  | .ok path => .ok path.lower
  | .error e => .error (lowerError e)

/-! ## Reading in lower case -/

/-- A text in lower case, put together from characters in lower case. -/
lemma ofList_map_toLower (cs : List Char) :
    String.ofList (cs.map Char.toLower) = lowered (String.ofList cs) := by
  rw [lowered, caseKey, String.toList_ofList]

/-- A split is in the same place in lower case. -/
lemma splitLast?_map_toLower {separator : Char} (h : separator.isAlpha = false) (cs : List Char) :
    splitLast? separator (cs.map Char.toLower) =
      (splitLast? separator cs).map (Prod.map (List.map Char.toLower) (List.map Char.toLower)) := by
  induction cs with
  | nil => rfl
  | cons c cs ih =>
    rw [List.map_cons, splitLast?, splitLast?, ih]
    cases splitLast? separator cs with
    | some parts => rfl
    | none =>
      simp only [Option.map_none, toLower_eq_iff h]
      split <;> rfl

/-- A name is accepted in lower case, or refused for the same reason. -/
lemma checkName_map_toLower (e : PathError) (name : List Char) :
    checkName (lowerError e) (name.map Char.toLower) = (checkName e name).mapError lowerError := by
  have hsame : (fun c => !isNameCharacter c) ∘ Char.toLower = fun c => !isNameCharacter c :=
    funext fun c => congrArg not (isNameCharacter_toLower c)
  rw [checkName, checkName, List.isEmpty_map, List.find?_map, hsame]
  split
  · rfl
  · cases hfound : name.find? fun c => !isNameCharacter c with
    | none => rfl
    | some c =>
      -- what is refused is no capital letter
      have hlower : c.toLower = c := by
        refine Char.toLower_eq_of_not_isUpper fun hupper => ?_
        have hname := List.find?_some hfound
        simp [isNameCharacter, Char.isAlphanum, Char.isAlpha, hupper] at hname
      simp only [Option.map_some, hlower, ofList_map_toLower]
      rfl

/-- The part behind the schema is read alike in lower case. -/
lemma parseNames_lowered (text : String) (schema : Option String) (names : List Char) :
    parseNames (lowered text) (schema.map lowered) (names.map Char.toLower) =
      lowerOutcome (parseNames text schema names) := by
  have hdot : '.'.isAlpha = false := by decide
  have hpoint : (fun c : Char => c != '.') ∘ Char.toLower = fun c => c != '.' := by
    funext c
    refine congrArg not ?_
    rw [Bool.eq_iff_iff, beq_iff_eq, beq_iff_eq, toLower_eq_iff hdot]
  have hcontains : ∀ sub : List Char, (sub.map Char.toLower).contains '.' = sub.contains '.' := by
    intro sub
    rw [Bool.eq_iff_iff, List.contains_iff_mem, List.contains_iff_mem, List.mem_map]
    simp only [toLower_eq_iff hdot, exists_eq_right]
  rw [parseNames, parseNames, List.takeWhile_map, List.dropWhile_map, hpoint]
  have hname := checkName_map_toLower (.emptyAttribute text) (names.takeWhile (· != '.'))
  cases names.dropWhile (· != '.') with
  | nil =>
    simp only [List.map_nil, ofList_map_toLower]
    rw [show PathError.emptyAttribute (lowered text) = lowerError (.emptyAttribute text) from rfl,
      hname]
    cases checkName (.emptyAttribute text) (names.takeWhile (· != '.')) <;> rfl
  | cons c sub =>
    have hsub := checkName_map_toLower (.emptySubAttribute text) sub
    simp only [List.map_cons, hcontains, ofList_map_toLower]
    split
    · rfl
    · rw [show PathError.emptyAttribute (lowered text) = lowerError (.emptyAttribute text) from rfl,
        show PathError.emptySubAttribute (lowered text) = lowerError (.emptySubAttribute text)
          from rfl, hname, hsub]
      cases checkName (.emptyAttribute text) (names.takeWhile (· != '.')) with
      | error e => rfl
      | ok _ => cases checkName (.emptySubAttribute text) sub <;> rfl

/-- **Reading and putting into lower case commute.**

**Proof sketch.**  The colon and the point are no letters, so a text is cut in the same places in
lower case; the grammar of names has no regard to case; and a character that it refuses is no
letter. -/
theorem parse_lowered (text : String) : parse (lowered text) = lowerOutcome (parse text) := by
  have hcolon : ':'.isAlpha = false := by decide
  have hlist : (lowered text).toList = text.toList.map Char.toLower := by
    rw [lowered, String.toList_ofList, caseKey]
  have hempty : (lowered text).isEmpty = text.isEmpty := by
    rw [Bool.eq_iff_iff, String.isEmpty_iff, String.isEmpty_iff, ← String.toList_eq_nil_iff,
      ← String.toList_eq_nil_iff, hlist, List.map_eq_nil_iff]
  rw [parse, parse, hempty, hlist, splitLast?_map_toLower hcolon]
  split
  · rfl
  · cases splitLast? ':' text.toList with
    | none => exact parseNames_lowered text none text.toList
    | some parts =>
      obtain ⟨_ | ⟨c, schema⟩, names⟩ := parts
      · rfl
      · have hnames := parseNames_lowered text (some (String.ofList (c :: schema))) names
        rw [Option.map_some, ← ofList_map_toLower] at hnames
        exact hnames

/-! ## The identity of paths -/

/-- A path in lower case, from its key. -/
lemma lower_eq_of_key (path : AttributePath) : path.lower =
    ⟨path.key.1.map String.ofList, String.ofList path.key.2.1, path.key.2.2.map String.ofList⟩ := by
  rw [lower, key, Option.map_map, Option.map_map]
  rfl

/-- **Accepted texts are equal paths when they are the same up to case.**

**Proof sketch.**  What is read is written as it was, and the written form of a path in lower case
is determined by its key. -/
theorem beq_iff_sameName {t u : String} {p q : AttributePath} (ht : parse t = .ok p)
    (hu : parse u = .ok q) : (p == q) = true ↔ SameName t u := by
  obtain ⟨hp, rfl⟩ := parse_eq_ok_iff.mp ht
  obtain ⟨hq, rfl⟩ := parse_eq_ok_iff.mp hu
  rw [beq_iff]
  refine ⟨fun h => ?_, key_eq_of_render hp hq⟩
  rw [← lowered_eq_iff, ← render_lower, ← render_lower, lower_eq_of_key, lower_eq_of_key, h]

/-- The order tells the same paths apart as equality. -/
lemma order_eq_iff {p q : AttributePath} : order p q = .eq ↔ (p == q) = true := by
  rw [order, Ordering.then_eq_eq, Ordering.then_eq_eq, Std.compare_eq_iff_eq,
    Std.compare_eq_iff_eq, Std.compare_eq_iff_eq, beq_iff, Prod.ext_iff, Prod.ext_iff]

/-- Texts that are the same up to case are both accepted, or refused alike. -/
lemma outcome_of_sameName {t u : String} (h : SameName t u) :
    (∃ p q, parse t = .ok p ∧ parse u = .ok q) ∨
      ∃ e e', parse t = .error e ∧ parse u = .error e' ∧ e.Alike e' := by
  have houtcome : lowerOutcome (parse t) = lowerOutcome (parse u) := by
    rw [← parse_lowered, ← parse_lowered, lowered_eq_iff.mpr h]
  cases ht : parse t with
  | ok p =>
    cases hu : parse u with
    | ok q => exact .inl ⟨p, q, rfl, rfl⟩
    | error e' =>
      rw [ht, hu] at houtcome
      cases houtcome
  | error e =>
    cases hu : parse u with
    | ok q =>
      rw [ht, hu] at houtcome
      cases houtcome
    | error e' =>
      rw [ht, hu] at houtcome
      exact .inr ⟨e, e', rfl, rfl, alike_of_lowerError_eq (Except.error.inj houtcome)⟩

/-- **The identity of paths is that of their texts up to case.**  Texts that are the same up to
case are both accepted, or both refused for the same reason.  Accepted texts are equal paths, and
compare as equal, exactly when they are the same up to case.  Then both have a schema or neither
has, and the schemas agree in all characters outside ASCII, which are never folded. -/
theorem parse_up_to_case :
    (∀ t u : String, SameName t u →
      (∃ p q, parse t = .ok p ∧ parse u = .ok q) ∨
        ∃ e e', parse t = .error e ∧ parse u = .error e' ∧ e.Alike e') ∧
    ∀ (t u : String) (p q : AttributePath), parse t = .ok p → parse u = .ok q →
      ((p == q) = true ↔ SameName t u) ∧ (order p q = .eq ↔ SameName t u) ∧
        (SameName t u → Option.Rel SameBeyondAscii p.schema q.schema) := by
  refine ⟨fun t u => outcome_of_sameName, fun t u p q ht hu => ?_⟩
  have hsame := beq_iff_sameName ht hu
  refine ⟨hsame, order_eq_iff.trans hsame, fun h => ?_⟩
  have hkey : p.schema.map caseKey = q.schema.map caseKey :=
    congrArg Prod.fst (beq_iff.mp (hsame.mpr h))
  cases hp : p.schema with
  | none =>
    cases hq : q.schema with
    | none => exact .none
    | some schema' => simp [hp, hq] at hkey
  | some schema =>
    cases hq : q.schema with
    | none => simp [hp, hq] at hkey
    | some schema' =>
      rw [hp, hq, Option.map_some, Option.map_some, Option.some.injEq] at hkey
      exact .some (SameName.sameBeyondAscii hkey)

/-- Schemas with different capital letters are one schema when the letters belong to ASCII, and two
when they do not.  A second point is refused in either case. -/
theorem parse_up_to_case_umlaut :
    (∃ p q, parse "urn:ä:Name.GivenName" = .ok p ∧ parse "URN:ä:name.givenname" = .ok q ∧
      (p == q) = true ∧ Option.Rel SameBeyondAscii p.schema q.schema) ∧
    (∃ p q, parse "urn:ä:name" = .ok p ∧ parse "urn:Ä:name" = .ok q ∧ ¬(p == q) = true) ∧
    SameName "urn:A.b.C" "URN:a.B.c" ∧
    ∃ e e', parse "urn:A.b.C" = .error e ∧ parse "URN:a.B.c" = .error e' ∧ e.Alike e' := by
  obtain ⟨houtcome, hidentity⟩ := parse_up_to_case
  have hcase : SameName "urn:ä:Name.GivenName" "URN:ä:name.givenname" := by decide
  have humlaut : ¬SameName "urn:ä:name" "urn:Ä:name" := by decide
  have hpoints : SameName "urn:A.b.C" "URN:a.B.c" := by decide
  refine ⟨?_, ?_, hpoints, ?_⟩
  · obtain ⟨hequal, -, hschema⟩ :=
      hidentity "urn:ä:Name.GivenName" "URN:ä:name.givenname" _ _ rfl rfl
    exact ⟨_, _, rfl, rfl, hequal.mpr hcase, hschema hcase⟩
  · obtain ⟨hequal, -⟩ := hidentity "urn:ä:name" "urn:Ä:name" _ _ rfl rfl
    exact ⟨_, _, rfl, rfl, fun h => humlaut (hequal.mp h)⟩
  · rcases houtcome _ _ hpoints with ⟨p, q, hp, -⟩ | herror
    · cases hp
    · exact herror

end AttributePath

end Scim
