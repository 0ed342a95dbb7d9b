import Scim.Json.Parser
import Scim.Json.Printer
import Scim.Proofs.JsonMembers

set_option autoImplicit false

/-!
# Text of JSON values

The printer writes a value without blanks, and the parser reads what it wrote.  This is shown for
values in which no number occurs: characters first, which the parser puts together again from
their escapes, then texts, then the lists of items and members up to their closing brackets, and
from these the values.  The parser has fuel for its nested calls; twice the length of a text is
enough.

## Main definitions

* `Scim.Json.Numberless` — values in which no number occurs.
* `Scim.Json.Readable` — the text of a value is read as its tree, whatever follows.

## Main results

* `Scim.Json.Parser.string?_quoted` — a quoted text is read as itself.
* `Scim.Json.Numberless.readable`, `ofText?_render` — values without numbers are readable.
-/

namespace Scim.Json

namespace Parser

variable {c : Char} {cs rest : List Char}

/-! ## Strings -/

/-- The two digits of an escaped control character. -/
lemma hex4?_digits {n : Nat} (h : n < 0x20) :
    hex4? '0' '0' (Nat.digitChar (n / 16)) (Nat.digitChar (n % 16)) = some n := by
  revert n
  decide

/-- One written character is read back. -/
lemma stringBody?_character (seen : List Nat) (c : Char) (rest : List Char) :
    stringBody? seen (Printer.character c ++ rest) = stringBody? (c.toNat :: seen) rest := by
  rw [Printer.character]
  split_ifs with hquote hbackslash hcontrol
  · subst hquote
    simp [stringBody?, escaped?]
  · subst hbackslash
    simp [stringBody?, escaped?]
  · simp [stringBody?, hex4?_digits hcontrol]
  · simp [stringBody?, hbackslash, hcontrol]

/-- A written text is read up to its closing quote. -/
lemma stringBody?_quoted (seen : List Nat) (text rest : List Char) :
    stringBody? seen (text.flatMap Printer.character ++ '"' :: rest) =
      some (seen.reverse ++ text.map Char.toNat, rest) := by
  induction text generalizing seen with
  | nil => simp [stringBody?]
  | cons c text ih =>
    rw [List.flatMap_cons, List.append_assoc, stringBody?_character, ih]
    simp

/-- A character is no half of a surrogate pair. -/
lemma isHalf_toNat (c : Char) : isHighHalf c.toNat = false ∧ isLowHalf c.toNat = false := by
  have hvalid : c.toNat < 0xD800 ∨ 0xDFFF < c.toNat ∧ c.toNat < 0x110000 := c.valid
  simp only [isHighHalf, isLowHalf, Bool.and_eq_false_iff, decide_eq_false_iff_not]
  omega

/-- Characters are joined to themselves. -/
lemma joinHalves?_map_toNat (seen text : List Char) :
    joinHalves? seen (text.map Char.toNat) = some (seen.reverse ++ text) := by
  induction text generalizing seen with
  | nil => simp [joinHalves?]
  | cons c text ih =>
    obtain ⟨hhigh, hlow⟩ := isHalf_toNat c
    cases text with
    | nil => simp [joinHalves?, hhigh, hlow]
    | cons d text =>
      have ih := ih (c :: seen)
      rw [List.map_cons] at ih
      rw [List.map_cons, List.map_cons, joinHalves?, hhigh, hlow, Char.ofNat_toNat]
      simpa using ih

/-- A quoted text is read as itself. -/
lemma string?_quoted (text : String) (rest : List Char) :
    string? (text.toList.flatMap Printer.character ++ '"' :: rest) = some (some text, rest) := by
  rw [string?, stringBody?_quoted]
  simp [joinHalves?_map_toNat]

/-! ## Values -/

/-- A text that does not start with a blank has none to skip. -/
lemma skipBlanks_cons (h : isBlank c = false) : skipBlanks (c :: cs) = c :: cs := by
  rw [skipBlanks, List.dropWhile_cons_of_neg (by simp [h])]

end Parser

open Scim.Json.Parser

/-- Values in which no number occurs. -/
inductive Numberless : Json → Prop
  | null : Numberless .null
  | bool (b : Bool) : Numberless (.bool b)
  | string (text : String) : Numberless (.string text)
  | array {items : List Json} (h : ∀ x ∈ items, Numberless x) : Numberless (.array items)
  | object {members : List (String × Json)} (h : ∀ m ∈ members, Numberless m.2) :
    Numberless (.object members)

/-- The text of a value is read as its tree, whatever follows. -/
def Readable (v : Json) : Prop :=
  ∀ fuel rest, 2 * v.render.toList.length ≤ fuel →
    value? fuel (v.render.toList ++ rest) = some (v.toRaw, rest)

variable {v : Json} {items : List Json} {members : List (String × Json)} {c : Char}
  {cs rest : List Char} {fuel : Nat}

/-- An object that is made of members without numbers has none. -/
lemma Numberless.ofMembers (h : ∀ m ∈ members, m.2.Numberless) :
    (ofMembers members).Numberless := by
  refine .object fun m hm => h m ?_
  exact (mem_or_mem_of_mem_putAll hm).resolve_left List.not_mem_nil

/-- The text of a quoted string. -/
lemma toList_quoted (text : String) : (Printer.quoted text).toList =
    '"' :: (text.toList.flatMap Printer.character ++ ['"']) := by
  simp [Printer.quoted]

/-- The text of a list of two or more texts. -/
lemma toList_intercalate_cons_cons (text next : String) (texts : List String) :
    (String.intercalate "," (text :: next :: texts)).toList =
      text.toList ++ ',' :: (String.intercalate "," (next :: texts)).toList := by
  simp [String.toList_intercalate, List.intercalate]

/-- The text of a value starts neither with a blank nor with a closing bracket. -/
lemma Numberless.exists_head (h : v.Numberless) :
    ∃ c cs, v.render.toList = c :: cs ∧ isBlank c = false ∧ c ≠ ']' := by
  cases h with
  | null => exact ⟨'n', _, rfl, by decide, by decide⟩
  | bool b =>
    cases b
    · exact ⟨'f', _, rfl, by decide, by decide⟩
    · exact ⟨'t', _, rfl, by decide, by decide⟩
  | string text => exact ⟨'"', _, by rw [render, toList_quoted], by decide, by decide⟩
  | array => exact ⟨'[', _, by simp [render]; rfl, by decide, by decide⟩
  | object => exact ⟨'{', _, by simp [render]; rfl, by decide, by decide⟩

/-- An item before the closing bracket is the last one. -/
lemma items?_last (hv : v.Readable) (hfuel : 2 * v.render.toList.length ≤ fuel) :
    items? (fuel + 1) (v.render.toList ++ ']' :: rest) = some ([v.toRaw], rest) := by
  simp [items?, hv fuel _ hfuel, skipBlanks_cons (c := ']') (by decide)]

/-- An item before a comma comes before the items that follow. -/
lemma items?_more {trees : List Raw} {tail : List Char} (hv : v.Readable)
    (hfuel : 2 * v.render.toList.length ≤ fuel) (hrest : items? fuel rest = some (trees, tail)) :
    items? (fuel + 1) (v.render.toList ++ ',' :: rest) = some (v.toRaw :: trees, tail) := by
  simp [items?, hv fuel _ hfuel, skipBlanks_cons (c := ',') (by decide), hrest]

/-- The items of an array are read one by one, up to the closing bracket. -/
lemma items?_render {x : Json} {xs : List Json} (h : ∀ y ∈ x :: xs, y.Readable)
    (hfuel : 2 * (String.intercalate "," (renderItems (x :: xs))).toList.length < fuel) :
    items? fuel ((String.intercalate "," (renderItems (x :: xs))).toList ++ ']' :: rest) =
      some (toRawItems (x :: xs), rest) := by
  obtain ⟨fuel, rfl⟩ : ∃ n, fuel = n + 1 := ⟨fuel - 1, by omega⟩
  have hx := h x List.mem_cons_self
  induction xs generalizing x fuel with
  | nil =>
    simp only [renderItems, String.intercalate_singleton] at hfuel ⊢
    exact items?_last hx (by omega)
  | cons y ys ih =>
    simp only [renderItems, toList_intercalate_cons_cons, List.append_assoc, List.cons_append,
      List.length_append, List.length_cons] at hfuel ih ⊢
    obtain ⟨fuel, rfl⟩ : ∃ n, fuel = n + 1 := ⟨fuel - 1, by omega⟩
    have hys : ∀ z ∈ y :: ys, z.Readable := fun z hz => h z (List.mem_cons_of_mem _ hz)
    exact items?_more hx (by omega) (ih hys fuel (by omega) (hys y List.mem_cons_self))

/-- The text of a member. -/
def memberText (m : String × Json) : String := Printer.quoted m.1 ++ ":" ++ m.2.render

/-- The text of a member holds the text of its value. -/
lemma length_render_le (m : String × Json) :
    m.2.render.toList.length ≤ (memberText m).toList.length := by
  rw [memberText, String.toList_append, List.length_append]
  exact Nat.le_add_left _ _

/-- The text of a member starts with the quoted key and a colon. -/
lemma toList_memberText (m : String × Json) : (memberText m).toList =
    '"' :: (m.1.toList.flatMap Printer.character ++ '"' :: ':' :: m.2.render.toList) := by
  simp [memberText, toList_quoted]

/-- A member before the closing brace is the last one. -/
lemma members?_last {m : String × Json} (hm : m.2.Readable)
    (hfuel : 2 * m.2.render.toList.length ≤ fuel) :
    members? (fuel + 1) ((memberText m).toList ++ '}' :: rest) =
      some ([(some m.1, m.2.toRaw)], rest) := by
  simp [toList_memberText, members?, skipBlanks_cons (c := '"') (by decide), string?_quoted,
    skipBlanks_cons (c := ':') (by decide), hm fuel _ hfuel, skipBlanks_cons (c := '}') (by decide)]

/-- A member before a comma comes before the members that follow. -/
lemma members?_more {m : String × Json} {trees : List (Option String × Raw)} {tail : List Char}
    (hm : m.2.Readable) (hfuel : 2 * m.2.render.toList.length ≤ fuel)
    (hrest : members? fuel rest = some (trees, tail)) :
    members? (fuel + 1) ((memberText m).toList ++ ',' :: rest) =
      some ((some m.1, m.2.toRaw) :: trees, tail) := by
  simp [toList_memberText, members?, skipBlanks_cons (c := '"') (by decide), string?_quoted,
    skipBlanks_cons (c := ':') (by decide), hm fuel _ hfuel, skipBlanks_cons (c := ',') (by decide),
    hrest]

/-- The texts of members. -/
lemma renderMembers_eq_map (members : List (String × Json)) :
    renderMembers members = members.map memberText := by
  induction members with
  | nil => rfl
  | cons m rest ih =>
    obtain ⟨key, x⟩ := m
    rw [renderMembers, ih, List.map_cons]
    rfl

/-- The members of an object are read one by one, up to the closing brace. -/
lemma members?_render {m : String × Json} {more : List (String × Json)}
    (h : ∀ n ∈ m :: more, n.2.Readable)
    (hfuel : 2 * (String.intercalate "," (renderMembers (m :: more))).toList.length < fuel) :
    members? fuel ((String.intercalate "," (renderMembers (m :: more))).toList ++ '}' :: rest) =
      some (toRawMembers (m :: more), rest) := by
  obtain ⟨fuel, rfl⟩ : ∃ n, fuel = n + 1 := ⟨fuel - 1, by omega⟩
  have hm := h m List.mem_cons_self
  have hlength := length_render_le m
  rw [renderMembers_eq_map] at hfuel ⊢
  induction more generalizing m fuel with
  | nil =>
    simp only [List.map_cons, List.map_nil, String.intercalate_singleton] at hfuel ⊢
    exact members?_last hm (by omega)
  | cons n more ih =>
    simp only [List.map_cons, toList_intercalate_cons_cons, List.append_assoc, List.cons_append,
      List.length_append, List.length_cons] at hfuel ih ⊢
    obtain ⟨fuel, rfl⟩ : ∃ n, fuel = n + 1 := ⟨fuel - 1, by omega⟩
    have hmore : ∀ z ∈ n :: more, z.2.Readable := fun z hz => h z (List.mem_cons_of_mem _ hz)
    exact members?_more hm (by omega)
      (ih hmore fuel (by omega) (hmore n List.mem_cons_self) (length_render_le n))

/-- The text of a list of texts starts as the first one. -/
lemma exists_head_intercalate {text : String} {c : Char} {cs : List Char}
    (h : text.toList = c :: cs) (texts : List String) :
    ∃ more, (String.intercalate "," (text :: texts)).toList = c :: more := by
  cases texts with
  | nil => exact ⟨cs, by rw [String.intercalate_singleton, h]⟩
  | cons next texts => exact ⟨_, by rw [toList_intercalate_cons_cons, h, List.cons_append]⟩

/-- An opening bracket is followed by items, where it is not followed by the closing one. -/
lemma value?_bracket {trees : List Raw} {tail : List Char} (hblank : isBlank c = false)
    (hclose : c ≠ ']') (hitems : items? fuel (c :: cs) = some (trees, tail)) :
    value? (fuel + 1) ('[' :: c :: cs) = some (.array trees, tail) := by
  rw [value?, skipBlanks_cons (by decide)]
  simp only [skipBlanks_cons hblank]
  split
  · rename_i heq
    exact absurd (List.cons.inj heq).1 hclose
  · rw [hitems, Option.map_some]

/-- An opening brace is followed by members, where it is not followed by the closing one. -/
lemma value?_brace {trees : List (Option String × Raw)} {tail : List Char}
    (hblank : isBlank c = false) (hclose : c ≠ '}')
    (hmembers : members? fuel (c :: cs) = some (trees, tail)) :
    value? (fuel + 1) ('{' :: c :: cs) = some (.object trees, tail) := by
  rw [value?, skipBlanks_cons (by decide)]
  simp only [skipBlanks_cons hblank]
  split
  · rename_i heq
    exact absurd (List.cons.inj heq).1 hclose
  · rw [hmembers, Option.map_some]

/-- An array is read when its items are. -/
lemma value?_array (hitems : ∀ x ∈ items, x.Numberless) (h : ∀ x ∈ items, x.Readable)
    (hfuel : 2 * (array items).render.toList.length ≤ fuel + 1) :
    value? (fuel + 1) ((array items).render.toList ++ rest) = some ((array items).toRaw, rest) := by
  have htext : (array items).render.toList =
      '[' :: ((String.intercalate "," (renderItems items)).toList ++ [']']) := by
    simp only [render, String.toList_append]
    rfl
  rw [htext, List.length_cons, List.length_append] at hfuel
  rw [htext, List.cons_append, List.append_assoc, toRaw]
  cases items with
  | nil =>
    simp [renderItems, value?, skipBlanks_cons (c := '[') (by decide),
      skipBlanks_cons (c := ']') (by decide), toRawItems]
  | cons x xs =>
    obtain ⟨c, cs, hhead, hblank, hclose⟩ := (hitems x List.mem_cons_self).exists_head
    obtain ⟨more, hmore⟩ := exists_head_intercalate hhead (renderItems xs)
    have hread : items? fuel _ = some (_, rest) := items?_render h (by omega)
    rw [renderItems, hmore, List.cons_append] at hread ⊢
    exact value?_bracket hblank hclose hread

/-- An object is read when its members are. -/
lemma value?_object (h : ∀ m ∈ members, m.2.Readable)
    (hfuel : 2 * (object members).render.toList.length ≤ fuel + 1) :
    value? (fuel + 1) ((object members).render.toList ++ rest) =
      some ((object members).toRaw, rest) := by
  have htext : (object members).render.toList =
      '{' :: ((String.intercalate "," (renderMembers members)).toList ++ ['}']) := by
    simp only [render, String.toList_append]
    rfl
  rw [htext, List.length_cons, List.length_append] at hfuel
  rw [htext, List.cons_append, List.append_assoc, toRaw]
  cases members with
  | nil =>
    simp [renderMembers, value?, skipBlanks_cons (c := '{') (by decide),
      skipBlanks_cons (c := '}') (by decide), toRawMembers]
  | cons m more =>
    obtain ⟨text, htext⟩ := exists_head_intercalate (toList_memberText m) (more.map memberText)
    have hread : members? fuel _ = some (_, rest) := members?_render h (by omega)
    rw [renderMembers_eq_map, List.map_cons, htext, List.cons_append] at hread ⊢
    exact value?_brace (by decide) (by decide) hread

/-- A value is readable when one call reads its text, since the text is not empty. -/
lemma Numberless.readable_of_call (hv : v.Numberless)
    (h : ∀ fuel rest, 2 * v.render.toList.length ≤ fuel + 1 →
      value? (fuel + 1) (v.render.toList ++ rest) = some (v.toRaw, rest)) : v.Readable := by
  intro fuel rest hfuel
  obtain ⟨c, cs, htext, -⟩ := hv.exists_head
  obtain ⟨fuel, rfl⟩ : ∃ n, fuel = n + 1 := by
    rw [htext, List.length_cons] at hfuel
    exact ⟨fuel - 1, by omega⟩
  exact h fuel rest hfuel

/-- **A value without numbers is readable.** -/
theorem Numberless.readable (h : v.Numberless) : v.Readable := by
  induction h with
  | null => exact readable_of_call .null fun fuel rest _ => rfl
  | bool b =>
    refine readable_of_call (.bool b) fun fuel rest _ => ?_
    cases b <;> rfl
  | string text =>
    refine readable_of_call (.string text) fun fuel rest _ => ?_
    rw [render, toList_quoted, List.cons_append, List.append_assoc, value?,
      skipBlanks_cons (by decide), toRaw]
    exact congrArg (Option.map _) (string?_quoted text rest)
  | array hitems ih =>
    exact readable_of_call (.array hitems) fun fuel rest hfuel => value?_array hitems ih hfuel
  | object hmembers ih =>
    exact readable_of_call (.object hmembers) fun fuel rest hfuel => value?_object ih hfuel

/-- **The text of a value without numbers is read as its tree.** -/
theorem Numberless.ofText?_render (h : v.Numberless) : Raw.ofText? v.render = some v.toRaw := by
  have hread := h.readable (2 * v.render.toList.length + 2) [] (by omega)
  rw [List.append_nil] at hread
  rw [Raw.ofText?, hread]
  rfl

end Scim.Json
