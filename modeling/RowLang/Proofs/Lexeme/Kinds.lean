import Mathlib
import RowLang.Lexeme.Source
import RowLang.Proofs.Lexeme.Longest

/-! The kinds of texts as a table: each kind with the language of its texts, in the order in which kinds
are tried. A text has the first kind whose language it is in. -/

namespace RowLang

open Pattern (TakesLongest)

def exactly (text : String) : Language Char := {text.toList}

/-- `true|false|'[^']*'|\d+(((\.\d+)?e[+-]\d+)|(\.\d+))?` -/
def constantTexts : Language Char :=
  exactly "true" + exactly "false" + Pattern.quoted + Pattern.number

def wordKinds {α : Type} [Vocabulary α] (kind : α → Kind) : List (Kind × Language Char) :=
  Vocabulary.words.map fun w => (kind w, exactly (spelling w))

def kindTable : List (Kind × Language Char) :=
  [(.constant, constantTexts)] ++ wordKinds .declaration ++ wordKinds .loop ++ wordKinds .condition ++
    [(.jump, exactly "goto")] ++ wordKinds .type ++ [(.assign, exactly "=")] ++ wordKinds .addOp ++
    wordKinds .multOp ++ [(.powOp, exactly "^")] ++ wordKinds .relOp ++ wordKinds .bracket ++
    [(.punct, exactly ":")] ++ [(.identifier, Pattern.identifier)]

section
variable {s : List Char}

theorem mem_exactly {text : String} : s ∈ exactly text ↔ String.ofList s = text := by
  constructor
  · intro h
    rw [show s = text.toList from h, String.ofList_toList]
  · rintro rfl
    exact (String.toList_ofList).symm

theorem isConstantText_iff : isConstantText s = true ↔ s ∈ constantTexts := by
  simp only [isConstantText, Bool.or_eq_true, decide_eq_true_eq,
    Pattern.takesLongest_quoted.matchesAll_iff, Pattern.takesLongest_number.matchesAll_iff]
  rfl

open scoped Classical in
noncomputable def firstKind (table : List (Kind × Language Char)) (s : List Char) : Option Kind :=
  (table.find? fun e => s ∈ e.2).map Prod.fst

theorem firstKind_append (table table' : List (Kind × Language Char)) :
    firstKind (table ++ table') s = (firstKind table s).or (firstKind table' s) := by
  rw [firstKind, List.find?_append, Option.map_or]
  rfl

open scoped Classical in
theorem firstKind_singleton (k : Kind) (l : Language Char) :
    firstKind [(k, l)] s = if s ∈ l then some k else none := by
  by_cases h : s ∈ l <;> simp [firstKind, h]

open scoped Classical in
theorem firstKind_wordKinds {α : Type} [Vocabulary α] (kind : α → Kind) :
    firstKind (wordKinds kind) s = (Vocabulary.read? (String.ofList s)).map kind := by
  have htest : (fun e : Kind × Language Char => decide (s ∈ e.2)) ∘
      (fun w => (kind w, exactly (spelling w))) = fun w => spelling w == String.ofList s := by
    funext w
    rw [Function.comp_apply, beq_eq_decide, decide_eq_decide, mem_exactly, eq_comm]
  rw [firstKind, wordKinds, List.find?_map, htest, Option.map_map]
  rfl

open scoped Classical in
theorem firstKind_exactly (k : Kind) (text : String) :
    firstKind [(k, exactly text)] s = if String.ofList s = text then some k else none := by
  rw [firstKind_singleton]
  exact if_congr mem_exactly rfl rfl

open scoped Classical in
theorem classify_eq_firstKind (s : List Char) : classify s = firstKind kindTable s := by
  have hname : firstKind [(.identifier, Pattern.identifier)] s =
      if Pattern.matchesAll Pattern.identifier? s then some .identifier else none := by
    rw [firstKind_singleton]
    exact if_congr Pattern.takesLongest_identifier.matchesAll_iff.symm rfl rfl
  have hwords : firstKind kindTable s = (firstKind [(.constant, constantTexts)] s).or
      ((Kind.ofSpelling? (String.ofList s)).or
        (if Pattern.matchesAll Pattern.identifier? s then some .identifier else none)) := by
    simp only [kindTable, firstKind_append, firstKind_wordKinds, firstKind_exactly, hname,
      Kind.ofSpelling?, Option.orElse_eq_orElse, Option.orElse_eq_or, Option.or_assoc]
  rw [hwords, firstKind_singleton, classify]
  by_cases hconstant : isConstantText s
  · rw [if_pos hconstant, if_pos (isConstantText_iff.1 hconstant), Option.some_or]
  · rw [if_neg hconstant, if_neg fun h => hconstant (isConstantText_iff.2 h), Option.none_or]

theorem firstKind_eq_some_iff {table : List (Kind × Language Char)} {k : Kind} :
    firstKind table s = some k ↔ ∃ before l after, table = before ++ (k, l) :: after ∧ s ∈ l ∧
      ∀ e ∈ before, s ∉ e.2 := by
  rw [firstKind, Option.map_eq_some_iff]
  constructor
  · rintro ⟨⟨k, l⟩, he, rfl⟩
    obtain ⟨hs, before, after, htable, hbefore⟩ := List.find?_eq_some_iff_append.1 he
    exact ⟨before, l, after, htable, by simpa using hs, fun e hm => by simpa using hbefore e hm⟩
  · rintro ⟨before, l, after, htable, hs, hbefore⟩
    refine ⟨(k, l), List.find?_eq_some_iff_append.2 ⟨by simpa using hs, before, after, htable, ?_⟩, rfl⟩
    exact fun e hm => by simpa using hbefore e hm

theorem firstKind_eq_none_iff {table : List (Kind × Language Char)} :
    firstKind table s = none ↔ ∀ e ∈ table, s ∉ e.2 := by
  rw [firstKind, Option.map_eq_none_iff, List.find?_eq_none]
  simp

end

/-- Each of the four patterns takes the longest prefix in its language, leaves the rest as it is, and fails
only where there is no such prefix. A text as a whole has the first kind of the table whose language it is
in, and no kind if it is in none of them. -/
theorem patterns_exact :
    TakesLongest Pattern.identifier? Pattern.identifier ∧ TakesLongest Pattern.real? Pattern.real ∧
    TakesLongest Pattern.number? Pattern.number ∧ TakesLongest Pattern.quoted? Pattern.quoted ∧
    (∀ s k, classify s = some k ↔ ∃ before l after, kindTable = before ++ (k, l) :: after ∧ s ∈ l ∧
      ∀ e ∈ before, s ∉ e.2) ∧
    ∀ s, classify s = none ↔ ∀ e ∈ kindTable, s ∉ e.2 := by
  refine ⟨Pattern.takesLongest_identifier, Pattern.takesLongest_real, Pattern.takesLongest_number,
    Pattern.takesLongest_quoted, fun s k => ?_, fun s => ?_⟩
  · rw [classify_eq_firstKind, firstKind_eq_some_iff]
  · rw [classify_eq_firstKind, firstKind_eq_none_iff]

end RowLang
