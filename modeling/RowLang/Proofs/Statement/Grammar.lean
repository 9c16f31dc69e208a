import Mathlib
import RowLang.Proofs.Expr.Language
import RowLang.Statement.Parser

/-! The grammar of statements and of lists of statements, on lexemes alone. A list is cut into blocks
of whole rows, each block being a statement none of whose shorter fronts of rows is one; so the
languages are defined by recursion on length. -/

namespace RowLang

inductive IsTyping : List Lexeme → Prop
  | absent : IsTyping []
  | given {colon t : Lexeme} {word : TypeWord} (hc : colon.kind = .punct)
      (ht : t.kind = .type word) : IsTyping [colon, t]

/-- `(val | var) name [: type] = expression`, or `var name : type` -/
inductive IsDeclaration : List Lexeme → Prop
  | initialized {word name sign : Lexeme} {typing value : List Lexeme} {declarator : Declarator}
      (hw : word.kind = .declaration declarator) (hn : name.isIdentifier)
      (ht : IsTyping typing) (hs : sign.kind = .assign) (hv : isExpression value) :
      IsDeclaration (word :: name :: (typing ++ sign :: value))
  | typed {word name colon t : Lexeme} {type : TypeWord} (hw : word.kind = .declaration .var)
      (hn : name.isIdentifier) (hc : colon.kind = .punct) (ht : t.kind = .type type) :
      IsDeclaration [word, name, colon, t]

inductive IsAssignment : List Lexeme → Prop
  | mk {name sign : Lexeme} {value : List Lexeme} (hn : name.isIdentifier)
      (hs : sign.kind = .assign) (hv : isExpression value) : IsAssignment (name :: sign :: value)

/-- `while condition do list end`, or `for (declaration | assignment) to factor do list end`, for a
given language of lists. -/
inductive IsLoop (isList : List Lexeme → Prop) : List Lexeme → Prop
  | whileLoop {word opening closing : Lexeme} {condition inside : List Lexeme}
      (hw : word.kind = .loop .whileWord) (hc : isCondition condition)
      (ho : opening.kind = .loop .doWord) (hi : isList inside)
      (he : closing.kind = .loop .endWord) :
      IsLoop isList (word :: (condition ++ opening :: (inside ++ [closing])))
  | forLoop {word toWord opening closing : Lexeme} {init bound inside : List Lexeme}
      (hw : word.kind = .loop .forWord) (hd : IsDeclaration init ∨ IsAssignment init)
      (ht : toWord.kind = .loop .toWord) (hb : isFactor bound)
      (ho : opening.kind = .loop .doWord) (hi : isList inside)
      (he : closing.kind = .loop .endWord) :
      IsLoop isList (word :: (init ++ toWord :: bound ++ opening :: (inside ++ [closing])))

inductive IsStatementOver (isList : List Lexeme → Prop) : List Lexeme → Prop
  | declaration {ls : List Lexeme} (h : IsDeclaration ls) : IsStatementOver isList ls
  | constant {name sign value : Lexeme} (hn : name.isIdentifier) (hs : sign.kind = .assign)
      (hv : value.isConstant) : IsStatementOver isList [name, sign, value]
  | assignment {ls : List Lexeme} (h : IsAssignment ls) : IsStatementOver isList ls
  | loop {ls : List Lexeme} (h : IsLoop isList ls) : IsStatementOver isList ls
  | conditional {word thenWord jump mark : Lexeme} {condition : List Lexeme}
      (hw : word.kind = .condition .ifWord) (hc : isCondition condition)
      (ht : thenWord.kind = .condition .thenWord) (hj : jump.kind = .jump)
      (hm : mark.isIdentifier) :
      IsStatementOver isList (word :: (condition ++ [thenWord, jump, mark]))
  | goto {jump mark : Lexeme} (hj : jump.kind = .jump) (hm : mark.isIdentifier) :
      IsStatementOver isList [jump, mark]
  | label {mark colon : Lexeme} (hm : mark.isIdentifier) (hc : colon.kind = .punct) :
      IsStatementOver isList [mark, colon]

/-- Runs of rows that can be cut from the left into blocks: every block is a statement, and no
shorter front of a block is one. -/
inductive Blocks (isStatement : List Lexeme → Prop) : List (List Lexeme) → Prop
  | nil : Blocks isStatement []
  | cons {block runs : List (List Lexeme)} (hs : isStatement block.flatten)
      (hm : ∀ front, front <+: block → front ≠ block → ¬ isStatement front.flatten)
      (hr : Blocks isStatement runs) : Blocks isStatement (block ++ runs)

def IsList (lexemes : List Lexeme) : Prop :=
  lexemes ≠ [] ∧ Blocks
    (IsStatementOver fun inside => ∃ _ : inside.length < lexemes.length, IsList inside)
    (rowRuns lexemes)
termination_by lexemes.length

def IsStatement : List Lexeme → Prop := IsStatementOver IsList

theorem IsLoop.mono {isList isList' : List Lexeme → Prop} {ls : List Lexeme}
    (hp : ∀ inside : List Lexeme, inside.length < ls.length → isList inside → isList' inside)
    (h : IsLoop isList ls) : IsLoop isList' ls := by
  cases h with
  | whileLoop hw hc ho hi he =>
    exact .whileLoop hw hc ho (hp _ (by simp; omega) hi) he
  | forLoop hw hd ht hb ho hi he =>
    exact .forLoop hw hd ht hb ho (hp _ (by simp; omega) hi) he

theorem IsStatementOver.mono {isList isList' : List Lexeme → Prop} {ls : List Lexeme}
    (hp : ∀ inside : List Lexeme, inside.length < ls.length → isList inside → isList' inside)
    (h : IsStatementOver isList ls) : IsStatementOver isList' ls := by
  cases h with
  | declaration h => exact .declaration h
  | constant hn hs hv => exact .constant hn hs hv
  | assignment h => exact .assignment h
  | loop h => exact .loop (h.mono hp)
  | conditional hw hc ht hj hm => exact .conditional hw hc ht hj hm
  | goto hj hm => exact .goto hj hm
  | label hm hc => exact .label hm hc

theorem Blocks.congr {isStatement isStatement' : List Lexeme → Prop} {runs : List (List Lexeme)}
    (hp : ∀ ls : List Lexeme, ls.length ≤ runs.flatten.length → (isStatement ls ↔ isStatement' ls))
    (h : Blocks isStatement runs) : Blocks isStatement' runs := by
  induction h with
  | nil => exact .nil
  | @cons block runs hs hm hr ih =>
    have hlen : (block ++ runs).flatten.length = block.flatten.length + runs.flatten.length := by
      simp
    refine .cons ((hp _ (by omega)).1 hs) ?_ (ih fun ls hls => hp ls (by omega))
    intro front hf hne hs'
    have hle := (List.IsPrefix.flatten hf).length_le
    exact hm front hf hne ((hp _ (by omega)).2 hs')

theorem isList_iff {lexemes : List Lexeme} :
    IsList lexemes ↔ lexemes ≠ [] ∧ Blocks IsStatement (rowRuns lexemes) := by
  have hp : ∀ ls : List Lexeme, ls.length ≤ (rowRuns lexemes).flatten.length →
      (IsStatementOver (fun inside => ∃ _ : inside.length < lexemes.length, IsList inside) ls ↔
        IsStatement ls) := by
    intro ls hls
    rw [rowRuns, List.flatten_splitBy] at hls
    exact ⟨IsStatementOver.mono fun inside _ ⟨_, hi⟩ => hi,
      IsStatementOver.mono fun inside hlt hi => ⟨by omega, hi⟩⟩
  rw [IsList]
  exact and_congr_right fun _ => ⟨Blocks.congr hp, Blocks.congr fun ls hls => (hp ls hls).symm⟩

def Kind.loopSide? : Kind → Option Bracket
  | .loop .doWord => some .opening
  | .loop .endWord => some .closing
  | _ => none

theorem Kind.loopSide?_of_inExpression {k : Kind} (h : k.inExpression) : k.loopSide? = none := by
  cases k <;> simp_all [inExpression, inArithmetic, isRelOp, loopSide?]

theorem loopSide?_of_isExpression {value : List Lexeme} (h : isExpression value) :
    ∀ l ∈ value, l.kind.loopSide? = none :=
  fun l hl => Kind.loopSide?_of_inExpression (inExpression_of_isExpression h l hl)

theorem loopSide?_of_isCondition {condition : List Lexeme} (h : isCondition condition) :
    ∀ l ∈ condition, l.kind.loopSide? = none :=
  fun l hl => Kind.loopSide?_of_inExpression (inExpression_of_isCondition h l hl)

theorem loopSide?_of_isFactor {bound : List Lexeme} (h : isFactor bound) :
    ∀ l ∈ bound, l.kind.loopSide? = none := by
  intro l hl
  have := (isFactor_iff.1 h).inArithmetic l hl
  exact Kind.loopSide?_of_inExpression (by simp [Kind.inExpression, this])

theorem IsTyping.loopSide? {typing : List Lexeme} (h : IsTyping typing) :
    ∀ l ∈ typing, l.kind.loopSide? = none := by
  cases h with
  | absent => simp
  | given hc ht => simp [hc, ht, Kind.loopSide?]

theorem IsDeclaration.loopSide? {ls : List Lexeme} (h : IsDeclaration ls) :
    ∀ l ∈ ls, l.kind.loopSide? = none := by
  cases h with
  | initialized hw hn ht hs hv =>
    simp only [List.forall_mem_cons, List.forall_mem_append, hw, hs, Lexeme.kind_of_isIdentifier hn]
    exact ⟨rfl, rfl, ht.loopSide?, rfl, loopSide?_of_isExpression hv⟩
  | typed hw hn hc ht => simp [hw, hc, ht, Lexeme.kind_of_isIdentifier hn, Kind.loopSide?]

theorem IsAssignment.loopSide? {ls : List Lexeme} (h : IsAssignment ls) :
    ∀ l ∈ ls, l.kind.loopSide? = none := by
  cases h with
  | mk hn hs hv =>
    simp only [List.forall_mem_cons, hs, Lexeme.kind_of_isIdentifier hn]
    exact ⟨rfl, rfl, loopSide?_of_isExpression hv⟩

theorem IsLoop.nests {isList : List Lexeme → Prop} {ls : List Lexeme}
    (hl : ∀ inside, isList inside → nests Kind.loopSide? 0 inside) (h : IsLoop isList ls) :
    RowLang.nests Kind.loopSide? 0 ls := by
  -- a header without loop words in front of a body that nests
  have hbody : ∀ {header inside : List Lexeme} {o c : Lexeme},
      (∀ l ∈ header, l.kind.loopSide? = none) → o.kind = .loop .doWord → c.kind = .loop .endWord →
      isList inside → RowLang.nests Kind.loopSide? 0 (header ++ o :: (inside ++ [c])) := by
    intro header inside o c hh ho hc hi
    rw [nests_append (nests_of_none hh) 0]
    exact nests_between (by simp [ho, Kind.loopSide?]) (by simp [hc, Kind.loopSide?]) (hl _ hi)
  cases h with
  | whileLoop hw hc ho hi he =>
    rw [← List.cons_append]
    refine hbody ?_ ho he hi
    rw [List.forall_mem_cons, hw]
    exact ⟨rfl, loopSide?_of_isCondition hc⟩
  | forLoop hw hd ht hb ho hi he =>
    rw [← List.cons_append]
    refine hbody ?_ ho he hi
    rw [List.forall_mem_cons, List.forall_mem_append, List.forall_mem_cons, hw, ht]
    exact ⟨rfl, hd.elim IsDeclaration.loopSide? IsAssignment.loopSide?, rfl,
      loopSide?_of_isFactor hb⟩

theorem IsStatementOver.nests {isList : List Lexeme → Prop} {ls : List Lexeme}
    (hl : ∀ inside, isList inside → nests Kind.loopSide? 0 inside) (h : IsStatementOver isList ls) :
    RowLang.nests Kind.loopSide? 0 ls := by
  cases h with
  | declaration h => exact nests_of_none h.loopSide?
  | constant hn hs hv =>
    exact nests_of_none (by
      simp [hs, Lexeme.kind_of_isConstant hv, Lexeme.kind_of_isIdentifier hn, Kind.loopSide?])
  | assignment h => exact nests_of_none h.loopSide?
  | loop h => exact h.nests hl
  | conditional hw hc ht hj hm =>
    refine nests_of_none ?_
    simp only [List.forall_mem_cons, List.forall_mem_append, hw, ht, hj,
      Lexeme.kind_of_isIdentifier hm]
    exact ⟨rfl, loopSide?_of_isCondition hc, rfl, rfl, rfl, by simp⟩
  | goto hj hm =>
    exact nests_of_none (by simp [hj, Lexeme.kind_of_isIdentifier hm, Kind.loopSide?])
  | label hm hc =>
    exact nests_of_none (by simp [hc, Lexeme.kind_of_isIdentifier hm, Kind.loopSide?])

theorem Blocks.nests {isStatement : List Lexeme → Prop} {runs : List (List Lexeme)}
    (hs : ∀ ls, isStatement ls → nests Kind.loopSide? 0 ls) (h : Blocks isStatement runs) :
    RowLang.nests Kind.loopSide? 0 runs.flatten := by
  induction h with
  | nil => rfl
  | cons h _ _ ih =>
    rw [List.flatten_append, nests_append (hs _ h) 0]
    exact ih

theorem IsList.nests {lexemes : List Lexeme} (h : IsList lexemes) :
    RowLang.nests Kind.loopSide? 0 lexemes := by
  induction hn : lexemes.length using Nat.strong_induction_on generalizing lexemes with
  | _ n ih =>
    subst hn
    rw [IsList] at h
    have hb := h.2.nests fun ls hs => hs.nests fun inside ⟨hlt, hi⟩ => ih _ hlt hi rfl
    rwa [rowRuns, List.flatten_splitBy] at hb

end RowLang
