import Mathlib
import RowLang.Proofs.Expr.Tree
import RowLang.Proofs.Statement.Grammar

/-! Lists of statements as trees. Every list of statements of the grammar is written by a tree, whose
statements are cut at rows as the grammar cuts them. -/

namespace RowLang

inductive Definition where
  | declaration (word name : Lexeme) (typing : Option (Lexeme × Lexeme))
      (value : Option (Lexeme × Expr))
  | assignment (name sign : Lexeme) (value : Expr)

inductive Simple where
  | definition (d : Definition)
  | conditional (word : Lexeme) (condition : Expr) (thenWord jump mark : Lexeme)
  | goto (word mark : Lexeme)
  | label (mark colon : Lexeme)

inductive Header where
  | whileLoop (word : Lexeme) (condition : Expr)
  | forLoop (word : Lexeme) (init : Definition) (toWord : Lexeme) (bound : Expr)

inductive Block where
  | done
  | simple (s : Simple) (rest : Block)
  | loop (header : Header) (opening : Lexeme) (body : Block) (closing : Lexeme) (rest : Block)

def Assignable (value : List Lexeme) : Prop :=
  isExpression value ∨ ∃ l : Lexeme, l.isConstant ∧ value = [l]

namespace Definition

def name : Definition → Lexeme
  | declaration _ name _ _ => name
  | assignment name _ _ => name

def lexemes : Definition → List Lexeme
  | declaration word name typing value =>
    word :: name :: (typing.elim [] (fun p => [p.1, p.2]) ++
      value.elim [] fun p => p.1 :: p.2.lexemes)
  | assignment name sign value => name :: sign :: value.lexemes

def expr : Definition → Expr
  | declaration word name _ none => .unary word (.operand name)
  | declaration word name _ (some (sign, value)) =>
    .binary (.unary word (.operand name)) sign value
  | assignment name sign value => .binary (.operand name) sign value

def Proper (assignable : List Lexeme → Prop) : Definition → Prop
  | declaration word name typing value =>
    (∃ declarator, word.kind = .declaration declarator ∧
      (value = none → declarator = .var ∧ typing ≠ none)) ∧
    name.isIdentifier ∧
    (∀ p ∈ typing, p.1.kind = .punct ∧ ∃ type, p.2.kind = .type type) ∧
    ∀ p ∈ value, p.1.kind = .assign ∧ p.2.Ordered ∧ isExpression p.2.lexemes
  | assignment name sign value =>
    name.isIdentifier ∧ sign.kind = .assign ∧ value.Ordered ∧ assignable value.lexemes

end Definition

namespace Simple

def lexemes : Simple → List Lexeme
  | definition d => d.lexemes
  | conditional word condition thenWord jump mark =>
    word :: (condition.lexemes ++ [thenWord, jump, mark])
  | goto word mark => [word, mark]
  | label mark colon => [mark, colon]

def Proper : Simple → Prop
  | definition d => d.Proper Assignable
  | conditional word condition thenWord jump mark =>
    word.kind = .condition .ifWord ∧ condition.Ordered ∧ isCondition condition.lexemes ∧
      thenWord.kind = .condition .thenWord ∧ jump.kind = .jump ∧ mark.isIdentifier
  | goto word mark => word.kind = .jump ∧ mark.isIdentifier
  | label mark colon => mark.isIdentifier ∧ colon.kind = .punct

end Simple

namespace Header

def word : Header → Lexeme
  | whileLoop word _ => word
  | forLoop word _ _ _ => word

def lexemes : Header → List Lexeme
  | whileLoop word condition => word :: condition.lexemes
  | forLoop word init toWord bound => word :: (init.lexemes ++ toWord :: bound.lexemes)

def Proper : Header → Prop
  | whileLoop word condition =>
    word.kind = .loop .whileWord ∧ condition.Ordered ∧ isCondition condition.lexemes
  | forLoop word init toWord bound =>
    word.kind = .loop .forWord ∧ init.Proper (isExpression ·) ∧ toWord.kind = .loop .toWord ∧
      bound.Ordered ∧ isFactor bound.lexemes

end Header

def Minimal (lexemes : List Lexeme) : Prop :=
  ∀ front, front <+: rowRuns lexemes → front ≠ rowRuns lexemes → ¬ IsStatement front.flatten

def Apart (front rest : List Lexeme) : Prop :=
  rowRuns (front ++ rest) = rowRuns front ++ rowRuns rest

namespace Block

def lexemes : Block → List Lexeme
  | done => []
  | simple s rest => s.lexemes ++ rest.lexemes
  | loop header opening body closing rest =>
    header.lexemes ++ opening :: (body.lexemes ++ [closing]) ++ rest.lexemes

/-- The statements are well-formed, and each ends where the first rows that make a statement do. -/
def Proper : Block → Prop
  | done => True
  | simple s rest =>
    s.Proper ∧ Minimal s.lexemes ∧ Apart s.lexemes rest.lexemes ∧ rest.Proper
  | loop header opening body closing rest =>
    header.Proper ∧ opening.kind = .loop .doWord ∧ body ≠ done ∧ body.Proper ∧
      closing.kind = .loop .endWord ∧
      Minimal (header.lexemes ++ opening :: (body.lexemes ++ [closing])) ∧
      Apart (header.lexemes ++ opening :: (body.lexemes ++ [closing])) rest.lexemes ∧ rest.Proper

def Reads (t : Block) (lexemes : List Lexeme) : Prop := t.Proper ∧ t.lexemes = lexemes

end Block

section
variable {ls : List Lexeme}

theorem IsTyping.exists_pair {typing : List Lexeme} (h : IsTyping typing) :
    ∃ p : Option (Lexeme × Lexeme), (∀ q ∈ p, q.1.kind = .punct ∧ ∃ type, q.2.kind = .type type) ∧
      p.elim [] (fun q => [q.1, q.2]) = typing := by
  cases h with
  | absent => exact ⟨none, by simp, rfl⟩
  | @given colon t word hc ht => exact ⟨some (colon, t), by simp [hc, ht], rfl⟩

theorem IsDeclaration.exists_tree (h : IsDeclaration ls) (assignable : List Lexeme → Prop) :
    ∃ d : Definition, d.Proper assignable ∧ d.lexemes = ls := by
  cases h with
  | @initialized word name sign typing value declarator hw hn ht hs hv =>
    obtain ⟨p, hp, rfl⟩ := ht.exists_pair
    obtain ⟨e, he, -, rfl⟩ := exists_tree_of_isExpression hv
    exact ⟨.declaration word name p (some (sign, e)),
      ⟨⟨declarator, hw, by simp⟩, hn, hp, by simp [hs, he, hv]⟩, rfl⟩
  | @typed word name colon t type hw hn hc ht =>
    exact ⟨.declaration word name (some (colon, t)) none,
      ⟨⟨.var, hw, by simp⟩, hn, by simp [hc, ht], by simp⟩, rfl⟩

theorem IsAssignment.exists_tree (h : IsAssignment ls) (assignable : List Lexeme → Prop)
    (ha : ∀ value, isExpression value → assignable value) :
    ∃ d : Definition, d.Proper assignable ∧ d.lexemes = ls := by
  obtain ⟨hn, hs, hv⟩ := h
  obtain ⟨e, he, -, rfl⟩ := exists_tree_of_isExpression hv
  exact ⟨.assignment _ _ e, ⟨hn, hs, he, ha _ hv⟩, rfl⟩

theorem IsStatementOver.exists_tree {isList : List Lexeme → Prop} (h : IsStatementOver isList ls)
    (hl : ∀ inside, isList inside → ∃ t : Block, t ≠ .done ∧ t.Reads inside) :
    (∃ s : Simple, s.Proper ∧ s.lexemes = ls) ∨
      ∃ (header : Header) (o : Lexeme) (body : Block) (c : Lexeme), header.Proper ∧
        o.kind = .loop .doWord ∧ body ≠ .done ∧ body.Proper ∧ c.kind = .loop .endWord ∧
        header.lexemes ++ o :: (body.lexemes ++ [c]) = ls := by
  cases h with
  | declaration h =>
    obtain ⟨d, hd, rfl⟩ := h.exists_tree Assignable
    exact Or.inl ⟨.definition d, hd, rfl⟩
  | @constant name sign value hn hs hv =>
    refine Or.inl ⟨.definition (.assignment name sign (.operand value)), ⟨hn, hs, ?_, ?_⟩, rfl⟩
    · simp [Expr.Ordered, Lexeme.kind_of_isConstant hv, Kind.isOperand]
    · exact Or.inr ⟨value, hv, rfl⟩
  | assignment h =>
    obtain ⟨d, hd, rfl⟩ := h.exists_tree Assignable fun _ => Or.inl
    exact Or.inl ⟨.definition d, hd, rfl⟩
  | loop h =>
    refine Or.inr ?_
    cases h with
    | @whileLoop word o c condition inside hw hc ho hi he =>
      obtain ⟨body, hne, hbody, rfl⟩ := hl inside hi
      obtain ⟨e, heo, -, rfl⟩ := exists_tree_of_isCondition hc
      exact ⟨.whileLoop word e, o, body, c, ⟨hw, heo, hc⟩, ho, hne, hbody, he, rfl⟩
    | @forLoop word toWord o c init bound inside hw hd ht hb ho hi he =>
      obtain ⟨body, hne, hbody, rfl⟩ := hl inside hi
      obtain ⟨e, heo, -, rfl⟩ := (isFactor_iff.1 hb).exists_tree
      obtain ⟨d, hp, rfl⟩ : ∃ d : Definition, d.Proper (isExpression ·) ∧ d.lexemes = init :=
        hd.elim (·.exists_tree _) (·.exists_tree _ fun _ h => h)
      exact ⟨.forLoop word d toWord e, o, body, c, ⟨hw, hp, ht, heo, hb⟩, ho, hne, hbody, he,
        by simp [Header.lexemes]⟩
  | @conditional word thenWord jump mark condition hw hc ht hj hm =>
    obtain ⟨e, heo, -, rfl⟩ := exists_tree_of_isCondition hc
    exact Or.inl ⟨.conditional word e thenWord jump mark, ⟨hw, heo, hc, ht, hj, hm⟩, rfl⟩
  | @goto jump mark hj hm => exact Or.inl ⟨.goto jump mark, ⟨hj, hm⟩, rfl⟩
  | @label mark colon hm hc => exact Or.inl ⟨.label mark colon, ⟨hm, hc⟩, rfl⟩

theorem rowRuns_eq_append {front rest : List (List Lexeme)} (h : rowRuns ls = front ++ rest) :
    rowRuns front.flatten = front ∧ rowRuns rest.flatten = rest ∧
      ls = front.flatten ++ rest.flatten := by
  obtain ⟨rfl, hnil, hchain, hruns⟩ := List.splitBy_eq_iff.1 h
  rw [List.isChain_append] at hruns
  refine ⟨List.splitBy_eq_iff.2 ⟨rfl, ?_, ?_, hruns.1⟩,
    List.splitBy_eq_iff.2 ⟨rfl, ?_, ?_, hruns.2.1⟩, by simp⟩
  · exact fun hm => hnil (List.mem_append_left rest hm)
  · exact fun m hm => hchain m (List.mem_append_left rest hm)
  · exact fun hm => hnil (List.mem_append_right front hm)
  · exact fun m hm => hchain m (List.mem_append_right front hm)

theorem Blocks.exists_tree {runs : List (List Lexeme)} (h : Blocks IsStatement runs)
    (hl : ∀ inside : List Lexeme, inside.length < runs.flatten.length → IsList inside →
      ∃ t : Block, t ≠ .done ∧ t.Reads inside)
    (hr : rowRuns ls = runs) : ∃ t : Block, t.Reads ls := by
  induction h generalizing ls with
  | nil => exact ⟨.done, trivial, (List.splitBy_eq_nil.1 hr).symm⟩
  | @cons block runs hs hm _ ih =>
    obtain ⟨hblock, hruns, rfl⟩ := rowRuns_eq_append hr
    have hlen : (block ++ runs).flatten.length = block.flatten.length + runs.flatten.length := by
      simp
    obtain ⟨rest, hrest, hlex⟩ := ih (fun inside hlt => hl inside (by omega)) hruns
    have hmin : Minimal block.flatten := by
      unfold Minimal
      rwa [hblock]
    have hapart : Apart block.flatten rest.lexemes := by
      rw [hlex, Apart, hr, hblock, hruns]
    have hs : IsStatementOver (fun inside => inside.length < block.flatten.length ∧ IsList inside)
        block.flatten := hs.mono fun inside hlt hi => ⟨hlt, hi⟩
    rcases hs.exists_tree fun inside hi => hl inside (by omega) hi.2 with
      ⟨s, hp, hse⟩ | ⟨header, o, body, c, hh, ho, hne, hbody, hc, he⟩
    · rw [← hse] at hmin hapart
      exact ⟨.simple s rest, ⟨hp, hmin, hapart, hrest⟩, by rw [Block.lexemes, hse, hlex]⟩
    · rw [← he] at hmin hapart
      exact ⟨.loop header o body c rest, ⟨hh, ho, hne, hbody, hc, hmin, hapart, hrest⟩,
        by rw [Block.lexemes, he, hlex]⟩

theorem IsList.exists_tree (h : IsList ls) : ∃ t : Block, t ≠ .done ∧ t.Reads ls := by
  induction hn : ls.length using Nat.strong_induction_on generalizing ls with
  | _ n ih =>
    subst hn
    obtain ⟨hne, hb⟩ := isList_iff.1 h
    obtain ⟨t, ht⟩ : ∃ t : Block, t.Reads ls := hb.exists_tree (fun inside hlt hi => by
      rw [rowRuns, List.flatten_splitBy] at hlt
      exact ih inside.length hlt hi rfl) rfl
    refine ⟨t, ?_, ht⟩
    rintro rfl
    exact hne ht.2.symm

end
end RowLang
