import Mathlib
import RowLang.Proofs.Expr.Language

/-! The recognizers of expressions and a context-free grammar. The grammar sees of a lexeme only its
sort, and each recognizer accepts the lists that derive from one symbol of the grammar. No search for
an operand misses a derivation, because it always stops at the last factor. -/

namespace RowLang

inductive Terminal where
  | identifier
  | number
  | boolean
  | string
  | addOp
  | termOp
  | relOp
  | opening
  | closing
  | other
deriving DecidableEq

def Lexeme.terminal (l : Lexeme) : Terminal :=
  match l.kind with
  | .identifier => .identifier
  | .constant =>
    if l.text.toList.head?.any Char.isDigit then .number
    else if l.text = "true" ∨ l.text = "false" then .boolean
    else if l.text.toList.head? = some '\'' then .string
    else .other
  | .addOp _ => .addOp
  | .multOp _ | .powOp => .termOp
  | .relOp _ => .relOp
  | .bracket .opening => .opening
  | .bracket .closing => .closing
  | _ => .other

inductive Phrase where
  | factor
  | term
  | arithmetic
  | condition
  | expression
deriving DecidableEq

def expressionRules : List (ContextFreeRule Terminal Phrase) := [
  ⟨.factor, [.terminal .identifier]⟩,
  ⟨.factor, [.terminal .number]⟩,
  ⟨.factor, [.terminal .opening, .nonterminal .arithmetic, .terminal .closing]⟩,
  ⟨.term, [.nonterminal .factor]⟩,
  ⟨.term, [.nonterminal .term, .terminal .termOp, .nonterminal .factor]⟩,
  ⟨.arithmetic, [.nonterminal .term]⟩,
  ⟨.arithmetic, [.terminal .addOp, .nonterminal .term]⟩,
  ⟨.arithmetic, [.nonterminal .arithmetic, .terminal .addOp, .nonterminal .factor]⟩,
  ⟨.condition, [.terminal .boolean]⟩,
  ⟨.condition, [.terminal .identifier]⟩,
  ⟨.condition, [.nonterminal .arithmetic, .terminal .relOp, .nonterminal .arithmetic]⟩,
  ⟨.expression, [.nonterminal .arithmetic]⟩,
  ⟨.expression, [.nonterminal .condition]⟩,
  ⟨.expression, [.terminal .string]⟩]

def expressionGrammar : ContextFreeGrammar Terminal where
  NT := Phrase
  initial := .expression
  rules := expressionRules.toFinset

theorem mem_rules_iff {r : ContextFreeRule Terminal Phrase} :
    r ∈ expressionGrammar.rules ↔ r ∈ expressionRules :=
  List.mem_toFinset (l := expressionRules)

def Phrase.Derives (p : Phrase) (ls : List Lexeme) : Prop :=
  expressionGrammar.Derives [.nonterminal p] (ls.map fun l => .terminal l.terminal)

section
variable {α T N : Type} {f : α → T} {P : N → List α → Prop} {ss ss' : List (Symbol T N)} {as : List α}

/-- A list falls into parts, one for each symbol: an element of the sort of a terminal, and for a
nonterminal whatever belongs to it. -/
def Covers (f : α → T) (P : N → List α → Prop) : List (Symbol T N) → List α → Prop
  | [], as => as = []
  | .terminal t :: ss, as => ∃ a rest, as = a :: rest ∧ f a = t ∧ Covers f P ss rest
  | .nonterminal n :: ss, as => ∃ part rest, as = part ++ rest ∧ P n part ∧ Covers f P ss rest

theorem covers_append_iff :
    Covers f P (ss ++ ss') as ↔ ∃ left right, as = left ++ right ∧ Covers f P ss left ∧ Covers f P ss' right := by
  induction ss generalizing as with
  | nil => simp [Covers]
  | cons s ss ih =>
    cases s with
    | terminal t =>
      simp only [List.cons_append, Covers, ih]
      constructor
      · rintro ⟨a, rest, rfl, ha, left, right, rfl, hl, hr⟩
        exact ⟨a :: left, right, rfl, ⟨a, left, rfl, ha, hl⟩, hr⟩
      · rintro ⟨left, right, rfl, ⟨a, rest, rfl, ha, hl⟩, hr⟩
        exact ⟨a, rest ++ right, rfl, ha, rest, right, rfl, hl, hr⟩
    | nonterminal n =>
      simp only [List.cons_append, Covers, ih]
      constructor
      · rintro ⟨part, rest, rfl, hp, left, right, rfl, hl, hr⟩
        exact ⟨part ++ left, right, by simp, ⟨part, left, rfl, hp, hl⟩, hr⟩
      · rintro ⟨left, right, rfl, ⟨part, rest, rfl, hp, hl⟩, hr⟩
        exact ⟨part, rest ++ right, by simp, hp, rest, right, rfl, hl, hr⟩

theorem covers_terminals (as : List α) : Covers f P (as.map fun a => .terminal (f a)) as := by
  induction as with
  | nil => rfl
  | cons a as ih => exact ⟨a, as, rfl, rfl, ih⟩

end

section
variable {α T : Type} {g : ContextFreeGrammar T} {f : α → T} {P : g.NT → List α → Prop}
  {ss ss' : List (Symbol T g.NT)} {as : List α}

/-- What is closed under the rules is kept when a derivation is read backwards, step by step. -/
theorem Covers.of_produces (hP : ∀ r ∈ g.rules, ∀ as, Covers f P r.output as → P r.input as)
    (h : g.Produces ss ss') (hc : Covers f P ss' as) : Covers f P ss as := by
  obtain ⟨r, hr, hrewrites⟩ := h
  obtain ⟨front, back, rfl, rfl⟩ := hrewrites.exists_parts
  rw [List.append_assoc, covers_append_iff] at hc ⊢
  obtain ⟨left, rest, rfl, hleft, hrest⟩ := hc
  obtain ⟨middle, right, rfl, hmiddle, hright⟩ := covers_append_iff.1 hrest
  exact ⟨left, middle ++ right, rfl, hleft, middle, right, rfl, hP r hr middle hmiddle, hright⟩

theorem Covers.of_derives (hP : ∀ r ∈ g.rules, ∀ as, Covers f P r.output as → P r.input as)
    (h : g.Derives ss ss') (hc : Covers f P ss' as) : Covers f P ss as := by
  induction h with
  | refl => exact hc
  | tail _ hlast ih => exact ih (hc.of_produces hP hlast)

theorem Covers.derives
    (hP : ∀ n as, P n as → g.Derives [.nonterminal n] (as.map fun a => .terminal (f a)))
    (h : Covers f P ss as) : g.Derives ss (as.map fun a => .terminal (f a)) := by
  induction ss generalizing as with
  | nil => rw [show as = [] from h]; rfl
  | cons s ss ih =>
    cases s with
    | terminal t =>
      obtain ⟨a, rest, rfl, rfl, hrest⟩ := h
      exact (ih hrest).append_left [.terminal (f a)]
    | nonterminal n =>
      obtain ⟨part, rest, rfl, hpart, hrest⟩ := h
      rw [List.map_append]
      exact ((hP n part hpart).append_right ss).trans ((ih hrest).append_left _)

end

theorem Phrase.derives_of_rule {p : Phrase} {ls : List Lexeme} (output : List (Symbol Terminal Phrase))
    (hr : ⟨p, output⟩ ∈ expressionRules) (h : Covers Lexeme.terminal Phrase.Derives output ls) :
    p.Derives ls := by
  have hstep : expressionGrammar.Produces [.nonterminal p] output :=
    ⟨⟨p, output⟩, mem_rules_iff.2 hr, .input_output⟩
  exact hstep.single.trans (Covers.derives (fun _ _ hp => hp) h)

theorem head_of_truth_value (text : String) (h : text = "true" ∨ text = "false") :
    text.toList.head?.any Char.isDigit = false ∧ text.toList.head? ≠ some '\'' := by
  rcases h with rfl | rfl <;> decide

theorem head_of_quote (text : String) (h : text.toList.head? = some '\'') :
    text.toList.head?.any Char.isDigit = false := by
  rw [h]
  decide

section
variable {l : Lexeme}

theorem terminal_eq_identifier : l.terminal = .identifier ↔ l.isIdentifier := by
  unfold Lexeme.terminal Lexeme.isIdentifier
  grind

theorem terminal_eq_number : l.terminal = .number ↔ isUnsignedNumber [l] := by
  unfold Lexeme.terminal isUnsignedNumber Lexeme.isConstant
  grind

theorem terminal_eq_boolean : l.terminal = .boolean ↔ isBoolean [l] := by
  have hhead := head_of_truth_value l.text
  unfold Lexeme.terminal isBoolean Lexeme.isConstant
  grind

theorem terminal_eq_string : l.terminal = .string ↔ isString [l] := by
  have hhead := head_of_truth_value l.text
  have hquote := head_of_quote l.text
  unfold Lexeme.terminal isString Lexeme.isConstant
  grind

theorem terminal_eq_addOp : l.terminal = .addOp ↔ l.kind.isAddOp := by
  unfold Lexeme.terminal Kind.isAddOp
  grind

theorem terminal_eq_termOp : l.terminal = .termOp ↔ l.kind.isTermOp := by
  unfold Lexeme.terminal Kind.isTermOp
  grind

theorem terminal_eq_relOp : l.terminal = .relOp ↔ l.kind.isRelOp := by
  unfold Lexeme.terminal Kind.isRelOp
  grind

theorem terminal_eq_opening : l.terminal = .opening ↔ l.kind = .bracket .opening := by
  unfold Lexeme.terminal
  grind

theorem terminal_eq_closing : l.terminal = .closing ↔ l.kind = .bracket .closing := by
  unfold Lexeme.terminal
  grind

end

def Phrase.accepts : Phrase → List Lexeme → Bool
  | factor => isFactor
  | term => isTerm
  | arithmetic => isArithmetic
  | condition => isCondition
  | expression => isExpression

theorem accepts_of_rule (r : ContextFreeRule Terminal Phrase) (hr : r ∈ expressionRules)
    (ls : List Lexeme) (h : Covers Lexeme.terminal (fun p part => p.accepts part) r.output ls) :
    r.input.accepts ls := by
  simp only [expressionRules, List.mem_cons, List.not_mem_nil, or_false] at hr
  rcases hr with rfl | rfl | rfl | rfl | rfl | rfl | rfl | rfl | rfl | rfl | rfl | rfl | rfl | rfl
  · obtain ⟨l, _, rfl, hl, rfl⟩ := h
    exact isFactor_iff.2 (.identifier (terminal_eq_identifier.1 hl))
  · obtain ⟨l, _, rfl, hl, rfl⟩ := h
    exact isFactor_iff.2 (.number (terminal_eq_number.1 hl))
  · obtain ⟨o, _, rfl, ho, inside, _, rfl, ha, c, _, rfl, hc, rfl⟩ := h
    exact isFactor_iff.2
      (.group (terminal_eq_opening.1 ho) (terminal_eq_closing.1 hc) (isArithmetic_iff.1 ha))
  · obtain ⟨f, _, rfl, hf, rfl⟩ := h
    rw [List.append_nil]
    exact isTerm_iff.2 (.factor (isFactor_iff.1 hf))
  · obtain ⟨t, _, rfl, ht, op, _, rfl, hop, f, _, rfl, hf, rfl⟩ := h
    rw [List.append_nil]
    exact isTerm_iff.2 (.joined (isTerm_iff.1 ht) (terminal_eq_termOp.1 hop) (isFactor_iff.1 hf))
  · obtain ⟨t, _, rfl, ht, rfl⟩ := h
    rw [List.append_nil]
    exact isArithmetic_iff.2 (.term (isTerm_iff.1 ht))
  · obtain ⟨s, _, rfl, hs, t, _, rfl, ht, rfl⟩ := h
    rw [List.append_nil]
    exact isArithmetic_iff.2 (.signed (terminal_eq_addOp.1 hs) (isTerm_iff.1 ht))
  · obtain ⟨a, _, rfl, ha, op, _, rfl, hop, f, _, rfl, hf, rfl⟩ := h
    rw [List.append_nil]
    exact isArithmetic_iff.2
      (.joined (isArithmetic_iff.1 ha) (terminal_eq_addOp.1 hop) (isFactor_iff.1 hf))
  · obtain ⟨l, _, rfl, hl, rfl⟩ := h
    exact isCondition_iff.2 (Or.inl (terminal_eq_boolean.1 hl))
  · obtain ⟨l, _, rfl, hl, rfl⟩ := h
    exact isCondition_iff.2 (Or.inr (Or.inl (terminal_eq_identifier.1 hl)))
  · obtain ⟨a, _, rfl, ha, op, _, rfl, hop, b, _, rfl, hb, rfl⟩ := h
    rw [List.append_nil]
    exact isCondition_iff.2 (Or.inr (Or.inr
      ⟨a, op, b, rfl, isArithmetic_iff.1 ha, terminal_eq_relOp.1 hop, isArithmetic_iff.1 hb⟩))
  · obtain ⟨a, _, rfl, ha, rfl⟩ := h
    rw [List.append_nil]
    exact isExpression_iff.2 (Or.inl ha)
  · obtain ⟨b, _, rfl, hb, rfl⟩ := h
    rw [List.append_nil]
    exact isExpression_iff.2 (Or.inr (Or.inl hb))
  · obtain ⟨l, _, rfl, hl, rfl⟩ := h
    exact isExpression_iff.2 (Or.inr (Or.inr (terminal_eq_string.1 hl)))

theorem Phrase.Derives.accepts {p : Phrase} {ls : List Lexeme} (h : p.Derives ls) : p.accepts ls := by
  have hcovers := Covers.of_derives (fun r hr => accepts_of_rule r (mem_rules_iff.1 hr)) h
    (covers_terminals ls)
  obtain ⟨part, _, rfl, hpart, rfl⟩ := hcovers
  rwa [List.append_nil]

mutual

theorem Factor.derives {f : List Lexeme} : Factor f → Phrase.factor.Derives f
  | .identifier h =>
    Phrase.derives_of_rule [.terminal .identifier] (by decide)
      ⟨_, [], rfl, terminal_eq_identifier.2 h, rfl⟩
  | .number h =>
    Phrase.derives_of_rule [.terminal .number] (by decide)
      ⟨_, [], rfl, terminal_eq_number.2 h, rfl⟩
  | .group ho hc h =>
    Phrase.derives_of_rule [.terminal .opening, .nonterminal .arithmetic, .terminal .closing]
      (by decide) ⟨_, _, rfl, terminal_eq_opening.2 ho, _, _, rfl, h.derives, _, [], rfl,
        terminal_eq_closing.2 hc, rfl⟩

theorem Term.derives {t : List Lexeme} : Term t → Phrase.term.Derives t
  | .factor h =>
    Phrase.derives_of_rule [.nonterminal .factor] (by decide)
      ⟨t, [], (List.append_nil t).symm, h.derives, rfl⟩
  | .joined ht hop hf =>
    Phrase.derives_of_rule [.nonterminal .term, .terminal .termOp, .nonterminal .factor]
      (by decide) ⟨_, _, rfl, ht.derives, _, _, rfl, terminal_eq_termOp.2 hop, _, [],
        (List.append_nil _).symm, hf.derives, rfl⟩

theorem Arithmetic.derives {a : List Lexeme} : Arithmetic a → Phrase.arithmetic.Derives a
  | .term h =>
    Phrase.derives_of_rule [.nonterminal .term] (by decide)
      ⟨a, [], (List.append_nil a).symm, h.derives, rfl⟩
  | .signed hs h =>
    Phrase.derives_of_rule [.terminal .addOp, .nonterminal .term] (by decide)
      ⟨_, _, rfl, terminal_eq_addOp.2 hs, _, [], (List.append_nil _).symm, h.derives, rfl⟩
  | .joined ha hop hf =>
    Phrase.derives_of_rule [.nonterminal .arithmetic, .terminal .addOp, .nonterminal .factor]
      (by decide) ⟨_, _, rfl, ha.derives, _, _, rfl, terminal_eq_addOp.2 hop, _, [],
        (List.append_nil _).symm, hf.derives, rfl⟩

end

namespace Phrase

theorem derives_of_isCondition {b : List Lexeme} (h : isCondition b) : condition.Derives b := by
  rcases isCondition_iff.1 h with h | h | ⟨left, op, right, rfl, hleft, hop, hright⟩
  · obtain ⟨l, rfl⟩ := exists_eq_singleton h rfl fun _ _ _ => rfl
    exact derives_of_rule [.terminal .boolean] (by decide) ⟨l, [], rfl, terminal_eq_boolean.2 h, rfl⟩
  · obtain ⟨l, rfl⟩ := exists_eq_singleton h rfl fun _ _ _ => rfl
    exact derives_of_rule [.terminal .identifier] (by decide)
      ⟨l, [], rfl, terminal_eq_identifier.2 h, rfl⟩
  · exact derives_of_rule [.nonterminal .arithmetic, .terminal .relOp, .nonterminal .arithmetic]
      (by decide) ⟨left, _, rfl, hleft.derives, op, _, rfl, terminal_eq_relOp.2 hop, right, [],
        (List.append_nil _).symm, hright.derives, rfl⟩

theorem derives_of_isExpression {e : List Lexeme} (h : isExpression e) : expression.Derives e := by
  rcases isExpression_iff.1 h with h | h | h
  · exact derives_of_rule [.nonterminal .arithmetic] (by decide)
      ⟨e, [], (List.append_nil e).symm, (isArithmetic_iff.1 h).derives, rfl⟩
  · exact derives_of_rule [.nonterminal .condition] (by decide)
      ⟨e, [], (List.append_nil e).symm, derives_of_isCondition h, rfl⟩
  · obtain ⟨l, rfl⟩ := exists_eq_singleton h rfl fun _ _ _ => rfl
    exact derives_of_rule [.terminal .string] (by decide) ⟨l, [], rfl, terminal_eq_string.2 h, rfl⟩

theorem accepts_iff {p : Phrase} {ls : List Lexeme} : p.accepts ls ↔ p.Derives ls := by
  refine ⟨fun h => ?_, Derives.accepts⟩
  cases p with
  | factor => exact (isFactor_iff.1 h).derives
  | term => exact (isTerm_iff.1 h).derives
  | arithmetic => exact (isArithmetic_iff.1 h).derives
  | condition => exact derives_of_isCondition h
  | expression => exact derives_of_isExpression h

end Phrase

theorem isFactor_group_iff {o c : Lexeme} {inside : List Lexeme} (ho : o.kind = .bracket .opening)
    (hc : c.kind = .bracket .closing) : isFactor (o :: (inside ++ [c])) ↔ isArithmetic inside := by
  rw [isFactor_iff, isArithmetic_iff]
  refine ⟨fun h => ?_, .group ho hc⟩
  generalize hw : o :: (inside ++ [c]) = whole at h
  cases h with
  | identifier | number => simp at hw
  | group _ _ h =>
    obtain ⟨-, hinside⟩ := List.cons.inj hw
    rwa [(List.append_inj' hinside rfl).1]

theorem takeWhile_of_arithmetic {a b : List Lexeme} {op : Lexeme} (ha : isArithmetic a)
    (hop : op.kind.isRelOp) : (a ++ op :: b).takeWhile (fun l => !l.kind.isRelOp) = a := by
  have hall : ∀ l ∈ a, (!l.kind.isRelOp) = true := by
    intro l hl
    simp [isRelOp_of_arithmetic (isArithmetic_iff.1 ha) l hl]
  rw [List.takeWhile_append_of_pos hall, List.takeWhile_cons_of_neg (by simp [hop]), List.append_nil]

/-- Each recognizer accepts exactly the lists that derive from its symbol. The searches for a factor
and for a term find the same cut, which is that before the last factor. A list in brackets is a factor
if its inside is an arithmetic expression; no product follows a sum; and where a relational sign stands
between two arithmetic expressions, it is the first one. -/
theorem recognizers_accept_derivations (ls : List Lexeme) :
    (isFactor ls ↔ Phrase.factor.Derives ls) ∧ (isTerm ls ↔ Phrase.term.Derives ls) ∧
    (isArithmetic ls ↔ Phrase.arithmetic.Derives ls) ∧
    (isCondition ls ↔ Phrase.condition.Derives ls) ∧
    (isExpression ls ↔ Phrase.expression.Derives ls) ∧
    cutBefore? isTerm ls = cutBefore? isFactor ls ∧
    (∀ front op f, ls = front ++ op :: f → Phrase.factor.Derives f →
      cutBefore? isFactor ls = some ⟨front.reverse, op, f⟩) ∧
    (∀ o inside c, ls = o :: (inside ++ [c]) → o.kind = .bracket .opening →
      c.kind = .bracket .closing → (isFactor ls ↔ isArithmetic inside)) ∧
    (∀ a add f mult g, ls = a ++ add :: (f ++ mult :: g) → a ≠ [] → add.kind.isAddOp →
      Phrase.factor.Derives f → mult.kind.isTermOp → Phrase.factor.Derives g → ¬ isArithmetic ls) ∧
    (∀ a op b, ls = a ++ op :: b → Phrase.arithmetic.Derives a → op.kind.isRelOp →
      ls.takeWhile (fun l => !l.kind.isRelOp) = a) := by
  refine ⟨Phrase.accepts_iff (p := .factor), Phrase.accepts_iff (p := .term),
    Phrase.accepts_iff (p := .arithmetic), Phrase.accepts_iff (p := .condition),
    Phrase.accepts_iff (p := .expression), cutBefore?_isTerm ls, ?_, ?_, ?_, ?_⟩
  · rintro front op f rfl hf
    exact cutBefore?_last_factor front op hf.accepts
  · rintro o inside c rfl ho hc
    exact isFactor_group_iff ho hc
  · rintro a add f mult g rfl ha hadd hf hmult hg
    rw [isArithmetic_iff]
    exact not_arithmetic_of_product ha hadd (isFactor_iff.1 hf.accepts) hmult (isFactor_iff.1 hg.accepts)
  · rintro a op b rfl ha hop
    exact takeWhile_of_arithmetic ha.accepts hop

/-- `x * x + (x)` derives from the symbol of arithmetic expressions and is cut before its group;
`x + x * x` does not derive from it, although it ends in a factor behind a sign. -/
theorem recognizers_accept_derivations_of_product : ∃ x plus star o c : Lexeme,
    x.kind = .identifier ∧ plus.kind = .addOp .plus ∧ star.kind = .multOp .star ∧
    o.kind = .bracket .opening ∧ c.kind = .bracket .closing ∧
    Phrase.arithmetic.Derives [x, star, x, plus, o, x, c] ∧
    cutBefore? isFactor [x, star, x, plus, o, x, c] = some ⟨[x, star, x], plus, [o, x, c]⟩ ∧
    ¬ Phrase.arithmetic.Derives [x, plus, x, star, x] := by
  let x : Lexeme := ⟨1, "x", .identifier, none⟩
  let plus : Lexeme := ⟨1, "+", .addOp .plus, none⟩
  let star : Lexeme := ⟨1, "*", .multOp .star, none⟩
  let o : Lexeme := ⟨1, "(", .bracket .opening, none⟩
  let c : Lexeme := ⟨1, ")", .bracket .closing, none⟩
  obtain ⟨-, -, hsum, -, -, -, hcut, -⟩ := recognizers_accept_derivations [x, star, x, plus, o, x, c]
  obtain ⟨-, -, hproduct, -, -, -, -, -, hout, -⟩ := recognizers_accept_derivations [x, plus, x, star, x]
  have hx : Factor [x] := .identifier rfl
  have hgroup : Factor [o, x, c] := .group rfl rfl (.term (.factor hx))
  have hterm : Term [x, star, x] := .joined (.factor hx) rfl hx
  refine ⟨x, plus, star, o, c, rfl, rfl, rfl, rfl, rfl, ?_, ?_, ?_⟩
  · exact hsum.1 (isArithmetic_iff.2 (.joined (.term hterm) rfl hgroup))
  · exact hcut [x, star, x] plus [o, x, c] rfl hgroup.derives
  · rw [← hproduct]
    exact hout [x] plus [x] star [x] rfl (by simp) rfl hx.derives rfl hx.derives

end RowLang
