import Mathlib
import RowLang.Proofs.Statement.Refinement

/-! Expressions as they are printed. A tree whose operators stand in any order of priorities is printed
with brackets where the priorities need them; brackets that they do not need do no harm. Whatever the
parser puts into postorder is printed by such a tree. -/

namespace RowLang

namespace Expr

def bare : Expr → Expr
  | operand l => operand l
  | group _ e _ => e.bare
  | unary l e => unary l e.bare
  | binary a l b => binary a.bare l b.bare

def Formed : Expr → Prop
  | operand l => l.kind.isOperand
  | group o e c => o.kind = .bracket .opening ∧ c.kind = .bracket .closing ∧ e.Formed
  | unary l e => leads l.kind ∧ e.Formed
  | binary a l b => joins l.kind ∧ a.Formed ∧ b.Formed

def atLeast (p : Nat) (e : Expr) : Expr :=
  if p ≤ e.priority then e
  else group ⟨0, "(", .bracket .opening, none⟩ e ⟨0, ")", .bracket .closing, none⟩

def bracketed : Expr → Expr
  | operand l => operand l
  | group o e c => group o e.bracketed c
  | unary l e => unary l (e.bracketed.atLeast (unary l e).priority)
  | binary a l b =>
    binary (a.bracketed.atLeast (joinPriority l.kind)) l
      (b.bracketed.atLeast (joinPriority l.kind + 1))

instance decidableOrdered : (e : Expr) → Decidable e.Ordered
  | operand l => inferInstanceAs (Decidable (l.kind.isOperand = true))
  | group o e c =>
    have := e.decidableOrdered
    inferInstanceAs (Decidable (o.kind = .bracket .opening ∧ c.kind = .bracket .closing ∧ e.Ordered))
  | unary l e =>
    have := e.decidableOrdered
    inferInstanceAs (Decidable (leads l.kind = true ∧ (unary l e).priority ≤ e.priority ∧ e.Ordered))
  | binary a l b =>
    have := a.decidableOrdered
    have := b.decidableOrdered
    inferInstanceAs (Decidable (joins l.kind = true ∧ joinPriority l.kind ≤ a.priority ∧
      joinPriority l.kind < b.priority ∧ a.Ordered ∧ b.Ordered))

section
variable {e : Expr} {p : Nat}

theorem items_bare (e : Expr) : e.bare.items = e.items := by
  induction e with
  | operand l => rfl
  | group o e c ih => exact ih
  | unary l e ih => simp [bare, items, ih]
  | binary a l b iha ihb => simp [bare, items, iha, ihb]

theorem bare_atLeast : (e.atLeast p).bare = e.bare := by
  unfold atLeast
  split <;> rfl

theorem Ordered.atLeast (he : e.Ordered) : (e.atLeast p).Ordered := by
  unfold Expr.atLeast
  split
  · exact he
  · exact ⟨rfl, rfl, he⟩

theorem le_priority_atLeast (hp : p ≤ 9) : p ≤ (e.atLeast p).priority := by
  unfold atLeast
  split
  · assumption
  · exact hp

theorem bare_bracketed (e : Expr) : e.bracketed.bare = e.bare := by
  induction e with
  | operand l => rfl
  | group o e c ih => exact ih
  | unary l e ih => simp [bracketed, bare, bare_atLeast, ih]
  | binary a l b iha ihb => simp [bracketed, bare, bare_atLeast, iha, ihb]

theorem Formed.ordered_bracketed (h : e.Formed) : e.bracketed.Ordered := by
  induction e with
  | operand l => exact h
  | group o e c ih =>
    obtain ⟨ho, hc, he⟩ := h
    exact ⟨ho, hc, ih he⟩
  | unary l e ih =>
    obtain ⟨hl, he⟩ := h
    -- the priority of a sign or a declaring word does not depend on what is behind it
    have hroot : ∀ f : Expr, (unary l f).priority = (unary l e).priority := fun _ => rfl
    have hle : (unary l e).priority ≤ 9 := by
      simp only [priority]
      split <;> omega
    refine ⟨hl, ?_, (ih he).atLeast⟩
    rw [hroot]
    exact le_priority_atLeast hle
  | binary a l b iha ihb =>
    obtain ⟨hl, ha, hb⟩ := h
    have hlt := (joinPriority_pos hl).2
    exact ⟨hl, le_priority_atLeast (by omega), le_priority_atLeast (by omega), (iha ha).atLeast,
      (ihb hb).atLeast⟩

end

theorem joinItems_of_joins {l : Lexeme} (h : joins l.kind) :
    ∃ op, joinItems l = [.operator op l.row] ∧ Kind.ofSpelling? (spelling op) = some l.kind := by
  obtain ⟨op, hop, -⟩ := Postorder.exists_operator_of_joins h
  refine ⟨op, by rw [joinItems, hop], ?_⟩
  cases hk : l.kind with
  | assign | powOp =>
    rw [hk] at hop
    cases hop
    decide
  | addOp s | multOp s | relOp s =>
    rw [hk] at hop
    cases hop
    cases s <;> decide
  | _ => simp [hk, joins] at h

end Expr

inductive Emitted : List Lexeme → Prop
  | expression {ls : List Lexeme} (h : isExpression ls) : Emitted ls
  | assignment {ls : List Lexeme} {name : Lexeme} (h : readAssignment ls = .form name) : Emitted ls
  | constant {ls : List Lexeme} (h : isConstantDefinition ls) : Emitted ls
  | declaration {ls : List Lexeme} {form : Declaration} (h : Declaration.read ls = .form form) :
      Emitted (form.word :: form.name :: form.tail)

theorem Definition.exists_printed {d : Definition} (h : d.Proper Assignable) :
    ∃ e : Expr, e.Ordered ∧ e.lexemes = d.expr.lexemes :=
  ⟨d.expr, d.ordered_expr h fun _ hv => hv.inExpression, rfl⟩

theorem Emitted.exists_printed {ls : List Lexeme} (h : Emitted ls) :
    ∃ e : Expr, e.Ordered ∧ e.lexemes = ls := by
  cases h with
  | expression h =>
    obtain ⟨e, he, -, hls⟩ := exists_tree_of_isExpression h
    exact ⟨e, he, hls⟩
  | assignment h =>
    obtain ⟨sign, value, hn, hs, hv, rfl⟩ := Trial.readAssignment_eq_form_iff.1 h
    obtain ⟨e, he, -, rfl⟩ := exists_tree_of_isExpression hv
    exact Definition.exists_printed (d := .assignment _ sign e) ⟨hn, hs, he, Or.inl hv⟩
  | constant h =>
    obtain ⟨name, sign, value, hn, hs, hv, rfl⟩ := Trial.isConstantDefinition_iff.1 h
    have hvalue : (Expr.operand value).Ordered := by
      simp [Expr.Ordered, Lexeme.kind_of_isConstant hv, Kind.isOperand]
    exact Definition.exists_printed (d := .assignment name sign (.operand value))
      ⟨hn, hs, hvalue, Or.inr ⟨value, hv, rfl⟩⟩
  | @declaration written form h =>
    obtain ⟨declarator, rest, hw, hn, -, -, htail⟩ := Trial.read_eq_form_iff.1 h
    rcases Trial.tailCause?_eq_none_iff.1 htail with ⟨hnil, hvar, htype⟩ | ⟨sign, value, hs, hv, htail⟩
    · have hname : (Expr.operand form.name).Ordered := by
        simp [Expr.Ordered, Lexeme.kind_of_isIdentifier hn, Kind.isOperand]
      refine ⟨.unary form.word (.operand form.name), ⟨by rw [hw]; rfl, ?_, hname⟩, by rw [hnil]; rfl⟩
      simp [Expr.priority, hw]
    · obtain ⟨e, he, -, rfl⟩ := exists_tree_of_isExpression hv
      have hproper : (Definition.declaration form.word form.name none (some (sign, e))).Proper
          Assignable := ⟨⟨declarator, hw, by simp⟩, hn, by simp, by simp [hs, he, hv]⟩
      rw [htail]
      exact Definition.exists_printed hproper

/-- The yard puts a printed tree into the postorder of the tree, brackets apart. Every tree can be
printed, and all that the parser puts into postorder is a printed tree. The priorities are those of the
table: an assignment binds least, then come comparisons, the additive signs, the multiplicative ones,
powers, signs in front of an operand, and declaring words. -/
theorem postorder_printed :
    (∀ e : Expr, e.Ordered → postorder e.lexemes = e.bare.items) ∧
    (∀ e : Expr, e.Formed → ∃ printed : Expr, printed.Ordered ∧ printed.bare = e.bare) ∧
    (∀ ls, Emitted ls → ∃ e : Expr, e.Ordered ∧ e.lexemes = ls ∧ postorder ls = e.bare.items) ∧
    (∀ l : Lexeme, Expr.joins l.kind → ∃ op, Expr.joinItems l = [.operator op l.row] ∧
      Kind.ofSpelling? (spelling op) = some l.kind) ∧
    Expr.joinPriority .assign = 2 ∧ (∀ sign, Expr.joinPriority (.relOp sign) = 3) ∧
    (∀ sign, Expr.joinPriority (.addOp sign) = 4) ∧ (∀ sign, Expr.joinPriority (.multOp sign) = 5) ∧
    Expr.joinPriority .powOp = 6 ∧
    (∀ (l : Lexeme) (e : Expr), l.kind = .addOp .plus →
      (Expr.unary l e).priority = 7 ∧ Expr.unaryItems l = []) ∧
    (∀ (l : Lexeme) (e : Expr), l.kind = .addOp .minus →
      (Expr.unary l e).priority = 7 ∧ Expr.unaryItems l = [.operator .negate l.row]) ∧
    (∀ (l : Lexeme) (e : Expr) (word : Declarator), l.kind = .declaration word →
      (Expr.unary l e).priority = 8 ∧ Expr.unaryItems l = [.operator (.define word) l.row]) ∧
    spelling Operator.negate = "@" ∧ ∀ word, spelling (Operator.define word) = spelling word := by
  have hyard : ∀ e : Expr, e.Ordered → postorder e.lexemes = e.bare.items := by
    intro e he
    rw [Postorder.postorder_lexemes he, e.items_bare]
  have hemitted : ∀ ls, Emitted ls →
      ∃ e : Expr, e.Ordered ∧ e.lexemes = ls ∧ postorder ls = e.bare.items := by
    intro ls h
    obtain ⟨e, he, rfl⟩ := h.exists_printed
    exact ⟨e, he, rfl, hyard e he⟩
  refine ⟨hyard, fun e he => ⟨e.bracketed, he.ordered_bracketed, e.bare_bracketed⟩, hemitted,
    fun l hl => Expr.joinItems_of_joins hl, rfl, fun sign => ?_, fun sign => ?_, fun sign => ?_, rfl,
    fun l e hl => ?_, fun l e hl => ?_, fun l e word hl => ?_, rfl, fun _ => rfl⟩
  iterate 3 · cases sign <;> rfl
  all_goals simp [Expr.priority, Expr.unaryItems, hl]

/-- `val x = -(a + b) ^ 2 > -c * d`, over three rows. -/
def Expr.signedPower : Expr :=
  .binary (.unary ⟨1, "val", .declaration .val, none⟩ (.operand ⟨1, "x", .identifier, none⟩))
    ⟨1, "=", .assign, none⟩
    (.binary
      (.binary
        (.unary ⟨1, "-", .addOp .minus, none⟩
          (.group ⟨1, "(", .bracket .opening, none⟩
            (.binary (.operand ⟨1, "a", .identifier, none⟩) ⟨2, "+", .addOp .plus, none⟩
              (.operand ⟨2, "b", .identifier, none⟩))
            ⟨2, ")", .bracket .closing, none⟩))
        ⟨2, "^", .powOp, none⟩ (.operand ⟨2, "2", .constant, none⟩))
      ⟨3, ">", .relOp .gt, none⟩
      (.binary (.unary ⟨3, "-", .addOp .minus, none⟩ (.operand ⟨3, "c", .identifier, none⟩))
        ⟨3, "*", .multOp .star, none⟩ (.operand ⟨3, "d", .identifier, none⟩)))

theorem postorder_printed_of_signs : Expr.signedPower.Ordered ∧
    Emitted Expr.signedPower.lexemes ∧
    postorder Expr.signedPower.lexemes = Expr.signedPower.bare.items := by
  have hordered : Expr.signedPower.Ordered := by decide
  have hread : Declaration.read Expr.signedPower.lexemes =
      .form ⟨⟨1, "val", .declaration .val, none⟩, ⟨1, "x", .identifier, none⟩, none,
        Expr.signedPower.lexemes.drop 2⟩ :=
    Trial.read_eq_form_iff.2 ⟨.val, _, rfl, rfl, rfl, rfl, by decide +kernel⟩
  exact ⟨hordered, .declaration hread, postorder_printed.1 _ hordered⟩

end RowLang
