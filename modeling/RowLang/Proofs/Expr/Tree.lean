import Mathlib
import RowLang.Expr.Postorder
import RowLang.Proofs.Expr.Language

/-! Expressions as trees, built by the priorities of their operators. Every list that has the shape
of an expression is written by such a tree. -/

namespace RowLang

inductive Expr where
  | operand (l : Lexeme)
  | group (opening : Lexeme) (inside : Expr) (closing : Lexeme)
  | unary (l : Lexeme) (e : Expr)
  | binary (left : Expr) (l : Lexeme) (right : Expr)
deriving DecidableEq, Repr

namespace Expr

def lexemes : Expr → List Lexeme
  | operand l => [l]
  | group o e c => o :: (e.lexemes ++ [c])
  | unary l e => l :: e.lexemes
  | binary a l b => a.lexemes ++ l :: b.lexemes

def joinPriority (k : Kind) : Nat :=
  ((Operator.ofKind? k).bind Operator.priority?).getD 0

def priority : Expr → Nat
  | operand _ | group .. => 9
  | unary l _ =>
    match l.kind with
    | .declaration _ => 8
    | _ => 7
  | binary _ l _ => joinPriority l.kind

def unaryItems (l : Lexeme) : List Item :=
  match l.kind with
  | .addOp .minus => [.operator .negate l.row]
  | .declaration word => [.operator (.define word) l.row]
  | _ => []

def joinItems (l : Lexeme) : List Item :=
  match Operator.ofKind? l.kind with
  | some op => [.operator op l.row]
  | none => []

def items : Expr → List Item
  | operand l => [.operand l]
  | group _ e _ => e.items
  | unary l e => e.items ++ unaryItems l
  | binary a l b => a.items ++ b.items ++ joinItems l

def joins : Kind → Bool
  | .assign | .addOp _ | .multOp _ | .powOp | .relOp _ => true
  | _ => false

def leads : Kind → Bool
  | .addOp _ | .declaration _ => true
  | _ => false

/-- The tree follows the priorities: a left operand binds at least as tightly as its operator, a
right operand tighter, and so does what is behind a sign or a declaring word. -/
def Ordered : Expr → Prop
  | operand l => l.kind.isOperand
  | group o e c => o.kind = .bracket .opening ∧ c.kind = .bracket .closing ∧ e.Ordered
  | unary l e => leads l.kind ∧ (unary l e).priority ≤ e.priority ∧ e.Ordered
  | binary a l b => joins l.kind ∧ joinPriority l.kind ≤ a.priority ∧
      joinPriority l.kind < b.priority ∧ a.Ordered ∧ b.Ordered

theorem joinPriority_pos {k : Kind} (h : joins k) : 0 < joinPriority k ∧ joinPriority k < 7 := by
  cases k with
  | assign | powOp => decide
  | addOp s | multOp s | relOp s => cases s <;> decide
  | _ => simp [joins] at h

theorem priority_unary_ge (l : Lexeme) (e : Expr) : 7 ≤ (unary l e).priority := by
  simp only [priority]
  split <;> omega

theorem lexemes_ne_nil (e : Expr) : e.lexemes ≠ [] := by
  cases e <;> simp [lexemes]

/-- Joins an operand behind an expression: it goes down on the right past the operators that bind
less tightly. -/
def join : Expr → Lexeme → Expr → Expr
  | binary a o b, l, f =>
    if joinPriority l.kind ≤ joinPriority o.kind then binary (binary a o b) l f
    else binary a o (b.join l f)
  | e, l, f => binary e l f

def sign (l : Lexeme) : Expr → Expr
  | binary a o b => binary (a.sign l) o b
  | e => unary l e

section
variable {l : Lexeme} {e f : Expr}

theorem lexemes_join (e : Expr) (l : Lexeme) (f : Expr) :
    (e.join l f).lexemes = e.lexemes ++ l :: f.lexemes := by
  induction e with
  | binary a o b _ ihb =>
    unfold join
    split
    · rfl
    · simp [lexemes, ihb]
  | _ => rfl

theorem le_priority_join (e : Expr) (l : Lexeme) (f : Expr) :
    min e.priority (joinPriority l.kind) ≤ (e.join l f).priority := by
  cases e with
  | binary a o b =>
    unfold join
    split <;> simp [priority]
  | _ => simp [join, priority]

theorem Ordered.join (he : e.Ordered) (hl : joins l.kind) (hf : f.Ordered) (hp : 7 ≤ f.priority) :
    (e.join l f).Ordered := by
  have hlt := (joinPriority_pos hl).2
  induction e with
  | binary a o b _ ihb =>
    unfold Expr.join
    split
    · rename_i hle
      exact ⟨hl, hle, by omega, he, hf⟩
    · rename_i hgt
      obtain ⟨ho, ha, hb, hao, hbo⟩ := he
      have hmin := le_priority_join b l f
      exact ⟨ho, ha, by omega, hao, ihb hbo⟩
  | operand o => exact ⟨hl, by simp only [priority]; omega, by omega, he, hf⟩
  | group o i c => exact ⟨hl, by simp only [priority]; omega, by omega, he, hf⟩
  | unary o i =>
    have := priority_unary_ge o i
    exact ⟨hl, by omega, by omega, he, hf⟩

theorem lexemes_sign (l : Lexeme) (e : Expr) : (e.sign l).lexemes = l :: e.lexemes := by
  induction e with
  | binary a o b iha _ => simp [sign, lexemes, iha]
  | _ => rfl

theorem priority_unary_of_isAddOp (hl : l.kind.isAddOp) : (unary l e).priority = 7 := by
  cases hk : l.kind <;> simp_all [Kind.isAddOp, priority]

theorem le_priority_sign (hl : l.kind.isAddOp) (e : Expr) :
    min e.priority 7 ≤ (e.sign l).priority := by
  cases e with
  | binary a o b => simp [sign, priority]
  | operand | group | unary => simp [sign, priority_unary_of_isAddOp hl]

theorem Ordered.sign (hl : l.kind.isAddOp) (he : e.Ordered) : (e.sign l).Ordered := by
  have hlead : leads l.kind := by cases hk : l.kind <;> simp_all [Kind.isAddOp, leads]
  have h7 := priority_unary_of_isAddOp hl (e := e)
  induction e with
  | binary a o b iha _ =>
    obtain ⟨ho, ha, hb, hao, hbo⟩ := he
    have hlt := (joinPriority_pos ho).2
    have hmin := le_priority_sign hl a
    exact ⟨ho, by omega, hb, iha hao (priority_unary_of_isAddOp hl), hbo⟩
  | operand o => exact ⟨hlead, by rw [h7]; simp [priority], he⟩
  | group o i c => exact ⟨hlead, by rw [h7]; simp [priority], he⟩
  | unary o i => exact ⟨hlead, by rw [h7]; exact priority_unary_ge o i, he⟩

end

theorem joins_of_isTermOp {k : Kind} (h : k.isTermOp) : joins k ∧ 5 ≤ joinPriority k := by
  cases k with
  | multOp s => cases s <;> decide
  | powOp => decide
  | _ => simp [Kind.isTermOp] at h

theorem joins_of_isAddOp {k : Kind} (h : k.isAddOp) : joins k ∧ joinPriority k = 4 := by
  cases k with
  | addOp s => cases s <;> decide
  | _ => simp [Kind.isAddOp] at h

theorem joins_of_isRelOp {k : Kind} (h : k.isRelOp) : joins k ∧ joinPriority k = 3 := by
  cases k with
  | relOp s => cases s <;> decide
  | _ => simp [Kind.isRelOp] at h

end Expr

mutual

theorem Factor.exists_tree {f : List Lexeme} :
    Factor f → ∃ e : Expr, e.Ordered ∧ 9 ≤ e.priority ∧ e.lexemes = f
  | .identifier (l := l) h =>
    ⟨.operand l, by simp [Expr.Ordered, Lexeme.kind_of_isIdentifier h, Kind.isOperand], le_rfl, rfl⟩
  | .number (l := l) h =>
    ⟨.operand l, by simp [Expr.Ordered, isConstant_of_isUnsignedNumber h, Kind.isOperand], le_rfl, rfl⟩
  | .group (o := o) (c := c) ho hc h => by
    obtain ⟨e, he, -, rfl⟩ := h.exists_tree
    exact ⟨.group o e c, ⟨ho, hc, he⟩, le_rfl, rfl⟩

theorem Term.exists_tree {t : List Lexeme} :
    Term t → ∃ e : Expr, e.Ordered ∧ 5 ≤ e.priority ∧ e.lexemes = t
  | .factor h => by
    obtain ⟨e, he, hp, rfl⟩ := h.exists_tree
    exact ⟨e, he, by omega, rfl⟩
  | @Term.joined _ _ op ht hop hf => by
    obtain ⟨a, hao, hpa, rfl⟩ := ht.exists_tree
    obtain ⟨b, hbo, hpb, rfl⟩ := hf.exists_tree
    obtain ⟨hj, hp⟩ := Expr.joins_of_isTermOp hop
    have hmin := Expr.le_priority_join a op b
    exact ⟨a.join op b, hao.join hj hbo (by omega), by omega, Expr.lexemes_join a op b⟩

theorem Arithmetic.exists_tree {a : List Lexeme} :
    Arithmetic a → ∃ e : Expr, e.Ordered ∧ 4 ≤ e.priority ∧ e.lexemes = a
  | .term h => by
    obtain ⟨e, he, hp, rfl⟩ := h.exists_tree
    exact ⟨e, he, by omega, rfl⟩
  | .signed (s := s) hs h => by
    obtain ⟨e, he, hp, rfl⟩ := h.exists_tree
    have hmin := Expr.le_priority_sign hs e
    exact ⟨e.sign s, he.sign hs, by omega, Expr.lexemes_sign s e⟩
  | @Arithmetic.joined _ _ op ha hop hf => by
    obtain ⟨a, hao, hpa, rfl⟩ := ha.exists_tree
    obtain ⟨b, hbo, hpb, rfl⟩ := hf.exists_tree
    obtain ⟨hj, hp⟩ := Expr.joins_of_isAddOp hop
    have hmin := Expr.le_priority_join a op b
    exact ⟨a.join op b, hao.join hj hbo (by omega), by omega, Expr.lexemes_join a op b⟩

end

theorem exists_tree_of_isOperand {l : Lexeme} (h : l.kind.isOperand) :
    ∃ e : Expr, e.Ordered ∧ 3 ≤ e.priority ∧ e.lexemes = [l] :=
  ⟨.operand l, h, by simp [Expr.priority], rfl⟩

theorem exists_tree_of_isCondition {lexemes : List Lexeme} (h : isCondition lexemes) :
    ∃ e : Expr, e.Ordered ∧ 3 ≤ e.priority ∧ e.lexemes = lexemes := by
  rcases isCondition_iff.1 h with h | h | ⟨a, op, b, rfl, ha, hop, hb⟩
  · obtain ⟨l, rfl⟩ := exists_eq_singleton h rfl fun _ _ _ => rfl
    exact exists_tree_of_isOperand (by simp_all [isBoolean, Lexeme.isConstant, Kind.isOperand])
  · obtain ⟨l, rfl⟩ := exists_eq_singleton h rfl fun _ _ _ => rfl
    exact exists_tree_of_isOperand (by rw [Lexeme.kind_of_isIdentifier h]; rfl)
  · obtain ⟨x, hx, hpx, rfl⟩ := ha.exists_tree
    obtain ⟨y, hy, hpy, rfl⟩ := hb.exists_tree
    obtain ⟨hj, hp⟩ := Expr.joins_of_isRelOp hop
    exact ⟨.binary x op y, ⟨hj, by omega, by omega, hx, hy⟩, hp.ge, rfl⟩

theorem exists_tree_of_isExpression {lexemes : List Lexeme} (h : isExpression lexemes) :
    ∃ e : Expr, e.Ordered ∧ 3 ≤ e.priority ∧ e.lexemes = lexemes := by
  rcases isExpression_iff.1 h with h | h | h
  · obtain ⟨e, he, hp, rfl⟩ := (isArithmetic_iff.1 h).exists_tree
    exact ⟨e, he, by omega, rfl⟩
  · exact exists_tree_of_isCondition h
  · obtain ⟨l, rfl⟩ := exists_eq_singleton h rfl fun _ _ _ => rfl
    exact exists_tree_of_isOperand (by simp_all [isString, Lexeme.isConstant, Kind.isOperand])

end RowLang
