import Mathlib
import RowLang.Proofs.Statement.Refinement

/-! The records of linked trees: an operand is one record, and so is every operator except a plus in
front of an operand. -/

namespace RowLang

section
variable {t : Tables}

theorem recordsOf_append (items items' : List Item) :
    recordsOf (items ++ items') = recordsOf items ++ recordsOf items' := List.flatMap_append

theorem recordsOf_cons (item : Item) (items : List Item) :
    recordsOf (item :: items) = recordsOf [item] ++ recordsOf items := recordsOf_append [item] items

theorem recordsOf_operator (op : Operator) (row : Nat) :
    recordsOf [.operator op row] = [.op row op] := rfl

theorem recordsOf_operand {l : Lexeme} (hl : l.LinkedIn t) (ho : l.kind.isOperand) :
    (∃ i, recordsOf [.operand l] = [.constant l.row i] ∧ i < t.constants.size) ∨
      ∃ i, recordsOf [.operand l] = [.identifier l.row i] ∧ l.link = some i ∧
        i < t.identifiers.size := by
  cases hk : l.kind with
  | constant =>
    obtain ⟨i, hi, c, hc, -⟩ := hl.1 hk
    refine Or.inl ⟨i, ?_, (List.getElem?_eq_some_iff.1 hc).1⟩
    simp [recordsOf, Item.records, hi, Lexeme.isConstant, hk]
  | identifier =>
    obtain ⟨i, hi, e, he, -⟩ := hl.2 hk
    refine Or.inr ⟨i, ?_, hi, (List.getElem?_eq_some_iff.1 he).1⟩
    simp [recordsOf, Item.records, hi, Lexeme.isConstant, hk]
  | _ => simp [hk, Kind.isOperand] at ho

theorem recordsOf_name {l : Lexeme} (hl : l.LinkedIn t) (hi : l.isIdentifier) :
    ∃ i, l.link = some i ∧ i < t.identifiers.size ∧
      ∀ row, recordsOf [.operand (l.onRow row)] = [.identifier row i] := by
  obtain ⟨i, hlink, e, he, -⟩ := hl.2 (Lexeme.kind_of_isIdentifier hi)
  refine ⟨i, hlink, (List.getElem?_eq_some_iff.1 he).1, fun row => ?_⟩
  simp [recordsOf, Item.records, Lexeme.onRow, hlink, Lexeme.isConstant,
    Lexeme.kind_of_isIdentifier hi]

end

namespace Expr
variable {l : Lexeme}

theorem exists_joinItems (hj : joins l.kind) (hk : l.kind.inExpression) :
    ∃ op, Operator.ofKind? l.kind = some (.binary op) ∧
      joinItems l = [.operator (.binary op) l.row] := by
  have hop : ∃ op, Operator.ofKind? l.kind = some (.binary op) := by
    cases hkind : l.kind <;> simp_all [joins, Kind.inExpression, Kind.inArithmetic, Kind.isRelOp,
      Operator.ofKind?]
  obtain ⟨op, hop⟩ := hop
  exact ⟨op, hop, by rw [joinItems, hop]⟩

theorem unaryItems_cases (hj : leads l.kind) (hk : l.kind.inExpression) :
    l.kind = .addOp .plus ∧ unaryItems l = [] ∨
      l.kind = .addOp .minus ∧ unaryItems l = [.operator .negate l.row] := by
  cases hkind : l.kind with
  | addOp s => cases s <;> simp [unaryItems, hkind]
  | declaration word => simp [hkind, Kind.inExpression, Kind.inArithmetic, Kind.isRelOp] at hk
  | _ => simp [hkind, leads] at hj

end Expr

namespace Definition
variable {word name sign : Lexeme} {typing : Option (Lexeme × Lexeme)} {i : Nat}

theorem code_declaration {value : Option (Lexeme × Expr)} {declarator : Declarator}
    (hw : word.kind = .declaration declarator)
    (hn : recordsOf [.operand name] = [.identifier name.row i])
    (hv : ∀ p ∈ value, p.1.kind = .assign) :
    (declaration word name typing value).code =
      [.identifier name.row i, .op word.row (.define declarator)] ++
        value.elim [] fun p => p.2.code ++ [.op p.1.row .assign] := by
  have hname : (Expr.unary word (.operand name)).code =
      [.identifier name.row i, .op word.row (.define declarator)] := by
    simp only [Expr.code, Expr.items, recordsOf_append, hn, Expr.unaryItems, hw]
    rfl
  cases value with
  | none => rw [code, expr, hname, Option.elim_none, List.append_nil]
  | some p =>
    have hjoin : Expr.joinItems p.1 = [.operator .assign p.1.row] := by
      rw [Expr.joinItems, hv p rfl]
      rfl
    rw [code, expr, Expr.code, Expr.items, recordsOf_append, recordsOf_append, hjoin,
      recordsOf_operator, Option.elim_some, ← Expr.code, hname, ← Expr.code, List.append_assoc]

theorem code_assignment {value : Expr} (hn : recordsOf [.operand name] = [.identifier name.row i])
    (hs : sign.kind = .assign) :
    (assignment name sign value).code =
      .identifier name.row i :: (value.code ++ [.op sign.row .assign]) := by
  have hjoin : Expr.joinItems sign = [.operator .assign sign.row] := by
    rw [Expr.joinItems, hs]
    rfl
  rw [code, expr, Expr.code, Expr.items, recordsOf_append, recordsOf_append, hjoin,
    recordsOf_operator, Expr.items, hn, ← Expr.code]
  rfl

end Definition
end RowLang
