import Mathlib
import RowLang.Proofs.Expr.Yard

/-! The yard loses nothing and makes nothing up, whatever lexemes it is given. Operands pass through
in their order. An operator is either out or waiting, so at every step the two together are what the
lexemes so far have called for; brackets without a partner change where operators come out, not which. -/

namespace RowLang
open scoped List

def Item.operand? : Item → Option Lexeme
  | .operand l => some l
  | .operator .. => none

def Item.operator? : Item → Option (Operator × Nat)
  | .operand _ => none
  | .operator op row => some (op, row)

namespace Kind

def isForeign : Kind → Bool
  | loop _ | condition _ | jump | type _ | punct => true
  | _ => false

def endsOperand : Kind → Bool
  | identifier | constant | bracket .closing => true
  | _ => false

/-- The operator that a kind stands for. A sign with no operand before it is not a sum or a
difference: a minus negates, and a plus is no operator. -/
def operator? (afterOperand : Bool) : Kind → Option Operator
  | assign => some .assign
  | declaration word => some (.define word)
  | addOp .plus => if afterOperand then some (.binary .add) else none
  | addOp .minus => if afterOperand then some (.binary .subtract) else some .negate
  | multOp .star => some (.binary .mult)
  | multOp .slash => some (.binary .divide)
  | powOp => some (.binary .pow)
  | relOp .eq => some (.binary .eq)
  | relOp .neq => some (.binary .neq)
  | relOp .gt => some (.binary .gt)
  | relOp .gte => some (.binary .gte)
  | relOp .lt => some (.binary .lt)
  | relOp .lte => some (.binary .lte)
  | identifier | constant | loop _ | condition _ | jump | type _ | bracket _ | punct => none

end Kind

def operandPrecedes (before : List Lexeme) : Bool :=
  (before.reverse.find? fun l => !l.kind.isForeign).any fun l => l.kind.endsOperand

def Lexeme.operatorAfter? (before : List Lexeme) (l : Lexeme) : Option (Operator × Nat) :=
  (l.kind.operator? (operandPrecedes before)).map fun op => (op, l.row)

def operatorsAfter (before ls : List Lexeme) : List (Operator × Nat) :=
  (List.range ls.length).filterMap fun i =>
    ls[i]?.bind (Lexeme.operatorAfter? (before ++ ls.take i))

theorem operandPrecedes_concat (before : List Lexeme) (l : Lexeme) :
    operandPrecedes (before ++ [l]) =
      if l.kind.isForeign then operandPrecedes before else l.kind.endsOperand := by
  cases h : l.kind.isForeign <;> simp [operandPrecedes, h]

theorem operatorsAfter_cons (before : List Lexeme) (l : Lexeme) (ls : List Lexeme) :
    operatorsAfter before (l :: ls) =
      (l.operatorAfter? before).toList ++ operatorsAfter (before ++ [l]) ls := by
  have hrest : operatorsAfter (before ++ [l]) ls = (List.range ls.length).filterMap fun i =>
      ls[i]?.bind (Lexeme.operatorAfter? (before ++ (l :: ls).take (i + 1))) := by
    simp [operatorsAfter]
  rw [operatorsAfter, List.length_cons, List.range_succ_eq_map, List.filterMap_cons,
    List.filterMap_map, hrest]
  cases h : l.operatorAfter? before <;> simp [h, Function.comp_def]

namespace Postorder

def operands (items : List Item) : List Lexeme := items.filterMap Item.operand?

def operators (items : List Item) : List (Operator × Nat) := items.filterMap Item.operator?

def waitingOperators : List Waiting → List (Operator × Nat)
  | [] => []
  | .opening :: ws => waitingOperators ws
  | .operator op row :: ws => (op, row) :: waitingOperators ws

section
variable (ws : List Waiting) (items : List Item)

theorem operators_operand (l : Lexeme) : operators [.operand l] = [] := rfl

theorem operators_operator_cons (op : Operator) (row : Nat) :
    operators (.operator op row :: items) = (op, row) :: operators items := rfl

theorem operators_append (items' : List Item) :
    operators (items ++ items') = operators items ++ operators items' := List.filterMap_append

theorem operators_release :
    operators (release ws).1 ++ waitingOperators (release ws).2 = waitingOperators ws := by
  induction ws with
  | nil => rfl
  | cons w ws ih =>
    cases w with
    | opening => rfl
    | operator op row => simpa [release, waitingOperators, operators_operator_cons] using ih

theorem operators_releaseAbove (p : Nat) :
    operators (releaseAbove p ws).1 ++ waitingOperators (releaseAbove p ws).2 =
      waitingOperators ws := by
  induction ws with
  | nil => rfl
  | cons w ws ih =>
    cases w with
    | opening => rfl
    | operator op row =>
      unfold releaseAbove
      split
      · rfl
      · simpa [waitingOperators, operators_operator_cons] using ih

theorem operators_releaseAll : operators (releaseAll ws) = waitingOperators ws := by
  induction ws with
  | nil => rfl
  | cons w ws ih =>
    cases w with
    | opening => exact ih
    | operator op row => exact congrArg ((op, row) :: ·) ih

theorem operands_eq_nil {items : List Item} (h : ∀ l, .operand l ∉ items) : operands items = [] := by
  refine List.filterMap_eq_nil_iff.2 fun item hitem => ?_
  cases item with
  | operand l => exact absurd hitem (h l)
  | operator => rfl

end

section
variable (yard : Yard) (l : Lexeme)

theorem shunt_operator (hj : Expr.joins l.kind) (hs : l.kind.isAddOp → yard.afterOperand) :
    ∃ op p, l.kind.operator? yard.afterOperand = some op ∧
      shunt yard l = ((releaseAbove p yard.waiting).1,
        ⟨.operator op l.row :: (releaseAbove p yard.waiting).2, false⟩) := by
  obtain ⟨op, hop, hp⟩ := exists_operator_of_joins hj
  refine ⟨op, Expr.joinPriority l.kind, ?_, ?_⟩
  · rw [← hop]
    cases hk : l.kind with
    | assign | powOp => rfl
    | addOp sign =>
      rw [hs (by rw [hk]; rfl)]
      cases sign <;> rfl
    | multOp sign | relOp sign => cases sign <;> rfl
    | _ => simp [hk, Expr.joins] at hj
  · cases hk : l.kind <;> simp_all [Expr.joins, shunt, Kind.isAddOp]

theorem operands_shunt : operands (shunt yard l).1 = [l].filter fun l => l.kind.isOperand := by
  cases ho : l.kind.isOperand with
  | true => simp [shunt_operand ho, ho, operands, Item.operand?]
  | false =>
    rw [operands_eq_nil fun l' hl' => by simp [(of_operand_mem_shunt hl').2] at ho]
    simp [ho]

theorem afterOperand_shunt : (shunt yard l).2.afterOperand =
    if l.kind.isForeign then yard.afterOperand else l.kind.endsOperand := by
  cases hk : l.kind with
  | addOp sign =>
    cases ha : yard.afterOperand <;> cases sign <;>
      simp [shunt, hk, ha, Kind.isAddOp, Operator.ofKind?, Operator.priority?, Kind.isForeign,
        Kind.endsOperand]
  | bracket side => cases side <;> simp [shunt, hk, Kind.isForeign, Kind.endsOperand]
  | _ =>
    simp [shunt, hk, Kind.isAddOp, Operator.ofKind?, Operator.priority?, Kind.isForeign,
      Kind.endsOperand]

theorem operators_shunt :
    operators (shunt yard l).1 ++ waitingOperators (shunt yard l).2.waiting ~
      waitingOperators yard.waiting ++
        ((l.kind.operator? yard.afterOperand).map fun op => (op, l.row)).toList := by
  by_cases hjoin : Expr.joins l.kind ∧ (l.kind.isAddOp → yard.afterOperand)
  · obtain ⟨op, p, hop, hshunt⟩ := shunt_operator yard l hjoin.1 hjoin.2
    rw [hop, hshunt, ← operators_releaseAbove yard.waiting p, List.append_assoc]
    exact (List.perm_append_singleton ..).symm.append_left _
  · -- nothing is released but by a closing bracket
    have hwait : ∀ op, operators [] ++ (op, l.row) :: waitingOperators yard.waiting ~
        waitingOperators yard.waiting ++ [(op, l.row)] :=
      fun op => (List.perm_append_singleton ..).symm
    cases hk : l.kind with
    | identifier | constant => simp [shunt, hk, Kind.operator?, operators_operand]
    | loop | condition | jump | type | punct =>
      simp [shunt, hk, Kind.operator?, Kind.isAddOp, Operator.ofKind?, operators]
    | bracket side =>
      cases side with
      | opening => simp [shunt, hk, Kind.operator?, operators, waitingOperators]
      | closing => simp [shunt, hk, Kind.operator?, operators_release]
    | declaration word => simpa [shunt, hk, Kind.operator?, waitingOperators] using hwait _
    | addOp sign =>
      have ha : yard.afterOperand = false := by simpa [hk, Expr.joins, Kind.isAddOp] using hjoin
      cases sign with
      | plus => simp [shunt, hk, ha, Kind.isAddOp, Kind.operator?, operators]
      | minus =>
        simpa [shunt, hk, ha, Kind.isAddOp, Kind.operator?, waitingOperators] using hwait _
    | _ => simp [hk, Expr.joins, Kind.isAddOp] at hjoin

end

theorem operands_outputFrom (yard : Yard) (ls : List Lexeme) :
    operands (outputFrom yard ls) = ls.filter fun l => l.kind.isOperand := by
  induction ls generalizing yard with
  | nil => exact operands_eq_nil fun _ => operand_not_mem_releaseAll _
  | cons l ls ih =>
    rw [outputFrom_cons, operands, List.filterMap_append, ← operands, ← operands, operands_shunt, ih,
      ← List.filter_append]
    rfl

/-- From any state of the yard on, the operators that come out are those that wait and those that
the lexemes to come call for. -/
theorem operators_outputFrom (before : List Lexeme) (yard : Yard) (ls : List Lexeme)
    (ha : yard.afterOperand = operandPrecedes before) :
    operators (outputFrom yard ls) ~ waitingOperators yard.waiting ++ operatorsAfter before ls := by
  induction ls generalizing before yard with
  | nil => simp [outputFrom, operators_releaseAll, operatorsAfter]
  | cons l ls ih =>
    have ha' : (shunt yard l).2.afterOperand = operandPrecedes (before ++ [l]) := by
      rw [afterOperand_shunt, operandPrecedes_concat, ha]
    have hstep := operators_shunt yard l
    rw [ha] at hstep
    calc operators (outputFrom yard (l :: ls))
      _ = operators (shunt yard l).1 ++ operators (outputFrom (shunt yard l).2 ls) := by
        rw [outputFrom_cons, operators_append]
      _ ~ operators (shunt yard l).1 ++ (waitingOperators (shunt yard l).2.waiting ++
          operatorsAfter (before ++ [l]) ls) := (ih _ _ ha').append_left _
      _ = operators (shunt yard l).1 ++ waitingOperators (shunt yard l).2.waiting ++
          operatorsAfter (before ++ [l]) ls := (List.append_assoc ..).symm
      _ ~ waitingOperators yard.waiting ++ (l.operatorAfter? before).toList ++
          operatorsAfter (before ++ [l]) ls := hstep.append_right _
      _ = waitingOperators yard.waiting ++ operatorsAfter before (l :: ls) := by
        rw [operatorsAfter_cons, List.append_assoc]

end Postorder

/-- Whatever the lexemes are, the operands come out as they stand, and the operators that come out are
those that the lexemes call for, each as often and with its row. -/
theorem postorder_conserves (ls : List Lexeme) :
    (postorder ls).filterMap Item.operand? = ls.filter (fun l => l.kind.isOperand) ∧
      (postorder ls).filterMap Item.operator? ~ operatorsAfter [] ls :=
  ⟨Postorder.operands_outputFrom {} ls, Postorder.operators_outputFrom [] {} ls rfl⟩

end RowLang
