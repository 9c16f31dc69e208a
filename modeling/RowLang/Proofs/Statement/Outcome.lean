import Mathlib
import RowLang.Proofs.Statement.Records

/-! What an expression comes to can be told from its last item in postorder. That is the operator at the
root of its tree, whose values have one type, or else the expression is one operand among brackets and
plus signs. The type that is inferred from the lexemes agrees with it. -/

namespace RowLang

def BinaryOp.type : BinaryOp → ValueType
  | add | subtract | mult | divide | pow => .number
  | eq | neq | gt | gte | lt | lte => .boolean

def Operator.valueType? : Operator → Option ValueType
  | negate => some .number
  | binary op => some op.type
  | _ => none

theorem Operator.of_valueType? {op : Operator} {type : ValueType} (h : op.valueType? = some type) :
    op = .negate ∨ ∃ binary, op = .binary binary := by
  cases op with
  | negate => exact Or.inl rfl
  | binary op => exact Or.inr ⟨op, rfl⟩
  | _ => cases h

def Instr.gain : Instr → Int
  | push _ => 1
  | apply (.binary _) => -1
  | apply _ => 0

def Item.gain : Item → Int
  | operand _ => 1
  | operator op _ => (Instr.apply op).gain

def Kind.isIdle : Kind → Bool
  | bracket _ | addOp .plus => true
  | _ => false

structure Wraps (x : Lexeme) (ls : List Lexeme) : Prop where
  operand : x.kind.isOperand
  around : ∃ front back, ls = front ++ x :: back ∧ ∀ l ∈ front ++ back, l.kind.isIdle

section
variable {x l : Lexeme} {ls : List Lexeme}

theorem Kind.isRelOp_of_isIdle {k : Kind} (h : k.isIdle) : k.isRelOp = false := by
  cases k <;> simp_all [isIdle, isRelOp]

theorem wraps_self (h : x.kind.isOperand) : Wraps x [x] := ⟨h, [], [], rfl, by simp⟩

theorem Wraps.cons (h : Wraps x ls) (hl : l.kind.isIdle) : Wraps x (l :: ls) := by
  obtain ⟨hx, front, back, rfl, hidle⟩ := h
  refine ⟨hx, l :: front, back, rfl, ?_⟩
  rw [List.cons_append, List.forall_mem_cons]
  exact ⟨hl, hidle⟩

theorem Wraps.concat (h : Wraps x ls) (hl : l.kind.isIdle) : Wraps x (ls ++ [l]) := by
  obtain ⟨hx, front, back, rfl, hidle⟩ := h
  refine ⟨hx, front, back ++ [l], by simp, ?_⟩
  rw [← List.append_assoc, List.forall_mem_append]
  exact ⟨hidle, by simpa using hl⟩

theorem Wraps.eq_of_singleton (h : Wraps x [l]) : l = x := by
  obtain ⟨-, front, back, heq, -⟩ := h
  cases front with
  | nil => exact (List.cons.inj heq).1
  | cons l' front => simp at heq

theorem Wraps.mem (h : Wraps x ls) : x ∈ ls := by
  obtain ⟨-, front, back, rfl, -⟩ := h
  simp

theorem Wraps.isRelOp (h : Wraps x ls) : ∀ l ∈ ls, l.kind.isRelOp = false := by
  obtain ⟨hx, front, back, rfl, hidle⟩ := h
  intro l hl
  rcases List.mem_append.1 hl with hl | hl
  · exact Kind.isRelOp_of_isIdle (hidle l (List.mem_append_left back hl))
  · rcases List.mem_cons.1 hl with rfl | hl
    · cases hk : l.kind <;> simp_all [Kind.isOperand, Kind.isRelOp]
    · exact Kind.isRelOp_of_isIdle (hidle l (List.mem_append_right front hl))

theorem inferType_of_several (ids : Identifiers) (h : ∀ l, ls ≠ [l]) :
    inferType ids ls = if ls.any fun l => l.kind.isRelOp then .boolean else .number := by
  have hsingle : ∀ shape : List Lexeme → Bool, shape [] = false →
      (∀ l l' ls, shape (l :: l' :: ls) = false) → shape ls = false := by
    intro shape hnil hmore
    refine Bool.eq_false_iff.2 fun htrue => ?_
    obtain ⟨l, hl⟩ := exists_eq_singleton htrue hnil hmore
    exact h l hl
  rw [inferType, hsingle isString rfl fun _ _ _ => rfl, hsingle isIdentifier rfl fun _ _ _ => rfl,
    hsingle isBoolean rfl fun _ _ _ => rfl]
  simp only [Bool.false_eq_true, if_false, Bool.false_or]

theorem Wraps.inferType (h : Wraps x ls) (hne : ls ≠ [x]) (ids : Identifiers) :
    inferType ids ls = .number := by
  have hseveral : ∀ l, ls ≠ [l] := by
    rintro l rfl
    exact hne (congrArg (fun x => [x]) h.eq_of_singleton)
  rw [inferType_of_several ids hseveral, if_neg]
  simpa using h.isRelOp

end

namespace Expr
variable {e : Expr}

theorem items_cases (he : e.Ordered) (hk : ∀ l ∈ e.lexemes, l.kind.inArithmetic) :
    (∃ x, e.items = [.operand x] ∧ Wraps x e.lexemes) ∨
      ∃ front op row, e.items = front ++ [.operator op row] ∧ op.valueType? = some .number := by
  induction e with
  | operand l => exact Or.inl ⟨l, rfl, wraps_self he⟩
  | group o e c ih =>
    obtain ⟨ho, hc, he⟩ := he
    simp only [lexemes, List.forall_mem_cons, List.forall_mem_append] at hk
    rcases ih he hk.2.1 with ⟨x, hitems, hx⟩ | hoperator
    · refine Or.inl ⟨x, hitems, (hx.concat ?_).cons ?_⟩
      · rw [hc]
        rfl
      · rw [ho]
        rfl
    · exact Or.inr hoperator
  | unary l e ih =>
    simp only [lexemes, List.forall_mem_cons] at hk
    rcases unaryItems_cases he.1 (by simp [Kind.inExpression, hk.1]) with ⟨hplus, hu⟩ | ⟨-, hu⟩
    · rw [items, hu, List.append_nil]
      rcases ih he.2.2 hk.2 with ⟨x, hitems, hx⟩ | hoperator
      · exact Or.inl ⟨x, hitems, hx.cons (by rw [hplus]; rfl)⟩
      · exact Or.inr hoperator
    · exact Or.inr ⟨e.items, .negate, l.row, by rw [items, hu], rfl⟩
  | binary a l b =>
    have hjoins := he.1
    have hl := hk l (by simp [lexemes])
    have hop : ∃ op, Operator.ofKind? l.kind = some op ∧ op.valueType? = some .number := by
      cases hkind : l.kind with
      | addOp sign => cases sign <;> exact ⟨_, rfl, rfl⟩
      | multOp sign => cases sign <;> exact ⟨_, rfl, rfl⟩
      | powOp => exact ⟨_, rfl, rfl⟩
      | _ => simp [hkind, joins, Kind.inArithmetic] at hjoins hl
    obtain ⟨op, hop, htype⟩ := hop
    exact Or.inr ⟨a.items ++ b.items, op, l.row, by simp [items, joinItems, hop], htype⟩

theorem items_plain (he : e.Ordered) (hk : ∀ l ∈ e.lexemes, l.kind.inExpression) :
    (∀ op row, .operator op row ∈ e.items → op.valueType?.isSome) ∧ (e.items.map Item.gain).sum = 1 := by
  induction e with
  | operand l => exact ⟨by simp [items], rfl⟩
  | group o e c ih =>
    simp only [lexemes, List.forall_mem_cons, List.forall_mem_append] at hk
    exact ih he.2.2 hk.2.1
  | unary l e ih =>
    simp only [lexemes, List.forall_mem_cons] at hk
    obtain ⟨hplain, hsum⟩ := ih he.2.2 hk.2
    rw [items]
    rcases unaryItems_cases he.1 hk.1 with ⟨-, hu⟩ | ⟨-, hu⟩
    · rw [hu, List.append_nil]
      exact ⟨hplain, hsum⟩
    · rw [hu]
      refine ⟨fun op row hm => ?_, ?_⟩
      · rcases List.mem_append.1 hm with hm | hm
        · exact hplain op row hm
        · cases List.mem_singleton.1 hm
          rfl
      · rw [List.map_append, List.sum_append, hsum]
        rfl
  | binary a l b iha ihb =>
    simp only [lexemes, List.forall_mem_cons, List.forall_mem_append] at hk
    obtain ⟨haplain, hasum⟩ := iha he.2.2.2.1 hk.1
    obtain ⟨hbplain, hbsum⟩ := ihb he.2.2.2.2 hk.2.2
    obtain ⟨op, -, hop⟩ := exists_joinItems he.1 hk.2.1
    rw [items, hop]
    refine ⟨fun op' row hm => ?_, ?_⟩
    · simp only [List.mem_append, List.mem_singleton] at hm
      rcases hm with (hm | hm) | hm
      · exact haplain op' row hm
      · exact hbplain op' row hm
      · cases hm
        rfl
    · rw [List.map_append, List.map_append, List.sum_append, List.sum_append, hasum, hbsum]
      rfl

theorem eq_operand_of_lexemes {l : Lexeme} (h : e.lexemes = [l]) : e = operand l := by
  cases e with
  | operand l' => rw [(List.cons.inj h).1]
  | group o e c => simp [lexemes] at h
  | unary l' e => exact absurd (List.cons.inj h).2 e.lexemes_ne_nil
  | binary a l' b =>
    have hlength := congrArg List.length h
    have ha := List.length_pos_iff.2 a.lexemes_ne_nil
    simp only [lexemes, List.length_append, List.length_cons, List.length_nil] at hlength
    omega

end Expr

section
variable {value : List Lexeme}

/-- An expression is one operand apart from brackets and plus signs, or an operator whose values have the
inferred type comes last. -/
theorem postorder_cases (h : isExpression value) :
    (∃ x, postorder value = [.operand x] ∧ Wraps x value) ∨
      ∃ front op row type, postorder value = front ++ [.operator op row] ∧
        op.valueType? = some type ∧ ∀ ids, inferType ids value = type := by
  have hsingle : ∀ l, l.kind.isOperand → value = [l] →
      ∃ x, postorder value = [.operand x] ∧ Wraps x value := by
    rintro l hl rfl
    exact ⟨l, Postorder.postorder_lexemes (e := .operand l) hl, wraps_self hl⟩
  rcases isExpression_iff.1 h with h | h | h
  · have harithmetic := isArithmetic_iff.1 h
    obtain ⟨e, he, -, rfl⟩ := harithmetic.exists_tree
    rw [Postorder.postorder_lexemes he]
    rcases e.items_cases he harithmetic.inArithmetic with hx | ⟨front, op, row, hitems, htype⟩
    · exact Or.inl hx
    · refine Or.inr ⟨front, op, row, .number, hitems, htype, fun ids => ?_⟩
      have hseveral : ∀ l, e.lexemes ≠ [l] := by
        intro l hl
        rw [Expr.eq_operand_of_lexemes hl, Expr.items] at hitems
        have hlast := congrArg List.getLast? hitems
        simp at hlast
      rw [inferType_of_several ids hseveral, if_neg]
      simpa using isRelOp_of_arithmetic harithmetic
  · rcases isCondition_iff.1 h with h | h | ⟨a, op, b, rfl, ha, hop, hb⟩
    · obtain ⟨l, hl⟩ := exists_eq_singleton h rfl fun _ _ _ => rfl
      subst hl
      exact Or.inl (hsingle l (by simp_all [isBoolean, Lexeme.isConstant, Kind.isOperand]) rfl)
    · obtain ⟨l, hl⟩ := exists_eq_singleton h rfl fun _ _ _ => rfl
      subst hl
      exact Or.inl (hsingle l (by rw [Lexeme.kind_of_isIdentifier h]; rfl) rfl)
    · obtain ⟨x, hx, hpx, rfl⟩ := ha.exists_tree
      obtain ⟨y, hy, hpy, rfl⟩ := hb.exists_tree
      obtain ⟨hj, hp⟩ := Expr.joins_of_isRelOp hop
      have hordered : (Expr.binary x op y).Ordered := ⟨hj, by omega, by omega, hx, hy⟩
      obtain ⟨sign, hsign⟩ : ∃ sign, op.kind = .relOp sign := by
        cases hk : op.kind <;> simp_all [Kind.isRelOp]
      refine Or.inr ⟨x.items ++ y.items, .binary (.ofRelSign sign), op.row, .boolean, ?_, ?_, fun ids => ?_⟩
      · rw [show x.lexemes ++ op :: y.lexemes = (Expr.binary x op y).lexemes from rfl,
          Postorder.postorder_lexemes hordered, Expr.items, Expr.joinItems, hsign]
        rfl
      · cases sign <;> rfl
      · have hseveral : ∀ l, x.lexemes ++ op :: y.lexemes ≠ [l] := by
          intro l hl
          cases Expr.eq_operand_of_lexemes (e := .binary x op y) hl
        rw [inferType_of_several ids hseveral, if_pos]
        simp [hop]
  · obtain ⟨l, hl⟩ := exists_eq_singleton h rfl fun _ _ _ => rfl
    subst hl
    exact Or.inl (hsingle l (by simp_all [isString, Lexeme.isConstant, Kind.isOperand]) rfl)

theorem plain_of_isExpression (h : isExpression value) :
    (∀ op row, .operator op row ∈ postorder value → op.valueType?.isSome) ∧
      ((postorder value).map Item.gain).sum = 1 := by
  have hk := inExpression_of_isExpression h
  obtain ⟨e, he, -, rfl⟩ := exists_tree_of_isExpression h
  rw [Postorder.postorder_lexemes he]
  exact Expr.items_plain he hk

end

mutual

theorem Factor.isUnsignedNumber {f : List Lexeme} :
    Factor f → ∀ l ∈ f, l.isConstant → isUnsignedNumber [l]
  | .identifier (l := l) h => by
    simp [Lexeme.isConstant, Lexeme.kind_of_isIdentifier h]
  | .number h => by
    intro l hl _
    rwa [List.mem_singleton.1 hl]
  | .group ho hc h => by
    intro l hl hconstant
    rcases List.mem_cons.1 hl with rfl | hl
    · simp [Lexeme.isConstant, ho] at hconstant
    · rcases List.mem_append.1 hl with hl | hl
      · exact h.isUnsignedNumber l hl hconstant
      · obtain rfl := List.mem_singleton.1 hl
        simp [Lexeme.isConstant, hc] at hconstant

theorem Term.isUnsignedNumber {t : List Lexeme} :
    Term t → ∀ l ∈ t, l.isConstant → isUnsignedNumber [l]
  | .factor h => h.isUnsignedNumber
  | .joined ht hop hf => by
    intro l hl hconstant
    rcases List.mem_append.1 hl with hl | hl
    · exact ht.isUnsignedNumber l hl hconstant
    · rcases List.mem_cons.1 hl with rfl | hl
      · simp [Lexeme.kind_of_isConstant hconstant, Kind.isTermOp] at hop
      · exact hf.isUnsignedNumber l hl hconstant

theorem Arithmetic.isUnsignedNumber {a : List Lexeme} :
    Arithmetic a → ∀ l ∈ a, l.isConstant → isUnsignedNumber [l]
  | .term h => h.isUnsignedNumber
  | .signed hs h => by
    intro l hl hconstant
    rcases List.mem_cons.1 hl with rfl | hl
    · simp [Lexeme.kind_of_isConstant hconstant, Kind.isAddOp] at hs
    · exact h.isUnsignedNumber l hl hconstant
  | .joined ha hop hf => by
    intro l hl hconstant
    rcases List.mem_append.1 hl with hl | hl
    · exact ha.isUnsignedNumber l hl hconstant
    · rcases List.mem_cons.1 hl with rfl | hl
      · simp [Lexeme.kind_of_isConstant hconstant, Kind.isAddOp] at hop
      · exact hf.isUnsignedNumber l hl hconstant

end

theorem Decimal.read?_quote (s : List Char) : Decimal.read? ('\'' :: s) = none := by
  have hword : ∀ word : String, word.toList.head? ≠ some '\'' →
      String.ofList (('\'' :: s).map Char.toLower) ≠ word := by
    rintro word hhead rfl
    simp at hhead
  have hunsigned : Decimal.readUnsigned? ('\'' :: s) = none := by
    simp [Decimal.readUnsigned?]
  have hmagnitude : Decimal.readMagnitude? ('\'' :: s) = none := by
    rw [Decimal.readMagnitude?, if_neg (not_or.2 ⟨hword "inf" (by decide), hword "infinity" (by decide)⟩),
      if_neg (hword "nan" (by decide)), hunsigned]
    rfl
  change (Decimal.readMagnitude? ('\'' :: s)).map _ = none
  rw [hmagnitude]
  rfl

theorem Literal.type_of_read? {text : String} {v : Literal} (h : read? text = some v) :
    (text.toList.head? = some '\'' → v.type = .string) ∧
    (text = "true" ∨ text = "false" → v.type = .boolean) ∧
    (text.toList.head?.any Char.isDigit → v.type = .number) := by
  rw [read?] at h
  split at h
  · rename_i htrue
    cases h
    subst htrue
    exact ⟨by decide, fun _ => rfl, by decide⟩
  · split at h
    · rename_i hfalse
      cases h
      subst hfalse
      exact ⟨by decide, fun _ => rfl, by decide⟩
    · rename_i hnot_true hnot_false
      refine ⟨fun hquote => ?_, fun hword => (hword.elim hnot_true hnot_false).elim, fun hdigit => ?_⟩
      · split at h
        · cases h
          rfl
        · obtain ⟨s, hs⟩ := List.head?_eq_some_iff.1 hquote
          rw [hs, Decimal.read?_quote] at h
          cases h
      · split at h
        · rename_i s hs
          cases hchars : text.toList with
          | nil => simp [hchars] at hdigit
          | cons c cs =>
            rw [hchars] at hs hdigit
            unfold unquote? at hs
            split at hs
            · rename_i heq
              obtain ⟨rfl, -⟩ := List.cons.inj heq
              simp at hdigit
            · cases hs
        · obtain ⟨x, -, rfl⟩ := Option.map_eq_some_iff.1 h
          rfl

theorem Wraps.inferType_eq_type {x : Lexeme} {value : List Lexeme} {v : Literal} (hx : Wraps x value)
    (h : isExpression value) (hc : x.isConstant) (hv : Literal.read? x.text = some v)
    (ids : Identifiers) : RowLang.inferType ids value = v.type := by
  obtain ⟨hstring, hboolean, hnumber⟩ := Literal.type_of_read? hv
  have hkind := Lexeme.kind_of_isConstant hc
  have hcases : isUnsignedNumber [x] ∨ value = [x] ∧ (isBoolean [x] ∨ isString [x]) := by
    have hsingle : ∀ l, value = [l] → l = x := by
      rintro l rfl
      exact hx.eq_of_singleton
    rcases isExpression_iff.1 h with h | h | h
    · exact Or.inl ((isArithmetic_iff.1 h).isUnsignedNumber x hx.mem hc)
    · rcases isCondition_iff.1 h with h | h | ⟨a, op, b, rfl, -, hop, -⟩
      · obtain ⟨l, hl⟩ := exists_eq_singleton h rfl fun _ _ _ => rfl
        obtain rfl := hsingle l hl
        exact Or.inr ⟨hl, Or.inl (hl ▸ h)⟩
      · obtain ⟨l, hl⟩ := exists_eq_singleton h rfl fun _ _ _ => rfl
        obtain rfl := hsingle l hl
        rw [hl] at h
        simp [Lexeme.kind_of_isIdentifier h] at hkind
      · have hnone := hx.isRelOp op (by simp)
        rw [hop] at hnone
        cases hnone
    · obtain ⟨l, hl⟩ := exists_eq_singleton h rfl fun _ _ _ => rfl
      obtain rfl := hsingle l hl
      exact Or.inr ⟨hl, Or.inr (hl ▸ h)⟩
  by_cases hone : value = [x]
  · subst hone
    have hidentifier : isIdentifier [x] = false := by simp [isIdentifier, Lexeme.isIdentifier, hkind]
    have hrel : ([x].any fun l => l.kind.isRelOp) = false := by simp [hkind, Kind.isRelOp]
    rw [RowLang.inferType, hidentifier, hrel, Bool.or_false]
    by_cases hs : isString [x]
    · rw [if_pos hs]
      exact (hstring (by simpa [isString, hc] using hs)).symm
    · rw [if_neg hs, if_neg Bool.false_ne_true]
      by_cases hb : isBoolean [x]
      · rw [if_pos hb]
        exact (hboolean (by simpa [isBoolean, hc] using hb)).symm
      · rw [if_neg hb]
        have hunsigned := hcases.resolve_right fun hother => hother.2.elim hb hs
        exact (hnumber (Bool.and_eq_true_iff.1 hunsigned).2).symm
  · have hunsigned := hcases.resolve_right fun hother => hone hother.1
    rw [hx.inferType hone]
    exact (hnumber (Bool.and_eq_true_iff.1 hunsigned).2).symm

end RowLang
