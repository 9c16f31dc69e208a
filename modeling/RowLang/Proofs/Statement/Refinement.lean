import Mathlib
import RowLang.Pipeline
import RowLang.Proofs.Statement.Growth
import RowLang.Proofs.Statement.Lowered

/-! The parser lowers the tree of what it accepts. Whatever was attempted and undone before, an
accepted statement adds to the draft just the code, the marks and the types of its tree. -/

namespace RowLang

namespace Draft

structure Lowers (d d' : Draft) (code : Code) (typings : List Typing) (marks : Nat)
    (counts : Bool) : Prop where
  code : d'.code = d.code ++ code
  identifiers : d'.tables.identifiers = (d.tables.identifiers.typed typings).marked marks
  constants : d'.tables.constants =
    if counts then (d.tables.constants.intern (.number 1)).1 else d.tables.constants

def one (d : Draft) : Nat := (d.tables.constants.intern (.number 1)).2

section
variable {d d' d'' : Draft} {code code' : Code} {typings typings' : List Typing} {marks marks' : Nat}
  {counts counts' : Bool}

theorem Lowers.size (h : Lowers d d' code typings marks counts) :
    d'.tables.identifiers.size = d.tables.identifiers.size + marks := by
  simp [h.identifiers]

theorem Lowers.fits (h : Lowers d d' code typings marks counts) (hd : d.Fits) : d'.Fits := by
  rw [Fits, h.identifiers]
  exact hd.typed.marked

theorem Lowers.one_eq (h : Lowers d d' code typings marks counts) : d'.one = d.one := by
  rw [one, h.constants]
  split
  · rw [Constants.intern, Constants.intern, Constants.insert_insert]
    rfl
  · rfl

theorem Lowers.congr {d₀ d₀' : Draft} (h : Lowers d d' code typings marks counts)
    (hc : d₀.code = d.code) (ht : d₀.tables = d.tables) (hc' : d₀'.code = d'.code)
    (ht' : d₀'.tables = d'.tables) : Lowers d₀ d₀' code typings marks counts :=
  ⟨by rw [hc', hc, h.code], by rw [ht', ht, h.identifiers], by rw [ht', ht, h.constants]⟩

theorem Lowers.trans (h : Lowers d d' code typings marks counts)
    (h' : Lowers d' d'' code' typings' marks' counts')
    (hb : ∀ typing ∈ typings', typing.Below d.tables.identifiers.size) :
    Lowers d d'' (code ++ code') (typings ++ typings') (marks + marks') (counts || counts') := by
  refine ⟨?_, ?_, ?_⟩
  · rw [h'.code, h.code, List.append_assoc]
  · rw [h'.identifiers, h.identifiers, Identifiers.typed_marked (by simpa using hb),
      Identifiers.marked_marked, Identifiers.typed_append]
  · rw [h'.constants, h.constants]
    cases counts <;> cases counts' <;> simp [Constants.intern, Constants.insert_insert]

theorem lowers_emit (d : Draft) (records : Code) : Lowers d (d.emit records) records [] 0 false :=
  ⟨rfl, by simp [emit, Identifiers.marked, Identifiers.typed], rfl⟩

end

section
variable {t : Tables} {d : Draft}

theorem emit_emit (d : Draft) (first second : Code) :
    (d.emit first).emit second = d.emit (first ++ second) := by
  simp [emit]

theorem foldl_emitItem {items : List Item}
    (h : ∀ l, .operand l ∈ items → ∃ i, l.link = some i) (d : Draft) :
    items.foldl emitItem d = d.emit (recordsOf items) := by
  induction items generalizing d with
  | nil => simp [emit, recordsOf]
  | cons item items ih =>
    have hitem : d.emitItem item = d.emit item.records := by
      cases item with
      | operator op row => rfl
      | operand l =>
        obtain ⟨i, hi⟩ := h l List.mem_cons_self
        simp [emitItem, resolve_of_link hi, Item.records, hi]
    rw [List.foldl_cons, hitem, ih fun l hl => h l (List.mem_cons_of_mem item hl), emit_emit]
    rfl

theorem emitExpr_lexemes {e : Expr} (he : e.Ordered) (hl : AllLinked t e.lexemes) (d : Draft) :
    d.emitExpr e.lexemes = d.emit e.code := by
  rw [emitExpr, foldl_emitItem, Postorder.postorder_lexemes he, Expr.code]
  intro l hm
  obtain ⟨hl', ho⟩ := Postorder.of_operand_mem_outputFrom hm
  exact (hl l hl').exists_link ho

theorem setType_tables {i : Nat} {type : ValueType} :
    (d.setType i type).tables =
      { d.tables with identifiers := d.tables.identifiers.setType i type } := by
  unfold setType
  split
  · rename_i h
    have hle : d.tables.identifiers.entries.length ≤ i := by
      simpa [Identifiers.get?] using h
    have hsame : d.tables.identifiers.setType i type = d.tables.identifiers :=
      Identifiers.ext (List.modify_eq_self hle)
    rw [hsame]
  · rfl

theorem setType_code {i : Nat} {type : ValueType} : (d.setType i type).code = d.code := by
  unfold setType
  split <;> rfl

theorem lowers_setType (typing : Typing) {i : Nat} (h : typing.target.link = some i) :
    Lowers d (d.setType i (typing.source.type d.tables.identifiers)) [] [typing] 0 false := by
  refine ⟨by simp [setType_code], ?_, by simp [setType_tables]⟩
  rw [setType_tables, Identifiers.typed, List.foldl_cons, List.foldl_nil, Identifiers.applyTyping, h]
  simp [Identifiers.marked]

end
end Draft

namespace Expr

theorem three_le_priority {e : Expr} (he : e.Ordered) (hk : ∀ l ∈ e.lexemes, l.kind.inExpression) :
    3 ≤ e.priority := by
  cases e with
  | operand | group => simp [priority]
  | unary l e => exact le_trans (by decide) (priority_unary_ge l e)
  | binary a l b =>
    have hl := hk l (by simp [lexemes])
    have hj := he.1
    cases hkind : l.kind with
    | addOp s | multOp s | relOp s =>
      rw [priority, hkind]
      cases s <;> decide
    | powOp =>
      rw [priority, hkind]
      decide
    | _ => simp [hkind, joins, Kind.inExpression, Kind.inArithmetic, Kind.isRelOp] at hj hl

end Expr

theorem Assignable.inExpression {value : List Lexeme} (h : Assignable value) :
    ∀ l ∈ value, l.kind.inExpression := by
  rcases h with h | ⟨c, hc, rfl⟩
  · exact inExpression_of_isExpression h
  · simp [Lexeme.kind_of_isConstant hc, Kind.inExpression, Kind.inArithmetic]

theorem Simple.lexemes_ne_nil (s : Simple) : s.lexemes ≠ [] := by
  cases s with
  | definition d => cases d <;> simp [Simple.lexemes, Definition.lexemes]
  | _ => simp [Simple.lexemes]

theorem Block.lexemes_ne_nil (b : Block) (h : b ≠ .done) : b.lexemes ≠ [] := by
  cases b with
  | done => exact absurd rfl h
  | simple s rest => simp [Block.lexemes, s.lexemes_ne_nil]
  | loop => simp [Block.lexemes]

namespace Header

def loopWord : Header → LoopWord
  | whileLoop .. => .whileWord
  | forLoop .. => .forWord

theorem Proper.kind {h : Header} (hp : h.Proper) : h.word.kind = .loop h.loopWord := by
  cases h <;> exact hp.1

theorem lexemes_eq (h : Header) : ∃ rest, h.lexemes = h.word :: rest := by
  cases h <;> exact ⟨_, rfl⟩

end Header

namespace Definition
variable {d : Definition} {assignable : List Lexeme → Prop}

theorem ordered_binary {a : Expr} {sign : Lexeme} {value : Expr} (ha : a.Ordered)
    (hp : 2 ≤ a.priority) (hs : sign.kind = .assign) (hv : value.Ordered)
    (hk : ∀ l ∈ value.lexemes, l.kind.inExpression) : (Expr.binary a sign value).Ordered := by
  have hassign : Expr.joinPriority sign.kind = 2 := by rw [hs]; rfl
  have h3 := Expr.three_le_priority hv hk
  exact ⟨by rw [hs]; rfl, by omega, by omega, ha, hv⟩

theorem ordered_expr (h : d.Proper assignable)
    (ha : ∀ value, assignable value → ∀ l ∈ value, l.kind.inExpression) : d.expr.Ordered := by
  match d, h with
  | .declaration word name typing value, ⟨⟨declarator, hw, _⟩, hn, _, hv⟩ =>
    have hname : (Expr.operand name).Ordered := by
      simp [Expr.Ordered, Lexeme.kind_of_isIdentifier hn, Kind.isOperand]
    have hunary : (Expr.unary word (.operand name)).Ordered := by
      refine ⟨by rw [hw]; rfl, ?_, hname⟩
      simp [Expr.priority, hw]
    cases value with
    | none => exact hunary
    | some p =>
      obtain ⟨hs, hvo, hve⟩ := hv p rfl
      have h7 := Expr.priority_unary_ge word (.operand name)
      exact ordered_binary hunary (by omega) hs hvo (inExpression_of_isExpression hve)
  | .assignment name sign value, ⟨hn, hs, hv, hva⟩ =>
    have hname : (Expr.operand name).Ordered := by
      simp [Expr.Ordered, Lexeme.kind_of_isIdentifier hn, Kind.isOperand]
    exact ordered_binary hname (by simp [Expr.priority]) hs hv (ha _ hva)

theorem expr_lexemes_subset (d : Definition) : d.expr.lexemes ⊆ d.lexemes := by
  match d with
  | .declaration word name typing none => simp [expr, Expr.lexemes, lexemes]
  | .declaration word name typing (some p) =>
    intro l
    simp only [expr, Expr.lexemes, lexemes, Option.elim_some, List.mem_cons, List.mem_append,
      List.not_mem_nil, or_false]
    tauto
  | .assignment name sign value => simp [expr, Expr.lexemes, lexemes]

theorem name_mem (d : Definition) : d.name ∈ d.lexemes := by
  cases d <;> simp [name, lexemes]

theorem Proper.counter (h : d.Proper assignable) :
    2 ≤ d.lexemes.length ∧ Trial.counter? d.lexemes = some d.name ∧ d.name.isIdentifier := by
  match d, h with
  | .declaration word name typing value, ⟨⟨declarator, hw, _⟩, hn, _⟩ =>
    exact ⟨by simp [lexemes], by simp [Trial.counter?, lexemes, hw, Definition.name], hn⟩
  | .assignment name sign value, ⟨hn, _⟩ =>
    exact ⟨by simp [lexemes], by
      simp [Trial.counter?, lexemes, Lexeme.kind_of_isIdentifier hn, Definition.name], hn⟩

end Definition

section
variable {t : Tables} {l : Lexeme}

theorem Lexeme.LinkedIn.link_lt (h : l.LinkedIn t) (hi : l.isIdentifier) {i : Nat}
    (hl : l.link = some i) : i < t.identifiers.size := by
  obtain ⟨j, hj, e, he, -⟩ := h.2 (kind_of_isIdentifier hi)
  obtain rfl : j = i := by simpa [hj] using hl
  exact (List.getElem?_eq_some_iff.1 he).1

theorem TypeSource.ofValue_below {value : List Lexeme} (h : AllLinked t value) {i : Nat}
    (hs : TypeSource.ofValue value = .copied (some i)) : i < t.identifiers.size := by
  unfold ofValue at hs
  split at hs
  · simp at hs
  · split at hs
    · rename_i hid
      match value, hid with
      | [l], hid => exact (h l List.mem_cons_self).link_lt hid (by simpa using hs)
    · split at hs <;> simp at hs

theorem Typing.Below.mono {typing : Typing} {m n : Nat} (h : typing.Below m) (hmn : m ≤ n) :
    typing.Below n :=
  ⟨fun i hi => (h.1 i hi).trans_le hmn, fun i hi => (h.2 i hi).trans_le hmn⟩

theorem Definition.typings_below {d : Definition} {assignable : List Lexeme → Prop}
    (h : d.Proper assignable) (hl : AllLinked t d.lexemes) :
    ∀ typing ∈ d.typings, typing.Below t.identifiers.size := by
  match d, h with
  | .declaration word name (some p) value, ⟨_, hn, hp, _⟩ =>
    obtain ⟨type, ht⟩ := (hp p rfl).2
    simp only [lexemes, allLinked_cons] at hl
    refine List.forall_mem_singleton.2 ⟨fun i hi => hl.2.1.link_lt hn hi, ?_⟩
    simp [TypeSource.ofWord, ht]
  | .declaration word name none value, ⟨_, hn, _, _⟩ =>
    simp only [lexemes, allLinked_cons] at hl
    refine List.forall_mem_singleton.2 ⟨fun i hi => hl.2.1.link_lt hn hi, fun i hi => ?_⟩
    refine TypeSource.ofValue_below ?_ hi
    cases value <;> simp_all
  | .assignment .., _ => simp [typings]

theorem Simple.typings_below {s : Simple} (h : s.Proper) (hl : AllLinked t s.lexemes) :
    ∀ typing ∈ s.typings, typing.Below t.identifiers.size := by
  match s, h with
  | .definition d, h => exact d.typings_below h hl
  | .label mark colon, ⟨hm, _⟩ =>
    simp only [lexemes, allLinked_cons] at hl
    exact List.forall_mem_singleton.2 ⟨fun i hi => hl.1.link_lt hm hi, by simp⟩
  | .conditional .., _ | .goto .., _ => simp [typings]

theorem Header.typings_below {h : Header} (hp : h.Proper) (hl : AllLinked t h.lexemes) :
    ∀ typing ∈ h.typings, typing.Below t.identifiers.size := by
  match h, hp with
  | .whileLoop .., _ => simp [typings]
  | .forLoop word init toWord bound, ⟨_, hi, _⟩ =>
    simp only [lexemes, allLinked_cons, allLinked_append] at hl
    exact init.typings_below hi hl.2.1

theorem Block.typings_below {b : Block} (h : b.Proper) (hl : AllLinked t b.lexemes) :
    ∀ typing ∈ b.typings, typing.Below t.identifiers.size := by
  induction b with
  | done => simp [typings]
  | simple s rest ih =>
    obtain ⟨hls, hlr⟩ := allLinked_append.1 hl
    exact List.forall_mem_append.2 ⟨s.typings_below h.1 hls, ih h.2.2.2 hlr⟩
  | loop header o body c rest ihb ihr =>
    obtain ⟨hh, -, -, hb, -, -, -, hr⟩ := h
    simp only [lexemes, allLinked_append, allLinked_cons] at hl
    simp only [typings, List.forall_mem_append]
    exact ⟨⟨ihb hb hl.1.2.2.1, header.typings_below hh hl.1.1⟩, ihr hr hl.2⟩

end

namespace Trial
open Draft

section
variable {trial : Trial} {trials : List Trial} {d d' : Draft}

theorem firstOf_cons_of_accept (h : trial d = (d', true)) :
    firstOf (trial :: trials) d = (d', true) := by
  simp [firstOf, attempt, h]

theorem firstOf_cons_of_reject (h : trial d = (d, false)) :
    firstOf (trial :: trials) d = firstOf trials d := by
  simp [firstOf, attempt, h, rollback_self]

end

section
variable {t : Tables} {typing : Option (Lexeme × Lexeme)} {value : Option (Lexeme × Expr)}
  {word name sign : Lexeme} {e : Expr} {assignable : List Lexeme → Prop}

theorem read_declaration (h : (Definition.declaration word name typing value).Proper assignable) :
    ∃ type : Option TypeWord,
      Declaration.read (Definition.declaration word name typing value).lexemes =
        .form ⟨word, name, type, value.elim [] fun p => p.1 :: p.2.lexemes⟩ ∧
      (typing = none → type = none) ∧
      ∀ p ∈ typing, ∃ w, type = some w ∧ p.2.kind = .type w := by
  obtain ⟨⟨declarator, hw, hbare⟩, hn, ht, hv⟩ := h
  have htail : ∀ type : Option TypeWord, (typing ≠ none → type ≠ none) →
      Declaration.tailCause? declarator type (value.elim [] fun p => p.1 :: p.2.lexemes) = none := by
    intro type htype
    refine tailCause?_eq_none_iff.2 ?_
    cases value with
    | none => exact Or.inl ⟨rfl, (hbare rfl).1, htype (hbare rfl).2⟩
    | some p => exact Or.inr ⟨p.1, p.2.lexemes, (hv p rfl).1, (hv p rfl).2.2, rfl⟩
  cases typing with
  | none =>
    refine ⟨none, read_eq_form_iff.2 ⟨declarator, _, hw, hn, rfl, ?_, htail none (by simp)⟩,
      fun _ => rfl, by simp⟩
    refine splitTypeWord?_eq_some_iff.2 (Or.inl ⟨rfl, rfl, ?_⟩)
    cases value with
    | none => simp
    | some p => simp [(hv p rfl).1]
  | some p =>
    obtain ⟨hcolon, type, htype⟩ := ht p rfl
    refine ⟨some type, read_eq_form_iff.2 ⟨declarator, _, hw, hn, rfl, ?_, htail _ (by simp)⟩,
      by simp, by simpa using htype⟩
    exact splitTypeWord?_eq_some_iff.2 (Or.inr ⟨p.1, p.2, type, hcolon, htype, rfl, rfl⟩)

theorem lowerDeclaration_eq {form : Declaration} {i : Nat} (hi : form.name.link = some i)
    (d : Draft) : lowerDeclaration form d =
      (d.setType i (form.typeWord.elim (inferType d.tables.identifiers form.initializer)
        ValueType.ofWord)).emitExpr (form.word :: form.name :: form.tail) := by
  unfold lowerDeclaration
  rw [resolve_of_link hi]
  cases form.typeWord <;> rfl

theorem declaration_lowers (h : (Definition.declaration word name typing value).Proper assignable)
    (hl : AllLinked t (Definition.declaration word name typing value).lexemes) (d : Draft) :
    ∃ d', declaration (Definition.declaration word name typing value).lexemes d = (d', true) ∧
      Lowers d d' (Definition.declaration word name typing value).code
        (Definition.declaration word name typing value).typings 0 false := by
  obtain ⟨type, hread, hnone, hsome⟩ := read_declaration h
  have hn : name.isIdentifier := h.2.1
  have hordered : (Definition.declaration word name typing value).expr.Ordered :=
    Definition.ordered_expr (show Definition.Proper (fun _ => False) _ from h) (by simp)
  have hexpr : (Definition.declaration word name typing value).expr.lexemes =
      word :: name :: value.elim [] fun p => p.1 :: p.2.lexemes := by
    cases value <;> rfl
  obtain ⟨i, hi, -⟩ := (hl name (by simp [Definition.lexemes])).2 (Lexeme.kind_of_isIdentifier hn)
  obtain ⟨source, htypings, htype⟩ : ∃ source : TypeSource,
      (Definition.declaration word name typing value).typings = [⟨name, source⟩] ∧
      ∀ ids, type.elim (inferType ids (value.elim [] fun p => p.2.lexemes)) ValueType.ofWord =
        source.type ids := by
    cases typing with
    | none =>
      refine ⟨_, rfl, fun ids => ?_⟩
      rw [hnone rfl, Option.elim_none, inferType_eq]
    | some p =>
      obtain ⟨w, rfl, hw⟩ := hsome p rfl
      exact ⟨_, rfl, fun ids => by simp [TypeSource.ofWord, hw, TypeSource.type]⟩
  have hinit : (value.elim [] fun p => p.1 :: p.2.lexemes).drop 1 =
      value.elim [] fun p => p.2.lexemes := by
    cases value <;> rfl
  refine ⟨_, by rw [declaration, hread]; rfl, ?_⟩
  rw [htypings, lowerDeclaration_eq hi, Declaration.initializer, hinit, htype, ← hexpr,
    emitExpr_lexemes hordered (hl.sublist (Definition.expr_lexemes_subset _))]
  exact (lowers_setType ⟨name, source⟩ hi).trans (lowers_emit _ _) (by simp)

theorem assignment_lowers (h : (Definition.assignment name sign e).Proper (isExpression ·))
    (hl : AllLinked t (Definition.assignment name sign e).lexemes) (d : Draft) :
    ∃ d', assignment (Definition.assignment name sign e).lexemes d = (d', true) ∧
      Lowers d d' (Definition.assignment name sign e).code [] 0 false := by
  obtain ⟨hn, hs, -, hv⟩ := id h
  have hread : readAssignment (Definition.assignment name sign e).lexemes = .form name :=
    readAssignment_eq_form_iff.2 ⟨sign, e.lexemes, hn, hs, hv, rfl⟩
  have hordered := Definition.ordered_expr h fun _ h => inExpression_of_isExpression h
  refine ⟨_, by rw [assignment, hread]; rfl, ?_⟩
  change Lowers d (d.emitExpr (Definition.assignment name sign e).expr.lexemes) _ _ _ _
  rw [emitExpr_lexemes hordered hl]
  exact lowers_emit d _

theorem constantDefinition_lowers (h : (Definition.assignment name sign e).Proper Assignable)
    (hc : isConstantDefinition (Definition.assignment name sign e).lexemes)
    (hl : AllLinked t (Definition.assignment name sign e).lexemes) (d : Draft) :
    ∃ d', constantDefinition (Definition.assignment name sign e).lexemes d = (d', true) ∧
      Lowers d d' (Definition.assignment name sign e).code [] 0 false := by
  have hordered := Definition.ordered_expr h fun _ h => h.inExpression
  refine ⟨_, by rw [constantDefinition, if_pos hc], ?_⟩
  change Lowers d (d.emitExpr (Definition.assignment name sign e).expr.lexemes) _ _ _ _
  rw [emitExpr_lexemes hordered hl]
  exact lowers_emit d _

theorem declaration_other {l : Lexeme} (h : ∀ declarator, l.kind ≠ .declaration declarator)
    (ls : List Lexeme) (d : Draft) : declaration (l :: ls) d = (d, false) := by
  have hread : Declaration.read (l :: ls) = .other := by simp [Declaration.read]
  rw [declaration, hread]
  rfl

theorem init_lowers {init : Definition} (h : init.Proper (isExpression ·))
    (hl : AllLinked t init.lexemes) (d : Draft) :
    ∃ d', firstOf [declaration init.lexemes, assignment init.lexemes] d = (d', true) ∧
      Lowers d d' init.code init.typings 0 false := by
  cases init with
  | declaration word name typing value =>
    obtain ⟨d', hd, hlow⟩ := declaration_lowers h hl d
    exact ⟨d', firstOf_cons_of_accept hd, hlow⟩
  | assignment name sign value =>
    obtain ⟨d', hd, hlow⟩ := assignment_lowers h hl d
    have hother : declaration (Definition.assignment name sign value).lexemes d = (d, false) :=
      declaration_other (by simp [Lexeme.kind_of_isIdentifier h.1]) _ d
    exact ⟨d', by rw [firstOf_cons_of_reject hother, firstOf_cons_of_accept hd], hlow⟩

theorem constantDefinition_other {l : Lexeme} (h : l.kind ≠ .identifier) (ls : List Lexeme)
    (d : Draft) : constantDefinition (l :: ls) d = (d, false) := by
  have hno : isConstantDefinition (l :: ls) = false := by
    refine Bool.eq_false_iff.2 fun hc => ?_
    obtain ⟨name, _, _, hn, -, -, heq⟩ := isConstantDefinition_iff.1 hc
    obtain ⟨rfl, -⟩ := List.cons.inj heq
    exact h (Lexeme.kind_of_isIdentifier hn)
  simp [constantDefinition, hno]

theorem assignment_other {l : Lexeme} (h : l.kind ≠ .identifier) (ls : List Lexeme) (d : Draft) :
    assignment (l :: ls) d = (d, false) := by
  have hread : readAssignment (l :: ls) = .other := by
    cases ls <;> simp [readAssignment, Lexeme.isIdentifier, h]
  rw [assignment, hread]
  rfl

theorem loop_other {body : List Lexeme → Trial} {l : Lexeme} (h : ∀ word, l.kind ≠ .loop word)
    (ls : List Lexeme) (d : Draft) : loop body (l :: ls) d = (d, false) := by
  simp [loop, h]

theorem conditional_other {l : Lexeme} (h : l.kind ≠ .condition .ifWord) (ls : List Lexeme)
    (d : Draft) : conditional (l :: ls) d = (d, false) := by
  simp [conditional, Conditional.read, h, ofReading]

theorem goto_other {l : Lexeme} (h : l.kind ≠ .jump) (ls : List Lexeme) (d : Draft) :
    goto (l :: ls) d = (d, false) := by
  simp [goto, readGoto, h, ofReading]

theorem conditional_lowers {word : Lexeme} {condition : Expr} {thenWord jump mark : Lexeme}
    (h : (Simple.conditional word condition thenWord jump mark).Proper)
    (hl : AllLinked t (Simple.conditional word condition thenWord jump mark).lexemes) {d : Draft}
    (hd : d.Fits) :
    ∃ d', conditional (Simple.conditional word condition thenWord jump mark).lexemes d = (d', true) ∧
      Lowers d d' ((Simple.conditional word condition thenWord jump mark).code
        d.tables.identifiers.size) [] 1 false := by
  obtain ⟨hw, hco, hc, ht, hj, hm⟩ := h
  have hread : Conditional.read (Simple.conditional word condition thenWord jump mark).lexemes =
      .form ⟨word, condition.lexemes, jump, mark⟩ :=
    conditional_read_eq_form_iff.2 ⟨thenWord, hw, hc, ht, hj, hm, rfl⟩
  have hnc : mark.isConstant = false := by
    simp [Lexeme.isConstant, Lexeme.kind_of_isIdentifier hm]
  simp only [Simple.lexemes, allLinked_cons, allLinked_append] at hl
  obtain ⟨i, hi, -⟩ := hl.2.2.2.2.1.2 (Lexeme.kind_of_isIdentifier hm)
  refine ⟨_, by rw [conditional, hread]; rfl, ?_⟩
  simp only [lowerConditional, resolve_of_link hi, pushMark_eq hd, emitExpr_lexemes hco hl.2.1,
    emit_emit]
  refine ⟨?_, rfl, rfl⟩
  simp [emit, Simple.code, recordsOf, Item.records, hi, hnc]

theorem goto_lowers {word mark : Lexeme} (h : (Simple.goto word mark).Proper)
    (hl : AllLinked t (Simple.goto word mark).lexemes) (d : Draft) :
    ∃ d', goto (Simple.goto word mark).lexemes d = (d', true) ∧
      Lowers d d' ((Simple.goto word mark).code d.tables.identifiers.size) [] 0 false := by
  have hread : readGoto (Simple.goto word mark).lexemes = .form (word, mark) :=
    readGoto_eq_form_iff.2 ⟨h.1, h.2, rfl⟩
  have hnc : mark.isConstant = false := by
    simp [Lexeme.isConstant, Lexeme.kind_of_isIdentifier h.2]
  simp only [Simple.lexemes, allLinked_cons] at hl
  obtain ⟨i, hi, -⟩ := hl.2.1.2 (Lexeme.kind_of_isIdentifier h.2)
  refine ⟨_, by rw [goto, hread]; rfl, ?_⟩
  have hcode : (Simple.goto word mark).code d.tables.identifiers.size =
      [.identifier mark.row i, .op word.row .goto] := by
    simp [Simple.code, recordsOf, Item.records, hi, hnc]
  simp only [lowerGoto, resolve_of_link hi, hcode]
  exact lowers_emit d _

theorem label_lowers {mark colon : Lexeme} (h : (Simple.label mark colon).Proper)
    (hl : AllLinked t (Simple.label mark colon).lexemes) (d : Draft) :
    ∃ d', label (Simple.label mark colon).lexemes d = (d', true) ∧
      Lowers d d' ((Simple.label mark colon).code d.tables.identifiers.size)
        (Simple.label mark colon).typings 0 false := by
  have hread : readLabel (Simple.label mark colon).lexemes = .form (mark, colon) :=
    readLabel_eq_form_iff.2 ⟨h.1, h.2, rfl⟩
  have hnc : mark.isConstant = false := by
    simp [Lexeme.isConstant, Lexeme.kind_of_isIdentifier h.1]
  simp only [Simple.lexemes, allLinked_cons] at hl
  obtain ⟨i, hi, -⟩ := hl.1.2 (Lexeme.kind_of_isIdentifier h.1)
  refine ⟨_, by rw [label, hread]; rfl, ?_⟩
  have hcode : (Simple.label mark colon).code d.tables.identifiers.size =
      [.identifier mark.row i, .op colon.row .label] := by
    simp [Simple.code, recordsOf, Item.records, hi, hnc]
  simp only [lowerLabel, resolve_of_link hi, hcode]
  exact (lowers_setType ⟨mark, .known .mark⟩ hi).trans (lowers_emit _ _) (by simp)

theorem simple_lowers {body : List Lexeme → Trial} {s : Simple} (h : s.Proper)
    (hl : AllLinked t s.lexemes) {d : Draft} (hd : d.Fits) :
    ∃ d', statement body s.lexemes d = (d', true) ∧
      Lowers d d' (s.code d.tables.identifiers.size) s.typings s.marks false := by
  match s, h with
  | .definition (.declaration word name typing value), h =>
    have hp : (Definition.declaration word name typing value).Proper Assignable := h
    obtain ⟨d', hd', hlow⟩ := declaration_lowers hp hl d
    exact ⟨d', firstOf_cons_of_accept hd', hlow⟩
  | .definition (.assignment name sign e), h =>
    have hk : name.kind = .identifier := Lexeme.kind_of_isIdentifier h.1
    have hdecl : declaration (Definition.assignment name sign e).lexemes d = (d, false) :=
      declaration_other (by simp [hk]) _ d
    by_cases hc : isConstantDefinition (Definition.assignment name sign e).lexemes
    · obtain ⟨d', hd', hlow⟩ := constantDefinition_lowers h hc hl d
      exact ⟨d', by rw [Simple.lexemes, statement, firstOf_cons_of_reject hdecl,
        firstOf_cons_of_accept hd'], hlow⟩
    · have hconst : constantDefinition (Definition.assignment name sign e).lexemes d = (d, false) := by
        simp [constantDefinition, hc]
      have hexp : isExpression e.lexemes := by
        refine h.2.2.2.resolve_right ?_
        rintro ⟨l, hconstant, hle⟩
        exact hc (isConstantDefinition_iff.2 ⟨name, sign, l, h.1, h.2.1, hconstant, by
          rw [Definition.lexemes, hle]⟩)
      obtain ⟨d', hd', hlow⟩ := assignment_lowers ⟨h.1, h.2.1, h.2.2.1, hexp⟩ hl d
      exact ⟨d', by rw [Simple.lexemes, statement, firstOf_cons_of_reject hdecl,
        firstOf_cons_of_reject hconst, firstOf_cons_of_accept hd'], hlow⟩
  | .conditional word condition thenWord jump mark, h =>
    have hw : word.kind = .condition .ifWord := h.1
    obtain ⟨d', hd', hlow⟩ := conditional_lowers h hl hd
    refine ⟨d', ?_, hlow⟩
    rw [Simple.lexemes] at hd' ⊢
    rw [statement, firstOf_cons_of_reject (declaration_other (by simp [hw]) _ d),
      firstOf_cons_of_reject (constantDefinition_other (by simp [hw]) _ d),
      firstOf_cons_of_reject (assignment_other (by simp [hw]) _ d),
      firstOf_cons_of_reject (loop_other (by simp [hw]) _ d), firstOf_cons_of_accept hd']
  | .goto word mark, h =>
    have hw : word.kind = .jump := h.1
    obtain ⟨d', hd', hlow⟩ := goto_lowers h hl d
    refine ⟨d', ?_, hlow⟩
    rw [Simple.lexemes] at hd' ⊢
    rw [statement, firstOf_cons_of_reject (declaration_other (by simp [hw]) _ d),
      firstOf_cons_of_reject (constantDefinition_other (by simp [hw]) _ d),
      firstOf_cons_of_reject (assignment_other (by simp [hw]) _ d),
      firstOf_cons_of_reject (loop_other (by simp [hw]) _ d),
      firstOf_cons_of_reject (conditional_other (by simp [hw]) _ d), firstOf_cons_of_accept hd']
  | .label mark colon, h =>
    have hm : mark.kind = .identifier := Lexeme.kind_of_isIdentifier h.1
    have hconst : constantDefinition [mark, colon] d = (d, false) := by
      simp [constantDefinition, isConstantDefinition]
    have hassign : assignment [mark, colon] d = (d, false) := by
      simp [assignment, readAssignment, h.2, ofReading]
    obtain ⟨d', hd', hlow⟩ := label_lowers h hl d
    refine ⟨d', ?_, hlow⟩
    rw [Simple.lexemes] at hd' ⊢
    rw [statement, firstOf_cons_of_reject (declaration_other (by simp [hm]) _ d),
      firstOf_cons_of_reject hconst, firstOf_cons_of_reject hassign,
      firstOf_cons_of_reject (loop_other (by simp [hm]) _ d),
      firstOf_cons_of_reject (conditional_other (by simp [hm]) _ d),
      firstOf_cons_of_reject (goto_other (by simp [hm]) _ d), firstOf_cons_of_accept hd']

theorem whileLoop_lowers {word : Lexeme} {condition : Expr}
    (h : (Header.whileLoop word condition).Proper)
    (hl : AllLinked t (Header.whileLoop word condition).lexemes) (inner : Code) (endRow : Nat)
    {d : Draft} (hd : d.Fits) (one : Nat) :
    ∃ d', whileLoop (Header.whileLoop word condition).lexemes inner endRow d = (d', true) ∧
      Lowers d d' ((Header.whileLoop word condition).enter d.tables.identifiers.size
          (d.tables.identifiers.size + 1) ++ inner ++ (Header.whileLoop word condition).leave one
          d.tables.identifiers.size (d.tables.identifiers.size + 1) endRow) [] 2 false := by
  obtain ⟨-, hco, hc⟩ := h
  have hd' : (⟨⟨d.tables.constants, d.tables.identifiers.marked 1⟩, d.code, d.journal, d.diagnostics,
      d.depth⟩ : Draft).Fits := Identifiers.NamesFit.marked hd
  simp only [Header.lexemes, allLinked_cons] at hl
  refine ⟨_, by
    rw [whileLoop]
    simp only [Header.lexemes, List.drop_succ_cons, List.drop_zero, hc, if_true, pushMark_eq hd,
      pushMark_eq hd', emitExpr_lexemes hco hl.2, emit_emit]
    rfl, ?_⟩
  refine ⟨?_, Identifiers.marked_marked 1 1, rfl⟩
  simp [emit, Header.enter, Header.leave, Header.start, Header.test, Header.next, Header.word]

theorem forLoop_lowers {word : Lexeme} {init : Definition} {toWord : Lexeme} {bound : Expr}
    (h : (Header.forLoop word init toWord bound).Proper)
    (hl : AllLinked t (Header.forLoop word init toWord bound).lexemes) (inner : Code) (endRow : Nat)
    {d : Draft} (hd : d.Fits) :
    ∃ d', forLoop (Header.forLoop word init toWord bound).lexemes inner endRow d = (d', true) ∧
      Lowers d d' ((Header.forLoop word init toWord bound).enter d.tables.identifiers.size
          (d.tables.identifiers.size + 1) ++ inner ++
          (Header.forLoop word init toWord bound).leave d.one
          d.tables.identifiers.size (d.tables.identifiers.size + 1) endRow) init.typings 2 true := by
  obtain ⟨-, hi, ht, hbo, hb⟩ := h
  simp only [Header.lexemes, allLinked_cons, allLinked_append] at hl
  obtain ⟨-, hli, -, hlb⟩ := hl
  obtain ⟨hlen, hcounter, hname⟩ := hi.counter
  obtain ⟨i, hlink, -⟩ := (hli _ init.name_mem).2 (Lexeme.kind_of_isIdentifier hname)
  have hcut : cutBefore? isArithmetic (word :: (init.lexemes ++ toWord :: bound.lexemes)) =
      some ⟨(word :: init.lexemes).reverse, toWord, bound.lexemes⟩ :=
    cutBefore?_isArithmetic (word :: init.lexemes) toWord hb
  have hpos := List.length_pos_iff.2 bound.lexemes_ne_nil
  obtain ⟨d₁, hfirst, hlow⟩ := init_lowers hi hli d
  have hd₁ := hlow.fits hd
  have hd₂ : (⟨⟨d₁.tables.constants, d₁.tables.identifiers.marked 1⟩, d₁.code, d₁.journal,
      d₁.diagnostics, d₁.depth⟩ : Draft).Fits := Identifiers.NamesFit.marked hd₁
  have hone := hlow.one_eq
  have hsize := hlow.size
  have hrest : ∃ d', forLoop (Header.forLoop word init toWord bound).lexemes inner endRow d =
      (d', true) ∧ Lowers d₁ d' ([.identifier word.row d₁.tables.identifiers.size,
        .op word.row .label] ++ (Header.forLoop word init toWord bound).test ++
        [.identifier word.row (d₁.tables.identifiers.size + 1), .op word.row .branch] ++ inner ++
        (Header.forLoop word init toWord bound).leave d₁.one d₁.tables.identifiers.size
          (d₁.tables.identifiers.size + 1) endRow) [] 2 true := by
    refine ⟨_, by
      rw [forLoop, Header.lexemes, hcut, if_neg (by
        simp only [List.length_cons, List.length_append]
        omega)]
      simp only [ht, if_true, Cut.before, List.reverse_reverse, List.drop_succ_cons, List.drop_zero,
        hfirst, hcounter, resolve_of_link hlink, pushMark_eq hd₁, pushMark_eq hd₂, internValue,
        emitExpr_lexemes hbo hlb, emit_emit]
      rfl, ?_⟩
    refine ⟨?_, Identifiers.marked_marked 1 1, rfl⟩
    simp [emit, Header.leave, Header.test, Header.next, Lexeme.onRow, recordsOf, Item.records, hlink,
      Lexeme.isConstant, Lexeme.kind_of_isIdentifier hname, one]
  obtain ⟨d', hd', hlow'⟩ := hrest
  refine ⟨d', hd', ?_⟩
  have hall := hlow.trans hlow' (by simp)
  rw [hone, hsize] at hall
  simpa [Header.enter, Header.start, Header.word] using hall

theorem header_lowers {header : Header} (h : header.Proper) (hl : AllLinked t header.lexemes)
    (inner : Code) (endRow : Nat) {d : Draft} (hd : d.Fits) :
    ∃ d', (if header.loopWord = .whileWord then whileLoop header.lexemes inner endRow d
        else forLoop header.lexemes inner endRow d) = (d', true) ∧
      Lowers d d' (header.enter d.tables.identifiers.size (d.tables.identifiers.size + 1) ++ inner ++
        header.leave d.one d.tables.identifiers.size (d.tables.identifiers.size + 1) endRow)
        header.typings 2 header.counts := by
  cases header with
  | whileLoop word condition => exact whileLoop_lowers h hl inner endRow hd d.one
  | forLoop word init toWord bound => exact forLoop_lowers h hl inner endRow hd

theorem loop_lowers {header : Header} {o c : Lexeme} {body : Block} (hh : header.Proper)
    (ho : o.kind = .loop .doWord) (hc : c.kind = .loop .endWord)
    (hl : AllLinked t (header.lexemes ++ o :: (body.lexemes ++ [c]))) {d : Draft} (hd : d.Fits)
    (hsize : t.identifiers.size ≤ d.tables.identifiers.size)
    (hbody : ∀ d₀ : Draft, d₀.tables = d.tables → ∃ d', listed body.lexemes d₀ = (d', true) ∧
      Lowers d₀ d' (body.code d₀.one d₀.tables.identifiers.size) body.typings body.marks
        body.counts) :
    ∃ d', statement listed (header.lexemes ++ o :: (body.lexemes ++ [c])) d = (d', true) ∧
      Lowers d d' (header.enter (d.tables.identifiers.size + body.marks)
          (d.tables.identifiers.size + body.marks + 1) ++ body.code d.one d.tables.identifiers.size ++
          header.leave d.one (d.tables.identifiers.size + body.marks)
          (d.tables.identifiers.size + body.marks + 1) c.row)
        (body.typings ++ header.typings) (body.marks + 2) (body.counts || header.counts) := by
  have hlist : IsList body.lexemes := by
    obtain ⟨d', hd', -⟩ := hbody d rfl
    exact (decides_listed body.lexemes d).1 (congrArg Prod.snd hd')
  -- the search finds the body of the tree, and it was lowered last
  obtain ⟨front, last, hfront⟩ := (List.eq_nil_or_concat header.lexemes).resolve_left (by
    cases header <;> simp [Header.lexemes])
  rw [List.concat_eq_append] at hfront
  have hcut : (⟨front.reverse, last, o :: (body.lexemes ++ [c])⟩ : Cut) ∈
      cuts (header.lexemes ++ o :: (body.lexemes ++ [c])) :=
    mem_cuts_iff.2 ⟨by simp [Cut.before, hfront], by simp⟩
  have hinside : insideBody? (o :: (body.lexemes ++ [c])) = some body.lexemes :=
    insideBody?_eq_some_iff.2 ⟨o, c, ho, hc, rfl⟩
  have hseek := (seekBody_eq_some_iff decides_listed (fun _ h => h.nests) (d := d)).2
    ⟨hcut, body.lexemes, hinside, hlist⟩
  have hgrows : ∀ c' ∈ cuts (header.lexemes ++ o :: (body.lexemes ++ [c])), ∀ inside,
      insideBody? c'.suffix = some inside → (listed inside).Grows :=
    fun c' hc' inside hi => grows_listed (linked_of_insideBody? hl hc' hi)
  obtain ⟨-, inside, ds, hi, hfound⟩ := seekBody_found hgrows hd hseek
  obtain rfl : inside = body.lexemes := by simpa [hinside] using hi.symm
  obtain ⟨d₀, hlisted, hlow⟩ := hbody { d with diagnostics := ds, depth := d.depth + 1 } rfl
  have hstate : seekBody listed (cuts (header.lexemes ++ o :: (body.lexemes ++ [c]))) d =
      ({ d₀ with depth := d.depth }, some ⟨front.reverse, last, o :: (body.lexemes ++ [c])⟩) := by
    refine Prod.ext ?_ hseek
    simp only [loopBody, hlisted, Prod.mk.injEq, and_true] at hfound
    exact hfound.symm
  have hcode : d₀.code = d.code ++ body.code d.one d.tables.identifiers.size := hlow.code
  have hlow₁ : Lowers d { d₀ with code := d.code, diagnostics := d.diagnostics, depth := d.depth } []
      body.typings body.marks body.counts :=
    ⟨(List.append_nil _).symm, hlow.identifiers, hlow.constants⟩
  have hlh := (allLinked_append.1 hl).1
  obtain ⟨d', hd', hlow₂⟩ := header_lowers hh hlh (body.code d.one d.tables.identifiers.size) c.row
    (hlow₁.fits hd)
  obtain ⟨rest, hrest⟩ := header.lexemes_eq
  have hkind := hh.kind
  have hloop : loop listed (header.lexemes ++ o :: (body.lexemes ++ [c])) d = (d', true) := by
    have hhead : (header.lexemes ++ o :: (body.lexemes ++ [c])).head?.map Lexeme.kind =
        some (.loop header.loopWord) := by simp [hrest, hkind]
    have hword : header.loopWord = .forWord ∨ header.loopWord = .whileWord := by
      cases header <;> simp [Header.loopWord]
    have hend : ((header.lexemes ++ o :: (body.lexemes ++ [c])).getLast?.map Lexeme.row).getD 0 =
        c.row := by
      rw [← List.cons_append, ← List.append_assoc, List.getLast?_concat]
      rfl
    simp only [loop, hhead, if_pos hword, hstate, hcode, List.drop_left, List.take_left, Cut.before,
      List.reverse_reverse, ← hfront, hend]
    exact hd'
  refine ⟨d', ?_, ?_⟩
  · rw [hrest] at hloop ⊢
    rw [List.cons_append] at hloop ⊢
    rw [statement, firstOf_cons_of_reject (declaration_other (by simp [hkind]) _ d),
      firstOf_cons_of_reject (constantDefinition_other (by simp [hkind]) _ d),
      firstOf_cons_of_reject (assignment_other (by simp [hkind]) _ d), firstOf_cons_of_accept hloop]
  · have hall := hlow₁.trans hlow₂ fun typing ht =>
      (header.typings_below hh hlh typing ht).mono hsize
    rwa [hlow₁.one_eq, hlow₁.size, List.nil_append] at hall

/-- The rows of a statement are tried one front after the other; the shorter fronts leave nothing, and
all of them together are accepted. -/
theorem statementRuns_append {ls : List Lexeme} (runs : List (List Lexeme)) {d : Draft}
    {p : Draft → Prop} (hne : ls ≠ []) (hmin : Minimal ls) (hl : AllLinked t ls) (hd : d.Fits)
    (hacc : ∀ ds, ∃ d', statement listed ls { d with diagnostics := ds } = (d', true) ∧ p d') :
    ∃ d' ds, p d' ∧ statementRuns (statement listed) (rowRuns ls ++ runs) none d =
      statementRuns (statement listed) runs none { d' with diagnostics := ds } := by
  -- induction on the rows still to come, the others being pending
  suffices h : ∀ (todo front : List (List Lexeme)) (earlier ds : List Diagnostic), todo ≠ [] →
      rowRuns ls = front ++ todo → ∃ d' ds', p d' ∧
        statementRuns (statement listed) (todo ++ runs)
          (if front = [] then none else some (front.flatten, earlier)) { d with diagnostics := ds } =
        statementRuns (statement listed) runs none { d' with diagnostics := ds' } by
    exact h (rowRuns ls) [] [] d.diagnostics (by simpa [rowRuns] using hne) rfl
  intro todo
  induction todo with
  | nil => simp
  | cons run todo ih =>
    intro front earlier ds _ hsplit
    have hflat : ∀ ds', ((if front = [] then none else some (front.flatten, earlier) :
        Option (List Lexeme × List Diagnostic)).getD ([], ds')).1 ++ run =
          (front ++ [run]).flatten := by
      intro ds'
      split <;> simp [*]
    obtain ⟨ds₀, hclean⟩ : ∃ ds₀, (if ({ d with diagnostics := ds } : Draft).depth = 0 then
        { d with diagnostics := [] } else { d with diagnostics := ds }) =
        { d with diagnostics := ds₀ } := by
      split
      · exact ⟨[], rfl⟩
      · exact ⟨ds, rfl⟩
    rw [List.cons_append, statementRuns]
    simp only [hclean, hflat]
    cases htodo : todo with
    | nil =>
      have hls : (front ++ [run]).flatten = ls := by
        rw [← htodo, ← hsplit, rowRuns, List.flatten_splitBy]
      obtain ⟨d', hd', hp⟩ := hacc ds₀
      rw [hls, hd']
      exact ⟨d', _, hp, rfl⟩
    | cons next more =>
      have happ : rowRuns ls = (front ++ [run]) ++ todo := by simp [hsplit]
      have hno : ¬ IsStatement (front ++ [run]).flatten := by
        refine hmin (front ++ [run]) ⟨todo, happ.symm⟩ ?_
        rw [happ, htodo]
        simp
      have hlinked : AllLinked t (front ++ [run]).flatten := by
        refine hl.sublist ?_
        have hall : (rowRuns ls).flatten = ls := List.flatten_splitBy ..
        have hparts : ((front ++ [run]) ++ todo).flatten =
            (front ++ [run]).flatten ++ todo.flatten := List.flatten_append
        rw [← hall, happ, hparts]
        exact List.subset_append_left _ _
      have hrej : (statement listed (front ++ [run]).flatten { d with diagnostics := ds₀ }).2 = false :=
        Bool.eq_false_iff.2 fun h => hno ((decides_statement_listed _ _).1 h)
      obtain ⟨ds₁, hd₁⟩ := statement_rejected (fun _ => grows_listed) hlinked (by exact hd) hrej
      rw [hd₁, ← htodo]
      have hnext := ih (front ++ [run])
      simp only [List.append_eq_nil_iff, List.cons_ne_self, and_false, if_false] at hnext
      exact hnext _ ds₁ (by simp [htodo]) happ

end

section
variable {t : Tables} {b rest : Block} {d : Draft}

theorem block_cons {ls : List Lexeme} {code : Code} {typings : List Typing} {marks : Nat}
    {counts : Bool} (hne : ls ≠ []) (hmin : Minimal ls) (hapart : Apart ls rest.lexemes)
    (hrest : rest.Proper) (hl : AllLinked t (ls ++ rest.lexemes)) (hd : d.Fits)
    (hsize : t.identifiers.size ≤ d.tables.identifiers.size)
    (hacc : ∀ ds, ∃ d', statement listed ls { d with diagnostics := ds } = (d', true) ∧
      Lowers d d' code typings marks counts)
    (ih : ∀ {d : Draft}, d.Fits → t.identifiers.size ≤ d.tables.identifiers.size →
      ∃ d', statementRuns (statement listed) (rowRuns rest.lexemes) none d = (d', none) ∧
        Lowers d d' (rest.code d.one d.tables.identifiers.size) rest.typings rest.marks rest.counts) :
    ∃ d', statementRuns (statement listed) (rowRuns (ls ++ rest.lexemes)) none d = (d', none) ∧
      Lowers d d' (code ++ rest.code d.one (d.tables.identifiers.size + marks))
        (typings ++ rest.typings) (marks + rest.marks) (counts || rest.counts) := by
  obtain ⟨hls, hlr⟩ := allLinked_append.1 hl
  obtain ⟨d₁, ds, hlow₁, hruns⟩ := statementRuns_append (rowRuns rest.lexemes) hne hmin hls hd hacc
  have hsz := hlow₁.size
  obtain ⟨d₂, hd₂, hlow₂⟩ := ih (d := { d₁ with diagnostics := ds }) (hlow₁.fits hd)
    (by simp only; omega)
  have hlow₂ : Lowers d₁ d₂ (rest.code d₁.one d₁.tables.identifiers.size) rest.typings rest.marks
      rest.counts := hlow₂.congr rfl rfl rfl rfl
  rw [hlow₁.one_eq, hsz] at hlow₂
  exact ⟨d₂, by rw [hapart, hruns, hd₂], hlow₁.trans hlow₂ fun typing ht =>
    (rest.typings_below hrest hlr typing ht).mono hsize⟩

theorem block_lowers (h : b.Proper) (hl : AllLinked t b.lexemes) (hd : d.Fits)
    (hsize : t.identifiers.size ≤ d.tables.identifiers.size) :
    ∃ d', statementRuns (statement listed) (rowRuns b.lexemes) none d = (d', none) ∧
      Lowers d d' (b.code d.one d.tables.identifiers.size) b.typings b.marks b.counts := by
  induction b generalizing d with
  | done =>
    exact ⟨d, rfl, by simp [Block.code], by simp [Block.typings, Block.marks, Identifiers.typed,
      Identifiers.marked], rfl⟩
  | simple s rest ih =>
    obtain ⟨hs, hmin, hapart, hrest⟩ := h
    obtain ⟨hls, hlr⟩ := allLinked_append.1 hl
    have hacc : ∀ ds, ∃ d', statement listed s.lexemes { d with diagnostics := ds } = (d', true) ∧
        Lowers d d' (s.code d.tables.identifiers.size) s.typings s.marks false := by
      intro ds
      obtain ⟨d', hd', hlow⟩ := simple_lowers (d := { d with diagnostics := ds }) hs hls hd
      exact ⟨d', hd', hlow.congr rfl rfl rfl rfl⟩
    exact block_cons s.lexemes_ne_nil hmin hapart hrest hl hd hsize hacc (ih hrest hlr)
  | loop header o body c rest ihb ihr =>
    obtain ⟨hh, ho, hne, hbody, hc, hmin, hapart, hrest⟩ := h
    obtain ⟨hls, hlr⟩ := allLinked_append.1 hl
    have hlb : AllLinked t body.lexemes := by
      simp only [allLinked_append, allLinked_cons] at hls
      exact hls.2.2.1
    -- the body may be tried again, with other diagnostics but from the same tables
    have hlisted : ∀ d₀ : Draft, d₀.tables = d.tables → ∃ d', listed body.lexemes d₀ = (d', true) ∧
        Lowers d₀ d' (body.code d₀.one d₀.tables.identifiers.size) body.typings body.marks
          body.counts := by
      intro d₀ ht
      obtain ⟨d', hd', hlow⟩ := ihb hbody hlb (d := d₀) (by rw [Fits, ht]; exact hd) (by rwa [ht])
      refine ⟨d', ?_, hlow⟩
      rw [listed_eq (body.lexemes_ne_nil hne), hd']
      rfl
    have hacc : ∀ ds, ∃ d', statement listed (header.lexemes ++ o :: (body.lexemes ++ [c]))
        { d with diagnostics := ds } = (d', true) ∧
        Lowers d d' (header.enter (d.tables.identifiers.size + body.marks)
          (d.tables.identifiers.size + body.marks + 1) ++ body.code d.one d.tables.identifiers.size ++
          header.leave d.one (d.tables.identifiers.size + body.marks)
          (d.tables.identifiers.size + body.marks + 1) c.row)
        (body.typings ++ header.typings) (body.marks + 2) (body.counts || header.counts) := by
      intro ds
      obtain ⟨d', hd', hlow⟩ := loop_lowers (d := { d with diagnostics := ds }) hh ho hc hls hd hsize
        hlisted
      exact ⟨d', hd', hlow.congr rfl rfl rfl rfl⟩
    have hall := block_cons (by simp) hmin hapart hrest hl hd hsize hacc (ihr hrest hlr)
    rwa [← Nat.add_assoc] at hall

end
end Trial

theorem Constants.intern_one (t : Constants) :
    (t.intern (.number 1)).1.entries = t.entries ++
      if ∀ c ∈ t.entries, c.text ≠ "1" then [⟨"1", .number 1, t.size⟩] else [] := by
  have htext : Literal.text (.number 1) = "1" := by decide +kernel
  rw [intern, htext, insert]
  split
  · rename_i i hi
    obtain ⟨c, hc, htext⟩ := get?_of_indexOf? hi
    rw [if_neg fun h => h c (List.mem_of_getElem? hc) htext, List.append_nil]
  · rename_i hi
    have hnone : ∀ c ∈ t.entries, c.text ≠ "1" := fun c hc => by
      simpa using List.findIdx?_eq_none_iff.1 hi c hc
    rw [if_pos hnone]

theorem isList_of_parse {lexemes : List Lexeme} {tables : Tables} {program : Program}
    (h : parse lexemes tables = .ok program) : IsList lexemes := by
  have hne : lexemes ≠ [] := by
    rintro rfl
    simp [parse] at h
  rw [parse, if_neg hne, Trial.statementList_eq, if_neg hne] at h
  refine (Trial.decides_listed _ { tables }).1 ?_
  rw [Trial.listed_eq hne]
  split at h
  · simp [*]
  · simp at h

theorem Settings.parse_of_compile {s : Settings} {source : String} {compiled : Compiled}
    (h : s.compile source = .ok compiled) : compiled.lexemes = (lex source).lexemes ∧
      parse (lex source).lexemes (lex source).tables = .ok compiled.program := by
  rw [compile] at h
  split at h
  · simp at h
  · split at h
    · rename_i program hprogram
      cases h
      exact ⟨rfl, hprogram⟩
    · simp at h

theorem eq_lower_of_parse {source : String} {program : Program} {b : Block}
    (h : parse (lex source).lexemes (lex source).tables = .ok program)
    (hb : b.Reads (lex source).lexemes) : program = b.lower (lex source).tables := by
  obtain ⟨hlexed, hlinked⟩ := lex_spec source
  obtain ⟨hproper, hlex⟩ := hb
  obtain ⟨d', hd', hlow⟩ := Trial.block_lowers hproper (by rwa [hlex])
    (d := { tables := (lex source).tables }) hlexed.namesFit le_rfl
  have hne := (isList_iff.1 (isList_of_parse h)).1
  rw [parse, if_neg hne, Trial.statementList_eq, if_neg hne, ← hlex] at h
  simp only [hd', Except.ok.injEq] at h
  have hcode := hlow.code
  have htables : d'.tables = (b.lower (lex source).tables).tables := by
    cases htab : d'.tables
    simp only [Block.lower, Tables.mk.injEq]
    exact ⟨by rw [← hlow.constants, htab], by rw [← hlow.identifiers, htab]⟩
  rw [← h, htables, hcode]
  rfl

/-- What a lexed source is parsed to is the lowering of its tree, which there is. The table of constants
is the lexed one, with `1` behind it if something counts and it was not there; the table of
identifiers has the lexed names, of the type they were given last, and behind them the marks. -/
theorem parse_eq_lower {source : String} {program : Program}
    (h : parse (lex source).lexemes (lex source).tables = .ok program) :
    (∃ b : Block, b.Reads (lex source).lexemes) ∧
    ∀ b : Block, b.Reads (lex source).lexemes →
      program = b.lower (lex source).tables ∧
      program.tables.constants.entries = (lex source).tables.constants.entries ++
        (if b.counts ∧ ∀ c ∈ (lex source).tables.constants.entries, c.text ≠ "1" then
          [⟨"1", .number 1, (lex source).tables.constants.size⟩] else []) ∧
      program.tables.identifiers.entries.drop (lex source).tables.identifiers.size =
        (List.range' (lex source).tables.identifiers.size b.marks).map Identifiers.markAt ∧
      ∀ i entry, (lex source).tables.identifiers.get? i = some entry →
        ∃ type, program.tables.identifiers.get? i = some { entry with type } ∧
          ((∀ typing ∈ b.typings, typing.target.link ≠ some i) → type = .undef) ∧
          ∀ before typing after, b.typings = before ++ typing :: after →
            typing.target.link = some i → (∀ x ∈ after, x.target.link ≠ some i) →
            type = typing.source.type ((lex source).tables.identifiers.typed before) := by
  refine ⟨(isList_of_parse h).exists_tree.imp fun b hb => hb.2, ?_⟩
  intro b hb
  have hprogram := eq_lower_of_parse h hb
  subst hprogram
  refine ⟨rfl, ?_, ?_, ?_⟩
  · simp only [Block.lower]
    cases b.counts <;> simp [Constants.intern_one]
  · simp only [Block.lower, Identifiers.marked, Identifiers.size_typed]
    have hsize : ((lex source).tables.identifiers.typed b.typings).size =
        (lex source).tables.identifiers.size := Identifiers.size_typed
    rw [← hsize, Identifiers.size, List.drop_left]
  · intro i entry hentry
    have hlt : i < ((lex source).tables.identifiers.typed b.typings).size := by
      rw [Identifiers.size_typed]
      exact (List.getElem?_eq_some_iff.1 hentry).1
    obtain ⟨type, htype⟩ := Identifiers.get?_typed hentry b.typings
    refine ⟨type, by rw [Block.lower, Identifiers.get?_marked hlt, htype], ?_, ?_⟩
    · intro hnone
      rw [Identifiers.get?_typed_of_ne hnone, hentry] at htype
      exact (congrArg Identifier.type (Option.some.inj htype)).symm.trans
        ((lex_spec source).1.untouched entry (List.mem_of_getElem? hentry)).1
    · intro before typing after heq htarget hafter
      rw [heq, Identifiers.get?_typed_last hentry htarget hafter] at htype
      exact (congrArg Identifier.type (Option.some.inj htype)).symm

theorem exists_of_any {ε α : Type} {r : Except ε α} {p : α → Bool} (h : r.toOption.any p) :
    ∃ a, r = .ok a ∧ p a := by
  cases r with
  | error e => simp [Except.toOption] at h
  | ok a => exact ⟨a, rfl, h⟩

/-- A declaration over two rows, and a loop with a jump out of its body. -/
theorem parse_eq_lower_of_joined_rows : ∃ source program,
    source = "var n\n= 3\nfor var i = 0 to n do if i > 1 then goto out end\nout :" ∧
    parse (lex source).lexemes (lex source).tables = .ok program ∧
    ∃ b : Block, b.Reads (lex source).lexemes ∧ program = b.lower (lex source).tables := by
  obtain ⟨program, hp, -⟩ := exists_of_any
    (r := parse (lex "var n\n= 3\nfor var i = 0 to n do if i > 1 then goto out end\nout :").lexemes
      (lex "var n\n= 3\nfor var i = 0 to n do if i > 1 then goto out end\nout :").tables)
    (p := fun _ => true) (by decide +kernel)
  obtain ⟨⟨b, hb⟩, hall⟩ := parse_eq_lower hp
  exact ⟨_, program, rfl, hp, b, hb, (hall b hb).1⟩

end RowLang
