import Mathlib
import RowLang.Proofs.Meaning.Straight
import RowLang.Proofs.Statement.Rendering

/-! Types that declarations infer, and the values they get. An initializer is either a single operand among
brackets and plus signs or ends in an operator, which alone fixes the type of the result. While it runs, the
declared name lies below on the stack and has no value, so that no operator takes it away. -/

namespace RowLang

/-- The lexemes of an initializer tell its type: where they come to a single operand, a name stands alone
and has a link, and a constant that has a link has it to the entry with its text. -/
structure Telling (t : Constants) (value : List Lexeme) : Prop where
  shape : isExpression value
  name : ∀ x, Wraps x value → x.isIdentifier → value = [x] ∧ x.link.isSome
  constant : ∀ x, Wraps x value → x.isConstant →
    ∀ i ∈ x.link, ∃ c, t.get? i = some c ∧ c.text = x.text

/-- The machine has come to the records, over tables that still have the types of the given ones. -/
structure Machine.At (t : Tables) (records : Code) (m : Machine) : Prop where
  ahead : records <+: m.code.drop m.cursor
  keeps : t.Keeps m.tables
  sound : m.tables.constants.Sound

namespace Tables
variable {t : Tables} {i : Nat} {v : Literal}

theorem resolve_identifier_iff : t.resolve (.identifier i) = .ok v ↔
    ∃ e, t.identifiers.get? i = some e ∧ e.binding = .value v := by
  constructor
  · intro h
    obtain ⟨e, he, h⟩ := bind_eq_ok h
    refine ⟨e, get?_of_identifier he, ?_⟩
    split at h
    · rename_i hbinding
      cases h
      exact hbinding
    · cases h
  · rintro ⟨e, he, hbinding⟩
    simp only [resolve, identifier, he, bind, Except.bind, hbinding]

end Tables

theorem inferType_of_name {x : Lexeme} (hx : x.isIdentifier) (ids : Identifiers) :
    inferType ids [x] = ((x.link.bind ids.get?).map Identifier.type).getD .undef := by
  have hstring : isString [x] = false := by
    simp [isString, Lexeme.isConstant, Lexeme.kind_of_isIdentifier hx]
  rw [inferType, hstring, if_neg Bool.false_ne_true, if_pos (show isIdentifier [x] from hx)]
  rfl

namespace Machine
variable {d : Draft} {value : List Lexeme} {records : Code} {m m' : Machine} {ref : Ref} {v : Literal}

theorem run_operand {x : Lexeme} (hrecords : (d.emitItem (.operand x)).code = d.code ++ records)
    (hahead : records <+: m.code.drop m.cursor) (hrun : m.run records.length = (.running, m'))
    (hstack : m'.stack = ref :: m.stack) :
    ∃ d₁ i, d.resolve x = (d₁, some i) ∧ (d.emitItem (.operand x)).tables = d₁.tables ∧
      m'.tables = m.tables ∧ ref = if x.isConstant then .constant i else .identifier i := by
  obtain ⟨hcode, -, -⟩ := d.resolve_spec x
  cases hx : d.resolve x with
  | mk d₁ index =>
    rw [hx] at hcode
    simp only at hcode
    rw [Draft.emitItem, hx] at hrecords ⊢
    cases index with
    | none =>
      have hnil : records = [] := List.append_right_eq_self.1 (hrecords.symm.trans hcode)
      subst hnil
      cases hrun
      exact absurd (congrArg List.length hstack) (by simp)
    | some i =>
      simp only [Draft.emit, hcode] at hrecords
      obtain rfl := List.append_cancel_left hrecords
      have hexecute := (executes_of_running (getElem?_of_ahead hahead) (advance_of_run_one hrun)).eq
      split_ifs at hexecute ⊢ <;> cases hexecute <;>
        exact ⟨d₁, i, rfl, rfl, rfl, (List.cons.inj hstack).1.symm⟩

theorem type_of_operator {front : List Item} {op : Operator} {row : Nat} {type : ValueType}
    (hv : isExpression value) (hitems : postorder value = front ++ [.operator op row])
    (hop : op.valueType? = some type) (hrecords : (d.emitExpr value).code = d.code ++ records)
    (hm : m.At (d.emitExpr value).tables records) (hrun : m.run records.length = (.running, m'))
    (hstack : m'.stack = ref :: m.stack) (hresolve : m'.tables.resolve ref = .ok v) : v.type = type := by
  obtain ⟨-, code, hcode, hrenders, -⟩ := Draft.renders_emitExpr value d
  obtain rfl : records = code := List.append_cancel_left (hrecords.symm.trans hcode)
  have hplain := hrenders.plain (plain_of_isExpression hv).1
  rw [hitems] at hrenders
  obtain ⟨code, rfl, -⟩ := hrenders.exists_concat
  rw [List.forall_mem_append] at hplain
  rw [List.length_append] at hrun
  obtain ⟨middle, hfront, hlast⟩ := run_split hrun
  have hreckons := reckons_of_run hplain.1 ((List.prefix_append _ _).trans hm.ahead) hfront
  have hsound := run_induction (P := fun m => m.tables.constants.Sound)
    (fun _ => constantsSound_advance) code.length hm.sound
  rw [hfront] at hsound
  obtain ⟨w, i, stack, hw, hpushed, hvalue⟩ := resolve_of_running hsound
    (getElem?_of_ahead (ahead_of_cursor code hm.ahead hreckons.code hreckons.cursor)) rfl
    (Operator.of_valueType? hop) (advance_of_run_one hlast)
  obtain ⟨rfl, -⟩ := List.cons.inj (hstack.symm.trans hpushed)
  obtain rfl : v = w := Except.ok.inj (hresolve.symm.trans hvalue)
  exact hw.type_eq hop

theorem type_or_name (hv : isExpression value)
    (hconstant : ∀ x, Wraps x value → x.isConstant →
      ∀ i ∈ x.link, ∃ c, d.tables.constants.get? i = some c ∧ c.text = x.text)
    (hrecords : (d.emitExpr value).code = d.code ++ records)
    (hm : m.At (d.emitExpr value).tables records)
    (hrun : m.run records.length = (.running, m')) (hstack : m'.stack = ref :: m.stack)
    (hresolve : m'.tables.resolve ref = .ok v) :
    (∀ ids, inferType ids value = v.type) ∨
      ∃ x i, Wraps x value ∧ x.isIdentifier ∧ (d.resolve x).2 = some i ∧
        (d.emitExpr value).tables = (d.resolve x).1.tables ∧ ref = .identifier i := by
  rcases postorder_cases hv with ⟨x, hitems, hx⟩ | ⟨front, op, row, type, hitems, hop, htype⟩
  · have hemit : d.emitExpr value = d.emitItem (.operand x) := by
      rw [Draft.emitExpr, hitems]
      rfl
    rw [hemit] at hrecords hm ⊢
    obtain ⟨d₁, i, hx₁, htables, hsame, rfl⟩ := run_operand hrecords hm.ahead hrun hstack
    by_cases hc : x.isConstant
    · rw [if_pos hc, hsame] at hresolve
      obtain ⟨c, hget, rfl⟩ := Tables.resolve_constant_iff.1 hresolve
      obtain ⟨c', hget', htext⟩ := Draft.text_of_resolve hx₁ hc (hconstant x hx hc)
      rw [← htables] at hget'
      have hkept := getElem?_of_prefix hm.keeps.constants hget'
      obtain rfl : c = c' := Option.some.inj (hget.symm.trans hkept)
      have hread := hm.sound c (List.mem_of_getElem? hget)
      rw [htext] at hread
      exact Or.inl (hx.inferType_eq_type hv hc hread)
    · refine Or.inr ⟨x, i, hx, ?_, by rw [hx₁], by rw [hx₁, htables], by rw [if_neg hc]⟩
      have hoperand := hx.operand
      cases hk : x.kind <;> simp_all [Kind.isOperand, Lexeme.isConstant, Lexeme.isIdentifier]
  · have hvalue := type_of_operator hv hitems hop hrecords hm hrun hstack hresolve
    exact Or.inl fun ids => (htype ids).trans hvalue.symm

/-- The name that is declared has no value, so the records of its initializer leave it on the stack, and
they leave at most one operand above it. -/
theorem stack_of_initializer {base : List Ref} {j : Nat} (hv : isExpression value)
    (hrecords : (d.emitExpr value).code = d.code ++ records) (hahead : records <+: m.code.drop m.cursor)
    (hrun : m.run records.length = (.running, m')) (hstack : m.stack = .identifier j :: base)
    (hj : ∀ v, m.tables.resolve (.identifier j) ≠ .ok v) :
    m.Reckons records.length (records.map fun record => record.instr.gain).sum m' ∧
      (m'.stack = m.stack ∨ ∃ ref, m'.stack = ref :: m.stack) := by
  obtain ⟨-, code, hcode, hrenders, -⟩ := Draft.renders_emitExpr value d
  obtain rfl : records = code := List.append_cancel_left (hrecords.symm.trans hcode)
  obtain ⟨hplain, hgain⟩ := plain_of_isExpression hv
  have hreckons := reckons_of_run (hrenders.plain hplain) hahead hrun
  refine ⟨hreckons, ?_⟩
  obtain ⟨top, htop⟩ : m.stack <:+ m'.stack := by
    rw [hstack]
    exact hreckons.spares j base hj (by rw [hstack])
  have hle := hrenders.gain_le
  have hlength := hreckons.length
  rw [← htop, List.length_append] at hlength
  rw [← htop]
  rcases top with _ | ⟨ref, _ | ⟨ref', top⟩⟩
  · exact Or.inl rfl
  · exact Or.inr ⟨ref, rfl⟩
  · simp only [List.length_cons] at hlength
    omega

theorem spares_pushed {row i : Nat} {base : List Ref} (hplain : ∀ record ∈ records, record.instr.Plain)
    (hahead : records <+: m.code.drop m.cursor) (h : m.run records.length = (.running, m'))
    (hmem : .identifier row i ∈ records) (hi : ∀ v, m.tables.resolve (.identifier i) ≠ .ok v)
    (hbase : .identifier i :: base <:+ m.stack) :
    ∃ below, .identifier i :: base <:+ below ∧ .identifier i :: below <:+ m'.stack := by
  obtain ⟨front, back, rfl⟩ := List.append_of_mem hmem
  rw [List.forall_mem_append, List.forall_mem_cons] at hplain
  rw [List.length_append, List.length_cons, Nat.add_comm back.length] at h
  obtain ⟨m₁, hfront, h⟩ := run_split h
  obtain ⟨m₂, hpush, hback⟩ := run_split h
  have hfirst := reckons_of_run hplain.1 ((List.prefix_append _ _).trans hahead) hfront
  have hahead₁ := ahead_of_cursor front hahead hfirst.code hfirst.cursor
  have hrecord := getElem?_of_ahead hahead₁
  have hsecond := reckons_of_running hrecord hplain.2.1 (advance_of_run_one hpush)
  have hthird := reckons_of_run hplain.2.2 (ahead_of_cursor [_] hahead₁ hsecond.code hsecond.cursor) hback
  have hexecutes := executes_of_running hrecord (advance_of_run_one hpush)
  refine ⟨m₁.stack, hfirst.spares i base hi hbase, hthird.spares i m₁.stack (fun v => ?_) ?_⟩
  · rw [Tables.resolve_identifier_congr (hsecond.identifiers.trans hfirst.identifiers)]
    exact hi v
  · cases hexecutes
    exact List.suffix_rfl

theorem run_introduction {row row' j : Nat} {declarator : Declarator} {rest : Code}
    (hahead : .identifier row j :: .op row' (.define declarator) :: rest <+: m.code.drop m.cursor)
    (h : m.run 2 = (.running, m')) :
    m'.code = m.code ∧ m'.cursor = m.cursor + 2 ∧ m'.stack = .identifier j :: m.stack ∧
      (∀ v, m'.tables.resolve (.identifier j) ≠ .ok v) ∧
      ∀ i, i ≠ j → m'.tables.identifiers.get? i = m.tables.identifiers.get? i := by
  obtain ⟨middle, hfirst, hsecond⟩ := run_split (n := 1) (k := 1) h
  cases executes_of_running (getElem?_of_ahead hahead) (advance_of_run_one hfirst)
  have hahead : .op row' (.define declarator) :: rest <+: m.code.drop (m.cursor + 1) :=
    @ahead_of_cursor m { m with cursor := m.cursor + 1 } [_] _ hahead rfl rfl
  cases executes_of_running (getElem?_of_ahead hahead) (advance_of_run_one hsecond) with
  | computed hvalue => cases hvalue
  | defined hstack htables =>
    cases hstack
    obtain ⟨e, he, -, rfl⟩ := Tables.define_ok htables
    refine ⟨rfl, rfl, rfl, fun v hv => ?_, fun i hi => ?_⟩
    · obtain ⟨e', he', hbinding⟩ := Tables.resolve_identifier_iff.1 hv
      rw [Identifiers.get?_modify, if_pos rfl, he] at he'
      cases he'
      cases hbinding
    · rw [Identifiers.get?_modify, if_neg (Ne.symm hi)]

theorem mismatch_of_assign {row : Nat} {expected found : ValueType} {place : Option Nat}
    (hrecord : m.code[m.cursor]? = some (.op row .assign))
    (h : m.advance.1 = .failed ⟨.typeMismatch .assign expected found, place⟩) :
    ∃ ref i stack e v, m.stack = ref :: .identifier i :: stack ∧
      m.tables.identifiers.get? i = some e ∧ m.tables.resolve ref = .ok v ∧ v.type ≠ e.type := by
  have hadvances := m.advances
  generalize m.advance = next at h hadvances
  cases hadvances with
  | ended | halted | executed => cases h
  | refused hrecord' hexecutes =>
    obtain rfl := Option.some.inj (hrecord.symm.trans hrecord')
    cases h
    cases hexecutes with
    | starved hshort => rcases (of_shortfall hshort).1 with hfault | hfault <;> cases hfault
    | refused hstack hrefuses =>
      cases hrefuses with
      | @assign i ref fault hassign =>
        obtain ⟨hfault, -⟩ | ⟨hfault, -⟩ | ⟨name, hfault | hfault⟩ | ⟨e, v, he, hv, hne, -⟩ :=
          Tables.assign_error hassign
        · cases hfault
        · cases hfault
        · cases hfault
        · cases hfault
        · exact ⟨ref, i, _, e, v, hstack, he, hv, hne⟩

end Machine

namespace Identifiers
variable {t : Identifiers} {name : String}

theorem indexOf?_eq (t : Identifiers) (name : String) : t.indexOf? name = t.names.findIdx? (· == name) := by
  rw [names, List.findIdx?_map]
  rfl

theorem indexOf?_intern (t : Identifiers) (name : String) :
    (t.intern name).1.indexOf? name = some (t.intern name).2 := by
  unfold intern
  cases h : t.indexOf? name with
  | some i => exact h
  | none =>
    have h' : t.entries.findIdx? (fun e => e.name == name) = none := h
    simp [indexOf?, List.findIdx?_append, h', size]

theorem intern_of_indexOf? {i : Nat} (h : t.indexOf? name = some i) : t.intern name = (t, i) := by
  rw [intern, h]

end Identifiers

namespace Draft
variable {d : Draft} {word name sign : Lexeme} {value : List Lexeme} {declarator : Declarator}

def introduced (d : Draft) (word name : Lexeme) (declarator : Declarator) (j : Nat) (type : ValueType) :
    Draft :=
  ((d.resolve name).1.setType j type).emit [.identifier name.row j, .op word.row (.define declarator)]

theorem exists_resolve (d : Draft) (hn : name.isIdentifier) : ∃ j, (d.resolve name).2 = some j := by
  cases hl : name.link with
  | some j => exact ⟨j, by rw [resolve_of_link hl]⟩
  | none => exact ⟨_, by rw [resolve, hl, Tables.internLexeme, Lexeme.kind_of_isIdentifier hn]⟩

theorem resolve_again {j : Nat} (hn : name.isIdentifier) (hj : (d.resolve name).2 = some j)
    (type : ValueType) :
    ((d.resolve name).1.setType j type).resolve name = ((d.resolve name).1.setType j type, some j) := by
  cases hl : name.link with
  | some i =>
    rw [resolve_of_link hl] at hj ⊢
    rw [resolve_of_link hl]
    exact Prod.ext rfl hj
  | none =>
    have hresolve : ∀ d : Draft, d.resolve name = ({ d with tables := { d.tables with
        identifiers := (d.tables.identifiers.intern name.text).1 } },
        some (d.tables.identifiers.intern name.text).2) := by
      intro d
      rw [resolve, hl, Tables.internLexeme, Lexeme.kind_of_isIdentifier hn]
    rw [hresolve] at hj
    have hindex : ((d.resolve name).1.setType j type).tables.identifiers.indexOf? name.text = some j := by
      rw [setType_tables, Identifiers.indexOf?_eq, Identifiers.names_setType, ← Identifiers.indexOf?_eq,
        hresolve]
      exact (Identifiers.indexOf?_intern ..).trans hj
    rw [hresolve ((d.resolve name).1.setType j type), Identifiers.intern_of_indexOf? hindex]

theorem code_introduced (d : Draft) (word name : Lexeme) (declarator : Declarator) (j : Nat)
    (type : ValueType) : (d.introduced word name declarator j type).code =
      d.code ++ [.identifier name.row j, .op word.row (.define declarator)] := by
  rw [introduced, emit, setType_code, (d.resolve_spec name).1]

theorem introduced_spec (hn : name.isIdentifier) {j : Nat} (hj : (d.resolve name).2 = some j)
    (word : Lexeme) (declarator : Declarator) (type : ValueType) :
    (d.introduced word name declarator j type).tables.constants = d.tables.constants ∧
    (∀ e, (d.introduced word name declarator j type).tables.identifiers.get? j = some e → e.type = type) ∧
    ∀ i, i ≠ j → (d.introduced word name declarator j type).tables.identifiers.get? i =
      d.tables.identifiers.get? i := by
  have htables : (d.introduced word name declarator j type).tables = { (d.resolve name).1.tables with
      identifiers := (d.resolve name).1.tables.identifiers.setType j type } := setType_tables
  rw [htables]
  refine ⟨?_, fun e he => ?_, fun i hi => ?_⟩
  · cases hl : name.link with
    | some i => rw [resolve_of_link hl]
    | none => rw [resolve, hl, Tables.internLexeme, Lexeme.kind_of_isIdentifier hn]
  · rw [Identifiers.get?_setType, Option.map_eq_some_iff] at he
    obtain ⟨e', -, rfl⟩ := he
    rw [if_pos rfl]
  · obtain ⟨-, hwithin, hnew⟩ := d.resolve_spec name
    rw [Identifiers.get?_setType]
    simp only [if_neg (Ne.symm hi), Option.map_id']
    by_cases hlt : i < d.tables.identifiers.size
    · have hget : d.tables.identifiers.get? i = some d.tables.identifiers.entries[i] :=
        List.getElem?_eq_getElem hlt
      rw [hget]
      exact getElem?_of_prefix hwithin.2 hget
    · have hout : ¬ i < (d.resolve name).1.tables.identifiers.size := by
        intro hlt'
        obtain ⟨hindex, -⟩ := hnew i (not_lt.1 hlt) hlt'
        exact hi (Option.some.inj (hindex.symm.trans hj))
      rw [Identifiers.get?, Identifiers.get?, List.getElem?_eq_none (not_lt.1 hout),
        List.getElem?_eq_none (not_lt.1 hlt)]

theorem postorder_declaration (hw : word.kind = .declaration declarator) (hn : name.isIdentifier)
    (hs : sign.kind = .assign) (hv : isExpression value) :
    postorder (word :: name :: sign :: value) = .operand name :: .operator (.define declarator) word.row ::
      (postorder value ++ [.operator .assign sign.row]) := by
  have hk := inExpression_of_isExpression hv
  obtain ⟨e, he, -, rfl⟩ := exists_tree_of_isExpression hv
  have hname : (Expr.operand name).Ordered := by
    simp [Expr.Ordered, Lexeme.kind_of_isIdentifier hn, Kind.isOperand]
  have hunary : (Expr.unary word (.operand name)).Ordered := by
    refine ⟨by rw [hw]; rfl, ?_, hname⟩
    simp [Expr.priority, hw]
  have h7 := Expr.priority_unary_ge word (.operand name)
  have hordered : (Expr.binary (.unary word (.operand name)) sign e).Ordered :=
    Definition.ordered_binary hunary (by omega) hs he hk
  rw [show word :: name :: sign :: e.lexemes =
      (Expr.binary (.unary word (.operand name)) sign e).lexemes from rfl,
    Postorder.postorder_lexemes hordered, Postorder.postorder_lexemes he]
  simp [Expr.items, Expr.unaryItems, Expr.joinItems, hw, hs, Operator.ofKind?]

theorem declaration_eq (d : Draft) (hw : word.kind = .declaration declarator) (hn : name.isIdentifier)
    (hs : sign.kind = .assign) (hv : isExpression value) {j : Nat} (hj : (d.resolve name).2 = some j) :
    Trial.declaration (word :: name :: sign :: value) d =
      (((d.introduced word name declarator j (inferType d.tables.identifiers value)).emitExpr value).emit
        [.op sign.row .assign], true) := by
  have hread : Declaration.read (word :: name :: sign :: value) =
      .form { word, name, typeWord := none, tail := sign :: value } := by
    simp [Declaration.read, hw, hn, Declaration.splitTypeWord?, hs, Declaration.tailCause?, hv]
  rw [Trial.declaration, hread, Trial.ofReading]
  refine congrArg (·, true) ?_
  cases hd : d.resolve name with
  | mk d₁ index =>
    have hagain := resolve_again hn hj (inferType d.tables.identifiers value)
    rw [hd] at hj hagain
    cases index with
    | none => cases hj
    | some i =>
      obtain rfl := Option.some.inj hj
      rw [lowerDeclaration, introduced, hd]
      simp only [Declaration.initializer, List.drop_succ_cons, List.drop_zero]
      rw [emitExpr, postorder_declaration hw hn hs hv, List.foldl_cons, List.foldl_cons, List.foldl_append]
      have hname : ∀ d : Draft, d.resolve name = (d, some i) →
          d.emitItem (.operand name) = d.emit [.identifier name.row i] := by
        intro d hd
        rw [emitItem, hd]
        simp [Lexeme.isConstant, Lexeme.kind_of_isIdentifier hn]
      rw [hname _ hagain, emitItem, emit_emit]
      rfl

end Draft

namespace Machine
variable {d : Draft} {value : List Lexeme} {records : Code} {m m' : Machine} {ref : Ref} {v : Literal}

theorem type_eq_inferType {ids : Identifiers} (hv : Telling d.tables.constants value)
    (hrecords : (d.emitExpr value).code = d.code ++ records)
    (hm : m.At (d.emitExpr value).tables records) (hrun : m.run records.length = (.running, m'))
    (hstack : m'.stack = ref :: m.stack) (hresolve : m'.tables.resolve ref = .ok v)
    (hname : ∀ i e, ref = .identifier i → m'.tables.identifiers.get? i = some e → e.binding = .value v →
      v.type = e.type ∧ ids.get? i = d.tables.identifiers.get? i) : v.type = inferType ids value := by
  rcases type_or_name hv.shape hv.constant hrecords hm hrun hstack hresolve with
    htype | ⟨x, i, hx, hidentifier, hi, htables, rfl⟩
  · exact (htype ids).symm
  · obtain ⟨rfl, hlink⟩ := hv.name x hx hidentifier
    obtain ⟨j, hj⟩ := Option.isSome_iff_exists.1 hlink
    rw [Draft.resolve_of_link hj] at hi htables
    obtain rfl := Option.some.inj hi
    obtain ⟨e, he, hbinding⟩ := Tables.resolve_identifier_iff.1 hresolve
    obtain ⟨hown, hids⟩ := hname _ e rfl he hbinding
    obtain ⟨e', he', -, htype⟩ := (hm.keeps.trans (keeps_of_run hrun)).get?_before he
    rw [htables] at he'
    rw [inferType_of_name hidentifier, hj, Option.bind_some, hids, he', hown, ← htype]
    rfl

section
variable {word name sign : Lexeme} {declarator : Declarator} {j : Nat} {d₂ : Draft} {base : List Ref}

theorem eq_of_taken {e : Identifier} (hv : isExpression value)
    (hrecords : (d.emitExpr value).code = d.code ++ records)
    (hm : m.At (d.emitExpr value).tables records) (hrun : m.run records.length = (.running, m'))
    (hstack : m.stack = .identifier j :: base) (hstack' : m'.stack = ref :: m.stack)
    (hj : ∀ v, m.tables.resolve (.identifier j) ≠ .ok v) (he : m'.tables.identifiers.get? j = some e)
    (hout : d.tables.identifiers.get? j = none) : ref = .identifier j := by
  obtain ⟨-, code, hcode, hrenders, hnew⟩ := Draft.renders_emitExpr value d
  obtain rfl : records = code := List.append_cancel_left (hrecords.symm.trans hcode)
  obtain ⟨e', he', -⟩ := (hm.keeps.trans (keeps_of_run hrun)).get?_before he
  obtain ⟨row, hmem⟩ := hnew j (List.getElem?_eq_none_iff.1 hout) (List.getElem?_eq_some_iff.1 he').1
  obtain ⟨below, hbelow, habove⟩ := spares_pushed (hrenders.plain (plain_of_isExpression hv).1) hm.ahead
    hrun hmem hj (by rw [hstack])
  have hlength := hbelow.length_le
  rw [hstack', hstack] at habove
  have heq := habove.eq_of_length_le (by simp only [List.length_cons] at hlength ⊢; omega)
  exact (List.cons.inj heq).1.symm

theorem no_mismatch (hn : name.isIdentifier) (hj : (d.resolve name).2 = some j)
    (hv : Telling d.tables.constants value)
    (hd₂ : d₂ = d.introduced word name declarator j (inferType d.tables.identifiers value))
    (hrecords : (d₂.emitExpr value).code = d₂.code ++ records)
    (hm : m.At (d₂.emitExpr value).tables ([.identifier name.row j, .op word.row (.define declarator)] ++
      (records ++ [.op sign.row .assign])))
    (ht : ∀ i e v, m.tables.identifiers.get? i = some e → e.binding = .value v → i ≠ j → v.type = e.type)
    (hrun : m.run (2 + records.length) = (.running, m')) (expected found : ValueType)
    (place : Option Nat) : m'.advance.1 ≠ .failed ⟨.typeMismatch .assign expected found, place⟩ := by
  obtain ⟨hconstants, htype, hothers⟩ := Draft.introduced_spec hn hj word declarator
    (inferType d.tables.identifiers value)
  rw [← hd₂] at hconstants htype hothers
  obtain ⟨m₂, hfront, hback⟩ := run_split hrun
  obtain ⟨hcode, hcursor, hstack, hunbound, hsame⟩ := run_introduction hm.ahead hfront
  have hahead := ahead_of_cursor _ hm.ahead hcode hcursor
  have hsound := run_induction (P := fun m => m.tables.constants.Sound)
    (fun _ => constantsSound_advance) 2 hm.sound
  rw [hfront] at hsound
  have hat : m₂.At (d₂.emitExpr value).tables records :=
    ⟨(List.prefix_append _ _).trans hahead, hm.keeps.trans (keeps_of_run hfront), hsound⟩
  obtain ⟨hreckons, hshape⟩ := stack_of_initializer hv.shape hrecords hat.ahead hback hstack hunbound
  have hunbound' : ∀ v, m'.tables.resolve (.identifier j) ≠ .ok v := by
    intro v
    rw [Tables.resolve_identifier_congr hreckons.identifiers]
    exact hunbound v
  intro hfailed
  obtain ⟨ref, i, stack, e, v, htop, he, hresolve, hne⟩ := mismatch_of_assign
    (getElem?_of_ahead (ahead_of_cursor _ hahead hreckons.code hreckons.cursor)) hfailed
  rcases hshape with hshape | ⟨ref', hshape⟩
  · -- only the name is left, and it has no value
    obtain ⟨rfl, -⟩ := List.cons.inj (htop.symm.trans (hshape.trans hstack))
    exact hunbound' v hresolve
  · obtain ⟨rfl, hrest⟩ := List.cons.inj (htop.symm.trans hshape)
    obtain ⟨hi, -⟩ := List.cons.inj (hrest.trans hstack)
    obtain rfl := Ref.identifier.inj hi
    have hne_name : ref ≠ .identifier i := by
      rintro rfl
      exact hunbound' v hresolve
    refine hne ?_
    have hvalue : v.type = inferType d.tables.identifiers value := by
      refine type_eq_inferType (hconstants ▸ hv) hrecords hat hback hshape hresolve fun k e' hk he' hb => ?_
      have hki : k ≠ i := fun hki => hne_name (hki ▸ hk)
      rw [hreckons.identifiers, hsame k hki] at he'
      exact ⟨ht k e' v he' hb hki, (hothers k hki).symm⟩
    rw [hvalue]
    cases hget : d₂.tables.identifiers.get? i with
    | none => exact absurd (eq_of_taken hv.shape hrecords hat hback hstack hshape hunbound he hget) hne_name
    | some e₂ =>
      obtain ⟨hwithin, -⟩ := Draft.renders_emitExpr value d₂
      obtain ⟨e', he', -, hkept⟩ := (hat.keeps.trans (keeps_of_run hback)).get?_before he
      have hsame := getElem?_of_prefix hwithin.2 hget
      obtain rfl : e' = e₂ := Option.some.inj (he'.symm.trans hsame)
      rw [← hkept, htype e' hget]

end
end Machine

/-- An initializer that tells its type comes to a value of the inferred type, over all tables in which
every value has the type of its name; and a declaration with such an initializer does not fail with a
type mismatch when it assigns, whatever value its own name had before. A name among brackets and plus
signs tells no type: a number is inferred for it, whatever its type. Nor does a name without a link, for
which no type is inferred. -/
theorem initializers_have_inferred_types :
    (∀ (d : Draft) (value : List Lexeme) (records : Code) (m m' : Machine) (ref : Ref) (v : Literal),
      Telling d.tables.constants value → (d.emitExpr value).code = d.code ++ records →
      m.At (d.emitExpr value).tables records → m.tables.WellTyped →
      m.run records.length = (.running, m') → m'.stack = ref :: m.stack →
      m'.tables.resolve ref = .ok v → v.type = inferType d.tables.identifiers value) ∧
    (∀ (d : Draft) (word name sign : Lexeme) (value : List Lexeme) (declarator : Declarator),
      word.kind = .declaration declarator → name.isIdentifier → sign.kind = .assign →
      Telling d.tables.constants value →
      ∃ d' records j, Trial.declaration (word :: name :: sign :: value) d = (d', true) ∧
        d'.code = d.code ++ (records ++ [.op sign.row .assign]) ∧ (d.resolve name).2 = some j ∧
        ∀ m m' : Machine, m.At d'.tables (records ++ [.op sign.row .assign]) →
          (∀ i e v, m.tables.identifiers.get? i = some e → e.binding = .value v → i ≠ j →
            v.type = e.type) →
          m.run records.length = (.running, m') →
          ∀ expected found row, m'.advance.1 ≠ .failed ⟨.typeMismatch .assign expected found, row⟩) ∧
    (∀ (ids : Identifiers) (value : List Lexeme) (x : Lexeme), Wraps x value → x.isIdentifier →
      value ≠ [x] → inferType ids value = .number) ∧
    ∀ (ids : Identifiers) (x : Lexeme), x.isIdentifier → x.link = none → inferType ids [x] = .undef := by
  refine ⟨?_, ?_, fun ids value x hx _ hne => hx.inferType hne ids, fun ids x hx hlink => ?_⟩
  · intro d value records m m' ref v hv hrecords hm ht hrun hstack hresolve
    refine Machine.type_eq_inferType hv hrecords hm hrun hstack hresolve fun i e _ he hbinding => ?_
    have hwell := Machine.run_induction (P := fun m => m.tables.WellTyped)
      (fun _ => Machine.wellTyped_advance) records.length ht
    rw [hrun] at hwell
    exact ⟨hwell e (List.mem_of_getElem? he) v hbinding, rfl⟩
  · intro d word name sign value declarator hw hn hs hv
    obtain ⟨j, hj⟩ := d.exists_resolve hn
    obtain ⟨-, records, hrecords, -⟩ := Draft.renders_emitExpr value
      (d.introduced word name declarator j (inferType d.tables.identifiers value))
    refine ⟨_, [.identifier name.row j, .op word.row (.define declarator)] ++ records, j,
      Draft.declaration_eq d hw hn hs hv.shape hj, ?_, hj, fun m m' hm ht hrun => ?_⟩
    · have hcode := congrArg (· ++ [Record.op sign.row .assign]) hrecords
      rw [Draft.code_introduced] at hcode
      simpa only [Draft.emit, List.append_assoc] using hcode
    · rw [List.append_assoc] at hm
      rw [List.length_append] at hrun
      exact Machine.no_mismatch hn hj hv rfl hrecords hm ht hrun
  · rw [inferType_of_name hx, hlink]
    rfl

def numberX : Tables :=
  ⟨((Constants.empty.internText "'a'").1.internText "2").1,
    ⟨[⟨"x", .number, .value (.number 1), false, 0⟩]⟩⟩

theorem wellTyped_numberX : numberX.WellTyped := by
  intro e he v hv
  obtain rfl := List.mem_singleton.1 he
  cases hv
  rfl

theorem sound_numberX : numberX.constants.Sound :=
  ((Constants.Built.empty.internText _).internText _).sound

def Draft.machine (d : Draft) : Machine := { code := d.code, tables := d.tables }

theorem Draft.at_machine {d : Draft} {records : Code} (hcode : d.code = records)
    (hc : d.tables.constants = numberX.constants) : d.machine.At d.tables records :=
  ⟨⟨[], by rw [List.append_nil, ← hcode]; rfl⟩, .refl _, hc ▸ sound_numberX⟩

def comparison : List Lexeme :=
  [⟨1, "x", .identifier, some 0⟩, ⟨1, "<", .relOp .lt, none⟩, ⟨1, "2", .constant, some 1⟩]

theorem telling_comparison (t : Constants) : Telling t comparison := by
  have hno : ∀ x, ¬ Wraps x comparison := by
    intro x hx
    have hsign := hx.isRelOp ⟨1, "<", .relOp .lt, none⟩ (by simp [comparison])
    cases hsign
  exact ⟨by decide +kernel, fun x hx => absurd hx (hno x), fun x hx => absurd hx (hno x)⟩

/-- `val y = x < 2` makes `y` a boolean, and assigns one; a number would be inferred for `(x)`, and no type
for `x` without its link. -/
theorem initializers_have_inferred_types_of_comparison :
    (∃ (m m' : Machine) (ref : Ref) (v : Literal), Telling numberX.constants comparison ∧
      m.At (Draft.emitExpr { tables := numberX } comparison).tables
        (Draft.emitExpr { tables := numberX } comparison).code ∧ m.tables.WellTyped ∧
      m.run 3 = (.running, m') ∧ m'.stack = ref :: m.stack ∧ m'.tables.resolve ref = .ok v ∧
      v.type = inferType numberX.identifiers comparison ∧ v.type = .boolean) ∧
    (∃ (d' : Draft) (m m' : Machine), Trial.declaration (⟨1, "val", .declaration .val, none⟩ ::
        ⟨1, "y", .identifier, none⟩ :: ⟨1, "=", .assign, none⟩ :: comparison) { tables := numberX } =
          (d', true) ∧ m.At d'.tables d'.code ∧ m.tables.WellTyped ∧ m.run 5 = (.running, m') ∧
      ∀ expected found row, m'.advance.1 ≠ .failed ⟨.typeMismatch .assign expected found, row⟩) ∧
    inferType numberX.identifiers [⟨1, "(", .bracket .opening, none⟩, ⟨1, "x", .identifier, some 0⟩,
      ⟨1, ")", .bracket .closing, none⟩] = .number ∧
    inferType numberX.identifiers [⟨1, "x", .identifier, none⟩] = .undef := by
  obtain ⟨hvalue, hdeclaration, hwrapped, hunlinked⟩ := initializers_have_inferred_types
  refine ⟨?_, ?_, ?_, hunlinked _ _ rfl rfl⟩
  · set m := (Draft.emitExpr { tables := numberX } comparison).machine with hm
    have hstack : (m.run 3).1 = .running ∧ (m.run 3).2.stack = [.constant 2] := by decide +kernel
    obtain ⟨v, hv, hboolean⟩ := exists_of_any (r := (m.run 3).2.tables.resolve (.constant 2))
      (p := fun v => decide (v.type = .boolean)) (by decide +kernel)
    have hat := Draft.at_machine (d := Draft.emitExpr { tables := numberX } comparison) rfl rfl
    have hrun : m.run 3 = (.running, (m.run 3).2) := Prod.ext hstack.1 rfl
    have htype := hvalue { tables := numberX } comparison _ m _ _ v (telling_comparison _)
      (List.nil_append _).symm hat wellTyped_numberX hrun hstack.2 hv
    exact ⟨m, _, _, v, telling_comparison _, hat, wellTyped_numberX, hrun, hstack.2, hv, htype,
      of_decide_eq_true hboolean⟩
  · obtain ⟨d', records, j, hd', hcode, hj, hsafe⟩ := hdeclaration { tables := numberX }
      ⟨1, "val", .declaration .val, none⟩ ⟨1, "y", .identifier, none⟩ ⟨1, "=", .assign, none⟩ comparison
      .val rfl rfl rfl (telling_comparison _)
    rw [List.nil_append] at hcode
    have hlowered := congrArg Prod.fst (hd'.symm.trans (Draft.declaration_eq { tables := numberX } rfl rfl
      rfl (telling_comparison numberX.constants).shape rfl))
    simp only at hlowered
    have hwell : d'.tables.WellTyped := by
      have hids : d'.tables.identifiers.entries = [⟨"x", .number, .value (.number 1), false, 0⟩,
          ⟨"y", .boolean, .undef, false, 1⟩] := by
        rw [hlowered]
        rfl
      intro e he v hv
      rw [hids, List.mem_pair] at he
      rcases he with rfl | rfl
      · cases hv
        rfl
      · cases hv
    have hat := Draft.at_machine rfl (show d'.tables.constants = numberX.constants by rw [hlowered]; rfl)
    have hstatus : (d'.machine.run 5).1 = .running := by
      rw [hlowered]
      decide +kernel
    have hlength : records.length = 5 := by
      have hlength := congrArg List.length hcode
      rw [hlowered, List.length_append] at hlength
      exact (Nat.succ.inj hlength).symm
    have hrun : d'.machine.run 5 = (.running, (d'.machine.run 5).2) := Prod.ext hstatus rfl
    refine ⟨d', d'.machine, _, hd', hat, hwell, hrun, hsafe d'.machine _ (hcode ▸ hat) ?_ (hlength ▸ hrun)⟩
    exact fun i e v he hb _ => hwell e (List.mem_of_getElem? he) v hb
  · refine hwrapped _ _ ⟨1, "x", .identifier, some 0⟩ ?_ rfl (by decide)
    exact ((wraps_self rfl).concat rfl).cons rfl

def Misleads (x : Lexeme) (found inferred : ValueType) : Prop :=
  isExpression [x] ∧ ∃ (m m' : Machine) (ref : Ref),
    m.At (Draft.emitExpr { tables := numberX } [x]).tables
      (Draft.emitExpr { tables := numberX } [x]).code ∧ m.tables.WellTyped ∧
    m.run 1 = (.running, m') ∧ m'.stack = ref :: m.stack ∧
    (m'.tables.resolve ref).map Literal.type = .ok found ∧
    inferType numberX.identifiers [x] = inferred ∧ found ≠ inferred

/-- No type is inferred for a name that has a value but no link, and `val y = x` fails by it. A constant
`1` that is linked to the entry of `'a'` is taken for a number. -/
theorem links_mislead_inference :
    Misleads ⟨1, "x", .identifier, none⟩ .number .undef ∧
    Misleads ⟨1, "1", .constant, some 0⟩ .string .number ∧
    ∃ d', Trial.declaration [⟨1, "val", .declaration .val, none⟩, ⟨1, "y", .identifier, none⟩,
        ⟨1, "=", .assign, none⟩, ⟨1, "x", .identifier, none⟩] { tables := numberX } = (d', true) ∧
      (d'.machine.run 4).1 = .failed ⟨.typeMismatch .assign .undef .number, some 1⟩ := by
  refine ⟨⟨by decide +kernel, _, _, .identifier 0, Draft.at_machine rfl rfl, wellTyped_numberX, rfl, rfl,
      rfl, rfl, by decide⟩,
    ⟨by decide +kernel, _, _, .constant 0, Draft.at_machine rfl rfl, wellTyped_numberX, rfl, rfl, rfl, rfl,
      by decide⟩, ?_⟩
  refine ⟨_, Draft.declaration_eq { tables := numberX } rfl rfl rfl (by decide +kernel) rfl, ?_⟩
  decide +kernel

end RowLang
