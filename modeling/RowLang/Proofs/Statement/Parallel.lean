import Mathlib
import RowLang.Proofs.Lexeme.Linking
import RowLang.Proofs.Statement.Renumbering
import RowLang.Proofs.Statement.Traversal

/-! Two runs of the parser side by side. They read the same lexemes up to the numbers of the rows, over
tables that are the same or that have nothing in common but being sound. The drafts of the two runs stay
alike, since no step of the parser looks further into the tables than soundness tells. -/

namespace RowLang

def Lexeme.resolves (l : Lexeme) : Bool :=
  l.link.isSome ||
    match l.kind with
    | .constant => (Literal.read? l.text).isSome
    | .identifier => true
    | _ => false

inductive Instr.Alike (same : Prop) : Instr → Instr → Prop
  | constant {i j : Nat} (h : same → j = i) : Alike same (.push (.constant i)) (.push (.constant j))
  | identifier {i j : Nat} (h : same → j = i) :
      Alike same (.push (.identifier i)) (.push (.identifier j))
  | apply (op : Operator) : Alike same (.apply op) (.apply op)

structure Record.Alike (f : Nat → Nat) (same : Prop) (r r' : Record) : Prop where
  row : r'.row = f r.row
  instr : r.instr.Alike same r'.instr

namespace Record.Alike
variable {f : Nat → Nat} {same : Prop}

theorem op (row : Nat) (op : Operator) : Alike f same (.op row op) (.op (f row) op) :=
  ⟨rfl, .apply op⟩

theorem constant (row : Nat) {i j : Nat} (h : same → j = i) :
    Alike f same (.constant row i) (.constant (f row) j) :=
  ⟨rfl, .constant h⟩

theorem identifier (row : Nat) {i j : Nat} (h : same → j = i) :
    Alike f same (.identifier row i) (.identifier (f row) j) :=
  ⟨rfl, .identifier h⟩

end Record.Alike

abbrev Code.Alike (f : Nat → Nat) (same : Prop) : Code → Code → Prop :=
  List.Forall₂ (Record.Alike f same)

theorem Code.alike_pair {f : Nat → Nat} {same : Prop} {i j : Nat} (row row' : Nat) (op : Operator)
    (h : same → j = i) :
    Code.Alike f same [.identifier row i, .op row' op] [.identifier (f row) j, .op (f row') op] :=
  .cons (.identifier row h) (.cons (.op row' op) .nil)

theorem Code.alike_back {f : Nat → Nat} {same : Prop} {top top' exit exit' : Nat} (row : Nat)
    (ht : same → top' = top) (he : same → exit' = exit) :
    Code.Alike f same
      [.identifier row top, .op row .goto, .identifier row exit, .op row .label]
      [.identifier (f row) top', .op (f row) .goto, .identifier (f row) exit', .op (f row) .label] :=
  List.rel_append (Code.alike_pair row row .goto ht) (Code.alike_pair row row .label he)

/-- Drafts of two runs. Either the tables are the same, with the same changes noted, or the constants
of both are sound. -/
structure Draft.Parallel (f : Nat → Nat) (same : Prop) (d e : Draft) : Prop where
  tables : same → e.tables = d.tables
  journal : same → e.journal = d.journal
  sound : ¬ same → d.tables.constants.Sound ∧ e.tables.constants.Sound
  code : Code.Alike f same d.code e.code
  diagnostics : e.diagnostics = d.diagnostics.map (Diagnostic.renumber f)
  depth : e.depth = d.depth

namespace Draft

section
variable {d : Draft} {l : Lexeme}

theorem isSome_resolve (h : d.tables.constants.Sound) : (d.resolve l).2.isSome = l.resolves := by
  unfold resolve Lexeme.resolves
  cases l.link with
  | some index => rfl
  | none =>
    simp only [Tables.internLexeme, Option.isSome_none, Bool.false_or]
    cases l.kind with
    | constant => exact h.isSome_internText
    | _ => rfl

theorem sound_resolve (h : d.tables.constants.Sound) : (d.resolve l).1.tables.constants.Sound := by
  unfold resolve
  cases l.link with
  | some index => exact h
  | none =>
    simp only [Tables.internLexeme]
    cases l.kind with
    | constant => exact h.internText
    | _ => exact h

theorem resolve_frame (d : Draft) (l : Lexeme) : (d.resolve l).1 =
    { d with tables := (d.resolve l).1.tables } := by
  unfold resolve
  cases l.link <;> rfl

theorem setType_frame (d : Draft) (i : Nat) (type : ValueType) : ∃ identifiers journal,
    d.setType i type = { d with tables := { d.tables with identifiers }, journal } := by
  unfold setType
  split
  · exact ⟨_, _, rfl⟩
  · exact ⟨_, _, rfl⟩

end

namespace Parallel
variable {f : Nat → Nat} {same : Prop} {d e d' e' : Draft}

theorem emit (h : d.Parallel f same e) {records records' : Code}
    (hr : Code.Alike f same records records') : (d.emit records).Parallel f same (e.emit records') :=
  { h with code := List.rel_append h.code hr }

theorem withDiagnostics (h : d.Parallel f same e) (ds : List Diagnostic) :
    { d with diagnostics := ds }.Parallel f same
      { e with diagnostics := ds.map (Diagnostic.renumber f) } :=
  { h with diagnostics := rfl }

theorem complain (h : d.Parallel f same e) (cause : Cause) (ls : List Lexeme) :
    (d.complain cause ls).Parallel f same (e.complain cause (renumbered f ls)) := by
  refine { h with diagnostics := ?_ }
  simp only [Draft.complain, List.map_cons, h.diagnostics, h.depth]
  rfl

theorem pushMark (h : d.Parallel f same e) : d.pushMark.1.Parallel f same e.pushMark.1 ∧
    (same → e.pushMark.2 = d.pushMark.2) := by
  refine ⟨{ h with tables := fun hs => ?_, sound := h.sound }, fun hs => ?_⟩
  · simp only [Draft.pushMark, h.tables hs]
  · simp only [Draft.pushMark, h.tables hs]

theorem internValue (h : d.Parallel f same e) (v : Literal) :
    (d.internValue v).1.Parallel f same (e.internValue v).1 ∧
      (same → (e.internValue v).2 = (d.internValue v).2) := by
  refine ⟨{ h with tables := fun hs => ?_, sound := fun hs => ?_ }, fun hs => ?_⟩
  · simp only [Draft.internValue, h.tables hs]
  · exact ⟨(h.sound hs).1.intern v, (h.sound hs).2.intern v⟩
  · simp only [Draft.internValue, h.tables hs]

theorem setType (h : d.Parallel f same e) {i j : Nat} {type type' : ValueType} (hi : same → j = i)
    (ht : same → type' = type) : (d.setType i type).Parallel f same (e.setType j type') := by
  by_cases hs : same
  · obtain ⟨htables, hjournal⟩ := And.intro (h.tables hs) (h.journal hs)
    rw [hi hs, ht hs]
    unfold Draft.setType
    rw [htables]
    split
    · exact h
    · exact { h with
        tables := fun _ => rfl
        journal := fun _ => by rw [hjournal]
        sound := fun hn => absurd hs hn }
  · obtain ⟨ids, journal, hd⟩ := d.setType_frame i type
    obtain ⟨ids', journal', he⟩ := e.setType_frame j type'
    rw [hd, he]
    exact { h with
      tables := fun h => absurd h hs
      journal := fun h => absurd h hs
      sound := h.sound }

theorem rollback (h : d.Parallel f same e) (h' : d'.Parallel f same e') :
    (d'.rollback d).Parallel f same (e'.rollback e) where
  tables hs := by simp only [Draft.rollback, h.tables hs, h'.tables hs, h.journal hs, h'.journal hs]
  journal hs := by simp only [Draft.rollback, h.journal hs, h'.journal hs]
  sound hs := ⟨(h'.sound hs).1.truncate _, (h'.sound hs).2.truncate _⟩
  code := by
    have hlength := h.code.length_eq
    simp only [Draft.rollback, ← hlength]
    exact List.forall₂_take _ h'.code
  diagnostics := h'.diagnostics
  depth := h'.depth

theorem resolve (h : d.Parallel f same e) (l : Lexeme) : ∃ d' e', d'.Parallel f same e' ∧
    ((d.resolve l = (d', none) ∧ e.resolve (l.renumber f) = (e', none)) ∨
      ∃ i j, (same → j = i) ∧ d.resolve l = (d', some i) ∧
        e.resolve (l.renumber f) = (e', some j)) := by
  have hsame : same → (e.resolve (l.renumber f)).1.tables = (d.resolve l).1.tables ∧
      (e.resolve (l.renumber f)).2 = (d.resolve l).2 := by
    intro hs
    have htables := h.tables hs
    unfold Draft.resolve
    rw [Lexeme.link_renumber]
    cases l.link with
    | some index => exact ⟨htables, rfl⟩
    | none =>
      simp only [htables]
      exact ⟨rfl, rfl⟩
  have hsome : (e.resolve (l.renumber f)).2.isSome = (d.resolve l).2.isSome := by
    by_cases hs : same
    · rw [(hsame hs).2]
    · rw [isSome_resolve (h.sound hs).1, isSome_resolve (h.sound hs).2]
      rfl
  have hparallel : (d.resolve l).1.Parallel f same (e.resolve (l.renumber f)).1 := by
    have hsound : ¬ same → (d.resolve l).1.tables.constants.Sound ∧
        (e.resolve (l.renumber f)).1.tables.constants.Sound := fun hs =>
      ⟨sound_resolve (h.sound hs).1, sound_resolve (h.sound hs).2⟩
    rw [d.resolve_frame, e.resolve_frame]
    exact { h with tables := fun hs => (hsame hs).1, sound := hsound }
  refine ⟨_, _, hparallel, ?_⟩
  cases hd : (d.resolve l).2 with
  | none =>
    rw [hd, Option.isSome_none, Option.isSome_eq_false_iff, Option.isNone_iff_eq_none] at hsome
    exact Or.inl ⟨Prod.ext rfl hd, Prod.ext rfl hsome⟩
  | some i =>
    rw [hd, Option.isSome_some, Option.isSome_iff_exists] at hsome
    obtain ⟨j, hj⟩ := hsome
    refine Or.inr ⟨i, j, fun hs => ?_, Prod.ext rfl hd, Prod.ext rfl hj⟩
    have heq := (hsame hs).2
    rw [hd, hj] at heq
    exact Option.some.inj heq

theorem emitItem (h : d.Parallel f same e) (item : Item) :
    (d.emitItem item).Parallel f same (e.emitItem (item.renumber f)) := by
  cases item with
  | operator op row => exact h.emit (.cons (.op _ op) .nil)
  | operand l =>
    obtain ⟨d', e', h', ⟨hd, he⟩ | ⟨i, j, hij, hd, he⟩⟩ := h.resolve l
    · simpa only [Draft.emitItem, Item.renumber, hd, he] using h'
    · simp only [Draft.emitItem, Item.renumber, hd, he]
      refine h'.emit (.cons ?_ .nil)
      by_cases hc : l.isConstant
      · have hc' : (l.renumber f).isConstant := hc
        rw [if_pos hc, if_pos hc']
        exact .constant _ hij
      · have hc' : ¬ (l.renumber f).isConstant := hc
        rw [if_neg hc, if_neg hc']
        exact .identifier _ hij

theorem emitExpr (h : d.Parallel f same e) (ls : List Lexeme) :
    (d.emitExpr ls).Parallel f same (e.emitExpr (renumbered f ls)) := by
  unfold Draft.emitExpr
  rw [postorder_renumbered, List.foldl_map]
  generalize postorder ls = items
  induction items generalizing d e with
  | nil => exact h
  | cons item items ih => exact ih (h.emitItem item)

theorem lowerDeclaration (h : d.Parallel f same e) (form : Declaration) :
    (lowerDeclaration form d).Parallel f same (Draft.lowerDeclaration (form.renumber f) e) := by
  have htype : same →
      inferType e.tables.identifiers (form.renumber f).initializer =
        inferType d.tables.identifiers form.initializer := by
    intro hs
    have hinit : (form.renumber f).initializer = renumbered f form.initializer := by
      simp [Declaration.initializer, Declaration.renumber, renumbered]
    rw [h.tables hs, hinit, inferType_renumbered]
  obtain ⟨d', e', h', ⟨hd, he⟩ | ⟨i, j, hij, hd, he⟩⟩ := h.resolve form.name
  · have he' : e.resolve (form.renumber f).name = (e', none) := he
    simp only [Draft.lowerDeclaration, hd, he']
    exact h'.emitExpr (form.word :: form.name :: form.tail)
  · have he' : e.resolve (form.renumber f).name = (e', some j) := he
    simp only [Draft.lowerDeclaration, hd, he']
    refine (h'.setType hij ?_).emitExpr (form.word :: form.name :: form.tail)
    intro hs
    cases hw : form.typeWord with
    | some word => simp [Declaration.renumber, hw]
    | none => simpa [Declaration.renumber, hw] using htype hs

theorem lowerConditional (h : d.Parallel f same e) (form : Conditional) :
    (lowerConditional form d).Parallel f same (Draft.lowerConditional (form.renumber f) e) := by
  obtain ⟨d', e', h', ⟨hd, he⟩ | ⟨i, j, hij, hd, he⟩⟩ := h.resolve form.mark
  · have he' : e.resolve (form.renumber f).mark = (e', none) := he
    simpa only [Draft.lowerConditional, hd, he'] using h'
  · have he' : e.resolve (form.renumber f).mark = (e', some j) := he
    obtain ⟨hmark, hskip⟩ := h'.pushMark
    simp only [Draft.lowerConditional, hd, he']
    exact (hmark.emitExpr form.condition).emit (List.rel_append (Code.alike_pair _ _ _ hskip)
      (List.rel_append (Code.alike_pair _ _ _ hij) (Code.alike_pair _ _ _ hskip)))

theorem lowerGoto (h : d.Parallel f same e) (form : Lexeme × Lexeme) :
    (lowerGoto form d).Parallel f same
      (Draft.lowerGoto (form.map (Lexeme.renumber f) (Lexeme.renumber f)) e) := by
  obtain ⟨word, mark⟩ := form
  obtain ⟨d', e', h', ⟨hd, he⟩ | ⟨i, j, hij, hd, he⟩⟩ := h.resolve mark
  · simpa only [Draft.lowerGoto, Prod.map, hd, he] using h'
  · simp only [Draft.lowerGoto, Prod.map, hd, he]
    exact h'.emit (Code.alike_pair _ _ _ hij)

theorem lowerLabel (h : d.Parallel f same e) (form : Lexeme × Lexeme) :
    (lowerLabel form d).Parallel f same
      (Draft.lowerLabel (form.map (Lexeme.renumber f) (Lexeme.renumber f)) e) := by
  obtain ⟨mark, colon⟩ := form
  obtain ⟨d', e', h', ⟨hd, he⟩ | ⟨i, j, hij, hd, he⟩⟩ := h.resolve mark
  · simpa only [Draft.lowerLabel, Prod.map, hd, he] using h'
  · simp only [Draft.lowerLabel, Prod.map, hd, he]
    exact (h'.setType hij fun _ => rfl).emit (Code.alike_pair _ _ _ hij)

end Parallel
end Draft

namespace Trial

def Parallel (f : Nat → Nat) (same : Prop) (trial trial' : Trial) : Prop :=
  ∀ ⦃d e : Draft⦄, d.Parallel f same e →
    (trial d).1.Parallel f same (trial' e).1 ∧ (trial' e).2 = (trial d).2

section
variable {f : Nat → Nat} {same : Prop}

theorem Parallel.exists_outcome {trial trial' : Trial} (h : trial.Parallel f same trial')
    {d e : Draft} (hde : d.Parallel f same e) : ∃ d' e' accepted, d'.Parallel f same e' ∧
      trial d = (d', accepted) ∧ trial' e = (e', accepted) :=
  ⟨_, _, _, (h hde).1, rfl, Prod.ext rfl (h hde).2⟩

theorem Parallel.attempt {trial trial' : Trial} (h : trial.Parallel f same trial') :
    trial.attempt.Parallel f same trial'.attempt := by
  intro d e hde
  obtain ⟨d', e', accepted, h', hd, he⟩ := h.exists_outcome hde
  simp only [Trial.attempt, hd, he]
  cases accepted with
  | true => exact ⟨h', rfl⟩
  | false => exact ⟨hde.rollback h', rfl⟩

theorem parallel_firstOf {trials trials' : List Trial}
    (h : List.Forall₂ (Trial.Parallel f same) trials trials') :
    (firstOf trials).Parallel f same (firstOf trials') := by
  induction h with
  | nil => exact fun d e hde => ⟨hde, rfl⟩
  | cons hfirst _ ih =>
    intro d e hde
    obtain ⟨d', e', accepted, h', hd, he⟩ := hfirst.attempt.exists_outcome hde
    simp only [firstOf, hd, he]
    cases accepted with
    | true => exact ⟨h', rfl⟩
    | false => exact ih h'

theorem parallel_ofReading {α : Type} {g : α → α} {reading reading' : Reading α}
    {lower : α → Draft → Draft} (ls : List Lexeme) (hr : reading' = reading.map g)
    (hl : ∀ value ⦃d e : Draft⦄, d.Parallel f same e →
      (lower value d).Parallel f same (lower (g value) e)) :
    (ofReading ls reading lower).Parallel f same (ofReading (renumbered f ls) reading' lower) := by
  intro d e hde
  subst hr
  cases reading with
  | other => exact ⟨hde, rfl⟩
  | wrong cause => exact ⟨hde.complain cause ls, rfl⟩
  | form value => exact ⟨hl value hde, rfl⟩

section
variable (ls : List Lexeme)

theorem parallel_declaration :
    (declaration ls).Parallel f same (declaration (renumbered f ls)) :=
  parallel_ofReading ls (declaration_read_renumbered f ls) fun form _ _ h => h.lowerDeclaration form

theorem parallel_constantDefinition :
    (constantDefinition ls).Parallel f same (constantDefinition (renumbered f ls)) := by
  intro d e hde
  unfold constantDefinition
  rw [isConstantDefinition_renumbered]
  split
  · exact ⟨hde.emitExpr ls, rfl⟩
  · exact ⟨hde, rfl⟩

theorem parallel_assignment : (assignment ls).Parallel f same (assignment (renumbered f ls)) := by
  have hreading := readAssignment_renumbered f ls
  intro d e hde
  unfold assignment
  rw [hreading]
  cases readAssignment ls with
  | other => exact ⟨hde, rfl⟩
  | wrong cause => exact ⟨hde.complain cause ls, rfl⟩
  | form name => exact ⟨hde.emitExpr ls, rfl⟩

theorem parallel_init : (firstOf [declaration ls, assignment ls]).Parallel f same
    (firstOf [declaration (renumbered f ls), assignment (renumbered f ls)]) :=
  parallel_firstOf (.cons (parallel_declaration ls) (.cons (parallel_assignment ls) .nil))

theorem parallel_conditional :
    (conditional ls).Parallel f same (conditional (renumbered f ls)) :=
  parallel_ofReading ls (conditional_read_renumbered f ls) fun form _ _ h => h.lowerConditional form

theorem parallel_goto : (goto ls).Parallel f same (goto (renumbered f ls)) :=
  parallel_ofReading ls (readGoto_renumbered f ls) fun form _ _ h => h.lowerGoto form

theorem parallel_label : (label ls).Parallel f same (label (renumbered f ls)) :=
  parallel_ofReading ls (readLabel_renumbered f ls) fun form _ _ h => h.lowerLabel form

end

theorem firstRow_renumbered {ls : List Lexeme} (h : ls ≠ []) :
    ((renumbered f ls).head?.map Lexeme.row).getD 0 = f ((ls.head?.map Lexeme.row).getD 0) := by
  cases ls with
  | nil => exact absurd rfl h
  | cons l ls => rfl

theorem lastRow_renumbered {ls : List Lexeme} (h : ls ≠ []) :
    ((renumbered f ls).getLast?.map Lexeme.row).getD 0 =
      f ((ls.getLast?.map Lexeme.row).getD 0) := by
  rw [List.getLast?_map, List.getLast?_eq_some_getLast h]
  rfl

section
variable {header : List Lexeme} {body body' : Code} (hne : header ≠ [])
  (hb : Code.Alike f same body body') (endRow : Nat)
include hne hb

theorem parallel_whileLoop : (whileLoop header body endRow).Parallel f same
    (whileLoop (renumbered f header) body' (f endRow)) := by
  intro d e hde
  have hdrop : (renumbered f header).drop 1 = renumbered f (header.drop 1) := List.map_drop.symm
  simp only [whileLoop, hdrop, isCondition_renumbered, firstRow_renumbered hne]
  generalize (header.head?.map Lexeme.row).getD 0 = row
  by_cases hc : isCondition (header.drop 1)
  · rw [if_pos hc, if_pos hc]
    obtain ⟨h₁, htop⟩ := hde.pushMark
    obtain ⟨h₂, hexit⟩ := h₁.pushMark
    have htest := (h₂.emit (Code.alike_pair row row .label htop)).emitExpr (header.drop 1)
    exact ⟨htest.emit (List.rel_append (List.rel_append (Code.alike_pair row row .branch hexit) hb)
      (Code.alike_back endRow htop hexit)), rfl⟩
  · rw [if_neg hc, if_neg hc]
    exact ⟨hde.complain _ header, rfl⟩

theorem parallel_forLoop : (forLoop header body endRow).Parallel f same
    (forLoop (renumbered f header) body' (f endRow)) := by
  intro d e hde
  have hcut : cutBefore? isArithmetic (renumbered f header) =
      (cutBefore? isArithmetic header).map (Cut.renumber f) :=
    cutBefore?_renumbered f header fun c _ => isArithmetic_renumbered f c.suffix
  simp only [forLoop, List.length_map, hcut, firstRow_renumbered hne]
  generalize (header.head?.map Lexeme.row).getD 0 = row
  by_cases hlength : header.length < 4
  · rw [if_pos hlength, if_pos hlength]
    exact ⟨hde.complain _ header, rfl⟩
  rw [if_neg hlength, if_neg hlength]
  cases cutBefore? isArithmetic header with
  | none => exact ⟨hde.complain _ header, rfl⟩
  | some cut =>
    have hinit : (cut.renumber f).before.drop 1 = renumbered f (cut.before.drop 1) := by
      rw [before_renumber]
      exact List.map_drop.symm
    simp only [Option.map_some, hinit, counter?_renumbered]
    generalize cut.before.drop 1 = init
    by_cases hto : cut.pivot.kind = .loop .toWord
    · have hto' : (cut.renumber f).pivot.kind = .loop .toWord := hto
      rw [if_pos hto, if_pos hto']
      obtain ⟨d₁, e₁, accepted, h₁, hd₁, he₁⟩ := (parallel_init init).exists_outcome hde
      rw [hd₁, he₁]
      cases accepted with
      | false => exact ⟨h₁.complain _ header, rfl⟩
      | true =>
        cases counter? init with
        | none => exact ⟨h₁.complain _ header, rfl⟩
        | some name =>
          simp only [Option.map_some]
          obtain ⟨d₂, e₂, h₂, ⟨hd₂, he₂⟩ | ⟨i, j, hij, hd₂, he₂⟩⟩ := h₁.resolve name
          · rw [hd₂, he₂]
            exact ⟨h₂.complain _ header, rfl⟩
          · rw [hd₂, he₂]
            obtain ⟨h₃, htop⟩ := h₂.pushMark
            obtain ⟨h₄, hexit⟩ := h₃.pushMark
            obtain ⟨h₅, hone⟩ := h₄.internValue (.number 1)
            have htest := (h₅.emit (List.rel_append (Code.alike_pair row row .label htop)
              (.cons (.identifier row hij) .nil))).emitExpr cut.suffix
            refine ⟨htest.emit (List.rel_append (List.rel_append ?_ hb) ?_), rfl⟩
            · exact .cons (.op row _) (Code.alike_pair row row .branch hexit)
            · exact .cons (.identifier endRow hij) (.cons (.identifier endRow hij)
                (.cons (.constant endRow hone) (.cons (.op endRow _) (.cons (.op endRow _)
                  (Code.alike_back endRow htop hexit)))))
    · have hto' : ¬ (cut.renumber f).pivot.kind = .loop .toWord := hto
      rw [if_neg hto, if_neg hto']
      exact ⟨hde.complain _ header, rfl⟩

end

section
variable {body : List Lexeme → Trial}

theorem parallel_loopBody {inside : List Lexeme}
    (h : (body inside).Parallel f same (body (renumbered f inside))) :
    (loopBody body inside).Parallel f same (loopBody body (renumbered f inside)) := by
  intro d e hde
  have hdeeper : { d with depth := d.depth + 1 }.Parallel f same { e with depth := e.depth + 1 } :=
    { hde with depth := congrArg (· + 1) hde.depth }
  obtain ⟨d', e', accepted, h', hd, he⟩ := h.exists_outcome hdeeper
  simp only [loopBody, hd, he]
  exact ⟨{ h' with depth := hde.depth }, trivial⟩

theorem parallel_seekBody {cs : List Cut} (h : ∀ c ∈ cs, ∀ inside, insideBody? c.suffix = some inside →
      (body inside).Parallel f same (body (renumbered f inside)))
    {d e : Draft} (hde : d.Parallel f same e) :
    (seekBody body cs d).1.Parallel f same (seekBody body (cs.map (Cut.renumber f)) e).1 ∧
      (seekBody body (cs.map (Cut.renumber f)) e).2 =
        (seekBody body cs d).2.map (Cut.renumber f) := by
  induction cs generalizing d e with
  | nil => exact ⟨hde, rfl⟩
  | cons c cs ih =>
    have hrest := fun {d e : Draft} => @ih (fun c' hc' => h c' (List.mem_cons_of_mem c hc')) d e
    have hinside : insideBody? (c.renumber f).suffix = (insideBody? c.suffix).map (renumbered f) :=
      insideBody?_renumbered f c.suffix
    rw [List.map_cons, seekBody, seekBody, hinside]
    cases hi : insideBody? c.suffix with
    | none => exact hrest hde
    | some inside =>
      have hbody := parallel_loopBody (h c List.mem_cons_self inside hi)
      obtain ⟨d', e', accepted, h', hd, he⟩ := hbody.attempt.exists_outcome hde
      simp only [Option.map_some, hd, he]
      cases accepted with
      | true => exact ⟨h', rfl⟩
      | false => exact hrest h'

section
variable {ls : List Lexeme} (hb : ∀ c ∈ cuts ls, ∀ inside, insideBody? c.suffix = some inside →
  (body inside).Parallel f same (body (renumbered f inside)))
include hb

theorem parallel_loop : (loop body ls).Parallel f same (loop body (renumbered f ls)) := by
  intro d e hde
  have hhead : (renumbered f ls).head?.map Lexeme.kind = ls.head?.map Lexeme.kind := by
    cases ls <;> rfl
  obtain ⟨hseek, hcut⟩ := parallel_seekBody hb hde
  rw [← cuts_renumbered] at hseek hcut
  unfold loop
  rw [hhead]
  cases hk : ls.head?.map Lexeme.kind with
  | none => exact ⟨hde, rfl⟩
  | some kind =>
    have hne : ls ≠ [] := by
      rintro rfl
      cases hk
    cases kind with
    | loop word =>
      by_cases hw : word = .forWord ∨ word = .whileWord
      · simp only [if_pos hw, lastRow_renumbered hne]
        rcases hd : seekBody body (cuts ls) d with ⟨d', found⟩
        rcases he : seekBody body (cuts (renumbered f ls)) e with ⟨e', found'⟩
        rw [hd, he] at hseek hcut
        obtain rfl : found' = found.map (Cut.renumber f) := hcut
        cases found with
        | none => exact ⟨hseek.complain _ ls, rfl⟩
        | some cut =>
          have hlength := hde.code.length_eq
          have hcode := List.forall₂_drop d.code.length hseek.code
          have hwithout : { d' with
                code := d'.code.take d.code.length
                diagnostics := d.diagnostics }.Parallel f same
              { e' with
                code := e'.code.take d.code.length
                diagnostics := e.diagnostics } :=
            { hseek with
              code := List.forall₂_take _ hseek.code
              diagnostics := hde.diagnostics }
          have hheader : (cut.renumber f).before ++ [(cut.renumber f).pivot] =
              renumbered f (cut.before ++ [cut.pivot]) := by
            rw [before_renumber, renumbered, renumbered, List.map_append]
            rfl
          have hheader_ne : cut.before ++ [cut.pivot] ≠ [] := by simp
          simp only [Option.map_some, hheader, ← hlength]
          by_cases hwhile : word = .whileWord
          · rw [if_pos hwhile, if_pos hwhile]
            exact parallel_whileLoop hheader_ne hcode _ hwithout
          · rw [if_neg hwhile, if_neg hwhile]
            exact parallel_forLoop hheader_ne hcode _ hwithout
      · simp only [if_neg hw]
        exact ⟨hde, trivial⟩
    | _ => exact ⟨hde, rfl⟩

theorem parallel_statement :
    (statement body ls).Parallel f same (statement body (renumbered f ls)) :=
  parallel_firstOf (.cons (parallel_declaration ls) (.cons (parallel_constantDefinition ls)
    (.cons (parallel_assignment ls) (.cons (parallel_loop hb) (.cons (parallel_conditional ls)
      (.cons (parallel_goto ls) (.cons (parallel_label ls) .nil)))))))

end
end

def renumberPending (f : Nat → Nat) (p : List Lexeme × List Diagnostic) :
    List Lexeme × List Diagnostic :=
  (renumbered f p.1, p.2.map (Diagnostic.renumber f))

theorem parallel_statementRuns {stmt : List Lexeme → Trial} {runs : List (List Lexeme)}
    {pending : Option (List Lexeme × List Diagnostic)}
    (hs : ∀ ls, ls <:+: (pending.elim [] Prod.fst) ++ runs.flatten →
      (stmt ls).Parallel f same (stmt (renumbered f ls)))
    {d e : Draft} (hde : d.Parallel f same e) :
    (statementRuns stmt runs pending d).1.Parallel f same
        (statementRuns stmt (runs.map (renumbered f)) (pending.map (renumberPending f)) e).1 ∧
      (statementRuns stmt (runs.map (renumbered f)) (pending.map (renumberPending f)) e).2 =
        (statementRuns stmt runs pending d).2.map (renumbered f) := by
  induction runs generalizing pending d e with
  | nil =>
    refine ⟨hde, ?_⟩
    cases pending <;> rfl
  | cons run runs ih =>
    have hclean : (if d.depth = 0 then { d with diagnostics := [] } else d).Parallel f same
        (if e.depth = 0 then { e with diagnostics := [] } else e) := by
      by_cases hzero : d.depth = 0
      · rw [if_pos hzero, if_pos (hde.depth.trans hzero)]
        exact hde.withDiagnostics []
      · rw [if_neg hzero, if_neg (hde.depth.trans_ne hzero)]
        exact hde
    simp only [List.map_cons, statementRuns]
    generalize (if d.depth = 0 then { d with diagnostics := [] } else d) = d at hclean
    generalize (if e.depth = 0 then { e with diagnostics := [] } else e) = e at hclean
    -- the pending lexemes and the diagnostics from before them correspond
    obtain ⟨front, earlier, hd, he, hfront⟩ : ∃ front earlier,
        pending.getD ([], d.diagnostics) = (front, earlier) ∧
        (pending.map (renumberPending f)).getD ([], e.diagnostics) =
          (renumbered f front, earlier.map (Diagnostic.renumber f)) ∧
        pending.elim [] Prod.fst = front := by
      cases pending with
      | none => exact ⟨[], d.diagnostics, rfl, by rw [hclean.diagnostics]; rfl, rfl⟩
      | some p => exact ⟨p.1, p.2, rfl, rfl, rfl⟩
    rw [hfront, List.flatten_cons, ← List.append_assoc] at hs
    have hrun : renumbered f front ++ renumbered f run = renumbered f (front ++ run) :=
      List.map_append.symm
    obtain ⟨d', e', accepted, h', hd', he'⟩ :=
      (hs (front ++ run) (List.prefix_append _ _).isInfix).exists_outcome hclean
    simp only [hd, he, hrun, hd', he']
    cases accepted with
    | true =>
      have hrest : ∀ ls, ls <:+: (none : Option (List Lexeme × List Diagnostic)).elim [] Prod.fst ++
          runs.flatten → (stmt ls).Parallel f same (stmt (renumbered f ls)) := fun ls hls =>
        hs ls (hls.trans (List.suffix_append _ _).isInfix)
      exact ih hrest (h'.withDiagnostics earlier)
    | false =>
      have hrest : ∀ ls, ls <:+: (some (front ++ run, earlier)).elim [] Prod.fst ++ runs.flatten →
          (stmt ls).Parallel f same (stmt (renumbered f ls)) := hs
      exact ih hrest h'

theorem parallel_statementList {rows : Set Nat} (hf : Set.InjOn f rows) {ls : List Lexeme}
    (h : ∀ l ∈ ls, l.row ∈ rows) {d e : Draft} (hde : d.Parallel f same e) :
    (statementList ls d).1.Parallel f same (statementList (renumbered f ls) e).1 ∧
      (statementList (renumbered f ls) e).2 = (statementList ls d).2.map (renumbered f) := by
  induction hn : ls.length using Nat.strong_induction_on generalizing ls d e with
  | _ n ih =>
    subst hn
    rw [statementList_eq, statementList_eq]
    by_cases hnil : ls = []
    · subst hnil
      exact ⟨hde, rfl⟩
    · have hnil' : renumbered f ls ≠ [] := by simpa using hnil
      rw [if_neg hnil, if_neg hnil', rowRuns_renumbered hf h]
      have hstmt : ∀ block, block <:+: (none : Option (List Lexeme × List Diagnostic)).elim []
          Prod.fst ++ (rowRuns ls).flatten →
            (statement listed block).Parallel f same (statement listed (renumbered f block)) := by
        intro block hblock
        rw [Option.elim_none, List.nil_append, rowRuns, List.flatten_splitBy] at hblock
        have hrows : ∀ l ∈ block, l.row ∈ rows := fun l hl => h l (hblock.subset hl)
        refine parallel_statement fun c hc inside hi d e hde => ?_
        have hlt : inside.length < ls.length :=
          (length_lt_of_insideBody? hc hi).trans_le hblock.length_le
        obtain ⟨hparallel, hpending⟩ :=
          ih inside.length hlt ((forall_mem_cut hrows hc).2 inside hi) hde rfl
        exact ⟨hparallel, by rw [listed, listed, hpending, Option.isNone_map]⟩
      exact parallel_statementRuns hstmt hde

end
end Trial

def SyntaxError.renumber (f : Nat → Nat) (e : SyntaxError) : SyntaxError :=
  ⟨e.diagnostic.map (Diagnostic.renumber f)⟩

theorem Diagnostic.deepest?_renumber (f : Nat → Nat) (ds : List Diagnostic) :
    deepest? (ds.map (renumber f)) = (deepest? ds).map (renumber f) := by
  induction ds with
  | nil => rfl
  | cons d ds ih =>
    rw [List.map_cons, deepest?, deepest?, ih]
    cases deepest? ds with
    | none => rfl
    | some e =>
      by_cases h : e.depth < d.depth
      · have h' : (e.renumber f).depth < (d.renumber f).depth := h
        simp only [Option.map_some, if_pos h, if_pos h']
      · have h' : ¬ (e.renumber f).depth < (d.renumber f).depth := h
        simp only [Option.map_some, if_neg h, if_neg h']

/-- Two parses fail with the same error or succeed with codes that are alike, and with the same tables
if they began with the same. -/
theorem parallel_parse {f : Nat → Nat} {same : Prop} {rows : Set Nat} (hf : Set.InjOn f rows)
    {ls : List Lexeme} (h : ∀ l ∈ ls, l.row ∈ rows) {t t' : Tables} (ht : same → t' = t)
    (hsound : ¬ same → t.constants.Sound ∧ t'.constants.Sound) :
    (∃ error, parse ls t = .error error ∧ parse (renumbered f ls) t' = .error (error.renumber f)) ∨
      ∃ p p', parse ls t = .ok p ∧ parse (renumbered f ls) t' = .ok p' ∧
        Code.Alike f same p.code p'.code ∧ (same → p'.tables = p.tables) := by
  by_cases hnil : ls = []
  · subst hnil
    exact Or.inl ⟨⟨none⟩, rfl, rfl⟩
  have hnil' : renumbered f ls ≠ [] := by simpa using hnil
  have hstart : ({ tables := t } : Draft).Parallel f same { tables := t' } :=
    ⟨ht, fun _ => rfl, hsound, .nil, rfl, rfl⟩
  obtain ⟨hend, hpending⟩ := Trial.parallel_statementList hf h hstart
  rw [parse, parse, if_neg hnil, if_neg hnil']
  rcases hd : Trial.statementList ls { tables := t } with ⟨d, pending⟩
  rcases he : Trial.statementList (renumbered f ls) { tables := t' } with ⟨e, pending'⟩
  rw [hd, he] at hend hpending
  obtain rfl : pending' = pending.map (renumbered f) := hpending
  cases pending with
  | none => exact Or.inr ⟨_, _, rfl, rfl, hend.code, hend.tables⟩
  | some pending =>
    have hdiagnostics : e.diagnostics = d.diagnostics.map (Diagnostic.renumber f) := hend.diagnostics
    refine Or.inl ⟨_, rfl, ?_⟩
    simp only [Option.map_some, SyntaxError.renumber, hdiagnostics, Diagnostic.deepest?_renumber]
    cases Diagnostic.deepest? d.diagnostics <;> rfl

end RowLang
