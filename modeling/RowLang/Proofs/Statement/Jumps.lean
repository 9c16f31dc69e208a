import Mathlib
import RowLang.Proofs.Machine.Steps
import RowLang.Proofs.Statement.Labels

/-! Marks and labels. A name that no declaration has given its type last is a mark exactly if the code
has a label for it; a declaration makes its name a mark if it copies the type of one. Jumps fail in
runs only where the two come apart. -/

namespace RowLang

namespace Code
variable {mark : Nat} {code code' : Code} {S S' : Nat → Prop}

def HasLabel (mark : Nat) (code : Code) : Prop := ∃ k, LabelAt mark code k

/-- The labels of some code are those of certain marks. The code does not begin with a label operator,
so nothing in front of it makes that a label. -/
structure Labels (S : Nat → Prop) (code : Code) : Prop where
  opens : ∀ record ∈ code.head?, record.instr ≠ .apply .label
  label : ∀ mark, code.HasLabel mark ↔ S mark

theorem labelEnd?_eq_none_iff : labelEnd? mark code = none ↔ ¬ code.HasLabel mark := by
  constructor
  · rintro hnone hlabel
    classical
    have hfirst : labelEnd? mark code = some (Nat.find hlabel + 2) :=
      labelEnd?_eq_some_iff.2 ⟨_, rfl, Nat.find_spec hlabel, fun j hj => Nat.find_min hlabel hj⟩
    simp [hnone] at hfirst
  · intro hno
    refine Option.eq_none_iff_forall_ne_some.2 fun n hn => ?_
    obtain ⟨k, -, hk, -⟩ := labelEnd?_eq_some_iff.1 hn
    exact hno ⟨k, hk⟩

theorem labels_nil : Labels (fun _ => False) [] :=
  ⟨by simp, fun mark => by simp [← not_iff_not, ← labelEnd?_eq_none_iff, labelEnd?]⟩

theorem NoLabel.labels (h : NoLabel code) : Labels (fun _ => False) code :=
  ⟨(h.lacks 0).1, fun mark => iff_of_false (labelEnd?_eq_none_iff.1 (h.lacks mark).2) id⟩

theorem labels_label (row row' mark : Nat) :
    Labels (· = mark) [.identifier row mark, .op row' .label] := by
  refine ⟨by simp [Record.identifier], fun other => ⟨?_, ?_⟩⟩
  · intro hlabel
    by_contra hne
    exact labelEnd?_eq_none_iff.1 (lacks_label (Ne.symm hne)).2 hlabel
  · rintro rfl
    exact ⟨0, rfl, rfl⟩

theorem Labels.append (h : Labels S code) (h' : Labels S' code') :
    Labels (fun mark => S mark ∨ S' mark) (code ++ code') := by
  refine ⟨?_, fun mark => ?_⟩
  · cases code with
    | nil => exact h'.opens
    | cons record code => exact h.opens
  · rw [← h.label, ← h'.label, ← not_iff_not, not_or, ← labelEnd?_eq_none_iff,
      ← labelEnd?_eq_none_iff, ← labelEnd?_eq_none_iff, labelEnd?_append h'.opens, Option.or_eq_none_iff,
      Option.map_eq_none_iff]

theorem Labels.congr (h : Labels S code) (hS : ∀ mark, S mark ↔ S' mark) : Labels S' code :=
  ⟨h.opens, fun mark => (h.label mark).trans (hS mark)⟩

end Code

def Labelled (typings : List Typing) (i : Nat) : Prop :=
  ∃ typing ∈ typings, typing.target.link = some i ∧ typing.source = .known .mark

section
variable {t : Tables} {next one : Nat}

theorem labelled_append {typings typings' : List Typing} {i : Nat} :
    Labelled (typings ++ typings') i ↔ Labelled typings i ∨ Labelled typings' i := by
  simp only [Labelled, List.mem_append, or_and_right, exists_or]

theorem TypeSource.ofWord_ne_mark (word : Lexeme) : ofWord word ≠ .known .mark := by
  unfold ofWord
  split
  · rename_i type _
    cases type <;> simp [ValueType.ofWord]
  · simp

theorem TypeSource.ofValue_ne_mark (value : List Lexeme) : ofValue value ≠ .known .mark := by
  unfold ofValue
  split
  · simp
  · split
    · simp
    · split <;> simp

theorem Definition.not_labelled (d : Definition) (i : Nat) : ¬ Labelled d.typings i := by
  rintro ⟨typing, hmem, -, hmark⟩
  cases d with
  | declaration word name type value =>
    cases type with
    | none =>
      obtain rfl := List.mem_singleton.1 hmem
      exact TypeSource.ofValue_ne_mark _ hmark
    | some p =>
      obtain rfl := List.mem_singleton.1 hmem
      exact TypeSource.ofWord_ne_mark _ hmark
  | assignment name sign value => simp [typings] at hmem

theorem Simple.labels_code {s : Simple} (h : s.Proper) (hl : AllLinked t s.lexemes) :
    Code.Labels (fun i => Labelled s.typings i ∨ next ≤ i ∧ i < next + s.marks) (s.code next) := by
  have hgoto (mark : Lexeme) (row : Nat) :
      Code.NoLabel (recordsOf [.operand mark, .operator .goto row]) := by
    have hmark : Code.NoLabel (recordsOf [.operand mark]) := Expr.noLabel_code (.operand mark)
    rw [recordsOf_cons, recordsOf_operator]
    simp [hmark, Record.op]
  cases s with
  | definition d =>
    refine (Code.NoLabel.labels d.expr.noLabel_code).congr fun i => ?_
    simp [typings, marks, d.not_labelled i]
  | conditional word condition thenWord jump mark =>
    have hbranch : Code.NoLabel [.identifier word.row next, .op word.row .branch] := by
      simp [Record.identifier, Record.op]
    refine (((condition.noLabel_code.labels.append hbranch.labels).append
      (hgoto mark jump.row).labels).append (Code.labels_label ..)).congr fun i => ?_
    simp [typings, marks, Labelled]
    omega
  | goto word mark =>
    refine (hgoto mark word.row).labels.congr fun i => ?_
    simp [typings, marks, Labelled]
  | label mark colon =>
    simp only [lexemes, allLinked_cons] at hl
    obtain ⟨j, hlink, -, hrecords⟩ := recordsOf_name hl.1 h.1
    have hcode : (label mark colon).code next = [.identifier mark.row j, .op colon.row .label] := by
      rw [code, recordsOf_cons, recordsOf_operator, show recordsOf [.operand mark] = _ from
        hrecords mark.row]
      rfl
    rw [hcode]
    refine (Code.labels_label ..).congr fun i => ?_
    simp [typings, marks, Labelled, hlink, eq_comm]

theorem Header.not_labelled (h : Header) (i : Nat) : ¬ Labelled h.typings i := by
  cases h with
  | whileLoop word condition => simp [typings, Labelled]
  | forLoop word init toWord bound => exact init.not_labelled i

theorem Header.labels_enter (h : Header) (top exit : Nat) :
    Code.Labels (· = top) (h.enter top exit) := by
  have hbranch : Code.NoLabel [.identifier h.word.row exit, .op h.word.row .branch] := by
    simp [Record.identifier, Record.op]
  refine (((h.noLabel_start.labels.append (Code.labels_label ..)).append
    h.noLabel_test.labels).append hbranch.labels).congr fun i => ?_
  simp only [false_or, or_false]

theorem Header.labels_leave (h : Header) (one top exit endRow : Nat) :
    Code.Labels (· = exit) (h.leave one top exit endRow) := by
  have hgoto : Code.NoLabel [.identifier endRow top, .op endRow .goto] := by
    simp [Record.identifier, Record.op]
  refine (h.noLabel_next.labels.append (hgoto.labels.append (Code.labels_label ..))).congr fun i => ?_
  simp only [false_or]

theorem Block.labels_code {b : Block} (h : b.Proper) (hl : AllLinked t b.lexemes) :
    Code.Labels (fun i => Labelled b.typings i ∨ next ≤ i ∧ i < next + b.marks) (b.code one next) := by
  induction b generalizing next with
  | done =>
    refine Code.labels_nil.congr fun i => ?_
    simp [typings, marks, Labelled]
  | simple s rest ih =>
    obtain ⟨hls, hlr⟩ := allLinked_append.1 hl
    refine ((s.labels_code h.1 hls).append (ih h.2.2.2 hlr)).congr fun i => ?_
    simp only [typings, marks, labelled_append]
    grind
  | loop header o body c rest ihb ihr =>
    obtain ⟨hh, -, -, hb, -, -, -, hr⟩ := h
    simp only [lexemes, allLinked_append, allLinked_cons] at hl
    refine ((((header.labels_enter _ _).append (ihb hb hl.1.2.2.1)).append
      (header.labels_leave ..)).append (ihr hr hl.2)).congr fun i => ?_
    simp only [typings, marks, labelled_append, header.not_labelled, or_false]
    grind

end

def TypeSource.CopiesMark (identifiers : Identifiers) (source : TypeSource) : Prop :=
  ∃ i e, source = .copied (some i) ∧ identifiers.get? i = some e ∧ e.type = .mark

theorem TypeSource.type_eq_mark_iff {source : TypeSource} (h : source ≠ .known .mark)
    (identifiers : Identifiers) : source.type identifiers = .mark ↔ source.CopiesMark identifiers := by
  cases source with
  | known type =>
    have hne : type ≠ .mark := fun htype => h (congrArg known htype)
    simp [TypeSource.type, CopiesMark, hne]
  | copied link =>
    cases link with
    | none => simp [TypeSource.type, CopiesMark]
    | some i => cases hget : identifiers.get? i <;> simp [TypeSource.type, CopiesMark, hget]

namespace Block

def LastDeclared (b : Block) (i : Nat) (before : List Typing) (source : TypeSource) : Prop :=
  source ≠ .known .mark ∧ ∃ target after, b.typings = before ++ ⟨target, source⟩ :: after ∧
    target.link = some i ∧ ∀ typing ∈ after, typing.target.link ≠ some i

section
variable {b : Block} {t : Tables} {i : Nat} {entry : Identifier} {typings : List Typing}

theorem exists_last_typing (h : ∃ typing ∈ typings, typing.target.link = some i) :
    ∃ before typing after, typings = before ++ typing :: after ∧ typing.target.link = some i ∧
      ∀ x ∈ after, x.target.link ≠ some i := by
  induction typings with
  | nil => simp at h
  | cons typing typings ih =>
    by_cases hrest : ∃ x ∈ typings, x.target.link = some i
    · obtain ⟨before, last, after, rfl, hlast, hafter⟩ := ih hrest
      exact ⟨typing :: before, last, after, rfl, hlast, hafter⟩
    · obtain ⟨x, hx, hlink⟩ := h
      rcases List.mem_cons.1 hx with rfl | hx
      · exact ⟨[], x, typings, rfl, hlink, fun y hy hlater => hrest ⟨y, hy, hlater⟩⟩
      · exact absurd ⟨x, hx, hlink⟩ hrest

theorem type_eq_mark_iff (h : b.Proper) (ht : t.Lexed) (hl : AllLinked t b.lexemes)
    (he : (b.lower t).tables.identifiers.get? i = some entry)
    (hlast : ∀ before source, ¬ b.LastDeclared i before source) :
    entry.type = .mark ↔ (b.lower t).code.HasLabel i := by
  refine Iff.trans ?_ ((b.labels_code h hl).label i).symm
  by_cases hi : i < t.identifiers.size
  · have hno : ¬ (t.identifiers.size ≤ i ∧ i < t.identifiers.size + b.marks) := by omega
    simp only [hno, or_false]
    by_cases hany : ∃ typing ∈ b.typings, typing.target.link = some i
    · obtain ⟨before, typing, after, hsplit, hlink, hafter⟩ := exists_last_typing hany
      have htype := type_of_lastTyping he hi hsplit hlink hafter
      by_cases hmark : typing.source = .known .mark
      · rw [hmark] at htype
        exact iff_of_true htype ⟨typing, by simp [hsplit], hlink, hmark⟩
      · exact absurd ⟨hmark, typing.target, after, hsplit, hlink, hafter⟩ (hlast before typing.source)
    · rw [get?_lower_typed hi, Identifiers.get?_typed_of_ne fun x hx hlink => hany ⟨x, hx, hlink⟩] at he
      have hundef := (ht.untouched entry (List.mem_of_getElem? he)).1
      refine iff_of_false (by simp [hundef]) ?_
      rintro ⟨typing, hmem, hlink, -⟩
      exact hany ⟨typing, hmem, hlink⟩
  · have hlt : i < t.identifiers.size + b.marks := by
      have hlt : i < (b.lower t).tables.identifiers.size := (List.getElem?_eq_some_iff.1 he).1
      simpa [lower] using hlt
    have hmark : (b.lower t).tables.identifiers.get? i = some (Identifiers.markAt i) :=
      Identifiers.get?_marked_mark (by simpa using hi) (by simpa using hlt)
    rw [he, Option.some.injEq] at hmark
    exact iff_of_true (congrArg Identifier.type hmark) (Or.inr ⟨Nat.le_of_not_lt hi, hlt⟩)

theorem LastDeclared.type_eq_mark_iff {before : List Typing} {source : TypeSource}
    (hd : b.LastDeclared i before source) (h : b.Proper) (hl : AllLinked t b.lexemes)
    (he : (b.lower t).tables.identifiers.get? i = some entry) :
    entry.type = .mark ↔ source.CopiesMark (t.identifiers.typed before) := by
  obtain ⟨hsource, target, after, hsplit, hlink, hafter⟩ := hd
  have hi : i < t.identifiers.size :=
    (b.typings_below h hl ⟨target, source⟩ (by simp [hsplit])).1 i hlink
  rw [type_of_lastTyping he hi hsplit hlink hafter]
  exact TypeSource.type_eq_mark_iff hsource _

end
end Block

/-- A name whose type does not come from a declaration is a mark exactly if the code has a label for
it. A declaration makes its name a mark if it copies the type of one. In a run, and in one that is
taken up again after faults, a jump lacks its label only if such a declaration came last for its
target, and it finds that a name with a label is no mark only if another declaration did. -/
theorem compile_marks_have_labels {s : Settings} {source : String} {compiled : Compiled}
    (h : s.compile source = .ok compiled) :
    let lexed := (lex source).tables.identifiers
    let identifiers := compiled.program.tables.identifiers
    let code := compiled.program.code
    (∃ b : Block, b.Reads compiled.lexemes) ∧
    ∀ b : Block, b.Reads compiled.lexemes →
      (∀ i entry, identifiers.get? i = some entry →
        ((∀ before origin, ¬ b.LastDeclared i before origin) →
          (entry.type = .mark ↔ code.HasLabel i)) ∧
        ∀ before origin, b.LastDeclared i before origin →
          (entry.type = .mark ↔ origin.CopiesMark (lexed.typed before))) ∧
      ∀ fuels n e m, ((s.load compiled.program).resumed fuels).run n = (.failed e, m) →
        (∀ name, e.cause = .labelNotFound name → ∃ i entry, identifiers.get? i = some entry ∧
          entry.name = name ∧ ¬ code.HasLabel i ∧
          ∃ before origin, b.LastDeclared i before origin ∧ origin.CopiesMark (lexed.typed before)) ∧
        ∀ name, e.cause = .unknownMark name → ∃ i entry, identifiers.get? i = some entry ∧
          entry.name = name ∧ (code.HasLabel i → ∃ before origin, b.LastDeclared i before origin ∧
            ¬ origin.CopiesMark (lexed.typed before)) := by
  intro lexed identifiers code
  obtain ⟨hlexemes, hparse⟩ := Settings.parse_of_compile h
  rw [hlexemes]
  refine ⟨(isList_of_parse hparse).exists_tree.imp fun b hb => hb.2, fun b hb => ?_⟩
  obtain ⟨hlexed, hlinked⟩ := lex_spec source
  rw [← hb.2] at hlinked
  have hprogram : compiled.program = b.lower (lex source).tables := eq_lower_of_parse hparse hb
  have htyped (i : Nat) (entry : Identifier) (he : identifiers.get? i = some entry) :
      ((∀ before origin, ¬ b.LastDeclared i before origin) → (entry.type = .mark ↔ code.HasLabel i)) ∧
      ∀ before origin, b.LastDeclared i before origin →
        (entry.type = .mark ↔ origin.CopiesMark (lexed.typed before)) := by
    simp only [identifiers, code, hprogram] at he ⊢
    exact ⟨b.type_eq_mark_iff hb.1 hlexed hlinked he,
      fun before origin hd => hd.type_eq_mark_iff hb.1 hlinked he⟩
  refine ⟨htyped, fun fuels n e m hrun => ?_⟩
  have hcontinues := (s.load compiled.program).continues_resumed fuels
  have hjustified := (Machine.run_sound n _).2 e (congrArg Prod.fst hrun)
  rw [hcontinues.code] at hjustified
  have hjustified := hjustified.before hcontinues.tables
  have hdeclared {i : Nat} {entry : Identifier} (he : identifiers.get? i = some entry)
      (hne : ¬ (entry.type = .mark ↔ code.HasLabel i)) :
      ∃ before origin, b.LastDeclared i before origin ∧
        (entry.type = .mark ↔ origin.CopiesMark (lexed.typed before)) := by
    by_contra hnone
    refine hne ((htyped i entry he).1 fun before origin hd => hnone ⟨before, origin, hd, ?_⟩)
    exact (htyped i entry he).2 before origin hd
  constructor
  · intro name hcause
    rw [hcause] at hjustified
    obtain ⟨i, entry, he, hname, htype, hend⟩ := hjustified
    have hlabel : ¬ code.HasLabel i := Code.labelEnd?_eq_none_iff.1 hend
    obtain ⟨before, origin, hd, hcopies⟩ := hdeclared he fun hiff => hlabel (hiff.1 htype)
    exact ⟨i, entry, he, hname, hlabel, before, origin, hd, hcopies.1 htype⟩
  · intro name hcause
    rw [hcause] at hjustified
    obtain ⟨i, entry, he, hname, htype⟩ := hjustified
    refine ⟨i, entry, he, hname, fun hlabel => ?_⟩
    obtain ⟨before, origin, hd, hcopies⟩ := hdeclared he fun hiff => htype (hiff.2 hlabel)
    exact ⟨before, origin, hd, fun hmark => htype (hcopies.2 hmark)⟩

/-- `y` copies the type of a mark and has no label. -/
theorem compile_marks_have_labels_of_copy : ∃ source compiled b m i before origin,
    source = "goto y\nL :\nval y = L" ∧ Settings.compile {} source = .ok compiled ∧
    Block.Reads b compiled.lexemes ∧
    (Settings.load {} compiled.program).run 9 = (.failed ⟨.labelNotFound "y", some 1⟩, m) ∧
    compiled.program.tables.identifiers.names[i]? = some "y" ∧
    ¬ compiled.program.code.HasLabel i ∧ b.LastDeclared i before origin ∧
    origin.CopiesMark ((lex source).tables.identifiers.typed before) := by
  obtain ⟨compiled, hc, hrun⟩ := exists_of_any
    (r := Settings.compile {} "goto y\nL :\nval y = L")
    (p := fun compiled => decide
      (((Settings.load {} compiled.program).run 9).1 = .failed ⟨.labelNotFound "y", some 1⟩))
    (by decide +kernel)
  obtain ⟨⟨b, hb⟩, hall⟩ := compile_marks_have_labels hc
  have hfailed : (Settings.load {} compiled.program).run 9 = (.failed ⟨.labelNotFound "y", some 1⟩, _) :=
    Prod.ext (of_decide_eq_true hrun) rfl
  obtain ⟨i, entry, he, hname, hlabel, before, origin, hd, hcopies⟩ :=
    ((hall b hb).2 [] 9 _ _ hfailed).1 "y" rfl
  have hnames : compiled.program.tables.identifiers.names[i]? = some "y" := by
    rw [Identifiers.names, List.getElem?_map, show compiled.program.tables.identifiers.entries[i]? = _
      from he, ← hname]
    rfl
  exact ⟨_, compiled, b, _, i, before, origin, rfl, hc, hb, hfailed, hnames, hlabel, hd, hcopies⟩

/-- A mark without a label, and a label whose name is no mark: declarations may come last. -/
theorem marks_and_labels_differ :
    (∃ compiled entry m, Settings.compile {} "goto y\nL :\nval y = L" = .ok compiled ∧
      compiled.program.tables.identifiers.get? 0 = some entry ∧ entry.name = "y" ∧
      entry.type = .mark ∧ ¬ compiled.program.code.HasLabel 0 ∧
      (Settings.load {} compiled.program).run 9 = (.failed ⟨.labelNotFound "y", some 1⟩, m)) ∧
    ∃ compiled entry m, Settings.compile {} "goto x\nx :\nvar x = 1" = .ok compiled ∧
      compiled.program.tables.identifiers.get? 0 = some entry ∧ entry.name = "x" ∧
      entry.type ≠ .mark ∧ compiled.program.code.HasLabel 0 ∧
      (Settings.load {} compiled.program).run 9 = (.failed ⟨.unknownMark "x", some 1⟩, m) := by
  constructor
  · obtain ⟨compiled, hc, hfacts⟩ := exists_of_any
      (r := Settings.compile {} "goto y\nL :\nval y = L")
      (p := fun compiled => decide
        ((∃ entry ∈ compiled.program.tables.identifiers.get? 0, entry.name = "y" ∧ entry.type = .mark) ∧
          compiled.program.code.labelEnd? 0 = none ∧
          ((Settings.load {} compiled.program).run 9).1 = .failed ⟨.labelNotFound "y", some 1⟩))
      (by decide +kernel)
    obtain ⟨⟨entry, he, hname, htype⟩, hend, hstatus⟩ := of_decide_eq_true hfacts
    exact ⟨compiled, entry, _, hc, he, hname, htype, Code.labelEnd?_eq_none_iff.1 hend,
      Prod.ext hstatus rfl⟩
  · obtain ⟨compiled, hc, hfacts⟩ := exists_of_any
      (r := Settings.compile {} "goto x\nx :\nvar x = 1")
      (p := fun compiled => decide
        ((∃ entry ∈ compiled.program.tables.identifiers.get? 0, entry.name = "x" ∧ entry.type ≠ .mark) ∧
          compiled.program.code.labelEnd? 0 ≠ none ∧
          ((Settings.load {} compiled.program).run 9).1 = .failed ⟨.unknownMark "x", some 1⟩))
      (by decide +kernel)
    obtain ⟨⟨entry, he, hname, htype⟩, hend, hstatus⟩ := of_decide_eq_true hfacts
    exact ⟨compiled, entry, _, hc, he, hname, htype, not_not.1 fun hno =>
      hend (Code.labelEnd?_eq_none_iff.2 hno), Prod.ext hstatus rfl⟩

end RowLang
