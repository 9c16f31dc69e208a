import Mathlib
import RowLang.Proofs.Statement.Parallel

/-! Syntax does not depend on the tables. Whether lexemes are a program, which error is reported if not,
and the code up to the positions of entries are the same over all tables whose constants were interned. -/

namespace RowLang

inductive Identifiers.Built : Identifiers → Prop
  | empty : Built .empty
  | intern {t : Identifiers} (h : Built t) (name : String) : Built (t.intern name).1
  | pushMark {t : Identifiers} (h : Built t) : Built t.pushMark.1
  | setType {t : Identifiers} (h : Built t) (i : Nat) (type : ValueType) : Built (t.setType i type)
  | setBinding {t : Identifiers} (h : Built t) (i : Nat) (b : Binding) : Built (t.setBinding i b)
  | setModifiable {t : Identifiers} (h : Built t) (i : Nat) (b : Bool) : Built (t.setModifiable i b)
  | truncate {t : Identifiers} (h : Built t) (n : Nat) : Built (t.truncate n)

structure Tables.Built (t : Tables) : Prop where
  constants : t.constants.Built
  identifiers : t.identifiers.Built

def Ref.shape : Ref → Ref
  | constant _ => constant 0
  | identifier _ => identifier 0

def Instr.shape : Instr → Instr
  | push ref => push ref.shape
  | apply op => apply op

def Record.shape (r : Record) : Record := ⟨r.row, r.instr.shape⟩

theorem Instr.Alike.shape_eq {same : Prop} {instr instr' : Instr} (h : instr.Alike same instr') :
    instr'.shape = instr.shape := by
  cases h <;> rfl

theorem Record.Alike.shape_eq {same : Prop} {r r' : Record} (h : r.Alike id same r') :
    r'.shape = r.shape := by
  rw [Record.shape, h.row, h.instr.shape_eq]
  rfl

theorem Code.Alike.map_shape {same : Prop} {code code' : Code} (h : Code.Alike id same code code') :
    code'.map Record.shape = code.map Record.shape := by
  induction h with
  | nil => rfl
  | cons hr _ ih => rw [List.map_cons, List.map_cons, hr.shape_eq, ih]

theorem renumbered_id (ls : List Lexeme) : renumbered id ls = ls := List.map_id ls

theorem Diagnostic.renumber_id (d : Diagnostic) : d.renumber id = d := by
  rw [Diagnostic.renumber, renumbered_id]

theorem SyntaxError.renumber_id (e : SyntaxError) : e.renumber id = e := by
  obtain ⟨_ | d⟩ := e
  · rfl
  · rw [SyntaxError.renumber, Option.map_some, d.renumber_id]

/-- Over any two tables the same lexemes fail with the same error, or give codes that are the same
record by record but for the positions of the entries. The lexemes may be linked or not, and to entries
that do not exist. -/
theorem parse_independent (ls : List Lexeme) {t t' : Tables} (ht : t.Built) (ht' : t'.Built) :
    (∃ error, parse ls t = .error error ∧ parse ls t' = .error error) ∨
      ∃ p p', parse ls t = .ok p ∧ parse ls t' = .ok p' ∧
        p'.code.map Record.shape = p.code.map Record.shape := by
  have hsound : ¬ False → t.constants.Sound ∧ t'.constants.Sound := fun _ =>
    ⟨ht.constants.sound, ht'.constants.sound⟩
  have hrows : ∀ l ∈ ls, l.row ∈ Set.univ := fun l _ => Set.mem_univ l.row
  have hparses := parallel_parse (Set.injOn_id Set.univ) hrows (False.elim (C := t' = t)) hsound
  rw [renumbered_id] at hparses
  rcases hparses with ⟨error, herror, herror'⟩ | ⟨p, p', hp, hp', hcode, -⟩
  · rw [error.renumber_id] at herror'
    exact Or.inl ⟨error, herror, herror'⟩
  · exact Or.inr ⟨p, p', hp, hp', hcode.map_shape⟩

/-- `x = 2` and `y = ?`, where `x` is linked to an entry that no table has, the others are not linked,
and `?` is no literal. -/
def strayLexemes : List Lexeme :=
  [⟨1, "x", .identifier, some 7⟩, ⟨1, "=", .assign, none⟩, ⟨1, "2", .constant, none⟩,
    ⟨2, "y", .identifier, none⟩, ⟨2, "=", .assign, none⟩, ⟨2, "?", .constant, none⟩]

def earlierTables : Tables := ⟨(Constants.empty.intern (.number 2)).1, Identifiers.empty.pushMark.1⟩

/-- The stray lexemes are a program over both tables, and the two codes differ in positions. -/
theorem parse_independent_of_stray_lexemes :
    ({} : Tables).Built ∧ earlierTables.Built ∧
      ∃ p p', parse strayLexemes {} = .ok p ∧ parse strayLexemes earlierTables = .ok p' ∧
        p'.code.map Record.shape = p.code.map Record.shape ∧ p'.code ≠ p.code := by
  have hempty : ({} : Tables).Built := ⟨.empty, .empty⟩
  have hearlier : earlierTables.Built := ⟨Constants.Built.empty.intern _, Identifiers.Built.empty.pushMark⟩
  have hcodes : (parse strayLexemes {}).toOption.map Program.code ≠
      (parse strayLexemes earlierTables).toOption.map Program.code := by decide +kernel
  refine ⟨hempty, hearlier, ?_⟩
  rcases parse_independent strayLexemes hempty hearlier with ⟨error, herror, herror'⟩ | ⟨p, p', hp, hp', hcode⟩
  · rw [herror, herror'] at hcodes
    exact absurd rfl hcodes
  · rw [hp, hp'] at hcodes
    exact ⟨p, p', hp, hp', hcode, fun h => hcodes (congrArg some h.symm)⟩

end RowLang
