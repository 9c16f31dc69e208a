import Mathlib
import RowLang.Proofs.Statement.Records

/-! Where labels stand in the code of a tree. Expressions have none; every generated mark has one, in
the code of the statement it was made for. -/

namespace RowLang

namespace Code
variable {code code' front : Code} {record : Record} {mark : Nat}

def NoLabel (code : Code) : Prop := ∀ record ∈ code, record.instr ≠ .apply .label

def instr? (code : Code) (k : Nat) : Option Instr := code[k]?.map Record.instr

def LabelAt (mark : Nat) (code : Code) (k : Nat) : Prop :=
  code.instr? k = some (.push (.identifier mark)) ∧ code.instr? (k + 1) = some (.apply .label)

/-- A mark has no label in the code, not even one whose operator stands at the very start. -/
def Lacks (mark : Nat) (code : Code) : Prop :=
  (∀ record ∈ code.head?, record.instr ≠ .apply .label) ∧ code.labelEnd? mark = none

@[simp] theorem noLabel_nil : NoLabel [] := by simp [NoLabel]

@[simp] theorem noLabel_cons :
    NoLabel (record :: code) ↔ record.instr ≠ .apply .label ∧ NoLabel code :=
  List.forall_mem_cons

@[simp] theorem noLabel_append : NoLabel (code ++ code') ↔ NoLabel code ∧ NoLabel code' :=
  List.forall_mem_append

theorem labelEnd?_append (h : ∀ record ∈ code.head?, record.instr ≠ .apply .label) :
    labelEnd? mark (front ++ code) =
      (front.labelEnd? mark).or ((code.labelEnd? mark).map (· + front.length)) := by
  induction front with
  | nil => simp [labelEnd?]
  | cons a front ih =>
    cases front with
    | nil =>
      cases code with
      | nil => simp [labelEnd?]
      | cons b code =>
        have hb := h b rfl
        simp [labelEnd?, hb]
    | cons b front =>
      simp only [List.cons_append, labelEnd?] at ih ⊢
      split
      · simp
      · rw [ih]
        cases labelEnd? mark (b :: front) <;> simp [Function.comp_def, Nat.add_assoc]

theorem Lacks.append (h : Lacks mark code) (h' : Lacks mark code') : Lacks mark (code ++ code') := by
  refine ⟨?_, by rw [labelEnd?_append h'.1, h.2, h'.2]; rfl⟩
  cases code with
  | nil => exact h'.1
  | cons a code => exact h.1

theorem NoLabel.lacks (h : NoLabel code) (mark : Nat) : Lacks mark code := by
  refine ⟨fun record hr => h record (List.mem_of_head? hr), ?_⟩
  induction code with
  | nil => rfl
  | cons a code ih =>
    cases code with
    | nil => rfl
    | cons b code =>
      obtain ⟨-, hrest⟩ := noLabel_cons.1 h
      have hb := (noLabel_cons.1 hrest).1
      rw [labelEnd?, if_neg fun hab => hb hab.2, ih hrest]
      rfl

theorem lacks_label {row row' other : Nat} (h : other ≠ mark) :
    Lacks mark [.identifier row other, .op row' .label] := by
  refine ⟨by simp [Record.identifier], ?_⟩
  simp [labelEnd?, Record.identifier, h]

theorem labelEnd?_of_lacks (h : Lacks mark front) (row row' : Nat) (code : Code) :
    labelEnd? mark (front ++ .identifier row mark :: .op row' .label :: code) =
      some (front.length + 2) := by
  rw [labelEnd?_append (by simp [Record.identifier]), h.2]
  simp [labelEnd?, Record.identifier, Record.op, Nat.add_comm]

theorem labelEnd?_cons (mark : Nat) (record : Record) (code : Code) :
    (LabelAt mark (record :: code) 0 → labelEnd? mark (record :: code) = some 2) ∧
      (¬ LabelAt mark (record :: code) 0 →
        labelEnd? mark (record :: code) = (labelEnd? mark code).map (· + 1)) := by
  cases code <;> simp +contextual [LabelAt, instr?, labelEnd?]

theorem labelEnd?_eq_some_iff {n : Nat} : labelEnd? mark code = some n ↔
    ∃ k, n = k + 2 ∧ LabelAt mark code k ∧ ∀ j < k, ¬ LabelAt mark code j := by
  induction code generalizing n with
  | nil => simp [labelEnd?, LabelAt, instr?]
  | cons record code ih =>
    -- behind the first record labels stand where they do in the rest
    have hnext (k : Nat) : LabelAt mark (record :: code) (k + 1) ↔ LabelAt mark code k := Iff.rfl
    by_cases h : LabelAt mark (record :: code) 0
    · rw [(labelEnd?_cons mark record code).1 h]
      constructor
      · rintro ⟨⟩
        exact ⟨0, rfl, h, by simp⟩
      · rintro ⟨k, rfl, -, hfirst⟩
        obtain rfl : k = 0 := by
          by_contra hk
          exact hfirst 0 (Nat.pos_of_ne_zero hk) h
        rfl
    · rw [(labelEnd?_cons mark record code).2 h, Option.map_eq_some_iff]
      constructor
      · rintro ⟨n, hn, rfl⟩
        obtain ⟨k, rfl, hk, hfirst⟩ := ih.1 hn
        refine ⟨k + 1, rfl, hk, fun j hj => ?_⟩
        cases j with
        | zero => exact h
        | succ j => exact hfirst j (by omega)
      · rintro ⟨k, rfl, hk, hfirst⟩
        cases k with
        | zero => exact absurd hk h
        | succ k =>
          refine ⟨k + 2, ih.2 ⟨k, rfl, hk, fun j hj => ?_⟩, rfl⟩
          exact hfirst (j + 1) (by omega)

end Code

theorem Expr.noLabel_code (e : Expr) : Code.NoLabel e.code := by
  induction e with
  | operand l =>
    simp only [code, items, recordsOf, List.flatMap_singleton, Item.records]
    split
    · simp
    · split <;> simp [Record.constant, Record.identifier]
  | group o e c ih => exact ih
  | unary l e ih =>
    rw [code, items, recordsOf_append, Code.noLabel_append]
    refine ⟨ih, ?_⟩
    unfold unaryItems
    split <;> simp [recordsOf, Item.records, Record.op]
  | binary a l b iha ihb =>
    rw [code, items, recordsOf_append, recordsOf_append, Code.noLabel_append, Code.noLabel_append]
    refine ⟨⟨iha, ihb⟩, ?_⟩
    unfold joinItems
    split
    · rename_i op hop
      refine Code.noLabel_cons.2 ⟨?_, by simp⟩
      rintro ⟨⟩
      cases hk : l.kind <;> simp [hk, Operator.ofKind?] at hop
    · simp [recordsOf]

namespace Header
variable {h : Header} {one endRow : Nat}

theorem noLabel_start : Code.NoLabel h.start := by
  cases h with
  | whileLoop word condition => simp [start]
  | forLoop word init toWord bound => exact init.expr.noLabel_code

theorem noLabel_test : Code.NoLabel h.test := by
  cases h with
  | whileLoop word condition => exact condition.noLabel_code
  | forLoop word init toWord bound =>
    have hname : Code.NoLabel (recordsOf [.operand (init.name.onRow word.row)]) :=
      Expr.noLabel_code (.operand (init.name.onRow word.row))
    simp [test, hname, bound.noLabel_code, Record.op]

theorem noLabel_next : Code.NoLabel (h.next one endRow) := by
  cases h with
  | whileLoop word condition => simp [next]
  | forLoop word init toWord bound =>
    have hname : Code.NoLabel (recordsOf [.operand (init.name.onRow endRow)]) :=
      Expr.noLabel_code (.operand (init.name.onRow endRow))
    rw [next, recordsOf_cons]
    simp [hname, Record.op, Record.constant]

end Header
end RowLang
