import Mathlib
import RowLang.Proofs.Machine.Reckoning

/-! The records of any items, linked or not. An operator has one record; an operand has one that puts it on
the stack, or none if its text is no literal; and what is new in the tables is on the stack at some
time. -/

namespace RowLang

inductive Renders : List Item → Code → Prop
  | nil : Renders [] []
  | operator (op : Operator) (row : Nat) {items : List Item} {code : Code} (h : Renders items code) :
      Renders (.operator op row :: items) (.op row op :: code)
  | operand (l : Lexeme) (ref : Ref) {items : List Item} {code : Code} (h : Renders items code) :
      Renders (.operand l :: items) (⟨l.row, .push ref⟩ :: code)
  | omitted (l : Lexeme) {items : List Item} {code : Code} (h : Renders items code) :
      Renders (.operand l :: items) code

namespace Renders
variable {items : List Item} {code : Code}

theorem plain (h : Renders items code)
    (hitems : ∀ op row, .operator op row ∈ items → op.valueType?.isSome) :
    ∀ record ∈ code, record.instr.Plain := by
  induction h with
  | nil => simp
  | operator op row h ih =>
    rw [List.forall_mem_cons]
    exact ⟨hitems op row List.mem_cons_self,
      ih fun op' row' hm => hitems op' row' (List.mem_cons_of_mem _ hm)⟩
  | operand l ref h ih =>
    rw [List.forall_mem_cons]
    exact ⟨trivial, ih fun op row hm => hitems op row (List.mem_cons_of_mem _ hm)⟩
  | omitted l h ih => exact ih fun op row hm => hitems op row (List.mem_cons_of_mem _ hm)

theorem gain_le (h : Renders items code) :
    (code.map fun record => record.instr.gain).sum ≤ (items.map Item.gain).sum := by
  induction h with
  | nil => simp
  | operator op row h ih =>
    rw [List.map_cons, List.map_cons, List.sum_cons, List.sum_cons]
    exact add_le_add le_rfl ih
  | operand l ref h ih =>
    rw [List.map_cons, List.map_cons, List.sum_cons, List.sum_cons]
    exact add_le_add le_rfl ih
  | omitted l h ih =>
    rw [List.map_cons, List.sum_cons]
    exact ih.trans (le_add_of_nonneg_left zero_le_one)

theorem exists_concat {op : Operator} {row : Nat} {front : List Item}
    (h : Renders (front ++ [.operator op row]) code) :
    ∃ code', code = code' ++ [.op row op] ∧ Renders front code' := by
  induction front generalizing code with
  | nil =>
    cases h with
    | operator op row h =>
      cases h with
      | nil => exact ⟨[], rfl, .nil⟩
  | cons item front ih =>
    cases h with
    | operator op row h =>
      obtain ⟨code', rfl, hfront⟩ := ih h
      exact ⟨_, rfl, .operator op row hfront⟩
    | operand l ref h =>
      obtain ⟨code', rfl, hfront⟩ := ih h
      exact ⟨_, rfl, .operand l ref hfront⟩
    | omitted l h =>
      obtain ⟨code', rfl, hfront⟩ := ih h
      exact ⟨code', rfl, .omitted l hfront⟩

end Renders

namespace Draft
variable {l : Lexeme}

theorem resolve_spec (d : Draft) (l : Lexeme) :
    (d.resolve l).1.code = d.code ∧ d.tables.Within (d.resolve l).1.tables ∧
      ∀ i, d.tables.identifiers.size ≤ i → i < (d.resolve l).1.tables.identifiers.size →
        (d.resolve l).2 = some i ∧ l.isConstant = false := by
  unfold resolve
  split
  · exact ⟨rfl, .refl _, fun i hle hlt => absurd hlt (not_lt.2 hle)⟩
  · refine ⟨rfl, ?_⟩
    simp only
    unfold Tables.internLexeme
    split
    · refine ⟨⟨?_, List.prefix_refl _⟩, fun i hle hlt => absurd hlt (not_lt.2 hle)⟩
      simp only
      unfold Constants.internText
      split
      · exact List.prefix_refl _
      · split
        · exact List.prefix_refl _
        · exact Constants.prefix_insert ..
    · rename_i hkind
      refine ⟨⟨List.prefix_refl _, Identifiers.prefix_intern ..⟩, fun i hle hlt => ?_⟩
      simp only at hlt ⊢
      unfold Identifiers.intern at hlt ⊢
      split at hlt
      · exact absurd hlt (not_lt.2 hle)
      · simp only [Identifiers.size, List.length_append, List.length_singleton] at hle hlt
        refine ⟨congrArg some ?_, by simp [Lexeme.isConstant, hkind]⟩
        simp only [Identifiers.size]
        omega
    · exact ⟨.refl _, fun i hle hlt => absurd hlt (not_lt.2 hle)⟩

theorem text_of_resolve {d d' : Draft} {i : Nat} (h : d.resolve l = (d', some i)) (hc : l.isConstant)
    (hl : ∀ j ∈ l.link, ∃ c, d.tables.constants.get? j = some c ∧ c.text = l.text) :
    ∃ c, d'.tables.constants.get? i = some c ∧ c.text = l.text := by
  unfold resolve at h
  split at h
  · rename_i j hj
    cases h
    exact hl i hj
  · simp only [Tables.internLexeme, Lexeme.kind_of_isConstant hc] at h
    obtain ⟨rfl, hindex⟩ := Prod.mk.inj h
    simp only
    unfold Constants.internText at hindex ⊢
    split at hindex
    · rename_i j hj
      obtain rfl := Option.some.inj hindex
      exact Constants.get?_of_indexOf? hj
    · split at hindex
      · cases hindex
      · obtain rfl := Option.some.inj hindex
        exact Constants.get?_insert ..

theorem renders_items (items : List Item) (d : Draft) :
    d.tables.Within (items.foldl emitItem d).tables ∧
    ∃ code, (items.foldl emitItem d).code = d.code ++ code ∧ Renders items code ∧
      ∀ i, d.tables.identifiers.size ≤ i → i < (items.foldl emitItem d).tables.identifiers.size →
        ∃ row, .identifier row i ∈ code := by
  induction items generalizing d with
  | nil => exact ⟨.refl _, [], by simp, .nil, fun i hle hlt => absurd hlt (not_lt.2 hle)⟩
  | cons item items ih =>
    rw [List.foldl_cons]
    cases item with
    | operator op row =>
      obtain ⟨hwithin, code, hcode, hrenders, hnew⟩ := ih (d.emitItem (.operator op row))
      refine ⟨hwithin, .op row op :: code, ?_, .operator op row hrenders, fun i hle hlt => ?_⟩
      · rw [hcode]
        simp [emitItem, emit]
      · obtain ⟨row', hm⟩ := hnew i hle hlt
        exact ⟨row', List.mem_cons_of_mem _ hm⟩
    | operand l =>
      obtain ⟨hsame, hwithin₁, hnew₁⟩ := d.resolve_spec l
      cases hresolve : d.resolve l with
      | mk d₁ index =>
        rw [hresolve] at hsame hwithin₁ hnew₁
        simp only at hsame hwithin₁ hnew₁
        cases index with
        | none =>
          have hitem : d.emitItem (.operand l) = d₁ := by rw [emitItem, hresolve]
          rw [hitem]
          obtain ⟨hwithin, code, hcode, hrenders, hnew⟩ := ih d₁
          refine ⟨hwithin₁.trans hwithin, code, by rw [hcode, hsame], .omitted l hrenders,
            fun i hle hlt => ?_⟩
          by_cases hi : i < d₁.tables.identifiers.size
          · cases (hnew₁ i hle hi).1
          · exact hnew i (not_lt.1 hi) hlt
        | some index =>
          obtain ⟨ref, href, hitem⟩ : ∃ ref : Ref, (l.isConstant = false → ref = .identifier index) ∧
              d.emitItem (.operand l) = d₁.emit [⟨l.row, .push ref⟩] := by
            rw [emitItem, hresolve]
            cases l.isConstant with
            | true => exact ⟨.constant index, by simp, rfl⟩
            | false => exact ⟨.identifier index, fun _ => rfl, rfl⟩
          rw [hitem]
          obtain ⟨hwithin, code, hcode, hrenders, hnew⟩ := ih (d₁.emit [⟨l.row, .push ref⟩])
          refine ⟨hwithin₁.trans hwithin, ⟨l.row, .push ref⟩ :: code, ?_, .operand l ref hrenders,
            fun i hle hlt => ?_⟩
          · rw [hcode]
            simp only [emit, hsame, List.append_assoc, List.singleton_append]
          · by_cases hi : i < d₁.tables.identifiers.size
            · obtain ⟨hindex, hconstant⟩ := hnew₁ i hle hi
              obtain rfl := Option.some.inj hindex
              rw [href hconstant]
              exact ⟨l.row, List.mem_cons_self⟩
            · obtain ⟨row, hm⟩ := hnew i (not_lt.1 hi) hlt
              exact ⟨row, List.mem_cons_of_mem _ hm⟩

theorem renders_emitExpr (ls : List Lexeme) (d : Draft) :
    d.tables.Within (d.emitExpr ls).tables ∧
    ∃ code, (d.emitExpr ls).code = d.code ++ code ∧ Renders (postorder ls) code ∧
      ∀ i, d.tables.identifiers.size ≤ i → i < (d.emitExpr ls).tables.identifiers.size →
        ∃ row, .identifier row i ∈ code := renders_items (postorder ls) d

end Draft
end RowLang
