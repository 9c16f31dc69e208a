import Mathlib
import RowLang.Proofs.Machine.Interning
import RowLang.Proofs.Statement.Outcome

/-! Records that only compute. They are executed one after the other, bind no name, and make the stack
longer by a known number; and as every operand they take off the stack has a value, a name without one
stays where it is, with all that is below it. -/

namespace RowLang

theorem Operator.Evaluates.type_eq {t : Tables} {op : Operator} {stack : List Ref} {v : Literal}
    {type : ValueType} (h : op.Evaluates t stack v) (ht : op.valueType? = some type) : v.type = type := by
  cases h with
  | negate => exact Option.some.inj ht
  | @binary op _ _ _ a b v _ _ hv =>
    obtain rfl := Option.some.inj ht
    have hnumbers : ∀ (f : Float → Float → Literal) (type : ValueType), (∀ x y, (f x y).type = type) →
        BinaryOp.onNumbers op f a b = .ok v → v.type = type := by
      intro f type hf hv
      obtain ⟨x, -, hv⟩ := bind_eq_ok hv
      obtain ⟨y, -, hv⟩ := bind_eq_ok hv
      cases hv
      exact hf x y
    have hequal : ∀ f : Bool → Literal, (∀ b, (f b).type = .boolean) →
        (BinaryOp.equal op a b).map f = .ok v → v.type = .boolean := by
      intro f hf hv
      unfold BinaryOp.equal at hv
      split at hv <;> cases hv
      exact hf _
    cases op with
    | eq | neq => exact hequal _ (fun _ => rfl) hv
    | _ => exact hnumbers _ _ (fun _ _ => rfl) hv

def Instr.Plain : Instr → Prop
  | push _ => True
  | apply op => op.valueType?.isSome

theorem Tables.resolve_identifier_congr {t t' : Tables} (h : t'.identifiers = t.identifiers) (i : Nat) :
    t'.resolve (.identifier i) = t.resolve (.identifier i) := by
  simp only [resolve, identifier, h]

theorem Tables.suffix_of_resolve {t : Tables} {ref : Ref} {v : Literal} {i : Nat} {base stack : List Ref}
    (hi : ∀ v, t.resolve (.identifier i) ≠ .ok v) (hv : t.resolve ref = .ok v)
    (h : .identifier i :: base <:+ ref :: stack) : .identifier i :: base <:+ stack := by
  rcases List.suffix_cons_iff.1 h with heq | h
  · obtain ⟨rfl, -⟩ := List.cons.inj heq
    exact absurd hv (hi v)
  · exact h

namespace Machine
variable {m m' m'' : Machine} {n k : Nat}

structure Reckons (n : Nat) (gain : Int) (m m' : Machine) : Prop where
  code : m'.code = m.code
  cursor : m'.cursor = m.cursor + n
  identifiers : m'.tables.identifiers = m.tables.identifiers
  length : (m'.stack.length : Int) = m.stack.length + gain
  spares : ∀ i base, (∀ v, m.tables.resolve (.identifier i) ≠ .ok v) →
    .identifier i :: base <:+ m.stack → .identifier i :: base <:+ m'.stack

theorem Reckons.refl (m : Machine) : m.Reckons 0 0 m := ⟨rfl, rfl, rfl, by simp, fun _ _ _ h => h⟩

theorem Reckons.trans {gain gain' : Int} (h : m.Reckons n gain m') (h' : m'.Reckons k gain' m'') :
    m.Reckons (n + k) (gain + gain') m'' where
  code := h'.code.trans h.code
  cursor := by rw [h'.cursor, h.cursor, Nat.add_assoc]
  identifiers := h'.identifiers.trans h.identifiers
  length := by rw [h'.length, h.length, add_assoc]
  spares i base hi hbase := by
    refine h'.spares i base (fun v => ?_) (h.spares i base hi hbase)
    rw [Tables.resolve_identifier_congr h.identifiers]
    exact hi v

theorem reckons_of_running {record : Record} (hrecord : m.code[m.cursor]? = some record)
    (hplain : record.instr.Plain) (h : m.advance = (.running, m')) :
    m.Reckons 1 record.instr.gain m' := by
  have hexecutes := executes_of_running hrecord h
  generalize record.instr = instr at hplain hexecutes ⊢
  cases hexecutes with
  | pushed ref =>
    exact ⟨rfl, rfl, rfl, by simp [Instr.gain], fun i base _ hbase => hbase.trans (List.suffix_cons _ _)⟩
  | @computed op v hv =>
    change op.Evaluates m.tables m.stack v at hv
    generalize hstack : m.stack = stack at hv
    cases hv with
    | @negate ref stack x href =>
      refine ⟨rfl, rfl, rfl, by simp [withValue, Operator.needs, Instr.gain, hstack], ?_⟩
      intro i base hi hbase
      simp only [withValue, Operator.needs, hstack] at hbase ⊢
      exact (Tables.suffix_of_resolve hi href hbase).trans (List.suffix_cons _ _)
    | @binary op right left stack a b v hleft hright hv =>
      refine ⟨rfl, rfl, rfl, by simp [withValue, Operator.needs, Instr.gain, hstack], ?_⟩
      intro i base hi hbase
      simp only [withValue, Operator.needs, hstack] at hbase ⊢
      have hright := Tables.suffix_of_resolve hi hright hbase
      exact (Tables.suffix_of_resolve hi hleft hright).trans (List.suffix_cons _ _)
  | defined | assigned | labelled | passed | jumped | branched => cases hplain

theorem run_split (h : m.run (n + k) = (.running, m')) :
    ∃ middle, m.run n = (.running, middle) ∧ middle.run k = (.running, m') := by
  cases hn : m.run n with
  | mk status middle =>
    by_cases hs : status = .running
    · subst hs
      exact ⟨middle, rfl, (run_add hn k).symm.trans h⟩
    · rw [run_of_stopped hn hs (Nat.le_add_right n k)] at h
      exact absurd (congrArg Prod.fst h) hs

theorem advance_of_run_one (h : m.run 1 = (.running, m')) : m.advance = (.running, m') :=
  m.run_one.symm.trans h

section
variable {code : Code} {record : Record}

theorem getElem?_of_ahead {rest : Code} (h : record :: rest <+: m.code.drop m.cursor) :
    m.code[m.cursor]? = some record := by
  obtain ⟨behind, h⟩ := h
  rw [← List.head?_drop, ← h]
  rfl

theorem ahead_of_cursor (code : Code) {rest : Code} (h : code ++ rest <+: m.code.drop m.cursor)
    (hc : m'.code = m.code) (hat : m'.cursor = m.cursor + code.length) :
    rest <+: m'.code.drop m'.cursor := by
  obtain ⟨behind, h⟩ := h
  refine ⟨behind, ?_⟩
  rw [hc, hat, ← List.drop_drop, ← h, List.append_assoc, List.drop_left]

theorem reckons_of_run (hplain : ∀ record ∈ code, record.instr.Plain)
    (hahead : code <+: m.code.drop m.cursor) (h : m.run code.length = (.running, m')) :
    m.Reckons code.length (code.map fun record => record.instr.gain).sum m' := by
  induction code generalizing m with
  | nil =>
    cases h
    exact .refl _
  | cons record code ih =>
    rw [List.forall_mem_cons] at hplain
    rw [List.length_cons, Nat.add_comm] at h ⊢
    obtain ⟨middle, hfirst, hrest⟩ := run_split h
    have hstep := reckons_of_running (getElem?_of_ahead hahead) hplain.1 (advance_of_run_one hfirst)
    have hahead : code <+: middle.code.drop middle.cursor :=
      ahead_of_cursor [record] hahead hstep.code hstep.cursor
    rw [List.map_cons, List.sum_cons]
    exact hstep.trans (ih hplain.2 hahead hrest)

end
end Machine
end RowLang
