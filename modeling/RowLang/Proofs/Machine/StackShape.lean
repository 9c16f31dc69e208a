import Mathlib
import RowLang.Proofs.Lexeme.Linking
import RowLang.Proofs.Machine.Transitions

/-! Shapes of the operand stack. A record changes the shape in a way that depends on the record alone,
so the shape before each record of straight code is known in advance; on a stack of the right shape
no record lacks an operand, finds a value where it needs a name, or meets a dangling reference. -/

namespace RowLang

def Fault.IsOperandFault : Fault → Prop
  | stackUnderflow _ | notAnIdentifier _ | invalidReference _ => True
  | _ => False

def Tables.Grown (t t' : Tables) : Prop :=
  t.constants.size ≤ t'.constants.size ∧ t'.identifiers.size = t.identifiers.size

section
variable {t t' : Tables} {ref : Ref} {index : Nat}

theorem Ref.Valid.mono (h : ref.Valid t) (hc : t.constants.size ≤ t'.constants.size)
    (hi : t.identifiers.size ≤ t'.identifiers.size) : ref.Valid t' := by
  cases ref with
  | constant index => exact h.trans_le hc
  | identifier index => exact h.trans_le hi

theorem Ref.Valid.grown (h : ref.Valid t) (ht : t.Grown t') : ref.Valid t' := h.mono ht.1 ht.2.ge

theorem Tables.Grown.refl (t : Tables) : t.Grown t := ⟨le_rfl, rfl⟩

theorem Tables.grown_of_define {word : Declarator} (h : t.define word index = .ok t') : t.Grown t' := by
  obtain ⟨e, -, -, rfl⟩ := Tables.define_ok h
  exact ⟨le_rfl, List.length_modify ..⟩

theorem Tables.grown_of_assign (h : t.assign index ref = .ok t') : t.Grown t' := by
  obtain ⟨e, v, -, -, -, -, rfl⟩ := Tables.assign_ok h
  exact ⟨le_rfl, List.length_modify ..⟩

end

inductive Slot where
  | operand
  | name (index : Nat)
deriving DecidableEq

def Slot.Holds (t : Tables) : Slot → Ref → Prop
  | operand, ref => ref.Valid t
  | name index, ref => ref = .identifier index ∧ index < t.identifiers.size

def transfer : Instr → List Slot → Option (List Slot)
  | .push (.identifier index), shape => some (.name index :: shape)
  | .push (.constant _), shape => some (.operand :: shape)
  | .apply .negate, _ :: shape => some (.operand :: shape)
  | .apply (.binary _), _ :: _ :: shape => some (.operand :: shape)
  | .apply (.define _), .name index :: shape => some (.name index :: shape)
  | .apply .assign, _ :: .name _ :: shape => some shape
  | .apply .goto, .name _ :: shape => some shape
  | .apply .branch, .name _ :: _ :: shape => some shape
  | .apply .label, _ :: shape => some shape
  | _, _ => none

def track : Code → List Slot → Option (List Slot)
  | [], shape => some shape
  | record :: code, shape => (transfer record.instr shape).bind (track code)

section
variable {t t' : Tables} {slot : Slot} {ref : Ref} {shape : List Slot}

theorem Slot.Holds.valid (h : slot.Holds t ref) : ref.Valid t := by
  cases slot with
  | operand => exact h
  | name index =>
    obtain ⟨rfl, hi⟩ := h
    exact hi

theorem Slot.Holds.grown (h : slot.Holds t ref) (ht : t.Grown t') : slot.Holds t' ref := by
  cases slot with
  | operand => exact Ref.Valid.grown h ht
  | name index => exact ⟨h.1, h.2.trans_eq ht.2.symm⟩

theorem holds_grown {refs : List Ref} (h : List.Forall₂ (Slot.Holds t) shape refs)
    (ht : t.Grown t') : List.Forall₂ (Slot.Holds t') shape refs :=
  h.imp fun _ _ hs => hs.grown ht

theorem eq_of_holds_names {names : List Nat} {refs : List Ref}
    (h : List.Forall₂ (Slot.Holds t) (names.map .name) refs) : refs = names.map .identifier := by
  induction names generalizing refs with
  | nil =>
    cases h
    rfl
  | cons index names ih =>
    cases h with
    | cons hr hrest => rw [hr.1, ih hrest, List.map_cons]

theorem track_append (code code' : Code) (shape : List Slot) :
    track (code ++ code') shape = (track code shape).bind (track code') := by
  induction code generalizing shape with
  | nil => rfl
  | cons record code ih =>
    simp only [List.cons_append, track, Option.bind_assoc, ih]

end

namespace Machine

/-- The record was executed on a stack over `base`. It went on with the given shape over the same
base, or it jumped behind a label and left the stack empty, or it failed, and not for want of the
right operands. -/
def Executed (instr : Instr) (m : Machine) (base : List Ref) (shape : List Slot) :
    EStateM.Result Fault Machine Unit → Prop
  | .ok _ m' => m'.code = m.code ∧ m.tables.Grown m'.tables ∧
      ((m'.cursor = m.cursor ∧ ∃ top, m'.stack = top ++ base ∧
          List.Forall₂ (Slot.Holds m'.tables) shape top) ∨
        instr ≠ .apply .label ∧ m'.stack = [] ∧ ∃ mark, m.code.labelEnd? mark = some m'.cursor)
  | .error fault _ => ¬ fault.IsOperandFault

section
variable {t : Tables} {op : Operator} {shape shape' : List Slot} {top base : List Ref}

theorem valid_of_holds (hh : List.Forall₂ (Slot.Holds t) shape top) {ref : Ref} (hmem : ref ∈ top) :
    ref.Valid t := by
  induction hh with
  | nil => cases hmem
  | cons hr _ ih =>
    rcases List.mem_cons.1 hmem with rfl | hmem
    · exact hr.valid
    · exact ih hmem

theorem shortfall_of_transfer (ht : transfer (.apply op) shape = some shape')
    (hh : List.Forall₂ (Slot.Holds t) shape top) : op.shortfall op.needs (top ++ base) = none := by
  cases op with
  | negate | label =>
    rcases hh with _ | ⟨hr, hh⟩
    · cases ht
    · rfl
  | binary op =>
    rcases hh with _ | ⟨hr, _ | ⟨hl, hh⟩⟩
    · cases ht
    · cases ht
    · rfl
  | define word | goto =>
    rcases hh with _ | @⟨slot, _, _, _, hn, hh⟩
    · cases ht
    · cases slot with
      | operand => cases ht
      | name index =>
        obtain ⟨rfl, -⟩ := hn
        rfl
  | assign =>
    rcases hh with _ | ⟨hr, _ | @⟨slot, _, _, _, hn, hh⟩⟩
    · cases ht
    · cases ht
    · cases slot with
      | operand => cases ht
      | name index =>
        obtain ⟨rfl, -⟩ := hn
        rfl
  | branch =>
    rcases hh with _ | @⟨slot, _, _, _, hn, _ | ⟨hr, hh⟩⟩
    · cases ht
    · cases slot <;> cases ht
    · cases slot with
      | operand => cases ht
      | name index =>
        obtain ⟨rfl, -⟩ := hn
        rfl

theorem length_le_of_transfer (ht : transfer (.apply op) shape = some shape')
    (hh : List.Forall₂ (Slot.Holds t) shape top) : op.needs.length ≤ top.length := by
  have hshort : op.shortfall op.needs (top ++ []) = none := shortfall_of_transfer ht hh
  rw [List.append_nil] at hshort
  exact length_le_of_shortfall hshort

theorem transfer_of_evaluates {stack : List Ref} {v : Literal} (h : op.Evaluates t stack v)
    (ht : transfer (.apply op) shape = some shape') :
    shape' = .operand :: shape.drop op.needs.length := by
  cases h with
  | negate h =>
    rcases shape with _ | ⟨slot, shape⟩ <;> cases ht
    rfl
  | binary hl hr hv =>
    rcases shape with _ | ⟨slot, _ | ⟨slot', shape⟩⟩ <;> cases ht
    rfl

end

section
variable {instr : Instr} {m : Machine} {base stack : List Ref} {shape shape' : List Slot} {top : List Ref}

theorem executed_jumped {mark position : Nat} (ht : jumpTarget m.code m.tables mark = .ok position)
    (hl : instr ≠ .apply .label) :
    Executed instr m base shape (.ok () { m with cursor := position, stack := [] }) :=
  ⟨rfl, .refl _, Or.inr ⟨hl, rfl, mark, (jumpTarget_eq_ok_iff.1 ht).2⟩⟩

theorem executed_withValue (v : Literal) (h : List.Forall₂ (Slot.Holds m.tables) shape top) :
    Executed instr m base (.operand :: shape) (.ok () (m.withValue (top ++ base) v)) := by
  have hgrown : m.tables.Grown (m.withValue (top ++ base) v).tables :=
    ⟨(m.tables.constants.prefix_insert v.text v).length_le, rfl⟩
  refine ⟨rfl, hgrown, Or.inl ⟨rfl, _ :: top, rfl, .cons ?_ (holds_grown h hgrown)⟩⟩
  obtain ⟨c, hc, -⟩ := m.tables.constants.get?_insert v.text v
  exact (List.getElem?_eq_some_iff.1 hc).1

theorem executed_execute (hstack : m.stack = top ++ base)
    (hh : List.Forall₂ (Slot.Holds m.tables) shape top) (ht : transfer instr shape = some shape')
    (hp : ∀ ref, instr = .push ref → ref.Valid m.tables) :
    Executed instr m base shape' (execute instr m) := by
  have h := m.executes instr
  generalize execute instr m = r at h ⊢
  cases h with
  | pushed ref =>
    cases ref with
    | identifier index =>
      cases ht
      exact ⟨rfl, .refl _, Or.inl ⟨rfl, .identifier index :: top, by rw [hstack]; rfl,
        .cons ⟨rfl, hp _ rfl⟩ hh⟩⟩
    | constant index =>
      cases ht
      exact ⟨rfl, .refl _, Or.inl ⟨rfl, .constant index :: top, by rw [hstack]; rfl,
        .cons (hp _ rfl) hh⟩⟩
  | @computed op v h =>
    rw [transfer_of_evaluates h ht, hstack, List.drop_append_of_le_length (length_le_of_transfer ht hh)]
    exact executed_withValue v (List.forall₂_drop _ hh)
  | starved h =>
    rw [hstack, shortfall_of_transfer ht hh] at h
    cases h
  | @refused op refs stack fault hrefs h =>
    have hlength := length_le_of_transfer ht hh
    rw [← length_of_refuses h] at hlength
    have hfront : refs <+: top := List.prefix_of_prefix_length_le
      ⟨stack, hrefs.symm.trans hstack⟩ (List.prefix_append top base) hlength
    cases objection_of_refuses h with
    | dangling hmem hno => exact absurd (valid_of_holds hh (hfront.mem hmem)) hno
    | _ => exact id
  | defined hname htables =>
    rw [hstack] at hname
    rcases hh with _ | @⟨slot, _, _, _, hn, hh⟩
    · cases ht
    · cases slot with
      | operand => cases ht
      | name index =>
        obtain ⟨rfl, hi⟩ := hn
        cases ht
        cases hname
        have hgrown := Tables.grown_of_define htables
        exact ⟨rfl, hgrown, Or.inl ⟨rfl, _ :: _, rfl,
          .cons ⟨rfl, hi.trans_eq hgrown.2.symm⟩ (holds_grown hh hgrown)⟩⟩
  | assigned hname htables =>
    rw [hstack] at hname
    rcases hh with _ | ⟨hr, _ | @⟨slot, _, _, _, hn, hh⟩⟩
    · cases ht
    · cases ht
    · cases slot with
      | operand => cases ht
      | name index =>
        cases ht
        cases hname
        have hgrown := Tables.grown_of_assign htables
        exact ⟨rfl, hgrown, Or.inl ⟨rfl, _, rfl, holds_grown hh hgrown⟩⟩
  | labelled hname =>
    rw [hstack] at hname
    rcases hh with _ | ⟨hr, hh⟩
    · cases ht
    · cases ht
      cases hname
      exact ⟨rfl, .refl _, Or.inl ⟨rfl, _, rfl, hh⟩⟩
  | passed hname h =>
    rw [hstack] at hname
    rcases hh with _ | @⟨slot, _, _, _, hn, _ | ⟨hr, hh⟩⟩
    · cases ht
    · cases slot <;> cases ht
    · cases slot with
      | operand => cases ht
      | name index =>
        cases ht
        cases hname
        exact ⟨rfl, .refl _, Or.inl ⟨rfl, _, rfl, hh⟩⟩
  | jumped hname h => exact executed_jumped h (by simp)
  | branched hname hv h => exact executed_jumped h (by simp)

end
end Machine
end RowLang
