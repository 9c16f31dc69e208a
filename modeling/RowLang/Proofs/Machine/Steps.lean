import Mathlib
import RowLang.Proofs.Machine.Transitions
import RowLang.Proofs.Meaning.Mirror

/-! What no step of the machine changes: the program, the names and their types. A jump therefore fails
in a run as it would have failed at its start, and nothing else fails in the way jumps do. -/

namespace RowLang

/-- What the fault of a jump says of the name it was made to: that it is a mark without a label, or no
mark. Other faults say nothing of the kind. -/
def Fault.Justified (code : Code) (t : Tables) : Fault → Prop
  | labelNotFound name => ∃ i e, t.identifiers.get? i = some e ∧ e.name = name ∧ e.type = .mark ∧
      code.labelEnd? i = none
  | unknownMark name => ∃ i e, t.identifiers.get? i = some e ∧ e.name = name ∧ e.type ≠ .mark
  | _ => True

structure Machine.Continues (m m' : Machine) : Prop where
  code : m'.code = m.code
  tables : m.tables.Keeps m'.tables

section
variable {t t' : Tables} {code : Code} {fault : Fault}

theorem Fault.Justified.before (h : t.Keeps t') (hf : fault.Justified code t') :
    fault.Justified code t := by
  cases fault with
  | labelNotFound name =>
    obtain ⟨i, e, he, rfl, htype, hend⟩ := hf
    obtain ⟨e', he', hname', htype'⟩ := h.get?_before he
    exact ⟨i, e', he', hname', htype'.trans htype, hend⟩
  | unknownMark name =>
    obtain ⟨i, e, he, rfl, htype⟩ := hf
    obtain ⟨e', he', hname', htype'⟩ := h.get?_before he
    exact ⟨i, e', he', hname', by rwa [htype']⟩
  | _ => trivial

theorem justified_of_objection {refs : List Ref} (h : Machine.Objection code t refs fault) :
    fault.Justified code t := by
  cases h with
  | unlabelled he htype hend => exact ⟨_, _, he, rfl, htype, hend⟩
  | unmarked he htype => exact ⟨_, _, he, rfl, htype⟩
  | _ => trivial

end

namespace Tables
variable {t t' : Tables} {i : Nat}

theorem keeps_modify (t : Tables) (i : Nat) {f : Identifier → Identifier}
    (hname : ∀ e, (f e).name = e.name) (htype : ∀ e, (f e).type = e.type) :
    t.Keeps { t with identifiers := t.identifiers.modify i f } :=
  ⟨List.prefix_refl _, map_modify_of_eq (fun e => by rw [hname, htype]) ..⟩

theorem keeps_intern (t : Tables) (v : Literal) :
    t.Keeps { t with constants := (t.constants.intern v).1 } := ⟨t.constants.prefix_insert .., rfl⟩

theorem keeps_of_define {word : Declarator} (h : t.define word i = .ok t') : t.Keeps t' := by
  obtain ⟨e, -, -, rfl⟩ := define_ok h
  exact t.keeps_modify i (fun _ => rfl) fun _ => rfl

theorem keeps_of_assign {ref : Ref} (h : t.assign i ref = .ok t') : t.Keeps t' := by
  obtain ⟨e, v, -, -, -, -, rfl⟩ := assign_ok h
  exact t.keeps_modify i (fun _ => rfl) fun _ => rfl

end Tables

namespace Machine

theorem Continues.refl (m : Machine) : m.Continues m := ⟨rfl, .refl _⟩

theorem Continues.trans {m m' m'' : Machine} (h : m.Continues m') (h' : m'.Continues m'') :
    m.Continues m'' := ⟨h'.code.trans h.code, h.tables.trans h'.tables⟩

section
variable {m m' : Machine} {instr : Instr} {fault : Fault}

theorem Executes.continues (h : m.Executes instr (.ok () m')) : m.Continues m' := by
  cases h with
  | computed h => exact ⟨rfl, m.tables.keeps_intern _⟩
  | defined hstack htables => exact ⟨rfl, Tables.keeps_of_define htables⟩
  | assigned hstack htables => exact ⟨rfl, Tables.keeps_of_assign htables⟩
  | pushed | labelled | passed | jumped | branched => exact ⟨rfl, .refl _⟩

theorem Executes.continues_of_error (h : m.Executes instr (.error fault m')) : m.Continues m' := by
  obtain ⟨n, -, rfl⟩ := h.taken
  exact ⟨rfl, .refl _⟩

theorem Executes.justified (h : m.Executes instr (.error fault m')) :
    fault.Justified m.code m.tables := by
  cases h with
  | starved h => rcases (of_shortfall h).1 with rfl | rfl <;> trivial
  | refused hstack h => exact justified_of_objection (objection_of_refuses h)

end

theorem advance_sound (m : Machine) : m.Continues m.advance.2 ∧
    ∀ e, m.advance.1 = .failed e → e.cause.Justified m.code m.tables := by
  have hstarted : m.Continues { m with cursor := m.cursor + 1, steps := m.steps + 1 } :=
    ⟨rfl, .refl _⟩
  have hadvances := m.advances
  generalize m.advance = next at hadvances ⊢
  cases hadvances with
  | ended hrecord => exact ⟨.refl m, nofun⟩
  | halted hrecord hlimit =>
    refine ⟨.refl m, ?_⟩
    rintro e ⟨⟩
    trivial
  | executed hrecord h => exact ⟨hstarted.trans h.continues, nofun⟩
  | refused hrecord h =>
    refine ⟨hstarted.trans h.continues_of_error, ?_⟩
    rintro e ⟨⟩
    exact h.justified

theorem run_sound (n : Nat) (m : Machine) : m.Continues (m.run n).2 ∧
    ∀ e, (m.run n).1 = .failed e → e.cause.Justified m.code m.tables := by
  induction n generalizing m with
  | zero => exact ⟨.refl m, by simp [run]⟩
  | succ n ih =>
    obtain ⟨hcontinues, hfault⟩ := m.advance_sound
    unfold run
    split
    · rename_i m' hadvance
      rw [hadvance] at hcontinues
      obtain ⟨hrest, hlater⟩ := ih m'
      refine ⟨hcontinues.trans hrest, fun e he => ?_⟩
      have hjustified := hlater e he
      rw [hcontinues.code] at hjustified
      exact hjustified.before hcontinues.tables
    · exact ⟨hcontinues, hfault⟩

def resumed (m : Machine) (fuels : List Nat) : Machine := fuels.foldl (fun m n => (m.run n).2) m

theorem continues_resumed (fuels : List Nat) (m : Machine) : m.Continues (m.resumed fuels) := by
  induction fuels generalizing m with
  | nil => exact .refl m
  | cons n fuels ih => exact (m.run_sound n).1.trans (ih _)

end Machine
end RowLang
