import Mathlib
import RowLang.Proofs.Machine.Bindings

/-! Constants in a run. Records only add to them, and each keeps reading as its text says, so the
reference that was put on the stack for a computed value stands for this value in all that follows. -/

namespace RowLang

namespace Tables
variable {t t' : Tables} {i : Nat}

theorem constants_of_define {word : Declarator} (h : t.define word i = .ok t') :
    t'.constants = t.constants := by
  obtain ⟨e, -, -, rfl⟩ := define_ok h
  rfl

theorem constants_of_assign {ref : Ref} (h : t.assign i ref = .ok t') :
    t'.constants = t.constants := by
  obtain ⟨e, v, -, -, -, -, rfl⟩ := assign_ok h
  rfl

end Tables

namespace Machine
variable {m m' : Machine} {op : Operator} {i : Nat} {v : Literal}

theorem Executes.constantsSound {instr : Instr} (h : m.Executes instr (.ok () m'))
    (hs : m.tables.constants.Sound) : m'.tables.constants.Sound := by
  cases h with
  | pushed | labelled | passed | jumped | branched => exact hs
  | computed h => exact hs.intern _
  | defined hstack htables => rwa [Tables.constants_of_define htables]
  | assigned hstack htables => rwa [Tables.constants_of_assign htables]

theorem constantsSound_advance (h : m.tables.constants.Sound) :
    m.advance.2.tables.constants.Sound := by
  obtain ⟨next, hnext⟩ : ∃ next, m.advance = next := ⟨_, rfl⟩
  have hadvances := m.advances
  rw [hnext] at hadvances ⊢
  cases hadvances with
  | ended | halted => exact h
  | refused hrecord hexecutes => rwa [hexecutes.tables_eq]
  | executed hrecord hexecutes => exact hexecutes.constantsSound h

theorem resolve_of_running (hs : m.tables.constants.Sound) {record : Record}
    (hrecord : m.code[m.cursor]? = some record) (hinstr : record.instr = .apply op)
    (hop : op = .negate ∨ ∃ binary, op = .binary binary) (hrun : m.advance = (.running, m')) :
    ∃ v i stack, op.Evaluates m.tables m.stack v ∧ m'.stack = .constant i :: stack ∧
      m'.tables.resolve (.constant i) = .ok v := by
  have hexecutes := executes_of_running hrecord hrun
  rw [hinstr] at hexecutes
  cases hexecutes with
  | @computed op v h =>
    exact ⟨v, _, _, h, rfl, Tables.resolve_constant_iff.2 (hs.get?_intern v)⟩
  | defined | assigned | labelled | passed | jumped | branched => simp at hop

theorem get?_resumed {c : Constant} (h : m.tables.constants.get? i = some c) (fuels : List Nat) :
    (m.resumed fuels).tables.constants.get? i = some c :=
  getElem?_of_prefix (m.continues_resumed fuels).tables.constants h

theorem resolve_resumed (h : m.tables.resolve (.constant i) = .ok v) (fuels : List Nat) :
    (m.resumed fuels).tables.resolve (.constant i) = .ok v := by
  obtain ⟨c, hc, hv⟩ := Tables.resolve_constant_iff.1 h
  exact Tables.resolve_constant_iff.2 ⟨c, get?_resumed hc fuels, hv⟩

end Machine

/-- In constants that were interned by text or by value, and cut back, in any order, every text reads as
the value beside it, and a value that is interned next is what its position holds. In all runs over
such constants, also when they are taken up again after faults, the constants of the start stay where
they are, and what a value operator puts on the stack stands for the value it computed ever after. -/
theorem computed_values_survive {t : Constants} (ht : t.Built) :
    (∀ c ∈ t.entries, Literal.read? c.text = some c.value) ∧
    (∀ v, ∃ c, (t.intern v).1.get? (t.intern v).2 = some c ∧ c.value = v) ∧
    ∀ (m : Machine) (fuels : List Nat), m.tables.constants = t →
      let reached := m.resumed fuels
      let next := reached.advance
      (∀ i c, t.get? i = some c → reached.tables.constants.get? i = some c) ∧
      ∀ record op, reached.code[reached.cursor]? = some record → record.instr = .apply op →
        (op = .negate ∨ ∃ binary, op = .binary binary) → next.1 = .running →
        ∃ v i stack, op.Evaluates reached.tables reached.stack v ∧
          next.2.stack = .constant i :: stack ∧
          ∀ later, (next.2.resumed later).tables.resolve (.constant i) = .ok v := by
  refine ⟨ht.sound, ht.sound.get?_intern, ?_⟩
  rintro m fuels rfl reached next
  refine ⟨fun i c hc => Machine.get?_resumed hc fuels, fun record op hrecord hinstr hop hrun => ?_⟩
  have hsound : reached.tables.constants.Sound :=
    Machine.resumed_induction (P := fun m => m.tables.constants.Sound)
      (fun _ => Machine.constantsSound_advance) fuels ht.sound
  obtain ⟨v, i, stack, hv, hstack, hresolve⟩ := Machine.resolve_of_running hsound hrecord hinstr hop
    (show reached.advance = (.running, next.2) by rw [← hrun])
  exact ⟨v, i, stack, hv, hstack, Machine.resolve_resumed hresolve⟩

def spelledTwice : Constants := ((Constants.empty.internText "1.0").1.internText "1").1

/-- Where `1.0` and `1` are both spelled in a source, `1.0 1.0 *` puts the entry of the other spelling on
the stack, which holds the product. -/
theorem computed_values_survive_of_spellings : ∃ m : Machine,
    spelledTwice.Built ∧ m.tables.constants = spelledTwice ∧
    m.code = [.constant 1 0, .constant 1 0, .op 1 (.binary .mult)] ∧
    (m.resumed [2]).advance.2.stack = [.constant 1] ∧
    ∃ v, Operator.Evaluates (m.resumed [2]).tables (.binary .mult) (m.resumed [2]).stack v ∧
      ∀ later, ((m.resumed [2]).advance.2.resumed later).tables.resolve (.constant 1) = .ok v := by
  let m : Machine := {
    code := [.constant 1 0, .constant 1 0, .op 1 (.binary .mult)]
    tables := ⟨spelledTwice, {}⟩ }
  have hbuilt : spelledTwice.Built := (Constants.Built.empty.internText _).internText _
  have hstack : (m.resumed [2]).advance.2.stack = [.constant 1] := by decide +kernel
  obtain ⟨-, -, hruns⟩ := computed_values_survive hbuilt
  obtain ⟨v, i, stack, hv, hpushed, hlater⟩ := (hruns m [2] rfl).2 (.op 1 (.binary .mult)) _ rfl rfl
    (Or.inr ⟨.mult, rfl⟩) (by decide +kernel)
  obtain ⟨hi, -⟩ := List.cons.inj (hstack.symm.trans hpushed)
  obtain rfl := Ref.constant.inj hi
  exact ⟨m, hbuilt, rfl, rfl, hstack, v, hv, hlater⟩

end RowLang
