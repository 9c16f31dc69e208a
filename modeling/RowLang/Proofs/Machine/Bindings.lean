import Mathlib
import RowLang.Proofs.Machine.Runs
import RowLang.Proofs.Machine.Steps
import RowLang.Proofs.Machine.Transitions

/-! What happens to a name in a run. It is defined once, then it gets a value, and after that another
one only if a `var` made it modifiable when it was defined; every value has the type of its name.
Faults in between change nothing of this. -/

namespace RowLang

inductive Binding.Moves : Binding → Binding → Prop
  | stay (b : Binding) : Moves b b
  | define : Moves .undef .defined
  | give (v : Literal) : Moves .defined (.value v)
  | replace (v w : Literal) : Moves (.value v) (.value w)

structure Identifier.Evolves (record : Option Record) (e e' : Identifier) : Prop where
  name : e'.name = e.name
  index : e'.index = e.index
  type : e'.type = e.type
  binding : e.binding.Moves e'.binding
  replaced : ∀ v, e.binding = .value v → e'.binding ≠ e.binding → e.modifiable
  typed : ∀ v, e'.binding = .value v → e'.binding ≠ e.binding → v.type = e.type
  modifiable : e'.modifiable ≠ e.modifiable → e'.modifiable ∧ e.binding = .undef ∧
    ∃ row, record = some ⟨row, .apply (.define .var)⟩

def Tables.WellTyped (t : Tables) : Prop :=
  ∀ e ∈ t.identifiers.entries, ∀ v, e.binding = .value v → v.type = e.type

namespace Identifier
variable {record : Option Record} {e : Identifier}

theorem Evolves.refl (record : Option Record) (e : Identifier) : e.Evolves record e where
  name := rfl
  index := rfl
  type := rfl
  binding := .stay e.binding
  replaced _ _ hne := absurd rfl hne
  typed _ _ hne := absurd rfl hne
  modifiable hne := absurd rfl hne

theorem evolves_defined {row : Nat} {word : Declarator} (h : e.binding = .undef) :
    e.Evolves (some ⟨row, .apply (.define word)⟩) (e.defined word) where
  name := rfl
  index := rfl
  type := rfl
  binding := by
    rw [h]
    exact .define
  replaced v hv := by simp [h] at hv
  typed v hv := by simp [defined] at hv
  modifiable hne := by
    cases word with
    | val => simp [defined] at hne
    | var => exact ⟨by simp [defined], h, row, rfl⟩

theorem evolves_given {v : Literal} (ht : v.type = e.type)
    (h : e.binding = .defined ∨ (∃ w, e.binding = .value w) ∧ e.modifiable) :
    e.Evolves record { e with binding := .value v } where
  name := rfl
  index := rfl
  type := rfl
  binding := by
    rcases h with h | ⟨⟨w, h⟩, -⟩
    · rw [h]
      exact .give v
    · rw [h]
      exact .replace w v
  replaced w hw _ := by
    rcases h with h | ⟨-, h⟩
    · simp [h] at hw
    · exact h
  typed w hw _ := by
    obtain rfl := Binding.value.inj hw
    exact ht
  modifiable hne := absurd rfl hne

theorem Evolves.eq_of_constant {e' : Identifier} {v : Literal} (h : e.Evolves record e')
    (hv : e.binding = .value v) (hm : e.modifiable = false) : e' = e := by
  have hbinding : e'.binding = e.binding := by
    by_contra hne
    simp [h.replaced v hv hne] at hm
  have hmodifiable : e'.modifiable = e.modifiable := by
    by_contra hne
    simp [(h.modifiable hne).2.1] at hv
  obtain ⟨hname, hindex, htype⟩ := And.intro h.name (And.intro h.index h.type)
  cases e
  cases e'
  simp_all only

end Identifier

namespace Machine
variable {m m' : Machine} {i : Nat} {e : Identifier}

theorem Executes.evolves {instr : Instr} (h : m.Executes instr (.ok () m')) (row : Nat)
    (he : m.tables.identifiers.get? i = some e) :
    ∃ e', m'.tables.identifiers.get? i = some e' ∧ e.Evolves (some ⟨row, instr⟩) e' := by
  cases h with
  | defined hstack htables =>
    obtain ⟨e', he', hundef, rfl⟩ := Tables.define_ok htables
    simp only [Identifiers.get?_modify, he]
    split
    · rename_i hij
      obtain rfl : e' = e := Option.some.inj (he'.symm.trans (hij ▸ he))
      exact ⟨_, rfl, Identifier.evolves_defined hundef⟩
    · exact ⟨e, rfl, .refl _ e⟩
  | assigned hstack htables =>
    obtain ⟨e', v, he', -, htype, hmay, rfl⟩ := Tables.assign_ok htables
    simp only [Identifiers.setBinding, Identifiers.get?_modify, he]
    split
    · rename_i hij
      obtain rfl : e' = e := Option.some.inj (he'.symm.trans (hij ▸ he))
      exact ⟨_, rfl, Identifier.evolves_given htype hmay⟩
    · exact ⟨e, rfl, .refl _ e⟩
  | pushed | computed | labelled | passed | jumped | branched => exact ⟨e, he, .refl _ e⟩

theorem Executes.tables_eq {instr : Instr} {fault : Fault} (h : m.Executes instr (.error fault m')) :
    m'.tables = m.tables := by
  obtain ⟨n, -, rfl⟩ := h.taken
  rfl

theorem advance_evolves (he : m.tables.identifiers.get? i = some e) :
    ∃ e', m.advance.2.tables.identifiers.get? i = some e' ∧ e.Evolves m.code[m.cursor]? e' := by
  obtain ⟨next, hnext⟩ : ∃ next, m.advance = next := ⟨_, rfl⟩
  have hadvances := m.advances
  rw [hnext] at hadvances ⊢
  cases hadvances with
  | ended | halted => exact ⟨e, he, .refl _ e⟩
  | executed hrecord h =>
    rw [hrecord]
    exact h.evolves _ he
  | refused hrecord h =>
    rw [h.tables_eq]
    exact ⟨e, he, .refl _ e⟩

theorem assigned_of_running {record : Record} (hrecord : m.code[m.cursor]? = some record)
    (hassign : record.instr = .apply .assign) (hrun : m.advance.1 = .running) :
    ∃ ref i stack e v, m.stack = ref :: .identifier i :: stack ∧
      m.tables.identifiers.get? i = some e ∧ m.tables.resolve ref = .ok v ∧ v.type = e.type ∧
      m.advance.2.tables.identifiers.get? i = some { e with binding := .value v } := by
  obtain ⟨next, hnext⟩ : ∃ next, m.advance = next := ⟨_, rfl⟩
  have hadvances := m.advances
  rw [hnext] at hadvances hrun ⊢
  cases hadvances with
  | ended | halted | refused => cases hrun
  | executed hrecord' h =>
    obtain rfl := Option.some.inj (hrecord.symm.trans hrecord')
    rw [hassign] at h
    cases h with
    | @assigned index ref stack tables hstack htables =>
      obtain ⟨e, v, he, hv, htype, -, rfl⟩ := Tables.assign_ok htables
      refine ⟨ref, index, stack, e, v, hstack, he, hv, htype, ?_⟩
      simp only [Identifiers.setBinding, Identifiers.get?_modify, if_true]
      rw [show m.tables.identifiers.get? index = some e from he, Option.map_some]
    | computed h => cases h

theorem resumed_induction {P : Machine → Prop} (hstep : ∀ m, P m → P m.advance.2) (fuels : List Nat)
    (h : P m) : P (m.resumed fuels) := by
  induction fuels generalizing m with
  | nil => exact h
  | cons n fuels ih => exact ih (run_induction hstep n h)

theorem resumed_keeps_constant {v : Literal} (hv : e.binding = .value v) (hm : e.modifiable = false)
    (fuels : List Nat) (he : m.tables.identifiers.get? i = some e) :
    (m.resumed fuels).tables.identifiers.get? i = some e := by
  refine resumed_induction (P := fun m => m.tables.identifiers.get? i = some e) (fun m he => ?_) fuels he
  obtain ⟨e', he', hevolves⟩ := advance_evolves he
  rw [he', hevolves.eq_of_constant hv hm]

theorem wellTyped_advance (h : m.tables.WellTyped) : m.advance.2.tables.WellTyped := by
  intro e' hmem v hv
  obtain ⟨i, hi⟩ := List.getElem?_of_mem hmem
  obtain ⟨e, he, -⟩ := m.advance_sound.1.tables.get?_before hi
  obtain ⟨e'', he'', hevolves⟩ := advance_evolves he
  obtain rfl : e'' = e' := Option.some.inj (he''.symm.trans hi)
  rw [hevolves.type]
  by_cases hsame : e''.binding = e.binding
  · exact h e (List.mem_of_getElem? he) v (hsame.symm.trans hv)
  · exact hevolves.typed v hv hsame

/-- In every state that runs come to, also when they are taken up again after faults: names, positions
and types are those of the start, the next record changes each entry as `Identifier.Evolves` says, an
assignment that is executed gives a value of the type of its name, and a value that may not be
replaced stays. Values have the types of their names if they had them at the start. -/
theorem binding_life_cycle (m : Machine) (fuels : List Nat) :
    let reached := m.resumed fuels
    let next := reached.advance
    (reached.tables.identifiers.entries.map fun e => (e.name, e.type)) =
      (m.tables.identifiers.entries.map fun e => (e.name, e.type)) ∧
    (∀ i e, reached.tables.identifiers.get? i = some e → ∃ e',
      next.2.tables.identifiers.get? i = some e' ∧ e.Evolves reached.code[reached.cursor]? e') ∧
    (∀ record, reached.code[reached.cursor]? = some record → record.instr = .apply .assign →
      next.1 = .running → ∃ ref i stack e v, reached.stack = ref :: .identifier i :: stack ∧
        reached.tables.identifiers.get? i = some e ∧ reached.tables.resolve ref = .ok v ∧
        v.type = e.type ∧ next.2.tables.identifiers.get? i = some { e with binding := .value v }) ∧
    (∀ i e v later, reached.tables.identifiers.get? i = some e → e.binding = .value v →
      e.modifiable = false → (reached.resumed later).tables.identifiers.get? i = some e) ∧
    (m.tables.WellTyped → reached.tables.WellTyped) := by
  intro reached next
  refine ⟨(m.continues_resumed fuels).tables.names, fun i e => advance_evolves,
    fun record => assigned_of_running, ?_, ?_⟩
  · intro i e v later he hv hm
    exact resumed_keeps_constant hv hm later he
  · intro h
    exact resumed_induction (P := fun m => m.tables.WellTyped) (fun m => wellTyped_advance) fuels h

/-- `x val 1 = x 2 =` gives `x` its value, fails to replace it, and goes on without having done so. -/
theorem binding_life_cycle_of_val : ∃ (m : Machine) (e : Identifier),
    m.code = [.identifier 1 0, .op 1 (.define .val), .constant 1 0, .op 1 .assign,
      .identifier 2 0, .constant 2 1, .op 2 .assign] ∧
    m.tables.WellTyped ∧ (m.resumed [4]).tables.WellTyped ∧
    (m.resumed [4]).tables.identifiers.get? 0 = some e ∧ e.binding = .value (.number 1) ∧
    ((m.resumed [4]).run 5).1 = .failed ⟨.notModifiable "x", some 2⟩ ∧
    ((m.resumed [4]).resumed [5, 5]).tables.identifiers.get? 0 = some e := by
  let tables : Tables :=
    ⟨⟨[⟨"1", .number 1, 0⟩, ⟨"2", .number 2, 1⟩]⟩, ⟨[⟨"x", .number, .undef, false, 0⟩]⟩⟩
  let code : Code := [.identifier 1 0, .op 1 (.define .val), .constant 1 0, .op 1 .assign,
    .identifier 2 0, .constant 2 1, .op 2 .assign]
  have htyped : tables.WellTyped := by simp [Tables.WellTyped, tables]
  obtain ⟨-, -, -, hconstant, hwell⟩ := binding_life_cycle { code, tables } [4]
  exact ⟨{ code, tables }, _, rfl, htyped, hwell htyped, rfl, rfl, rfl,
    hconstant 0 _ _ [5, 5] rfl rfl rfl⟩

end Machine
end RowLang
