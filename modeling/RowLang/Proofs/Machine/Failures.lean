import Mathlib
import RowLang.Proofs.Machine.Runs
import RowLang.Proofs.Machine.Transitions

/-! Runs that fail. A record that cannot be executed is passed over: it has taken operands off the
stack and done nothing else, and the machine stands behind it. A limit is noticed before a record, so
that one is still to be executed. -/

namespace RowLang.Machine

/-- The machine behind its next record, with so many operands less and otherwise as it was. -/
def skipped (m : Machine) (taken : Nat) : Machine :=
  { m with stack := m.stack.drop taken, cursor := m.cursor + 1, steps := m.steps + 1 }

def MayJump (m : Machine) : Prop :=
  ∃ record, m.code[m.cursor]? = some record ∧
    (record.instr = .apply .goto ∨ record.instr = .apply .branch)

section
variable {m m' : Machine} {e : Located Fault} {k : Nat}

theorem Executes.eq_skipped {instr : Instr} {fault : Fault}
    (h : Executes { m with cursor := m.cursor + 1, steps := m.steps + 1 } instr (.error fault m')) :
    ∃ taken ≤ 2, m' = m.skipped taken := h.taken

theorem advance_failed (h : m.advance = (.failed e, m')) :
    e.cause.IsLimit ∧ m' = m ∨ ¬ e.cause.IsLimit ∧ ∃ taken ≤ 2, m' = m.skipped taken := by
  have hadvances := m.advances
  rw [h] at hadvances
  cases hadvances with
  | halted hrecord hlimit => exact Or.inl ⟨trivial, rfl⟩
  | refused hrecord hexecutes => exact Or.inr ⟨hexecutes.not_isLimit, hexecutes.eq_skipped⟩

theorem Executes.cursor_eq {instr : Instr} (h : m.Executes instr (.ok () m')) :
    m'.cursor = m.cursor ∨ instr = .apply .goto ∨ instr = .apply .branch := by
  cases h with
  | jumped => exact Or.inr (Or.inl rfl)
  | branched => exact Or.inr (Or.inr rfl)
  | pushed | computed | defined | assigned | labelled | passed => exact Or.inl rfl

theorem cursor_of_running (h : m.advance = (.running, m')) (hjump : ¬ m.MayJump) :
    m'.cursor = m.cursor + 1 := by
  have hadvances := m.advances
  rw [h] at hadvances
  cases hadvances with
  | executed hrecord hexecutes =>
    exact hexecutes.cursor_eq.resolve_right fun hinstr => hjump ⟨_, hrecord, hinstr⟩

theorem cursor_of_run (h : m.run k = (.running, m')) (hjump : ∀ j < k, ¬ (m.run j).2.MayJump) :
    m'.cursor = m.cursor + k := by
  induction k generalizing m with
  | zero =>
    cases h
    rfl
  | succ k ih =>
    rw [run] at h
    split at h
    · rename_i next hadvance
      have hnext := cursor_of_running hadvance (hjump 0 k.succ_pos)
      have hlater : ∀ j < k, ¬ (next.run j).2.MayJump := by
        intro j hj
        have hone := hjump (j + 1) (Nat.succ_lt_succ hj)
        rwa [run, hadvance] at hone
      rw [ih h hlater, hnext]
      omega
    · rename_i hstop
      exact absurd h (hstop m')

end

/-- A record that fails leaves the machine behind it, with at most two operands less, one more record
counted, and tables, program and limit as they were. A run that ends at a limit leaves the machine as
the last executed record left it. A run that ends at a record that fails leaves the machine behind
that record, and later runs come back to it only over records that jump. -/
theorem failures_change_no_table (m : Machine) :
    (∀ record fault m', m.code[m.cursor]? = some record →
      execute record.instr { m with cursor := m.cursor + 1, steps := m.steps + 1 } = .error fault m' →
      ∃ taken ≤ 2, m' = m.skipped taken) ∧
    (∀ steps row m', m.Stops (.failed ⟨.stepLimitExceeded steps, row⟩) m' →
      ∃ k, m.run k = (.running, m')) ∧
    (∀ e m', m.Stops (.failed e) m' → ¬ e.cause.IsLimit →
      ∃ k before taken, m.run k = (.running, before) ∧ taken ≤ 2 ∧ m' = before.skipped taken ∧
        ∀ n later, m'.run n = (.running, later) → later.cursor ≤ before.cursor →
          ∃ j < n, (m'.run j).2.MayJump) := by
  refine ⟨?_, ?_, ?_⟩
  · intro record fault m' hrecord hexecute
    have hexecutes := executes { m with cursor := m.cursor + 1, steps := m.steps + 1 } record.instr
    rw [hexecute] at hexecutes
    exact hexecutes.eq_skipped
  · intro steps row m' h
    obtain ⟨k, before, hrun, hlast⟩ := h.exists_last
    rcases advance_failed hlast with ⟨-, rfl⟩ | ⟨hnot, -⟩
    · exact ⟨k, hrun⟩
    · exact absurd trivial hnot
  · intro e m' h hnot
    obtain ⟨k, before, hrun, hlast⟩ := h.exists_last
    rcases advance_failed hlast with ⟨hlimit, -⟩ | ⟨-, taken, htaken, rfl⟩
    · exact absurd hlimit hnot
    · refine ⟨k, before, taken, hrun, htaken, rfl, fun n later hlater hback => ?_⟩
      by_contra hnone
      have hcursor := cursor_of_run hlater fun j hj hjump => hnone ⟨j, hj, hjump⟩
      simp only [skipped] at hcursor
      omega

/-- `x val : x val x` defines `x` and fails to do so again. It stops behind the second `val`, whose
operand is gone while `x` is still defined, and the next run comes to the end. Under a limit of two it
stops before the `:`, which then finds its operand. -/
theorem failures_change_no_table_of_redefinition : ∃ m failed limited : Machine,
    m.code = [.identifier 1 0, .op 1 (.define .val), .op 1 .label, .identifier 2 0,
      .op 2 (.define .val), .identifier 3 0] ∧
    m.Stops (.failed ⟨.redefined "x", some 2⟩) failed ∧
    (∃ k before taken, m.run k = (.running, before) ∧ taken ≤ 2 ∧ failed = before.skipped taken) ∧
    failed.tables.identifiers.entries.map Identifier.binding = [.defined] ∧
    (failed.run 2).1 = .finished ∧
    (m.withLimit (some 2)).Stops (.failed ⟨.stepLimitExceeded 2, some 1⟩) limited ∧
    (∃ k, (m.withLimit (some 2)).run k = (.running, limited)) ∧
    limited.stack = [.identifier 0] := by
  let m : Machine := {
    code := [.identifier 1 0, .op 1 (.define .val), .op 1 .label, .identifier 2 0,
      .op 2 (.define .val), .identifier 3 0]
    tables := ⟨{}, ⟨[⟨"x", .number, .undef, false, 0⟩]⟩⟩ }
  have hfailed : m.Stops (.failed ⟨.redefined "x", some 2⟩) _ := ⟨by simp, 5, rfl⟩
  have hlimited : (m.withLimit (some 2)).Stops (.failed ⟨.stepLimitExceeded 2, some 1⟩) _ :=
    ⟨by simp, 3, rfl⟩
  obtain ⟨-, -, hskipped⟩ := failures_change_no_table m
  obtain ⟨-, hkept, -⟩ := failures_change_no_table (m.withLimit (some 2))
  obtain ⟨k, before, taken, hrun, htaken, heq, -⟩ := hskipped _ _ hfailed id
  exact ⟨m, _, _, rfl, hfailed, ⟨k, before, taken, hrun, htaken, heq⟩, rfl, rfl, hlimited,
    hkept _ _ _ hlimited, rfl⟩

end RowLang.Machine
