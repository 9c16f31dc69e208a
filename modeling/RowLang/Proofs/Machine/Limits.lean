import Mathlib
import RowLang.Proofs.Machine.Edits
import RowLang.Proofs.Machine.Runs
import RowLang.Proofs.Machine.Transitions

/-! Limits to the number of records. No record looks at the limit, so a limited run does what the
unlimited one does until it is interrupted, and what is left of the unlimited run can be made up
afterwards, whatever limits came before. -/

namespace RowLang.Machine

section
variable {m : Machine} {limit limit' : Option Nat}

@[simp] theorem withLimit_withLimit : (m.withLimit limit).withLimit limit' = m.withLimit limit' := rfl

theorem withLimit_self (h : m.limit = limit) : m.withLimit limit = m := by
  rw [← h]
  rfl

end

section
variable {m m' m'' : Machine} {status : Status} {l n : Nat} {e : Located Fault}

theorem advance_withLimit (h : m.limit = none) (hl : m.steps < l) :
    (m.withLimit (some l)).advance = (m.advance.1, m.advance.2.withLimit (some l)) := by
  cases hrecord : m.code[m.cursor]? with
  | none => rw [advance_of_none hrecord, advance_of_none (m := m.withLimit (some l)) hrecord]
  | some record =>
    have hbelow : ¬ (m.withLimit (some l)).limit.any (· ≤ m.steps) := by simpa [withLimit] using hl
    have hfree : ¬ m.limit.any (· ≤ m.steps) := by simp [h]
    have hexecute : execute record.instr { m.withLimit (some l) with
        cursor := (m.withLimit (some l)).cursor + 1, steps := (m.withLimit (some l)).steps + 1 } = _ :=
      execute_edited (c := id) (l := fun _ => some l) (fun _ _ => rfl) record.instr
        { m with cursor := m.cursor + 1, steps := m.steps + 1 }
    rw [advance_of_some hrecord hfree, advance_of_some (m := m.withLimit (some l)) hrecord hbelow,
      hexecute]
    cases execute record.instr { m with cursor := m.cursor + 1, steps := m.steps + 1 } <;> rfl

theorem run_withLimit (h : m.limit = none) (hn : n ≤ l - m.steps) :
    (m.withLimit (some l)).run n = ((m.run n).1, (m.run n).2.withLimit (some l)) := by
  induction n generalizing m with
  | zero => rfl
  | succ n ih =>
    have hadvance := advance_withLimit h (l := l) (by omega)
    rw [run, run, hadvance]
    obtain ⟨⟨status, m'⟩, hm⟩ : ∃ next, m.advance = next := ⟨_, rfl⟩
    rw [hm]
    cases status with
    | running =>
      obtain ⟨-, hlimit, hsteps⟩ := frame_of_running hm
      exact ih (m := m') (hlimit.trans h) (by omega)
    | finished | failed => rfl

theorem frame_of_run (h : m.run n = (.running, m')) :
    m'.code = m.code ∧ m'.limit = m.limit ∧ m'.steps = m.steps + n := by
  induction n generalizing m with
  | zero =>
    cases h
    exact ⟨rfl, rfl, rfl⟩
  | succ n ih =>
    rw [run] at h
    split at h
    · rename_i next hadvance
      obtain ⟨hcode, hlimit, hsteps⟩ := frame_of_running hadvance
      obtain ⟨hcode', hlimit', hsteps'⟩ := ih h
      exact ⟨hcode'.trans hcode, hlimit'.trans hlimit, by omega⟩
    · rename_i hstop
      exact absurd h (hstop m')

def Exceeds (m : Machine) (steps : Nat) (m' : Machine) : Prop :=
  ∃ row, m.Stops (.failed ⟨.stepLimitExceeded steps, row⟩) m'

theorem not_isLimit_of_advance (h : m.limit = none) (hm : m.advance = (.failed e, m')) :
    ¬ e.cause.IsLimit := by
  have hadvances := m.advances
  rw [hm] at hadvances
  cases hadvances with
  | halted hrecord hlimit => simp [h] at hlimit
  | refused hrecord hexecutes => exact hexecutes.not_isLimit

theorem not_isLimit_of_run (h : m.limit = none) (hm : m.run n = (.failed e, m')) :
    ¬ e.cause.IsLimit := by
  induction n generalizing m with
  | zero => simp [run] at hm
  | succ n ih =>
    rw [run] at hm
    split at hm
    · rename_i next hadvance
      exact ih ((frame_of_running hadvance).2.1.trans h) hm
    · exact not_isLimit_of_advance h hm

theorem not_exceeds (h : m.limit = none) : ¬ m.Exceeds n m' := by
  rintro ⟨row, -, k, hk⟩
  exact not_isLimit_of_run h hk trivial

theorem exceeds_of_running (h : m.limit = none) (hrun : m.run (l - m.steps) = (.running, m'))
    (hinside : m'.cursor < m'.code.length) :
    (m.withLimit (some l)).Exceeds m'.steps (m'.withLimit (some l)) := by
  have hlimited := run_withLimit h (le_refl (l - m.steps))
  rw [hrun] at hlimited
  have hsteps := (frame_of_run hrun).2.2
  have hreached : (some l).any (· ≤ m'.steps) := by
    simp only [Option.any_some, decide_eq_true_eq]
    omega
  have hadvance := advance_of_limit (m := m'.withLimit (some l)) (List.getElem?_eq_getElem hinside)
    hreached
  exact ⟨_, (stops_iff_of_running hlimited).1 (stops_of_advance hadvance (by simp))⟩

theorem stops_of_not_running (h : m.limit = none)
    (hout : ∀ m', m.run (l - m.steps) = (.running, m') → ¬ m'.cursor < m'.code.length) :
    ∃ status m', m.Stops status m' ∧ (m.withLimit (some l)).Stops status (m'.withLimit (some l)) := by
  have hlimited := run_withLimit h (le_refl (l - m.steps))
  obtain ⟨⟨status, m'⟩, hrun⟩ : ∃ final, m.run (l - m.steps) = final := ⟨_, rfl⟩
  rw [hrun] at hlimited
  by_cases hs : status = .running
  · subst hs
    -- the limit is used up just where the program ends
    have hend : m'.code[m'.cursor]? = none := List.getElem?_eq_none (not_lt.1 (hout m' hrun))
    have hadvance := advance_of_none hend
    have hadvance' := advance_of_none (m := m'.withLimit (some l)) hend
    exact ⟨.finished, m', (stops_iff_of_running hrun).1 (stops_of_advance hadvance (by simp)),
      (stops_iff_of_running hlimited).1 (stops_of_advance hadvance' (by simp))⟩
  · exact ⟨status, m', ⟨hs, _, hrun⟩, hs, _, hlimited⟩

theorem Exceeds.running {steps : Nat} (h : (m.withLimit (some l)).Exceeds steps m')
    (hm : m.limit = none) : m.run (l - m.steps) = (.running, m'.withLimit none) ∧
      m'.cursor < m'.code.length ∧ m'.steps = steps ∧ m'.steps = m.steps + (l - m.steps) := by
  obtain ⟨row, hstops⟩ := h
  by_cases hin : ∃ m'', m.run (l - m.steps) = (.running, m'') ∧ m''.cursor < m''.code.length
  · obtain ⟨m'', hrun, hinside⟩ := hin
    obtain ⟨hcode, hlimit, hsteps⟩ := frame_of_run hrun
    obtain ⟨row', hstops'⟩ := exceeds_of_running hm hrun hinside
    obtain ⟨hstatus, rfl⟩ := hstops'.unique hstops
    obtain ⟨hcause, -⟩ := Located.mk.inj (Status.failed.inj hstatus)
    have hnone : m''.withLimit none = m'' := withLimit_self (hlimit.trans hm)
    rw [withLimit_withLimit, hnone]
    exact ⟨hrun, hinside, Fault.stepLimitExceeded.inj hcause, hsteps⟩
  · obtain ⟨status, m'', hfree, hstops'⟩ := stops_of_not_running hm fun m'' hrun hinside =>
      hin ⟨m'', hrun, hinside⟩
    obtain ⟨rfl, -⟩ := hstops'.unique hstops
    exact absurd ⟨row, hfree⟩ (not_exceeds hm)

inductive Interrupted : List Nat → Machine → Machine → Prop
  | nil (m : Machine) : Interrupted [] m m
  | cons {l steps : Nat} {limits : List Nat} {m m' m'' : Machine}
      (h : (m.withLimit (some l)).Exceeds steps m') (hrest : Interrupted limits m' m'') :
      Interrupted (l :: limits) m m''

theorem Interrupted.running {limits : List Nat} (h : Interrupted limits m m') :
    ∃ k, (m.withLimit none).run k = (.running, m'.withLimit none) := by
  induction h with
  | nil m => exact ⟨0, rfl⟩
  | @cons l steps limits m m' m'' h hrest ih =>
    obtain ⟨hrun, -⟩ := Exceeds.running (m := m.withLimit none) h rfl
    obtain ⟨k, hk⟩ := ih
    exact ⟨_, (run_add hrun k).trans hk⟩

end

/-- Runs that are interrupted by limits and then one without a limit end as one unlimited run does,
with the same machine. A fresh run is interrupted exactly if the unlimited one is inside the program
after as many records, and then it has executed these; else it ends as the unlimited one does. -/
theorem limits_only_interrupt (code : Code) (tables : Tables) :
    let fresh : Machine := { code, tables }
    (∀ limits m, Interrupted limits fresh m →
      ∀ status m', (m.withLimit none).Stops status m' ↔ fresh.Stops status m') ∧
    ∀ n,
      ((∃ steps m, (fresh.withLimit (some n)).Exceeds steps m) ↔
        ∃ m, fresh.run n = (.running, m) ∧ m.cursor < code.length) ∧
      (∀ steps m, (fresh.withLimit (some n)).Exceeds steps m →
        steps = n ∧ m.steps = n ∧ fresh.run n = (.running, m.withLimit none)) ∧
      ((∀ steps m, ¬ (fresh.withLimit (some n)).Exceeds steps m) →
        ∃ status m, fresh.Stops status m ∧ (fresh.withLimit (some n)).Stops status (m.withLimit (some n))) := by
  intro fresh
  constructor
  · intro limits m hm status m'
    obtain ⟨k, hk⟩ := hm.running
    exact stops_iff_of_running hk
  intro n
  have hexceeds (m : Machine) (hrun : fresh.run n = (.running, m)) (hinside : m.cursor < m.code.length) :
      (fresh.withLimit (some n)).Exceeds m.steps (m.withLimit (some n)) :=
    exceeds_of_running rfl hrun hinside
  refine ⟨⟨?_, ?_⟩, ?_, ?_⟩
  · rintro ⟨steps, m, h⟩
    obtain ⟨hrun, hinside, -⟩ := h.running rfl
    have hcode : m.code = code := (frame_of_run hrun).1
    exact ⟨m.withLimit none, hrun, hcode ▸ hinside⟩
  · rintro ⟨m, hrun, hinside⟩
    have hcode : m.code = code := (frame_of_run hrun).1
    exact ⟨_, _, hexceeds m hrun (hcode ▸ hinside)⟩
  · intro steps m h
    obtain ⟨hrun, -, hsteps, hcount⟩ := h.running rfl
    have hn : m.steps = n := hcount.trans (Nat.zero_add n)
    exact ⟨hsteps.symm.trans hn, hn, hrun⟩
  · intro hnone
    exact stops_of_not_running rfl fun m hrun hinside => hnone _ _ (hexceeds m hrun hinside)

/-- `x var 1 =` is interrupted before the assignment, then at once by a lower limit, and ends as it
would have. Its own length is limit enough. -/
theorem limits_only_interrupt_of_declaration : ∃ code tables m m',
    code = [.identifier 1 0, .op 1 (.define .var), .constant 1 0, .op 1 .assign] ∧
    Interrupted [3, 1] { code, tables } m ∧ m.stack = [.constant 0, .identifier 0] ∧
    (m.withLimit none).Stops .finished m' ∧ Stops { code, tables } .finished m' ∧
    m'.tables.identifiers.entries.map Identifier.binding = [.value (.number 1)] ∧
    run 3 { code, tables } = (.running, m.withLimit none) ∧
    Stops { code, tables, limit := some 4 } .finished (m'.withLimit (some 4)) := by
  let tables : Tables := ⟨⟨[⟨"1", .number 1, 0⟩]⟩, ⟨[⟨"x", .number, .undef, false, 0⟩]⟩⟩
  let code : Code := [.identifier 1 0, .op 1 (.define .var), .constant 1 0, .op 1 .assign]
  let fresh : Machine := { code, tables }
  obtain ⟨hsame, hlimited⟩ := limits_only_interrupt code tables
  have hthree : (fresh.withLimit (some 3)).Exceeds 3 _ := ⟨some 1, by simp, 4, rfl⟩
  have hinterrupted : Interrupted [3, 1] fresh _ := .cons hthree (.cons ⟨some 1, by simp, 1, rfl⟩ (.nil _))
  have hstops : fresh.Stops .finished _ := ⟨by simp, 5, rfl⟩
  have hfour : ∀ steps m, ¬ (fresh.withLimit (some 4)).Exceeds steps m := by
    intro steps m hm
    obtain ⟨m, hrun, hinside⟩ := (hlimited 4).1.1 ⟨steps, m, hm⟩
    obtain rfl := (Prod.mk.inj (show (_, _) = _ from hrun)).2
    exact absurd hinside (by decide)
  obtain ⟨status, m, hfree, hlast⟩ := (hlimited 4).2.2 hfour
  obtain ⟨rfl, rfl⟩ := hfree.unique hstops
  exact ⟨code, tables, _, _, rfl, hinterrupted, rfl, (hsame _ _ hinterrupted _ _).2 hstops, hstops, rfl,
    ((hlimited 3).2.1 _ _ hthree).2.2, hlast⟩

end RowLang.Machine
