import Mathlib
import RowLang.Machine.Basic

/-! Runs, however many records they take. The number of records that a run is allowed splits as it is
spent, and a run that has stopped does not depend on it. -/

namespace RowLang.Machine
variable {m m' m'' : Machine} {status status' : Status} {k n : Nat}

theorem advance_of_none (h : m.code[m.cursor]? = none) : m.advance = (.finished, m) := by
  rw [advance, h]

theorem advance_of_limit {record : Record} (h : m.code[m.cursor]? = some record)
    (hl : m.limit.any (· ≤ m.steps)) :
    m.advance = (.failed ⟨.stepLimitExceeded m.steps, record.row⟩, m) := by
  rw [advance, h]
  exact if_pos hl

theorem advance_of_some {record : Record} (h : m.code[m.cursor]? = some record)
    (hl : ¬ m.limit.any (· ≤ m.steps)) :
    m.advance = match execute record.instr { m with cursor := m.cursor + 1, steps := m.steps + 1 } with
      | .ok _ m' => (.running, m')
      | .error fault m' => (.failed ⟨fault, record.row⟩, m') := by
  rw [advance, h]
  refine (if_neg hl).trans ?_
  cases execute record.instr { m with cursor := m.cursor + 1, steps := m.steps + 1 } <;> rfl

theorem run_one (m : Machine) : m.run 1 = m.advance := by
  rw [run]
  split
  · rename_i m' hm'
    rw [hm', run]
  · rfl

theorem run_add (h : m.run k = (.running, m')) (n : Nat) : m.run (k + n) = m'.run n := by
  induction k generalizing m with
  | zero =>
    cases h
    rw [Nat.zero_add]
  | succ k ih =>
    rw [Nat.succ_add, run]
    rw [run] at h
    split at h
    · exact ih h
    · rename_i hstop
      exact absurd (by rw [h]) (hstop m')

theorem run_of_stopped (h : m.run k = (status, m')) (hs : status ≠ .running) (hk : k ≤ n) :
    m.run n = (status, m') := by
  induction k generalizing m n with
  | zero =>
    rw [run] at h
    exact absurd (congrArg Prod.fst h).symm hs
  | succ k ih =>
    obtain ⟨n, rfl⟩ : ∃ n', n = n' + 1 := ⟨n - 1, by omega⟩
    rw [run] at h ⊢
    split at h
    · exact ih h (by omega)
    · exact h

def Stops (m : Machine) (status : Status) (m' : Machine) : Prop :=
  status ≠ .running ∧ ∃ n, m.run n = (status, m')

theorem stops_of_advance (h : m.advance = (status, m')) (hs : status ≠ .running) :
    m.Stops status m' := by
  refine ⟨hs, 1, ?_⟩
  rw [run, h]
  split
  · rename_i hrunning
    exact absurd (congrArg Prod.fst hrunning) hs
  · rfl

theorem Stops.unique (h : m.Stops status m') (h' : m.Stops status' m'') :
    status = status' ∧ m' = m'' := by
  obtain ⟨hs, k, hk⟩ := h
  obtain ⟨hs', n, hn⟩ := h'
  have hboth := run_of_stopped hk hs (Nat.le_add_right k n)
  rw [run_of_stopped hn hs' (Nat.le_add_left n k)] at hboth
  obtain ⟨rfl, rfl⟩ := Prod.mk.inj hboth
  exact ⟨rfl, rfl⟩

theorem Stops.exists_last (h : m.Stops status m') :
    ∃ k before, m.run k = (.running, before) ∧ before.advance = (status, m') := by
  obtain ⟨hs, n, hn⟩ := h
  induction n generalizing m with
  | zero => exact absurd (congrArg Prod.fst hn).symm hs
  | succ n ih =>
    rw [run] at hn
    split at hn
    · rename_i next hadvance
      obtain ⟨k, before, hk, hlast⟩ := ih hn
      refine ⟨k + 1, before, ?_, hlast⟩
      rw [run, hadvance]
      exact hk
    · exact ⟨0, m, rfl, hn⟩

theorem stops_iff_of_running (h : m.run k = (.running, m')) :
    m'.Stops status m'' ↔ m.Stops status m'' := by
  refine and_congr_right fun hs => ⟨?_, ?_⟩
  · rintro ⟨n, hn⟩
    exact ⟨k + n, (run_add h n).trans hn⟩
  · rintro ⟨n, hn⟩
    have hlater := run_of_stopped hn hs (Nat.le_add_left n k)
    rw [run_add h] at hlater
    exact ⟨n, hlater⟩

theorem run_induction {P : Machine → Prop} (hstep : ∀ m, P m → P m.advance.2) (n : Nat) (h : P m) :
    P (m.run n).2 := by
  induction n generalizing m with
  | zero => exact h
  | succ n ih =>
    have hnext := hstep m h
    unfold run
    split
    · rename_i m' hadvance
      rw [hadvance] at hnext
      exact ih hnext
    · exact hnext

end RowLang.Machine
