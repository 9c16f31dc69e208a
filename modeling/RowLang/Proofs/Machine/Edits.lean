import Mathlib
import RowLang.Proofs.Machine.Transitions

/-! Machines that differ in their limits, or in their codes but not in where labels stand. No record
reads more of the two than that, so such machines execute it alike. -/

namespace RowLang.Machine

def edited (c : Code → Code) (l : Option Nat → Option Nat) (m : Machine) : Machine :=
  { m with code := c m.code, limit := l m.limit }

def editedResult {α : Type} (c : Code → Code) (l : Option Nat → Option Nat) :
    EStateM.Result Fault Machine α → EStateM.Result Fault Machine α
  | .ok a m => .ok a (m.edited c l)
  | .error fault m => .error fault (m.edited c l)

section
variable {c : Code → Code} {l : Option Nat → Option Nat}
  (hc : ∀ mark code, (c code).labelEnd? mark = code.labelEnd? mark)
include hc

theorem jumpTarget_edited (code : Code) (t : Tables) (mark : Nat) :
    jumpTarget (c code) t mark = jumpTarget code t mark := by
  simp only [jumpTarget, hc]

theorem Executes.edited {m : Machine} {instr : Instr} {r : EStateM.Result Fault Machine Unit}
    (h : m.Executes instr r) : (m.edited c l).Executes instr (editedResult c l r) := by
  have htarget := jumpTarget_edited hc m.code m.tables
  cases h with
  | pushed ref => exact .pushed ref
  | computed h => exact .computed h
  | defined hstack h => exact .defined hstack h
  | assigned hstack h => exact .assigned hstack h
  | labelled hstack => exact .labelled hstack
  | passed hstack h => exact .passed hstack h
  | jumped hstack h => exact .jumped hstack ((htarget _).trans h)
  | branched hstack hv h => exact .branched hstack hv ((htarget _).trans h)
  | starved h => exact .starved h
  | refused hstack h =>
    refine .refused hstack ?_
    cases h with
    | negate h => exact .negate h
    | binary h => exact .binary h
    | define h => exact .define h
    | assign h => exact .assign h
    | goto h => exact .goto ((htarget _).trans h)
    | condition h => exact .condition h
    | mismatch h hv => exact .mismatch h hv
    | branch h ht => exact .branch h ((htarget _).trans ht)

theorem execute_edited (instr : Instr) (m : Machine) :
    execute instr (m.edited c l) = editedResult c l (execute instr m) :=
  (Executes.edited hc (m.executes instr)).eq

end
end RowLang.Machine
