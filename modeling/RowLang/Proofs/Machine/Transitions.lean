import Mathlib
import RowLang.Proofs.Machine.Effects
import RowLang.Machine.Basic

/-! All that one record can do to the machine, for any operands it may find. What is said elsewhere of
records follows from this relation; only here is an operator looked into. -/

namespace RowLang

inductive Need where
  | operand
  | name

namespace Operator

def needs : Operator → List Need
  | negate | label => [.operand]
  | binary _ => [.operand, .operand]
  | define _ | goto => [.name]
  | assign => [.operand, .name]
  | branch => [.name, .operand]

/-- The fault if the stack does not have what is needed, and what is left of the stack then. -/
def shortfall (op : Operator) : List Need → List Ref → Option (Fault × List Ref)
  | [], _ => none
  | _ :: _, [] => some (.stackUnderflow op, [])
  | .operand :: needs, _ :: stack => shortfall op needs stack
  | .name :: needs, .identifier _ :: stack => shortfall op needs stack
  | .name :: _, .constant _ :: stack => some (.notAnIdentifier op, stack)

inductive Evaluates (t : Tables) : Operator → List Ref → Literal → Prop
  | negate {ref : Ref} {stack : List Ref} {x : Float} (h : t.resolve ref = .ok (.number x)) :
      Evaluates t .negate (ref :: stack) (.number (-x))
  | binary {op : BinaryOp} {right left : Ref} {stack : List Ref} {a b v : Literal}
      (hl : t.resolve left = .ok a) (hr : t.resolve right = .ok b) (hv : op.apply a b = .ok v) :
      Evaluates t (.binary op) (right :: left :: stack) v

/-- The operator finds what it needs, and has an objection to it. -/
inductive Refuses (code : Code) (t : Tables) : Operator → List Ref → Fault → Prop
  | negate {ref : Ref} {fault : Fault}
      (h : (t.resolve ref >>= fun v => v.toNumber .negate) = .error fault) :
      Refuses code t .negate [ref] fault
  | binary {op : BinaryOp} {right left : Ref} {fault : Fault}
      (h : (t.resolve left >>= fun a => t.resolve right >>= fun b => op.apply a b) = .error fault) :
      Refuses code t (.binary op) [right, left] fault
  | define {word : Declarator} {index : Nat} {fault : Fault} (h : t.define word index = .error fault) :
      Refuses code t (.define word) [.identifier index] fault
  | assign {index : Nat} {ref : Ref} {fault : Fault} (h : t.assign index ref = .error fault) :
      Refuses code t .assign [ref, .identifier index] fault
  | goto {mark : Nat} {fault : Fault} (h : jumpTarget code t mark = .error fault) :
      Refuses code t .goto [.identifier mark] fault
  | condition {mark : Nat} {ref : Ref} {fault : Fault} (h : t.resolve ref = .error fault) :
      Refuses code t .branch [.identifier mark, ref] fault
  | mismatch {mark : Nat} {ref : Ref} {v : Literal} (h : t.resolve ref = .ok v)
      (hv : v.type ≠ .boolean) :
      Refuses code t .branch [.identifier mark, ref] (.typeMismatch .branch .boolean v.type)
  | branch {mark : Nat} {ref : Ref} {fault : Fault} (h : t.resolve ref = .ok (.boolean false))
      (ht : jumpTarget code t mark = .error fault) : Refuses code t .branch [.identifier mark, ref] fault

end Operator

def Fault.IsLimit : Fault → Prop
  | stepLimitExceeded _ => True
  | _ => False

namespace Machine

def withValue (m : Machine) (stack : List Ref) (v : Literal) : Machine :=
  { m with
    tables := { m.tables with constants := (m.tables.constants.intern v).1 }
    stack := .constant (m.tables.constants.intern v).2 :: stack }

inductive Executes (m : Machine) : Instr → EStateM.Result Fault Machine Unit → Prop
  | pushed (ref : Ref) : m.Executes (.push ref) (.ok () { m with stack := ref :: m.stack })
  | computed {op : Operator} {v : Literal} (h : op.Evaluates m.tables m.stack v) :
      m.Executes (.apply op) (.ok () (m.withValue (m.stack.drop op.needs.length) v))
  | defined {word : Declarator} {index : Nat} {stack : List Ref} {tables : Tables}
      (hstack : m.stack = .identifier index :: stack) (htables : m.tables.define word index = .ok tables) :
      m.Executes (.apply (.define word)) (.ok () { m with tables, stack := .identifier index :: stack })
  | assigned {index : Nat} {ref : Ref} {stack : List Ref} {tables : Tables}
      (hstack : m.stack = ref :: .identifier index :: stack)
      (htables : m.tables.assign index ref = .ok tables) :
      m.Executes (.apply .assign) (.ok () { m with tables, stack })
  | labelled {ref : Ref} {stack : List Ref} (hstack : m.stack = ref :: stack) :
      m.Executes (.apply .label) (.ok () { m with stack })
  | passed {mark : Nat} {ref : Ref} {stack : List Ref} (hstack : m.stack = .identifier mark :: ref :: stack)
      (h : m.tables.resolve ref = .ok (.boolean true)) :
      m.Executes (.apply .branch) (.ok () { m with stack })
  | jumped {mark position : Nat} {stack : List Ref} (hstack : m.stack = .identifier mark :: stack)
      (ht : jumpTarget m.code m.tables mark = .ok position) :
      m.Executes (.apply .goto) (.ok () { m with cursor := position, stack := [] })
  | branched {mark position : Nat} {ref : Ref} {stack : List Ref}
      (hstack : m.stack = .identifier mark :: ref :: stack)
      (h : m.tables.resolve ref = .ok (.boolean false))
      (ht : jumpTarget m.code m.tables mark = .ok position) :
      m.Executes (.apply .branch) (.ok () { m with cursor := position, stack := [] })
  | starved {op : Operator} {fault : Fault} {stack : List Ref}
      (h : op.shortfall op.needs m.stack = some (fault, stack)) :
      m.Executes (.apply op) (.error fault { m with stack })
  | refused {op : Operator} {refs stack : List Ref} {fault : Fault} (hstack : m.stack = refs ++ stack)
      (h : op.Refuses m.code m.tables refs fault) : m.Executes (.apply op) (.error fault { m with stack })

section
variable {α β : Type} {m : Machine} {op : Operator} {needs : List Need} {stack refs : List Ref}
  {fault : Fault}

theorem pop_bind {f : Ref → Action β} {ref : Ref} (h : m.stack = ref :: stack) :
    (pop op >>= f) m = f ref { m with stack } := by
  simp only [bind, EStateM.bind, pop, h]

theorem popIdentifier_bind {f : Nat → Action β} {index : Nat} (h : m.stack = .identifier index :: stack) :
    (popIdentifier op >>= f) m = f index { m with stack } := by
  simp only [popIdentifier, bind, EStateM.bind, pop, h]
  rfl

theorem check_bind_ok {result : Machine → Except Fault α} {f : α → Action β} {a : α}
    (h : result m = .ok a) : (check result >>= f) m = f a m := by
  simp only [bind, EStateM.bind, check, h]

theorem check_bind_error {result : Machine → Except Fault α} {f : α → Action β}
    (h : result m = .error fault) : (check result >>= f) m = .error fault m := by
  simp only [bind, EStateM.bind, check, h]

theorem pop_short {f : Ref → Action Unit}
    (h : op.shortfall (.operand :: needs) m.stack = some (fault, stack))
    (hf : ∀ ref rest, op.shortfall needs rest = some (fault, stack) →
      f ref { m with stack := rest } = .error fault { m with stack }) :
    (pop op >>= f) m = .error fault { m with stack } := by
  obtain ⟨code, tables, operands, cursor, steps, limit⟩ := m
  cases operands with
  | nil =>
    cases h
    rfl
  | cons ref rest => exact hf ref rest h

theorem popIdentifier_short {f : Nat → Action Unit}
    (h : op.shortfall (.name :: needs) m.stack = some (fault, stack))
    (hf : ∀ index rest, op.shortfall needs rest = some (fault, stack) →
      f index { m with stack := rest } = .error fault { m with stack }) :
    (popIdentifier op >>= f) m = .error fault { m with stack } := by
  obtain ⟨code, tables, operands, cursor, steps, limit⟩ := m
  cases operands with
  | nil =>
    cases h
    rfl
  | cons ref rest =>
    cases ref with
    | identifier index => exact hf index rest h
    | constant index =>
      cases h
      rfl

theorem apply_of_shortfall (h : op.shortfall op.needs m.stack = some (fault, stack)) :
    apply op m = .error fault { m with stack } := by
  cases op with
  | negate | label => exact pop_short h fun _ _ h => nomatch h
  | binary op => exact pop_short h fun _ _ h => pop_short h fun _ _ h => nomatch h
  | define word => exact popIdentifier_short h fun _ _ h => nomatch h
  | goto => exact popIdentifier_short h fun _ _ h => nomatch h
  | assign => exact pop_short h fun _ _ h => popIdentifier_short h fun _ _ h => nomatch h
  | branch => exact popIdentifier_short h fun _ _ h => pop_short h fun _ _ h => nomatch h

theorem apply_of_refuses (hstack : m.stack = refs ++ stack) (h : op.Refuses m.code m.tables refs fault) :
    apply op m = .error fault { m with stack } := by
  cases h with
  | negate h => exact (pop_bind hstack).trans (check_bind_error h)
  | binary h => exact (pop_bind hstack).trans ((pop_bind rfl).trans (check_bind_error h))
  | define h => exact (popIdentifier_bind hstack).trans (check_bind_error h)
  | assign h => exact (pop_bind hstack).trans ((popIdentifier_bind rfl).trans (check_bind_error h))
  | goto h => exact (popIdentifier_bind hstack).trans (check_bind_error h)
  | condition h => exact (popIdentifier_bind hstack).trans ((pop_bind rfl).trans (check_bind_error h))
  | @mismatch mark ref v h hv =>
    refine (popIdentifier_bind hstack).trans ((pop_bind rfl).trans ((check_bind_ok h).trans ?_))
    cases v with
    | boolean => exact absurd rfl hv
    | number | string => rfl
  | branch h ht =>
    exact (popIdentifier_bind hstack).trans
      ((pop_bind rfl).trans ((check_bind_ok h).trans (check_bind_error ht)))

theorem Executes.eq {instr : Instr} {r : EStateM.Result Fault Machine Unit} (h : m.Executes instr r) :
    execute instr m = r := by
  cases h with
  | pushed ref => rfl
  | starved h => exact apply_of_shortfall h
  | refused hstack h => exact apply_of_refuses hstack h
  | @computed op v h =>
    generalize hs : m.stack = operands at h ⊢
    cases h with
    | @negate ref stack x h =>
      have hvalue : (m.tables.resolve ref >>= fun v => v.toNumber .negate) = .ok x := by
        rw [h]
        rfl
      exact (pop_bind hs).trans (check_bind_ok hvalue)
    | @binary op right left stack a b v hl hr hv =>
      have hvalue : (m.tables.resolve left >>= fun a =>
          m.tables.resolve right >>= fun b => op.apply a b) = .ok v := by
        rw [hl, hr]
        exact hv
      exact (pop_bind hs).trans ((pop_bind rfl).trans (check_bind_ok hvalue))
  | defined hstack h => exact (popIdentifier_bind hstack).trans (check_bind_ok h)
  | assigned hstack h => exact (pop_bind hstack).trans ((popIdentifier_bind rfl).trans (check_bind_ok h))
  | labelled hstack => exact pop_bind hstack
  | passed hstack h =>
    exact (popIdentifier_bind hstack).trans ((pop_bind rfl).trans ((check_bind_ok h).trans rfl))
  | jumped hstack h => exact (popIdentifier_bind hstack).trans (check_bind_ok h)
  | branched hstack h ht =>
    exact (popIdentifier_bind hstack).trans
      ((pop_bind rfl).trans ((check_bind_ok h).trans (check_bind_ok ht)))

theorem operand_of_shortfall (h : op.shortfall (.operand :: needs) stack = none) :
    ∃ ref rest, stack = ref :: rest ∧ op.shortfall needs rest = none := by
  cases stack with
  | nil => cases h
  | cons ref rest => exact ⟨ref, rest, rfl, h⟩

theorem name_of_shortfall (h : op.shortfall (.name :: needs) stack = none) :
    ∃ index rest, stack = .identifier index :: rest ∧ op.shortfall needs rest = none := by
  cases stack with
  | nil => cases h
  | cons ref rest =>
    cases ref with
    | constant => cases h
    | identifier index => exact ⟨index, rest, rfl, h⟩

theorem length_le_of_shortfall (h : op.shortfall needs stack = none) : needs.length ≤ stack.length := by
  fun_induction Operator.shortfall op needs stack with
  | case1 => exact Nat.zero_le _
  | case2 | case5 => cases h
  | case3 _ _ _ ih | case4 _ _ _ ih => exact Nat.succ_le_succ (ih h)

theorem exists_executes (m : Machine) (instr : Instr) : ∃ r, m.Executes instr r := by
  cases instr with
  | push ref => exact ⟨_, .pushed ref⟩
  | apply op =>
    -- an operator that finds all it needs fails by one of its own checks or not at all
    cases hshort : op.shortfall op.needs m.stack with
    | some lack => exact ⟨_, .starved hshort⟩
    | none =>
      cases op with
      | negate =>
        obtain ⟨ref, stack, hs, -⟩ := operand_of_shortfall hshort
        cases hx : m.tables.resolve ref >>= fun v => v.toNumber .negate with
        | ok x =>
          obtain ⟨a, ha, hx⟩ := bind_eq_ok hx
          obtain rfl := Literal.toNumber_ok hx
          exact ⟨_, .computed (by rw [hs]; exact .negate ha)⟩
        | error fault => exact ⟨_, .refused hs (.negate hx)⟩
      | binary op =>
        obtain ⟨right, rest, hs, hshort⟩ := operand_of_shortfall hshort
        obtain ⟨left, stack, rfl, -⟩ := operand_of_shortfall hshort
        cases hv : m.tables.resolve left >>= fun a => m.tables.resolve right >>= fun b => op.apply a b with
        | ok v =>
          obtain ⟨a, ha, hv⟩ := bind_eq_ok hv
          obtain ⟨b, hb, hv⟩ := bind_eq_ok hv
          exact ⟨_, .computed (by rw [hs]; exact .binary ha hb hv)⟩
        | error fault => exact ⟨_, .refused hs (.binary hv)⟩
      | define word =>
        obtain ⟨index, stack, hs, -⟩ := name_of_shortfall hshort
        cases ht : m.tables.define word index with
        | ok tables => exact ⟨_, .defined hs ht⟩
        | error fault => exact ⟨_, .refused hs (.define ht)⟩
      | assign =>
        obtain ⟨ref, rest, hs, hshort⟩ := operand_of_shortfall hshort
        obtain ⟨index, stack, rfl, -⟩ := name_of_shortfall hshort
        cases ht : m.tables.assign index ref with
        | ok tables => exact ⟨_, .assigned hs ht⟩
        | error fault => exact ⟨_, .refused hs (.assign ht)⟩
      | goto =>
        obtain ⟨mark, stack, hs, -⟩ := name_of_shortfall hshort
        cases ht : jumpTarget m.code m.tables mark with
        | ok position => exact ⟨_, .jumped hs ht⟩
        | error fault => exact ⟨_, .refused hs (.goto ht)⟩
      | label =>
        obtain ⟨ref, stack, hs, -⟩ := operand_of_shortfall hshort
        exact ⟨_, .labelled hs⟩
      | branch =>
        obtain ⟨mark, rest, hs, hshort⟩ := name_of_shortfall hshort
        obtain ⟨ref, stack, rfl, -⟩ := operand_of_shortfall hshort
        cases hv : m.tables.resolve ref with
        | error fault => exact ⟨_, .refused hs (.condition hv)⟩
        | ok v =>
          cases v with
          | number | string => exact ⟨_, .refused hs (.mismatch hv nofun)⟩
          | boolean holds =>
            cases holds with
            | true => exact ⟨_, .passed hs hv⟩
            | false =>
              cases ht : jumpTarget m.code m.tables mark with
              | ok position => exact ⟨_, .branched hs hv ht⟩
              | error fault => exact ⟨_, .refused hs (.branch hv ht)⟩

theorem executes (m : Machine) (instr : Instr) : m.Executes instr (execute instr m) := by
  obtain ⟨r, h⟩ := m.exists_executes instr
  rwa [h.eq]

end

inductive Objection (code : Code) (t : Tables) (refs : List Ref) : Fault → Prop
  | dangling {ref : Ref} (hmem : ref ∈ refs) (h : ¬ ref.Valid t) :
      Objection code t refs (.invalidReference ref)
  | uninitialized (name : String) : Objection code t refs (.uninitialized name)
  | redefined (name : String) : Objection code t refs (.redefined name)
  | notModifiable (name : String) : Objection code t refs (.notModifiable name)
  | mismatch (op : Operator) (expected found : ValueType) :
      Objection code t refs (.typeMismatch op expected found)
  | unlabelled {mark : Nat} {e : Identifier} (he : t.identifiers.get? mark = some e)
      (htype : e.type = .mark) (hend : code.labelEnd? mark = none) :
      Objection code t refs (.labelNotFound e.name)
  | unmarked {mark : Nat} {e : Identifier} (he : t.identifiers.get? mark = some e)
      (htype : e.type ≠ .mark) : Objection code t refs (.unknownMark e.name)

section
variable {code : Code} {t : Tables} {op : Operator} {refs : List Ref} {fault : Fault}

theorem objection_of_resolve {ref : Ref} (h : t.resolve ref = .error fault) (hmem : ref ∈ refs) :
    Objection code t refs fault := by
  rcases Tables.resolve_error h with ⟨rfl, hvalid⟩ | ⟨name, rfl⟩
  · exact .dangling hmem hvalid
  · exact .uninitialized name

theorem objection_of_jumpTarget {mark : Nat} (h : jumpTarget code t mark = .error fault)
    (hmem : .identifier mark ∈ refs) : Objection code t refs fault := by
  rcases jumpTarget_error h with ⟨rfl, hvalid⟩ | ⟨e, he, ⟨rfl, htype, hend⟩ | ⟨rfl, htype⟩⟩
  · exact .dangling hmem hvalid
  · exact .unlabelled he htype hend
  · exact .unmarked he htype

theorem objection_of_refuses (h : op.Refuses code t refs fault) : Objection code t refs fault := by
  cases h with
  | negate h =>
    rcases bind_eq_error h with h | ⟨v, -, h⟩
    · exact objection_of_resolve h (by simp)
    · obtain ⟨found, rfl⟩ := Literal.toNumber_error h
      exact .mismatch ..
  | binary h =>
    rcases bind_eq_error h with h | ⟨a, -, h⟩
    · exact objection_of_resolve h (by simp)
    · rcases bind_eq_error h with h | ⟨b, -, h⟩
      · exact objection_of_resolve h (by simp)
      · obtain ⟨expected, found, rfl⟩ := BinaryOp.apply_error h
        exact .mismatch ..
  | define h =>
    rcases Tables.define_error h with ⟨rfl, hvalid⟩ | ⟨name, rfl⟩
    · exact .dangling (by simp) hvalid
    · exact .redefined name
  | assign h =>
    rcases Tables.assign_error h with ⟨rfl, hvalid⟩ | ⟨rfl, hvalid⟩ | ⟨name, rfl | rfl⟩ |
      ⟨e, v, -, -, -, rfl⟩
    · exact .dangling (by simp) hvalid
    · exact .dangling (by simp) hvalid
    · exact .uninitialized name
    · exact .notModifiable name
    · exact .mismatch ..
  | goto h => exact objection_of_jumpTarget h (by simp)
  | condition h => exact objection_of_resolve h (by simp)
  | mismatch h hv => exact .mismatch ..
  | branch h ht => exact objection_of_jumpTarget ht (by simp)

theorem length_of_refuses (h : op.Refuses code t refs fault) : refs.length = op.needs.length := by
  cases h <;> rfl

theorem length_needs_le (op : Operator) : op.needs.length ≤ 2 := by
  cases op <;> simp [Operator.needs]

theorem of_shortfall {needs : List Need} {operands stack : List Ref}
    (h : op.shortfall needs operands = some (fault, stack)) :
    (fault = .stackUnderflow op ∨ fault = .notAnIdentifier op) ∧
      ∃ n ≤ needs.length, stack = operands.drop n := by
  fun_induction Operator.shortfall op needs operands with
  | case1 => cases h
  | case2 =>
    cases h
    exact ⟨Or.inl rfl, 0, Nat.zero_le _, rfl⟩
  | case3 needs ref rest ih | case4 needs index rest ih =>
    obtain ⟨hfault, n, hn, hrest⟩ := ih h
    exact ⟨hfault, n + 1, by simpa using hn, hrest⟩
  | case5 =>
    cases h
    exact ⟨Or.inr rfl, 1, by simp, rfl⟩

end

section
variable {m m' : Machine} {instr : Instr} {fault : Fault}

theorem Executes.frame (h : m.Executes instr (.ok () m')) :
    m'.code = m.code ∧ m'.limit = m.limit ∧ m'.steps = m.steps := by
  cases h <;> exact ⟨rfl, rfl, rfl⟩

theorem Executes.taken (h : m.Executes instr (.error fault m')) :
    ∃ n ≤ 2, m' = { m with stack := m.stack.drop n } := by
  cases h with
  | starved h =>
    obtain ⟨-, n, hn, rfl⟩ := of_shortfall h
    exact ⟨n, hn.trans (length_needs_le _), rfl⟩
  | @refused op refs stack fault hstack h =>
    refine ⟨refs.length, (length_of_refuses h).trans_le (length_needs_le op), ?_⟩
    rw [hstack, List.drop_left]

theorem Executes.not_isLimit (h : m.Executes instr (.error fault m')) : ¬ fault.IsLimit := by
  cases h with
  | starved h => rcases (of_shortfall h).1 with rfl | rfl <;> exact id
  | refused hstack h => cases objection_of_refuses h <;> exact id

end

inductive Advances (m : Machine) : Status × Machine → Prop
  | ended (hrecord : m.code[m.cursor]? = none) : m.Advances (.finished, m)
  | halted {record : Record} (hrecord : m.code[m.cursor]? = some record)
      (hlimit : m.limit.any (· ≤ m.steps)) :
      m.Advances (.failed ⟨.stepLimitExceeded m.steps, record.row⟩, m)
  | executed {record : Record} {m' : Machine} (hrecord : m.code[m.cursor]? = some record)
      (h : Executes { m with cursor := m.cursor + 1, steps := m.steps + 1 } record.instr (.ok () m')) :
      m.Advances (.running, m')
  | refused {record : Record} {fault : Fault} {m' : Machine} (hrecord : m.code[m.cursor]? = some record)
      (h : Executes { m with cursor := m.cursor + 1, steps := m.steps + 1 } record.instr
        (.error fault m')) : m.Advances (.failed ⟨fault, record.row⟩, m')

theorem advances (m : Machine) : m.Advances m.advance := by
  unfold advance
  split
  · rename_i hrecord
    exact .ended hrecord
  · rename_i record hrecord
    split
    · rename_i hlimit
      exact .halted hrecord hlimit
    · have hexecutes := executes { m with cursor := m.cursor + 1, steps := m.steps + 1 } record.instr
      split
      · rename_i m' hresult
        rw [hresult] at hexecutes
        exact .executed hrecord hexecutes
      · rename_i fault m' hresult
        rw [hresult] at hexecutes
        exact .refused hrecord hexecutes

theorem frame_of_running {m m' : Machine} (h : m.advance = (.running, m')) :
    m'.code = m.code ∧ m'.limit = m.limit ∧ m'.steps = m.steps + 1 := by
  have hadvances := m.advances
  rw [h] at hadvances
  cases hadvances with
  | executed hrecord h => exact h.frame

theorem executes_of_running {m m' : Machine} {record : Record}
    (hrecord : m.code[m.cursor]? = some record) (h : m.advance = (.running, m')) :
    Executes { m with cursor := m.cursor + 1, steps := m.steps + 1 } record.instr (.ok () m') := by
  have hadvances := m.advances
  rw [h] at hadvances
  cases hadvances with
  | executed hrecord' h =>
    obtain rfl := Option.some.inj (hrecord.symm.trans hrecord')
    exact h

end Machine
end RowLang
