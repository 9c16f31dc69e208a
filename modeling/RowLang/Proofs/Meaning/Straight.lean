import Mathlib
import RowLang.Proofs.Machine.Interning
import RowLang.Proofs.Machine.Limits
import RowLang.Proofs.Statement.Labels

/-! Records that are executed in a row, as they stand in the code. An expression is computed in as many
steps as it has records, a definition changes what names are bound to as its meaning says, and the two
records behind a test lead on or away, so it is known exactly where a test leads and what is executed
on the way. -/

namespace RowLang

namespace Machine

structure Stands (code rest : Code) (m : Machine) : Prop where
  code_eq : m.code = code
  ahead : code.drop m.cursor = rest
  unlimited : m.limit = none

/-- So many records are executed in a row, and this comes of the last of them. -/
structure Passes (n : Nat) (m : Machine) (status : Status) (m' : Machine) : Prop where
  run : m.run n = (status, m')
  straight : ∀ j < n, (m.run j).1 = .running ∧ (m.run j).2.cursor = m.cursor + j

structure Computes (n : Nat) (a : Operand) (stack : List Ref) (m m' : Machine) : Prop where
  passes : m.Passes n .running m'
  cursor : m'.cursor = m.cursor + n
  identifiers : m'.tables.identifiers = m.tables.identifiers
  result : ∃ ref, m'.stack = ref :: stack ∧ a.Denotes m'.tables ref

/-- A row of records leads to a position, where the stack is the given one. No name is bound anew. -/
structure Arrives (n position : Nat) (stack : List Ref) (m m' : Machine) : Prop where
  passes : m.Passes n .running m'
  cursor : m'.cursor = position
  stack : m'.stack = stack
  identifiers : m'.tables.identifiers = m.tables.identifiers

structure Binds (n : Nat) (σ : Store) (stack : List Ref) (m m' : Machine) : Prop where
  passes : m.Passes n .running m'
  cursor : m'.cursor = m.cursor + n
  stack : m'.stack = stack
  mirrors : m'.tables.Mirrors σ

def Breaks (m : Machine) (e : Located Fault) (σ : Store) : Prop :=
  ∃ k m', m.run k = (.failed e, m') ∧ m'.tables.Mirrors σ

def Yields (n : Nat) (σ : Store) (stack : List Ref) (m : Machine) :
    Except (Located Fault) Operand → Prop
  | .ok a => ∃ m', m.Computes n a stack m'
  | .error e => m.Breaks e σ

def Branches (n inside after : Nat) (σ : Store) (stack : List Ref) (m : Machine) :
    Except (Located Fault) Bool → Prop
  | .ok true => ∃ m', m.Arrives n inside stack m'
  | .ok false => ∃ m', m.Arrives n after [] m'
  | .error e => m.Breaks e σ

/-- A row of records comes to the same as a definition, which never goes on forever. -/
def Performs (n : Nat) (m : Machine) : Outcome → Prop
  | (.finished, σ) => ∃ stack m', m.Binds n σ stack m'
  | (.failed e, σ) => m.Breaks e σ
  | (.running, _) => False

end Machine

section
variable {t t' : Tables}

theorem jumpTarget_keeps (h : t.Keeps t') (code : Code) (mark : Nat) :
    jumpTarget code t' mark = jumpTarget code t mark := by
  unfold jumpTarget Tables.identifier
  cases he : t.identifiers.get? mark with
  | none =>
    have he' : t'.identifiers.get? mark = none := by
      refine Option.eq_none_iff_forall_ne_some.2 fun e' he' => ?_
      obtain ⟨e, hsome, -⟩ := h.get?_before he'
      rw [he] at hsome
      cases hsome
    rw [he']
  | some e =>
    obtain ⟨e', he', hname, htype⟩ := h.get? he
    simp only [he', hname, htype, bind, Except.bind]

end

namespace Machine
variable {m m' m'' : Machine} {status : Status} {n k : Nat} {σ σ' : Store} {code rest : Code}

theorem mirrors_resumed (h : m.tables.Mirrors σ) (fuels : List Nat) :
    (m.resumed fuels).tables.Mirrors (m.resumed fuels).tables.identifiers.store := by
  have hsound := resumed_induction (P := fun m => m.tables.constants.Sound)
    (fun _ => constantsSound_advance) fuels h.sound
  have hnames := congrArg (List.map Prod.fst) (m.continues_resumed fuels).tables.names
  simp only [List.map_map] at hnames
  refine Tables.mirrors_store hsound ?_
  rw [show (m.resumed fuels).tables.identifiers.names = m.tables.identifiers.names from hnames]
  exact h.nodup

theorem mirrors_of_run (h : m.run n = (status, m'))
    (hi : m'.tables.identifiers = m.tables.identifiers) (hm : m.tables.Mirrors σ) :
    m'.tables.Mirrors σ := by
  have hsound := run_induction (P := fun m => m.tables.constants.Sound)
    (fun _ => constantsSound_advance) n hm.sound
  rw [h] at hsound
  exact ⟨hsound, hi ▸ hm.nodup, hi ▸ hm.cell, hi ▸ hm.blank⟩

theorem keeps_of_run (h : m.run n = (status, m')) : m.tables.Keeps m'.tables := by
  have hcontinues := (m.run_sound n).1
  rw [h] at hcontinues
  exact hcontinues.tables

theorem Passes.trans (h : m.Passes n .running m') (hc : m'.cursor = m.cursor + n)
    (h' : m'.Passes k status m'') : m.Passes (n + k) status m'' := by
  refine ⟨(run_add h.run k).trans h'.run, fun j hj => ?_⟩
  by_cases hlt : j < n
  · exact h.straight j hlt
  · obtain ⟨i, rfl⟩ := Nat.exists_eq_add_of_le (not_lt.1 hlt)
    obtain ⟨hrunning, hcursor⟩ := h'.straight i (by omega)
    rw [run_add h.run]
    exact ⟨hrunning, by omega⟩

theorem Stands.drop_eq {p : Code} (h : m.Stands code (p ++ rest)) (hn : p.length = n) :
    code.drop (m.cursor + n) = rest := by
  rw [← List.drop_drop, h.ahead, ← hn, List.drop_left]

theorem Stands.drop_two {p : Code} {record record' : Record}
    (h : m.Stands code (p ++ record :: record' :: rest)) :
    code.drop (m.cursor + (p.length + 2)) = rest := by
  rw [List.append_cons, List.append_cons] at h
  exact h.drop_eq (by simp)

theorem Stands.of_run {rest' : Code} (h : m.Stands code rest) (hrun : m.run n = (.running, m'))
    (hat : code.drop m'.cursor = rest') : m'.Stands code rest' := by
  obtain ⟨hcode, hlimit, -⟩ := frame_of_run hrun
  exact ⟨hcode.trans h.code_eq, hat, hlimit.trans h.unlimited⟩

theorem Passes.stands {p : Code} (h : m.Passes n .running m') (hc : m'.cursor = m.cursor + n)
    (hs : m.Stands code (p ++ rest)) (hn : p.length = n) : m'.Stands code rest :=
  hs.of_run h.run (by rw [hc, hs.drop_eq hn])

theorem Passes.breaks {e : Located Fault} (h : m.Passes n .running m') (h' : m'.Breaks e σ) :
    m.Breaks e σ := by
  obtain ⟨k, m'', hk, hm''⟩ := h'
  exact ⟨n + k, m'', (run_add h.run k).trans hk, hm''⟩

theorem passes_one (h : m.run 1 = (status, m')) : m.Passes 1 status m' := by
  refine ⟨h, fun j hj => ?_⟩
  obtain rfl : j = 0 := by omega
  exact ⟨rfl, rfl⟩

section
variable {record : Record}

theorem Stands.run_one (h : m.Stands code (record :: rest)) :
    m.run 1 = match execute record.instr { m with cursor := m.cursor + 1, steps := m.steps + 1 } with
      | .ok _ m' => (.running, m')
      | .error fault m' => (.failed ⟨fault, record.row⟩, m') := by
  have hrecord : m.code[m.cursor]? = some record := by
    have hhead := congrArg List.head? h.ahead
    rwa [List.head?_drop, ← h.code_eq] at hhead
  rw [Machine.run_one]
  exact advance_of_some hrecord (by simp [h.unlimited])

theorem Stands.passes (h : m.Stands code (record :: rest))
    (hex : Executes { m with cursor := m.cursor + 1, steps := m.steps + 1 } record.instr (.ok () m')) :
    m.Passes 1 .running m' := passes_one (by rw [h.run_one, hex.eq])

theorem Stands.passes_failed {fault : Fault} (h : m.Stands code (record :: rest))
    (hex : Executes { m with cursor := m.cursor + 1, steps := m.steps + 1 } record.instr
      (.error fault m')) : m.Passes 1 (.failed ⟨fault, record.row⟩) m' :=
  passes_one (by rw [h.run_one, hex.eq])

theorem Stands.breaks {fault : Fault} (h : m.Stands code (record :: rest))
    (hex : Executes { m with cursor := m.cursor + 1, steps := m.steps + 1 } record.instr
      (.error fault m')) (hm : m.tables.Mirrors σ) : m.Breaks ⟨fault, record.row⟩ σ := by
  refine ⟨1, m', (h.passes_failed hex).run, ?_⟩
  rw [hex.tables_eq]
  exact hm

end

section
variable {row row' mark position inside outside : Nat} {stack stack' : List Ref} {ref left right : Ref}
  {a b : Operand} {op : Operator} {o : Outcome}

theorem Computes.mirrors (h : m.Computes n a stack m') (hm : m.tables.Mirrors σ) :
    m'.tables.Mirrors σ := mirrors_of_run h.passes.run h.identifiers hm

theorem Computes.keeps (h : m.Computes n a stack m') : m.tables.Keeps m'.tables :=
  keeps_of_run h.passes.run

theorem Computes.stands {p : Code} (h : m.Computes p.length a stack m')
    (hs : m.Stands code (p ++ rest)) : m'.Stands code rest := h.passes.stands h.cursor hs rfl

theorem Computes.after (h : m.Computes n a stack m') (h' : m'.Computes k b stack' m'') :
    m.Computes (n + k) b stack' m'' :=
  ⟨h.passes.trans h.cursor h'.passes, by rw [h'.cursor, h.cursor, Nat.add_assoc],
    h'.identifiers.trans h.identifiers, h'.result⟩

theorem Arrives.trans (h : m.Arrives n (m.cursor + n) stack m') (h' : m'.Arrives k position stack' m'') :
    m.Arrives (n + k) position stack' m'' :=
  ⟨h.passes.trans h.cursor h'.passes, h'.cursor, h'.stack, h'.identifiers.trans h.identifiers⟩

theorem Computes.arrives (h : m.Computes n a stack m') (h' : m'.Arrives k position stack' m'') :
    m.Arrives (n + k) position stack' m'' :=
  Arrives.trans ⟨h.passes, h.cursor, rfl, h.identifiers⟩ h'

theorem Computes.yields {r : Except (Located Fault) Operand} (h : m.Computes n a stack m')
    (h' : m'.Yields k σ stack' r) : m.Yields (n + k) σ stack' r := by
  cases r with
  | ok b =>
    obtain ⟨m'', hm''⟩ := h'
    exact ⟨m'', h.after hm''⟩
  | error e => exact h.passes.breaks h'

theorem Yields.bind {r : Except (Located Fault) Operand} {f : Operand → Except (Located Fault) Operand}
    (h : m.Yields n σ stack r)
    (hf : ∀ a m', m.Computes n a stack m' → m'.Yields k σ stack' (f a)) :
    m.Yields (n + k) σ stack' (r >>= f) := by
  cases r with
  | ok a =>
    obtain ⟨m', hm'⟩ := h
    exact hm'.yields (hf a m' hm')
  | error e => exact h

theorem Computes.branches {r : Except (Located Fault) Bool} (h : m.Computes n a stack m')
    (h' : m'.Branches k inside outside σ stack' r) : m.Branches (n + k) inside outside σ stack' r := by
  cases r with
  | ok holds =>
    cases holds with
    | true | false =>
      obtain ⟨m'', hm''⟩ := h'
      exact ⟨m'', h.arrives hm''⟩
  | error e => exact h.passes.breaks h'

theorem Yields.branches {r : Except (Located Fault) Operand} {f : Operand → Except (Located Fault) Bool}
    (h : m.Yields n σ stack r)
    (hf : ∀ a m', m.Computes n a stack m' → m'.Branches k inside outside σ stack' (f a)) :
    m.Branches (n + k) inside outside σ stack' (r >>= f) := by
  cases r with
  | ok a =>
    obtain ⟨m', hm'⟩ := h
    exact hm'.branches (hf a m' hm')
  | error e => exact h

theorem Passes.performs (h : m.Passes n .running m') (hc : m'.cursor = m.cursor + n)
    (h' : m'.Performs k o) : m.Performs (n + k) o := by
  obtain ⟨status, σ⟩ := o
  cases status with
  | finished =>
    obtain ⟨stack, m'', hm''⟩ := h'
    exact ⟨stack, m'', h.trans hc hm''.passes, by rw [hm''.cursor, hc, Nat.add_assoc], hm''.stack,
      hm''.mirrors⟩
  | failed e => exact h.breaks h'
  | running => exact h'

theorem performs_nothing (hm : m.tables.Mirrors σ) : m.Performs 0 (.finished, σ) :=
  ⟨m.stack, m, ⟨rfl, by simp⟩, rfl, rfl, hm⟩

theorem computes_push (h : m.Stands code (⟨row, .push ref⟩ :: rest)) (ha : a.Denotes m.tables ref) :
    ∃ m', m.Computes 1 a m.stack m' :=
  ⟨_, h.passes (.pushed ref), rfl, rfl, ref, rfl, ha⟩

theorem computes_value {v : Literal} (h : m.Stands code (.op row op :: rest))
    (hm : m.tables.Mirrors σ) (hv : op.Evaluates m.tables m.stack v) :
    ∃ m', m.Computes 1 (.value v) (m.stack.drop op.needs.length) m' := by
  have hdenotes := Tables.denotes_intern hm.sound v
  exact ⟨_, h.passes (.computed hv), rfl, rfl, _, rfl, hdenotes⟩

theorem yields_negate (h : m.Stands code (.op row .negate :: rest)) (hm : m.tables.Mirrors σ)
    (hstack : m.stack = ref :: stack) (ha : a.Denotes m.tables ref) :
    m.Yields 1 σ stack (located row (σ.negate a)) := by
  have hnegate : σ.negate a = (m.tables.resolve ref >>= fun v => v.toNumber .negate) >>= fun x =>
      .ok (.value (.number (-x))) := by
    rw [hm.resolve_eq ha, bind_assoc]
    rfl
  rw [hnegate]
  cases hx : m.tables.resolve ref >>= fun v => v.toNumber .negate with
  | ok x =>
    obtain ⟨v, hv, hx⟩ := bind_eq_ok hx
    obtain rfl := Literal.toNumber_ok hx
    have hvalue := computes_value h hm (by rw [hstack]; exact .negate hv)
    rwa [hstack] at hvalue
  | error fault => exact h.breaks (.refused hstack (.negate hx)) hm

theorem yields_binary (op : BinaryOp) (h : m.Stands code (.op row (.binary op) :: rest))
    (hm : m.tables.Mirrors σ) (hstack : m.stack = right :: left :: stack)
    (ha : a.Denotes m.tables left) (hb : b.Denotes m.tables right) :
    m.Yields 1 σ stack (located row (σ.combine op a b)) := by
  have hcombine : σ.combine op a b = (m.tables.resolve left >>= fun x =>
      m.tables.resolve right >>= fun y => op.apply x y) >>= fun v => .ok (.value v) := by
    simp only [hm.resolve_eq ha, hm.resolve_eq hb, bind_assoc]
    rfl
  rw [hcombine]
  cases hv : m.tables.resolve left >>= fun x => m.tables.resolve right >>= fun y => op.apply x y with
  | ok v =>
    obtain ⟨x, hx, hv⟩ := bind_eq_ok hv
    obtain ⟨y, hy, hv⟩ := bind_eq_ok hv
    have hvalue := computes_value h hm (by rw [hstack]; exact .binary hx hy hv)
    rwa [hstack] at hvalue
  | error fault => exact h.breaks (.refused hstack (.binary hv)) hm

theorem binds_define (word : Declarator) {name : String}
    (h : m.Stands code (.op row (.define word) :: rest)) (hm : m.tables.Mirrors σ)
    (hstack : m.stack = ref :: stack) (hn : (Operand.name name).Denotes m.tables ref) :
    match located row (σ.define word name) with
    | .ok σ' => ∃ m', m.Binds 1 σ' m.stack m'
    | .error e => m.Breaks e σ := by
  cases ref with
  | constant i => exact hn.elim
  | identifier i =>
    obtain ⟨e, he, rfl⟩ := hn
    rcases (hm.define he word).cases with ⟨t, σ', ht, hσ, hmirrors⟩ | ⟨fault, ht, hσ⟩
    · rw [hσ]
      exact ⟨_, h.passes (.defined hstack ht), rfl, hstack.symm, hmirrors⟩
    · rw [hσ]
      exact h.breaks (.refused hstack (.define ht)) hm

theorem performs_assign {name : String} (h : m.Stands code (.op row .assign :: rest))
    (hm : m.tables.Mirrors σ) (hstack : m.stack = right :: left :: stack)
    (hn : (Operand.name name).Denotes m.tables left) (ha : a.Denotes m.tables right) :
    m.Performs 1 (σ.settle (located row (σ.assign name a))) := by
  cases left with
  | constant i => exact hn.elim
  | identifier i =>
    obtain ⟨e, he, rfl⟩ := hn
    rcases (hm.assign he ha).cases with ⟨t, σ', ht, hσ, hmirrors⟩ | ⟨fault, ht, hσ⟩
    · rw [hσ]
      exact ⟨_, _, h.passes (.assigned hstack ht), rfl, rfl, hmirrors⟩
    · rw [hσ]
      exact h.breaks (.refused hstack (.assign ht)) hm

theorem Yields.assigned {p : Code} {r : Except (Located Fault) Operand} {name : String}
    (h : m.Yields p.length σ (ref :: stack) r)
    (hs : m.Stands code (p ++ .op row .assign :: rest)) (hm : m.tables.Mirrors σ)
    (hn : (Operand.name name).Denotes m.tables ref) :
    m.Performs (p.length + 1) (σ.settle (r >>= fun a => located row (σ.assign name a))) := by
  cases r with
  | ok a =>
    obtain ⟨m', hm'⟩ := h
    obtain ⟨right, hstack, ha⟩ := hm'.result
    exact hm'.passes.performs hm'.cursor
      (performs_assign (hm'.stands hs) (hm'.mirrors hm) hstack (hm'.keeps.denotes hn) ha)
  | error e => exact h

section
variable (h : m.Stands code (.identifier row mark :: .op row' op :: rest))
include h

theorem Stands.passes_marked
    (hex : Executes { m with
      cursor := m.cursor + 2, steps := m.steps + 2, stack := .identifier mark :: m.stack }
      (.apply op) (.ok () m')) : m.Passes 2 .running m' := by
  have hpush := h.passes (.pushed (.identifier mark))
  exact hpush.trans rfl ((hpush.stands (p := [_]) rfl h rfl).passes hex)

theorem Stands.passes_marked_failed {fault : Fault}
    (hex : Executes { m with
      cursor := m.cursor + 2, steps := m.steps + 2, stack := .identifier mark :: m.stack }
      (.apply op) (.error fault m')) :
    m.Passes 2 (.failed ⟨fault, row'⟩) m' ∧ m'.tables = m.tables := by
  have hpush := h.passes (.pushed (.identifier mark))
  exact ⟨hpush.trans rfl ((hpush.stands (p := [_]) rfl h rfl).passes_failed hex), hex.tables_eq⟩

end

theorem arrives_label (h : m.Stands code (.identifier row mark :: .op row' .label :: rest)) :
    ∃ m', m.Arrives 2 (m.cursor + 2) m.stack m' :=
  ⟨_, h.passes_marked (.labelled rfl), rfl, rfl, rfl⟩

section
variable (h : m.Stands code (.identifier row mark :: .op row' .goto :: rest))
include h

theorem arrives_goto (ht : jumpTarget code m.tables mark = .ok position) :
    ∃ m', m.Arrives 2 position [] m' := by
  rw [← h.code_eq] at ht
  exact ⟨_, h.passes_marked (.jumped rfl ht), rfl, rfl, rfl⟩

theorem passes_goto_failed {fault : Fault} (ht : jumpTarget code m.tables mark = .error fault) :
    ∃ m', m.Passes 2 (.failed ⟨fault, row'⟩) m' ∧ m'.tables.identifiers = m.tables.identifiers := by
  rw [← h.code_eq] at ht
  obtain ⟨hpasses, htables⟩ := h.passes_marked_failed (.refused (List.singleton_append ..).symm (.goto ht))
  exact ⟨_, hpasses, congrArg Tables.identifiers htables⟩

end

theorem branches_branch (h : m.Stands code (.identifier row mark :: .op row' .branch :: rest))
    (hm : m.tables.Mirrors σ) (ht : jumpTarget code m.tables mark = .ok position)
    (hstack : m.stack = ref :: stack) (ha : a.Denotes m.tables ref) (hi : inside = m.cursor + 2) :
    m.Branches 2 inside position σ stack (located row' (σ.holds a)) := by
  have hresolve := hm.resolve_eq ha
  have hmarked : Ref.identifier mark :: m.stack = .identifier mark :: ref :: stack :=
    congrArg (.identifier mark :: ·) hstack
  have hfails {fault : Fault}
      (hr : Operator.Refuses m.code m.tables .branch [.identifier mark, ref] fault) :
      m.Breaks ⟨fault, row'⟩ σ := by
    obtain ⟨hpasses, htables⟩ := h.passes_marked_failed (.refused hmarked hr)
    exact ⟨2, _, hpasses.run, htables ▸ hm⟩
  rw [← h.code_eq] at ht
  rw [Store.holds]
  cases hv : σ.resolve a with
  | error fault => exact hfails (.condition (hresolve.trans hv))
  | ok v =>
    cases v with
    | boolean holds =>
      cases holds with
      | true => exact ⟨_, h.passes_marked (.passed hmarked (hresolve.trans hv)), hi.symm, rfl, rfl⟩
      | false => exact ⟨_, h.passes_marked (.branched hmarked (hresolve.trans hv) ht), rfl, rfl, rfl⟩
    | number | string => exact hfails (.mismatch (hresolve.trans hv) nofun)

theorem Computes.branches_test {p : Code} (h : m.Computes p.length a stack m')
    (hs : m.Stands code (p ++ .identifier row mark :: .op row' .branch :: rest))
    (hm : m.tables.Mirrors σ) (ht : jumpTarget code m.tables mark = .ok position) :
    m'.Branches 2 (m.cursor + (p.length + 2)) position σ stack (located row' (σ.holds a)) := by
  obtain ⟨ref, hstack, hdenotes⟩ := h.result
  rw [← jumpTarget_keeps h.keeps] at ht
  exact branches_branch (h.stands hs) (h.mirrors hm) ht hstack hdenotes (by rw [h.cursor, Nat.add_assoc])

end
end Machine

open Machine

section
variable {code rest : Code} {σ : Store} {m : Machine} {t : Tables}

theorem Lexeme.denotes_operand {l : Lexeme} (hs : t.constants.Sound) (hl : l.LinkedIn t)
    (ho : l.kind.isOperand) :
    ∃ ref, recordsOf [.operand l] = [⟨l.row, .push ref⟩] ∧ l.operand.Denotes t ref := by
  cases hk : l.kind with
  | constant =>
    obtain ⟨i, hi, c, hc, htext⟩ := hl.1 hk
    have hread := hs c (List.mem_of_getElem? hc)
    rw [htext] at hread
    refine ⟨.constant i, ?_, ?_⟩
    · simp [recordsOf, Item.records, hi, Lexeme.isConstant, hk, Record.constant]
    · rw [operand, hk, hread]
      exact ⟨c, hc, rfl⟩
  | identifier =>
    obtain ⟨i, hi, e, he, hname⟩ := hl.2 hk
    refine ⟨.identifier i, ?_, ?_⟩
    · simp [recordsOf, Item.records, hi, Lexeme.isConstant, hk, Record.identifier]
    · simp only [operand, hk]
      exact ⟨e, he, hname⟩
  | _ => simp [hk, Kind.isOperand] at ho

theorem Lexeme.denotes_name {l : Lexeme} (hl : l.LinkedIn t) (hi : l.isIdentifier) :
    ∃ i, (Operand.name l.text).Denotes t (.identifier i) ∧
      ∀ row, recordsOf [.operand (l.onRow row)] = [.identifier row i] := by
  obtain ⟨i, hlink, -, hrecords⟩ := recordsOf_name hl hi
  obtain ⟨j, hj, e, he, hname⟩ := hl.2 (kind_of_isIdentifier hi)
  obtain rfl : i = j := by simpa [hlink] using hj
  exact ⟨i, ⟨e, he, hname⟩, hrecords⟩

theorem Expr.yields {e : Expr} (he : e.Ordered) (hk : ∀ l ∈ e.lexemes, l.kind.inExpression)
    (hl : AllLinked m.tables e.lexemes) (hm : m.tables.Mirrors σ)
    (hs : m.Stands code (e.code ++ rest)) : m.Yields e.code.length σ m.stack (e.eval σ) := by
  induction e generalizing m rest with
  | operand l =>
    obtain ⟨ref, hrecords, hdenotes⟩ :=
      Lexeme.denotes_operand hm.sound (hl l (by simp [lexemes])) he
    rw [Expr.code, items, hrecords] at hs ⊢
    exact computes_push hs hdenotes
  | group o e c ih =>
    simp only [lexemes, List.forall_mem_cons, List.forall_mem_append] at hk
    simp only [lexemes, allLinked_cons, allLinked_append] at hl
    exact ih he.2.2 hk.2.1 hl.2.1 hm hs
  | unary l e ih =>
    simp only [lexemes, List.forall_mem_cons] at hk
    simp only [lexemes, allLinked_cons] at hl
    rw [Expr.code, items, recordsOf_append, ← Expr.code] at hs ⊢
    rw [List.append_assoc] at hs
    rw [List.length_append]
    refine (ih he.2.2 hk.2 hl.2 hm hs).bind fun a m' hm' => ?_
    obtain ⟨ref, hstack, ha⟩ := hm'.result
    have hs' := hm'.stands hs
    rcases unaryItems_cases he.1 hk.1 with ⟨hkind, hsign⟩ | ⟨hkind, hsign⟩
    · rw [hsign, hkind, if_neg (by decide)]
      exact ⟨m', ⟨rfl, by simp [recordsOf]⟩, rfl, rfl, ref, hstack, ha⟩
    · rw [hsign] at hs' ⊢
      rw [hkind, if_pos rfl]
      exact yields_negate hs' (hm'.mirrors hm) hstack ha
  | binary a l b iha ihb =>
    simp only [lexemes, List.forall_mem_cons, List.forall_mem_append] at hk
    simp only [lexemes, allLinked_cons, allLinked_append] at hl
    obtain ⟨op, hkind, hop⟩ := exists_joinItems he.1 hk.2.1
    rw [Expr.code, items, recordsOf_append, recordsOf_append, hop, List.append_assoc, ← Expr.code,
      ← Expr.code] at hs ⊢
    rw [List.append_assoc] at hs
    rw [List.length_append]
    -- the left operand waits under the right one and is looked up with it
    refine (iha he.2.2.2.1 hk.1 hl.1 hm hs).bind fun x m₁ hm₁ => ?_
    obtain ⟨left, hleft, hx⟩ := hm₁.result
    have hs₁ := hm₁.stands hs
    have hlb : AllLinked m₁.tables b.lexemes := fun k hmem => hm₁.keeps.linkedIn (hl.2.2 k hmem)
    rw [List.length_append]
    refine (ihb he.2.2.2.2 hk.2.2 hlb (hm₁.mirrors hm) hs₁).bind fun y m₂ hm₂ => ?_
    obtain ⟨right, hright, hy⟩ := hm₂.result
    rw [hleft] at hright
    simp only [hkind]
    exact yields_binary op (hm₂.stands hs₁) (hm₂.mirrors (hm₁.mirrors hm)) hright
      (hm₂.keeps.denotes hx) hy

namespace Definition
variable {name sign : Lexeme} {i : Nat} {stack : List Ref}

theorem performs_give {value : Expr} (hv : value.Ordered)
    (hk : ∀ l ∈ value.lexemes, l.kind.inExpression) (hl : AllLinked m.tables value.lexemes)
    (hn : (Operand.name name.text).Denotes m.tables (.identifier i)) (hm : m.tables.Mirrors σ)
    (hs : m.Stands code (value.code ++ .op sign.row .assign :: rest))
    (hstack : m.stack = .identifier i :: stack) :
    m.Performs (value.code.length + 1) (give name sign value σ) := by
  have hvalue := value.yields hv hk hl hm hs
  rw [hstack] at hvalue
  exact hvalue.assigned hs hm hn

theorem performs {d : Definition} {assignable : List Lexeme → Prop} (h : d.Proper assignable)
    (ha : ∀ value, assignable value → ∀ l ∈ value, l.kind.inExpression)
    (hl : AllLinked m.tables d.lexemes) (hm : m.tables.Mirrors σ)
    (hs : m.Stands code (d.code ++ rest)) : m.Performs d.code.length (d.run σ) := by
  cases d with
  | declaration word name typing value =>
    obtain ⟨⟨declarator, hw, -⟩, hn, -, hv⟩ := h
    simp only [lexemes, allLinked_cons, allLinked_append] at hl
    obtain ⟨i, hdenotes, hrecords⟩ := Lexeme.denotes_name hl.2.1 hn
    have hcode : recordsOf [.operand name] = [.identifier name.row i] := hrecords name.row
    rw [code_declaration hw hcode fun p hp => (hv p hp).1] at hs ⊢
    have hpush := hs.passes (.pushed (.identifier i))
    have hs₁ := hpush.stands (p := [_]) rfl hs rfl
    have hdefine := binds_define declarator hs₁ hm rfl hdenotes
    rw [List.length_append]
    simp only [run, hw]
    cases hd : located word.row (σ.define declarator name.text) with
    | error e =>
      rw [hd] at hdefine
      exact hpush.breaks hdefine
    | ok σ' =>
      rw [hd] at hdefine
      obtain ⟨m₂, hm₂⟩ := hdefine
      have hpasses := hpush.trans rfl hm₂.passes
      refine hpasses.performs hm₂.cursor ?_
      cases value with
      | none => exact performs_nothing hm₂.mirrors
      | some p =>
        obtain ⟨-, hvo, hve⟩ := hv p rfl
        have hkeeps := keeps_of_run hpasses.run
        have hlp : AllLinked m₂.tables p.2.lexemes := fun l hmem =>
          hkeeps.linkedIn (hl.2.2.2 l (List.mem_cons_of_mem p.1 hmem))
        have hs₂ : m₂.Stands code (p.2.code ++ .op p.1.row .assign :: rest) := by
          simpa using hm₂.passes.stands (p := [_]) hm₂.cursor hs₁ rfl
        rw [Option.elim_some, List.length_append]
        exact performs_give hvo (inExpression_of_isExpression hve) hlp (hkeeps.denotes hdenotes)
          hm₂.mirrors hs₂ hm₂.stack
  | assignment name sign value =>
    obtain ⟨hn, hsign, hv, hva⟩ := h
    simp only [lexemes, allLinked_cons] at hl
    obtain ⟨i, hdenotes, hrecords⟩ := Lexeme.denotes_name hl.1 hn
    have hcode : recordsOf [.operand name] = [.identifier name.row i] := hrecords name.row
    rw [code_assignment hcode hsign] at hs ⊢
    rw [List.cons_append, List.append_assoc] at hs
    have hpush := hs.passes (.pushed (.identifier i))
    have hs₁ := hpush.stands (p := [_]) rfl hs rfl
    rw [List.length_cons, List.length_append, Nat.add_comm]
    exact hpush.performs rfl (performs_give hv (ha _ hva) hl.2.2 hdenotes hm hs₁ rfl)

end Definition

namespace Header
variable {h : Header} {one endRow exit position : Nat}

theorem performs_init (hp : h.Proper) (hl : AllLinked m.tables h.lexemes) (hm : m.tables.Mirrors σ)
    (hs : m.Stands code (h.start ++ rest)) : m.Performs h.start.length (h.init σ) := by
  cases h with
  | whileLoop => exact performs_nothing hm
  | forLoop word init toWord bound =>
    simp only [lexemes, allLinked_cons, allLinked_append] at hl
    exact init.performs hp.2.1 (fun _ => inExpression_of_isExpression) hl.2.1 hm hs

theorem counter_denotes {word toWord : Lexeme} {init : Definition} {bound : Expr}
    (hp : (forLoop word init toWord bound).Proper)
    (hl : AllLinked t (forLoop word init toWord bound).lexemes) :
    ∃ i, (Operand.name init.name.text).Denotes t (.identifier i) ∧
      ∀ row, recordsOf [.operand (init.name.onRow row)] = [.identifier row i] := by
  refine Lexeme.denotes_name (hl init.name ?_) hp.2.1.counter.2.2
  simp [lexemes, init.name_mem]

theorem branches_test (hp : h.Proper) (hl : AllLinked m.tables h.lexemes) (hm : m.tables.Mirrors σ)
    (ht : jumpTarget code m.tables exit = .ok position)
    (hs : m.Stands code
      (h.test ++ .identifier h.word.row exit :: .op h.word.row .branch :: rest)) :
    m.Branches (h.test.length + 2) (m.cursor + (h.test.length + 2)) position σ m.stack (h.holds σ) := by
  cases h with
  | whileLoop word condition =>
    simp only [lexemes, allLinked_cons] at hl
    exact (condition.yields hp.2.1 (inExpression_of_isCondition hp.2.2) hl.2 hm hs).branches
      fun a m' hm' => hm'.branches_test hs hm ht
  | forLoop word init toWord bound =>
    obtain ⟨i, hdenotes, hrecords⟩ := counter_denotes hp hl
    simp only [lexemes, allLinked_cons, allLinked_append] at hl
    have htest : (forLoop word init toWord bound).test =
        [.identifier word.row i] ++ (bound.code ++ [.op word.row (.binary .lt)]) := by
      rw [test, hrecords word.row, List.append_assoc]
    have hs₀ : m.Stands code ([.identifier word.row i] ++ (bound.code ++
        .op word.row (.binary .lt) :: .identifier word.row exit :: .op word.row .branch :: rest)) := by
      rwa [htest, List.append_assoc, List.append_assoc] at hs
    obtain ⟨m₁, hm₁⟩ := computes_push hs₀ hdenotes
    have hs₁ := hm₁.stands (p := [_]) hs₀
    have hbound : AllLinked m₁.tables bound.lexemes := fun l hmem =>
      hm₁.keeps.linkedIn (hl.2.2.2 l hmem)
    have hyields := bound.yields hp.2.2.2.1 (inExpression_of_isFactor hp.2.2.2.2) hbound
      (hm₁.mirrors hm) hs₁
    obtain ⟨left, hleft, hcounter⟩ := hm₁.result
    rw [hleft] at hyields
    have hbelow := hm₁.yields (hyields.bind fun limit m₂ hm₂ => by
      obtain ⟨right, hright, hlimit⟩ := hm₂.result
      exact yields_binary .lt (hm₂.stands hs₁) (hm₂.mirrors (hm₁.mirrors hm)) hright
        (hm₂.keeps.denotes hcounter) hlimit)
    have hlength : (forLoop word init toWord bound).test.length = 1 + (bound.code.length + 1) := by
      rw [htest, List.length_append, List.length_append]
      rfl
    have hholds : (forLoop word init toWord bound).holds σ =
        (bound.eval σ >>= fun limit => located word.row (σ.combine .lt (.name init.name.text) limit)) >>=
          fun below => located word.row (σ.holds below) := by
      simp only [holds, located_bind, bind_assoc]
    rw [← hlength] at hbelow
    rw [hholds]
    exact hbelow.branches fun a m' hm' => hm'.branches_test hs hm ht

theorem performs_next (hp : h.Proper) (hl : AllLinked m.tables h.lexemes) (hm : m.tables.Mirrors σ)
    (hone : h.counts → (Operand.value (.number 1)).Denotes m.tables (.constant one))
    (hs : m.Stands code (h.next one endRow ++ rest)) :
    m.Performs (h.next one endRow).length (h.advance endRow σ) := by
  cases h with
  | whileLoop => exact performs_nothing hm
  | forLoop word init toWord bound =>
    obtain ⟨i, hdenotes, hrecords⟩ := counter_denotes hp hl
    rw [next, recordsOf_cons, hrecords] at hs ⊢
    obtain ⟨m₁, hm₁⟩ := computes_push hs hdenotes
    have hs₁ := hm₁.stands (p := [_]) hs
    obtain ⟨m₂, hm₂⟩ := computes_push hs₁ (hm₁.keeps.denotes hdenotes)
    have hs₂ := hm₂.stands (p := [_]) hs₁
    obtain ⟨m₃, hm₃⟩ := computes_push hs₂ ((hm₁.keeps.trans hm₂.keeps).denotes (hone rfl))
    have hs₃ := hm₃.stands (p := [_]) hs₂
    have hall := (hm₁.after hm₂).after hm₃
    obtain ⟨target, hstack₁, hdenotes₁⟩ := hm₁.result
    obtain ⟨left, hstack₂, hdenotes₂⟩ := hm₂.result
    obtain ⟨right, hstack₃, hdenotes₃⟩ := hm₃.result
    rw [hstack₂, hstack₁] at hstack₃
    have hsum := yields_binary .add hs₃ (hall.mirrors hm) hstack₃ (hm₃.keeps.denotes hdenotes₂) hdenotes₃
    rw [advance, located_bind]
    exact hall.passes.performs hall.cursor (hsum.assigned (p := [_]) hs₃ (hall.mirrors hm)
      ((hm₂.keeps.trans hm₃.keeps).denotes hdenotes₁))

end Header
end
end RowLang
