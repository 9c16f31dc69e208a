import Mathlib
import RowLang.Machine.Basic
import RowLang.Proofs.Statement.Tree

/-! The meaning of trees without jumps, told over names: declarations and assignments change what a
name is bound to, and a loop repeats its body as long as its test holds. There are neither records
nor positions in tables, neither marks nor an operand stack. -/

namespace RowLang

open Machine (Status)

structure Cell where
  type : ValueType := .undef
  binding : Binding := .undef
  modifiable : Bool := false

abbrev Store := String → Cell

def Identifier.cell (e : Identifier) : Cell := ⟨e.type, e.binding, e.modifiable⟩

def Identifiers.store (t : Identifiers) : Store := fun name =>
  ((t.entries.find? fun e => e.name == name).map Identifier.cell).getD {}

/-- A value or a name. Names are looked up when an operator is applied to them, not before. -/
inductive Operand where
  | value (v : Literal)
  | name (name : String)

def Lexeme.operand (l : Lexeme) : Operand :=
  match l.kind, Literal.read? l.text with
  | .constant, some v => .value v
  | _, _ => .name l.text

def located {α : Type} (row : Nat) (result : Except Fault α) : Except (Located Fault) α :=
  result.mapError fun fault => ⟨fault, row⟩

theorem located_bind {α β : Type} (row : Nat) (x : Except Fault α) (f : α → Except Fault β) :
    located row (x >>= f) = located row x >>= fun a => located row (f a) := by
  cases x <;> rfl

abbrev Outcome := Status × Store

def Outcome.andThen (outcome : Outcome) (next : Store → Outcome) : Outcome :=
  match outcome with
  | (.finished, σ) => next σ
  | stopped => stopped

namespace Store

def resolve (σ : Store) : Operand → Except Fault Literal
  | .value v => .ok v
  | .name name =>
    match (σ name).binding with
    | .value v => .ok v
    | _ => .error (.uninitialized name)

def negate (σ : Store) (a : Operand) : Except Fault Operand := do
  let x ← (← σ.resolve a).toNumber .negate
  return .value (.number (-x))

def combine (σ : Store) (op : BinaryOp) (a b : Operand) : Except Fault Operand := do
  let x ← σ.resolve a
  let y ← σ.resolve b
  return .value (← op.apply x y)

def holds (σ : Store) (condition : Operand) : Except Fault Bool := do
  match ← σ.resolve condition with
  | .boolean b => return b
  | v => throw (.typeMismatch .branch .boolean v.type)

def define (σ : Store) (word : Declarator) (name : String) : Except Fault Store :=
  match (σ name).binding with
  | .undef => .ok (Function.update σ name
      { σ name with
        binding := .defined
        modifiable := if word = .var then true else (σ name).modifiable })
  | _ => .error (.redefined name)

def assign (σ : Store) (name : String) (a : Operand) : Except Fault Store := do
  match (σ name).binding with
  | .undef => throw (.uninitialized name)
  | .value _ => unless (σ name).modifiable do throw (.notModifiable name)
  | .defined => pure ()
  let v ← σ.resolve a
  if v.type = (σ name).type then
    return Function.update σ name { σ name with binding := .value v }
  else throw (.typeMismatch .assign (σ name).type v.type)

def settle (σ : Store) : Except (Located Fault) Store → Outcome
  | .ok σ' => (.finished, σ')
  | .error e => (.failed e, σ)

end Store

def Expr.eval (σ : Store) : Expr → Except (Located Fault) Operand
  | operand l => .ok l.operand
  | group _ e _ => e.eval σ
  | unary l e => do
    let a ← e.eval σ
    if l.kind = .addOp .minus then located l.row (σ.negate a) else return a
  | binary a l b => do
    let x ← a.eval σ
    let y ← b.eval σ
    match Operator.ofKind? l.kind with
    | some (.binary op) => located l.row (σ.combine op x y)
    | _ => return x

namespace Definition

def give (name sign : Lexeme) (value : Expr) (σ : Store) : Outcome :=
  σ.settle do
    let a ← value.eval σ
    located sign.row (σ.assign name.text a)

def run (σ : Store) : Definition → Outcome
  | declaration word name _ value =>
    let defined := σ.settle <|
      match word.kind with
      | .declaration declarator => located word.row (σ.define declarator name.text)
      | _ => .ok σ
    defined.andThen fun σ' => value.elim (.finished, σ') fun p => give name p.1 p.2 σ'
  | assignment name sign value => give name sign value σ

end Definition

/-- Jumps and labels have no meaning of their own. -/
def Simple.run (σ : Store) : Simple → Outcome
  | definition d => d.run σ
  | _ => (.finished, σ)

namespace Header

def init (σ : Store) : Header → Outcome
  | whileLoop .. => (.finished, σ)
  | forLoop _ init _ _ => init.run σ

def holds (σ : Store) : Header → Except (Located Fault) Bool
  | whileLoop word condition => do
    let a ← condition.eval σ
    located word.row (σ.holds a)
  | forLoop word init _ bound => do
    let n ← bound.eval σ
    located word.row do
      let below ← σ.combine .lt (.name init.name.text) n
      σ.holds below

def advance (row : Nat) : Header → Store → Outcome
  | whileLoop .., σ => (.finished, σ)
  | forLoop _ init _ _, σ =>
    σ.settle <| located row do
      let next ← σ.combine .add (.name init.name.text) (.value (.number 1))
      σ.assign init.name.text next

def rounds (h : Header) (row : Nat) (body : Store → Outcome) : Nat → Store → Outcome
  | 0, σ => (.running, σ)
  | n + 1, σ =>
    match h.holds σ with
    | .error e => (.failed e, σ)
    | .ok false => (.finished, σ)
    | .ok true => ((body σ).andThen (h.advance row)).andThen (h.rounds row body n)

end Header

namespace Block

def Unlabelled : Block → Prop
  | done => True
  | simple s rest => (∀ mark colon, s ≠ .label mark colon) ∧ rest.Unlabelled
  | loop _ _ body _ rest => body.Unlabelled ∧ rest.Unlabelled

def Structured : Block → Prop
  | done => True
  | simple s rest => (∃ d, s = .definition d) ∧ rest.Structured
  | loop _ _ body _ rest => body.Structured ∧ rest.Structured

/-- Runs statements one after the other; a loop that makes more than `fuel` rounds is still running
after them. -/
def run (fuel : Nat) : Block → Store → Outcome
  | done, σ => (.finished, σ)
  | simple s rest, σ => (s.run σ).andThen (rest.run fuel)
  | loop header _ body closing rest, σ =>
    ((header.init σ).andThen (header.rounds closing.row (body.run fuel) fuel)).andThen (rest.run fuel)

theorem Unlabelled.of_forall_ne {b : Block} (hp : b.Proper) (hc : ∀ l ∈ b.lexemes, l.kind ≠ .punct) :
    b.Unlabelled := by
  induction b with
  | done => trivial
  | simple s rest ih =>
    simp only [lexemes, List.forall_mem_append] at hc
    refine ⟨?_, ih hp.2.2.2 hc.2⟩
    rintro mark colon rfl
    exact hc.1 colon (by simp [Simple.lexemes]) hp.1.2
  | loop header opening body closing rest ihbody ihrest =>
    obtain ⟨-, -, -, hbody, -, -, -, hrest⟩ := hp
    simp only [lexemes, List.forall_mem_append, List.forall_mem_cons] at hc
    exact ⟨ihbody hbody hc.1.2.2.1, ihrest hrest hc.2⟩

theorem Structured.of_unlabelled {b : Block} (hp : b.Proper) (hj : ∀ l ∈ b.lexemes, l.kind ≠ .jump)
    (hu : b.Unlabelled) : b.Structured := by
  induction b with
  | done => trivial
  | simple s rest ih =>
    simp only [lexemes, List.forall_mem_append] at hj
    refine ⟨?_, ih hp.2.2.2 hj.2 hu.2⟩
    cases s with
    | definition d => exact ⟨d, rfl⟩
    | conditional word condition thenWord jump mark =>
      have hjump : jump.kind = .jump := hp.1.2.2.2.2.1
      exact absurd hjump (hj.1 jump (by simp [Simple.lexemes]))
    | goto word mark => exact absurd hp.1.1 (hj.1 word (by simp [Simple.lexemes]))
    | label mark colon => exact absurd rfl (hu.1 mark colon)
  | loop header opening body closing rest ihbody ihrest =>
    obtain ⟨-, -, -, hbody, -, -, -, hrest⟩ := hp
    simp only [lexemes, List.forall_mem_append, List.forall_mem_cons] at hj
    exact ⟨ihbody hbody hj.1.2.2.1 hu.1, ihrest hrest hj.2 hu.2⟩

end Block

end RowLang
