import Mathlib
import RowLang.Proofs.Statement.Tree
import RowLang.Proofs.Table.Identifiers
import RowLang.Statement.Parser

/-! The lowering of a tree, apart from the parser: its code, the marks it takes, and the types it gives
to names. Marks are numbered from the size of the table on, those of a body before the two of its
loop, and types are set in that order too: a body comes before its header. -/

namespace RowLang

def Item.records : Item → Code
  | .operator op row => [.op row op]
  | .operand l =>
    match l.link with
    | none => []
    | some index => [if l.isConstant then .constant l.row index else .identifier l.row index]

def recordsOf (items : List Item) : Code := items.flatMap Item.records

def Expr.code (e : Expr) : Code := recordsOf e.items

def Lexeme.onRow (l : Lexeme) (row : Nat) : Lexeme := { l with row }

inductive TypeSource where
  | known (type : ValueType)
  | copied (link : Option Nat)

namespace TypeSource

def type (identifiers : Identifiers) : TypeSource → ValueType
  | copied link => ((link.bind identifiers.get?).map Identifier.type).getD .undef
  | known type => type

def ofWord (word : Lexeme) : TypeSource :=
  match word.kind with
  | .type type => known (.ofWord type)
  | _ => copied none

def ofValue (value : List Lexeme) : TypeSource :=
  if isString value then known .string
  else if isIdentifier value then copied (value.head?.bind Lexeme.link)
  else if isBoolean value || value.any fun l => l.kind.isRelOp then known .boolean
  else known .number

end TypeSource

structure Typing where
  target : Lexeme
  source : TypeSource

namespace Identifiers

def applyTyping (t : Identifiers) (typing : Typing) : Identifiers :=
  match typing.target.link with
  | some index => t.setType index (typing.source.type t)
  | none => t

def typed (t : Identifiers) (typings : List Typing) : Identifiers := typings.foldl applyTyping t

end Identifiers

namespace Definition

def code (d : Definition) : Code := d.expr.code

def typings : Definition → List Typing
  | declaration _ name (some (_, word)) _ => [⟨name, .ofWord word⟩]
  | declaration _ name none value => [⟨name, .ofValue (value.elim [] fun p => p.2.lexemes)⟩]
  | assignment _ _ _ => []

end Definition

namespace Simple

def marks : Simple → Nat
  | conditional .. => 1
  | _ => 0

def code (next : Nat) : Simple → Code
  | definition d => d.code
  | conditional word condition _ jump mark =>
    condition.code ++ [.identifier word.row next, .op word.row .branch] ++
      recordsOf [.operand mark, .operator .goto jump.row] ++
      [.identifier mark.row next, .op mark.row .label]
  | goto word mark => recordsOf [.operand mark, .operator .goto word.row]
  | label mark colon => recordsOf [.operand mark, .operator .label colon.row]

def typings : Simple → List Typing
  | definition d => d.typings
  | label mark _ => [⟨mark, .known .mark⟩]
  | _ => []

end Simple

namespace Header

def counts : Header → Bool
  | whileLoop .. => false
  | forLoop .. => true

def typings : Header → List Typing
  | whileLoop .. => []
  | forLoop _ init _ _ => init.typings

def start : Header → Code
  | whileLoop .. => []
  | forLoop _ init _ _ => init.code

def test : Header → Code
  | whileLoop _ condition => condition.code
  | forLoop word init _ bound =>
    recordsOf [.operand (init.name.onRow word.row)] ++ bound.code ++ [.op word.row (.binary .lt)]

def next (one endRow : Nat) : Header → Code
  | whileLoop .. => []
  | forLoop _ init _ _ =>
    recordsOf [.operand (init.name.onRow endRow), .operand (init.name.onRow endRow)] ++
      [.constant endRow one, .op endRow (.binary .add), .op endRow .assign]

def enter (h : Header) (top exit : Nat) : Code :=
  h.start ++ [.identifier h.word.row top, .op h.word.row .label] ++ h.test ++
    [.identifier h.word.row exit, .op h.word.row .branch]

def leave (h : Header) (one top exit endRow : Nat) : Code :=
  h.next one endRow ++ [.identifier endRow top, .op endRow .goto,
    .identifier endRow exit, .op endRow .label]

end Header

namespace Block

def marks : Block → Nat
  | done => 0
  | simple s rest => s.marks + rest.marks
  | loop _ _ body _ rest => body.marks + 2 + rest.marks

def counts : Block → Bool
  | done => false
  | simple _ rest => rest.counts
  | loop header _ body _ rest => body.counts || header.counts || rest.counts

def typings : Block → List Typing
  | done => []
  | simple s rest => s.typings ++ rest.typings
  | loop header _ body _ rest => body.typings ++ header.typings ++ rest.typings

/-- The code of the statements, given the position of the constant `1` and that of the next mark. -/
def code (one : Nat) : Block → Nat → Code
  | done, _ => []
  | simple s rest, next => s.code next ++ rest.code one (next + s.marks)
  | loop header _ body closing rest, next =>
    let top := next + body.marks
    header.enter top (top + 1) ++ body.code one next ++
      header.leave one top (top + 1) closing.row ++ rest.code one (top + 2)

def lower (b : Block) (t : Tables) : Program where
  code := b.code (t.constants.intern (.number 1)).2 t.identifiers.size
  tables :=
    { constants := if b.counts then (t.constants.intern (.number 1)).1 else t.constants
      identifiers := (t.identifiers.typed b.typings).marked b.marks }

end Block

theorem inferType_eq (identifiers : Identifiers) (value : List Lexeme) :
    inferType identifiers value = (TypeSource.ofValue value).type identifiers := by
  unfold inferType TypeSource.ofValue
  split
  · rfl
  · split
    · rfl
    · split <;> rfl

namespace Identifiers
variable {t : Identifiers} {typing : Typing} {typings : List Typing} {n : Nat}

@[simp] theorem size_applyTyping : (t.applyTyping typing).size = t.size := by
  unfold applyTyping
  split <;> simp

@[simp] theorem size_typed : (t.typed typings).size = t.size := by
  induction typings generalizing t with
  | nil => rfl
  | cons typing typings ih => exact ih.trans size_applyTyping

theorem names_typed : (t.typed typings).names = t.names := by
  induction typings generalizing t with
  | nil => rfl
  | cons typing typings ih =>
    refine ih.trans ?_
    unfold applyTyping
    split
    · exact names_setType
    · rfl

theorem typed_append (typings typings' : List Typing) :
    t.typed (typings ++ typings') = (t.typed typings).typed typings' := List.foldl_append

theorem get?_applyTyping (t : Identifiers) (typing : Typing) (i : Nat) :
    (t.applyTyping typing).get? i = (t.get? i).map fun entry =>
      if typing.target.link = some i then { entry with type := typing.source.type t } else entry := by
  unfold applyTyping
  split
  · rename_i j hj
    simp only [get?_setType, hj, Option.some.injEq]
  · rename_i hj
    simp [hj]

theorem get?_typed_of_ne {i : Nat} (h : ∀ typing ∈ typings, typing.target.link ≠ some i) :
    (t.typed typings).get? i = t.get? i := by
  induction typings generalizing t with
  | nil => rfl
  | cons typing typings ih =>
    rw [typed, List.foldl_cons, ← typed, ih fun x hx => h x (List.mem_cons_of_mem typing hx),
      get?_applyTyping]
    simp [h typing List.mem_cons_self]

theorem get?_typed {i : Nat} {entry : Identifier} (h : t.get? i = some entry) (typings : List Typing) :
    ∃ type, (t.typed typings).get? i = some { entry with type } := by
  induction typings generalizing t entry with
  | nil => exact ⟨entry.type, h⟩
  | cons typing typings ih =>
    have hstep := get?_applyTyping t typing i
    rw [h, Option.map_some] at hstep
    split at hstep
    · obtain ⟨type, htype⟩ := ih hstep
      exact ⟨type, htype⟩
    · exact ih hstep

theorem get?_typed_last {i : Nat} {before after : List Typing} {entry : Identifier}
    (h : t.get? i = some entry) (ht : typing.target.link = some i)
    (ha : ∀ x ∈ after, x.target.link ≠ some i) :
    (t.typed (before ++ typing :: after)).get? i =
      some { entry with type := typing.source.type (t.typed before) } := by
  obtain ⟨type, hb⟩ := get?_typed h before
  rw [typed_append]
  change (((t.typed before).applyTyping typing).typed after).get? i = _
  rw [get?_typed_of_ne ha, get?_applyTyping, hb]
  simp [ht]

theorem NamesFit.typed (h : t.NamesFit) : (t.typed typings).NamesFit := by
  rw [NamesFit, names_typed]
  exact h

end Identifiers

def Typing.Below (n : Nat) (typing : Typing) : Prop :=
  (∀ i, typing.target.link = some i → i < n) ∧ ∀ i, typing.source = .copied (some i) → i < n

namespace Identifiers
variable {t : Identifiers} {typing : Typing} {typings : List Typing} {n : Nat}

theorem get?_marked {i : Nat} (h : i < t.size) : (t.marked n).get? i = t.get? i :=
  List.getElem?_append_left h

theorem setType_marked {i : Nat} {type : ValueType} (h : i < t.size) :
    (t.marked n).setType i type = (t.setType i type).marked n := by
  refine ext (List.ext_getElem? fun k => ?_)
  change ((t.marked n).setType i type).get? k = ((t.setType i type).marked n).get? k
  rw [get?_setType]
  by_cases hk : k < t.size
  · rw [get?_marked hk, get?_marked (by simpa using hk), get?_setType]
  · have hne : i ≠ k := by omega
    have hk' : ¬ k < (t.setType i type).size := by simpa using hk
    simp only [marked, get?, size] at hk hk' ⊢
    rw [List.getElem?_append_right (by omega), List.getElem?_append_right (by omega)]
    simp [hne, setType, modify, Function.comp_def]

theorem applyTyping_marked (h : typing.Below t.size) :
    (t.marked n).applyTyping typing = (t.applyTyping typing).marked n := by
  have hsource : typing.source.type (t.marked n) = typing.source.type t := by
    match hs : typing.source with
    | .known _ => rfl
    | .copied none => rfl
    | .copied (some i) => simp only [TypeSource.type, Option.bind_some, get?_marked (h.2 i hs)]
  unfold applyTyping
  split
  · rename_i i hi
    rw [setType_marked (h.1 i hi), hsource]
  · rfl

theorem typed_marked (h : ∀ typing ∈ typings, typing.Below t.size) :
    (t.marked n).typed typings = (t.typed typings).marked n := by
  induction typings generalizing t with
  | nil => rfl
  | cons typing typings ih =>
    change ((t.marked n).applyTyping typing).typed typings = _
    rw [applyTyping_marked (h typing List.mem_cons_self), ih]
    · rfl
    · intro x hx
      rw [size_applyTyping]
      exact h x (List.mem_cons_of_mem typing hx)

end Identifiers

namespace Block
variable {b : Block} {t : Tables} {i : Nat} {entry : Identifier}

theorem get?_lower_typed (hi : i < t.identifiers.size) :
    (b.lower t).tables.identifiers.get? i = (t.identifiers.typed b.typings).get? i := by
  rw [lower, Identifiers.get?_marked]
  rwa [Identifiers.size_typed]

theorem type_of_lastTyping {before after : List Typing} {typing : Typing}
    (he : (b.lower t).tables.identifiers.get? i = some entry) (hi : i < t.identifiers.size)
    (hsplit : b.typings = before ++ typing :: after) (hlink : typing.target.link = some i)
    (hafter : ∀ x ∈ after, x.target.link ≠ some i) :
    entry.type = typing.source.type (t.identifiers.typed before) := by
  obtain ⟨former, hformer⟩ : ∃ former, t.identifiers.get? i = some former :=
    ⟨_, List.getElem?_eq_getElem hi⟩
  rw [get?_lower_typed hi, hsplit, Identifiers.get?_typed_last hformer hlink hafter,
    Option.some.injEq] at he
  rw [← he]

end Block
end RowLang
