import RowLang.Value
import RowLang.Text.Columns

/-! The table of identifiers: names in the order in which they were first met, with their type,
what they are bound to, and whether they may be changed. -/

namespace RowLang

structure Identifier where
  name : String
  type : ValueType := .undef
  binding : Binding := .undef
  modifiable : Bool := false
  index : Nat

def Identifier.listing (i : Identifier) (index : Nat := i.index) : String :=
  Text.joinWith " "
    [Text.padRight 15 i.name, Text.padRight 8 i.type.heading, Text.padRight 10 i.binding.text,
      Text.padRight 6 (if i.modifiable then "true" else "false"), Nat.repr index]

structure Identifiers where
  entries : List Identifier := []

namespace Identifiers

def empty : Identifiers := {}

def size (t : Identifiers) : Nat := t.entries.length

def get? (t : Identifiers) (index : Nat) : Option Identifier := t.entries[index]?

def indexOf? (t : Identifiers) (name : String) : Option Nat :=
  t.entries.findIdx? fun i => i.name == name

def intern (t : Identifiers) (name : String) : Identifiers × Nat :=
  match t.indexOf? name with
  | some index => (t, index)
  | none => (⟨t.entries ++ [⟨name, .undef, .undef, false, t.size⟩]⟩, t.size)

def modify (t : Identifiers) (index : Nat) (f : Identifier → Identifier) : Identifiers :=
  ⟨t.entries.modify index f⟩

def setType (t : Identifiers) (index : Nat) (type : ValueType) : Identifiers :=
  t.modify index fun i => { i with type }

def setBinding (t : Identifiers) (index : Nat) (binding : Binding) : Identifiers :=
  t.modify index fun i => { i with binding }

def setModifiable (t : Identifiers) (index : Nat) (modifiable : Bool) : Identifiers :=
  t.modify index fun i => { i with modifiable }

/-- What the names of generated marks start with. No name of a source text does. -/
def markStem : String := "_m"

def pushMark (t : Identifiers) : Identifiers × Nat :=
  let (t', index) := t.intern (markStem ++ Nat.repr t.size)
  (t'.setType index .mark, index)

def truncate (t : Identifiers) (size : Nat) : Identifiers := ⟨t.entries.take size⟩

def marks (t : Identifiers) : List Nat :=
  (t.entries.filter fun i => markStem.toList.isPrefixOf i.name.toList).map Identifier.index

end Identifiers
end RowLang
