import RowLang.Value
import RowLang.Text.Columns

/-! The table of constants: values in the order in which they were first met, each under the text
by which it was met. No text occurs twice. -/

namespace RowLang

structure Constant where
  text : String
  value : Literal
  index : Nat

def Constant.listing (c : Constant) (index : Nat := c.index) : String :=
  Text.joinWith " "
    [Text.padRight 15 c.text, Text.padRight 8 c.value.type.heading, Nat.repr index]

structure Constants where
  entries : List Constant := []

namespace Constants

def empty : Constants := {}

def size (t : Constants) : Nat := t.entries.length

def get? (t : Constants) (index : Nat) : Option Constant := t.entries[index]?

def indexOf? (t : Constants) (text : String) : Option Nat :=
  t.entries.findIdx? fun c => c.text == text

def insert (t : Constants) (text : String) (value : Literal) : Constants × Nat :=
  match t.indexOf? text with
  | some index => (t, index)
  | none => (⟨t.entries ++ [⟨text, value, t.size⟩]⟩, t.size)

def intern (t : Constants) (value : Literal) : Constants × Nat :=
  t.insert value.text value

def internText (t : Constants) (text : String) : Constants × Option Nat :=
  match t.indexOf? text with
  | some index => (t, some index)
  | none =>
    match Literal.read? text with
    | none => (t, none)
    | some value =>
      let (t', index) := t.insert text value
      (t', some index)

def truncate (t : Constants) (size : Nat) : Constants := ⟨t.entries.take size⟩

end Constants
end RowLang
