import RowLang.Lexeme.Basic
import RowLang.Table.Constants
import RowLang.Table.Identifiers

/-! Both tables of a program, and the linking of lexemes to their entries. -/

namespace RowLang

structure Tables where
  constants : Constants := {}
  identifiers : Identifiers := {}

namespace Tables

def internLexeme (t : Tables) (l : Lexeme) : Tables × Option Nat :=
  match l.kind with
  | .constant =>
    let (constants, index) := t.constants.internText l.text
    ({ t with constants }, index)
  | .identifier =>
    let (identifiers, index) := t.identifiers.intern l.text
    ({ t with identifiers }, some index)
  | _ => (t, none)

/-- Interns lexemes one after the other and links each to its entry. A lexeme without an entry
keeps the link it came with. -/
def link (t : Tables) : List Lexeme → Tables × List Lexeme
  | [] => (t, [])
  | l :: ls =>
    let (t', index) := t.internLexeme l
    let (t'', ls') := link t' ls
    (t'', { l with link := index.or l.link } :: ls')

end Tables
end RowLang
