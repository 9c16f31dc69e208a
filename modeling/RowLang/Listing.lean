import RowLang.Code.Basic

/-! Listings: a line of headings, then a line for each entry. -/

namespace RowLang.Listing

def lines (texts : List String) : String :=
  String.join (texts.map (· ++ "\n"))

def separator : String := "-----"

def lexemes (ls : List Lexeme) : String :=
  lines (Text.joinWith " "
    [Text.padRight 7 "ROW", Text.padRight 15 "TEXT", Text.padRight 15 "KIND", "INDEX"] ::
    ls.map Lexeme.listing)

def constants (t : Constants) : String :=
  lines (Text.joinWith " " [Text.padRight 15 "LITERAL", Text.padRight 8 "TYPE", "INDEX"] ::
    t.entries.map fun c => c.listing)

def identifiers (t : Identifiers) : String :=
  lines (Text.joinWith " "
    [Text.padRight 15 "NAME", Text.padRight 8 "TYPE", Text.padRight 10 "BINDING",
      Text.padRight 6 "MOD", "INDEX"] ::
    t.entries.map fun i => i.listing)

def tables (t : Tables) : String :=
  constants t.constants ++ lines [separator] ++ identifiers t.identifiers

def code (c : Code) (t : Tables) : String :=
  c.listing t "rpn"

end RowLang.Listing
