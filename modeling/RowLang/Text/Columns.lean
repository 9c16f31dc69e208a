/-! Columns of a listing. A field is filled up to its width, counted in characters, and a field
that is longer than its column is written whole. -/

namespace RowLang.Text

def padRight (width : Nat) (s : String) : String :=
  s ++ String.ofList (List.replicate (width - s.length) ' ')

def padLeft (fill : Char) (width : Nat) (s : String) : String :=
  String.ofList (List.replicate (width - s.length) fill) ++ s

def joinWith (separator : String) (texts : List String) : String :=
  separator.intercalate texts

end RowLang.Text
