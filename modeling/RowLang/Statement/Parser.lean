import RowLang.Statement.Loop

/-! Programs from lexemes. Rows are taken as statements one by one; a row that is none is joined
with the rows after it until they make one together. -/

namespace RowLang

structure Program where
  code : Code
  tables : Tables

def rowRuns (lexemes : List Lexeme) : List (List Lexeme) :=
  lexemes.splitBy fun a b => a.row == b.row

namespace Trial

def statement (statements : List Lexeme → Trial) (lexemes : List Lexeme) : Trial :=
  firstOf [declaration lexemes, constantDefinition lexemes, assignment lexemes,
    loop statements lexemes, conditional lexemes, goto lexemes, label lexemes]

/-- Takes runs of rows as statements. What is pending is a list of lexemes that made no statement
so far, and the diagnostics from before it. The diagnostics of a statement are dropped once it is
accepted, and outside of loops every run starts without any. The result has the lexemes that never
made a statement. -/
def statementRuns (statement : List Lexeme → Trial) :
    List (List Lexeme) → Option (List Lexeme × List Diagnostic) → Draft →
      Draft × Option (List Lexeme)
  | [], pending, d => (d, pending.map Prod.fst)
  | run :: runs, pending, d =>
    let d := if d.depth = 0 then { d with diagnostics := [] } else d
    let (front, earlier) := pending.getD ([], d.diagnostics)
    match statement (front ++ run) d with
    | (d', true) => statementRuns statement runs none { d' with diagnostics := earlier }
    | (d', false) => statementRuns statement runs (some (front ++ run, earlier)) d'

def statementList (lexemes : List Lexeme) : Draft → Draft × Option (List Lexeme) := fun d =>
  if lexemes = [] then (d, some [])
  else
    let body (inner : List Lexeme) : Trial := fun d =>
      if inner.length < lexemes.length then
        let (d', pending) := statementList inner d
        (d', pending.isNone)
      else (d, false)
    statementRuns (statement body) (rowRuns lexemes) none d
termination_by lexemes.length

end Trial

/-- Parses lexemes over given tables. The diagnostic of a failure is the first of the most deeply
nested ones about the statement that is pending at the end. -/
def parse (lexemes : List Lexeme) (tables : Tables) : Except SyntaxError Program :=
  if lexemes = [] then .error ⟨none⟩
  else match Trial.statementList lexemes { tables } with
    | (d, none) => .ok ⟨d.code, d.tables⟩
    | (d, some pending) =>
      .error ⟨(Diagnostic.deepest? d.diagnostics).getD ⟨.statement, none, pending, 0⟩⟩

end RowLang
