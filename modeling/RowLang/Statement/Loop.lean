import RowLang.Statement.Lowering

/-! Loops. The body is lowered first; then the header is read, and its code is put around that of
the body. -/

namespace RowLang.Trial

/-- `while condition`, as `top : condition exit if body top goto exit :`. -/
def whileLoop (header : List Lexeme) (body : Code) (endRow : Nat) : Trial := fun d =>
  let condition := header.drop 1
  if isCondition condition then
    let row := (header.head?.map Lexeme.row).getD 0
    let (d, top) := d.pushMark
    let (d, exit) := d.pushMark
    let d := (d.emit [.identifier row top, .op row .label]).emitExpr condition
    (d.emit ([.identifier row exit, .op row .branch] ++ body ++
      [.identifier endRow top, .op endRow .goto, .identifier endRow exit, .op endRow .label]), true)
  else (d.complain .whileConditionInvalid header, false)

def counter? (init : List Lexeme) : Option Lexeme :=
  match init with
  | first :: rest =>
    match first.kind with
    | .declaration _ => rest.head?
    | _ => some first
  | [] => none

/-- `for init to bound`, as
`init top : counter bound < exit if body counter counter 1 + = top goto exit :`. -/
def forLoop (header : List Lexeme) (body : Code) (endRow : Nat) : Trial := fun d =>
  if header.length < 4 then (d.complain .forHeaderMissing header, false)
  else match cutBefore? isArithmetic header with
    | none => (d.complain .boundInvalid header, false)
    | some cut =>
      if cut.pivot.kind = .loop .toWord then
        let init := cut.before.drop 1
        match firstOf [declaration init, assignment init] d with
        | (d, false) => (d.complain .counterInvalid header, false)
        | (d, true) =>
          match counter? init with
          | none => (d.complain .counterInvalid header, false)
          | some name =>
            match d.resolve name with
            | (d, none) => (d.complain .counterInvalid header, false)
            | (d, some counter) =>
              let row := (header.head?.map Lexeme.row).getD 0
              let (d, top) := d.pushMark
              let (d, exit) := d.pushMark
              let (d, one) := d.internValue (.number 1)
              let d := (d.emit [.identifier row top, .op row .label,
                .identifier row counter]).emitExpr cut.suffix
              (d.emit ([.op row (.binary .lt), .identifier row exit, .op row .branch] ++ body ++
                [.identifier endRow counter, .identifier endRow counter, .constant endRow one,
                  .op endRow (.binary .add), .op endRow .assign, .identifier endRow top, .op endRow .goto,
                  .identifier endRow exit, .op endRow .label]), true)
      else (d.complain .toMissing header, false)

def insideBody? : List Lexeme → Option (List Lexeme)
  | [] => none
  | first :: rest =>
    if first.kind = .loop .doWord ∧ rest.getLast?.map Lexeme.kind = some (.loop .endWord) then
      some rest.dropLast
    else none

def loopBody (statements : List Lexeme → Trial) (inside : List Lexeme) : Trial := fun d =>
  let (d', accepted) := statements inside { d with depth := d.depth + 1 }
  ({ d' with depth := d.depth }, accepted)

def seekBody (statements : List Lexeme → Trial) : List Cut → Draft → Draft × Option Cut
  | [], d => (d, none)
  | c :: cs, d =>
    match insideBody? c.suffix with
    | none => seekBody statements cs d
    | some inside =>
      match (loopBody statements inside).attempt d with
      | (d', true) => (d', some c)
      | (d', false) => seekBody statements cs d'

/-- `header do statements end`. Once a body is found, complaints about shorter ones are dropped. -/
def loop (statements : List Lexeme → Trial) (lexemes : List Lexeme) : Trial := fun d =>
  match lexemes.head?.map Lexeme.kind with
  | some (.loop word) =>
    if word = .forWord ∨ word = .whileWord then
      match seekBody statements (cuts lexemes) d with
      | (d', none) => (d'.complain .bodyMissing lexemes, false)
      | (d', some cut) =>
        let body := d'.code.drop d.code.length
        let header := cut.before ++ [cut.pivot]
        let endRow := (lexemes.getLast?.map Lexeme.row).getD 0
        let d' := { d' with
          code := d'.code.take d.code.length
          diagnostics := d.diagnostics }
        if word = .whileWord then whileLoop header body endRow d'
        else forLoop header body endRow d'
    else (d, false)
  | _ => (d, false)

end RowLang.Trial
