import RowLang.Statement.Draft

/-! The code of statements without a body. -/

namespace RowLang

def inferType (identifiers : Identifiers) (initializer : List Lexeme) : ValueType :=
  if isString initializer then .string
  else if isIdentifier initializer then
    let entry := (initializer.head?.bind Lexeme.link).bind identifiers.get?
    (entry.map Identifier.type).getD .undef
  else if isBoolean initializer || initializer.any fun l => l.kind.isRelOp then .boolean
  else .number

namespace Draft

def lowerDeclaration (form : Declaration) (d : Draft) : Draft :=
  let type :=
    match form.typeWord with
    | some word => .ofWord word
    | none => inferType d.tables.identifiers form.initializer
  let d :=
    match d.resolve form.name with
    | (d, some index) => d.setType index type
    | (d, none) => d
  d.emitExpr (form.word :: form.name :: form.tail)

/-- `condition skip if mark goto skip :`, where `skip` is a generated mark. -/
def lowerConditional (form : Conditional) (d : Draft) : Draft :=
  match d.resolve form.mark with
  | (d, none) => d
  | (d, some target) =>
    let (d, skip) := d.pushMark
    (d.emitExpr form.condition).emit
      [.identifier form.word.row skip, .op form.word.row .branch,
        .identifier form.mark.row target, .op form.jump.row .goto,
        .identifier form.mark.row skip, .op form.mark.row .label]

def lowerGoto (form : Lexeme × Lexeme) (d : Draft) : Draft :=
  let (word, mark) := form
  match d.resolve mark with
  | (d, none) => d
  | (d, some target) => d.emit [.identifier mark.row target, .op word.row .goto]

def lowerLabel (form : Lexeme × Lexeme) (d : Draft) : Draft :=
  let (mark, colon) := form
  match d.resolve mark with
  | (d, none) => d
  | (d, some index) =>
    (d.setType index .mark).emit [.identifier mark.row index, .op colon.row .label]

end Draft

namespace Trial

def declaration (lexemes : List Lexeme) : Trial :=
  ofReading lexemes (Declaration.read lexemes) Draft.lowerDeclaration

def constantDefinition (lexemes : List Lexeme) : Trial := fun d =>
  if isConstantDefinition lexemes then (d.emitExpr lexemes, true) else (d, false)

def assignment (lexemes : List Lexeme) : Trial :=
  ofReading lexemes (readAssignment lexemes) fun _ d => d.emitExpr lexemes

def conditional (lexemes : List Lexeme) : Trial :=
  ofReading lexemes (Conditional.read lexemes) Draft.lowerConditional

def goto (lexemes : List Lexeme) : Trial :=
  ofReading lexemes (readGoto lexemes) Draft.lowerGoto

def label (lexemes : List Lexeme) : Trial :=
  ofReading lexemes (readLabel lexemes) Draft.lowerLabel

end Trial
end RowLang
