import Mathlib
import RowLang.Proofs.Expr.Ranges
import RowLang.Proofs.Statement.Growth

/-! The parser by positions. Statements are read by indices and slices of the lexemes, the code of a
body is split off at the length that the code had before it, and a rejected trial is rolled back to the
length that the journal had; positions that do not exist are errors. Whatever the lexemes and the tables
are, the parser makes none: what one function has accepted, and where a search has stopped, keeps the
positions of the next one within the list, and neither code nor journal falls below an earlier length. -/

namespace RowLang

abbrev RangedTrial := Draft → Except OutOfRange (Draft × Bool)

namespace Ranged

/-- Goes back to an earlier draft. The journal is cut at the length it had, counted from its oldest
entry, and the types that are cut off are restored, the last change first. -/
def rollback (d earlier : Draft) : Except OutOfRange Draft := do
  let changes ← slice d.journal.reverse earlier.journal.length d.journal.length
  let identifiers := changes.1.reverse.foldl (fun t change => t.setType change.1 change.2)
    (d.tables.identifiers.truncate earlier.tables.identifiers.size)
  pure { d with
    code := d.code.take earlier.code.length
    tables := { constants := d.tables.constants.truncate earlier.tables.constants.size, identifiers }
    journal := d.journal.drop (d.journal.length - earlier.journal.length) }

def attempt (trial : RangedTrial) : RangedTrial := fun d => do
  match ← trial d with
  | (d', true) => pure (d', true)
  | (d', false) =>
    let restored ← rollback d' d
    pure (restored, false)

def firstOf : List RangedTrial → RangedTrial
  | [], d => pure (d, false)
  | trial :: trials, d => do
    match ← attempt trial d with
    | (d', true) => pure (d', true)
    | (d', false) => firstOf trials d'

def ofReading {α : Type} (ls : List Lexeme) (reading : Except OutOfRange (Reading α))
    (lower : α → Draft → Except OutOfRange Draft) : RangedTrial := fun d => do
  match ← reading with
  | .other => pure (d, false)
  | .wrong cause => pure (d.complain cause ls, false)
  | .form value =>
    let lowered ← lower value d
    pure (lowered, true)

def splitTypeWord (ls : List Lexeme) :
    Except OutOfRange (Option (Option TypeWord × List Lexeme)) :=
  match ls[2]?.map Lexeme.kind with
  | some .punct =>
    match ls[3]?.map Lexeme.kind with
    | some (.type word) => do
      let tail ← slice ls 4 ls.length
      pure (some (some word, tail.1))
    | _ => pure none
  | _ => do
    let tail ← slice ls 2 ls.length
    pure (some (none, tail.1))

def tailCause (declarator : Declarator) (typeWord : Option TypeWord) :
    List Lexeme → Except OutOfRange (Option Cause)
  | [] => pure (Declaration.tailCause? declarator typeWord [])
  | sign :: initializer => do
    if sign.kind ≠ .assign then pure (some .assignMissing)
    else if ← isExpression initializer then pure none
    else pure (some .initializerInvalid)

def readDeclaration (ls : List Lexeme) : Except OutOfRange (Reading Declaration) :=
  match ls[0]? with
  | none => pure .other
  | some word =>
    match word.kind with
    | .declaration declarator =>
      match ls[1]? with
      | none => pure (.wrong .nameMissing)
      | some name => do
        if name.isIdentifier then
          match ← splitTypeWord ls with
          | none => pure (.wrong .typeMissing)
          | some (typeWord, tail) =>
            match ← tailCause declarator typeWord tail with
            | some cause => pure (.wrong cause)
            | none => pure (.form { word, name, typeWord, tail })
        else pure (.wrong .nameMissing)
    | _ => pure .other

def inferType (identifiers : Identifiers) (initializer : List Lexeme) :
    Except OutOfRange ValueType := do
  if isString initializer then pure .string
  else if isIdentifier initializer then
    let name ← get initializer 0
    pure (((name.1.link.bind identifiers.get?).map Identifier.type).getD .undef)
  else if isBoolean initializer || initializer.any fun l => l.kind.isRelOp then pure .boolean
  else pure .number

def lowerDeclaration (ls : List Lexeme) (form : Declaration) (d : Draft) :
    Except OutOfRange Draft := do
  let type ←
    match form.typeWord with
    | some word => pure (.ofWord word)
    | none => inferType d.tables.identifiers form.initializer
  let d :=
    match d.resolve form.name with
    | (d, some index) => d.setType index type
    | (d, none) => d
  let front ← slice ls 0 2
  pure (d.emitExpr (front.1 ++ form.tail))

def declaration (ls : List Lexeme) : RangedTrial :=
  ofReading ls (readDeclaration ls) (lowerDeclaration ls)

def readAssignment : List Lexeme → Except OutOfRange (Reading Lexeme)
  | name :: sign :: value => do
    if name.isIdentifier ∧ sign.kind = .assign then
      if ← isExpression value then pure (.form name) else pure (.wrong .expressionInvalid)
    else pure .other
  | _ => pure .other

def assignment (ls : List Lexeme) : RangedTrial :=
  ofReading ls (readAssignment ls) fun _ d => pure (d.emitExpr ls)

def readConditional (ls : List Lexeme) : Except OutOfRange (Reading Conditional) := do
  if ls.head?.map Lexeme.kind = some (.condition .ifWord) then
    match ls.reverse with
    | mark :: jump :: thenWord :: _ =>
      if ls.length < 5 ∨ thenWord.kind ≠ .condition .thenWord ∨ jump.kind ≠ .jump ∨
          ¬ mark.isIdentifier then pure (.wrong .jumpMissing)
      else
        let condition ← slice ls 1 (ls.length - 3)
        if ← isCondition condition.1 then
          let word ← get ls 0
          pure (.form { word := word.1, condition := condition.1, jump, mark })
        else pure (.wrong .conditionInvalid)
    | _ => pure (.wrong .jumpMissing)
  else pure .other

def conditional (ls : List Lexeme) : RangedTrial :=
  ofReading ls (readConditional ls) fun form d => pure (d.lowerConditional form)

def whileLoop (header : List Lexeme) (body : Code) (endRow : Nat) : RangedTrial := fun d => do
  let condition ← slice header 1 header.length
  if ← isCondition condition.1 then
    let first ← get header 0
    let row := first.1.row
    let (d, top) := d.pushMark
    let (d, exit) := d.pushMark
    let d := (d.emit [.identifier row top, .op row .label]).emitExpr condition.1
    pure (d.emit ([.identifier row exit, .op row .branch] ++ body ++
      [.identifier endRow top, .op endRow .goto, .identifier endRow exit, .op endRow .label]), true)
  else pure (d.complain .whileConditionInvalid header, false)

def counter (init : List Lexeme) : Except OutOfRange Lexeme := do
  match init.head?.map Lexeme.kind with
  | some (.declaration _) =>
    let name ← get init 1
    pure name.1
  | _ =>
    let name ← get init 0
    pure name.1

def forLoop (header : List Lexeme) (body : Code) (endRow : Nat) : RangedTrial := fun d => do
  if header.length < 4 then pure (d.complain .forHeaderMissing header, false)
  else
    match ← seek header (fun suffix => isArithmetic suffix.1) (header.length - 1) with
    | none => pure (d.complain .boundInvalid header, false)
    | some position =>
      let toWord ← get header position
      if toWord.1.kind = .loop .toWord then
        let init ← slice header 1 position
        let bound ← slice header (position + 1) header.length
        match ← firstOf [declaration init.1, assignment init.1] d with
        | (d, false) => pure (d.complain .counterInvalid header, false)
        | (d, true) =>
          let name ← counter init.1
          match d.resolve name with
          | (d, none) => pure (d.complain .counterInvalid header, false)
          | (d, some index) =>
            let first ← get header 0
            let row := first.1.row
            let (d, top) := d.pushMark
            let (d, exit) := d.pushMark
            let (d, one) := d.internValue (.number 1)
            let d := (d.emit [.identifier row top, .op row .label,
              .identifier row index]).emitExpr bound.1
            pure (d.emit ([.op row (.binary .lt), .identifier row exit, .op row .branch] ++ body ++
              [.identifier endRow index, .identifier endRow index, .constant endRow one,
                .op endRow (.binary .add), .op endRow .assign, .identifier endRow top,
                .op endRow .goto, .identifier endRow exit, .op endRow .label]), true)
      else pure (d.complain .toMissing header, false)

def loopStatements (statements : List Lexeme → RangedTrial) (ls : List Lexeme) : RangedTrial :=
  fun d =>
    match Trial.insideBody? ls with
    | none => pure (d, false)
    | some inside => do
      let (d', accepted) ← statements inside { d with depth := d.depth + 1 }
      pure ({ d' with depth := d.depth }, accepted)

def seekBody (statements : List Lexeme → RangedTrial) (ls : List Lexeme) :
    Nat → Draft → Except OutOfRange (Draft × Option Nat)
  | 0, d => pure (d, none)
  | start + 1, d => do
    let suffix ← slice ls (start + 1) ls.length
    match ← attempt (loopStatements statements suffix.1) d with
    | (d', true) => pure (d', some start)
    | (d', false) => seekBody statements ls start d'

def splitOff (code : Code) (position : Nat) : Except OutOfRange (Code × Code) :=
  match code.splitAt? position with
  | some parts => pure parts
  | none => .error (.range position code.length code.length)

def loop (statements : List Lexeme → RangedTrial) (ls : List Lexeme) : RangedTrial := fun d => do
  match ls.head?.map Lexeme.kind with
  | some (.loop word) =>
    if word = .forWord ∨ word = .whileWord then
      match ← seekBody statements ls (ls.length - 1) d with
      | (d', none) => pure (d'.complain .bodyMissing ls, false)
      | (d', some headerEnd) =>
        let (code, body) ← splitOff d'.code d.code.length
        let header ← slice ls 0 (headerEnd + 1)
        let last ← get ls (ls.length - 1)
        let d' := { d' with code, diagnostics := d.diagnostics }
        if word = .whileWord then whileLoop header.1 body last.1.row d'
        else forLoop header.1 body last.1.row d'
    else pure (d, false)
  | _ => pure (d, false)

def statement (statements : List Lexeme → RangedTrial) (ls : List Lexeme) : RangedTrial :=
  firstOf [declaration ls, fun d => pure (Trial.constantDefinition ls d), assignment ls,
    loop statements ls, conditional ls, fun d => pure (Trial.goto ls d),
    fun d => pure (Trial.label ls d)]

/-- The places of the maximal runs of lexemes on the same row: those so far, the last first, and those
of the lexemes from a position on. A lexeme is compared with the first one of the last run. -/
def rowGroupsFrom (ls : List Lexeme) : List (Nat × Nat) → Nat → List Lexeme →
    Except OutOfRange (List (Nat × Nat))
  | groups, _, [] => pure groups.reverse
  | [], index, _ :: rest => rowGroupsFrom ls [(index, index + 1)] (index + 1) rest
  | (start, stop) :: groups, index, l :: rest => do
    let first ← get ls start
    if first.1.row = l.row then rowGroupsFrom ls ((start, index + 1) :: groups) (index + 1) rest
    else rowGroupsFrom ls ((index, index + 1) :: (start, stop) :: groups) (index + 1) rest

def rowGroups (ls : List Lexeme) : Except OutOfRange (List (Nat × Nat)) :=
  rowGroupsFrom ls [] 0 ls

/-- Takes groups of rows as statements. What is pending is the position where lexemes begin that made no
statement so far, and the diagnostics from before them. -/
def statementGroups (statement : List Lexeme → RangedTrial) (ls : List Lexeme) :
    List (Nat × Nat) → Option (Nat × List Diagnostic) → Draft →
      Except OutOfRange (Draft × Option (List Lexeme))
  | [], none, d => pure (d, none)
  | [], some (start, _), d => do
    let pending ← slice ls start ls.length
    pure (d, some pending.1)
  | (first, stop) :: groups, pending, d => do
    let d := if d.depth = 0 then { d with diagnostics := [] } else d
    let (start, earlier) := pending.getD (first, d.diagnostics)
    let candidate ← slice ls start stop
    match ← statement candidate.1 d with
    | (d', true) => statementGroups statement ls groups none { d' with diagnostics := earlier }
    | (d', false) => statementGroups statement ls groups (some (start, earlier)) d'

def statementList (ls : List Lexeme) : Draft → Except OutOfRange (Draft × Option (List Lexeme)) :=
  fun d => do
    if ls = [] then pure (d, some [])
    else
      let body (inner : List Lexeme) : RangedTrial := fun d =>
        if inner.length < ls.length then do
          let (d', pending) ← statementList inner d
          pure (d', pending.isNone)
        else pure (d, false)
      let groups ← rowGroups ls
      statementGroups (statement body) ls groups none d
termination_by ls.length

def parse (lexemes : List Lexeme) (tables : Tables) :
    Except OutOfRange (Except SyntaxError Program) := do
  if lexemes = [] then pure (.error ⟨none⟩)
  else
    match ← statementList lexemes { tables } with
    | (d, none) => pure (.ok ⟨d.code, d.tables⟩)
    | (d, some pending) =>
      pure (.error ⟨(Diagnostic.deepest? d.diagnostics).getD ⟨.statement, none, pending, 0⟩⟩)

open Draft

def Kept (d d' : Draft) : Prop :=
  d.code.length ≤ d'.code.length ∧ d.journal.length ≤ d'.journal.length

theorem progress_kept : Progress (fun _ => True) Kept where
  refl _ := ⟨le_rfl, le_rfl⟩
  trans h h' := ⟨h.1.trans h'.1, h.2.trans h'.2⟩
  emit d records := ⟨by simp [Draft.emit], le_rfl⟩
  resolve d l _ := by
    unfold Draft.resolve
    split <;> exact ⟨le_rfl, le_rfl⟩
  setType d index type := by
    unfold Draft.setType
    split
    · exact ⟨le_rfl, le_rfl⟩
    · exact ⟨le_rfl, by simp⟩
  pushMark d := ⟨le_rfl, le_rfl⟩
  internValue d v := ⟨le_rfl, le_rfl⟩
  diagnostics d ds := ⟨le_rfl, le_rfl⟩
  nested h := h
  withdrawn h := ⟨by simp [h.1], h.2⟩
  rollback h := by
    simp only [Kept, Draft.rollback, List.length_take, List.length_drop]
    exact ⟨le_min le_rfl h.1, by have := h.2; omega⟩

section
variable {trial : RangedTrial} {trial' : Trial} {d earlier : Draft}

theorem rollback_eq_ok (h : earlier.journal.length ≤ d.journal.length) :
    rollback d earlier = .ok (d.rollback earlier) := by
  have hslice : slice d.journal.reverse earlier.journal.length d.journal.length = _ :=
    slice_eq_ok (d.journal.drop (d.journal.length - earlier.journal.length)).reverse
      (d.journal.take (d.journal.length - earlier.journal.length)).reverse []
      (by rw [List.append_nil, ← List.reverse_append, List.take_append_drop]) (by simp; omega)
      (by simp; omega)
  rw [rollback, hslice, ok_bind, List.reverse_reverse]
  rfl

theorem attempt_eq_ok (h : ∀ d, trial d = .ok (trial' d)) (hk : trial'.Follows Kept) (d : Draft) :
    attempt trial d = .ok (trial'.attempt d) := by
  have hkept := (hk d).2
  rw [attempt, h, ok_bind, Trial.attempt]
  cases hd : trial' d with
  | mk d' accepted =>
    rw [hd] at hkept
    cases accepted with
    | true => rfl
    | false =>
      simp only [rollback_eq_ok hkept, ok_bind]
      rfl

theorem firstOf_eq_ok {trials : List RangedTrial} {trials' : List Trial}
    (h : List.Forall₂ (fun trial trial' => (∀ d, trial d = .ok (trial' d)) ∧ trial'.Follows Kept)
      trials trials') (d : Draft) : firstOf trials d = .ok (Trial.firstOf trials' d) := by
  induction h generalizing d with
  | nil => rfl
  | @cons trial trial' trials trials' hhead htail ih =>
    rw [firstOf, attempt_eq_ok hhead.1 hhead.2, ok_bind, Trial.firstOf]
    cases trial'.attempt d with
    | mk d' accepted =>
      cases accepted with
      | true => rfl
      | false => exact ih d'

theorem ofReading_eq_ok {α : Type} {ls : List Lexeme} {reading : Except OutOfRange (Reading α)}
    {reading' : Reading α} {lower : α → Draft → Except OutOfRange Draft}
    {lower' : α → Draft → Draft} (hr : reading = .ok reading')
    (hl : ∀ value, reading' = .form value → ∀ d, lower value d = .ok (lower' value d)) (d : Draft) :
    ofReading ls reading lower d = .ok (Trial.ofReading ls reading' lower' d) := by
  rw [ofReading, hr, ok_bind]
  cases reading' with
  | other => rfl
  | wrong cause => rfl
  | form value =>
    simp only [hl value rfl, ok_bind]
    rfl

end

theorem splitTypeWord_eq_ok (word name : Lexeme) (rest : List Lexeme) :
    splitTypeWord (word :: name :: rest) = .ok (Declaration.splitTypeWord? rest) := by
  cases rest with
  | nil => rfl
  | cons colon rest =>
    have htwo : (word :: name :: colon :: rest)[2]?.map Lexeme.kind = some colon.kind := rfl
    by_cases hcolon : colon.kind = .punct
    · cases rest with
      | nil => simp [splitTypeWord, Declaration.splitTypeWord?, hcolon, pure_eq_ok]
      | cons t tail =>
        have hthree : (word :: name :: colon :: t :: tail)[3]?.map Lexeme.kind = some t.kind := rfl
        have htail : slice (word :: name :: colon :: t :: tail) 4 _ = _ := slice_drop (by simp)
        simp only [splitTypeWord, htwo, hthree, hcolon, htail, ok_bind, Declaration.splitTypeWord?,
          if_true]
        cases t.kind <;> rfl
    · have htail : slice (word :: name :: colon :: rest) 2 _ = _ := slice_drop (by simp)
      simp only [splitTypeWord, htwo, htail, ok_bind, Declaration.splitTypeWord?, if_neg hcolon]
      cases hk : colon.kind <;> first | rfl | exact absurd hk hcolon

theorem tailCause_eq_ok (declarator : Declarator) (typeWord : Option TypeWord)
    (tail : List Lexeme) :
    tailCause declarator typeWord tail = .ok (Declaration.tailCause? declarator typeWord tail) := by
  cases tail with
  | nil => rfl
  | cons sign initializer =>
    rw [tailCause, isExpression_eq_ok, ok_bind, Declaration.tailCause?]
    by_cases hs : sign.kind = .assign
    · rw [if_neg (not_not.2 hs), if_neg (not_not.2 hs)]
      cases RowLang.isExpression initializer <;> rfl
    · rw [if_pos hs, if_pos hs, pure_eq_ok]

theorem readDeclaration_eq_ok (ls : List Lexeme) :
    readDeclaration ls = .ok (Declaration.read ls) := by
  cases ls with
  | nil => rfl
  | cons word rest =>
    cases rest with
    | nil =>
      have hone : [word][1]? = none := rfl
      simp only [readDeclaration, List.getElem?_cons_zero, hone, Declaration.read]
      cases word.kind <;> rfl
    | cons name rest =>
      have hone : (word :: name :: rest)[1]? = some name := rfl
      simp only [readDeclaration, List.getElem?_cons_zero, hone, Declaration.read,
        splitTypeWord_eq_ok, tailCause_eq_ok, ok_bind]
      cases word.kind with
      | declaration declarator =>
        cases name.isIdentifier with
        | false => rfl
        | true =>
          simp only [if_true]
          cases Declaration.splitTypeWord? rest with
          | none => rfl
          | some parts =>
            simp only
            cases Declaration.tailCause? declarator parts.1 parts.2 <;> rfl
      | _ => rfl

theorem inferType_eq_ok (identifiers : Identifiers) (initializer : List Lexeme) :
    inferType identifiers initializer = .ok (RowLang.inferType identifiers initializer) := by
  rw [inferType, RowLang.inferType]
  by_cases hs : isString initializer
  · rw [if_pos hs, if_pos hs, pure_eq_ok]
  · rw [if_neg hs, if_neg hs]
    by_cases hi : isIdentifier initializer
    · obtain ⟨l, rfl⟩ : ∃ l, initializer = [l] := by
        cases initializer with
        | nil => simp [isIdentifier] at hi
        | cons l rest =>
          cases rest with
          | nil => exact ⟨l, rfl⟩
          | cons => simp [isIdentifier] at hi
      rw [if_pos hi, if_pos hi, get_eq_ok rfl, ok_bind]
      rfl
    · rw [if_neg hi, if_neg hi]
      split <;> rfl

theorem declaration_eq_ok (ls : List Lexeme) (d : Draft) :
    declaration ls d = .ok (Trial.declaration ls d) := by
  refine ofReading_eq_ok (readDeclaration_eq_ok ls) (fun form hf d => ?_) d
  obtain ⟨_, rest, -, -, rfl, -, -⟩ := Trial.read_eq_form_iff.1 hf
  have hfront : slice (form.word :: form.name :: rest) 0 2 = _ :=
    slice_eq_ok [] [form.word, form.name] rest rfl rfl rfl
  cases ht : form.typeWord <;>
    simp only [lowerDeclaration, Draft.lowerDeclaration, ht, inferType_eq_ok, pure_eq_ok, ok_bind,
      hfront] <;> rfl

theorem assignment_eq_ok (ls : List Lexeme) (d : Draft) :
    assignment ls d = .ok (Trial.assignment ls d) := by
  refine ofReading_eq_ok ?_ (fun _ _ _ => rfl) d
  rcases ls with _ | ⟨name, _ | ⟨sign, value⟩⟩
  · rfl
  · rfl
  · rw [readAssignment, isExpression_eq_ok, ok_bind, RowLang.readAssignment]
    split
    · cases RowLang.isExpression value <;> rfl
    · rfl

theorem readConditional_eq_ok (ls : List Lexeme) :
    readConditional ls = .ok (Conditional.read ls) := by
  cases ls with
  | nil => rfl
  | cons word rest =>
    by_cases hword : word.kind = .condition .ifWord
    · obtain ⟨back, rfl⟩ : ∃ back : List Lexeme, rest = back.reverse := ⟨rest.reverse, by simp⟩
      have hhead : (word :: back.reverse).head?.map Lexeme.kind = some (.condition .ifWord) :=
        congrArg some hword
      have hback : (word :: back.reverse).reverse = back ++ [word] := by simp
      simp only [readConditional, if_pos hhead, hback, Conditional.read, if_pos hword,
        List.reverse_reverse]
      -- the last three lexemes are taken first, so what is left for the condition may be empty
      rcases back with _ | ⟨mark, _ | ⟨jump, _ | ⟨thenWord, _ | ⟨last, front⟩⟩⟩⟩
      · rfl
      · rfl
      · rfl
      · rfl
      · have hslice : slice (word :: (mark :: jump :: thenWord :: last :: front).reverse) 1
            ((word :: (mark :: jump :: thenWord :: last :: front).reverse).length - 3) = _ :=
          slice_eq_ok [word] (last :: front).reverse [thenWord, jump, mark] (by simp) rfl (by simp)
        have hfirst : get (word :: (mark :: jump :: thenWord :: last :: front).reverse) 0 = _ :=
          get_eq_ok rfl
        simp only [List.cons_append, hslice, hfirst, ok_bind, isCondition_eq_ok]
        by_cases hform : thenWord.kind = .condition .thenWord ∧ jump.kind = .jump ∧ mark.isIdentifier
        · rw [if_neg (by simp [hform]), if_pos hform]
          cases RowLang.isCondition (last :: front).reverse <;> rfl
        · rw [if_pos (by tauto), if_neg hform, pure_eq_ok]
    · simp [readConditional, Conditional.read, hword, pure_eq_ok]

theorem conditional_eq_ok (ls : List Lexeme) (d : Draft) :
    conditional ls d = .ok (Trial.conditional ls d) :=
  ofReading_eq_ok (readConditional_eq_ok ls) (fun _ _ _ => rfl) d

theorem init_eq_ok (init : List Lexeme) (d : Draft) :
    firstOf [declaration init, assignment init] d =
      .ok (Trial.firstOf [Trial.declaration init, Trial.assignment init] d) :=
  firstOf_eq_ok (.cons ⟨declaration_eq_ok init, Trial.follows_declaration progress_kept (by simp)⟩
    (.cons ⟨assignment_eq_ok init, Trial.follows_assignment progress_kept (by simp)⟩ .nil)) d

theorem counter_eq_ok {init : List Lexeme} {name : Lexeme} (h : Trial.counter? init = some name) :
    counter init = .ok name := by
  cases init with
  | nil => simp [Trial.counter?] at h
  | cons first rest =>
    have hhead : (first :: rest).head?.map Lexeme.kind = some first.kind := rfl
    rw [counter, hhead]
    rw [Trial.counter?] at h
    split at h
    · rename_i hk
      have hone : (first :: rest)[1]? = some name := List.head?_eq_getElem? ▸ h
      rw [hk, get_eq_ok hone]
      rfl
    · rename_i hk
      cases h
      split
      · rename_i hk'
        exact absurd (Option.some.inj hk') (hk _)
      · rw [get_eq_ok rfl]
        rfl

section
variable {first : Lexeme} {rest : List Lexeme} {body : Code} {endRow : Nat}

theorem whileLoop_eq_ok (d : Draft) :
    whileLoop (first :: rest) body endRow d = .ok (Trial.whileLoop (first :: rest) body endRow d) := by
  have hslice : slice (first :: rest) 1 _ = _ := slice_drop (by simp)
  have hfirst : get (first :: rest) 0 = _ := get_eq_ok rfl
  simp only [whileLoop, hslice, hfirst, ok_bind, isCondition_eq_ok, Trial.whileLoop,
    List.drop_succ_cons, List.drop_zero]
  cases RowLang.isCondition rest <;> rfl

theorem forLoop_eq_ok (hf : first.kind ≠ .loop .toWord) (d : Draft) :
    forLoop (first :: rest) body endRow d = .ok (Trial.forLoop (first :: rest) body endRow d) := by
  rw [forLoop, Trial.forLoop]
  by_cases hlen : (first :: rest).length < 4
  · rw [if_pos hlen, if_pos hlen, pure_eq_ok]
  · rw [if_neg hlen, if_neg hlen,
      seek_eq_cutBefore? fun suffix => (recognizers_eq_ok suffix.1).2.2, ok_bind]
    cases hcut : cutBefore? RowLang.isArithmetic (first :: rest) with
    | none => rfl
    | some c =>
      have hmem := (mem_cuts_of_cutBefore? hcut).1
      simp only [Option.map_some, get_eq_ok (getElem?_position hmem), ok_bind]
      by_cases hto : c.pivot.kind = .loop .toWord
      · obtain ⟨init, hbefore⟩ : ∃ init, c.before = first :: init := by
          -- the first lexeme is another word, so `to` does not stand at position 0
          rcases List.append_eq_cons_iff.1 (append_of_mem_cuts hmem) with ⟨-, hpivot⟩ | ⟨init, hinit, -⟩
          · exact absurd ((List.cons.inj hpivot).1 ▸ hto) hf
          · exact ⟨init, hinit⟩
        have hinit : slice (first :: rest) 1 c.position = _ :=
          slice_eq_ok [first] init (c.pivot :: c.suffix)
            (by rw [← append_of_mem_cuts hmem, hbefore]; rfl) rfl
            (by rw [← (length_parts hmem).1, hbefore]; rfl)
        have hfirst : get (first :: rest) 0 = _ := get_eq_ok rfl
        have haccepts := Trial.decides_init init d
        simp only [if_pos hto, hinit, slice_suffix hmem, hfirst, ok_bind, init_eq_ok, hbefore,
          List.drop_succ_cons, List.drop_zero]
        cases hd : Trial.firstOf [Trial.declaration init, Trial.assignment init] d with
        | mk d' accepted =>
          cases accepted with
          | false => rfl
          | true =>
            obtain ⟨name, -, hname, -⟩ := Trial.exists_counter? (haccepts.1 (congrArg Prod.snd hd))
            simp only [counter_eq_ok hname, hname, ok_bind]
            cases d'.resolve name with
            | mk d'' index => cases index <;> rfl
      · rw [if_neg hto, if_neg hto, pure_eq_ok]

/-- Were `to` the first lexeme, the definition of the counter would begin behind its end. -/
theorem forLoop_eq_error (hf : first.kind = .loop .toWord) (hb : RowLang.isFactor rest)
    (hlen : 3 ≤ rest.length) (d : Draft) :
    forLoop (first :: rest) body endRow d = .error (.range 1 0 (rest.length + 1)) := by
  have hcut : cutBefore? RowLang.isArithmetic (first :: rest) = some ⟨[], first, rest⟩ :=
    cutBefore?_isArithmetic [] first hb
  have hget : get (first :: rest) 0 = _ := get_eq_ok rfl
  have hslice : slice (first :: rest) 1 0 = .error (.range 1 0 (rest.length + 1)) := by
    rw [slice, dif_neg (by simp), List.length_cons]
  rw [forLoop, if_neg (by simp; omega), seek_eq_cutBefore? fun suffix =>
    (recognizers_eq_ok suffix.1).2.2, ok_bind, hcut]
  simp only [Option.map_some, Cut.position, List.length_nil, hget, ok_bind, if_pos hf, hslice]
  rfl

end

theorem splitOff_eq_ok {code : Code} {n : Nat} (h : n ≤ code.length) :
    splitOff code n = .ok (code.take n, code.drop n) := by
  rw [splitOff, Code.splitAt?, if_pos h]
  rfl

section
variable {statements : List Lexeme → RangedTrial} {statements' : List Lexeme → Trial}
  (hs : ∀ inside d, statements inside d = .ok (statements' inside d))
  (hk : ∀ inside, (statements' inside).Follows Kept)
include hs hk

theorem loopStatements_eq_ok {ls inside : List Lexeme} (hi : Trial.insideBody? ls = some inside)
    (d : Draft) : attempt (loopStatements statements ls) d =
      .ok ((Trial.loopBody statements' inside).attempt d) := by
  refine attempt_eq_ok (fun d => ?_) (Trial.follows_loopBody progress_kept (hk inside)) d
  simp only [loopStatements, hi, hs, ok_bind]
  rfl

theorem seekBody_eq_ok {ls : List Lexeme} {n : Nat} (hn : n ≤ ls.length) (d : Draft) :
    seekBody statements ls n d = .ok (Prod.map id (Option.map Cut.position)
      (Trial.seekBody statements' (cutsFrom (ls.take n).reverse (ls.drop n)) d)) := by
  induction n generalizing d with
  | zero => simp [seekBody, cutsFrom, Trial.seekBody, pure_eq_ok]
  | succ n ih =>
    rw [seekBody, slice_drop hn, ok_bind, cutsFrom_take_succ hn, Trial.seekBody]
    cases hi : Trial.insideBody? (ls.drop (n + 1)) with
    | none =>
      -- the draft is rolled back to itself
      have hrejected : attempt (loopStatements statements (ls.drop (n + 1))) d = .ok (d, false) := by
        simp only [attempt, loopStatements, hi, pure_eq_ok, ok_bind, rollback_eq_ok le_rfl,
          rollback_self]
      simp only [hrejected, ok_bind]
      exact ih (Nat.le_of_succ_le hn) d
    | some inside =>
      simp only [loopStatements_eq_ok hs hk hi, ok_bind]
      cases (Trial.loopBody statements' inside).attempt d with
      | mk d' accepted =>
        cases accepted with
        | true => simp [pure_eq_ok, Cut.position, Nat.le_of_succ_le hn]
        | false => exact ih (Nat.le_of_succ_le hn) d'

theorem loop_eq_ok (ls : List Lexeme) (d : Draft) :
    loop statements ls d = .ok (Trial.loop statements' ls d) := by
  cases ls with
  | nil => rfl
  | cons first rest =>
    have hhead : (first :: rest).head?.map Lexeme.kind = some first.kind := rfl
    simp only [loop, Trial.loop, hhead]
    cases hfirst : first.kind with
    | loop word =>
      by_cases hword : word = .forWord ∨ word = .whileWord
      · simp only [if_pos hword, seekBody_eq_ok hs hk (Nat.sub_le ..), ok_bind, ← cuts_eq_cutsFrom]
        have hkept : Kept d (Trial.seekBody statements' (cuts (first :: rest)) d).1 :=
          Trial.follows_seekBody progress_kept (fun _ _ inside _ => hk inside) d
        cases hd : Trial.seekBody statements' (cuts (first :: rest)) d with
        | mk d' found =>
          rw [hd] at hkept
          cases found with
          | none => rfl
          | some c =>
            have hmem : c ∈ cuts (first :: rest) := Trial.mem_of_seekBody (congrArg Prod.snd hd)
            obtain ⟨header, hheader⟩ : ∃ header, c.before ++ [c.pivot] = first :: header := by
              have happ : c.before ++ [c.pivot] ++ c.suffix = first :: rest := by
                simp [append_of_mem_cuts hmem]
              rcases List.append_eq_cons_iff.1 happ with ⟨hnil, -⟩ | ⟨header, hheader, -⟩
              · simp at hnil
              · exact ⟨header, hheader⟩
            obtain ⟨last, hlast⟩ : ∃ last, (first :: rest).getLast? = some last :=
              ⟨_, List.getLast?_cons⟩
            have hget : get (first :: rest) ((first :: rest).length - 1) = _ :=
              get_eq_ok (List.getLast?_eq_getElem? ▸ hlast)
            simp only [Prod.map, id, Option.map_some, splitOff_eq_ok hkept.1, slice_through hmem,
              hget, ok_bind, hheader, hlast, Option.getD_some]
            rcases hword with rfl | rfl
            · exact forLoop_eq_ok (by simp [hfirst]) _
            · exact whileLoop_eq_ok _
      · simp only [if_neg hword, pure_eq_ok]
    | _ => rfl

theorem statement_eq_ok (ls : List Lexeme) (d : Draft) :
    statement statements ls d = .ok (Trial.statement statements' ls d) := by
  have hp : ∀ l ∈ ls, True := by simp
  refine firstOf_eq_ok ?_ d
  refine .cons ⟨declaration_eq_ok ls, Trial.follows_declaration progress_kept hp⟩ ?_
  refine .cons ⟨fun _ => rfl, Trial.follows_constantDefinition progress_kept hp⟩ ?_
  refine .cons ⟨assignment_eq_ok ls, Trial.follows_assignment progress_kept hp⟩ ?_
  refine .cons ⟨loop_eq_ok hs hk ls, Trial.follows_loop progress_kept (fun inside _ => hk inside) hp⟩ ?_
  refine .cons ⟨conditional_eq_ok ls, Trial.follows_conditional progress_kept hp⟩ ?_
  refine .cons ⟨fun _ => rfl, Trial.follows_goto progress_kept hp⟩ ?_
  exact .cons ⟨fun _ => rfl, Trial.follows_label progress_kept hp⟩ .nil

end

def spans : Nat → List (List Lexeme) → List (Nat × Nat)
  | _, [] => []
  | start, run :: runs => (start, start + run.length) :: spans (start + run.length) runs

theorem spans_append (start : Nat) (runs runs' : List (List Lexeme)) :
    spans start (runs ++ runs') = spans start runs ++ spans (start + runs.flatten.length) runs' := by
  induction runs generalizing start with
  | nil => rfl
  | cons run runs ih => simp [spans, ih, Nat.add_assoc]

/-- The invariant of the grouping: the last run is `g.reverse ++ [b]`, all on one row, and `gs` are the
runs before it. -/
theorem rowGroupsFrom_eq_ok {ls rest : List Lexeme} (g : List Lexeme) (b : Lexeme)
    (gs : List (List Lexeme))
    (hls : gs.reverse.flatten ++ (g.reverse ++ b :: rest) = ls) (hg : ∀ l ∈ g, l.row = b.row) :
    rowGroupsFrom ls ((gs.reverse.flatten.length, gs.reverse.flatten.length + (b :: g).length) ::
          (spans 0 gs.reverse).reverse) (gs.reverse.flatten.length + (b :: g).length) rest =
      .ok (spans 0 (List.splitBy.loop (fun a b => a.row == b.row) rest b g gs)) := by
  induction rest generalizing b g gs with
  | nil => simp [rowGroupsFrom, List.splitBy.loop, spans_append, spans, pure_eq_ok]
  | cons c rest ih =>
    obtain ⟨first, hfirst, hrow⟩ : ∃ first, ls[gs.reverse.flatten.length]? = some first ∧
        first.row = b.row := by
      rw [← hls, List.getElem?_append_right le_rfl, Nat.sub_self]
      cases hg' : g.reverse with
      | nil => exact ⟨b, rfl, rfl⟩
      | cons x xs => exact ⟨x, rfl, hg x (List.mem_reverse.1 (hg' ▸ List.mem_cons_self))⟩
    rw [rowGroupsFrom, get_eq_ok hfirst, ok_bind, List.splitBy.loop]
    by_cases hc : b.row = c.row
    · rw [if_pos (hrow.trans hc), beq_iff_eq.2 hc]
      refine ih (b :: g) c gs (by simpa using hls) fun l hl => ?_
      rcases List.mem_cons.1 hl with rfl | hl
      · exact hc
      · exact (hg l hl).trans hc
    · rw [if_neg (hrow ▸ hc), beq_eq_false_iff_ne.2 hc]
      have hlen : ((b :: g).reverse :: gs).reverse.flatten.length =
          gs.reverse.flatten.length + (b :: g).length := by simp
      have hspans : (spans 0 ((b :: g).reverse :: gs).reverse).reverse =
          (gs.reverse.flatten.length, gs.reverse.flatten.length + (b :: g).length) ::
            (spans 0 gs.reverse).reverse := by simp [spans_append, spans]
      have hnext := ih [] c ((b :: g).reverse :: gs) (by simpa using hls) (by simp)
      rw [hlen, hspans] at hnext
      exact hnext

theorem rowGroups_eq_ok (ls : List Lexeme) : rowGroups ls = .ok (spans 0 (rowRuns ls)) := by
  cases ls with
  | nil => rfl
  | cons l rest => exact rowGroupsFrom_eq_ok [] l [] rfl (by simp)

theorem statementGroups_eq_ok {statement : List Lexeme → RangedTrial}
    {statement' : List Lexeme → Trial} (h : ∀ ls d, statement ls d = .ok (statement' ls d))
    {ls : List Lexeme} {runs : List (List Lexeme)} (done : List Lexeme)
    (pending : Option (List Lexeme × List Diagnostic))
    (hls : done ++ (pending.elim [] Prod.fst ++ runs.flatten) = ls) (d : Draft) :
    statementGroups statement ls (spans (done.length + (pending.elim [] Prod.fst).length) runs)
        (pending.map fun q => (done.length, q.2)) d =
      .ok (Trial.statementRuns statement' runs pending d) := by
  induction runs generalizing done pending d with
  | nil =>
    cases pending with
    | none => rfl
    | some q =>
      have hslice : slice ls done.length ls.length = _ :=
        slice_eq_ok done q.1 [] (by simpa using hls) rfl (by simp [← hls, Nat.add_comm])
      simp only [spans, Option.map_some, statementGroups, hslice, ok_bind]
      rfl
  | cons run runs ih =>
    rw [spans, statementGroups, Trial.statementRuns]
    generalize (if d.depth = 0 then { d with diagnostics := [] } else d) = d
    obtain ⟨front, earlier, hfront, hq, hq'⟩ : ∃ front earlier, pending.elim [] Prod.fst = front ∧
        pending.getD ([], d.diagnostics) = (front, earlier) ∧
        (pending.map fun q => (done.length, q.2)).getD
          (done.length + front.length, d.diagnostics) = (done.length, earlier) := by
      cases pending with
      | none => exact ⟨[], d.diagnostics, rfl, rfl, rfl⟩
      | some q => exact ⟨q.1, q.2, rfl, rfl, rfl⟩
    rw [hfront, List.flatten_cons] at hls
    have hslice : slice ls done.length (done.length + front.length + run.length) = _ :=
      slice_eq_ok done (front ++ run) runs.flatten (by simpa using hls) rfl (by simp; omega)
    rw [hfront, hq, hq']
    simp only [hslice, ok_bind, h]
    cases statement' (front ++ run) d with
    | mk d' accepted =>
      cases accepted with
      | true =>
        have hnext := ih (done ++ front ++ run) none (by simpa using hls)
          { d' with diagnostics := earlier }
        rw [List.length_append, List.length_append] at hnext
        exact hnext
      | false =>
        have hnext := ih done (some (front ++ run, earlier)) (by simpa using hls) d'
        rw [Option.elim_some, List.length_append, ← Nat.add_assoc] at hnext
        exact hnext

theorem statementList_eq_ok (ls : List Lexeme) (d : Draft) :
    statementList ls d = .ok (Trial.statementList ls d) := by
  induction hn : ls.length using Nat.strong_induction_on generalizing ls d with
  | _ n ih =>
    subst hn
    rw [statementList, Trial.statementList]
    by_cases hls : ls = []
    · rw [if_pos hls, if_pos hls, pure_eq_ok]
    · rw [if_neg hls, if_neg hls, rowGroups_eq_ok, ok_bind]
      refine statementGroups_eq_ok (statement_eq_ok (fun inner d => ?_) fun inner d => ?_) [] none
        (by simp [rowRuns, List.flatten_splitBy]) d
      · dsimp only
        split
        · rename_i hlt
          rw [ih inner.length hlt inner d rfl]
          rfl
        · rfl
      · dsimp only
        split
        · exact Trial.follows_listed progress_kept (by simp) d
        · exact progress_kept.refl d

/-- Whatever the lexemes and the tables are, no position is asked for that does not exist, and the
answer is that of the parser. -/
theorem parse_in_range (lexemes : List Lexeme) (tables : Tables) :
    parse lexemes tables = .ok (RowLang.parse lexemes tables) := by
  rw [parse, RowLang.parse]
  by_cases hls : lexemes = []
  · rw [if_pos hls, if_pos hls, pure_eq_ok]
  · rw [if_neg hls, if_neg hls, statementList_eq_ok, ok_bind]
    cases Trial.statementList lexemes { tables } with
    | mk d pending => cases pending <;> rfl

end Ranged
end RowLang
