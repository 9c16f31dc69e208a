import RowLang.Lexeme.Basic

/-! Which lists of lexemes have the shape of an expression. The right operand of a binary sign is
the shortest suffix that has the shape of an operand, and the sign has to stand right before it. -/

namespace RowLang

/-- A list of lexemes cut at one of them. The part before it is kept reversed. -/
structure Cut where
  reversed : List Lexeme
  pivot : Lexeme
  suffix : List Lexeme

namespace Cut

def before (c : Cut) : List Lexeme := c.reversed.reverse

def position (c : Cut) : Nat := c.reversed.length

end Cut

def cutsFrom : List Lexeme → List Lexeme → List Cut
  | [], _ => []
  | l :: front, suffix => ⟨front, l, suffix⟩ :: cutsFrom front (l :: suffix)

/-- All cuts that leave a suffix, the shortest suffix first. -/
def cuts (lexemes : List Lexeme) : List Cut :=
  match lexemes.reverse with
  | [] => []
  | last :: front => cutsFrom front [last]

def cutBefore? (accepts : List Lexeme → Bool) (lexemes : List Lexeme) : Option Cut :=
  (cuts lexemes).find? fun c => accepts c.suffix

theorem append_of_mem_cutsFrom {front suffix : List Lexeme} {c : Cut}
    (h : c ∈ cutsFrom front suffix) :
    c.before ++ c.pivot :: c.suffix = front.reverse ++ suffix := by
  induction front generalizing suffix with
  | nil => simp [cutsFrom] at h
  | cons l front ih =>
    rcases List.mem_cons.1 h with rfl | h
    · simp [Cut.before]
    · simpa using ih h

theorem append_of_mem_cuts {lexemes : List Lexeme} {c : Cut} (h : c ∈ cuts lexemes) :
    c.before ++ c.pivot :: c.suffix = lexemes := by
  unfold cuts at h
  split at h
  · simp at h
  · rename_i last front hr
    rw [append_of_mem_cutsFrom h, ← List.reverse_reverse lexemes, hr, List.reverse_cons]

theorem length_of_mem_cuts {lexemes : List Lexeme} {c : Cut} (h : c ∈ cuts lexemes) :
    c.before.length + c.suffix.length + 1 = lexemes.length := by
  have := congrArg List.length (append_of_mem_cuts h)
  simp only [List.length_append, List.length_cons] at this
  omega

def isBalanced : Nat → List Lexeme → Bool
  | opened, [] => opened == 0
  | opened, l :: ls =>
    match l.kind, opened with
    | .bracket .opening, _ => isBalanced (opened + 1) ls
    | .bracket .closing, 0 => false
    | .bracket .closing, opened + 1 => isBalanced opened ls
    | _, _ => isBalanced opened ls

def unbracket? : List Lexeme → Option (List Lexeme)
  | l :: rest =>
    if l.kind = .bracket .opening ∧ rest.getLast?.map Lexeme.kind = some (.bracket .closing) ∧
        isBalanced 0 rest.dropLast then
      some rest.dropLast
    else none
  | [] => none

theorem length_of_unbracket? {lexemes inner : List Lexeme} (h : unbracket? lexemes = some inner) :
    inner.length < lexemes.length := by
  cases lexemes with
  | nil => simp [unbracket?] at h
  | cons l rest =>
    simp only [unbracket?] at h
    split at h
    · cases h; simp only [List.length_dropLast, List.length_cons]; omega
    · simp at h

def isIdentifier : List Lexeme → Bool
  | [l] => l.isIdentifier
  | _ => false

def isUnsignedNumber : List Lexeme → Bool
  | [l] => l.isConstant && l.text.toList.head?.any Char.isDigit
  | _ => false

def isBoolean : List Lexeme → Bool
  | [l] => l.isConstant && (l.text == "true" || l.text == "false")
  | _ => false

def isString : List Lexeme → Bool
  | [l] => l.isConstant && l.text.toList.head? == some '\''
  | _ => false

mutual

def isFactor (lexemes : List Lexeme) : Bool :=
  isIdentifier lexemes || isUnsignedNumber lexemes ||
    match _h : unbracket? lexemes with
    | some inner => isArithmetic inner
    | none => false
termination_by 3 * lexemes.length
decreasing_by
  have := length_of_unbracket? _h
  omega

def isTerm (lexemes : List Lexeme) : Bool :=
  isFactor lexemes ||
    match (cuts lexemes).attach.find? fun c => isFactor c.1.suffix with
    | some ⟨c, _hc⟩ => c.pivot.kind.isTermOp && isTerm c.before
    | none => false
termination_by 3 * lexemes.length + 1
decreasing_by
  · omega
  · have := length_of_mem_cuts c.2
    omega
  · have := length_of_mem_cuts _hc
    omega

def isArithmetic (lexemes : List Lexeme) : Bool :=
  (match lexemes with
    | [] => false
    | l :: rest => if l.kind.isAddOp then isTerm rest else isTerm (l :: rest)) ||
    match (cuts lexemes).attach.find? fun c => isTerm c.1.suffix with
    | some ⟨c, _hc⟩ => c.pivot.kind.isAddOp && isArithmetic c.before
    | none => false
termination_by 3 * lexemes.length + 2
decreasing_by
  · simp only [List.length_cons]; omega
  · omega
  · have := length_of_mem_cuts c.2
    omega
  · have := length_of_mem_cuts _hc
    omega

end

theorem find?_attach_val {α : Type} (p : α → Bool) (l : List α) :
    (l.attach.find? fun c => p c.1).map Subtype.val = l.find? p := by
  have := List.find?_map (f := Subtype.val) (p := p) (l := l.attach)
  rw [List.attach_map_subtype_val] at this
  exact this.symm

theorem isFactor_eq (lexemes : List Lexeme) :
    isFactor lexemes = (isIdentifier lexemes || isUnsignedNumber lexemes ||
      (unbracket? lexemes).any isArithmetic) := by
  rw [isFactor]
  split <;> simp [*]

theorem isTerm_eq (lexemes : List Lexeme) :
    isTerm lexemes = (isFactor lexemes ||
      (cutBefore? isFactor lexemes).any fun c => c.pivot.kind.isTermOp && isTerm c.before) := by
  rw [isTerm, cutBefore?, ← find?_attach_val fun c : Cut => isFactor c.suffix]
  split <;> simp [*]

theorem isArithmetic_eq (lexemes : List Lexeme) :
    isArithmetic lexemes =
      ((match lexemes with
        | [] => false
        | l :: rest => if l.kind.isAddOp then isTerm rest else isTerm (l :: rest)) ||
      (cutBefore? isTerm lexemes).any fun c => c.pivot.kind.isAddOp && isArithmetic c.before) := by
  rw [isArithmetic.eq_def, cutBefore?, ← find?_attach_val fun c : Cut => isTerm c.suffix]
  congr 1
  split <;> simp [*]

/-- A truth value, an identifier, or two arithmetic expressions around a relational sign. The
first such sign divides them, as arithmetic expressions have none. -/
def isCondition (lexemes : List Lexeme) : Bool :=
  isBoolean lexemes || isIdentifier lexemes ||
    match lexemes.dropWhile fun l => !l.kind.isRelOp with
    | [] => false
    | _ :: right => isArithmetic (lexemes.takeWhile fun l => !l.kind.isRelOp) && isArithmetic right

def isExpression (lexemes : List Lexeme) : Bool :=
  isArithmetic lexemes || isCondition lexemes || isString lexemes

end RowLang
