import Mathlib
import RowLang.Proofs.Statement.Recursion

/-! Lexemes with their rows renumbered. What the parser reads off lexemes depends on their kinds, texts
and links, so it is the same after renumbering; only runs of rows depend on the rows, and they are kept
if different rows stay different. -/

namespace RowLang

def Lexeme.renumber (f : Nat → Nat) (l : Lexeme) : Lexeme := { l with row := f l.row }

abbrev renumbered (f : Nat → Nat) (ls : List Lexeme) : List Lexeme := ls.map (Lexeme.renumber f)

def Cut.renumber (f : Nat → Nat) (c : Cut) : Cut :=
  ⟨renumbered f c.reversed, c.pivot.renumber f, renumbered f c.suffix⟩

def Item.renumber (f : Nat → Nat) : Item → Item
  | .operand l => .operand (l.renumber f)
  | .operator op row => .operator op (f row)

def Reading.map {α β : Type} (g : α → β) : Reading α → Reading β
  | .other => .other
  | .wrong cause => .wrong cause
  | .form value => .form (g value)

def Declaration.renumber (f : Nat → Nat) (d : Declaration) : Declaration :=
  ⟨d.word.renumber f, d.name.renumber f, d.typeWord, renumbered f d.tail⟩

def Conditional.renumber (f : Nat → Nat) (c : Conditional) : Conditional :=
  ⟨c.word.renumber f, renumbered f c.condition, c.jump.renumber f, c.mark.renumber f⟩

def Diagnostic.renumber (f : Nat → Nat) (d : Diagnostic) : Diagnostic :=
  { d with lexemes := renumbered f d.lexemes }

section
variable {f : Nat → Nat}

@[simp] theorem Lexeme.row_renumber (l : Lexeme) : (l.renumber f).row = f l.row := rfl

@[simp] theorem Lexeme.kind_renumber (l : Lexeme) : (l.renumber f).kind = l.kind := rfl

@[simp] theorem Lexeme.text_renumber (l : Lexeme) : (l.renumber f).text = l.text := rfl

@[simp] theorem Lexeme.link_renumber (l : Lexeme) : (l.renumber f).link = l.link := rfl

@[simp] theorem Lexeme.isIdentifier_renumber (l : Lexeme) :
    (l.renumber f).isIdentifier = l.isIdentifier := rfl

@[simp] theorem Lexeme.isConstant_renumber (l : Lexeme) :
    (l.renumber f).isConstant = l.isConstant := rfl

theorem before_renumber (c : Cut) : (c.renumber f).before = renumbered f c.before :=
  List.map_reverse.symm

section
variable (f)

theorem cutsFrom_renumbered (front suffix : List Lexeme) :
    cutsFrom (renumbered f front) (renumbered f suffix) =
      (cutsFrom front suffix).map (Cut.renumber f) := by
  induction front generalizing suffix with
  | nil => rfl
  | cons l front ih => exact congrArg (Cut.renumber f ⟨front, l, suffix⟩ :: ·) (ih (l :: suffix))

theorem cuts_renumbered (ls : List Lexeme) :
    cuts (renumbered f ls) = (cuts ls).map (Cut.renumber f) := by
  unfold cuts
  rw [renumbered, ← List.map_reverse]
  cases ls.reverse with
  | nil => rfl
  | cons last front => exact cutsFrom_renumbered f front [last]

theorem cutBefore?_renumbered {accepts : List Lexeme → Bool} (ls : List Lexeme)
    (h : ∀ c ∈ cuts ls, accepts (renumbered f c.suffix) = accepts c.suffix) :
    cutBefore? accepts (renumbered f ls) = (cutBefore? accepts ls).map (Cut.renumber f) := by
  have haccepts : ∀ c ∈ cuts ls, accepts (c.renumber f).suffix = accepts c.suffix := h
  rw [cutBefore?, cuts_renumbered, List.find?_map, cutBefore?]
  exact congrArg _ (List.find?_congr haccepts)

theorem isIdentifier_renumbered (ls : List Lexeme) :
    isIdentifier (renumbered f ls) = isIdentifier ls := by
  rcases ls with _ | ⟨l, _ | ⟨l', ls⟩⟩ <;> rfl

theorem isUnsignedNumber_renumbered (ls : List Lexeme) :
    isUnsignedNumber (renumbered f ls) = isUnsignedNumber ls := by
  rcases ls with _ | ⟨l, _ | ⟨l', ls⟩⟩ <;> rfl

theorem isBoolean_renumbered (ls : List Lexeme) : isBoolean (renumbered f ls) = isBoolean ls := by
  rcases ls with _ | ⟨l, _ | ⟨l', ls⟩⟩ <;> rfl

theorem isString_renumbered (ls : List Lexeme) : isString (renumbered f ls) = isString ls := by
  rcases ls with _ | ⟨l, _ | ⟨l', ls⟩⟩ <;> rfl

theorem isBalanced_renumbered (opened : Nat) (ls : List Lexeme) :
    isBalanced opened (renumbered f ls) = isBalanced opened ls := by
  fun_induction isBalanced opened ls <;> simp_all [isBalanced, renumbered]

theorem getLast?_renumbered (ls : List Lexeme) :
    (renumbered f ls).getLast?.map Lexeme.kind = ls.getLast?.map Lexeme.kind := by
  rw [List.getLast?_map, Option.map_map]
  rfl

theorem unbracket?_renumbered (ls : List Lexeme) :
    unbracket? (renumbered f ls) = (unbracket? ls).map (renumbered f) := by
  cases ls with
  | nil => rfl
  | cons l rest =>
    have hinside : (renumbered f rest).dropLast = renumbered f rest.dropLast := List.map_dropLast.symm
    rw [renumbered, List.map_cons, unbracket?, unbracket?, Lexeme.kind_renumber, getLast?_renumbered,
      hinside, isBalanced_renumbered]
    split <;> rfl

end

section
variable {ls : List Lexeme}

theorem isFactor_renumbered_of_shorter (ha : ∀ s : List Lexeme, s.length < ls.length →
    isArithmetic (renumbered f s) = isArithmetic s) : isFactor (renumbered f ls) = isFactor ls := by
  rw [isFactor_eq, isFactor_eq, isIdentifier_renumbered, isUnsignedNumber_renumbered,
    unbracket?_renumbered]
  congr 1
  cases hu : unbracket? ls with
  | none => rfl
  | some inside => exact ha inside (length_of_unbracket? hu)

theorem isTerm_renumbered_of_shorter
    (hf : ∀ s : List Lexeme, s.length ≤ ls.length → isFactor (renumbered f s) = isFactor s)
    (ht : ∀ s : List Lexeme, s.length < ls.length → isTerm (renumbered f s) = isTerm s) :
    isTerm (renumbered f ls) = isTerm ls := by
  have hcuts : ∀ c ∈ cuts ls, isFactor (renumbered f c.suffix) = isFactor c.suffix := by
    intro c hc
    have hlen := length_of_mem_cuts hc
    exact hf c.suffix (by omega)
  rw [isTerm_eq, isTerm_eq, hf ls le_rfl, cutBefore?_renumbered f ls hcuts]
  congr 1
  cases hc : cutBefore? isFactor ls with
  | none => rfl
  | some c =>
    have hlen := length_of_mem_cuts (mem_cuts_of_cutBefore? hc).1
    simp only [Option.map_some, Option.any_some, before_renumber, ht c.before (by omega)]
    rfl

theorem isArithmetic_renumbered_of_shorter
    (ht : ∀ s : List Lexeme, s.length ≤ ls.length → isTerm (renumbered f s) = isTerm s)
    (ha : ∀ s : List Lexeme, s.length < ls.length →
      isArithmetic (renumbered f s) = isArithmetic s) :
    isArithmetic (renumbered f ls) = isArithmetic ls := by
  have hcuts : ∀ c ∈ cuts ls, isTerm (renumbered f c.suffix) = isTerm c.suffix := by
    intro c hc
    have hlen := length_of_mem_cuts hc
    exact ht c.suffix (by omega)
  rw [isArithmetic_eq, isArithmetic_eq, cutBefore?_renumbered f ls hcuts]
  congr 1
  · cases ls with
    | nil => rfl
    | cons l rest =>
      have hrest := ht rest (Nat.le_succ _)
      have hall := ht (l :: rest) le_rfl
      simp only [renumbered, List.map_cons, Lexeme.kind_renumber] at hrest hall ⊢
      rw [hrest, hall]
      rfl
  · cases hc : cutBefore? isTerm ls with
    | none => rfl
    | some c =>
      have hlen := length_of_mem_cuts (mem_cuts_of_cutBefore? hc).1
      simp only [Option.map_some, Option.any_some, before_renumber, ha c.before (by omega)]
      rfl

end

section
variable (f)

theorem recognizers_renumbered (ls : List Lexeme) :
    isFactor (renumbered f ls) = isFactor ls ∧ isTerm (renumbered f ls) = isTerm ls ∧
      isArithmetic (renumbered f ls) = isArithmetic ls := by
  induction hn : ls.length using Nat.strong_induction_on generalizing ls with
  | _ n ih =>
    subst hn
    have hf : ∀ s : List Lexeme, s.length ≤ ls.length → isFactor (renumbered f s) = isFactor s :=
      fun s hs => isFactor_renumbered_of_shorter fun r hr => (ih r.length (by omega) r rfl).2.2
    have ht : ∀ s : List Lexeme, s.length ≤ ls.length → isTerm (renumbered f s) = isTerm s := by
      intro s hs
      induction hk : s.length using Nat.strong_induction_on generalizing s with
      | _ k iht =>
        subst hk
        exact isTerm_renumbered_of_shorter (fun r hr => hf r (by omega))
          fun r hr => iht r.length hr r (by omega) rfl
    exact ⟨hf ls le_rfl, ht ls le_rfl,
      isArithmetic_renumbered_of_shorter ht fun r hr => (ih r.length hr r rfl).2.2⟩

theorem isArithmetic_renumbered (ls : List Lexeme) :
    isArithmetic (renumbered f ls) = isArithmetic ls :=
  (recognizers_renumbered f ls).2.2

theorem isCondition_renumbered (ls : List Lexeme) :
    isCondition (renumbered f ls) = isCondition ls := by
  have hsign : (fun l : Lexeme => !l.kind.isRelOp) ∘ Lexeme.renumber f =
      fun l => !l.kind.isRelOp := rfl
  rw [isCondition, isCondition, isBoolean_renumbered, isIdentifier_renumbered, renumbered,
    List.dropWhile_map, List.takeWhile_map, hsign]
  congr 1
  cases ls.dropWhile fun l => !l.kind.isRelOp with
  | nil => rfl
  | cons op right =>
    simp only [List.map_cons, isArithmetic_renumbered]

theorem isExpression_renumbered (ls : List Lexeme) :
    isExpression (renumbered f ls) = isExpression ls := by
  rw [isExpression, isExpression, isArithmetic_renumbered, isCondition_renumbered,
    isString_renumbered]

end

namespace Postorder

def Waiting.renumber (f : Nat → Nat) : Waiting → Waiting
  | .opening => .opening
  | .operator op row => .operator op (f row)

theorem release_renumber (ws : List Waiting) : release (ws.map (Waiting.renumber f)) =
    ((release ws).1.map (Item.renumber f), (release ws).2.map (Waiting.renumber f)) := by
  induction ws with
  | nil => rfl
  | cons w ws ih => cases w <;> simp [release, Waiting.renumber, Item.renumber, ih]

theorem releaseAbove_renumber (p : Nat) (ws : List Waiting) :
    releaseAbove p (ws.map (Waiting.renumber f)) =
      ((releaseAbove p ws).1.map (Item.renumber f), (releaseAbove p ws).2.map (Waiting.renumber f)) := by
  induction ws with
  | nil => rfl
  | cons w ws ih =>
    cases w with
    | opening => rfl
    | operator op row =>
      rw [List.map_cons, Waiting.renumber, releaseAbove, releaseAbove, ih]
      split <;> rfl

theorem releaseAll_renumber (ws : List Waiting) :
    releaseAll (ws.map (Waiting.renumber f)) = (releaseAll ws).map (Item.renumber f) := by
  induction ws with
  | nil => rfl
  | cons w ws ih => cases w <;> simp [releaseAll, Waiting.renumber, Item.renumber, ih]

def Yard.renumber (f : Nat → Nat) (yard : Yard) : Yard :=
  { yard with waiting := yard.waiting.map (Waiting.renumber f) }

theorem shunt_renumber (yard : Yard) (l : Lexeme) : shunt (yard.renumber f) (l.renumber f) =
    ((shunt yard l).1.map (Item.renumber f), (shunt yard l).2.renumber f) := by
  unfold shunt
  rw [Lexeme.kind_renumber]
  cases l.kind with
  | bracket side => cases side <;> simp [Yard.renumber, release_renumber, Waiting.renumber]
  | addOp sign =>
    cases hafter : yard.afterOperand <;> cases sign <;>
      simp [Yard.renumber, Waiting.renumber, hafter, Kind.isAddOp, releaseAbove_renumber,
        Operator.ofKind?, Operator.priority?]
  | assign | multOp sign | powOp | relOp sign =>
    simp [Yard.renumber, Waiting.renumber, Kind.isAddOp, releaseAbove_renumber, Operator.ofKind?,
      Operator.priority?]
  | _ => simp [Yard.renumber, Waiting.renumber, Item.renumber, Kind.isAddOp, Operator.ofKind?]

theorem outputFrom_renumber (yard : Yard) (ls : List Lexeme) :
    outputFrom (yard.renumber f) (renumbered f ls) =
      (outputFrom yard ls).map (Item.renumber f) := by
  induction ls generalizing yard with
  | nil => exact releaseAll_renumber yard.waiting
  | cons l ls ih =>
    rw [renumbered, List.map_cons, outputFrom, shunt_renumber, outputFrom]
    simp only [List.map_append, ih]

end Postorder

theorem postorder_renumbered (ls : List Lexeme) :
    postorder (renumbered f ls) = (postorder ls).map (Item.renumber f) :=
  Postorder.outputFrom_renumber {} ls

section
variable (f)

theorem splitTypeWord?_renumbered (ls : List Lexeme) :
    Declaration.splitTypeWord? (renumbered f ls) =
      (Declaration.splitTypeWord? ls).map fun p => (p.1, renumbered f p.2) := by
  rcases ls with _ | ⟨colon, rest⟩
  · rfl
  · by_cases hc : colon.kind = .punct
    · rcases rest with _ | ⟨t, tail⟩
      · simp [Declaration.splitTypeWord?, hc]
      · cases ht : t.kind <;> simp [Declaration.splitTypeWord?, hc, ht]
    · simp [Declaration.splitTypeWord?, hc]

theorem tailCause?_renumbered (declarator : Declarator) (type : Option TypeWord)
    (tail : List Lexeme) : Declaration.tailCause? declarator type (renumbered f tail) =
      Declaration.tailCause? declarator type tail := by
  rcases tail with _ | ⟨sign, value⟩
  · rfl
  · have hvalue := isExpression_renumbered f value
    simp [Declaration.tailCause?, hvalue]

theorem declaration_read_renumbered (ls : List Lexeme) :
    Declaration.read (renumbered f ls) = (Declaration.read ls).map (Declaration.renumber f) := by
  rcases ls with _ | ⟨word, rest⟩
  · rfl
  · cases hw : word.kind with
    | declaration declarator =>
      rcases rest with _ | ⟨name, rest⟩
      · simp [Declaration.read, hw, Reading.map]
      · by_cases hn : name.isIdentifier
        · have hsplit := splitTypeWord?_renumbered f rest
          cases hs : Declaration.splitTypeWord? rest with
          | none => simp_all [Declaration.read, Reading.map]
          | some p =>
            have hcause := tailCause?_renumbered f declarator p.1 p.2
            cases ht : Declaration.tailCause? declarator p.1 p.2 <;>
              simp_all [Declaration.read, Reading.map, Declaration.renumber]
        · simp [Declaration.read, hw, hn, Reading.map]
    | _ => simp [Declaration.read, hw, Reading.map]

theorem isConstantDefinition_renumbered (ls : List Lexeme) :
    isConstantDefinition (renumbered f ls) = isConstantDefinition ls := by
  rcases ls with _ | ⟨name, _ | ⟨sign, _ | ⟨value, _ | ⟨l, ls⟩⟩⟩⟩ <;> rfl

theorem readAssignment_renumbered (ls : List Lexeme) :
    readAssignment (renumbered f ls) = (readAssignment ls).map (Lexeme.renumber f) := by
  rcases ls with _ | ⟨name, _ | ⟨sign, value⟩⟩
  · rfl
  · rfl
  · have hvalue := isExpression_renumbered f value
    by_cases hstart : name.isIdentifier ∧ sign.kind = .assign
    · by_cases hv : isExpression value <;> simp_all [readAssignment, Reading.map]
    · simp [readAssignment, hstart, Reading.map]

theorem conditional_read_renumbered (ls : List Lexeme) :
    Conditional.read (renumbered f ls) = (Conditional.read ls).map (Conditional.renumber f) := by
  rcases ls with _ | ⟨word, rest⟩
  · rfl
  · by_cases hw : word.kind = .condition .ifWord
    · obtain ⟨back, rfl⟩ : ∃ back : List Lexeme, rest = back.reverse :=
        ⟨rest.reverse, (List.reverse_reverse rest).symm⟩
      rcases back with _ | ⟨mark, _ | ⟨jump, _ | ⟨thenWord, _ | ⟨last, front⟩⟩⟩⟩
      iterate 4 · simp [Conditional.read, hw, Reading.map]
      · have hcondition := isCondition_renumbered f (last :: front).reverse
        by_cases hjump : thenWord.kind = .condition .thenWord ∧ jump.kind = .jump ∧ mark.isIdentifier
        · by_cases hc : isCondition (last :: front).reverse <;>
            simp_all [Conditional.read, Reading.map, Conditional.renumber]
        · simp [Conditional.read, hw, hjump, Reading.map]
    · simp [Conditional.read, hw, Reading.map]

theorem readGoto_renumbered (ls : List Lexeme) :
    readGoto (renumbered f ls) =
      (readGoto ls).map (Prod.map (Lexeme.renumber f) (Lexeme.renumber f)) := by
  rcases ls with _ | ⟨word, rest⟩
  · rfl
  · by_cases hw : word.kind = .jump
    · rcases rest with _ | ⟨mark, _ | ⟨l, ls⟩⟩
      · simp [readGoto, hw, Reading.map]
      · by_cases hm : mark.isIdentifier <;> simp [readGoto, hw, hm, Reading.map]
      · simp [readGoto, hw, Reading.map]
    · simp [readGoto, hw, Reading.map]

theorem readLabel_renumbered (ls : List Lexeme) :
    readLabel (renumbered f ls) =
      (readLabel ls).map (Prod.map (Lexeme.renumber f) (Lexeme.renumber f)) := by
  rcases ls with _ | ⟨mark, _ | ⟨colon, _ | ⟨l, ls⟩⟩⟩
  · rfl
  · rfl
  · by_cases h : mark.isIdentifier ∧ colon.kind = .punct <;> simp [readLabel, h, Reading.map]
  · rfl

theorem inferType_renumbered (identifiers : Identifiers) (ls : List Lexeme) :
    inferType identifiers (renumbered f ls) = inferType identifiers ls := by
  have hlink : (renumbered f ls).head?.bind Lexeme.link = ls.head?.bind Lexeme.link := by
    cases ls <;> rfl
  have hsign : (renumbered f ls).any (fun l => l.kind.isRelOp) = ls.any fun l => l.kind.isRelOp := by
    rw [List.any_map]
    rfl
  unfold inferType
  rw [isString_renumbered, isIdentifier_renumbered, isBoolean_renumbered, hlink, hsign]

theorem counter?_renumbered (init : List Lexeme) :
    Trial.counter? (renumbered f init) = (Trial.counter? init).map (Lexeme.renumber f) := by
  cases init with
  | nil => rfl
  | cons first rest =>
    simp only [renumbered, List.map_cons, Trial.counter?, Lexeme.kind_renumber]
    cases first.kind with
    | declaration word => exact List.head?_map
    | _ => rfl

theorem insideBody?_renumbered (ls : List Lexeme) :
    Trial.insideBody? (renumbered f ls) = (Trial.insideBody? ls).map (renumbered f) := by
  cases ls with
  | nil => rfl
  | cons first rest =>
    have hinside : (renumbered f rest).dropLast = renumbered f rest.dropLast := List.map_dropLast.symm
    rw [renumbered, List.map_cons, Trial.insideBody?, Trial.insideBody?, Lexeme.kind_renumber,
      getLast?_renumbered, hinside]
    split <;> rfl

end

theorem rowRuns_renumbered {ls : List Lexeme} {rows : Set Nat} (hf : Set.InjOn f rows)
    (h : ∀ l ∈ ls, l.row ∈ rows) : rowRuns (renumbered f ls) = (rowRuns ls).map (renumbered f) := by
  obtain ⟨hls, hnil, hrun, hnext⟩ := List.splitBy_eq_iff.1 (rfl : rowRuns ls = rowRuns ls)
  have hrows : ∀ run ∈ rowRuns ls, ∀ l ∈ run, l.row ∈ rows := by
    intro run hrun l hl
    refine h l ?_
    rw [hls]
    exact List.mem_flatten_of_mem hrun hl
  refine List.splitBy_eq_iff.2 ⟨?_, ?_, ?_, ?_⟩
  · exact (congrArg (renumbered f) hls).trans List.map_flatten
  · simpa [renumbered] using hnil
  · intro run' hrun'
    obtain ⟨run, hmem, rfl⟩ := List.mem_map.1 hrun'
    refine (List.isChain_map _).2 ((hrun run hmem).imp fun a b hab => ?_)
    simpa using congrArg f (beq_iff_eq.1 hab)
  · refine (List.isChain_map _).2 (hnext.imp_of_mem_imp fun run run' hmem hmem' hne => ?_)
    obtain ⟨ha, hb, hne⟩ := hne
    have hlast := hrows run hmem _ (List.getLast_mem ha)
    have hhead := hrows run' hmem' _ (List.head_mem hb)
    refine ⟨by simpa using ha, by simpa using hb, ?_⟩
    rw [List.getLast_map, List.head_map, beq_eq_false_iff_ne]
    exact fun heq => beq_eq_false_iff_ne.1 hne (hf hlast hhead heq)

end
end RowLang
