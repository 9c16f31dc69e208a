import Mathlib
import RowLang.Proofs.Statement.Recursion

/-! What the parser accepts. Whether a trial accepts its lexemes is decided by the lexemes alone,
whatever the draft, and the lexemes that are accepted are those of the grammar. -/

namespace RowLang.Trial

def Decides (trial : Trial) (p : Prop) : Prop := ∀ d, (trial d).2 = true ↔ p

section
variable {trial : Trial} {p q : Prop}

theorem Decides.congr (h : trial.Decides p) (hpq : p ↔ q) : trial.Decides q :=
  fun d => (h d).trans hpq

theorem Decides.eq_true (h : trial.Decides p) (hp : p) (d : Draft) : (trial d).2 = true := (h d).2 hp

theorem attempt_snd (trial : Trial) (d : Draft) : (trial.attempt d).2 = (trial d).2 := by
  unfold attempt
  split <;> simp [*]

theorem Decides.attempt (h : trial.Decides p) : trial.attempt.Decides p := fun d => by
  rw [attempt_snd]
  exact h d

theorem decides_firstOf_nil : (firstOf []).Decides False := fun d => by simp [firstOf]

theorem Decides.firstOf_cons {trials : List Trial} (h : trial.Decides p)
    (hs : (firstOf trials).Decides q) : (firstOf (trial :: trials)).Decides (p ∨ q) := fun d => by
  have ha := h.attempt d
  unfold firstOf
  split
  · rename_i d' hd
    simp only [hd, true_iff] at ha ⊢
    exact Or.inl ha
  · rename_i d' hd
    have hp : ¬ p := fun hp => by simp [hd] at ha; exact ha hp
    rw [hs d']
    exact (or_iff_right hp).symm

theorem decides_ofReading {α : Type} (lexemes : List Lexeme) (reading : Reading α)
    (lower : α → Draft → Draft) :
    (ofReading lexemes reading lower).Decides (∃ value, reading = .form value) := fun d => by
  cases reading <;> simp [ofReading]

end

theorem splitTypeWord?_eq_some_iff {ls tail : List Lexeme} {type : Option TypeWord} :
    Declaration.splitTypeWord? ls = some (type, tail) ↔
      (type = none ∧ tail = ls ∧ ∀ l ∈ ls.head?, l.kind ≠ .punct) ∨
      ∃ colon t word, colon.kind = .punct ∧ t.kind = .type word ∧ type = some word ∧
        ls = colon :: t :: tail := by
  cases ls with
  | nil => simp [Declaration.splitTypeWord?, eq_comm]
  | cons colon rest =>
    by_cases hc : colon.kind = .punct
    · cases rest with
      | nil => simp [Declaration.splitTypeWord?, hc]
      | cons t rest =>
        cases ht : t.kind <;>
          simp [Declaration.splitTypeWord?, hc, ht, eq_comm]
    · have hc' : ¬ Kind.punct = colon.kind := fun h => hc h.symm
      simp [Declaration.splitTypeWord?, hc, hc', eq_comm]

theorem tailCause?_eq_none_iff {declarator : Declarator} {type : Option TypeWord}
    {tail : List Lexeme} :
    Declaration.tailCause? declarator type tail = none ↔
      (tail = [] ∧ declarator = .var ∧ type ≠ none) ∨
      ∃ sign value, sign.kind = .assign ∧ isExpression value ∧ tail = sign :: value := by
  cases tail with
  | nil => cases declarator <;> cases type <;> simp [Declaration.tailCause?]
  | cons sign value =>
    by_cases hs : sign.kind = .assign <;> by_cases hv : isExpression value <;>
      simp [Declaration.tailCause?, hs, hv]

theorem read_eq_form_iff {ls : List Lexeme} {form : Declaration} :
    Declaration.read ls = .form form ↔
      ∃ declarator rest, form.word.kind = .declaration declarator ∧ form.name.isIdentifier ∧
        ls = form.word :: form.name :: rest ∧
        Declaration.splitTypeWord? rest = some (form.typeWord, form.tail) ∧
        Declaration.tailCause? declarator form.typeWord form.tail = none := by
  constructor
  · intro h
    match ls with
    | [] => simp [Declaration.read] at h
    | [word] => cases hw : word.kind <;> simp [Declaration.read, hw] at h
    | word :: name :: rest =>
      cases hw : word.kind with
      | declaration declarator =>
        simp only [Declaration.read, hw] at h
        split at h
        · rename_i hn
          split at h
          · simp at h
          · rename_i type tail hs
            split at h
            · simp at h
            · rename_i hc
              cases h
              exact ⟨declarator, rest, hw, hn, rfl, hs, hc⟩
        · simp at h
      | _ => simp [Declaration.read, hw] at h
  · rintro ⟨declarator, rest, hw, hn, rfl, hs, hc⟩
    simp [Declaration.read, hw, hn, hs, hc]

theorem decides_declaration (ls : List Lexeme) : (declaration ls).Decides (IsDeclaration ls) := by
  refine (decides_ofReading _ _ _).congr ?_
  simp only [read_eq_form_iff]
  constructor
  · rintro ⟨form, declarator, rest, hw, hn, rfl, hs, hc⟩
    rcases splitTypeWord?_eq_some_iff.1 hs with ⟨ht, rfl, -⟩ | ⟨colon, t, word, hcolon, ht, hty, rfl⟩
    · rcases tailCause?_eq_none_iff.1 hc with ⟨-, -, hty⟩ | ⟨sign, value, hsign, hv, htail⟩
      · exact absurd ht hty
      · rw [htail]
        exact .initialized hw hn .absent hsign hv
    · rcases tailCause?_eq_none_iff.1 hc with ⟨htail, rfl, -⟩ | ⟨sign, value, hsign, hv, htail⟩
      · rw [htail]
        exact .typed hw hn hcolon ht
      · rw [htail]
        exact .initialized hw hn (.given hcolon ht) hsign hv
  · intro h
    cases h with
    | @initialized word name sign typing value declarator hw hn ht hs hv =>
      cases ht with
      | absent =>
        refine ⟨⟨word, name, none, sign :: value⟩, declarator, _, hw, hn, rfl,
          splitTypeWord?_eq_some_iff.2 (Or.inl ⟨rfl, rfl, ?_⟩),
          tailCause?_eq_none_iff.2 (Or.inr ⟨sign, value, hs, hv, rfl⟩)⟩
        simp [hs]
      | @given colon t type hc ht =>
        exact ⟨⟨word, name, some type, sign :: value⟩, declarator, _, hw, hn, rfl,
          splitTypeWord?_eq_some_iff.2 (Or.inr ⟨colon, t, type, hc, ht, rfl, rfl⟩),
          tailCause?_eq_none_iff.2 (Or.inr ⟨sign, value, hs, hv, rfl⟩)⟩
    | @typed word name colon t type hw hn hc ht =>
      exact ⟨⟨word, name, some type, []⟩, .var, _, hw, hn, rfl,
        splitTypeWord?_eq_some_iff.2 (Or.inr ⟨colon, t, type, hc, ht, rfl, rfl⟩),
        tailCause?_eq_none_iff.2 (Or.inl ⟨rfl, rfl, by simp⟩)⟩

theorem isConstantDefinition_iff {ls : List Lexeme} :
    isConstantDefinition ls ↔ ∃ name sign value : Lexeme,
      name.isIdentifier ∧ sign.kind = .assign ∧ value.isConstant ∧ ls = [name, sign, value] := by
  constructor
  · intro h
    match ls, h with
    | [name, sign, value], h =>
      simp only [isConstantDefinition, Bool.and_eq_true, beq_iff_eq] at h
      exact ⟨name, sign, value, h.1.1, h.1.2, h.2, rfl⟩
  · rintro ⟨name, sign, value, hn, hs, hv, rfl⟩
    simp [isConstantDefinition, hn, hs, hv]

theorem decides_constantDefinition (ls : List Lexeme) :
    (constantDefinition ls).Decides (isConstantDefinition ls) := fun d => by
  unfold constantDefinition
  split <;> simp [*]

theorem readAssignment_eq_form_iff {ls : List Lexeme} {name : Lexeme} :
    readAssignment ls = .form name ↔ ∃ sign value, name.isIdentifier ∧ sign.kind = .assign ∧
      isExpression value ∧ ls = name :: sign :: value := by
  match ls with
  | [] => simp [readAssignment]
  | [a] => simp [readAssignment]
  | a :: b :: value =>
    by_cases h : a.isIdentifier ∧ b.kind = .assign
    · by_cases hv : isExpression value
      · simp only [readAssignment, if_pos h, if_pos hv, Reading.form.injEq]
        constructor
        · rintro rfl
          exact ⟨b, value, h.1, h.2, hv, rfl⟩
        · rintro ⟨sign, value', -, -, -, he⟩
          exact (List.cons.inj he).1
      · simp only [readAssignment, if_pos h, if_neg hv, reduceCtorEq, false_iff]
        rintro ⟨sign, value', -, -, hv', he⟩
        simp_all
    · simp only [readAssignment, if_neg h, reduceCtorEq, false_iff]
      rintro ⟨sign, value', hn, hs, -, he⟩
      simp_all

theorem decides_assignment (ls : List Lexeme) : (assignment ls).Decides (IsAssignment ls) := by
  refine (decides_ofReading _ _ _).congr ?_
  simp only [readAssignment_eq_form_iff]
  constructor
  · rintro ⟨name, sign, value, hn, hs, hv, rfl⟩
    exact .mk hn hs hv
  · rintro ⟨hn, hs, hv⟩
    exact ⟨_, _, _, hn, hs, hv, rfl⟩

theorem conditional_read_eq_form_iff {ls : List Lexeme} {form : Conditional} :
    Conditional.read ls = .form form ↔ ∃ thenWord : Lexeme, form.word.kind = .condition .ifWord ∧
      isCondition form.condition ∧ thenWord.kind = .condition .thenWord ∧ form.jump.kind = .jump ∧
      form.mark.isIdentifier ∧
      ls = form.word :: (form.condition ++ [thenWord, form.jump, form.mark]) := by
  constructor
  · intro h
    cases ls with
    | nil => simp [Conditional.read] at h
    | cons word rest =>
      simp only [Conditional.read] at h
      split at h
      · rename_i hw
        split at h
        · rename_i mark jump thenWord last front hr
          split at h
          · rename_i hk
            split at h
            · rename_i hc
              cases h
              refine ⟨thenWord, hw, hc, hk.1, hk.2.1, hk.2.2, ?_⟩
              have := congrArg List.reverse hr
              simp only [List.reverse_reverse] at this
              simp [this]
            · simp at h
          · simp at h
        · simp at h
      · simp at h
  · rintro ⟨thenWord, hw, hc, ht, hj, hm, rfl⟩
    have hne : form.condition ≠ [] := by
      intro h
      simp [h, isCondition, isBoolean, RowLang.isIdentifier] at hc
    obtain ⟨init, last, hl⟩ := (List.eq_nil_or_concat form.condition).resolve_left hne
    simp only [List.concat_eq_append] at hl
    have hr : (form.condition ++ [thenWord, form.jump, form.mark]).reverse =
        form.mark :: form.jump :: thenWord :: last :: init.reverse := by
      simp [hl]
    have hb : (last :: init.reverse).reverse = form.condition := by simp [hl]
    simp only [Conditional.read, if_pos hw, hr, if_pos (And.intro ht (And.intro hj hm)), hb,
      if_pos hc]

theorem readGoto_eq_form_iff {ls : List Lexeme} {form : Lexeme × Lexeme} :
    readGoto ls = .form form ↔
      form.1.kind = .jump ∧ form.2.isIdentifier ∧ ls = [form.1, form.2] := by
  match ls with
  | [] => simp [readGoto]
  | [a] => by_cases ha : a.kind = .jump <;> simp [readGoto, ha]
  | [a, b] =>
    by_cases h : a.kind = .jump ∧ b.isIdentifier
    · simp only [readGoto, if_pos h.1, if_pos h.2, Reading.form.injEq, Prod.ext_iff]
      constructor
      · rintro ⟨rfl, rfl⟩
        exact ⟨h.1, h.2, rfl⟩
      · rintro ⟨-, -, he⟩
        simpa using he
    · have hne : readGoto [a, b] ≠ .form form := by
        by_cases ha : a.kind = .jump <;> simp_all [readGoto]
      refine iff_of_false hne ?_
      rintro ⟨h1, h2, he⟩
      simp_all
  | a :: b :: c :: rest => by_cases ha : a.kind = .jump <;> simp [readGoto, ha]

theorem readLabel_eq_form_iff {ls : List Lexeme} {form : Lexeme × Lexeme} :
    readLabel ls = .form form ↔
      form.1.isIdentifier ∧ form.2.kind = .punct ∧ ls = [form.1, form.2] := by
  match ls with
  | [] => simp [readLabel]
  | [a] => simp [readLabel]
  | [a, b] =>
    by_cases h : a.isIdentifier ∧ b.kind = .punct
    · simp only [readLabel, if_pos h, Reading.form.injEq, Prod.ext_iff]
      constructor
      · rintro ⟨rfl, rfl⟩
        exact ⟨h.1, h.2, rfl⟩
      · rintro ⟨-, -, he⟩
        simpa using he
    · simp only [readLabel, if_neg h, reduceCtorEq, false_iff]
      rintro ⟨h1, h2, he⟩
      simp_all
  | a :: b :: c :: rest => simp [readLabel]

theorem Decides.loopBody {body : List Lexeme → Trial} {inside : List Lexeme} {p : Prop}
    (h : (body inside).Decides p) : (Trial.loopBody body inside).Decides p :=
  fun d => h { d with depth := d.depth + 1 }

section
variable {body : List Lexeme → Trial} {isList : List Lexeme → Prop}

theorem seekBody_eq_some (hb : ∀ inside, (body inside).Decides (isList inside)) {cs : List Cut}
    {d : Draft} {c : Cut} (h : (seekBody body cs d).2 = some c) :
    c ∈ cs ∧ ∃ inside, insideBody? c.suffix = some inside ∧ isList inside := by
  induction cs generalizing d with
  | nil => simp [seekBody] at h
  | cons c' cs ih =>
    unfold seekBody at h
    cases hi : insideBody? c'.suffix with
    | none =>
      rw [hi] at h
      obtain ⟨hc, hrest⟩ := ih h
      exact ⟨List.mem_cons_of_mem c' hc, hrest⟩
    | some inside =>
      rw [hi] at h
      have ha := (hb inside).loopBody.attempt d
      simp only at h
      split at h
      · rename_i d' hd
        simp only [hd, true_iff] at ha
        cases h
        exact ⟨List.mem_cons_self, inside, hi, ha⟩
      · obtain ⟨hc, hrest⟩ := ih h
        exact ⟨List.mem_cons_of_mem c' hc, hrest⟩

theorem seekBody_eq_none (hb : ∀ inside, (body inside).Decides (isList inside)) {cs : List Cut}
    {d : Draft} (h : (seekBody body cs d).2 = none) {c : Cut} (hc : c ∈ cs) {inside : List Lexeme}
    (hi : insideBody? c.suffix = some inside) : ¬ isList inside := by
  induction cs generalizing d with
  | nil => simp at hc
  | cons c' cs ih =>
    unfold seekBody at h
    rcases List.mem_cons.1 hc with rfl | hc
    · rw [hi] at h
      have ha := (hb inside).loopBody.attempt d
      simp only at h
      split at h
      · simp at h
      · rename_i d' hd
        simp only [hd, Bool.false_eq_true, false_iff] at ha
        exact ha
    · split at h
      · exact ih h hc
      · split at h
        · simp at h
        · exact ih h hc

/-- At most one suffix is a body: that from the `do` to which the last `end` belongs. -/
theorem eq_of_insideBody? (hn : ∀ inside, isList inside → nests Kind.loopSide? 0 inside)
    {lexemes : List Lexeme} {c c' : Cut} (hc : c ∈ cuts lexemes) (hc' : c' ∈ cuts lexemes)
    {inside inside' : List Lexeme} (hi : insideBody? c.suffix = some inside)
    (hi' : insideBody? c'.suffix = some inside') (h : isList inside) (h' : isList inside') :
    c = c' := by
  have hsuffix : ∀ {c : Cut}, c ∈ cuts lexemes → c.suffix <:+ lexemes := by
    intro c hc
    exact ⟨c.before ++ [c.pivot], by simpa using append_of_mem_cuts hc⟩
  obtain ⟨o, e, ho, -, hs⟩ := insideBody?_eq_some_iff.1 hi
  obtain ⟨o', e', ho', -, hs'⟩ := insideBody?_eq_some_iff.1 hi'
  have heq := eq_of_nests_between (by rw [ho]; rfl) (by rw [ho']; rfl) (hn _ h) (hn _ h')
    (hs ▸ hsuffix hc) (hs' ▸ hsuffix hc')
  exact eq_of_mem_cuts hc hc' (by rw [hs, hs', heq])

theorem seekBody_eq_some_iff (hb : ∀ inside, (body inside).Decides (isList inside))
    (hn : ∀ inside, isList inside → nests Kind.loopSide? 0 inside) {lexemes : List Lexeme}
    {d : Draft} {c : Cut} :
    (seekBody body (cuts lexemes) d).2 = some c ↔
      c ∈ cuts lexemes ∧ ∃ inside, insideBody? c.suffix = some inside ∧ isList inside := by
  refine ⟨seekBody_eq_some hb, ?_⟩
  rintro ⟨hc, inside, hi, h⟩
  cases hs : (seekBody body (cuts lexemes) d).2 with
  | none => exact absurd h (seekBody_eq_none hb hs hc hi)
  | some c' =>
    obtain ⟨hc', inside', hi', h'⟩ := seekBody_eq_some hb hs
    rw [eq_of_insideBody? hn hc hc' hi hi' h h']

end

theorem whileLoop_snd (header : List Lexeme) (code : Code) (endRow : Nat) :
    (whileLoop header code endRow).Decides (isCondition (header.drop 1)) := fun d => by
  unfold whileLoop
  by_cases h : isCondition (header.drop 1)
  · rw [if_pos h]
    exact iff_of_true rfl h
  · rw [if_neg h]
    exact iff_of_false Bool.false_ne_true h

theorem exists_resolve_of_isIdentifier {l : Lexeme} (h : l.isIdentifier) (d : Draft) :
    ∃ index, (d.resolve l).2 = some index := by
  cases hl : l.link with
  | some index => exact ⟨index, by simp [Draft.resolve, hl]⟩
  | none =>
    simp [Draft.resolve, hl, Tables.internLexeme, Lexeme.kind_of_isIdentifier h]

theorem exists_counter? {init : List Lexeme} (h : IsDeclaration init ∨ IsAssignment init) :
    ∃ name ∈ init, counter? init = some name ∧ name.isIdentifier := by
  rcases h with (⟨hw, hn, _, _, _⟩ | ⟨hw, hn, _, _⟩) | ⟨hn, _, _⟩
  · exact ⟨_, by simp, by simp [counter?, hw], hn⟩
  · exact ⟨_, by simp, by simp [counter?, hw], hn⟩
  · exact ⟨_, List.mem_cons_self, by simp [counter?, Lexeme.kind_of_isIdentifier hn], hn⟩

theorem length_of_isDefinition {init : List Lexeme} (h : IsDeclaration init ∨ IsAssignment init) :
    2 ≤ init.length := by
  rcases h with h | h <;> cases h <;> simp

theorem decides_init (init : List Lexeme) : (firstOf [declaration init, assignment init]).Decides
    (IsDeclaration init ∨ IsAssignment init) := by
  have h := (decides_declaration init).firstOf_cons
    ((decides_assignment init).firstOf_cons decides_firstOf_nil)
  exact h.congr (by simp)

theorem forLoop_snd (header : List Lexeme) (code : Code) (endRow : Nat) :
    (forLoop header code endRow).Decides (∃ word init toWord bound,
      header = word :: (init ++ toWord :: bound) ∧ (IsDeclaration init ∨ IsAssignment init) ∧
      toWord.kind = .loop .toWord ∧ isFactor bound) := fun d => by
  constructor
  · intro h
    unfold forLoop at h
    split at h
    · simp at h
    · split at h
      · simp at h
      · rename_i cut hcut
        split at h
        · rename_i hto
          have hinit := (decides_init (cut.before.drop 1)) d
          simp only at h
          split at h
          · simp at h
          · rename_i d' hd
            simp only [hd, true_iff] at hinit
            have happ := append_of_mem_cuts (mem_cuts_of_cutBefore? hcut).1
            have hlen := length_of_isDefinition hinit
            cases hb : cut.before with
            | nil => simp [hb] at hlen
            | cons word init =>
              rw [hb] at happ hinit
              exact ⟨word, init, cut.pivot, cut.suffix, happ.symm, hinit, hto,
                isFactor_of_cutBefore? hcut⟩
        · simp at h
  · rintro ⟨word, init, toWord, bound, rfl, hinit, hto, hbound⟩
    have hlen := length_of_isDefinition hinit
    have hcut : cutBefore? isArithmetic (word :: (init ++ toWord :: bound)) =
        some ⟨(word :: init).reverse, toWord, bound⟩ :=
      cutBefore?_isArithmetic (word :: init) toWord hbound
    have hne := (isFactor_iff.1 hbound).ne_nil
    have hpos := List.length_pos_iff.2 hne
    have hacc := (decides_init init).eq_true hinit d
    obtain ⟨name, -, hcounter, hname⟩ := exists_counter? hinit
    unfold forLoop
    rw [if_neg (by simp only [List.length_cons, List.length_append]; omega), hcut]
    simp only [hto, if_true, Cut.before, List.reverse_reverse, List.drop_succ_cons, List.drop_zero]
    split
    · rename_i d' hd
      rw [hd] at hacc
      simp at hacc
    · rename_i d' hd
      obtain ⟨index, hr⟩ := exists_resolve_of_isIdentifier hname d'
      simp only [hcounter]
      split
      · rename_i hr'
        simp [hr'] at hr
      · rfl

theorem decides_loop {body : List Lexeme → Trial} {isList : List Lexeme → Prop}
    (hb : ∀ inside, (body inside).Decides (isList inside))
    (hn : ∀ inside, isList inside → nests Kind.loopSide? 0 inside) (ls : List Lexeme) :
    (loop body ls).Decides (IsLoop isList ls) := fun d => by
  constructor
  · intro h
    unfold loop at h
    split at h
    · rename_i word hword
      split at h
      · rename_i hwords
        split at h
        · simp at h
        · rename_i d' cut hseek
          obtain ⟨hcut, inside, hi, hlist⟩ := seekBody_eq_some hb (congrArg Prod.snd hseek)
          obtain ⟨o, e, ho, he, hs⟩ := insideBody?_eq_some_iff.1 hi
          have happ : (cut.before ++ [cut.pivot]) ++ o :: (inside ++ [e]) = ls := by
            rw [← append_of_mem_cuts hcut, hs]
            simp
          obtain ⟨first, header, hh⟩ :=
            List.exists_cons_of_ne_nil (show cut.before ++ [cut.pivot] ≠ [] by simp)
          have hkind : first.kind = .loop word := by simpa [← happ, hh] using hword
          simp only [hh] at h
          rw [← happ, hh]
          split at h
          · rename_i hw
            subst hw
            exact .whileLoop hkind ((whileLoop_snd _ _ _ _).1 h) ho hlist he
          · rename_i hw
            have hfor := hwords.resolve_right hw
            subst hfor
            obtain ⟨w, init, toWord, bound, heq, hinit, hto, hbound⟩ := (forLoop_snd _ _ _ _).1 h
            obtain ⟨rfl, rfl⟩ := List.cons.inj heq
            exact .forLoop hkind hinit hto hbound ho hlist he
      · simp at h
    · simp at h
  · intro h
    -- the search finds the body of the derivation
    have hseek : ∀ (word : Lexeme) (header : List Lexeme) (o e : Lexeme) (inside : List Lexeme),
        ls = (word :: header) ++ o :: (inside ++ [e]) → o.kind = .loop .doWord →
        e.kind = .loop .endWord → isList inside →
        ∃ d' cut, seekBody body (cuts ls) d = (d', some cut) ∧
          cut.before ++ [cut.pivot] = word :: header := by
      intro word header o e inside hls ho he hlist
      obtain ⟨init, last, hl⟩ :=
        (List.eq_nil_or_concat (word :: header)).resolve_left (List.cons_ne_nil _ _)
      rw [List.concat_eq_append] at hl
      have hcut : (⟨init.reverse, last, o :: (inside ++ [e])⟩ : Cut) ∈ cuts ls :=
        mem_cuts_iff.2 ⟨by simp [Cut.before, hls, hl], by simp⟩
      have hsome := (seekBody_eq_some_iff hb hn (d := d)).2
        ⟨hcut, inside, insideBody?_eq_some_iff.2 ⟨o, e, ho, he, rfl⟩, hlist⟩
      exact ⟨_, _, Prod.ext rfl hsome, by simp [Cut.before, hl]⟩
    cases h with
    | @whileLoop word o e condition inside hw hc ho hi he =>
      obtain ⟨d', cut, hs, hheader⟩ := hseek word condition o e inside rfl ho he hi
      unfold loop
      simp only [List.head?_cons, Option.map_some, hw, hs, hheader, or_true, if_true]
      exact (whileLoop_snd _ _ _ _).2 hc
    | @forLoop word toWord o e init bound inside hw hd ht hbound ho hi he =>
      obtain ⟨d', cut, hs, hheader⟩ := hseek word (init ++ toWord :: bound) o e inside rfl ho he hi
      unfold loop
      simp only [List.head?_cons, Option.map_some, hw, hs, hheader, true_or, if_true, reduceCtorEq,
        if_false]
      exact (forLoop_snd _ _ _ _).2 ⟨word, init, toWord, bound, rfl, hd, ht, hbound⟩

theorem decides_statement {body : List Lexeme → Trial} {isList : List Lexeme → Prop}
    (hb : ∀ inside, (body inside).Decides (isList inside))
    (hn : ∀ inside, isList inside → nests Kind.loopSide? 0 inside) (ls : List Lexeme) :
    (statement body ls).Decides (IsStatementOver isList ls) := by
  have hconditional := decides_ofReading ls (Conditional.read ls) Draft.lowerConditional
  have hgoto := decides_ofReading ls (readGoto ls) Draft.lowerGoto
  have hlabel := decides_ofReading ls (readLabel ls) Draft.lowerLabel
  have h := (decides_declaration ls).firstOf_cons <|
    (decides_constantDefinition ls).firstOf_cons <| (decides_assignment ls).firstOf_cons <|
    (decides_loop hb hn ls).firstOf_cons <| hconditional.firstOf_cons <| hgoto.firstOf_cons <|
    hlabel.firstOf_cons decides_firstOf_nil
  refine h.congr ?_
  simp only [isConstantDefinition_iff, conditional_read_eq_form_iff, readGoto_eq_form_iff,
    readLabel_eq_form_iff]
  constructor
  · rintro (h | ⟨name, sign, value, hn, hs, hv, rfl⟩ | h | h | ⟨form, t, hw, hc, ht, hj, hm, rfl⟩ |
      ⟨form, hj, hm, rfl⟩ | ⟨form, hm, hc, rfl⟩ | h)
    · exact .declaration h
    · exact .constant hn hs hv
    · exact .assignment h
    · exact .loop h
    · exact .conditional hw hc ht hj hm
    · exact .goto hj hm
    · exact .label hm hc
    · exact h.elim
  · intro h
    cases h with
    | declaration h => exact Or.inl h
    | constant hn hs hv => exact Or.inr (Or.inl ⟨_, _, _, hn, hs, hv, rfl⟩)
    | assignment h => exact Or.inr (Or.inr (Or.inl h))
    | loop h => exact Or.inr (Or.inr (Or.inr (Or.inl h)))
    | @conditional word thenWord jump mark condition hw hc ht hj hm =>
      exact Or.inr (Or.inr (Or.inr (Or.inr (Or.inl
        ⟨⟨word, condition, jump, mark⟩, thenWord, hw, hc, ht, hj, hm, rfl⟩))))
    | @goto jump mark hj hm =>
      exact Or.inr (Or.inr (Or.inr (Or.inr (Or.inr (Or.inl ⟨(jump, mark), hj, hm, rfl⟩)))))
    | @label mark colon hm hc =>
      exact Or.inr (Or.inr (Or.inr (Or.inr (Or.inr (Or.inr (Or.inl
        ⟨(mark, colon), hm, hc, rfl⟩))))))

end RowLang.Trial

namespace RowLang

section
variable {isStatement : List Lexeme → Prop}

theorem Blocks.eq_nil {runs : List (List Lexeme)} (h : Blocks isStatement runs)
    (hno : ∀ front, front <+: runs → ¬ isStatement front.flatten) : runs = [] := by
  cases h with
  | nil => rfl
  | @cons block rest hs _ _ => exact absurd hs (hno block (List.prefix_append block rest))

theorem Blocks.append_iff {front rest : List (List Lexeme)} (hs : isStatement front.flatten)
    (hno : ∀ shorter, shorter <+: front → shorter ≠ front → ¬ isStatement shorter.flatten)
    (hne : front ≠ []) : Blocks isStatement (front ++ rest) ↔ Blocks isStatement rest := by
  refine ⟨fun h => ?_, .cons hs hno⟩
  generalize hruns : front ++ rest = runs at h
  cases h with
  | nil => simp [hne] at hruns
  | @cons block runs hs' hno' hr =>
    have hpre : front <+: block ++ runs := ⟨rest, hruns⟩
    have hpre' : block <+: block ++ runs := List.prefix_append block runs
    have heq : front = block := by
      by_contra hdiff
      rcases List.prefix_or_prefix_of_prefix hpre hpre' with hp | hp
      · exact hno' front hp hdiff hs
      · exact hno block hp (Ne.symm hdiff) hs'
    subst heq
    rwa [List.append_cancel_left hruns]

end

namespace Trial

/-- The runs that are pending are part of the first block still to come. -/
theorem statementRuns_snd {stmt : List Lexeme → Trial} {isStatement : List Lexeme → Prop}
    (hs : ∀ ls, (stmt ls).Decides (isStatement ls)) (runs front : List (List Lexeme))
    (earlier : List Diagnostic)
    (hno : ∀ shorter, shorter <+: front → ¬ isStatement shorter.flatten) (d : Draft) :
    (statementRuns stmt runs (if front = [] then none else some (front.flatten, earlier)) d).2 =
      none ↔ Blocks isStatement (front ++ runs) := by
  induction runs generalizing front earlier d with
  | nil =>
    rw [List.append_nil]
    by_cases hf : front = []
    · subst hf
      exact iff_of_true rfl .nil
    · rw [if_neg hf]
      exact iff_of_false (by simp [statementRuns]) fun h => hf (h.eq_nil hno)
  | cons run runs ih =>
    have hfront : ∀ d : Draft, ((if front = [] then none else some (front.flatten, earlier) :
        Option (List Lexeme × List Diagnostic)).getD ([], d.diagnostics)).1 = front.flatten := by
      intro d
      split <;> simp [*]
    have happ : front ++ run :: runs = (front ++ [run]) ++ runs := by simp
    have hflat : front.flatten ++ run = (front ++ [run]).flatten := by simp
    have hshorter : ∀ shorter, shorter <+: front ++ [run] → shorter ≠ front ++ [run] →
        ¬ isStatement shorter.flatten := by
      intro shorter hp hne
      exact hno shorter ((List.prefix_concat_iff.1 hp).resolve_left hne)
    unfold statementRuns
    simp only [hfront, hflat, happ]
    split
    · rename_i d' hd
      -- the first block ends with this row
      have hst := ((hs _ _).1 (congrArg Prod.snd hd))
      rw [Blocks.append_iff hst hshorter (by simp)]
      exact ih [] [] (by
        intro shorter hp
        rw [List.prefix_nil.1 hp]
        exact hno [] (List.nil_prefix)) _
    · rename_i d' hd
      -- the row is pending too, and the first block goes on
      have hst : ¬ isStatement (front ++ [run]).flatten := by
        intro h
        have hf := congrArg Prod.snd hd
        rw [(hs _).eq_true h] at hf
        exact Bool.false_ne_true hf.symm
      have hall : ∀ shorter, shorter <+: front ++ [run] → ¬ isStatement shorter.flatten := by
        intro shorter hp
        by_cases he : shorter = front ++ [run]
        · rw [he]
          exact hst
        · exact hshorter shorter hp he
      have h := fun earlier => ih (front ++ [run]) earlier hall d'
      simp only [List.append_eq_nil_iff, List.cons_ne_self, and_false, if_false] at h
      exact h _

theorem not_isStatementOver_nil (isList : List Lexeme → Prop) : ¬ IsStatementOver isList [] := by
  intro h
  cases h with
  | declaration h => cases h
  | assignment h => cases h
  | loop h => cases h

theorem statementRuns_none_iff {stmt : List Lexeme → Trial} {isList : List Lexeme → Prop}
    (hs : ∀ ls, (stmt ls).Decides (IsStatementOver isList ls)) (runs : List (List Lexeme))
    (d : Draft) :
    (statementRuns stmt runs none d).2 = none ↔ Blocks (IsStatementOver isList) runs := by
  refine statementRuns_snd hs runs [] [] ?_ d
  intro shorter hp
  rw [List.prefix_nil.1 hp]
  exact not_isStatementOver_nil isList

theorem decides_listed (lexemes : List Lexeme) : (listed lexemes).Decides (IsList lexemes) := by
  induction hn : lexemes.length using Nat.strong_induction_on generalizing lexemes with
  | _ n ih =>
    subst hn
    intro d
    rw [listed, statementList, IsList, Option.isNone_iff_eq_none]
    by_cases hne : lexemes = []
    · rw [if_pos hne]
      exact iff_of_false (by simp) fun h => h.1 hne
    · rw [if_neg hne, and_iff_right hne]
      refine statementRuns_none_iff (decides_statement (fun inside d => ?_) ?_) _ d
      · by_cases hlt : inside.length < lexemes.length
        · rw [if_pos hlt, exists_prop_of_true hlt]
          exact ih inside.length hlt inside rfl d
        · rw [if_neg hlt]
          exact iff_of_false Bool.false_ne_true fun h => hlt h.fst
      · rintro inside ⟨_, hi⟩
        exact hi.nests

theorem decides_statement_listed (ls : List Lexeme) :
    (statement listed ls).Decides (IsStatement ls) :=
  decides_statement decides_listed (fun _ h => h.nests) ls

end Trial

/-- Parsing succeeds on the lists of statements and on nothing else. In a loop the search finds a
body just where the grammar has one, which is from the `do` that belongs to the last `end`. -/
theorem parse_succeeds_iff (lexemes : List Lexeme) (tables : Tables) :
    ((∃ program, parse lexemes tables = .ok program) ↔ IsList lexemes) ∧
      ∀ d c, (Trial.seekBody Trial.listed (cuts lexemes) d).2 = some c ↔
        c ∈ cuts lexemes ∧ ∃ inside, Trial.insideBody? c.suffix = some inside ∧ IsList inside ∧
          nests Kind.loopSide? 0 inside := by
  constructor
  · have h := Trial.decides_listed lexemes { tables }
    rw [Trial.listed, Option.isNone_iff_eq_none] at h
    unfold parse
    by_cases hne : lexemes = []
    · rw [if_pos hne]
      exact iff_of_false (by simp) fun hl => (isList_iff.1 hl).1 hne
    · rw [if_neg hne, ← h]
      split <;> simp [*]
  · intro d c
    rw [Trial.seekBody_eq_some_iff Trial.decides_listed fun _ h => h.nests]
    constructor
    · rintro ⟨hc, inside, hi, hl⟩
      exact ⟨hc, inside, hi, hl, hl.nests⟩
    · rintro ⟨hc, inside, hi, hl, -⟩
      exact ⟨hc, inside, hi, hl⟩

end RowLang
