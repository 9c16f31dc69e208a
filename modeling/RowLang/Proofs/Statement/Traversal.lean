import Mathlib
import RowLang.Proofs.Expr.Yard
import RowLang.Proofs.Statement.Acceptance

/-! What trials do to a draft is put together from a few operations. A relation between earlier and
later drafts that these operations keep holds from before every trial to after it, whether the trial
is accepted or not. -/

namespace RowLang

namespace Draft

/-- The relation holds from a draft to whatever the parser makes of it with lexemes of some sort. A
body is read one level deeper, its records are taken out again for the header, and a rejected trial
is rolled back to where it began. -/
structure Progress (p : Lexeme → Prop) (R : Draft → Draft → Prop) : Prop where
  refl : ∀ d, R d d
  trans : ∀ {d d' d''}, R d d' → R d' d'' → R d d''
  emit : ∀ d records, R d (d.emit records)
  resolve : ∀ d l, p l → R d (d.resolve l).1
  setType : ∀ d index type, R d (d.setType index type)
  pushMark : ∀ d, R d d.pushMark.1
  internValue : ∀ d v, R d (d.internValue v).1
  diagnostics : ∀ d ds, R d { d with diagnostics := ds }
  nested : ∀ {d d'}, R { d with depth := d.depth + 1 } d' → R d { d' with depth := d.depth }
  withdrawn : ∀ {d d'}, R d d' → R d { d' with code := d'.code.take d.code.length }
  rollback : ∀ {d d'}, R d d' → R d (d'.rollback d)

namespace Progress
variable {p : Lexeme → Prop} {R : Draft → Draft → Prop} (hR : Progress p R) (d : Draft)
include hR

theorem complain (cause : Cause) (ls : List Lexeme) : R d (d.complain cause ls) :=
  hR.diagnostics d _

theorem emitItem {item : Item} (h : ∀ l, item = .operand l → p l) : R d (d.emitItem item) := by
  cases item with
  | operator op row => exact hR.emit d _
  | operand l =>
    have hresolve := hR.resolve d l (h l rfl)
    rw [Draft.emitItem]
    split
    · rename_i d' hd
      rwa [hd] at hresolve
    · rename_i d' index hd
      rw [hd] at hresolve
      exact hR.trans hresolve (hR.emit d' _)

theorem emitExpr {ls : List Lexeme} (h : ∀ l ∈ ls, p l) : R d (d.emitExpr ls) := by
  have hitems : ∀ item ∈ postorder ls, ∀ l, item = .operand l → p l := by
    rintro item hitem l rfl
    exact h l (Postorder.of_operand_mem_outputFrom hitem).1
  unfold Draft.emitExpr
  generalize postorder ls = items at hitems
  induction items generalizing d with
  | nil => exact hR.refl d
  | cons item items ih =>
    rw [List.foldl_cons]
    exact hR.trans (hR.emitItem d (hitems item List.mem_cons_self))
      (ih _ fun x hx => hitems x (List.mem_cons_of_mem item hx))

theorem lowerDeclaration {form : Declaration}
    (h : ∀ l ∈ form.word :: form.name :: form.tail, p l) : R d (lowerDeclaration form d) := by
  have hresolve := hR.resolve d form.name (h form.name (by simp))
  unfold Draft.lowerDeclaration
  refine hR.trans ?_ (hR.emitExpr _ h)
  split
  · rename_i d' index hd
    rw [hd] at hresolve
    exact hR.trans hresolve (hR.setType d' index _)
  · rename_i d' hd
    rwa [hd] at hresolve

theorem lowerConditional {form : Conditional} (h : ∀ l ∈ form.mark :: form.condition, p l) :
    R d (lowerConditional form d) := by
  obtain ⟨hm, hc⟩ := List.forall_mem_cons.1 h
  have hresolve := hR.resolve d form.mark hm
  unfold Draft.lowerConditional
  split
  · rename_i d' hd
    rwa [hd] at hresolve
  · rename_i d' target hd
    rw [hd] at hresolve
    have hmark := hR.trans hresolve (hR.pushMark d')
    exact hR.trans (hR.trans hmark (hR.emitExpr _ hc)) (hR.emit _ _)

theorem lowerGoto {form : Lexeme × Lexeme} (h : p form.2) : R d (lowerGoto form d) := by
  have hresolve := hR.resolve d form.2 h
  unfold Draft.lowerGoto
  simp only
  split
  · rename_i d' hd
    rwa [hd] at hresolve
  · rename_i d' target hd
    rw [hd] at hresolve
    exact hR.trans hresolve (hR.emit d' _)

theorem lowerLabel {form : Lexeme × Lexeme} (h : p form.1) : R d (lowerLabel form d) := by
  have hresolve := hR.resolve d form.1 h
  unfold Draft.lowerLabel
  simp only
  split
  · rename_i d' hd
    rwa [hd] at hresolve
  · rename_i d' index hd
    rw [hd] at hresolve
    exact hR.trans (hR.trans hresolve (hR.setType d' index .mark)) (hR.emit _ _)

end Progress
end Draft

namespace Trial
open Draft

def alternatives (body : List Lexeme → Trial) (ls : List Lexeme) : List Trial :=
  [declaration ls, constantDefinition ls, assignment ls, loop body ls, conditional ls, goto ls,
    label ls]

def Follows (R : Draft → Draft → Prop) (trial : Trial) : Prop := ∀ d, R d (trial d).1

section
variable {p : Lexeme → Prop} {R : Draft → Draft → Prop} (hR : Progress p R)
include hR

theorem Follows.attempt {trial : Trial} (h : trial.Follows R) : trial.attempt.Follows R := by
  intro d
  have htrial := h d
  unfold Trial.attempt
  split
  · rename_i d' hd
    rwa [hd] at htrial
  · rename_i d' hd
    rw [hd] at htrial
    exact hR.rollback htrial

theorem follows_firstOf {trials : List Trial} (h : ∀ trial ∈ trials, trial.Follows R) :
    (firstOf trials).Follows R := by
  induction trials with
  | nil => exact hR.refl
  | cons trial trials ih =>
    intro d
    have hfirst := (h trial List.mem_cons_self).attempt hR d
    unfold firstOf
    split
    · rename_i d' hd
      rwa [hd] at hfirst
    · rename_i d' hd
      rw [hd] at hfirst
      exact hR.trans hfirst (ih (fun x hx => h x (List.mem_cons_of_mem trial hx)) d')

theorem follows_ofReading {α : Type} {reading : Reading α} {lower : α → Draft → Draft}
    (ls : List Lexeme) (h : ∀ value, reading = .form value → ∀ d, R d (lower value d)) :
    (ofReading ls reading lower).Follows R := by
  intro d
  cases reading with
  | other => exact hR.refl d
  | wrong cause => exact hR.complain d cause ls
  | form value => exact h value rfl d

section
variable {ls : List Lexeme} (h : ∀ l ∈ ls, p l)
include h

theorem follows_declaration : (declaration ls).Follows R := by
  refine follows_ofReading hR ls fun form hf d => ?_
  obtain ⟨_, rest, -, -, rfl, hs, -⟩ := read_eq_form_iff.1 hf
  refine hR.lowerDeclaration d fun l hl => h l ?_
  have htail : form.tail ⊆ rest := by
    rcases splitTypeWord?_eq_some_iff.1 hs with ⟨-, htail, -⟩ | ⟨_, _, _, -, -, -, rfl⟩
    · rw [htail]
      exact List.Subset.refl rest
    · intro l hl
      simp [hl]
  exact List.cons_subset_cons _ (List.cons_subset_cons _ htail) hl

theorem follows_constantDefinition : (constantDefinition ls).Follows R := by
  intro d
  unfold constantDefinition
  split
  · exact hR.emitExpr d h
  · exact hR.refl d

theorem follows_assignment : (assignment ls).Follows R :=
  follows_ofReading hR ls fun _ _ d => hR.emitExpr d h

theorem follows_conditional : (conditional ls).Follows R := by
  refine follows_ofReading hR ls fun form hf d => ?_
  obtain ⟨thenWord, -, -, -, -, -, rfl⟩ := conditional_read_eq_form_iff.1 hf
  refine hR.lowerConditional d fun l hl => h l ?_
  rcases List.mem_cons.1 hl with rfl | hl <;> simp [*]

theorem follows_goto : (goto ls).Follows R := by
  refine follows_ofReading hR ls fun form hf d => ?_
  obtain ⟨-, -, rfl⟩ := readGoto_eq_form_iff.1 hf
  exact hR.lowerGoto d (h form.2 (by simp))

theorem follows_label : (label ls).Follows R := by
  refine follows_ofReading hR ls fun form hf d => ?_
  obtain ⟨-, -, rfl⟩ := readLabel_eq_form_iff.1 hf
  exact hR.lowerLabel d (h form.1 (by simp))

theorem follows_whileLoop (code : Code) (endRow : Nat) : (whileLoop ls code endRow).Follows R := by
  intro d
  have hcondition : ∀ l ∈ ls.drop 1, p l := fun l hl => h l (List.mem_of_mem_drop hl)
  unfold whileLoop
  by_cases hc : isCondition (ls.drop 1)
  · rw [if_pos hc]
    have hmarks := hR.trans (hR.pushMark d) (hR.pushMark _)
    exact hR.trans (hR.trans (hR.trans hmarks (hR.emit _ _)) (hR.emitExpr _ hcondition)) (hR.emit _ _)
  · rw [if_neg hc]
    exact hR.complain d _ ls

theorem follows_init : (firstOf [declaration ls, assignment ls]).Follows R :=
  follows_firstOf hR fun trial hm => by
    rcases List.mem_pair.1 hm with rfl | rfl
    · exact follows_declaration hR h
    · exact follows_assignment hR h

omit hR h in
theorem mem_of_counter? {name : Lexeme} (hn : counter? ls = some name) : name ∈ ls := by
  cases ls with
  | nil => simp [counter?] at hn
  | cons first rest =>
    rw [counter?] at hn
    split at hn
    · exact List.mem_cons_of_mem first (List.mem_of_head? hn)
    · cases hn
      exact List.mem_cons_self

theorem follows_forLoop (code : Code) (endRow : Nat) : (forLoop ls code endRow).Follows R := by
  intro d
  unfold forLoop
  split
  · exact hR.complain d _ ls
  · split
    · exact hR.complain d _ ls
    · rename_i cut hcut
      have happ := append_of_mem_cuts (mem_cuts_of_cutBefore? hcut).1
      have hinit : ∀ l ∈ cut.before.drop 1, p l := fun l hl =>
        h l (happ ▸ List.mem_append_left _ (List.mem_of_mem_drop hl))
      have hbound : ∀ l ∈ cut.suffix, p l := fun l hl =>
        h l (happ ▸ List.mem_append_right _ (List.mem_cons_of_mem _ hl))
      split
      · have hstart := follows_init hR hinit d
        simp only
        split
        · rename_i d' hd
          rw [hd] at hstart
          exact hR.trans hstart (hR.complain d' _ ls)
        · rename_i d' hd
          rw [hd] at hstart
          split
          · exact hR.trans hstart (hR.complain d' _ ls)
          · rename_i name hname
            have hcounter := hR.trans hstart (hR.resolve d' name (hinit name (mem_of_counter? hname)))
            split
            · rename_i d₁ hd₁
              rw [hd₁] at hcounter
              exact hR.trans hcounter (hR.complain d₁ _ ls)
            · rename_i d₁ counter hd₁
              rw [hd₁] at hcounter
              have hmarks := hR.trans (hR.trans hcounter (hR.pushMark d₁)) (hR.pushMark _)
              have hone := hR.trans hmarks (hR.internValue _ (.number 1))
              exact hR.trans (hR.trans (hR.trans hone (hR.emit _ _)) (hR.emitExpr _ hbound))
                (hR.emit _ _)
      · exact hR.complain d _ ls

end

theorem follows_loopBody {body : List Lexeme → Trial} {inside : List Lexeme}
    (h : (body inside).Follows R) : (loopBody body inside).Follows R :=
  fun d => hR.nested (h { d with depth := d.depth + 1 })

theorem follows_seekBody {body : List Lexeme → Trial} {cs : List Cut}
    (h : ∀ c ∈ cs, ∀ inside, insideBody? c.suffix = some inside → (body inside).Follows R)
    (d : Draft) : R d (seekBody body cs d).1 := by
  induction cs generalizing d with
  | nil => exact hR.refl d
  | cons c cs ih =>
    have hrest := ih fun c' hc' => h c' (List.mem_cons_of_mem c hc')
    unfold seekBody
    split
    · exact hrest d
    · rename_i inside hi
      have hbody := (follows_loopBody hR (h c List.mem_cons_self inside hi)).attempt hR d
      split
      · rename_i d' hd
        rwa [hd] at hbody
      · rename_i d' hd
        rw [hd] at hbody
        exact hR.trans hbody (hrest d')

omit hR in
theorem mem_of_seekBody {body : List Lexeme → Trial} {cs : List Cut} {c : Cut} {d : Draft}
    (h : (seekBody body cs d).2 = some c) : c ∈ cs := by
  induction cs generalizing d with
  | nil => simp [seekBody] at h
  | cons c' cs ih =>
    unfold seekBody at h
    split at h
    · exact List.mem_cons_of_mem c' (ih h)
    · split at h
      · cases h
        exact List.mem_cons_self
      · exact List.mem_cons_of_mem c' (ih h)

omit hR in
theorem forall_mem_cut {ls : List Lexeme} {c : Cut} (h : ∀ l ∈ ls, p l) (hc : c ∈ cuts ls) :
    (∀ l ∈ c.before ++ [c.pivot], p l) ∧
      ∀ inside, insideBody? c.suffix = some inside → ∀ l ∈ inside, p l := by
  rw [← append_of_mem_cuts hc] at h
  refine ⟨fun l hl => h l ?_, fun inside hi l hl => h l ?_⟩
  · rcases List.mem_append.1 hl with hl | hl
    · exact List.mem_append_left _ hl
    · rw [List.mem_singleton.1 hl]
      simp
  · obtain ⟨o, e, -, -, hs⟩ := insideBody?_eq_some_iff.1 hi
    rw [hs]
    simp [hl]

section
variable {body : List Lexeme → Trial}
  (hb : ∀ inside : List Lexeme, (∀ l ∈ inside, p l) → (body inside).Follows R)
include hb

theorem follows_loop {ls : List Lexeme} (h : ∀ l ∈ ls, p l) : (loop body ls).Follows R := by
  intro d
  have hseek : R d (seekBody body (cuts ls) d).1 := follows_seekBody hR
    (fun c hc inside hi => hb inside ((forall_mem_cut h hc).2 inside hi)) d
  unfold loop
  split
  · split
    · split
      · rename_i d' hd
        rw [hd] at hseek
        exact hR.trans hseek (hR.complain d' _ ls)
      · rename_i d' cut hd
        rw [hd] at hseek
        have hwithout := hR.trans (hR.withdrawn hseek) (hR.diagnostics _ d.diagnostics)
        have hcut : cut ∈ cuts ls := mem_of_seekBody (congrArg Prod.snd hd)
        have hheader := (forall_mem_cut h hcut).1
        split
        · exact hR.trans hwithout (follows_whileLoop hR hheader _ _ _)
        · exact hR.trans hwithout (follows_forLoop hR hheader _ _ _)
    · exact hR.refl d
  · exact hR.refl d

theorem follows_alternatives {ls : List Lexeme} (h : ∀ l ∈ ls, p l) :
    ∀ trial ∈ alternatives body ls, trial.Follows R := by
  simp only [alternatives, List.forall_mem_cons]
  exact ⟨follows_declaration hR h, follows_constantDefinition hR h, follows_assignment hR h,
    follows_loop hR hb h, follows_conditional hR h, follows_goto hR h, follows_label hR h, by simp⟩

end

theorem follows_statementRuns {stmt : List Lexeme → Trial} {runs : List (List Lexeme)}
    {pending : Option (List Lexeme × List Diagnostic)}
    (hs : ∀ ls : List Lexeme, (∀ l ∈ ls, p l) → (stmt ls).Follows R)
    (hp : ∀ q ∈ pending, ∀ l ∈ q.1, p l) (hr : ∀ l ∈ runs.flatten, p l) (d : Draft) :
    R d (statementRuns stmt runs pending d).1 := by
  induction runs generalizing pending d with
  | nil => exact hR.refl d
  | cons run runs ih =>
    have hrest : ∀ l ∈ runs.flatten, p l := fun l hl => hr l (by simp [hl])
    have hfront : ∀ ds : List Diagnostic, ∀ l ∈ (pending.getD ([], ds)).1 ++ run, p l := by
      intro ds l hl
      rcases List.mem_append.1 hl with hl | hl
      · cases pending with
        | none => simp at hl
        | some q => exact hp q rfl l hl
      · exact hr l (by simp [hl])
    have hclean : R d (if d.depth = 0 then { d with diagnostics := [] } else d) := by
      split
      · exact hR.diagnostics d []
      · exact hR.refl d
    unfold statementRuns
    refine hR.trans hclean ?_
    generalize (if d.depth = 0 then { d with diagnostics := [] } else d) = d
    have hstmt := hs _ (hfront d.diagnostics) d
    simp only
    split
    · rename_i d' hd
      rw [hd] at hstmt
      exact hR.trans (hR.trans hstmt (hR.diagnostics d' _)) (ih (by simp) hrest _)
    · rename_i d' hd
      rw [hd] at hstmt
      refine hR.trans hstmt (ih ?_ hrest d')
      rintro q ⟨⟩
      exact hfront d.diagnostics

theorem follows_listed {ls : List Lexeme} (h : ∀ l ∈ ls, p l) : (listed ls).Follows R := by
  induction hn : ls.length using Nat.strong_induction_on generalizing ls with
  | _ n ih =>
    subst hn
    intro d
    rw [listed, statementList]
    split
    · exact hR.refl d
    · refine follows_statementRuns hR (fun ls' hl => follows_firstOf hR
        (follows_alternatives hR ?_ hl)) (by simp) ?_ d
      · intro inside hi d
        split
        · rename_i hlt
          exact ih inside.length hlt hi rfl d
        · exact hR.refl d
      · rwa [rowRuns, List.flatten_splitBy]

end
end Trial
end RowLang
