import Mathlib
import RowLang.Proofs.Statement.Traversal

/-! What diagnostics are about. Whatever a trial complains about is a part of the lexemes it is tried
on, in one piece and not empty, and under a rule for one sort of statement. -/

namespace RowLang

/-- The diagnostic is about some of these lexemes, in one piece, as one sort of statement. -/
structure Diagnostic.About (ls : List Lexeme) (x : Diagnostic) : Prop where
  rule : x.rule ≠ .statement
  lexemes : x.lexemes ≠ []
  within : x.lexemes <:+: ls

theorem Diagnostic.About.mono {ls ls' : List Lexeme} {x : Diagnostic} (h : x.About ls)
    (hls : ls <:+: ls') : x.About ls' :=
  ⟨h.rule, h.lexemes, h.within.trans hls⟩

theorem Cause.rule_ne_statement (cause : Cause) : cause.rule ≠ .statement := by
  cases cause <;> decide

def Draft.Blames (ls : List Lexeme) (d d' : Draft) : Prop :=
  ∀ x ∈ d'.diagnostics, x ∈ d.diagnostics ∨ x.About ls

namespace Draft
variable {ls ls' : List Lexeme} {d d' d'' : Draft}

theorem Blames.of_eq (h : d'.diagnostics = d.diagnostics) : d.Blames ls d' := by
  intro x hx
  rw [h] at hx
  exact Or.inl hx

theorem Blames.refl (d : Draft) : d.Blames ls d := .of_eq rfl

theorem Blames.trans (h : d.Blames ls d') (h' : d'.Blames ls d'') : d.Blames ls d'' := by
  intro x hx
  rcases h' x hx with hx | hx
  · exact h x hx
  · exact Or.inr hx

theorem Blames.mono (h : d.Blames ls d') (hls : ls <:+: ls') : d.Blames ls' d' := by
  intro x hx
  rcases h x hx with hx | hx
  · exact Or.inl hx
  · exact Or.inr (hx.mono hls)

theorem blames_complain (hne : ls ≠ []) (d : Draft) (cause : Cause) :
    d.Blames ls (d.complain cause ls) := by
  intro x hx
  rcases List.mem_cons.1 hx with rfl | hx
  · exact Or.inr ⟨cause.rule_ne_statement, hne, List.infix_rfl⟩
  · exact Or.inl hx

theorem diagnostics_resolve (d : Draft) (l : Lexeme) :
    (d.resolve l).1.diagnostics = d.diagnostics := by
  unfold resolve
  split <;> rfl

theorem diagnostics_setType (d : Draft) (i : Nat) (type : ValueType) :
    (d.setType i type).diagnostics = d.diagnostics := by
  unfold setType
  split <;> rfl

theorem diagnostics_emitItem (d : Draft) (item : Item) :
    (d.emitItem item).diagnostics = d.diagnostics := by
  cases item with
  | operator op row => rfl
  | operand l =>
    have hresolve := d.diagnostics_resolve l
    rw [emitItem]
    split <;> rename_i hd <;> rw [hd] at hresolve <;> exact hresolve

theorem diagnostics_emitExpr (d : Draft) (ls : List Lexeme) :
    (d.emitExpr ls).diagnostics = d.diagnostics := by
  unfold emitExpr
  generalize postorder ls = items
  induction items generalizing d with
  | nil => rfl
  | cons item items ih => exact (ih _).trans (d.diagnostics_emitItem item)

theorem diagnostics_lowerDeclaration (form : Declaration) (d : Draft) :
    (lowerDeclaration form d).diagnostics = d.diagnostics := by
  have hresolve := d.diagnostics_resolve form.name
  unfold lowerDeclaration
  rw [diagnostics_emitExpr]
  split <;> rename_i hd <;> rw [hd] at hresolve
  · exact (diagnostics_setType _ _ _).trans hresolve
  · exact hresolve

theorem diagnostics_lowerConditional (form : Conditional) (d : Draft) :
    (lowerConditional form d).diagnostics = d.diagnostics := by
  have hresolve := d.diagnostics_resolve form.mark
  unfold lowerConditional
  split <;> rename_i hd <;> rw [hd] at hresolve
  · exact hresolve
  · exact (diagnostics_emitExpr _ _).trans hresolve

theorem diagnostics_lowerGoto (form : Lexeme × Lexeme) (d : Draft) :
    (lowerGoto form d).diagnostics = d.diagnostics := by
  have hresolve := d.diagnostics_resolve form.2
  unfold lowerGoto
  simp only
  split <;> rename_i hd <;> rw [hd] at hresolve <;> exact hresolve

theorem diagnostics_lowerLabel (form : Lexeme × Lexeme) (d : Draft) :
    (lowerLabel form d).diagnostics = d.diagnostics := by
  have hresolve := d.diagnostics_resolve form.1
  unfold lowerLabel
  simp only
  split <;> rename_i hd <;> rw [hd] at hresolve
  · exact hresolve
  · exact (diagnostics_setType _ _ _).trans hresolve

end Draft

namespace Trial
open Draft

def Blames (ls : List Lexeme) (trial : Trial) : Prop := ∀ d : Draft, d.Blames ls (trial d).1

section
variable {ls ls' : List Lexeme}

theorem Blames.mono {trial : Trial} (h : trial.Blames ls) (hls : ls <:+: ls') : trial.Blames ls' :=
  fun d => (h d).mono hls

theorem Blames.attempt {trial : Trial} (h : trial.Blames ls) : trial.attempt.Blames ls := by
  intro d
  have htrial := h d
  unfold Trial.attempt
  split <;> rename_i hd <;> rw [hd] at htrial <;> exact htrial

theorem blames_firstOf {trials : List Trial} (h : ∀ trial ∈ trials, trial.Blames ls) :
    (firstOf trials).Blames ls := by
  induction trials with
  | nil => exact Draft.Blames.refl
  | cons trial trials ih =>
    intro d
    have hfirst := (h trial List.mem_cons_self).attempt d
    unfold firstOf
    split <;> rename_i d' hd <;> rw [hd] at hfirst
    · exact hfirst
    · exact hfirst.trans (ih (fun x hx => h x (List.mem_cons_of_mem trial hx)) d')

theorem blames_ofReading {α : Type} {reading : Reading α} {lower : α → Draft → Draft}
    (hr : ls = [] → reading = .other) (hl : ∀ value d, (lower value d).diagnostics = d.diagnostics) :
    (ofReading ls reading lower).Blames ls := by
  intro d
  cases reading with
  | other => exact .refl d
  | wrong cause =>
    refine blames_complain (fun hnil => ?_) d cause
    cases hr hnil
  | form value => exact .of_eq (hl value d)

theorem blames_declaration (ls : List Lexeme) : (declaration ls).Blames ls :=
  blames_ofReading (by rintro rfl; rfl) diagnostics_lowerDeclaration

theorem blames_constantDefinition (ls : List Lexeme) : (constantDefinition ls).Blames ls := by
  intro d
  unfold constantDefinition
  split
  · exact .of_eq (d.diagnostics_emitExpr ls)
  · exact .refl d

theorem blames_assignment (ls : List Lexeme) : (assignment ls).Blames ls :=
  blames_ofReading (by rintro rfl; rfl) fun _ d => d.diagnostics_emitExpr ls

theorem blames_conditional (ls : List Lexeme) : (conditional ls).Blames ls :=
  blames_ofReading (by rintro rfl; rfl) diagnostics_lowerConditional

theorem blames_goto (ls : List Lexeme) : (goto ls).Blames ls :=
  blames_ofReading (by rintro rfl; rfl) diagnostics_lowerGoto

theorem blames_label (ls : List Lexeme) : (label ls).Blames ls :=
  blames_ofReading (by rintro rfl; rfl) diagnostics_lowerLabel

section
variable {header : List Lexeme} (hne : header ≠ []) (body : Code) (endRow : Nat)
include hne

theorem blames_whileLoop : (whileLoop header body endRow).Blames header := by
  intro d
  unfold whileLoop
  by_cases hc : isCondition (header.drop 1)
  · rw [if_pos hc]
    exact .of_eq (diagnostics_emitExpr _ _)
  · rw [if_neg hc]
    exact blames_complain hne d _

theorem blames_forLoop : (forLoop header body endRow).Blames header := by
  intro d
  unfold forLoop
  split
  · exact blames_complain hne d _
  split
  · exact blames_complain hne d _
  rename_i cut hcut
  split
  · have hwithin : cut.before.drop 1 <:+: header := by
      rw [← append_of_mem_cuts (mem_cuts_of_cutBefore? hcut).1]
      exact (List.drop_suffix 1 _).isInfix.trans (List.prefix_append _ _).isInfix
    have hinit : (firstOf [declaration (cut.before.drop 1), assignment (cut.before.drop 1)]).Blames
        header := by
      refine blames_firstOf fun trial hm => ?_
      rcases List.mem_pair.1 hm with rfl | rfl
      · exact (blames_declaration _).mono hwithin
      · exact (blames_assignment _).mono hwithin
    have hstart := hinit d
    simp only
    split <;> rename_i d₁ hd₁ <;> rw [hd₁] at hstart
    · exact hstart.trans (blames_complain hne d₁ _)
    split
    · exact hstart.trans (blames_complain hne d₁ _)
    rename_i name _
    have hcounter := d₁.diagnostics_resolve name
    split <;> rename_i d₂ hd₂ <;> rw [hd₂] at hcounter
    · exact (hstart.trans (.of_eq hcounter)).trans (blames_complain hne d₂ _)
    · exact hstart.trans (.of_eq ((diagnostics_emitExpr _ _).trans hcounter))
  · exact blames_complain hne d _

end

section
variable {body : List Lexeme → Trial}

theorem blames_loopBody {inside : List Lexeme} (h : (body inside).Blames inside) :
    (loopBody body inside).Blames inside :=
  fun d => h { d with depth := d.depth + 1 }

theorem blames_seekBody {cs : List Cut}
    (hcs : ∀ c ∈ cs, ∀ inside, insideBody? c.suffix = some inside → inside <:+: ls)
    (h : ∀ c ∈ cs, ∀ inside, insideBody? c.suffix = some inside → (body inside).Blames inside)
    (d : Draft) : d.Blames ls (seekBody body cs d).1 := by
  induction cs generalizing d with
  | nil => exact .refl d
  | cons c cs ih =>
    have hrest := ih (fun c' hc' => hcs c' (List.mem_cons_of_mem c hc'))
      (fun c' hc' => h c' (List.mem_cons_of_mem c hc'))
    unfold seekBody
    split
    · exact hrest d
    · rename_i inside hi
      have hinside := hcs c List.mem_cons_self inside hi
      have hbody := ((blames_loopBody (h c List.mem_cons_self inside hi)).mono hinside).attempt d
      split <;> rename_i d' hd <;> rw [hd] at hbody
      · exact hbody
      · exact hbody.trans (hrest d')

theorem infix_of_insideBody? {c : Cut} {inside : List Lexeme} (hc : c ∈ cuts ls)
    (hi : insideBody? c.suffix = some inside) : inside <:+: ls := by
  obtain ⟨o, e, -, -, hs⟩ := insideBody?_eq_some_iff.1 hi
  refine ⟨c.before ++ [c.pivot, o], [e], ?_⟩
  rw [← append_of_mem_cuts hc, hs]
  simp

theorem blames_loop (h : ∀ inside, inside.length < ls.length → (body inside).Blames inside) :
    (loop body ls).Blames ls := by
  intro d
  unfold loop
  split
  · rename_i word hword
    have hne : ls ≠ [] := by
      rintro rfl
      cases hword
    have hseek := blames_seekBody (fun c hc inside hi => infix_of_insideBody? hc hi)
      (fun c hc inside hi => h inside (length_lt_of_insideBody? hc hi)) d
    split
    · split
      · rename_i d' hd
        rw [hd] at hseek
        exact hseek.trans (blames_complain hne d' _)
      · rename_i d' cut hd
        -- the complaints about bodies are dropped before the header is read
        have hcut : cut ∈ cuts ls := mem_of_seekBody (congrArg Prod.snd hd)
        have hheader : cut.before ++ [cut.pivot] <:+: ls := by
          refine ⟨[], cut.suffix, ?_⟩
          rw [← append_of_mem_cuts hcut]
          simp
        have hheader_ne : cut.before ++ [cut.pivot] ≠ [] := by simp
        split
        · exact ((blames_whileLoop hheader_ne _ _).mono hheader) _
        · exact ((blames_forLoop hheader_ne _ _).mono hheader) _
    · exact .refl d
  · exact .refl d

theorem blames_statement (h : ∀ inside, inside.length < ls.length → (body inside).Blames inside) :
    (statement body ls).Blames ls := by
  refine blames_firstOf ?_
  simp only [List.forall_mem_cons]
  exact ⟨blames_declaration ls, blames_constantDefinition ls, blames_assignment ls, blames_loop h,
    blames_conditional ls, blames_goto ls, blames_label ls, by simp⟩

end

theorem forall_diagnostics_statementRuns {p : Diagnostic → Prop} (hls : ∀ x : Diagnostic, x.About ls → p x)
    {stmt : List Lexeme → Trial} (hs : ∀ block, block <:+: ls → (stmt block).Blames block)
    {runs : List (List Lexeme)} {pending : Option (List Lexeme × List Diagnostic)}
    (hwithin : pending.elim [] Prod.fst ++ runs.flatten <:+: ls)
    (hpending : ∀ q ∈ pending, ∀ x ∈ q.2, p x) {d : Draft} (hd : ∀ x ∈ d.diagnostics, p x) :
    ∀ x ∈ (statementRuns stmt runs pending d).1.diagnostics, p x := by
  induction runs generalizing pending d with
  | nil => exact hd
  | cons run runs ih =>
    have hclean : ∀ x ∈ (if d.depth = 0 then { d with diagnostics := [] } else d).diagnostics, p x := by
      split
      · simp
      · exact hd
    unfold statementRuns
    generalize (if d.depth = 0 then { d with diagnostics := [] } else d) = d at hclean
    obtain ⟨front, earlier, hpair, hfront, hearlier⟩ : ∃ front earlier,
        pending.getD ([], d.diagnostics) = (front, earlier) ∧ pending.elim [] Prod.fst = front ∧
          ∀ x ∈ earlier, p x := by
      cases pending with
      | none => exact ⟨[], d.diagnostics, rfl, rfl, hclean⟩
      | some q => exact ⟨q.1, q.2, rfl, rfl, hpending q rfl⟩
    rw [hfront, List.flatten_cons, ← List.append_assoc] at hwithin
    have hblock : front ++ run <:+: ls := (List.prefix_append _ _).isInfix.trans hwithin
    have hstmt : ∀ x ∈ (stmt (front ++ run) d).1.diagnostics, p x := by
      intro x hx
      rcases (hs _ hblock).mono hblock d x hx with hx | hx
      · exact hclean x hx
      · exact hls x hx
    simp only [hpair]
    split <;> rename_i d' hd' <;> rw [hd'] at hstmt
    · have hrest : (none : Option (List Lexeme × List Diagnostic)).elim [] Prod.fst ++ runs.flatten
          <:+: ls := (List.suffix_append _ _).isInfix.trans hwithin
      exact ih hrest (by simp) hearlier
    · have hrest : (some (front ++ run, earlier)).elim [] Prod.fst ++ runs.flatten <:+: ls := hwithin
      refine ih hrest ?_ hstmt
      rintro q ⟨⟩
      exact hearlier

theorem blames_listed (ls : List Lexeme) : (listed ls).Blames ls := by
  induction hn : ls.length using Nat.strong_induction_on generalizing ls with
  | _ n ih =>
    subst hn
    intro d
    by_cases hnil : ls = []
    · subst hnil
      rw [listed, statementList_eq]
      exact .refl d
    · rw [listed_eq hnil]
      refine forall_diagnostics_statementRuns (fun x hx => Or.inr hx) (fun block hblock => ?_) ?_
        (by simp) fun x hx => Or.inl hx
      · exact blames_statement fun inside hlt => ih inside.length (hlt.trans_le hblock.length_le) inside rfl
      · rw [Option.elim_none, List.nil_append, rowRuns, List.flatten_splitBy]

theorem ne_nil_of_statementRuns {stmt : List Lexeme → Trial} {runs : List (List Lexeme)}
    {pending : Option (List Lexeme × List Diagnostic)} {d : Draft} {left : List Lexeme}
    (hruns : [] ∉ runs) (hpending : ∀ q ∈ pending, q.1 ≠ [])
    (h : (statementRuns stmt runs pending d).2 = some left) : left ≠ [] := by
  induction runs generalizing pending d with
  | nil =>
    obtain ⟨q, hq, rfl⟩ := Option.map_eq_some_iff.1 h
    exact hpending q hq
  | cons run runs ih =>
    rw [List.mem_cons, not_or] at hruns
    unfold statementRuns at h
    simp only at h
    split at h
    · exact ih hruns.2 (by simp) h
    · refine ih hruns.2 ?_ h
      rintro q ⟨⟩
      simp [Ne.symm hruns.1]

end
end Trial

theorem Diagnostic.mem_of_deepest? {ds : List Diagnostic} {x : Diagnostic}
    (h : deepest? ds = some x) : x ∈ ds := by
  induction ds generalizing x with
  | nil => cases h
  | cons d ds ih =>
    rw [deepest?] at h
    split at h
    · cases h
      exact List.mem_cons_self
    · rename_i e he
      obtain rfl := Option.some.inj h
      split
      · exact List.mem_cons_self
      · exact List.mem_cons_of_mem d (ih he)

theorem ne_nil_of_parse_error {ls : List Lexeme} {t : Tables} {x : Diagnostic}
    (h : parse ls t = .error ⟨some x⟩) : x.lexemes ≠ [] := by
  rw [parse] at h
  split at h
  · cases h
  · rename_i hnil
    have hblames := Trial.blames_listed ls { tables := t }
    split at h
    · cases h
    · rename_i d left hd
      have hleft : left ≠ [] := by
        rw [Trial.statementList_eq, if_neg hnil] at hd
        exact Trial.ne_nil_of_statementRuns (List.nil_notMem_splitBy _ _) (by simp)
          (congrArg Prod.snd hd)
      rw [Trial.listed, hd] at hblames
      obtain rfl : (Diagnostic.deepest? d.diagnostics).getD ⟨.statement, none, left, 0⟩ = x := by
        simpa using h
      cases hx : Diagnostic.deepest? d.diagnostics with
      | none => exact hleft
      | some x =>
        rcases hblames x (Diagnostic.mem_of_deepest? hx) with hmem | habout
        · simp at hmem
        · exact habout.lexemes

end RowLang
