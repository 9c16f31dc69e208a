import Mathlib
import RowLang.Lexeme.Source
import RowLang.Proofs.Statement.Blame
import RowLang.Proofs.Statement.Tree

/-! Where parsing stops. The rows of lexemes that are no list of statements come apart in one way: blocks
that are accepted, and rows no front of which is a statement. Whatever is reported is about the second
part, since the diagnostics of what came before are gone by then. -/

namespace RowLang

/-- Runs of rows come apart into blocks that are statements and runs that no statement begins. -/
structure Stalls (isStatement : List Lexeme → Prop) (runs done left : List (List Lexeme)) : Prop where
  runs_eq : runs = done ++ left
  accepted : Blocks isStatement done
  stuck : ∀ front, front <+: left → ¬ isStatement front.flatten

section
variable {isStatement : List Lexeme → Prop} {runs done left : List (List Lexeme)}

theorem Stalls.of_append {block : List (List Lexeme)} (hs : isStatement block.flatten)
    (hm : ∀ front, front <+: block → front ≠ block → ¬ isStatement front.flatten)
    (h : Stalls isStatement (block ++ runs) done left) :
    ∃ done', done = block ++ done' ∧ Stalls isStatement runs done' left := by
  obtain ⟨heq, hdone, hstuck⟩ := h
  cases hdone with
  | nil => exact absurd hs (hstuck block ⟨runs, heq⟩)
  | @cons block' done' hs' hm' hdone' =>
    have hpre : block <+: block ++ runs := List.prefix_append block runs
    have hpre' : block' <+: block ++ runs := ⟨done' ++ left, by rw [heq, List.append_assoc]⟩
    have hblock : block' = block := by
      by_contra hdiff
      rcases List.prefix_or_prefix_of_prefix hpre' hpre with hp | hp
      · exact hm block' hp hdiff hs'
      · exact hm' block hp (Ne.symm hdiff) hs
    subst hblock
    rw [List.append_assoc] at heq
    exact ⟨done', rfl, List.append_cancel_left heq, hdone', hstuck⟩

theorem Stalls.unique {done' left' : List (List Lexeme)} (h : Stalls isStatement runs done left)
    (h' : Stalls isStatement runs done' left') : done' = done ∧ left' = left := by
  obtain ⟨rfl, hdone, hstuck⟩ := h
  induction hdone generalizing done' with
  | nil =>
    have hnil : done' = [] := by
      refine h'.accepted.eq_nil fun front hp => hstuck front ?_
      exact hp.trans ⟨left', h'.runs_eq.symm⟩
    refine ⟨hnil, ?_⟩
    have heq := h'.runs_eq
    rw [hnil] at heq
    exact heq.symm
  | cons hs hm _ ih =>
    rw [List.append_assoc] at h'
    obtain ⟨rest, rfl, hrest⟩ := h'.of_append hs hm
    obtain ⟨rfl, hleft⟩ := ih hrest
    exact ⟨rfl, hleft⟩

end

theorem Draft.progress_depth : Progress (fun _ => True) fun d d' => d'.depth = d.depth where
  refl _ := rfl
  trans h h' := h'.trans h
  emit _ _ := rfl
  resolve d l _ := by
    unfold Draft.resolve
    split <;> rfl
  setType d index type := by
    unfold Draft.setType
    split <;> rfl
  pushMark _ := rfl
  internValue _ _ := rfl
  diagnostics _ _ := rfl
  nested _ := rfl
  withdrawn h := h
  rollback h := h

namespace Trial

theorem depth_statement (ls : List Lexeme) (d : Draft) : (statement listed ls d).1.depth = d.depth :=
  follows_firstOf Draft.progress_depth
    (follows_alternatives Draft.progress_depth
      (fun _ hi => follows_listed Draft.progress_depth hi) fun _ _ => trivial) d

theorem exists_stalls_of_statementRuns {stmt : List Lexeme → Trial} {isStatement : List Lexeme → Prop}
    (hs : ∀ ls, (stmt ls).Decides (isStatement ls)) (hblames : ∀ ls, (stmt ls).Blames ls)
    (hdepth : ∀ ls d, (stmt ls d).1.depth = d.depth) (runs front : List (List Lexeme))
    (earlier : List Diagnostic) {d d' : Draft} {pending : List Lexeme}
    (h : statementRuns stmt runs (if front = [] then none else some (front.flatten, earlier)) d =
      (d', some pending))
    (hno : ∀ shorter, shorter <+: front → ¬ isStatement shorter.flatten) (hd : d.depth = 0)
    (hfront : front ≠ [] → ∀ x ∈ d.diagnostics, x.About front.flatten) :
    ∃ done left, Stalls isStatement (front ++ runs) done left ∧ pending = left.flatten ∧
      ∀ x ∈ d'.diagnostics, x.About pending := by
  induction runs generalizing front earlier d with
  | nil =>
    by_cases hf : front = []
    · simp [hf, statementRuns] at h
    · rw [if_neg hf, statementRuns] at h
      cases h
      exact ⟨[], front, ⟨by simp, .nil, hno⟩, rfl, hfront hf⟩
  | cons run runs ih =>
    have hpending : ∀ ds : List Diagnostic, ((if front = [] then none else
        some (front.flatten, earlier) : Option (List Lexeme × List Diagnostic)).getD ([], ds)).1 =
          front.flatten := by
      intro ds
      split <;> simp [*]
    have happ : front ++ run :: runs = (front ++ [run]) ++ runs := by simp
    have hflat : front.flatten ++ run = (front ++ [run]).flatten := by simp
    have hshorter : ∀ shorter, shorter <+: front ++ [run] → shorter ≠ front ++ [run] →
        ¬ isStatement shorter.flatten := by
      intro shorter hp hne
      exact hno shorter ((List.prefix_concat_iff.1 hp).resolve_left hne)
    unfold statementRuns at h
    simp only [if_pos hd, hpending, hflat] at h
    have habout := hblames (front ++ [run]).flatten { d with diagnostics := [] }
    have hlevel := hdepth (front ++ [run]).flatten { d with diagnostics := [] }
    have hdecides := hs (front ++ [run]).flatten { d with diagnostics := [] }
    rw [happ]
    split at h <;> rename_i d₁ hd₁ <;> rw [hd₁] at habout hlevel hdecides
    · -- the first block ends with this row, and nothing is pending after it
      have hst : isStatement (front ++ [run]).flatten := hdecides.1 rfl
      have hnil : ∀ shorter, shorter <+: [] → ¬ isStatement shorter.flatten := by
        intro shorter hp
        rw [List.prefix_nil.1 hp]
        exact hno [] List.nil_prefix
      obtain ⟨done, left, ⟨rfl, hdone, hstuck⟩, hp, hx⟩ := ih [] [] h hnil (hlevel.trans hd)
        fun hne => absurd rfl hne
      exact ⟨(front ++ [run]) ++ done, left, ⟨by simp, .cons hst hshorter hdone, hstuck⟩, hp, hx⟩
    · -- this row is pending too, and only it and the rows pending with it were complained about
      have hst : ¬ isStatement (front ++ [run]).flatten := fun hst => Bool.false_ne_true (hdecides.2 hst)
      have hall : ∀ shorter, shorter <+: front ++ [run] → ¬ isStatement shorter.flatten := by
        intro shorter hp
        by_cases he : shorter = front ++ [run]
        · rw [he]
          exact hst
        · exact hshorter shorter hp he
      refine ih (front ++ [run]) _ (by rwa [if_neg (by simp)]) hall (hlevel.trans hd) ?_
      exact fun _ x hx => (habout x hx).resolve_left List.not_mem_nil

end Trial

theorem exists_parse_of_isList {ls : List Lexeme} (h : IsList ls) (t : Tables) :
    ∃ program, parse ls t = .ok program := by
  have haccepts := (Trial.decides_listed ls { tables := t }).2 h
  rw [Trial.listed, Option.isNone_iff_eq_none] at haccepts
  rw [parse, if_neg (isList_iff.1 h).1]
  cases hd : Trial.statementList ls { tables := t } with
  | mk d pending =>
    rw [hd] at haccepts
    obtain rfl : pending = none := haccepts
    exact ⟨_, rfl⟩

theorem Stalls.eq_nil_or_isList {ls : List Lexeme} {done left : List (List Lexeme)}
    (h : Stalls IsStatement (rowRuns ls) done left) : done.flatten = [] ∨ IsList done.flatten := by
  obtain ⟨hruns, -, -⟩ := rowRuns_eq_append h.runs_eq
  by_cases hnil : done.flatten = []
  · exact Or.inl hnil
  · refine Or.inr (isList_iff.2 ⟨hnil, ?_⟩)
    rw [hruns]
    exact h.accepted

theorem exists_stalls_of_parse_error {ls : List Lexeme} {t : Tables} {error : SyntaxError}
    (hne : ls ≠ []) (h : parse ls t = .error error) :
    ∃ done left x, Stalls IsStatement (rowRuns ls) done left ∧ left.flatten ≠ [] ∧
      error.diagnostic = some x ∧ (x.About left.flatten ∨ x = ⟨.statement, none, left.flatten, 0⟩) := by
  rw [parse, if_neg hne] at h
  split at h
  · cases h
  · rename_i d pending hd
    cases h
    rw [Trial.statementList_eq, if_neg hne] at hd
    have hpending : pending ≠ [] := Trial.ne_nil_of_statementRuns (List.nil_notMem_splitBy _ _)
      (by simp) (congrArg Prod.snd hd)
    have hnil : ∀ shorter, shorter <+: [] → ¬ IsStatement shorter.flatten := by
      intro shorter hp
      rw [List.prefix_nil.1 hp]
      exact Trial.not_isStatementOver_nil IsList
    obtain ⟨done, left, hstalls, rfl, habout⟩ := Trial.exists_stalls_of_statementRuns
      Trial.decides_statement_listed
      (fun block => Trial.blames_statement fun inside _ => Trial.blames_listed inside)
      Trial.depth_statement _ [] [] hd hnil rfl fun hne => absurd rfl hne
    refine ⟨done, left, _, hstalls, hpending, rfl, ?_⟩
    cases hx : Diagnostic.deepest? d.diagnostics with
    | none => exact Or.inr rfl
    | some x => exact Or.inl (habout x (Diagnostic.mem_of_deepest? hx))

/-- A rejected list of lexemes comes apart in exactly one way into accepted statements and a part that no
statement begins. What is before that part is empty or accepted on its own, over any tables. The
diagnostic is about lexemes of that part, in one piece, and has the row of the first of them; it names
no particular rule only when it is about the whole part, outside of any loop and without a detail. -/
theorem parse_error_blames_pending {ls : List Lexeme} {t : Tables} {error : SyntaxError}
    (hne : ls ≠ []) (h : parse ls t = .error error) :
    ∃ done left, Stalls IsStatement (rowRuns ls) done left ∧
      (∀ done' left', Stalls IsStatement (rowRuns ls) done' left' → done' = done ∧ left' = left) ∧
      ls = done.flatten ++ left.flatten ∧
      (done.flatten = [] ∨ ∀ t', ∃ program, parse done.flatten t' = .ok program) ∧
      ∃ x first rest, error.diagnostic = some x ∧ x.lexemes = first :: rest ∧
        x.lexemes <:+: left.flatten ∧ x.row = first.row ∧
        (x.rule = .statement → x.lexemes = left.flatten ∧ x.depth = 0 ∧ x.detail = none) := by
  obtain ⟨done, left, x, hstalls, hleft, hx, hpart⟩ := exists_stalls_of_parse_error hne h
  have hlexemes : x.lexemes ≠ [] ∧ x.lexemes <:+: left.flatten := by
    rcases hpart with habout | rfl
    · exact ⟨habout.lexemes, habout.within⟩
    · exact ⟨hleft, List.infix_rfl⟩
  obtain ⟨first, rest, hfirst⟩ := List.exists_cons_of_ne_nil hlexemes.1
  refine ⟨done, left, hstalls, fun done' left' h' => hstalls.unique h',
    (rowRuns_eq_append hstalls.runs_eq).2.2, ?_, x, first, rest, hx, hfirst, hlexemes.2, ?_, ?_⟩
  · exact hstalls.eq_nil_or_isList.imp_right exists_parse_of_isList
  · rw [Diagnostic.row, hfirst]
    rfl
  · intro hrule
    rcases hpart with habout | rfl
    · exact absurd hrule habout.rule
    · exact ⟨rfl, rfl, rfl⟩

/-- The body of the loop is wrong, on row 3; the row before the loop is accepted. -/
theorem parse_error_blames_loop_body : ∃ ls error,
    ls = (lex "val a = 1\nwhile a < 2 do\nval b\nend").lexemes ∧ ls ≠ [] ∧
    parse ls {} = .error error ∧ error.diagnostic.map Diagnostic.row = some 3 ∧
    ∃ done left, Stalls IsStatement (rowRuns ls) done left ∧
      (∀ done' left', Stalls IsStatement (rowRuns ls) done' left' → done' = done ∧ left' = left) ∧
      ls = done.flatten ++ left.flatten ∧
      (done.flatten = [] ∨ ∀ t', ∃ program, parse done.flatten t' = .ok program) ∧
      ∃ x first rest, error.diagnostic = some x ∧ x.lexemes = first :: rest ∧
        x.lexemes <:+: left.flatten ∧ x.row = first.row ∧
        (x.rule = .statement → x.lexemes = left.flatten ∧ x.depth = 0 ∧ x.detail = none) := by
  set ls := (lex "val a = 1\nwhile a < 2 do\nval b\nend").lexemes with hls
  have hne : ls ≠ [] := by decide +kernel
  have hfails : ((parse ls {}).map Program.code).mapError
      (fun error => error.diagnostic.map Diagnostic.row) = .error (some 3) := by
    decide +kernel
  cases hparse : parse ls {} with
  | ok program =>
    rw [hparse] at hfails
    cases hfails
  | error error =>
    rw [hparse] at hfails
    exact ⟨ls, error, hls, hne, hparse, Except.error.inj hfails, parse_error_blames_pending hne hparse⟩

end RowLang
