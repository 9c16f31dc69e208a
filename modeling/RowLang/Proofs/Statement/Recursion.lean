import Mathlib
import RowLang.Proofs.Statement.Grammar

/-! The recursion of the parser without its measure. Bodies of loops are shorter than the lexemes
that are tried, so reading a body may as well read any list of statements. -/

namespace RowLang.Trial

def listed (inside : List Lexeme) : Trial := fun d =>
  ((statementList inside d).1, (statementList inside d).2.isNone)

theorem insideBody?_eq_some_iff {ls inside : List Lexeme} :
    insideBody? ls = some inside ↔
      ∃ o c, o.kind = .loop .doWord ∧ c.kind = .loop .endWord ∧ ls = o :: (inside ++ [c]) := by
  constructor
  · intro h
    cases ls with
    | nil => simp [insideBody?] at h
    | cons o rest =>
      simp only [insideBody?] at h
      split at h
      · rename_i hk
        obtain ⟨ho, hl⟩ := hk
        obtain ⟨c, hr, hc⟩ := Option.map_eq_some_iff.1 hl
        obtain ⟨init, rfl⟩ := List.getLast?_eq_some_iff.1 hr
        cases h
        exact ⟨o, c, ho, hc, by simp⟩
      · simp at h
  · rintro ⟨o, c, ho, hc, rfl⟩
    simp [insideBody?, ho, hc]

theorem length_lt_of_insideBody? {lexemes inside : List Lexeme} {c : Cut} (hc : c ∈ cuts lexemes)
    (hi : insideBody? c.suffix = some inside) : inside.length < lexemes.length := by
  have hlen := length_of_mem_cuts hc
  obtain ⟨o, e, -, -, hs⟩ := insideBody?_eq_some_iff.1 hi
  have hs := congrArg List.length hs
  simp only [List.length_cons, List.length_append] at hs
  omega

theorem seekBody_congr {body body' : List Lexeme → Trial} {cs : List Cut} (d : Draft)
    (h : ∀ c ∈ cs, ∀ inside, insideBody? c.suffix = some inside → body inside = body' inside) :
    seekBody body cs d = seekBody body' cs d := by
  induction cs generalizing d with
  | nil => rfl
  | cons c cs ih =>
    have hrest := fun d => ih d fun c' hc' => h c' (List.mem_cons_of_mem c hc')
    unfold seekBody
    cases hi : insideBody? c.suffix with
    | none => exact hrest d
    | some inside =>
      have hb : loopBody body inside = loopBody body' inside := by
        unfold loopBody
        rw [h c List.mem_cons_self inside hi]
      simp only [hb, hrest]

theorem loop_congr {body body' : List Lexeme → Trial} {lexemes : List Lexeme}
    (h : ∀ inside : List Lexeme, inside.length < lexemes.length → body inside = body' inside) :
    loop body lexemes = loop body' lexemes := by
  funext d
  have hseek : seekBody body (cuts lexemes) d = seekBody body' (cuts lexemes) d :=
    seekBody_congr d fun c hc inside hi => h inside (length_lt_of_insideBody? hc hi)
  unfold loop
  rw [hseek]

theorem statement_congr {body body' : List Lexeme → Trial} {lexemes : List Lexeme}
    (h : ∀ inside : List Lexeme, inside.length < lexemes.length → body inside = body' inside) :
    statement body lexemes = statement body' lexemes := by
  unfold statement
  rw [loop_congr h]

theorem statementRuns_congr {stmt stmt' : List Lexeme → Trial} {runs : List (List Lexeme)}
    {pending : Option (List Lexeme × List Diagnostic)} {n : Nat} (d : Draft)
    (hn : (pending.elim 0 fun p => p.1.length) + runs.flatten.length ≤ n)
    (h : ∀ ls : List Lexeme, ls.length ≤ n → stmt ls = stmt' ls) :
    statementRuns stmt runs pending d = statementRuns stmt' runs pending d := by
  induction runs generalizing pending d with
  | nil => rfl
  | cons run runs ih =>
    rw [List.flatten_cons, List.length_append] at hn
    have hfront : ∀ d : Draft, (pending.getD ([], d.diagnostics)).1.length ≤
        pending.elim 0 fun p => p.1.length := by
      intro d
      cases pending <;> simp
    unfold statementRuns
    have hs := fun d : Draft => h ((pending.getD ([], d.diagnostics)).1 ++ run) (by
      have := hfront d
      rw [List.length_append]
      omega)
    simp only [hs]
    split
    · exact ih _ (by rw [Option.elim_none]; omega)
    · refine ih _ ?_
      have := hfront (if d.depth = 0 then { d with diagnostics := [] } else d)
      simp only [Option.elim_some, List.length_append]
      omega

theorem statementList_eq (lexemes : List Lexeme) (d : Draft) :
    statementList lexemes d =
      if lexemes = [] then (d, some [])
      else statementRuns (statement listed) (rowRuns lexemes) none d := by
  rw [statementList]
  split
  · rfl
  · refine statementRuns_congr (n := lexemes.length) d (by simp [rowRuns]) ?_
    intro ls hls
    refine statement_congr fun inside hi => ?_
    funext d
    rw [if_pos (by omega)]
    rfl

theorem listed_eq {lexemes : List Lexeme} (h : lexemes ≠ []) (d : Draft) :
    listed lexemes d =
      ((statementRuns (statement listed) (rowRuns lexemes) none d).1,
        (statementRuns (statement listed) (rowRuns lexemes) none d).2.isNone) := by
  rw [listed, statementList_eq, if_neg h]

end RowLang.Trial
