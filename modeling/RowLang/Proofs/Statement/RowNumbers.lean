import Mathlib
import RowLang.Pipeline
import RowLang.Proofs.Lexeme.Reprint
import RowLang.Proofs.Machine.Edits
import RowLang.Proofs.Machine.Runs
import RowLang.Proofs.Statement.Blame
import RowLang.Proofs.Statement.Parallel
import RowLang.Proofs.Statement.Refinement

/-! Row numbers matter only in so far as they are equal or not. Renumbered lexemes give the renumbered
program or the renumbered error. Blank rows have no lexemes, so where they stand decides the numbers of
the other rows and nothing else, up to the end of the run. -/

namespace RowLang

def Record.renumber (f : Nat → Nat) (r : Record) : Record := { r with row := f r.row }

def Program.renumber (f : Nat → Nat) (p : Program) : Program :=
  { p with code := p.code.map (Record.renumber f) }

def Unidentified.renumber (f : Nat → Nat) (u : Unidentified) : Unidentified := { u with row := f u.row }

def Compiled.renumber (f : Nat → Nat) (c : Compiled) : Compiled :=
  ⟨renumbered f c.lexemes, c.unidentified.map (Unidentified.renumber f), c.program.renumber f⟩

def Finished.renumber (f : Nat → Nat) (x : Finished) : Finished :=
  { x with compiled := x.compiled.renumber f }

def Failure.renumber (f : Nat → Nat) : Failure → Failure
  | read error => read error
  | lex unidentified => lex (unidentified.map (Unidentified.renumber f))
  | syntactic error => syntactic (error.renumber f)
  | runtime error => runtime { error with row := error.row.map f }

def shownRows (source : String) : List (List Char × Nat) :=
  ((sourceRows source).zipIdx 1).filter fun p => !Text.allBlank p.1

section
variable {f : Nat → Nat}

theorem Record.Alike.eq_renumber {r r' : Record} (h : r.Alike f True r') : r' = r.renumber f := by
  obtain ⟨row, instr⟩ := r
  obtain ⟨row', instr'⟩ := r'
  obtain ⟨hrow, hinstr⟩ := h
  have hsame : instr' = instr := by
    cases hinstr with
    | constant h | identifier h => rw [h trivial]
    | apply op => rfl
  rw [Record.renumber]
  exact congrArg₂ Record.mk hrow hsame

theorem Code.Alike.eq_renumber {code code' : Code} (h : Code.Alike f True code code') :
    code' = code.map (Record.renumber f) := by
  induction h with
  | nil => rfl
  | cons hr _ ih => rw [List.map_cons, hr.eq_renumber, ih]

theorem parse_renumbered_eq {rows : Set Nat} (hf : Set.InjOn f rows) {ls : List Lexeme}
    (h : ∀ l ∈ ls, l.row ∈ rows) (t : Tables) : parse (renumbered f ls) t =
      ((parse ls t).map (Program.renumber f)).mapError (SyntaxError.renumber f) := by
  rcases parallel_parse hf h (fun _ : True => (rfl : t = t)) (fun hn => absurd trivial hn) with
    ⟨error, herror, herror'⟩ | ⟨p, p', hp, hp', hcode, htables⟩
  · rw [herror, herror']
    rfl
  · have hprogram : p' = p.renumber f := by
      obtain ⟨code, tables⟩ := p
      obtain ⟨code', tables'⟩ := p'
      exact congrArg₂ Program.mk hcode.eq_renumber (htables trivial)
    rw [hp, hp', hprogram]
    rfl

theorem row_renumber {x : Diagnostic} (h : x.lexemes ≠ []) : (x.renumber f).row = f x.row :=
  Trial.firstRow_renumbered h

section
variable (f)

theorem internLexeme_renumber (t : Tables) (l : Lexeme) :
    t.internLexeme (l.renumber f) = t.internLexeme l := rfl

theorem link_renumbered (t : Tables) (ls : List Lexeme) :
    t.link (renumbered f ls) = ((t.link ls).1, renumbered f (t.link ls).2) := by
  induction ls generalizing t with
  | nil => rfl
  | cons l ls ih =>
    have hrest := ih (t.internLexeme l).1
    rw [renumbered] at hrest
    rw [renumbered, List.map_cons, Tables.link, internLexeme_renumber, Tables.link]
    simp only [hrest]
    rfl

end

theorem ofRow_of_allBlank {line : List Char} (h : Text.allBlank line) : Segment.ofRow line = [] := by
  refine List.filter_eq_nil_iff.2 fun piece hpiece => ?_
  have hblank : Text.allBlank piece := by
    refine List.all_eq_true.2 fun c hc => List.all_eq_true.1 h c ?_
    rw [← Segment.flatten_pieces line]
    exact List.mem_flatten_of_mem hpiece hc
  simp [hblank]

def renumberItem (f : Nat → Nat) (item : Except Unidentified Lexeme) : Except Unidentified Lexeme :=
  (item.map (Lexeme.renumber f)).mapError (Unidentified.renumber f)

theorem identify_renumber (row : Nat) (segment : List Char) :
    identify (f row) segment = renumberItem f (identify row segment) := by
  unfold identify
  split <;> rfl

theorem scan_eq_shownRows (source : String) :
    scan source = (shownRows source).flatMap fun p => (Segment.ofRow p.1).map (identify p.2) := by
  rw [scan, shownRows]
  generalize (sourceRows source).zipIdx 1 = rows
  induction rows with
  | nil => rfl
  | cons p rows ih =>
    obtain ⟨line, row⟩ := p
    rw [List.flatMap_cons, ih]
    by_cases hblank : Text.allBlank line
    · rw [List.filter_cons_of_neg (by simp [hblank])]
      simp only [ofRow_of_allBlank hblank, List.map_nil, List.nil_append]
    · rw [List.filter_cons_of_pos (by simp [hblank]), List.flatMap_cons]

theorem row_mem_shownRows (source : String) :
    ∀ l ∈ (lex source).lexemes, ∃ p ∈ shownRows source, p.2 = l.row := by
  intro l hl
  have hrow := List.mem_map_of_mem (f := Lexeme.row) hl
  rw [lexemes_lex, rows_link, List.mem_map] at hrow
  obtain ⟨l', hl', hrow⟩ := hrow
  obtain ⟨p, hp, hl'⟩ := List.mem_flatMap.1 hl'
  obtain ⟨hnumber, hsegment, -⟩ := mem_rowLexemes.1 hl'
  have hshown : Text.allBlank p.1 = false := by
    by_contra hblank
    rw [ofRow_of_allBlank (by simpa using hblank)] at hsegment
    cases hsegment
  exact ⟨p, List.mem_filter.2 ⟨hp, by simp [hshown]⟩, hnumber.symm.trans hrow⟩

section
variable {source source' : String}
  (hf : (shownRows source).map (fun p => (p.1, f p.2)) = shownRows source')
include hf

theorem scan_renumbered : scan source' = (scan source).map (renumberItem f) := by
  rw [scan_eq_shownRows, scan_eq_shownRows, ← hf, List.flatMap_map, List.map_flatMap]
  congr 1
  funext p
  rw [List.map_map]
  exact List.map_congr_left fun segment _ => identify_renumber p.2 segment

theorem lex_renumbered : lex source' =
    ⟨renumbered f (lex source).lexemes, (lex source).tables,
      (lex source).unidentified.map (Unidentified.renumber f)⟩ := by
  have hlexemes : (scan source').filterMap Except.toOption =
      renumbered f ((scan source).filterMap Except.toOption) := by
    rw [scan_renumbered hf, List.filterMap_map, renumbered, List.map_filterMap]
    congr 1
    funext item
    cases item <;> rfl
  unfold lex
  simp only [hlexemes, link_renumbered]
  congr 1
  rw [scan_renumbered hf, List.filterMap_map, List.map_filterMap]
  congr 1
  funext item
  cases item <;> rfl

theorem compile_renumbered (hinj : Set.InjOn f {row | ∃ p ∈ shownRows source, p.2 = row})
    (s : Settings) : s.compile source' =
      ((s.compile source).map (Compiled.renumber f)).mapError (Failure.renumber f) := by
  have hparse := parse_renumbered_eq hinj (row_mem_shownRows source) (lex source).tables
  unfold Settings.compile
  rw [lex_renumbered hf]
  by_cases hstrict : s.strict ∧ (lex source).unidentified ≠ []
  · have hstrict' : s.strict ∧ (lex source).unidentified.map (Unidentified.renumber f) ≠ [] :=
      ⟨hstrict.1, by simpa using hstrict.2⟩
    rw [if_pos hstrict, if_pos hstrict']
    rfl
  · have hstrict' : ¬ (s.strict ∧ (lex source).unidentified.map (Unidentified.renumber f) ≠ []) := by
      simpa using hstrict
    rw [if_neg hstrict, if_neg hstrict', hparse]
    cases parse (lex source).lexemes (lex source).tables <;> rfl

end

namespace Machine

def Status.renumber (f : Nat → Nat) : Status → Status
  | finished => finished
  | failed error => failed { error with row := error.row.map f }
  | running => running

def renumber (f : Nat → Nat) : Machine → Machine := edited (List.map (Record.renumber f)) id

theorem labelEnd?_renumber (mark : Nat) (code : Code) :
    Code.labelEnd? mark (code.map (Record.renumber f)) = code.labelEnd? mark := by
  fun_induction Code.labelEnd? mark code with
  | case1 a b rest h => exact if_pos h
  | case2 a b rest h ih =>
    rw [← ih]
    exact if_neg h
  | case3 code hshort =>
    cases code with
    | nil => rfl
    | cons a code =>
      cases code with
      | nil => rfl
      | cons b rest => exact absurd rfl (hshort a b rest)

theorem advance_renumber (m : Machine) :
    (m.renumber f).advance = (m.advance.1.renumber f, m.advance.2.renumber f) := by
  have hget : (m.renumber f).code[(m.renumber f).cursor]? =
      m.code[m.cursor]?.map (Record.renumber f) := List.getElem?_map ..
  cases hrecord : m.code[m.cursor]? with
  | none =>
    rw [hrecord] at hget
    rw [advance_of_none hrecord, advance_of_none hget]
    rfl
  | some record =>
    rw [hrecord] at hget
    by_cases hlimit : m.limit.any (· ≤ m.steps)
    · rw [advance_of_limit hrecord hlimit, advance_of_limit hget hlimit]
      rfl
    · have hexecute : execute (record.renumber f).instr { m.renumber f with
          cursor := (m.renumber f).cursor + 1, steps := (m.renumber f).steps + 1 } = _ :=
        execute_edited (l := id) labelEnd?_renumber record.instr
          { m with cursor := m.cursor + 1, steps := m.steps + 1 }
      rw [advance_of_some hrecord hlimit, advance_of_some hget hlimit, hexecute]
      cases execute record.instr { m with cursor := m.cursor + 1, steps := m.steps + 1 } <;> rfl

theorem run_renumber (m : Machine) (n : Nat) :
    (m.renumber f).run n = ((m.run n).1.renumber f, (m.run n).2.renumber f) := by
  induction n generalizing m with
  | zero => rfl
  | succ n ih =>
    rw [run, run, advance_renumber]
    obtain ⟨⟨status, m'⟩, hm⟩ : ∃ next, m.advance = next := ⟨_, rfl⟩
    rw [hm]
    cases status with
    | running => exact ih m'
    | finished | failed => rfl

end Machine

theorem execute_renumber (s : Settings) (fuel : Nat) (c : Compiled) :
    s.execute fuel (c.renumber f) = (s.execute fuel c).map fun result =>
      (result.map (Finished.renumber f)).mapError (Failure.renumber f) := by
  have hrun : (s.load (c.renumber f).program).run fuel = _ :=
    Machine.run_renumber (s.load c.program) fuel
  unfold Settings.execute
  rw [hrun]
  obtain ⟨⟨status, m⟩, hm⟩ : ∃ stop, (s.load c.program).run fuel = stop := ⟨_, rfl⟩
  rw [hm]
  cases status <;> rfl

theorem run_renumbered {source source' : String} {s : Settings} (h : s.compile source' =
      ((s.compile source).map (Compiled.renumber f)).mapError (Failure.renumber f)) (fuel : Nat) :
    s.run fuel source' = (s.run fuel source).map fun result =>
      (result.map (Finished.renumber f)).mapError (Failure.renumber f) := by
  unfold Settings.run
  rw [h]
  cases s.compile source with
  | error failure => rfl
  | ok compiled => exact execute_renumber s fuel compiled

end

theorem exists_strictMonoOn {xs ys : List Nat} (hx : xs.Pairwise (· < ·)) (hy : ys.Pairwise (· < ·))
    (h : xs.length = ys.length) : ∃ f : Nat → Nat, StrictMonoOn f {x | x ∈ xs} ∧ xs.map f = ys := by
  induction hx generalizing ys with
  | nil => exact ⟨id, by simp [StrictMonoOn], (List.length_eq_zero_iff.1 h.symm).symm⟩
  | @cons x xs hfirst _ ih =>
    cases hy with
    | nil => cases h
    | @cons y ys hfirst' hy =>
      obtain ⟨f, hmono, hmap⟩ := ih hy (Nat.succ.inj h)
      have hold {a : Nat} (ha : a ∈ xs) : Function.update f x y a = f a :=
        Function.update_of_ne (hfirst a ha).ne' ..
      refine ⟨Function.update f x y, ?_, ?_⟩
      · rintro a (_ | ⟨_, ha⟩) b (_ | ⟨_, hb⟩) hab
        · exact absurd hab (lt_irrefl x)
        · rw [Function.update_self, hold hb]
          exact hfirst' _ (hmap ▸ List.mem_map_of_mem hb)
        · exact absurd (hfirst a ha) hab.asymm
        · rw [hold ha, hold hb]
          exact hmono ha hb hab
      · rw [List.map_cons, Function.update_self, ← hmap]
        exact congrArg _ (List.map_congr_left fun a ha => hold ha)

theorem pairwise_shownRows (source : String) :
    ((shownRows source).map Prod.snd).Pairwise (· < ·) := by
  have hsublist := (List.filter_sublist (l := (sourceRows source).zipIdx 1)
    (p := fun p => !Text.allBlank p.1)).map Prod.snd
  rw [List.zipIdx_map_snd] at hsublist
  exact List.Pairwise.sublist hsublist List.pairwise_lt_range'

theorem map_fst_shownRows (source : String) :
    (shownRows source).map Prod.fst = (sourceRows source).filter fun line => !Text.allBlank line := by
  have hrows := List.zipIdx_map_fst 1 (sourceRows source)
  rw [← hrows, List.filter_map]
  rfl

theorem exists_renumbering {source source' : String}
    (h : (shownRows source).map Prod.fst = (shownRows source').map Prod.fst) :
    ∃ f : Nat → Nat, StrictMonoOn f {row | ∃ p ∈ shownRows source, p.2 = row} ∧
      (shownRows source).map (fun p => (p.1, f p.2)) = shownRows source' := by
  have hlength : ((shownRows source).map Prod.snd).length =
      ((shownRows source').map Prod.snd).length := by
    simpa using congrArg List.length h
  obtain ⟨f, hmono, hnumbers⟩ :=
    exists_strictMonoOn (pairwise_shownRows source) (pairwise_shownRows source') hlength
  refine ⟨f, hmono.mono fun row hrow => List.mem_map.2 hrow, ?_⟩
  have hlines : ((shownRows source).map fun p => (p.1, f p.2)).map Prod.fst =
      (shownRows source').map Prod.fst := by
    rw [← h, List.map_map]
    rfl
  have hnumbers' : ((shownRows source).map fun p => (p.1, f p.2)).map Prod.snd =
      (shownRows source').map Prod.snd := by
    rw [← hnumbers, List.map_map, List.map_map]
    rfl
  rw [List.zip_of_prod hlines hnumbers']
  exact (List.zip_of_prod rfl rfl).symm

/-- Row numbers matter only in so far as they are equal or not. Lexemes on renumbered rows are parsed to
the same tables and the same records on the renumbered rows, or to the same diagnostic, its row and the
rows of its lexemes renumbered. So two texts that differ in their blank rows only are lexed, compiled
and run alike, with rows renumbered in order. -/
theorem parse_renumbered :
    (∀ (f : Nat → Nat) (ls : List Lexeme) (t : Tables),
      Set.InjOn f {row | ∃ l ∈ ls, l.row = row} →
        parse (renumbered f ls) t =
          ((parse ls t).map (Program.renumber f)).mapError (SyntaxError.renumber f) ∧
        ∀ x, parse ls t = .error ⟨some x⟩ → (x.renumber f).row = f x.row) ∧
    ∀ source source' : String,
      ((sourceRows source).filter fun line => !Text.allBlank line) =
          ((sourceRows source').filter fun line => !Text.allBlank line) →
        ∃ f : Nat → Nat, StrictMonoOn f {row | ∃ p ∈ shownRows source, p.2 = row} ∧
          (shownRows source).map (fun p => (p.1, f p.2)) = shownRows source' ∧
          lex source' = ⟨renumbered f (lex source).lexemes, (lex source).tables,
            (lex source).unidentified.map (Unidentified.renumber f)⟩ ∧
          ∀ s : Settings,
            s.compile source' =
              ((s.compile source).map (Compiled.renumber f)).mapError (Failure.renumber f) ∧
            ∀ fuel, s.run fuel source' = (s.run fuel source).map fun result =>
              (result.map (Finished.renumber f)).mapError (Failure.renumber f) := by
  refine ⟨fun f ls t hf => ⟨?_, fun x hx => ?_⟩, fun source source' h => ?_⟩
  · exact parse_renumbered_eq hf (fun l hl => ⟨l, hl, rfl⟩) t
  · exact row_renumber (ne_nil_of_parse_error hx)
  · rw [← map_fst_shownRows, ← map_fst_shownRows] at h
    obtain ⟨f, hmono, hf⟩ := exists_renumbering h
    have hcompile := compile_renumbered hf hmono.injOn
    exact ⟨f, hmono, hf, lex_renumbered hf, fun s => ⟨hcompile s, run_renumbered (hcompile s)⟩⟩

/-- A text whose second row is wrong, with its rows numbered backwards, and a loop with blank rows around
and in it. -/
theorem parse_renumbered_of_blank_rows :
    (∃ ls x, ls = (lex "val a = 1\nval b = a +").lexemes ∧
      Set.InjOn (fun row => 9 - row) {row | ∃ l ∈ ls, l.row = row} ∧
      parse ls {} = .error ⟨some x⟩ ∧ x.row = 2 ∧
      parse (renumbered (fun row => 9 - row) ls) {} =
        .error ⟨some (x.renumber fun row => 9 - row)⟩ ∧
      (x.renumber fun row => 9 - row).row = 7) ∧
    ∃ source source' f, source = "var s = 0\nwhile s < 1 do\ns = s + 1\nend" ∧
      source' = "\nvar s = 0\n \nwhile s < 1 do\n\n\ns = s + 1\nend\n" ∧
      ((sourceRows source).filter fun line => !Text.allBlank line) =
        ((sourceRows source').filter fun line => !Text.allBlank line) ∧
      [1, 2, 3, 4].map f = [2, 4, 7, 8] ∧
      ∃ compiled, Settings.compile {} source = .ok compiled ∧
        Settings.compile {} source' = .ok (compiled.renumber f) := by
  refine ⟨?_, ?_⟩
  · set ls := (lex "val a = 1\nval b = a +").lexemes with hls
    have hrows : ∀ l ∈ ls, l.row ≤ 9 := by decide +kernel
    have hinj : Set.InjOn (fun row => 9 - row) {row | ∃ l ∈ ls, l.row = row} := by
      rintro _ ⟨l, hl, rfl⟩ _ ⟨l', hl', rfl⟩ heq
      have hle := hrows l hl
      have hle' := hrows l' hl'
      dsimp only at heq
      omega
    obtain ⟨x, hx, hrow⟩ : ∃ x, parse ls {} = .error ⟨some x⟩ ∧ x.row = 2 := by
      have hfails : ((parse ls {}).map Program.code).mapError
          (fun error => error.diagnostic.map Diagnostic.row) = .error (some 2) := by
        decide +kernel
      cases hparse : parse ls {} with
      | ok p =>
        rw [hparse] at hfails
        cases hfails
      | error error =>
        rw [hparse] at hfails
        obtain ⟨x, hx, hrow⟩ := Option.map_eq_some_iff.1 (Except.error.inj hfails)
        exact ⟨x, congrArg (fun d => Except.error (SyntaxError.mk d)) hx, hrow⟩
    obtain ⟨hparse, hdiagnostic⟩ := parse_renumbered.1 _ ls {} hinj
    refine ⟨ls, x, hls, hinj, hx, hrow, ?_, ?_⟩
    · rw [hparse, hx]
      rfl
    · rw [hdiagnostic x hx, hrow]
  · have hshown : ((sourceRows "var s = 0\nwhile s < 1 do\ns = s + 1\nend").filter
          fun line => !Text.allBlank line) =
        ((sourceRows "\nvar s = 0\n \nwhile s < 1 do\n\n\ns = s + 1\nend\n").filter
          fun line => !Text.allBlank line) := by
      decide +kernel
    obtain ⟨f, -, hnumbers, -, hcompile⟩ := parse_renumbered.2 _ _ hshown
    obtain ⟨compiled, hc, -⟩ := exists_of_any
      (r := Settings.compile {} "var s = 0\nwhile s < 1 do\ns = s + 1\nend")
      (p := fun _ => true) (by decide +kernel)
    refine ⟨_, _, f, rfl, rfl, hshown, ?_, compiled, hc, ?_⟩
    · have hold : (shownRows "var s = 0\nwhile s < 1 do\ns = s + 1\nend").map Prod.snd =
          [1, 2, 3, 4] := by
        decide +kernel
      have hnew : (shownRows "\nvar s = 0\n \nwhile s < 1 do\n\n\ns = s + 1\nend\n").map Prod.snd =
          [2, 4, 7, 8] := by
        decide +kernel
      rw [← hold, ← hnew, ← hnumbers, List.map_map, List.map_map]
      rfl
    · rw [(hcompile {}).1, hc]
      rfl

end RowLang
