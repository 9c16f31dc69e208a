import Mathlib
import RowLang.Proofs.Meaning.Preservation
import RowLang.Proofs.Meaning.Retyping
import RowLang.Proofs.Statement.Inference

/-! A name that is declared a second time. A table holds one type for each name, that of its last
declaration, so rows below can change what rows above may assign. If they change nothing that is
assigned above, the second declaration fails, because its name is defined; else the first value for a
name that got another type is refused before. -/

namespace RowLang

open Machine (Status)

namespace Definition
variable {σ σ' : Store} {d : Definition} {word name : Lexeme} {typing : Option (Lexeme × Lexeme)}
variable {value : Option (Lexeme × Expr)}

theorem bound_of_declares {assignable : List Lexeme → Prop} (hd : d.Proper assignable) {y : String}
    (hy : d.Declares y) (h : d.run σ = (.finished, σ')) : (σ' y).binding ≠ .undef := by
  obtain ⟨l, hl, rfl⟩ := hy
  cases d with
  | assignment name sign value => cases hl
  | declaration word name typing value =>
    obtain rfl : l = name := List.mem_singleton.1 hl
    obtain ⟨⟨declarator, hword, -⟩, -⟩ := hd
    obtain ⟨τ, hdefine, hvalue⟩ := declaration_finished hword h
    have hbound := (Store.define_ok hdefine).2
    cases value with
    | none =>
      cases hvalue
      exact hbound
    | some p => exact (give_follows hvalue).bound _ hbound

theorem run_redeclaration {declarator : Declarator}
    (hword : word.kind = .declaration declarator) (hbound : (σ name.text).binding ≠ .undef) :
    (declaration word name typing value).run σ =
      (.failed ⟨.redefined name.text, word.row⟩, σ) := by
  have hdefine : σ.define declarator name.text = .error (.redefined name.text) := by
    unfold Store.define
    split
    · rename_i hundef
      exact absurd hundef hbound
    · rfl
  rw [run]
  simp only [hword, hdefine]
  rfl

end Definition

theorem Identifiers.mem_typed {t : Identifiers} {typings : List Typing} {e : Identifier}
    (h : e ∈ (t.typed typings).entries) : ∃ e' ∈ t.entries, ∃ type, e = { e' with type } := by
  obtain ⟨i, hi⟩ := List.getElem?_of_mem h
  have hlt : i < (t.typed typings).size := (List.getElem?_eq_some_iff.1 hi).1
  rw [size_typed] at hlt
  have hget : t.get? i = some (t.entries.get ⟨i, hlt⟩) := List.getElem?_eq_getElem hlt
  obtain ⟨type, htyped⟩ := get?_typed hget typings
  exact ⟨_, List.get_mem _ _, type, Option.some.inj (hi.symm.trans htyped)⟩

namespace Block
variable {σ σ' : Store} {before after : List Definition} {n : Nat}

theorem structured_sequence (ds : List Definition) : (sequence ds).Structured := by
  induction ds with
  | nil => trivial
  | cons d ds ih => exact ⟨⟨d, rfl⟩, ih⟩

theorem bound_of_sequence {ds : List Definition} (hds : ∀ d ∈ ds, d.Proper Assignable)
    (h : (sequence ds).run n σ = (.finished, σ')) {y : String} (hy : ∃ d ∈ ds, d.Declares y) :
    (σ' y).binding ≠ .undef := by
  induction ds generalizing σ with
  | nil => simp at hy
  | cons d ds ih =>
    rw [List.forall_mem_cons] at hds
    obtain ⟨τ, hd, hrest⟩ := Outcome.andThen_finished h
    obtain ⟨c, hc, hdeclares⟩ := hy
    rcases List.mem_cons.1 hc with rfl | hc
    · have hfollows := run_sequence_follows hds.2 hrest
      exact hfollows.bound y (c.bound_of_declares hds.1 hdeclares hd)
    · exact ih hds.2 hrest ⟨c, hc, hdeclares⟩

theorem store_lower {t : Tables} (ht : t.Lexed) (b : Block) (y : String) :
    ((b.lower t).tables.identifiers.store y).binding = .undef ∧
      ((b.lower t).tables.identifiers.store y).modifiable = false := by
  rw [Identifiers.store]
  cases hfind : (b.lower t).tables.identifiers.entries.find? (fun e => e.name == y) with
  | none => exact ⟨rfl, rfl⟩
  | some e =>
    rcases List.mem_append.1 (List.mem_of_find?_eq_some hfind) with hmem | hmem
    · obtain ⟨e', he', type, rfl⟩ := Identifiers.mem_typed hmem
      exact (ht.untouched e' he').2
    · obtain ⟨k, -, rfl⟩ := List.mem_map.1 hmem
      exact ⟨rfl, rfl⟩

section
variable {word name : Lexeme} {typing : Option (Lexeme × Lexeme)} {value : Option (Lexeme × Expr)}
variable {types : String → ValueType}
variable (hproper : (sequence (before ++ .declaration word name typing value :: after)).Proper)
variable (hfront : (sequence before).run n σ = (.finished, σ'))
include hproper hfront

theorem run_redeclared (hdeclared : ∃ d ∈ before, d.Declares name.text)
    (hsame : ∀ d ∈ before, d.SameType σ (σ.retyped types)) :
    ∃ τ, (sequence (before ++ .declaration word name typing value :: after)).run n (σ.retyped types) =
      (.failed ⟨.redefined name.text, word.row⟩, τ) := by
  have hdefinitions := proper_of_mem hproper
  rw [List.forall_mem_append, List.forall_mem_cons] at hdefinitions
  obtain ⟨hbefore, ⟨⟨declarator, hword, -⟩, -⟩, -⟩ := hdefinitions
  have hrun := run_sequence_retyped hbefore hfront hsame
  have hbound : ((σ'.retyped types) name.text).binding ≠ .undef :=
    bound_of_sequence hbefore hfront hdeclared
  refine ⟨σ'.retyped types, ?_⟩
  rw [run_sequence_append, hrun]
  change ((Definition.declaration word name typing value).run (σ'.retyped types)).andThen _ = _
  rw [Definition.run_redeclaration hword hbound]
  rfl

theorem run_refused {earlier later : List Definition} {d : Definition}
    (hbefore : before = earlier ++ d :: later)
    (hsame : ∀ c ∈ earlier, c.SameType σ (σ.retyped types)) {p : Lexeme × Lexeme} (hp : p ∈ d.given?)
    (hne : types p.1.text ≠ (σ p.1.text).type) :
    ∃ τ, (sequence (before ++ .declaration word name typing value :: after)).run n (σ.retyped types) =
      (.failed ⟨.typeMismatch .assign (types p.1.text) (σ p.1.text).type, p.2.row⟩, τ) := by
  have hdefinitions := proper_of_mem hproper
  rw [hbefore, List.append_assoc, List.forall_mem_append, List.cons_append,
    List.forall_mem_cons] at hdefinitions
  obtain ⟨hearlier, hd, -⟩ := hdefinitions
  rw [hbefore, run_sequence_append] at hfront
  obtain ⟨ρ, hfirst, hrest⟩ := Outcome.andThen_finished hfront
  obtain ⟨ρ', hrun, -⟩ := Outcome.andThen_finished hrest
  have hfirst' := run_sequence_retyped hearlier hfirst hsame
  rw [← (run_sequence_follows hearlier hfirst).type_eq] at hne ⊢
  obtain ⟨τ, hτ⟩ := (d.run_retyped hd hrun types).2 p hp hne
  refine ⟨τ, ?_⟩
  rw [hbefore, List.append_assoc, List.cons_append, run_sequence_append, hfirst']
  change (d.run _).andThen _ = _
  rw [hτ]
  rfl

end

end Block

namespace Settings
variable {strict : Bool} {source : String} {compiled : Compiled} {n : Nat}

theorem run_of_compile (hc : compile { strict } source = .ok compiled) :
    run { strict } n source = execute {} n compiled := by
  rw [run, hc]
  rfl

theorem run_failed_iff (hc : compile { strict } source = .ok compiled) {e : Located Fault} :
    run { strict } n source = some (.error (.runtime e)) ↔
      ∃ m, (load {} compiled.program).run n = (.failed e, m) := by
  rw [run_of_compile hc, execute]
  cases (load {} compiled.program).run n with
  | mk status m => cases status <;> simp

theorem run_failed_unique (hc : compile { strict } source = .ok compiled) {e e' : Located Fault}
    {n' : Nat} (h : run { strict } n source = some (.error (.runtime e)))
    (h' : run { strict } n' source = some (.error (.runtime e'))) : e = e' := by
  obtain ⟨m, hm⟩ := (run_failed_iff hc).1 h
  obtain ⟨m', hm'⟩ := (run_failed_iff hc).1 h'
  have hstops : (load {} compiled.program).Stops (.failed e) m := ⟨by simp, n, hm⟩
  have hstops' : (load {} compiled.program).Stops (.failed e') m' := ⟨by simp, n', hm'⟩
  exact Status.failed.inj (hstops.unique hstops').1

theorem run_finished {finished : Finished} (h : run { strict } n source = some (.ok finished)) :
    compile { strict } source = .ok finished.compiled ∧
      ∃ m, (load {} finished.compiled.program).run n = (.finished, m) := by
  cases hc : compile { strict } source with
  | error failure =>
    rw [run, hc] at h
    cases h
  | ok compiled =>
    rw [run_of_compile hc, execute] at h
    cases hfinal : (load {} compiled.program).run n with
    | mk status m =>
      rw [hfinal] at h
      cases status with
      | finished =>
        cases h
        exact ⟨rfl, m, hfinal⟩
      | _ => cases h

theorem exists_finished (hc : compile { strict } source = .ok compiled)
    (h : ((load {} compiled.program).run n).1 = .finished) :
    ∃ finished, finished.compiled = compiled ∧ run { strict } n source = some (.ok finished) := by
  rw [run_of_compile hc, execute]
  cases hfinal : (load {} compiled.program).run n with
  | mk status m =>
    rw [hfinal] at h
    cases h
    exact ⟨_, rfl, rfl⟩

end Settings

namespace Block
variable {strict : Bool} {source : String} {compiled : Compiled} {b : Block} {n : Nat}

theorem exists_run_failed {e : Located Fault} {τ : Store}
    (hc : Settings.compile { strict } source = .ok compiled) (hb : b.Reads (lex source).lexemes)
    (hst : b.Structured) (hrun : b.run n compiled.program.tables.identifiers.store = (.failed e, τ)) :
    ∃ k, Settings.run { strict } k source = some (.error (.runtime e)) := by
  obtain ⟨-, hparse⟩ := Settings.parse_of_compile hc
  obtain ⟨hlexed, hlinked⟩ := lex_spec source
  have hprogram := eq_lower_of_parse hparse hb
  rw [hprogram] at hrun
  have hsim := b.simulates_lower hb.1 hst hlexed (by rwa [hb.2])
  obtain ⟨k, m, hk, -⟩ := (Machine.stops_iff hsim (by simp)).1 ⟨n, hrun⟩
  rw [← hprogram] at hk
  exact ⟨k, (Settings.run_failed_iff hc).2 ⟨m, hk⟩⟩

theorem exists_run_finished {finished : Finished} (hb : b.Reads (lex source).lexemes)
    (hst : b.Structured) (hrun : Settings.run { strict } n source = some (.ok finished)) :
    ∃ k σ, b.run k finished.compiled.program.tables.identifiers.store = (.finished, σ) := by
  obtain ⟨hc, m, hm⟩ := Settings.run_finished hrun
  obtain ⟨-, hparse⟩ := Settings.parse_of_compile hc
  obtain ⟨hlexed, hlinked⟩ := lex_spec source
  rw [eq_lower_of_parse hparse hb] at hm ⊢
  have hsim := b.simulates_lower hb.1 hst hlexed (by rwa [hb.2])
  obtain ⟨k, hk⟩ := (Machine.stops_iff hsim (by simp)).2 ⟨n, m, hm, rfl⟩
  exact ⟨k, _, hk⟩

theorem store_eq_retyped {s s' : Settings} {source' : String} {compiled' : Compiled} {b' : Block}
    (hc : s.compile source = .ok compiled) (hb : b.Reads (lex source).lexemes)
    (hc' : s'.compile source' = .ok compiled') (hb' : b'.Reads (lex source').lexemes) :
    compiled'.program.tables.identifiers.store =
      compiled.program.tables.identifiers.store.retyped fun y =>
        (compiled'.program.tables.identifiers.store y).type := by
  rw [eq_lower_of_parse (Settings.parse_of_compile hc).2 hb,
    eq_lower_of_parse (Settings.parse_of_compile hc').2 hb']
  funext y
  obtain ⟨hbinding, hmodifiable⟩ := b.store_lower (lex_spec source).1 y
  obtain ⟨hbinding', hmodifiable'⟩ := b'.store_lower (lex_spec source').1 y
  rw [Store.retyped, hbinding, hmodifiable, ← hbinding', ← hmodifiable']

end Block

theorem Definition.exists_first {σ τ : Store} {ds : List Definition}
    (h : ¬ ∀ d ∈ ds, d.SameType σ τ) : ∃ earlier d later, ds = earlier ++ d :: later ∧
      (∀ c ∈ earlier, c.SameType σ τ) ∧ ∃ p ∈ d.given?, (τ p.1.text).type ≠ (σ p.1.text).type := by
  induction ds with
  | nil => simp at h
  | cons d ds ih =>
    by_cases hd : d.SameType σ τ
    · have hds : ¬ ∀ c ∈ ds, c.SameType σ τ := by
        intro hall
        exact h (List.forall_mem_cons.2 ⟨hd, hall⟩)
      obtain ⟨earlier, c, later, rfl, hearlier, hc⟩ := ih hds
      exact ⟨d :: earlier, c, later, rfl, List.forall_mem_cons.2 ⟨hd, hearlier⟩, hc⟩
    · rw [SameType] at hd
      push Not at hd
      exact ⟨[], d, ds, rfl, by simp, hd⟩

/-- Definitions that run to their end on their own, and below them the declaration of a name that one
of them declares. The whole source fails: on the row of that declaration, because the name is defined,
if and only if every name to which the definitions give a value has the same type in the table of the
whole source as in theirs; else at the first such value whose name has another type. -/
theorem redeclaration_fails {strict : Bool} {source : String} {compiled : Compiled}
    {finished : Finished} {fuel : Nat} {before after : List Definition} {word name : Lexeme}
    {typing : Option (Lexeme × Lexeme)} {value : Option (Lexeme × Expr)}
    (hcompile : Settings.compile { strict } source = .ok compiled)
    (hreads : (Block.sequence (before ++ .declaration word name typing value :: after)).Reads
      compiled.lexemes)
    (hdeclared : ∃ d ∈ before, d.Declares name.text)
    (hfront : Settings.run { strict } fuel (above source word.row) = some (.ok finished)) :
    let front := finished.compiled.program.tables.identifiers.store
    let whole := compiled.program.tables.identifiers.store
    ((∃ n, Settings.run { strict } n source =
        some (.error (.runtime ⟨.redefined name.text, word.row⟩))) ↔
      ∀ d ∈ before, d.SameType front whole) ∧
    ∀ earlier d later, before = earlier ++ d :: later → (∀ c ∈ earlier, c.SameType front whole) →
      ∀ p ∈ d.given?, (whole p.1.text).type ≠ (front p.1.text).type →
        ∃ n, Settings.run { strict } n source = some (.error (.runtime
          ⟨.typeMismatch .assign (whole p.1.text).type (front p.1.text).type, p.2.row⟩)) := by
  intro front whole
  rw [(Settings.parse_of_compile hcompile).1] at hreads
  have hreads' := Block.reads_above hreads rfl
  have hcompile' := (Settings.run_finished hfront).1
  -- over their own table the definitions come to their end, and the whole table only has other types
  obtain ⟨n, σ, hn⟩ := Block.exists_run_finished hreads' (Block.structured_sequence before) hfront
  have hwhole : whole = front.retyped fun y => (whole y).type :=
    Block.store_eq_retyped hcompile' hreads' hcompile hreads
  have hrefused : ∀ earlier d later, before = earlier ++ d :: later →
      (∀ c ∈ earlier, c.SameType front whole) → ∀ p ∈ d.given?,
      (whole p.1.text).type ≠ (front p.1.text).type →
      ∃ n, Settings.run { strict } n source = some (.error (.runtime
        ⟨.typeMismatch .assign (whole p.1.text).type (front p.1.text).type, p.2.row⟩)) := by
    intro earlier d later hsplit hsame p hp hne
    rw [hwhole] at hsame
    obtain ⟨τ, hτ⟩ := Block.run_refused hreads.1 hn hsplit hsame hp hne
    rw [← hwhole] at hτ
    exact Block.exists_run_failed hcompile hreads (Block.structured_sequence _) hτ
  refine ⟨⟨?_, ?_⟩, hrefused⟩
  · rintro ⟨k, hk⟩
    by_contra hother
    obtain ⟨earlier, d, later, hsplit, hsame, p, hp, hne⟩ := Definition.exists_first hother
    obtain ⟨k', hk'⟩ := hrefused earlier d later hsplit hsame p hp hne
    cases Settings.run_failed_unique hcompile hk hk'
  · intro hsame
    rw [hwhole] at hsame
    obtain ⟨τ, hτ⟩ := Block.run_redeclared hreads.1 hn hdeclared hsame
    rw [← hwhole] at hτ
    exact Block.exists_run_failed hcompile hreads (Block.structured_sequence _) hτ

def Definition.declaringX (row : Nat) (declarator : Declarator) (constant : String) (index : Nat) :
    Definition :=
  .declaration ⟨row, spelling declarator, .declaration declarator, none⟩ ⟨row, "x", .identifier, some 0⟩
    none (some (⟨row, "=", .assign, none⟩, .operand ⟨row, constant, .constant, some index⟩))

def Definition.settingX (row : Nat) (constant : String) (index : Nat) : Definition :=
  .assignment ⟨row, "x", .identifier, some 0⟩ ⟨row, "=", .assign, none⟩
    (.operand ⟨row, constant, .constant, some index⟩)

theorem Definition.proper_declaringX {row index : Nat} {declarator : Declarator} {constant : String}
    (h : isExpression [⟨row, constant, .constant, some index⟩]) :
    (declaringX row declarator constant index).Proper Assignable :=
  ⟨⟨declarator, rfl, by simp⟩, rfl, by simp, proper_value_of_operand rfl rfl h⟩

theorem Definition.proper_settingX {row index : Nat} {constant : String} :
    (settingX row constant index).Proper Assignable :=
  ⟨rfl, rfl, rfl, Or.inr ⟨_, rfl, rfl⟩⟩

/-- The second declaration gives `x` a number like the first, so it is the one that fails. -/
theorem redeclaration_fails_of_number : ∃ source compiled finished n,
    source = "var x = 1\nx = 2\nval x = 3" ∧
    Settings.compile {} source = .ok compiled ∧
    (Block.sequence ([.declaringX 1 .var "1" 0, .settingX 2 "2" 1] ++
      .declaringX 3 .val "3" 2 :: [])).Reads compiled.lexemes ∧
    Settings.run {} 9 (above source 3) = some (.ok finished) ∧
    Settings.run {} n source = some (.error (.runtime ⟨.redefined "x", some 3⟩)) := by
  obtain ⟨compiled, hc, htype⟩ := exists_of_any
    (r := Settings.compile {} "var x = 1\nx = 2\nval x = 3")
    (p := fun compiled => decide ((compiled.program.tables.identifiers.store "x").type = .number))
    (by decide +kernel)
  obtain ⟨compiled', hc', hfront⟩ := exists_of_any
    (r := Settings.compile {} (above "var x = 1\nx = 2\nval x = 3" 3))
    (p := fun compiled => decide ((compiled.program.tables.identifiers.store "x").type = .number ∧
      ((Settings.load {} compiled.program).run 9).1 = .finished))
    (by decide +kernel)
  obtain ⟨htype', hfinished⟩ := of_decide_eq_true hfront
  obtain ⟨finished, rfl, hrun⟩ := Settings.exists_finished hc' hfinished
  have hreads : (Block.sequence ([.declaringX 1 .var "1" 0, .settingX 2 "2" 1] ++
      .declaringX 3 .val "3" 2 :: [])).Reads compiled.lexemes := by
    rw [(Settings.parse_of_compile hc).1]
    refine ⟨⟨Definition.proper_declaringX (by decide +kernel), minimal_of_row (by decide +kernel), ?_,
      Definition.proper_settingX, minimal_of_row (by decide +kernel), ?_,
      Definition.proper_declaringX (by decide +kernel), minimal_of_row (by decide +kernel), ?_, trivial⟩,
      by decide +kernel⟩
    all_goals
      rw [Apart]
      decide +kernel
  have hdeclared : ∃ d ∈ [Definition.declaringX 1 .var "1" 0, .settingX 2 "2" 1], d.Declares "x" :=
    ⟨_, List.mem_cons_self, _, List.mem_cons_self, rfl⟩
  have hsame : ∀ d ∈ [Definition.declaringX 1 .var "1" 0, .settingX 2 "2" 1],
      d.SameType finished.compiled.program.tables.identifiers.store
        compiled.program.tables.identifiers.store := by
    intro d hd p hp
    have hx : p.1.text = "x" := by
      simp only [List.mem_cons, List.not_mem_nil, or_false] at hd
      rcases hd with rfl | rfl <;> cases hp <;> rfl
    rw [hx, htype', of_decide_eq_true htype]
  obtain ⟨n, hn⟩ := (redeclaration_fails hc hreads hdeclared hrun).1.2 hsame
  exact ⟨_, compiled, finished, n, rfl, hc, hreads, hrun, hn⟩

/-- The second declaration makes `x` a string, so the number of the first one is refused before. -/
theorem redeclaration_as_string_refuses_number : ∃ compiled finished n,
    Settings.compile {} "val x = 1\nval x = 'a'" = .ok compiled ∧
    (Block.sequence ([.declaringX 1 .val "1" 0] ++ .declaringX 2 .val "'a'" 1 :: [])).Reads
      compiled.lexemes ∧
    Settings.run {} 9 (above "val x = 1\nval x = 'a'" 2) = some (.ok finished) ∧
    Settings.run {} n "val x = 1\nval x = 'a'" =
      some (.error (.runtime ⟨.typeMismatch .assign .string .number, some 1⟩)) ∧
    ∀ k, Settings.run {} k "val x = 1\nval x = 'a'" ≠
      some (.error (.runtime ⟨.redefined "x", some 2⟩)) := by
  obtain ⟨compiled, hc, hstatus⟩ := exists_of_any
    (r := Settings.compile {} "val x = 1\nval x = 'a'")
    (p := fun compiled => decide (((Settings.load {} compiled.program).run 9).1 =
      .failed ⟨.typeMismatch .assign .string .number, some 1⟩))
    (by decide +kernel)
  obtain ⟨compiled', hc', hfinished⟩ := exists_of_any
    (r := Settings.compile {} (above "val x = 1\nval x = 'a'" 2))
    (p := fun compiled => decide (((Settings.load {} compiled.program).run 9).1 = .finished))
    (by decide +kernel)
  obtain ⟨finished, -, hrun⟩ := Settings.exists_finished hc' (of_decide_eq_true hfinished)
  have hfailed : Settings.run {} 9 "val x = 1\nval x = 'a'" =
      some (.error (.runtime ⟨.typeMismatch .assign .string .number, some 1⟩)) :=
    (Settings.run_failed_iff hc).2 ⟨_, Prod.ext (of_decide_eq_true hstatus) rfl⟩
  refine ⟨compiled, finished, 9, hc, ?_, hrun, hfailed, ?_⟩
  · rw [(Settings.parse_of_compile hc).1]
    refine ⟨⟨Definition.proper_declaringX (by decide +kernel), minimal_of_row (by decide +kernel), ?_,
      Definition.proper_declaringX (by decide +kernel), minimal_of_row (by decide +kernel), ?_, trivial⟩,
      by decide +kernel⟩
    all_goals
      rw [Apart]
      decide +kernel
  · intro k hk
    cases Settings.run_failed_unique hc hfailed hk

end RowLang
