import Mathlib
import RowLang.Proofs.Meaning.Loops

/-! Compiled programs without jumps and labels do what their trees mean: the machine stops if and only
if the tree does, with the same error on the same row, and every name is bound alike then. -/

namespace RowLang

namespace Machine
variable {m m' : Machine} {code : Code} {σ : Store} {status : Status} {k n : Nat}

theorem Simulates.stops (h : m.Simulates code [] n (status, σ)) (hs : status ≠ .running) :
    ∃ k m', m.run k = (status, m') ∧ m'.tables.Mirrors σ := by
  cases status with
  | running => exact absurd rfl hs
  | failed e => exact h
  | finished =>
    obtain ⟨m', hm'⟩ := h
    obtain ⟨k, hk⟩ := hm'.run
    refine ⟨k + 1, m', ?_, hm'.mirrors⟩
    have hnone : m'.code[m'.cursor]? = none := by
      rw [hm'.stands.code_eq]
      exact List.getElem?_eq_none (List.drop_eq_nil_iff.1 hm'.stands.ahead)
    rw [run_add hk, run, advance, hnone]

theorem Simulates.of_stopped {o : Outcome} (h : m.Simulates code [] n o)
    (hrun : m.run k = (status, m')) (hs : status ≠ .running) (hk : k ≤ n) :
    o.1 = status ∧ m'.tables.Mirrors o.2 := by
  obtain ⟨status', σ'⟩ := o
  by_cases hs' : status' = .running
  · -- it would be running after more records than it takes to stop
    subst hs'
    obtain ⟨k', m'', hle, hk'⟩ := h
    rw [run_of_stopped hrun hs (hk.trans hle)] at hk'
    exact absurd (congrArg Prod.fst hk') hs
  · obtain ⟨k', m'', hrun', hm''⟩ := h.stops hs'
    have hend := run_of_stopped hrun hs (Nat.le_add_right k k')
    rw [run_of_stopped hrun' hs' (Nat.le_add_left k' k)] at hend
    obtain ⟨rfl, rfl⟩ := Prod.mk.inj hend
    exact ⟨rfl, hm''⟩

section
variable {run : Nat → Outcome} (h : ∀ n, m.Simulates code [] n (run n)) (hs : status ≠ .running)
include h hs

theorem stops_iff : (∃ n, run n = (status, σ)) ↔
    ∃ k m', m.run k = (status, m') ∧ m'.tables.identifiers.store = σ := by
  constructor
  · rintro ⟨n, hn⟩
    have hsim := h n
    rw [hn] at hsim
    obtain ⟨k, m', hrun, hm'⟩ := hsim.stops hs
    exact ⟨k, m', hrun, hm'.store_eq⟩
  · rintro ⟨k, m', hrun, rfl⟩
    obtain ⟨hstatus, hm'⟩ := (h k).of_stopped hrun hs (le_refl k)
    exact ⟨k, Prod.ext hstatus hm'.store_eq.symm⟩

theorem store_of_stopped (hrun : m.run k = (status, m')) {e : Identifier}
    (he : e ∈ m'.tables.identifiers.entries) : m'.tables.identifiers.store e.name = e.cell := by
  obtain ⟨-, hm'⟩ := (h k).of_stopped hrun hs (le_refl k)
  rw [hm'.store_eq]
  exact hm'.cell e he

end

end Machine

open Machine

namespace Block
variable {b : Block} {t : Tables}

theorem prefix_lower (b : Block) (t : Tables) :
    t.constants.entries <+: (b.lower t).tables.constants.entries := by
  simp only [lower]
  split
  · exact t.constants.prefix_insert ..
  · exact List.prefix_refl _

theorem linkedIn_lower {l : Lexeme} (hl : l.LinkedIn t) : l.LinkedIn (b.lower t).tables := by
  refine hl.transfer (b.prefix_lower t) fun i e he => ?_
  obtain ⟨type, htyped⟩ := Identifiers.get?_typed he b.typings
  have hlt : i < (t.identifiers.typed b.typings).size := (List.getElem?_eq_some_iff.1 htyped).1
  exact ⟨_, (Identifiers.get?_marked hlt).trans htyped, rfl⟩

theorem mirrors_lower (ht : t.Lexed) (b : Block) :
    (b.lower t).tables.Mirrors (b.lower t).tables.identifiers.store := by
  have hsound : (b.lower t).tables.constants.Sound := by
    simp only [lower]
    split
    · exact ht.sound.insert (Literal.read?_text (.number 1))
    · exact ht.sound
  refine Tables.mirrors_store hsound (Identifiers.nodup_marked ?_ ht.namesFit.typed)
  rw [Identifiers.names_typed]
  exact ht.nodup

theorem fits_lower (ht : t.Lexed) (hl : AllLinked t b.lexemes) :
    b.Fits (t.constants.intern (.number 1)).2 t.identifiers.size (b.lower t).tables := by
  refine ⟨fun l hmem => linkedIn_lower (hl l hmem), fun mark hle hlt => ?_, fun hc => ?_⟩
  · exact ⟨_, Identifiers.get?_marked_mark (by rwa [Identifiers.size_typed])
      (by rwa [Identifiers.size_typed]), rfl⟩
  · obtain ⟨c, hget, hvalue⟩ := ht.sound.get?_intern (.number 1)
    refine ⟨c, ?_, hvalue⟩
    simp only [lower, hc, if_true]
    exact hget

theorem simulates_lower (hp : b.Proper) (hst : b.Structured) (ht : t.Lexed)
    (hl : AllLinked t b.lexemes) (fuel : Nat) :
    (Settings.load {} (b.lower t)).Simulates (b.lower t).code [] fuel
      (b.run fuel (b.lower t).tables.identifiers.store) := by
  have hcode : (b.lower t).code = [] ++
      (b.code (t.constants.intern (.number 1)).2 t.identifiers.size ++ []) := by
    rw [List.nil_append, List.append_nil]
    rfl
  refine simulates hp hst (fits_lower ht hl) (mirrors_lower ht b) hcode
    (fun mark _ _ => Code.noLabel_nil.lacks mark) ⟨rfl, ?_, rfl⟩
  rw [List.append_nil]
  rfl

end Block

/-- Without jumps and labels a compiled program and its tree, run over the names of the compiled table,
finish and fail alike: with the same error on the same row, and with every entry of the table bound
and modifiable as the tree left its name. -/
theorem compile_preserves_meaning {s : Settings} {source : String} {compiled : Compiled}
    (h : s.compile source = .ok compiled) (hj : ∀ l ∈ compiled.lexemes, l.kind ≠ .jump) :
    (∃ b : Block, b.Reads compiled.lexemes) ∧
    ∀ b : Block, b.Reads compiled.lexemes → b.Unlabelled → ∀ status, status ≠ .running →
      (∀ σ, (∃ n, b.run n compiled.program.tables.identifiers.store = (status, σ)) ↔
        ∃ k m, (Settings.load {} compiled.program).run k = (status, m) ∧
          m.tables.identifiers.store = σ) ∧
      ∀ k m, (Settings.load {} compiled.program).run k = (status, m) →
        ∀ e ∈ m.tables.identifiers.entries, m.tables.identifiers.store e.name = e.cell := by
  obtain ⟨hlexemes, hparse⟩ := Settings.parse_of_compile h
  obtain ⟨hlexed, hlinked⟩ := lex_spec source
  rw [hlexemes] at hj ⊢
  refine ⟨(isList_of_parse hparse).exists_tree.imp fun b hb => hb.2, ?_⟩
  intro b hb hu status hs
  rw [eq_lower_of_parse hparse hb]
  have hst : b.Structured := .of_unlabelled hb.1 (by rwa [hb.2]) hu
  have hsim := b.simulates_lower hb.1 hst hlexed (by rwa [hb.2])
  exact ⟨fun σ => stops_iff hsim hs, fun k m hrun e he => store_of_stopped hsim hs hrun he⟩

/-- A loop inside a loop lets `s` catch up with `i`, which is below `n`. -/
theorem compile_preserves_meaning_of_nested_loops : ∃ source compiled b n σ,
    source = "val n = 2\nvar s = 0\nfor var i = 0 to n do\nwhile s < i do\ns = s + 1\nend\nend" ∧
    Settings.compile {} source = .ok compiled ∧
    (∀ l ∈ compiled.lexemes, l.kind ≠ .jump) ∧
    Block.Reads b compiled.lexemes ∧ b.Unlabelled ∧
    b.run n compiled.program.tables.identifiers.store = (.finished, σ) ∧
    (σ "s").binding.text = "1" := by
  obtain ⟨compiled, hc, hall⟩ := exists_of_any
    (r := Settings.compile {}
      "val n = 2\nvar s = 0\nfor var i = 0 to n do\nwhile s < i do\ns = s + 1\nend\nend")
    (p := fun compiled =>
      let final := (Settings.load {} compiled.program).run 200
      decide ((∀ l ∈ compiled.lexemes, l.kind ≠ .jump ∧ l.kind ≠ .punct) ∧ final.1 = .finished ∧
        ∃ e ∈ final.2.tables.identifiers.entries, e.name = "s" ∧ e.binding.text = "1"))
    (by decide +kernel)
  obtain ⟨⟨status, m⟩, hfinal⟩ : ∃ final, (Settings.load {} compiled.program).run 200 = final :=
    ⟨_, rfl⟩
  simp only [hfinal] at hall
  obtain ⟨hkinds, rfl, e, he, hname, htext⟩ := of_decide_eq_true hall
  obtain ⟨⟨b, hb⟩, hiff⟩ := compile_preserves_meaning hc fun l hl => (hkinds l hl).1
  have hu : b.Unlabelled := .of_forall_ne hb.1 (by rw [hb.2]; exact fun l hl => (hkinds l hl).2)
  obtain ⟨hstops, hcell⟩ := hiff b hb hu .finished (by simp)
  obtain ⟨n, hn⟩ := (hstops m.tables.identifiers.store).2 ⟨200, m, hfinal, rfl⟩
  refine ⟨_, compiled, b, n, _, rfl, hc, fun l hl => (hkinds l hl).1, hb, hu, hn, ?_⟩
  rw [← hname, hcell 200 m hfinal e he]
  exact htext

end RowLang
