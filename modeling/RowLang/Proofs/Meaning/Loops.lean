import Mathlib
import RowLang.Proofs.Meaning.Straight

/-! The machine in front of the code of a tree does what the tree means. Loops are simulated round by
round, and so are trees of any depth. A jump back to the test and a jump out of the loop find the labels
of their own loop, since no other statement has a label with one of its marks. -/

namespace RowLang

namespace Machine

structure Moves (code rest : Code) (σ : Store) (m m' : Machine) : Prop where
  run : ∃ k, m.run k = (.running, m')
  stands : m'.Stands code rest
  mirrors : m'.tables.Mirrors σ
  keeps : m.tables.Keeps m'.tables

/-- The machine does what the outcome says: it gets to the rest, or fails, or goes on for so many
records. -/
def Simulates (code rest : Code) (n : Nat) (m : Machine) : Outcome → Prop
  | (.finished, σ) => ∃ m', m.Moves code rest σ m'
  | (.failed e, σ) => m.Breaks e σ
  | (.running, _) => ∃ k m', n ≤ k ∧ m.run k = (.running, m')

section
variable {code rest rest' : Code} {σ σ' : Store} {m m' m'' : Machine} {e : Located Fault}
  {n k position : Nat} {stack : List Ref} {o : Outcome}

theorem Moves.refl (h : m.Stands code rest) (hm : m.tables.Mirrors σ) : m.Moves code rest σ m :=
  ⟨⟨0, rfl⟩, h, hm, .refl _⟩

theorem Moves.trans (h : m.Moves code rest σ m') (h' : m'.Moves code rest' σ' m'') :
    m.Moves code rest' σ' m'' := by
  obtain ⟨k, hk⟩ := h.run
  obtain ⟨k', hk'⟩ := h'.run
  exact ⟨⟨k + k', (run_add hk k').trans hk'⟩, h'.stands, h'.mirrors, h.keeps.trans h'.keeps⟩

theorem Moves.breaks (h : m.Moves code rest σ m') (h' : m'.Breaks e σ') : m.Breaks e σ' := by
  obtain ⟨k, hk⟩ := h.run
  obtain ⟨k', m'', hk', hm''⟩ := h'
  exact ⟨k + k', m'', (run_add hk k').trans hk', hm''⟩

theorem Simulates.after (h : m.Moves code rest σ m') (h' : m'.Simulates code rest' n o) :
    m.Simulates code rest' n o := by
  match o, h' with
  | (.finished, σ), ⟨m'', hm''⟩ => exact ⟨m'', h.trans hm''⟩
  | (.failed e, σ), hb => exact h.breaks hb
  | (.running, σ), ⟨k', m'', hle, hk'⟩ =>
    obtain ⟨k, hk⟩ := h.run
    exact ⟨k + k', m'', by omega, (run_add hk k').trans hk'⟩

theorem Simulates.mono {n' : Nat} (h : m.Simulates code rest n' o) (hn : n ≤ n') :
    m.Simulates code rest n o := by
  match o, h with
  | (.finished, σ), h => exact h
  | (.failed e, σ), h => exact h
  | (.running, σ), ⟨k, m', hle, hk⟩ => exact ⟨k, m', hn.trans hle, hk⟩

theorem Simulates.andThen {next : Store → Outcome} (h : m.Simulates code rest n o)
    (hnext : ∀ σ m', m.Moves code rest σ m' → m'.Simulates code rest' n (next σ)) :
    m.Simulates code rest' n (o.andThen next) := by
  match o, h with
  | (.finished, σ), ⟨m', hm'⟩ => exact .after hm' (hnext σ m' hm')
  | (.failed e, σ), h => exact h
  | (.running, σ), h => exact h

theorem Simulates.later (hk : 0 < k) (hrun : m.run k = (.running, m'))
    (hm : m.Moves code rest σ m') (h : m'.Simulates code rest' n o) :
    m.Simulates code rest' (n + 1) o := by
  match o, h with
  | (.finished, _), h => exact .after hm h
  | (.failed _, _), h => exact .after hm h
  | (.running, _), ⟨k', m'', hle, hk'⟩ =>
    exact ⟨k + k', m'', by omega, (run_add hrun k').trans hk'⟩

theorem Arrives.moves (h : m.Arrives n position stack m') (hs : m.Stands code rest)
    (hat : code.drop position = rest') (hm : m.tables.Mirrors σ) : m.Moves code rest' σ m' :=
  ⟨⟨n, h.passes.run⟩, hs.of_run h.passes.run (by rw [h.cursor, hat]),
    mirrors_of_run h.passes.run h.identifiers hm, keeps_of_run h.passes.run⟩

theorem Performs.simulates {p : Code} (h : m.Performs p.length o) (hs : m.Stands code (p ++ rest))
    (n : Nat) : m.Simulates code rest n o := by
  obtain ⟨status, σ⟩ := o
  cases status with
  | finished =>
    obtain ⟨stack, m', hm'⟩ := h
    exact ⟨m', ⟨_, hm'.passes.run⟩, hm'.passes.stands hm'.cursor hs rfl, hm'.mirrors,
      keeps_of_run hm'.passes.run⟩
  | failed e => exact h
  | running => exact h.elim

end

section
variable {code rest front : Code} {mark row row' : Nat} {t t' : Tables}

def Target (code : Code) (t : Tables) (mark : Nat) (rest : Code) : Prop :=
  ∃ position, jumpTarget code t mark = .ok position ∧ code.drop position = rest

theorem Target.keeps (h : Target code t mark rest) (ht : t.Keeps t') : Target code t' mark rest := by
  obtain ⟨position, hposition, hdrop⟩ := h
  exact ⟨position, by rw [jumpTarget_keeps ht, hposition], hdrop⟩

theorem Target.of_lacks (hcode : code = front ++ .identifier row mark :: .op row' .label :: rest)
    (hf : front.Lacks mark) (he : ∃ e, t.identifiers.get? mark = some e ∧ e.type = .mark) :
    Target code t mark rest := by
  refine ⟨front.length + 2, jumpTarget_eq_ok_iff.2 ⟨he, ?_⟩, ?_⟩
  · rw [hcode, Code.labelEnd?_of_lacks hf]
  · rw [hcode, List.drop_append]
    simp

end
end Machine

open Machine

namespace Header

def check (h : Header) (exit : Nat) (inside : Code) : Code :=
  h.test ++ .identifier h.word.row exit :: .op h.word.row .branch :: inside

def back (h : Header) (one top endRow : Nat) (behind : Code) : Code :=
  h.next one endRow ++ .identifier endRow top :: .op endRow .goto :: behind

variable {h : Header} {top exit one endRow : Nat}

theorem lacks_enter {mark : Nat} (hne : top ≠ mark) : Code.Lacks mark (h.enter top exit) := by
  have hbranch : Code.NoLabel [.identifier h.word.row exit, .op h.word.row .branch] := by
    simp [Record.identifier, Record.op]
  exact (((noLabel_start.lacks mark).append (Code.lacks_label hne)).append
    (noLabel_test.lacks mark)).append (hbranch.lacks mark)

theorem lacks_leave {mark : Nat} (hne : exit ≠ mark) :
    Code.Lacks mark (h.leave one top exit endRow) := by
  have hgoto : Code.NoLabel [.identifier endRow top, .op endRow .goto] := by
    simp [Record.identifier, Record.op]
  exact (noLabel_next.lacks mark).append ((hgoto.lacks mark).append (Code.lacks_label hne))

end Header

theorem Header.simulates_rounds {h : Header} {code inside after behind : Code} {t : Tables}
    {top exit one endRow fuel : Nat} {body : Store → Outcome} (hp : h.Proper)
    (hl : AllLinked t h.lexemes)
    (hone : h.counts → (Operand.value (.number 1)).Denotes t (.constant one))
    (htop : Target code t top (h.check exit (inside ++ h.back one top endRow behind)))
    (hexit : Target code t exit after)
    (hbody : ∀ (σ : Store) (m : Machine), t.Keeps m.tables → m.tables.Mirrors σ →
      m.Stands code (inside ++ h.back one top endRow behind) →
      m.Simulates code (h.back one top endRow behind) fuel (body σ))
    {n : Nat} (hn : n ≤ fuel) {σ : Store} {m : Machine} (hkeeps : t.Keeps m.tables)
    (hm : m.tables.Mirrors σ)
    (hs : m.Stands code (h.check exit (inside ++ h.back one top endRow behind))) :
    m.Simulates code after n (h.rounds endRow body n σ) := by
  induction n generalizing σ m with
  | zero => exact ⟨0, m, le_refl 0, rfl⟩
  | succ n ih =>
    have hlm : AllLinked m.tables h.lexemes := fun l hmem => hkeeps.linkedIn (hl l hmem)
    obtain ⟨stop, hstop, hafter⟩ := hexit.keeps hkeeps
    have htest := branches_test hp hlm hm hstop hs
    rw [rounds]
    match hh : h.holds σ with
    | .error e =>
      rw [hh] at htest
      exact htest
    | .ok false =>
      rw [hh] at htest
      obtain ⟨m₁, hm₁⟩ := htest
      exact ⟨m₁, hm₁.moves hs hafter hm⟩
    | .ok true =>
      rw [hh] at htest
      obtain ⟨m₁, harrives⟩ := htest
      have hm₁ := harrives.moves hs hs.drop_two hm
      have hkeeps₁ := hkeeps.trans hm₁.keeps
      have hround : m₁.Simulates code (.identifier endRow top :: .op endRow .goto :: behind) (n + 1)
          ((body σ).andThen (h.advance endRow)) := by
        refine ((hbody σ m₁ hkeeps₁ hm₁.mirrors hm₁.stands).mono hn).andThen fun σ₂ m₂ hm₂ => ?_
        have hkeeps₂ := hkeeps₁.trans hm₂.keeps
        exact (performs_next hp (fun l hmem => hkeeps₂.linkedIn (hl l hmem)) hm₂.mirrors
          (fun hc => hkeeps₂.denotes (hone hc)) hm₂.stands).simulates hm₂.stands (n + 1)
      refine .after hm₁ (hround.andThen fun σ₂ m₂ hm₂ => ?_)
      have hkeeps₂ := hkeeps₁.trans hm₂.keeps
      -- the jump back takes records, so that a loop which goes on forever does so in the machine
      obtain ⟨position, hposition, hcheck⟩ := htop.keeps hkeeps₂
      obtain ⟨m₃, hgoto⟩ := arrives_goto hm₂.stands hposition
      have hm₃ := hgoto.moves hm₂.stands hcheck hm₂.mirrors
      exact .later Nat.two_pos hgoto.passes.run hm₃
        (ih (by omega) (hkeeps₂.trans hm₃.keeps) hm₃.mirrors hm₃.stands)

namespace Block

/-- The tables have what the code of a tree refers to: its names and constants, its marks, and the
constant `1` if it counts. -/
structure Fits (b : Block) (one next : Nat) (t : Tables) : Prop where
  linked : AllLinked t b.lexemes
  marks : ∀ mark, next ≤ mark → mark < next + b.marks →
    ∃ e, t.identifiers.get? mark = some e ∧ e.type = .mark
  one : b.counts → (Operand.value (.number 1)).Denotes t (.constant one)

section
variable {b body rest : Block} {s : Simple} {header : Header} {opening closing : Lexeme}
  {one next : Nat} {t t' : Tables}

theorem Fits.keeps (h : b.Fits one next t) (ht : t.Keeps t') : b.Fits one next t' := by
  refine ⟨fun l hmem => ht.linkedIn (h.linked l hmem), ?_, fun hc => ht.denotes (h.one hc)⟩
  intro mark hle hlt
  obtain ⟨e, he, htype⟩ := h.marks mark hle hlt
  obtain ⟨e', he', -, htype'⟩ := ht.get? he
  exact ⟨e', he', htype'.trans htype⟩

theorem Fits.of_simple (h : (simple s rest).Fits one next t) :
    AllLinked t s.lexemes ∧ rest.Fits one (next + s.marks) t := by
  obtain ⟨hlinked, hmarks, hone⟩ := h
  simp only [lexemes, allLinked_append, Block.marks, counts] at hlinked hmarks hone
  exact ⟨hlinked.1, hlinked.2, fun mark hle hlt => hmarks mark (by omega) (by omega), hone⟩

theorem Fits.of_loop (h : (loop header opening body closing rest).Fits one next t) :
    AllLinked t header.lexemes ∧ body.Fits one next t ∧
      rest.Fits one (next + body.marks + 2) t ∧
      (header.counts → (Operand.value (.number 1)).Denotes t (.constant one)) := by
  obtain ⟨hlinked, hmarks, hone⟩ := h
  simp only [lexemes, allLinked_append, allLinked_cons, Block.marks, counts, Bool.or_eq_true] at *
  exact ⟨hlinked.1.1,
    ⟨hlinked.1.2.2.1, fun mark hle hlt => hmarks mark hle (by omega), fun hc => hone (.inl (.inl hc))⟩,
    ⟨hlinked.2, fun mark hle hlt => hmarks mark (by omega) (by omega), fun hc => hone (.inr hc)⟩,
    fun hc => hone (.inl (.inr hc))⟩

theorem lacks_code {mark : Nat} (hb : b.Structured) (h : mark < next ∨ next + b.marks ≤ mark) :
    (b.code one next).Lacks mark := by
  induction b generalizing next with
  | done => exact Code.noLabel_nil.lacks mark
  | simple s rest ih =>
    obtain ⟨⟨d, rfl⟩, hrest⟩ := hb
    exact (d.expr.noLabel_code.lacks mark).append (ih hrest (by simpa [marks, Simple.marks] using h))
  | loop header opening body closing rest ihbody ihrest =>
    simp only [marks] at h
    have henter : Code.Lacks mark (header.enter (next + body.marks) (next + body.marks + 1)) :=
      Header.lacks_enter (by omega)
    have hleave : Code.Lacks mark
        (header.leave one (next + body.marks) (next + body.marks + 1) closing.row) :=
      Header.lacks_leave (by omega)
    exact ((henter.append (ihbody hb.1 (by omega))).append hleave).append (ihrest hb.2 (by omega))

section
variable {code front post : Code}
  (hcode : code = front ++ ((loop header opening body closing rest).code one next ++ post))

theorem code_loop (post : Code) :
    (loop header opening body closing rest).code one next ++ post =
      header.start ++ .identifier header.word.row (next + body.marks) ::
        .op header.word.row .label :: header.check (next + body.marks + 1)
          (body.code one next ++ header.back one (next + body.marks) closing.row
            (.identifier closing.row (next + body.marks + 1) :: .op closing.row .label ::
              (rest.code one (next + body.marks + 2) ++ post))) := by
  simp [Block.code, Header.enter, Header.leave, Header.check, Header.back]

include hcode

theorem target_top (hf : front.Lacks (next + body.marks))
    (he : ∃ e, t.identifiers.get? (next + body.marks) = some e ∧ e.type = .mark) :
    Target code t (next + body.marks) (header.check (next + body.marks + 1)
      (body.code one next ++ header.back one (next + body.marks) closing.row
        (.identifier closing.row (next + body.marks + 1) :: .op closing.row .label ::
          (rest.code one (next + body.marks + 2) ++ post)))) := by
  rw [code_loop, ← List.append_assoc] at hcode
  exact .of_lacks hcode (hf.append (Header.noLabel_start.lacks _)) he

theorem exists_before_exit : ∃ before : Code,
    code = before ++ .identifier closing.row (next + body.marks + 1) :: .op closing.row .label ::
      (rest.code one (next + body.marks + 2) ++ post) ∧
    before.length + 2 = front.length + (header.enter (next + body.marks) (next + body.marks + 1)).length +
      (body.code one next).length +
      (header.leave one (next + body.marks) (next + body.marks + 1) closing.row).length ∧
    (front.Lacks (next + body.marks + 1) → (body.code one next).Lacks (next + body.marks + 1) →
      before.Lacks (next + body.marks + 1)) := by
  refine ⟨front ++ (header.enter (next + body.marks) (next + body.marks + 1) ++
    (body.code one next ++ (header.next one closing.row ++
      [.identifier closing.row (next + body.marks), .op closing.row .goto]))), ?_, ?_, ?_⟩
  · simp [hcode, Block.code, Header.leave]
  · simp only [Header.leave, List.length_append, List.length_cons, List.length_nil]
    omega
  · intro hf hb
    have hgoto : Code.NoLabel
        [.identifier closing.row (next + body.marks), .op closing.row .goto] := by
      simp [Record.identifier, Record.op]
    have hback : Code.NoLabel (header.next one closing.row) := Header.noLabel_next
    exact hf.append ((Header.lacks_enter (by omega)).append
      (hb.append ((hback.lacks _).append (hgoto.lacks _))))

theorem target_exit (hb : body.Structured) (hf : front.Lacks (next + body.marks + 1))
    (he : ∃ e, t.identifiers.get? (next + body.marks + 1) = some e ∧ e.type = .mark) :
    Target code t (next + body.marks + 1) (rest.code one (next + body.marks + 2) ++ post) := by
  obtain ⟨before, hsplit, -, hlacks⟩ := exists_before_exit hcode
  exact .of_lacks hsplit (hlacks hf (lacks_code hb (by omega))) he

end
end

theorem simulates {b : Block} {code front post : Code} {one next fuel : Nat} {σ : Store}
    {m : Machine} (hp : b.Proper) (hst : b.Structured) (hfits : b.Fits one next m.tables)
    (hm : m.tables.Mirrors σ) (hcode : code = front ++ (b.code one next ++ post))
    (hfront : ∀ mark, next ≤ mark → mark < next + b.marks → front.Lacks mark)
    (hs : m.Stands code (b.code one next ++ post)) :
    m.Simulates code post fuel (b.run fuel σ) := by
  induction b generalizing front post next σ m with
  | done => exact ⟨m, .refl hs hm⟩
  | simple s rest ih =>
    obtain ⟨⟨d, rfl⟩, hrest⟩ := hst
    obtain ⟨hl, hfrest⟩ := hfits.of_simple
    rw [Block.code, List.append_assoc] at hs hcode
    have hd := d.performs hp.1 (fun _ => Assignable.inExpression) hl hm hs
    refine (hd.simulates hs fuel).andThen fun σ' m' hm' => ?_
    rw [← List.append_assoc] at hcode
    refine ih hp.2.2.2 hrest (hfrest.keeps hm'.keeps) hm'.mirrors hcode ?_ hm'.stands
    intro mark hle hlt
    exact (hfront mark (by omega) (by simp only [marks]; omega)).append
      (d.expr.noLabel_code.lacks mark)
  | loop header opening body closing rest ihbody ihrest =>
    obtain ⟨hheader, -, -, hbody, -, -, -, hrest⟩ := hp
    obtain ⟨hl, hfbody, hfrest, hone⟩ := hfits.of_loop
    have hmark := hfits.marks
    simp only [marks] at hfront hmark
    have htop := target_top hcode (hfront _ (by omega) (by omega)) (hmark _ (by omega) (by omega))
    have hexit := target_exit hcode hst.1 (hfront _ (by omega) (by omega))
      (hmark _ (by omega) (by omega))
    -- the marks of the body are below those of the loop, and those of the rest are above them
    have hinside : ∀ mark, next ≤ mark → mark < next + body.marks →
        (front ++ header.enter (next + body.marks) (next + body.marks + 1)).Lacks mark :=
      fun mark hle hlt => (hfront mark hle (by omega)).append (Header.lacks_enter (by omega))
    have hbehind : ∀ mark, next + body.marks + 2 ≤ mark →
        mark < next + body.marks + 2 + rest.marks →
        (front ++ (header.enter (next + body.marks) (next + body.marks + 1) ++ body.code one next ++
          header.leave one (next + body.marks) (next + body.marks + 1) closing.row)).Lacks mark :=
      fun mark hle hlt => (hfront mark (by omega) (by omega)).append
        (((Header.lacks_enter (by omega)).append (lacks_code hst.1 (by omega))).append
          (Header.lacks_leave (by omega)))
    have hloop : m.Simulates code (rest.code one (next + body.marks + 2) ++ post) fuel
        ((header.init σ).andThen (header.rounds closing.row (body.run fuel) fuel)) := by
      rw [code_loop] at hs
      refine ((Header.performs_init hheader hl hm hs).simulates hs fuel).andThen fun σ₁ m₁ hm₁ => ?_
      obtain ⟨m₂, hlabel⟩ := arrives_label hm₁.stands
      have hm₂ := hlabel.moves hm₁.stands (hm₁.stands.drop_eq (p := [_, _]) rfl) hm₁.mirrors
      refine .after hm₂ (Header.simulates_rounds hheader hl hone htop hexit ?_ (le_refl fuel)
        (hm₁.keeps.trans hm₂.keeps) hm₂.mirrors hm₂.stands)
      intro σ' m' hkeeps hm' hs'
      refine ihbody hbody hst.1 (hfbody.keeps hkeeps) hm' ?_ hinside hs'
      simp [hcode, Block.code, Header.leave, Header.back]
    refine hloop.andThen fun σ' m' hm' => ?_
    refine ihrest hrest hst.2 (hfrest.keeps hm'.keeps) hm'.mirrors ?_ hbehind hm'.stands
    simp [hcode, Block.code]

end Block

end RowLang
