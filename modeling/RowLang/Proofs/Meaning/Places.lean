import Mathlib
import RowLang.Proofs.Meaning.Loops
import RowLang.Proofs.Statement.Jumps

/-! Where the loops and the conditional jumps of a program stand in its code, whatever other statements
there are. The marks of a statement have no labels but its own, so a jump to one of them stays in the
statement or leaves it at its end. -/

namespace RowLang

/-- A loop in the code: its mark in front of the test (the next one is behind the loop), and the
positions where the test starts, where the body starts, and where the body and the whole loop stop. -/
structure LoopSite where
  header : Header
  endRow : Nat
  top : Nat
  check : Nat
  inside : Nat
  behind : Nat
  stop : Nat

structure ConditionalSite where
  word : Lexeme
  condition : Expr
  jump : Lexeme
  mark : Lexeme
  start : Nat
  stop : Nat

def Header.site (h : Header) (one : Nat) (body : Block) (endRow next start : Nat) : LoopSite :=
  let top := next + body.marks
  let inside := start + (h.enter top (top + 1)).length
  let behind := inside + (body.code one next).length
  { header := h, endRow, top, check := start + h.start.length + 2, inside, behind,
    stop := behind + (h.leave one top (top + 1) endRow).length }

def Simple.site? (next start : Nat) : Simple → Option ConditionalSite
  | conditional word condition thenWord jump mark =>
    some ⟨word, condition, jump, mark, start,
      start + ((conditional word condition thenWord jump mark).code next).length⟩
  | _ => none

def ConditionalSite.holds (σ : Store) (p : ConditionalSite) : Except (Located Fault) Bool := do
  let a ← p.condition.eval σ
  located p.word.row (σ.holds a)

namespace Block

def loops (one : Nat) : Block → Nat → Nat → List LoopSite
  | done, _, _ => []
  | simple s rest, next, start => rest.loops one (next + s.marks) (start + (s.code next).length)
  | loop header _ body closing rest, next, start =>
    let site := header.site one body closing.row next start
    site :: body.loops one next site.inside ++ rest.loops one (site.top + 2) site.stop

def conditionals (one : Nat) : Block → Nat → Nat → List ConditionalSite
  | done, _, _ => []
  | simple s rest, next, start =>
    (s.site? next start).toList ++
      rest.conditionals one (next + s.marks) (start + (s.code next).length)
  | loop header _ body closing rest, next, start =>
    let site := header.site one body closing.row next start
    body.conditionals one next site.inside ++ rest.conditionals one (site.top + 2) site.stop

/-- The code of a tree stands behind a front without its labels. The names it was read with come before
its marks, and the tables have what it refers to. -/
structure Placed (b : Block) (one next : Nat) (names t : Tables) (code front post : Code) : Prop where
  code_eq : code = front ++ (b.code one next ++ post)
  fresh : ∀ mark, next ≤ mark → mark < next + b.marks → front.Lacks mark
  proper : b.Proper
  linked : AllLinked names b.lexemes
  low : names.identifiers.size ≤ next
  fits : b.Fits one next t

end Block

theorem Code.Labels.lacks {S : Nat → Prop} {code : Code} {mark : Nat} (h : Code.Labels S code)
    (hm : ¬ S mark) : code.Lacks mark :=
  ⟨h.opens, Code.labelEnd?_eq_none_iff.2 fun hlabel => hm ((h.label mark).1 hlabel)⟩

section
variable {names t : Tables} {mark : Nat}

theorem not_labelled {typings : List Typing} (h : ∀ typing ∈ typings, typing.Below names.identifiers.size)
    (hm : names.identifiers.size ≤ mark) : ¬ Labelled typings mark := by
  rintro ⟨typing, hmem, hlink, -⟩
  have hlt := (h typing hmem).1 mark hlink
  omega

theorem Simple.lacks_code {s : Simple} {next : Nat} (hp : s.Proper) (hl : AllLinked names s.lexemes)
    (hm : names.identifiers.size ≤ mark) (h : mark < next ∨ next + s.marks ≤ mark) :
    (s.code next).Lacks mark := by
  refine (s.labels_code hp hl).lacks ?_
  rintro (hlabelled | hrange)
  · exact not_labelled (s.typings_below hp hl) hm hlabelled
  · omega

theorem Block.lacks_mark {b : Block} {one next : Nat} (hp : b.Proper) (hl : AllLinked names b.lexemes)
    (hm : names.identifiers.size ≤ mark) (h : mark < next ∨ next + b.marks ≤ mark) :
    (b.code one next).Lacks mark := by
  refine (b.labels_code hp hl).lacks ?_
  rintro (hlabelled | hrange)
  · exact not_labelled (b.typings_below hp hl) hm hlabelled
  · omega

end

namespace Block.Placed
variable {s : Simple} {header : Header} {opening closing : Lexeme} {body rest : Block} {one next : Nat}
  {names t : Tables} {code front post : Code}

theorem rest_of_simple (h : (simple s rest).Placed one next names t code front post) :
    rest.Placed one (next + s.marks) names t code (front ++ s.code next) post := by
  obtain ⟨hcode, hfresh, hp, hl, hlow, hfits⟩ := h
  obtain ⟨hls, hlr⟩ := allLinked_append.1 hl
  simp only [marks] at hfresh
  refine ⟨by simp [hcode, Block.code], fun mark hle hlt => ?_, hp.2.2.2, hlr, by omega,
    hfits.of_simple.2⟩
  exact (hfresh mark (by omega) (by omega)).append
    (s.lacks_code hp.1 hls (by omega) (Or.inr hle))

section
variable (h : (loop header opening body closing rest).Placed one next names t code front post)
include h

theorem body_of_loop : body.Placed one next names t code
    (front ++ header.enter (next + body.marks) (next + body.marks + 1))
    (header.leave one (next + body.marks) (next + body.marks + 1) closing.row ++
      (rest.code one (next + body.marks + 2) ++ post)) := by
  obtain ⟨hcode, hfresh, hp, hl, hlow, hfits⟩ := h
  simp only [marks] at hfresh
  simp only [lexemes, allLinked_append, allLinked_cons] at hl
  refine ⟨by simp [hcode, Block.code], fun mark hle hlt => ?_, hp.2.2.2.1, hl.1.2.2.1, hlow,
    hfits.of_loop.2.1⟩
  exact (hfresh mark hle (by omega)).append (Header.lacks_enter (by omega))

theorem rest_of_loop : rest.Placed one (next + body.marks + 2) names t code
    (front ++ (header.enter (next + body.marks) (next + body.marks + 1) ++ body.code one next ++
      header.leave one (next + body.marks) (next + body.marks + 1) closing.row)) post := by
  obtain ⟨hcode, hfresh, hp, hl, hlow, hfits⟩ := h
  simp only [marks] at hfresh
  simp only [lexemes, allLinked_append, allLinked_cons] at hl
  refine ⟨by simp [hcode, Block.code], fun mark hle hlt => ?_, hp.2.2.2.2.2.2.2, hl.2, by omega,
    hfits.of_loop.2.2.1⟩
  have hbody : (body.code one next).Lacks mark :=
    lacks_mark hp.2.2.2.1 hl.1.2.2.1 (by omega) (by omega)
  exact (hfresh mark (by omega) (by omega)).append
    (((Header.lacks_enter (by omega)).append hbody).append (Header.lacks_leave (by omega)))

theorem labelEnd?_top : code.labelEnd? (next + body.marks) =
    some (header.site one body closing.row next front.length).check := by
  obtain ⟨hcode, hfresh, -⟩ := h
  rw [code_loop, ← List.append_assoc] at hcode
  have hlacks : (front ++ header.start).Lacks (next + body.marks) :=
    (hfresh _ (by omega) (by simp only [marks]; omega)).append (Header.noLabel_start.lacks _)
  rw [hcode, Code.labelEnd?_of_lacks hlacks, List.length_append]
  rfl

theorem labelEnd?_exit : code.labelEnd? (next + body.marks + 1) =
    some (header.site one body closing.row next front.length).stop := by
  obtain ⟨hcode, hfresh, hp, hl, hlow, -⟩ := h
  simp only [marks] at hfresh
  simp only [lexemes, allLinked_append, allLinked_cons] at hl
  have hbody : (body.code one next).Lacks (next + body.marks + 1) :=
    lacks_mark hp.2.2.2.1 hl.1.2.2.1 (by omega) (by omega)
  obtain ⟨before, hsplit, hlength, hlacks⟩ := exists_before_exit hcode
  rw [hsplit, Code.labelEnd?_of_lacks (hlacks (hfresh _ (by omega) (by omega)) hbody), hlength]
  rfl

end
end Block.Placed

structure LoopSite.Stands (p : LoopSite) (one : Nat) (t : Tables) (code : Code) : Prop where
  test : code.drop p.check = p.header.check (p.top + 1) (code.drop p.inside)
  inside : p.inside = p.check + p.header.test.length + 2
  back : ∃ rest, code.drop p.behind = p.header.back one p.top p.endRow rest
  stop : p.stop = p.behind + (p.header.next one p.endRow).length + 4
  top : jumpTarget code t p.top = .ok p.check
  exit : jumpTarget code t (p.top + 1) = .ok p.stop
  proper : p.header.Proper
  linked : AllLinked t p.header.lexemes
  one : p.header.counts → (Operand.value (.number 1)).Denotes t (.constant one)

structure ConditionalSite.Stands (p : ConditionalSite) (t : Tables) (code : Code) : Prop where
  code : ∃ skip i, p.mark.link = some i ∧ jumpTarget code t skip = .ok p.stop ∧
    code.drop p.start = p.condition.code ++ .identifier p.word.row skip :: .op p.word.row .branch ::
      .identifier p.mark.row i :: .op p.jump.row .goto ::
      .identifier p.mark.row skip :: .op p.mark.row .label :: code.drop p.stop
  ordered : p.condition.Ordered
  condition : isCondition p.condition.lexemes
  mark : p.mark.isIdentifier
  linked : AllLinked t p.condition.lexemes ∧ p.mark.LinkedIn t

theorem drop_of_append {code rest : Code} {n : Nat} (front : Code) (h : code = front ++ rest)
    (hn : front.length = n) : code.drop n = rest := by
  rw [h, ← hn, List.drop_left]

namespace Block.Placed
variable {header : Header} {opening closing word thenWord jump mark : Lexeme} {condition : Expr}
  {b body rest : Block} {one next : Nat} {names t : Tables} {code front post : Code}

theorem stands_loop (h : (loop header opening body closing rest).Placed one next names t code front post) :
    (header.site one body closing.row next front.length).Stands one t code := by
  have hmark := h.fits.marks
  simp only [marks] at hmark
  obtain ⟨hl, -, -, hone⟩ := h.fits.of_loop
  have htop := hmark (next + body.marks) (by omega) (by omega)
  have hexit := hmark (next + body.marks + 1) (by omega) (by omega)
  have hinside : code.drop (header.site one body closing.row next front.length).inside = _ :=
    drop_of_append _ h.body_of_loop.code_eq (by simp [Header.site])
  refine ⟨?_, ?_, ⟨.identifier closing.row (next + body.marks + 1) :: .op closing.row .label ::
    (rest.code one (next + body.marks + 2) ++ post), ?_⟩, ?_, jumpTarget_eq_ok_iff.2 ⟨htop, h.labelEnd?_top⟩,
    jumpTarget_eq_ok_iff.2 ⟨hexit, h.labelEnd?_exit⟩, h.proper.1, hl, hone⟩
  · rw [hinside]
    refine drop_of_append (front ++ header.start ++
      [.identifier header.word.row (next + body.marks), .op header.word.row .label]) ?_ ?_
    · rw [h.code_eq, code_loop]
      simp [Header.site, Header.back, Header.leave]
    · simp [Header.site, Nat.add_assoc]
  · simp only [Header.site, Header.enter, List.length_append, List.length_cons, List.length_nil]
    omega
  · refine drop_of_append (front ++ header.enter (next + body.marks) (next + body.marks + 1) ++
      body.code one next) ?_ ?_
    · simp [h.code_eq, Block.code, Header.site, Header.back, Header.leave]
    · simp [Header.site, Nat.add_assoc]
  · simp [Header.site, Header.leave, Nat.add_assoc]

theorem stands_conditional
    (h : (simple (.conditional word condition thenWord jump mark) rest).Placed one next names t code
      front post) {p : ConditionalSite}
    (hp : (Simple.conditional word condition thenWord jump mark).site? next front.length = some p) :
    p.Stands t code := by
  cases hp
  obtain ⟨-, hordered, hcondition, -, -, hmark⟩ := h.proper.1
  have hl := h.fits.of_simple.1
  simp only [Simple.lexemes, allLinked_cons, allLinked_append] at hl
  obtain ⟨i, hlink, -, hrecords⟩ := recordsOf_name hl.2.2.2.2.1 hmark
  have hjump : recordsOf [.operand mark, .operator .goto jump.row] =
      [.identifier mark.row i, .op jump.row .goto] := by
    rw [recordsOf_cons, recordsOf_operator, show recordsOf [.operand mark] = _ from hrecords mark.row]
    rfl
  have hsplit : code = front ++ (condition.code ++ [.identifier word.row next, .op word.row .branch,
      .identifier mark.row i, .op jump.row .goto]) ++ .identifier mark.row next ::
      .op mark.row .label :: (rest.code one (next + 1) ++ post) := by
    simp [h.code_eq, Block.code, Simple.code, Simple.marks, hjump]
  have hlacks : Code.Lacks next (front ++ (condition.code ++ [.identifier word.row next,
      .op word.row .branch, .identifier mark.row i, .op jump.row .goto])) := by
    refine (h.fresh next le_rfl (by simp only [marks, Simple.marks]; omega)).append
      (Code.NoLabel.lacks ?_ next)
    simp [condition.noLabel_code, Record.identifier, Record.op]
  have hlabel := Code.labelEnd?_of_lacks hlacks mark.row mark.row (rest.code one (next + 1) ++ post)
  rw [← hsplit] at hlabel
  have hlength : ((Simple.conditional word condition thenWord jump mark).code next).length =
      condition.code.length + 6 := by
    simp [Simple.code, hjump]
  have htype := h.fits.marks next le_rfl (by simp only [marks, Simple.marks]; omega)
  refine ⟨⟨next, i, hlink, ?_, ?_⟩, hordered, hcondition, hmark, hl.2.1, hl.2.2.2.2.1⟩
  · refine (jumpTarget_eq_ok_iff.2 ⟨htype, hlabel⟩).trans ?_
    simp only [hlength, List.length_append, List.length_cons, List.length_nil]
    rfl
  · rw [drop_of_append _ h.rest_of_simple.code_eq List.length_append]
    refine drop_of_append front ?_ rfl
    rw [hsplit]
    simp [Simple.marks]

theorem stands_of_mem_loops (h : b.Placed one next names t code front post) {p : LoopSite}
    (hp : p ∈ b.loops one next front.length) : p.Stands one t code := by
  induction b generalizing front post next with
  | done => cases hp
  | simple s rest ih =>
    refine ih h.rest_of_simple ?_
    rwa [List.length_append]
  | loop header opening body closing rest ihbody ihrest =>
    simp only [loops, List.cons_append, List.mem_cons, List.mem_append] at hp
    rcases hp with rfl | hp | hp
    · exact h.stands_loop
    · refine ihbody h.body_of_loop ?_
      rwa [List.length_append]
    · refine ihrest h.rest_of_loop ?_
      simpa only [Header.site, List.length_append, Nat.add_assoc] using hp

theorem stands_of_mem_conditionals (h : b.Placed one next names t code front post)
    {p : ConditionalSite} (hp : p ∈ b.conditionals one next front.length) : p.Stands t code := by
  induction b generalizing front post next with
  | done => cases hp
  | simple s rest ih =>
    rcases List.mem_append.1 hp with hp | hp
    · cases s with
      | conditional word condition thenWord jump mark =>
        exact h.stands_conditional (Option.mem_toList.1 hp)
      | definition | goto | label => cases hp
    · refine ih h.rest_of_simple ?_
      rwa [List.length_append]
  | loop header opening body closing rest ihbody ihrest =>
    rcases List.mem_append.1 hp with hp | hp
    · refine ihbody h.body_of_loop ?_
      rwa [List.length_append]
    · refine ihrest h.rest_of_loop ?_
      simpa only [Header.site, List.length_append, Nat.add_assoc] using hp

end Block.Placed

namespace Block
variable {b : Block} {one next start : Nat} {p q : LoopSite}

theorem bounds_of_mem_loops (h : p ∈ b.loops one next start) :
    start < p.check ∧ p.check < p.inside ∧ p.inside ≤ p.behind ∧ p.behind < p.stop ∧
      p.stop ≤ start + (b.code one next).length := by
  induction b generalizing next start with
  | done => cases h
  | simple s rest ih =>
    have hrest := ih h
    simp only [code, List.length_append]
    omega
  | loop header opening body closing rest ihbody ihrest =>
    simp only [loops, List.cons_append, List.mem_cons, List.mem_append] at h
    simp only [code, List.length_append]
    rcases h with rfl | h | h
    · simp only [Header.site, Header.enter, Header.leave, List.length_append, List.length_cons,
        List.length_nil]
      omega
    · have hbody := ihbody h
      simp only [Header.site] at hbody
      omega
    · have hrest := ihrest h
      simp only [Header.site] at hrest
      omega

/-- No test of a loop starts where another does, or where a round of another ends. -/
theorem check_of_mem_loops (hp : p ∈ b.loops one next start) (hq : q ∈ b.loops one next start) :
    (q.check < p.behind ∨ p.stop ≤ q.check) ∧ (q.check = p.check → q = p) := by
  induction b generalizing next start with
  | done => cases hp
  | simple s rest ih => exact ih hp hq
  | loop header opening body closing rest ihbody ihrest =>
    have hown := bounds_of_mem_loops (p := header.site one body closing.row next start)
      (b := loop header opening body closing rest) List.mem_cons_self
    have hbehind : (header.site one body closing.row next start).behind =
        (header.site one body closing.row next start).inside + (body.code one next).length := rfl
    simp only [loops, List.cons_append, List.mem_cons, List.mem_append] at hp hq
    -- from the loop itself through its body to the rest, positions go up
    rcases hp with rfl | hp | hp
    · rcases hq with rfl | hq | hq
      · exact ⟨Or.inl (by omega), fun _ => rfl⟩
      · have hbody := bounds_of_mem_loops hq
        exact ⟨Or.inl (by omega), fun heq => by omega⟩
      · have hrest := bounds_of_mem_loops hq
        exact ⟨Or.inr (by omega), fun heq => by omega⟩
    · have hbody := bounds_of_mem_loops hp
      rcases hq with rfl | hq | hq
      · exact ⟨Or.inl (by omega), fun heq => by omega⟩
      · exact ihbody hp hq
      · have hrest := bounds_of_mem_loops hq
        exact ⟨Or.inr (by omega), fun heq => by omega⟩
    · have hrest := bounds_of_mem_loops hp
      rcases hq with rfl | hq | hq
      · exact ⟨Or.inl (by omega), fun heq => by omega⟩
      · have hbody := bounds_of_mem_loops hq
        exact ⟨Or.inl (by omega), fun heq => by omega⟩
      · exact ihrest hp hq

end Block
end RowLang
