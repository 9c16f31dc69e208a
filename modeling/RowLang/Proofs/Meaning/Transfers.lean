import Mathlib
import RowLang.Proofs.Meaning.Places
import RowLang.Proofs.Meaning.Preservation
import RowLang.Proofs.Meaning.Straight
import RowLang.Proofs.Statement.Inference

/-! Where control goes in compiled programs with jumps from anywhere to anywhere. In every state that a
run comes to, a test that holds leads to the body of its loop and one that does not behind the loop,
a conditional jump leads to its label or past itself, and a round of a loop ends at the test of that
loop. -/

namespace RowLang

namespace Machine

/-- What a jump to a name comes to, the last of so many records in a row: the machine gets right behind
the first label of the name, with an empty stack, or it fails since there is none, or since the name
is no mark. -/
inductive Jumps (n i : Nat) (e : Identifier) (row : Nat) (m : Machine) : Prop
  | label (k : Nat) (m' : Machine) (htype : e.type = .mark) (hlabel : m.code.LabelAt i k)
      (hfirst : ∀ j < k, ¬ m.code.LabelAt i j) (h : m.Arrives n (k + 2) [] m')
  | noLabel (m' : Machine) (htype : e.type = .mark) (hnone : ∀ k, ¬ m.code.LabelAt i k)
      (h : m.Passes n (.failed ⟨.labelNotFound e.name, row⟩) m')
      (hi : m'.tables.identifiers = m.tables.identifiers)
  | noMark (m' : Machine) (htype : e.type ≠ .mark)
      (h : m.Passes n (.failed ⟨.unknownMark e.name, row⟩) m')
      (hi : m'.tables.identifiers = m.tables.identifiers)

structure Ready (code : Code) (t : Tables) (σ : Store) (m : Machine) : Prop where
  code : m.code = code
  limit : m.limit = none
  keeps : t.Keeps m.tables
  mirrors : m.tables.Mirrors σ

end Machine

open Machine

section
variable {code : Code} {t : Tables} {σ σ' : Store} {m : Machine} {one : Nat}

theorem Machine.Ready.stands {rest : Code} {position : Nat} (h : m.Ready code t σ)
    (hat : m.cursor = position) (hs : code.drop position = rest) : m.Stands code rest :=
  ⟨h.code, by rw [hat, hs], h.limit⟩

theorem Machine.Ready.linked {ls : List Lexeme} (h : m.Ready code t σ) (hl : AllLinked t ls) :
    AllLinked m.tables ls := fun l hmem => h.keeps.linkedIn (hl l hmem)

namespace LoopSite.Stands
variable {p : LoopSite} (hp : p.Stands one t code) (hm : m.Ready code t σ)
include hp hm

theorem branches (hat : m.cursor = p.check) :
    m.Branches (p.header.test.length + 2) p.inside p.stop σ m.stack (p.header.holds σ) := by
  have hs := hm.stands hat hp.test
  have hinside : p.inside = m.cursor + (p.header.test.length + 2) := by rw [hat, hp.inside, Nat.add_assoc]
  rw [hinside]
  exact Header.branches_test hp.proper (hm.linked hp.linked) hm.mirrors
    (by rw [jumpTarget_keeps hm.keeps, hp.exit]) hs

theorem returns (hat : m.cursor = p.behind) (hσ : p.header.advance p.endRow σ = (.finished, σ')) :
    ∃ m', m.Passes ((p.header.next one p.endRow).length + 2) .running m' ∧ m'.cursor = p.check ∧
      m'.stack = [] ∧ m'.tables.identifiers.store = σ' := by
  obtain ⟨rest, hback⟩ := hp.back
  have hs := hm.stands hat hback
  have hone (hc : p.header.counts) : (Operand.value (.number 1)).Denotes m.tables (.constant one) :=
    hm.keeps.denotes (hp.one hc)
  have hnext := Header.performs_next hp.proper (hm.linked hp.linked) hm.mirrors hone hs
  rw [hσ] at hnext
  obtain ⟨stack, m₁, hm₁⟩ := hnext
  have htop : jumpTarget code m₁.tables p.top = .ok p.check := by
    rw [jumpTarget_keeps (hm.keeps.trans (keeps_of_run hm₁.passes.run)), hp.top]
  obtain ⟨m₂, hm₂⟩ := arrives_goto (hm₁.passes.stands hm₁.cursor hs rfl) htop
  exact ⟨m₂, hm₁.passes.trans hm₁.cursor hm₂.passes, hm₂.cursor, hm₂.stack,
    by rw [hm₂.identifiers, hm₁.mirrors.store_eq]⟩

end LoopSite.Stands

namespace ConditionalSite.Stands
variable {p : ConditionalSite} (hp : p.Stands t code) (hm : m.Ready code t σ)
  (hat : m.cursor = p.start)
include hp hm hat

theorem branches : m.Branches (p.condition.code.length + 2)
    (m.cursor + (p.condition.code.length + 2)) p.stop σ m.stack (p.holds σ) := by
  obtain ⟨skip, i, -, hskip, hcode⟩ := hp.code
  have hs := hm.stands hat hcode
  exact (p.condition.yields hp.ordered (inExpression_of_isCondition hp.condition)
    (hm.linked hp.linked.1) hm.mirrors hs).branches fun a m' hm' =>
      hm'.branches_test hs hm.mirrors (by rw [jumpTarget_keeps hm.keeps, hskip])

theorem jumps (hb : p.holds σ = .ok true) : ∃ i e, p.mark.link = some i ∧
    t.identifiers.get? i = some e ∧ e.name = p.mark.text ∧
    m.Jumps (p.condition.code.length + 4) i e p.jump.row := by
  obtain ⟨skip, i, hlink, -, hcode⟩ := hp.code
  obtain ⟨j, hj, e, he, hname⟩ := hp.linked.2.2 (Lexeme.kind_of_isIdentifier hp.mark)
  obtain rfl : i = j := Option.some.inj (hlink.symm.trans hj)
  have hs := hm.stands hat hcode
  have htest := hp.branches hm hat
  rw [hb] at htest
  obtain ⟨m₂, hm₂⟩ := htest
  have hs₂ := hs.of_run hm₂.passes.run (by rw [hm₂.cursor, hs.drop_two])
  have htarget := jumpTarget_keeps (hm.keeps.trans (keeps_of_run hm₂.passes.run)) code i
  refine ⟨i, e, hlink, he, hname, ?_⟩
  by_cases htype : e.type = .mark
  · cases hend : code.labelEnd? i with
    | some position =>
      obtain ⟨k, rfl, hlabel, hfirst⟩ := Code.labelEnd?_eq_some_iff.1 hend
      have hlabelled := jumpTarget_eq_ok_iff.2 ⟨⟨e, he, htype⟩, hend⟩
      obtain ⟨m₃, hm₃⟩ := arrives_goto hs₂ (htarget.trans hlabelled)
      rw [← hm.code] at hlabel hfirst
      exact .label k m₃ htype hlabel hfirst (hm₂.trans hm₃)
    | none =>
      have hnone : jumpTarget code t i = .error (.labelNotFound e.name) := by
        simp only [jumpTarget, Tables.identifier, he, bind, Except.bind, htype, if_true, hend]
      obtain ⟨m₃, hm₃, hi⟩ := passes_goto_failed hs₂ (htarget.trans hnone)
      have hno := Code.labelEnd?_eq_none_iff.1 hend
      rw [← hm.code] at hno
      exact .noLabel m₃ htype (fun k hk => hno ⟨k, hk⟩) (hm₂.passes.trans hm₂.cursor hm₃)
        (hi.trans hm₂.identifiers)
  · have hmark : jumpTarget code t i = .error (.unknownMark e.name) := by
      simp only [jumpTarget, Tables.identifier, he, bind, Except.bind, htype, if_false]
    obtain ⟨m₃, hm₃, hi⟩ := passes_goto_failed hs₂ (htarget.trans hmark)
    exact .noMark m₃ htype (hm₂.passes.trans hm₂.cursor hm₃) (hi.trans hm₂.identifiers)

end ConditionalSite.Stands
end

namespace Block

def allLoops (b : Block) (t : Tables) : List LoopSite :=
  b.loops (t.constants.intern (.number 1)).2 t.identifiers.size 0

def allConditionals (b : Block) (t : Tables) : List ConditionalSite :=
  b.conditionals (t.constants.intern (.number 1)).2 t.identifiers.size 0

theorem placed_lower {b : Block} {t : Tables} (hp : b.Proper) (ht : t.Lexed)
    (hl : AllLinked t b.lexemes) :
    b.Placed (t.constants.intern (.number 1)).2 t.identifiers.size t (b.lower t).tables
      (b.lower t).code [] [] :=
  ⟨by rw [List.append_nil]; rfl, fun mark _ _ => Code.noLabel_nil.lacks mark, hp, hl, le_rfl,
    fits_lower ht hl⟩

end Block

/-- In every state that runs of a compiled program come to, whatever jumps there are and whatever failed
before, once its limit is lifted:

* at a conditional jump whose condition holds, the machine gets behind the first label of its name or
  fails to find one, and if the condition does not hold, it gets behind the statement;
* at the test of a loop, which stands behind the label of the loop, it gets to the body or behind the
  loop, as the test says;
* at the end of a body it gets, once the counter has gone up, to the test of that loop, and on the way to
  no test of a loop.

All this takes place in a row of records, and tests bind no names. -/
theorem compile_transfers_control {s : Settings} {source : String} {compiled : Compiled}
    (h : s.compile source = .ok compiled) :
    (∃ b : Block, b.Reads compiled.lexemes) ∧
    ∀ b : Block, b.Reads compiled.lexemes → ∀ fuels : List Nat,
      let m := ((s.load compiled.program).resumed fuels).withLimit none
      let σ := m.tables.identifiers.store
      (∀ p ∈ b.allConditionals (lex source).tables, m.cursor = p.start →
        (p.holds σ = .ok true → ∃ i e, p.mark.link = some i ∧
          compiled.program.tables.identifiers.get? i = some e ∧ e.name = p.mark.text ∧
          m.Jumps (p.condition.code.length + 4) i e p.jump.row) ∧
        (p.holds σ = .ok false →
          ∃ m', m.Arrives (p.condition.code.length + 2) p.stop [] m')) ∧
      ∀ p ∈ b.allLoops (lex source).tables,
        (∃ k, p.check = k + 2 ∧ m.code.LabelAt p.top k) ∧
        (m.cursor = p.check →
          (p.header.holds σ = .ok true →
            ∃ m', m.Arrives (p.header.test.length + 2) p.inside m.stack m') ∧
          (p.header.holds σ = .ok false →
            ∃ m', m.Arrives (p.header.test.length + 2) p.stop [] m')) ∧
        (m.cursor = p.behind → ∀ σ', p.header.advance p.endRow σ = (.finished, σ') →
          ∃ n m', m.Passes n .running m' ∧ m'.cursor = p.check ∧ m'.stack = [] ∧
            m'.tables.identifiers.store = σ' ∧
            ∀ q ∈ b.allLoops (lex source).tables, ∀ j ≤ n,
              (m.run j).2.cursor = q.check → j = n ∧ q = p) := by
  obtain ⟨hlexemes, hparse⟩ := Settings.parse_of_compile h
  obtain ⟨hlexed, hlinked⟩ := lex_spec source
  rw [hlexemes]
  refine ⟨(isList_of_parse hparse).exists_tree.imp fun b hb => hb.2, ?_⟩
  intro b hb fuels m σ
  have hprogram := eq_lower_of_parse hparse hb
  have hplaced := b.placed_lower hb.1 hlexed (by rwa [hb.2])
  rw [← hprogram] at hplaced
  have hcontinues := (s.load compiled.program).continues_resumed fuels
  have hstart : (s.load compiled.program).tables.Mirrors
      (s.load compiled.program).tables.identifiers.store := by
    rw [hprogram]
    exact b.mirrors_lower hlexed
  have hready : m.Ready compiled.program.code compiled.program.tables σ :=
    ⟨hcontinues.code, rfl, hcontinues.tables, mirrors_resumed hstart fuels⟩
  refine ⟨fun p hp hat => ?_, fun p hp => ?_⟩
  · have hstands := hplaced.stands_of_mem_conditionals hp
    refine ⟨hstands.jumps hready hat, fun hb => ?_⟩
    have hbranches := hstands.branches hready hat
    rwa [hb] at hbranches
  · have hstands := hplaced.stands_of_mem_loops hp
    refine ⟨?_, fun hat => ?_, ?_⟩
    · obtain ⟨k, hk, hlabel, -⟩ :=
        Code.labelEnd?_eq_some_iff.1 (jumpTarget_eq_ok_iff.1 hstands.top).2
      rw [← hready.code] at hlabel
      exact ⟨k, hk, hlabel⟩
    · have hbranches := hstands.branches hready hat
      exact ⟨fun hb => by rwa [hb] at hbranches, fun hb => by rwa [hb] at hbranches⟩
    · intro hat σ' hσ
      obtain ⟨m', hpasses, hcursor, hstack, hstore⟩ := hstands.returns hready hat hσ
      refine ⟨_, m', hpasses, hcursor, hstack, hstore, fun q hq j hj hthere => ?_⟩
      obtain ⟨hapart, hsame⟩ := Block.check_of_mem_loops hp hq
      rcases hj.lt_or_eq with hlt | rfl
      · have hrow := (hpasses.straight j hlt).2
        have hstop := hstands.stop
        omega
      · rw [hpasses.run] at hthere
        exact ⟨rfl, hsame (hthere.symm.trans hcursor)⟩

/-- `val a = true`, `val b = false`, `while b do L : end` and `if a then goto L`, each on its row. -/
def jumpInside : Block :=
  .simple (.definition (.declaration ⟨1, "val", .declaration .val, none⟩ ⟨1, "a", .identifier, some 0⟩
    none (some (⟨1, "=", .assign, none⟩, .operand ⟨1, "true", .constant, some 0⟩)))) <|
  .simple (.definition (.declaration ⟨2, "val", .declaration .val, none⟩ ⟨2, "b", .identifier, some 1⟩
    none (some (⟨2, "=", .assign, none⟩, .operand ⟨2, "false", .constant, some 1⟩)))) <|
  .loop (.whileLoop ⟨3, "while", .loop .whileWord, none⟩ (.operand ⟨3, "b", .identifier, some 1⟩))
    ⟨3, "do", .loop .doWord, none⟩
    (.simple (.label ⟨3, "L", .identifier, some 2⟩ ⟨3, ":", .punct, none⟩) .done)
    ⟨3, "end", .loop .endWord, none⟩ <|
  .simple (.conditional ⟨4, "if", .condition .ifWord, none⟩ (.operand ⟨4, "a", .identifier, some 0⟩)
    ⟨4, "then", .condition .thenWord, none⟩ ⟨4, "goto", .jump, none⟩
    ⟨4, "L", .identifier, some 2⟩) .done

def jumpInsideLoop : LoopSite :=
  ⟨.whileLoop ⟨3, "while", .loop .whileWord, none⟩ (.operand ⟨3, "b", .identifier, some 1⟩), 3, 3,
    10, 13, 15, 19⟩

def jumpInsideJump : ConditionalSite :=
  ⟨⟨4, "if", .condition .ifWord, none⟩, .operand ⟨4, "a", .identifier, some 0⟩,
    ⟨4, "goto", .jump, none⟩, ⟨4, "L", .identifier, some 2⟩, 19, 26⟩

theorem jumpInside_reads : jumpInside.Reads
    (lex "val a = true\nval b = false\nwhile b do L : end\nif a then goto L").lexemes := by
  refine ⟨⟨⟨⟨.val, rfl, by simp⟩, rfl, by simp, proper_value_of_operand rfl rfl (by decide +kernel)⟩,
    minimal_of_row (by decide +kernel), by decide +kernel,
    ⟨⟨.val, rfl, by simp⟩, rfl, by simp, proper_value_of_operand rfl rfl (by decide +kernel)⟩,
    minimal_of_row (by decide +kernel), by decide +kernel, ?_⟩, by decide +kernel⟩
  refine ⟨⟨rfl, rfl, by decide +kernel⟩, rfl, by simp,
    ⟨⟨rfl, rfl⟩, minimal_of_row (by decide +kernel), by decide +kernel, trivial⟩, rfl,
    minimal_of_row (by decide +kernel), by decide +kernel, ?_⟩
  exact ⟨⟨rfl, rfl, by decide +kernel, rfl, rfl, rfl⟩, minimal_of_row (by decide +kernel),
    by decide +kernel, trivial⟩

theorem jumpInside_sites {t : Tables} (h : t.identifiers.size = 3) :
    jumpInside.allLoops t = [jumpInsideLoop] ∧ jumpInside.allConditionals t = [jumpInsideJump] := by
  rw [Block.allLoops, Block.allConditionals, h]
  exact ⟨rfl, rfl⟩

/-- The loop is left at once; then the jump leads into its body, from whose end the machine gets to the
test of the loop. -/
theorem compile_transfers_control_of_jump_inside : ∃ source compiled,
    source = "val a = true\nval b = false\nwhile b do L : end\nif a then goto L" ∧
    Settings.compile {} source = .ok compiled ∧ jumpInside.Reads compiled.lexemes ∧
    jumpInsideLoop ∈ jumpInside.allLoops (lex source).tables ∧
    jumpInsideJump ∈ jumpInside.allConditionals (lex source).tables ∧
    let m (n : Nat) := ((Settings.load {} compiled.program).resumed [n]).withLimit none
    ((m 10).cursor = jumpInsideLoop.check ∧
      jumpInsideLoop.header.holds (m 10).tables.identifiers.store = .ok false ∧
      ∃ m', (m 10).Arrives 3 jumpInsideLoop.stop [] m') ∧
    ((m 13).cursor = jumpInsideJump.start ∧
      jumpInsideJump.holds (m 13).tables.identifiers.store = .ok true ∧
      ∃ m', (m 13).Arrives 5 jumpInsideLoop.behind [] m') ∧
    (m 18).cursor = jumpInsideLoop.behind ∧
      ∃ n m', (m 18).Passes n .running m' ∧ m'.cursor = jumpInsideLoop.check := by
  set source := "val a = true\nval b = false\nwhile b do L : end\nif a then goto L" with hsource
  obtain ⟨hloops, hjumps⟩ := jumpInside_sites (t := (lex source).tables) (by decide +kernel)
  obtain ⟨compiled, hc, hstates⟩ := exists_of_any (r := Settings.compile {} source)
    (p := fun compiled =>
      let m (n : Nat) := ((Settings.load {} compiled.program).resumed [n]).withLimit none
      decide (((m 10).cursor = 10 ∧
          jumpInsideLoop.header.holds (m 10).tables.identifiers.store = .ok false) ∧
        ((m 13).cursor = 19 ∧
          jumpInsideJump.holds (m 13).tables.identifiers.store = .ok true) ∧
        (m 18).cursor = 15 ∧ (m 13).code.labelEnd? 2 = some 15 ∧
        (compiled.program.tables.identifiers.get? 2).map Identifier.type = some .mark))
    (by decide +kernel)
  obtain ⟨⟨hat, hfalse⟩, ⟨hat', htrue⟩, hat'', hend, htype⟩ := of_decide_eq_true hstates
  have hreads : jumpInside.Reads compiled.lexemes := by
    rw [(Settings.parse_of_compile hc).1]
    exact jumpInside_reads
  have hall := (compile_transfers_control hc).2 jumpInside hreads
  have hloop : jumpInsideLoop ∈ jumpInside.allLoops (lex source).tables := by simp [hloops]
  have hjump : jumpInsideJump ∈ jumpInside.allConditionals (lex source).tables := by simp [hjumps]
  refine ⟨source, compiled, hsource, hc, hreads, hloop, hjump,
    ⟨hat, hfalse, (((hall [10]).2 _ hloop).2.1 hat).2 hfalse⟩, ⟨hat', htrue, ?_⟩, hat'', ?_⟩
  · obtain ⟨i, e, hlink, he, -, hjumps⟩ := ((hall [13]).1 _ hjump hat').1 htrue
    cases hlink
    cases hjumps with
    | label k m' _ hlabel hfirst harrives =>
      have hk := Code.labelEnd?_eq_some_iff.2 ⟨k, rfl, hlabel, hfirst⟩
      rw [hend] at hk
      cases hk
      exact ⟨m', harrives⟩
    | noLabel m' _ hnone =>
      obtain ⟨k, -, hlabel, -⟩ := Code.labelEnd?_eq_some_iff.1 hend
      exact absurd hlabel (hnone k)
    | noMark m' hmark =>
      rw [he] at htype
      exact absurd (Option.some.inj htype) hmark
  · obtain ⟨n, m', hpasses, hcursor, -⟩ := ((hall [18]).2 _ hloop).2.2 hat'' _ rfl
    exact ⟨n, m', hpasses, hcursor⟩

end RowLang
