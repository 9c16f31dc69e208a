import Mathlib
import RowLang.Proofs.Machine.Pieces
import RowLang.Proofs.Statement.Labels
import RowLang.Proofs.Statement.References

/-! Compiled code is stack safe. The code of every tree is put together from straight pieces, whatever
jumps there are; between statements the stack holds the names of the declarations without an
initializer that ran since the last jump. -/

namespace RowLang

/-- Where the code of a statement, or of the definition in a `for` header, starts and stops, and the
name it leaves on the stack if it is a declaration without an initializer. -/
structure Site where
  start : Nat
  stop : Nat
  bare : Option Nat

namespace Definition

def bare? : Definition → Option Nat
  | declaration _ name _ none => name.link
  | _ => none

end Definition

namespace Simple

def bare? : Simple → Option Nat
  | definition d => d.bare?
  | _ => none

end Simple

namespace Header

def sites (start : Nat) : Header → List Site
  | whileLoop .. => []
  | forLoop _ init _ _ => [⟨start, start + init.code.length, init.bare?⟩]

end Header

namespace Block

def sites (one : Nat) : Block → Nat → Nat → List Site
  | done, _, _ => []
  | simple s rest, next, start =>
    ⟨start, start + (s.code next).length, s.bare?⟩ ::
      rest.sites one (next + s.marks) (start + (s.code next).length)
  | loop header _ body closing rest, next, start =>
    let top := next + body.marks
    let inside := start + (header.enter top (top + 1)).length
    let behind := inside + (body.code one next).length
    let stop := behind + (header.leave one top (top + 1) closing.row).length
    ⟨start, stop, none⟩ :: header.sites start ++ body.sites one next inside ++
      rest.sites one (top + 2) stop

end Block

def Site.leftAt (sites : List Site) (position : Nat) : List Nat :=
  sites.filterMap fun site => if site.stop = position then site.bare else none

namespace Simple

def pieces (next : Nat) : Simple → List Piece
  | definition d => [⟨d.code, d.bare?⟩]
  | conditional word condition _ jump mark =>
    [{ code := condition.code ++ [.identifier word.row next, .op word.row .branch] },
      { code := recordsOf [.operand mark, .operator .goto jump.row] },
      { code := [.identifier mark.row next, .op mark.row .label] }]
  | goto word mark => [{ code := recordsOf [.operand mark, .operator .goto word.row] }]
  | label mark colon => [{ code := recordsOf [.operand mark, .operator .label colon.row] }]

end Simple

namespace Header

def startPieces : Header → List Piece
  | whileLoop .. => []
  | forLoop _ init _ _ => [⟨init.code, init.bare?⟩]

def nextPieces (one endRow : Nat) : Header → List Piece
  | whileLoop .. => []
  | forLoop word init toWord bound => [{ code := (forLoop word init toWord bound).next one endRow }]

def enterPieces (h : Header) (top exit : Nat) : List Piece :=
  h.startPieces ++ [{ code := [.identifier h.word.row top, .op h.word.row .label] },
    { code := h.test ++ [.identifier h.word.row exit, .op h.word.row .branch] }]

def leavePieces (h : Header) (one top exit endRow : Nat) : List Piece :=
  h.nextPieces one endRow ++ [{ code := [.identifier endRow top, .op endRow .goto] },
    { code := [.identifier endRow exit, .op endRow .label] }]

end Header

def Block.pieces (one : Nat) : Block → Nat → List Piece
  | done, _ => []
  | simple s rest, next => s.pieces next ++ rest.pieces one (next + s.marks)
  | loop header _ body closing rest, next =>
    let top := next + body.marks
    header.enterPieces top (top + 1) ++ body.pieces one next ++
      header.leavePieces one top (top + 1) closing.row ++ rest.pieces one (top + 2)

section
variable {position : Nat}

theorem Simple.joined_pieces (s : Simple) (next : Nat) :
    Piece.joined (s.pieces next) = s.code next := by
  cases s <;> simp [pieces, Piece.joined, code]

theorem Header.joined_enterPieces (h : Header) (top exit : Nat) :
    Piece.joined (h.enterPieces top exit) = h.enter top exit := by
  cases h <;> simp [enterPieces, startPieces, Piece.joined, enter, start]

theorem Header.joined_leavePieces (h : Header) (one top exit endRow : Nat) :
    Piece.joined (h.leavePieces one top exit endRow) = h.leave one top exit endRow := by
  cases h <;> simp [leavePieces, nextPieces, Piece.joined, leave, next]

theorem Block.joined_pieces (b : Block) (one next : Nat) :
    Piece.joined (b.pieces one next) = b.code one next := by
  induction b generalizing next with
  | done => rfl
  | simple s rest ih => rw [pieces, Piece.joined_append, s.joined_pieces, ih, code]
  | loop header o body c rest ihb ihr =>
    simp only [pieces, Piece.joined_append, header.joined_enterPieces, ihb,
      header.joined_leavePieces, ihr, code]

theorem Site.leftAt_cons (site : Site) (sites : List Site) : leftAt (site :: sites) position =
    (if site.stop = position then site.bare.toList else []) ++ leftAt sites position := by
  unfold leftAt
  rw [List.filterMap_cons]
  split
  · rename_i h
    split at h <;> simp_all
  · rename_i h
    split at h <;> simp_all

theorem Site.leftAt_append (sites sites' : List Site) :
    leftAt (sites ++ sites') position = leftAt sites position ++ leftAt sites' position :=
  List.filterMap_append

theorem Simple.leftAt_pieces (s : Simple) (next start : Nat) :
    Piece.leftAt position start (s.pieces next) =
      if start + (s.code next).length = position then s.bare?.toList else [] := by
  cases s with
  | definition d => exact List.append_nil _
  | _ => simp only [pieces, Piece.leftAt, bare?, Option.toList_none, ite_self, List.append_nil]

theorem Header.leftAt_enterPieces (h : Header) (top exit start : Nat) :
    Piece.leftAt position start (h.enterPieces top exit) = Site.leftAt (h.sites start) position := by
  cases h <;> simp [enterPieces, startPieces, Piece.leftAt, sites, Site.leftAt_cons] <;> rfl

theorem Header.leftAt_leavePieces (h : Header) (one top exit endRow start : Nat) :
    Piece.leftAt position start (h.leavePieces one top exit endRow) = [] := by
  cases h <;> simp [leavePieces, nextPieces, Piece.leftAt]

theorem Block.leftAt_sites (b : Block) (one next start : Nat) :
    Site.leftAt (b.sites one next start) position =
      Piece.leftAt position start (b.pieces one next) := by
  induction b generalizing next start with
  | done => rfl
  | simple s rest ih =>
    rw [sites, pieces, Site.leftAt_cons, Piece.leftAt_append, s.leftAt_pieces, s.joined_pieces, ih]
  | loop header o body c rest ihb ihr =>
    simp only [sites, pieces, List.cons_append, Site.leftAt_cons, Site.leftAt_append, Piece.leftAt_append,
      Piece.joined_append, header.leftAt_enterPieces, header.leftAt_leavePieces, ihb, ihr,
      header.joined_enterPieces, header.joined_leavePieces, body.joined_pieces, List.length_append,
      Option.toList_none, ite_self, List.nil_append, List.append_nil, Nat.add_assoc]

theorem Block.front_of_site (b : Block) (one next start : Nat) {site : Site}
    (h : site ∈ b.sites one next start) :
    ∃ front rest, b.pieces one next = front ++ rest ∧
      site.start = start + (Piece.joined front).length := by
  induction b generalizing next start with
  | done => simp [sites] at h
  | simple s rest ih =>
    rcases List.mem_cons.1 h with rfl | h
    · exact ⟨[], _, rfl, by simp [Piece.joined]⟩
    · obtain ⟨front, rest', hp, hstart⟩ := ih _ _ h
      refine ⟨s.pieces next ++ front, rest', by rw [pieces, hp, List.append_assoc], ?_⟩
      rw [hstart, Piece.joined_append, s.joined_pieces, List.length_append, Nat.add_assoc]
  | loop header o body c rest ihb ihr =>
    simp only [sites, List.cons_append, List.mem_cons, List.mem_append] at h
    rcases h with rfl | (h | h) | h
    · exact ⟨[], _, rfl, by simp [Piece.joined]⟩
    · refine ⟨[], _, rfl, ?_⟩
      cases header with
      | whileLoop => simp [Header.sites] at h
      | forLoop =>
        obtain rfl := List.mem_singleton.1 h
        simp [Piece.joined]
    · obtain ⟨front, rest', hp, hstart⟩ := ihb _ _ h
      refine ⟨header.enterPieces (next + body.marks) (next + body.marks + 1) ++ front,
        rest' ++ header.leavePieces one (next + body.marks) (next + body.marks + 1) c.row ++
          rest.pieces one (next + body.marks + 2), by simp [pieces, hp], ?_⟩
      rw [hstart, Piece.joined_append, header.joined_enterPieces, List.length_append, Nat.add_assoc]
    · obtain ⟨front, rest', hp, hstart⟩ := ihr _ _ h
      refine ⟨header.enterPieces (next + body.marks) (next + body.marks + 1) ++ body.pieces one next ++
        header.leavePieces one (next + body.marks) (next + body.marks + 1) c.row ++ front,
        rest', by simp [pieces, hp], ?_⟩
      rw [hstart]
      simp only [Piece.joined_append, header.joined_enterPieces, header.joined_leavePieces,
        body.joined_pieces, List.length_append, Nat.add_assoc]

end

def Code.RefsIn (t : Tables) (code : Code) : Prop :=
  ∀ record ∈ code, ∀ ref, record.instr = .push ref → ref.Valid t

namespace Expr
variable {t : Tables} {e : Expr} {l : Lexeme}

theorem track_code (he : e.Ordered) (hk : ∀ l ∈ e.lexemes, l.kind.inExpression)
    (hl : AllLinked t e.lexemes) (shape : List Slot) :
    ∃ slot, track e.code shape = some (slot :: shape) := by
  induction e generalizing shape with
  | operand l =>
    rcases recordsOf_operand (hl l (by simp [lexemes])) he with ⟨i, hrecords, -⟩ | ⟨i, hrecords, -⟩
    · exact ⟨.operand, by rw [code, items, hrecords]; rfl⟩
    · exact ⟨.name i, by rw [code, items, hrecords]; rfl⟩
  | group o e c ih =>
    simp only [lexemes, List.forall_mem_cons, List.forall_mem_append] at hk
    simp only [lexemes, allLinked_cons, allLinked_append] at hl
    exact ih he.2.2 hk.2.1 hl.2.1 shape
  | unary l e ih =>
    simp only [lexemes, List.forall_mem_cons] at hk
    simp only [lexemes, allLinked_cons] at hl
    obtain ⟨slot, hslot⟩ := ih he.2.2 hk.2 hl.2 shape
    rw [code] at hslot
    rw [code, items, recordsOf_append, track_append, hslot]
    rcases unaryItems_cases he.1 hk.1 with ⟨-, hu⟩ | ⟨-, hu⟩
    · exact ⟨slot, by rw [hu]; rfl⟩
    · exact ⟨.operand, by rw [hu]; rfl⟩
  | binary a l b iha ihb =>
    simp only [lexemes, List.forall_mem_cons, List.forall_mem_append] at hk
    simp only [lexemes, allLinked_cons, allLinked_append] at hl
    obtain ⟨left, hleft⟩ := iha he.2.2.2.1 hk.1 hl.1 shape
    obtain ⟨right, hright⟩ := ihb he.2.2.2.2 hk.2.2 hl.2.2 (left :: shape)
    obtain ⟨op, -, hop⟩ := exists_joinItems he.1 hk.2.1
    rw [code] at hleft hright
    refine ⟨.operand, ?_⟩
    rw [code, items, recordsOf_append, recordsOf_append, track_append, track_append, hleft,
      Option.bind_some, hright, hop]
    rfl

end Expr

namespace Piece

theorem sound_of_noLabel {p : Piece} (hne : p.code ≠ [])
    (ht : track p.code [] = some (p.bare.toList.map .name)) (hno : Code.NoLabel p.code) : p.Sound :=
  ⟨hne, ht, fun record hr hl => absurd hl (hno record hr)⟩

theorem sound_label (row row' mark : Nat) :
    Sound { code := [.identifier row mark, .op row' .label] } := by
  refine ⟨by simp, rfl, ?_⟩
  intro record hr hl
  rcases List.mem_pair.1 hr with rfl | rfl
  · exact absurd hl (by simp [Record.identifier])
  · exact ⟨_, by simp [Record.identifier], rfl⟩

theorem sound_goto (row row' mark : Nat) :
    Sound { code := [.identifier row mark, .op row' .goto] } :=
  sound_of_noLabel (by simp) rfl (by simp [Record.identifier, Record.op])

theorem sound_branch {code : Code} {slot : Slot} (row mark : Nat)
    (ht : track code [] = some [slot]) (hno : Code.NoLabel code) :
    Sound { code := code ++ [.identifier row mark, .op row .branch] } := by
  refine sound_of_noLabel (by simp) ?_ (by simp [hno, Record.identifier, Record.op])
  simp only [track_append, ht, Option.bind_some]
  rfl

end Piece

section
variable {t : Tables}

theorem Definition.sound_piece {d : Definition} {assignable : List Lexeme → Prop}
    (h : d.Proper assignable) (ha : ∀ value, assignable value → ∀ l ∈ value, l.kind.inExpression)
    (hl : AllLinked t d.lexemes) : Piece.Sound ⟨d.code, d.bare?⟩ := by
  have hno : Code.NoLabel d.code := d.expr.noLabel_code
  match d, h with
  | .declaration word name typing value, ⟨⟨declarator, hw, _⟩, hn, _, hv⟩ =>
    simp only [lexemes, allLinked_cons, allLinked_append] at hl
    obtain ⟨i, hlink, -, hrecords⟩ := recordsOf_name hl.2.1 hn
    have hcode : (declaration word name typing value).code = _ :=
      code_declaration hw (hrecords name.row) fun p hp => (hv p hp).1
    refine Piece.sound_of_noLabel (by rw [hcode]; simp) ?_ hno
    rw [hcode, track_append]
    cases value with
    | none => rw [bare?, hlink]; rfl
    | some p =>
      obtain ⟨-, hvo, hve⟩ := hv p rfl
      have hlp : AllLinked t p.2.lexemes := (allLinked_cons.1 hl.2.2.2).2
      obtain ⟨slot, hslot⟩ := Expr.track_code hvo (inExpression_of_isExpression hve) hlp [.name i]
      change track (p.2.code ++ [.op p.1.row .assign]) [.name i] = _
      rw [track_append, hslot]
      rfl
  | .assignment name sign value, ⟨hn, hs, hv, hva⟩ =>
    simp only [lexemes, allLinked_cons] at hl
    obtain ⟨i, -, -, hrecords⟩ := recordsOf_name hl.1 hn
    have hcode : (assignment name sign value).code = _ := code_assignment (hrecords name.row) hs
    refine Piece.sound_of_noLabel (by rw [hcode]; simp) ?_ hno
    obtain ⟨slot, hslot⟩ := Expr.track_code hv (ha _ hva) hl.2.2 [.name i]
    rw [hcode]
    change track (value.code ++ [.op sign.row .assign]) [.name i] = _
    rw [track_append, hslot]
    rfl

theorem Simple.sound_pieces {s : Simple} (h : s.Proper) (hl : AllLinked t s.lexemes) (next : Nat) :
    ∀ p ∈ s.pieces next, p.Sound := by
  match s, h with
  | .definition d, h =>
    exact List.forall_mem_singleton.2 (d.sound_piece h (fun _ => Assignable.inExpression) hl)
  | .conditional word condition thenWord jump mark, ⟨_, hco, hc, _, _, hm⟩ =>
    simp only [lexemes, allLinked_cons, allLinked_append] at hl
    obtain ⟨i, -, -, hrecords⟩ := recordsOf_name hl.2.2.2.2.1 hm
    obtain ⟨slot, hslot⟩ := Expr.track_code hco (inExpression_of_isCondition hc) hl.2.1 []
    simp only [pieces, List.forall_mem_cons]
    refine ⟨Piece.sound_branch _ _ hslot condition.noLabel_code, ?_, Piece.sound_label .., by simp⟩
    rw [recordsOf_cons, show recordsOf [.operand mark] = _ from hrecords mark.row]
    exact Piece.sound_goto ..
  | .goto word mark, ⟨_, hm⟩ =>
    simp only [lexemes, allLinked_cons] at hl
    obtain ⟨i, -, -, hrecords⟩ := recordsOf_name hl.2.1 hm
    refine List.forall_mem_singleton.2 ?_
    rw [recordsOf_cons, show recordsOf [.operand mark] = _ from hrecords mark.row]
    exact Piece.sound_goto ..
  | .label mark colon, ⟨hm, _⟩ =>
    simp only [lexemes, allLinked_cons] at hl
    obtain ⟨i, -, -, hrecords⟩ := recordsOf_name hl.1 hm
    refine List.forall_mem_singleton.2 ?_
    rw [recordsOf_cons, show recordsOf [.operand mark] = _ from hrecords mark.row]
    exact Piece.sound_label ..

theorem Header.sound_enterPieces {h : Header} (hp : h.Proper) (hl : AllLinked t h.lexemes)
    (top exit : Nat) : ∀ p ∈ h.enterPieces top exit, p.Sound := by
  have htest : (∃ slot, track h.test [] = some [slot]) ∧ Code.NoLabel h.test := by
    cases h with
    | whileLoop word condition =>
      obtain ⟨-, hco, hc⟩ := hp
      simp only [lexemes, allLinked_cons] at hl
      exact ⟨Expr.track_code hco (inExpression_of_isCondition hc) hl.2 [], condition.noLabel_code⟩
    | forLoop word init toWord bound =>
      obtain ⟨-, hi, -, hbo, hb⟩ := hp
      simp only [lexemes, allLinked_cons, allLinked_append] at hl
      obtain ⟨i, -, -, hrecords⟩ := recordsOf_name (hl.2.1 _ init.name_mem) hi.counter.2.2
      obtain ⟨slot, hslot⟩ := Expr.track_code hbo (inExpression_of_isFactor hb) hl.2.2.2 [.name i]
      refine ⟨⟨.operand, ?_⟩, ?_⟩
      · rw [test, hrecords, track_append, track_append]
        change ((track bound.code [.name i]).bind _) = _
        rw [hslot]
        rfl
      · simp [test, hrecords, bound.noLabel_code, Record.identifier, Record.op]
  obtain ⟨⟨slot, hslot⟩, hno⟩ := htest
  have hstart : ∀ p ∈ h.startPieces, p.Sound := by
    cases h with
    | whileLoop word condition => simp [startPieces]
    | forLoop word init toWord bound =>
      have hi := hp.2.1
      simp only [lexemes, allLinked_cons, allLinked_append] at hl
      exact List.forall_mem_singleton.2
        (init.sound_piece hi (fun _ => inExpression_of_isExpression) hl.2.1)
  simp only [enterPieces, List.forall_mem_append, List.forall_mem_cons]
  exact ⟨hstart, Piece.sound_label .., Piece.sound_branch _ _ hslot hno, by simp⟩

theorem Header.sound_leavePieces {h : Header} (hp : h.Proper) (hl : AllLinked t h.lexemes)
    (one top exit endRow : Nat) : ∀ p ∈ h.leavePieces one top exit endRow, p.Sound := by
  have hnext : ∀ p ∈ h.nextPieces one endRow, p.Sound := by
    match h, hp with
    | .whileLoop .., _ => simp [nextPieces]
    | .forLoop word init toWord bound, ⟨_, hi, _⟩ =>
      simp only [lexemes, allLinked_cons, allLinked_append] at hl
      obtain ⟨i, -, -, hrecords⟩ := recordsOf_name (hl.2.1 _ init.name_mem) hi.counter.2.2
      simp only [nextPieces, next, recordsOf_cons, hrecords]
      refine List.forall_mem_singleton.2 (Piece.sound_of_noLabel (by simp) rfl ?_)
      simp [Record.identifier, Record.constant, Record.op]
  simp only [leavePieces, List.forall_mem_append, List.forall_mem_cons]
  exact ⟨hnext, Piece.sound_goto .., Piece.sound_label .., by simp⟩

theorem Block.sound_pieces {b : Block} (h : b.Proper) (hl : AllLinked t b.lexemes) (one next : Nat) :
    ∀ p ∈ b.pieces one next, p.Sound := by
  induction b generalizing next with
  | done => simp [pieces]
  | simple s rest ih =>
    obtain ⟨hls, hlr⟩ := allLinked_append.1 hl
    exact List.forall_mem_append.2 ⟨s.sound_pieces h.1 hls next, ih h.2.2.2 hlr _⟩
  | loop header o body c rest ihb ihr =>
    obtain ⟨hh, -, -, hb, -, -, -, hr⟩ := h
    simp only [lexemes, allLinked_append, allLinked_cons] at hl
    simp only [pieces, List.forall_mem_append]
    exact ⟨⟨⟨header.sound_enterPieces hh hl.1.1 _ _, ihb hb hl.1.2.2.1 _⟩,
      header.sound_leavePieces hh hl.1.1 _ _ _ _⟩, ihr hr hl.2 _⟩

end

namespace Block

def allSites (b : Block) (t : Tables) : List Site :=
  b.sites (t.constants.intern (.number 1)).2 t.identifiers.size 0

theorem refsIn_lower {b : Block} {t : Tables} (h : b.Proper) (hl : AllLinked t b.lexemes) :
    Code.RefsIn (b.lower t).tables (b.lower t).code := by
  have hle : t.constants.size ≤ (t.constants.intern (.number 1)).1.size :=
    (t.constants.prefix_insert ..).length_le
  have hlt : (t.constants.intern (.number 1)).2 < (t.constants.intern (.number 1)).1.size := by
    obtain ⟨c, hc, -⟩ := t.constants.get?_insert (Literal.text (.number 1)) (.number 1)
    exact (List.getElem?_eq_some_iff.1 hc).1
  have hsize : (b.lower t).tables.identifiers.size = t.identifiers.size + b.marks := by
    simp [lower]
  have hgrown : t.constants.size ≤ (b.lower t).tables.constants.size := by
    simp only [lower]
    split <;> simp [hle]
  refine onlyPushes_code (fun ref href => href.mono hgrown (by omega)) h hl ?_ ?_
  · intro hcounts
    simpa only [Ref.Valid, lower, hcounts, if_true] using hlt
  · intro i _ hi
    exact hi.trans_eq hsize.symm

end Block

/-- A compiled program never lacks an operand, never has a value where a name is needed and never
follows a dangling reference. At the start of every statement and at the end of the program the
stack is what the declarations without an initializer left since the last jump. -/
theorem compile_stack_safe {s : Settings} {source : String} {compiled : Compiled}
    (h : s.compile source = .ok compiled) :
    (∃ b : Block, b.Reads compiled.lexemes) ∧
    ∀ b : Block, b.Reads compiled.lexemes →
      compiled.program = b.lower (lex source).tables ∧
      ∀ n status m, (s.load compiled.program).run n = (status, m) →
        (∀ e, status = .failed e → ¬ e.cause.IsOperandFault) ∧
        ((∀ e, status ≠ .failed e) →
          (m.cursor = m.code.length ∨
            ∃ site ∈ b.allSites (lex source).tables, m.cursor = site.start) →
          m.stack.reverse = (Machine.namesLeft (Site.leftAt (b.allSites (lex source).tables)) n
            (s.load compiled.program) []).map .identifier) := by
  obtain ⟨hlexemes, hparse⟩ := Settings.parse_of_compile h
  rw [hlexemes]
  refine ⟨(isList_of_parse hparse).exists_tree.imp fun b hb => hb.2, ?_⟩
  intro b hb
  have hprogram := eq_lower_of_parse hparse hb
  refine ⟨hprogram, ?_⟩
  intro n status m hrun
  have hlinked : AllLinked (lex source).tables b.lexemes := by
    rw [hb.2]
    exact (lex_spec source).2
  set one := ((lex source).tables.constants.intern (.number 1)).2
  set size := (lex source).tables.identifiers.size
  have hsound : ∀ p ∈ b.pieces one size, p.Sound := b.sound_pieces hb.1 hlinked one size
  have hleft : Site.leftAt (b.allSites (lex source).tables) =
      fun position => Piece.leftAt position 0 (b.pieces one size) :=
    funext fun position => b.leftAt_sites one size 0
  have hcode : (s.load compiled.program).code = Piece.joined (b.pieces one size) := by
    rw [hprogram, b.joined_pieces]
    rfl
  have hrefs : (s.load compiled.program).code.RefsIn (s.load compiled.program).tables := by
    rw [hprogram]
    exact b.refsIn_lower hb.1 hlinked
  have hstart : Machine.Steady (b.pieces one size) [] (s.load compiled.program) :=
    Machine.steady_of_front hsound hcode hrefs (List.nil_append _).symm rfl rfl
  obtain ⟨hfaults, hsteady⟩ := hstart.run hsound hrun
  refine ⟨hfaults, fun hno hplace => ?_⟩
  have hm := hsteady hno
  obtain ⟨front, rest, hp, hcursor⟩ : ∃ front rest, b.pieces one size = front ++ rest ∧
      m.cursor = (Piece.joined front).length := by
    rcases hplace with hend | ⟨site, hsite, hat⟩
    · exact ⟨b.pieces one size, [], (List.append_nil _).symm, by rw [hend, hm.code]⟩
    · obtain ⟨front, rest, hp, hfirst⟩ := b.front_of_site one size 0 hsite
      exact ⟨front, rest, hp, by rw [hat, hfirst, Nat.zero_add]⟩
  rw [hm.stack_eq hp hcursor, hleft]
  simp

/-- A jump out of a loop drops what `a` left; `d` and `e` are on the stack at the end. -/
theorem compile_stack_safe_of_jump : ∃ source compiled b n m, ∃ names : List Nat,
    source = "var a : number\nwhile true do\ngoto out\nend\nout :\nvar d : number\nvar e : string" ∧
    Settings.compile {} source = .ok compiled ∧
    Block.Reads b compiled.lexemes ∧
    (Settings.load {} compiled.program).run n = (.finished, m) ∧
    m.cursor = m.code.length ∧
    m.stack.reverse = names.map .identifier ∧ names.length = 2 := by
  obtain ⟨compiled, hc, hrun⟩ := exists_of_any
    (r := Settings.compile {}
      "var a : number\nwhile true do\ngoto out\nend\nout :\nvar d : number\nvar e : string")
    (p := fun compiled =>
      let final := (Settings.load {} compiled.program).run 99
      decide (final.1 = .finished ∧ final.2.cursor = final.2.code.length ∧ final.2.stack.length = 2))
    (by decide +kernel)
  obtain ⟨⟨status, m⟩, hfinal⟩ : ∃ final, (Settings.load {} compiled.program).run 99 = final := ⟨_, rfl⟩
  obtain ⟨rfl, hcursor, hlength⟩ : status = .finished ∧ m.cursor = m.code.length ∧
      m.stack.length = 2 := by
    rw [hfinal] at hrun
    exact of_decide_eq_true hrun
  obtain ⟨⟨b, hb⟩, hall⟩ := compile_stack_safe hc
  have hstack := ((hall b hb).2 99 _ m hfinal).2 (by simp) (Or.inl hcursor)
  refine ⟨_, compiled, b, 99, m, _, rfl, hc, hb, hfinal, hcursor, hstack, ?_⟩
  have hlen := congrArg List.length hstack
  rwa [List.length_map, List.length_reverse, hlength, eq_comm] at hlen

end RowLang
