import Mathlib
import RowLang.Proofs.Statement.Labels
import RowLang.Proofs.Statement.References

/-! Generated marks. A tree takes two for each `do` and one for each `if`; no two statements share one,
and no name of the source is one. In the code each is pushed twice, for its label and for a jump. -/

namespace RowLang

namespace Code
variable {mark : Nat} {code code' front : Code}

def Avoids (mark : Nat) (code : Code) : Prop := code.OnlyPushes (· ≠ .identifier mark)

def used (row mark : Nat) (op : Operator) : Code := [.identifier row mark, .op row op]

def Paired (mark : Nat) (code : Code) : Prop :=
  ∃ front row op middle row' op' back,
    code = front ++ (used row mark op ++ (middle ++ (used row' mark op' ++ back))) ∧
    front.Avoids mark ∧ middle.Avoids mark ∧ back.Avoids mark ∧
    (op = .label ∧ (op' = .branch ∨ op' = .goto) ∨ (op = .branch ∨ op = .goto) ∧ op' = .label)

theorem avoids_append : Avoids mark (code ++ code') ↔ Avoids mark code ∧ Avoids mark code' :=
  onlyPushes_append

theorem avoids_used {row other : Nat} {op : Operator} (h : other ≠ mark) :
    Avoids mark (used row other op) := by
  simp [Avoids, used, h]

theorem Paired.append_right (h : Paired mark code) (h' : Avoids mark code') :
    Paired mark (code ++ code') := by
  obtain ⟨front, row, op, middle, row', op', back, rfl, hf, hm, hb, hops⟩ := h
  exact ⟨front, row, op, middle, row', op', back ++ code', by simp, hf, hm,
    avoids_append.2 ⟨hb, h'⟩, hops⟩

theorem Paired.append_left (h : Paired mark code) (h' : Avoids mark code') :
    Paired mark (code' ++ code) := by
  obtain ⟨front, row, op, middle, row', op', back, rfl, hf, hm, hb, hops⟩ := h
  exact ⟨code' ++ front, row, op, middle, row', op', back, by simp, avoids_append.2 ⟨h', hf⟩, hm, hb,
    hops⟩

theorem Avoids.instr?_ne (h : Avoids mark code) (k : Nat) :
    code.instr? k ≠ some (.push (.identifier mark)) := by
  intro hk
  obtain ⟨record, hrecord, hpush⟩ := Option.map_eq_some_iff.1 hk
  exact h record (List.mem_of_getElem? hrecord) _ hpush rfl

theorem instr?_append_right (front code : Code) (k : Nat) :
    instr? (front ++ code) (front.length + k) = code.instr? k := by
  rw [instr?, List.getElem?_append_right (Nat.le_add_right ..), Nat.add_sub_cancel_left, instr?]

theorem instr?_append_of_avoids (h : Avoids mark front) (k : Nat) :
    instr? (front ++ code) k = some (.push (.identifier mark)) ↔
      front.length ≤ k ∧ code.instr? (k - front.length) = some (.push (.identifier mark)) := by
  by_cases hk : front.length ≤ k
  · simp [instr?, hk, List.getElem?_append_right hk]
  · have hfront : instr? (front ++ code) k = front.instr? k := by
      rw [instr?, List.getElem?_append_left (Nat.lt_of_not_le hk), instr?]
    simp [hfront, h.instr?_ne, hk]

theorem instr?_used_append (row mark k : Nat) (op : Operator) (code : Code) :
    instr? (used row mark op ++ code) k = some (.push (.identifier mark)) ↔
      k = 0 ∨ 2 ≤ k ∧ code.instr? (k - 2) = some (.push (.identifier mark)) := by
  match k with
  | 0 => simp [instr?, used, Record.identifier]
  | 1 => simp [instr?, used, Record.op]
  | k + 2 => simp [instr?, used]

theorem Paired.places (h : Paired mark code) : ∃ p q, p ≠ q ∧
    (∀ k, code.instr? k = some (.push (.identifier mark)) ↔ k = p ∨ k = q) ∧
    code.instr? (p + 1) = some (.apply .label) ∧
    (code.instr? (q + 1) = some (.apply .branch) ∨ code.instr? (q + 1) = some (.apply .goto)) := by
  obtain ⟨front, row, op, middle, row', op', back, hcode, hf, hm, hb, hops⟩ := h
  set p := front.length with hp
  set q := front.length + 2 + middle.length with hq
  have hpushed (k : Nat) : code.instr? k = some (.push (.identifier mark)) ↔ k = p ∨ k = q := by
    rw [hcode, instr?_append_of_avoids hf, instr?_used_append, instr?_append_of_avoids hm,
      instr?_used_append]
    simp only [hb.instr?_ne, and_false, or_false]
    omega
  have hfirst : code.instr? (p + 1) = some (.apply op) := by
    rw [hcode, hp, instr?_append_right]
    rfl
  have hsecond : code.instr? (q + 1) = some (.apply op') := by
    have hsplit : code = (front ++ used row mark op ++ middle) ++ (used row' mark op' ++ back) := by
      simp [hcode]
    have hlength : (front ++ used row mark op ++ middle).length = q := by
      rw [List.length_append, List.length_append, hq]
      rfl
    rw [hsplit, ← hlength, instr?_append_right]
    rfl
  rcases hops with ⟨rfl, hjump⟩ | ⟨hjump, rfl⟩
  · refine ⟨p, q, by omega, hpushed, hfirst, ?_⟩
    rcases hjump with rfl | rfl <;> simp [hsecond]
  · refine ⟨q, p, by omega, fun k => (hpushed k).trans or_comm, hsecond, ?_⟩
    rcases hjump with rfl | rfl <;> simp [hfirst]

end Code

section
variable {t : Tables} {one next mark : Nat}

theorem Ref.Valid.ne_mark (hm : t.identifiers.size ≤ mark) (ref : Ref) (h : ref.Valid t) :
    ref ≠ .identifier mark := by
  rintro rfl
  exact hm.not_gt h

theorem Simple.avoids_code {s : Simple} (h : s.Proper) (hl : AllLinked t s.lexemes)
    (hm : t.identifiers.size ≤ mark) (hout : mark < next ∨ next + s.marks ≤ mark) :
    (s.code next).Avoids mark := by
  refine s.onlyPushes_code (Ref.Valid.ne_mark hm) h hl ?_
  rintro i hge hlt ⟨⟩
  omega

theorem Header.avoids_code {h : Header} (hp : h.Proper) (hl : AllLinked t h.lexemes)
    (hm : t.identifiers.size ≤ mark) (one endRow : Nat) :
    h.start.Avoids mark ∧ h.test.Avoids mark ∧ (h.next one endRow).Avoids mark :=
  h.onlyPushes_code (Ref.Valid.ne_mark hm) hp hl (fun _ => by simp) endRow

theorem Block.avoids_code {b : Block} (h : b.Proper) (hl : AllLinked t b.lexemes)
    (hm : t.identifiers.size ≤ mark) (hout : mark < next ∨ next + b.marks ≤ mark) :
    (b.code one next).Avoids mark := by
  refine b.onlyPushes_code (Ref.Valid.ne_mark hm) h hl (fun _ => by simp) ?_
  rintro i hge hlt ⟨⟩
  omega

theorem Simple.paired_code {s : Simple} (h : s.Proper) (hl : AllLinked t s.lexemes)
    (hm : t.identifiers.size ≤ next) (hge : next ≤ mark) (hlt : mark < next + s.marks) :
    (s.code next).Paired mark := by
  match s, h with
  | .conditional word condition thenWord jump target, ⟨_, hco, _, _, _, ht⟩ =>
    simp only [lexemes, allLinked_cons, allLinked_append] at hl
    obtain rfl : mark = next := by
      simp only [marks] at hlt
      omega
    exact ⟨condition.code, word.row, .branch, recordsOf [.operand target, .operator .goto jump.row],
      target.row, .label, [], by simp [code, Code.used],
      condition.onlyPushes_code (Ref.Valid.ne_mark hm) hco hl.2.1,
      onlyPushes_jump (Ref.Valid.ne_mark hm) hl.2.2.2.2.1 ht .goto jump.row, Code.onlyPushes_nil,
      Or.inr ⟨Or.inl rfl, rfl⟩⟩
  | .definition d, _ | .goto word target, _ | .label target colon, _ =>
    simp only [marks] at hlt
    omega

theorem Block.paired_loop {header : Header} {o c : Lexeme} {body rest : Block}
    (h : (loop header o body c rest).Proper) (hl : AllLinked t (loop header o body c rest).lexemes)
    (hm : t.identifiers.size ≤ next)
    (hmark : mark = next + body.marks ∨ mark = next + body.marks + 1) :
    ((loop header o body c rest).code one next).Paired mark := by
  obtain ⟨hh, -, -, hb, -, -, -, hr⟩ := h
  simp only [lexemes, allLinked_append, allLinked_cons] at hl
  obtain ⟨hstart, htest, hback⟩ := header.avoids_code hh hl.1.1 (by omega : _ ≤ mark) one c.row
  have hbody : (body.code one next).Avoids mark := body.avoids_code hb hl.1.2.2.1 (by omega) (by omega)
  have hrest : (rest.code one (next + body.marks + 2)).Avoids mark :=
    rest.avoids_code hr hl.2 (by omega) (by omega)
  rcases hmark with rfl | rfl
  · -- `top` stands around the test and the body
    exact ⟨header.start, header.word.row, .label,
      header.test ++ (Code.used header.word.row (next + body.marks + 1) .branch ++
        (body.code one next ++ header.next one c.row)), c.row, .goto,
      Code.used c.row (next + body.marks + 1) .label ++ rest.code one (next + body.marks + 2),
      by simp [code, Header.enter, Header.leave, Code.used], hstart,
      Code.avoids_append.2 ⟨htest, Code.avoids_append.2 ⟨Code.avoids_used (by omega),
        Code.avoids_append.2 ⟨hbody, hback⟩⟩⟩,
      Code.avoids_append.2 ⟨Code.avoids_used (by omega), hrest⟩, Or.inl ⟨rfl, Or.inr rfl⟩⟩
  · -- `exit` stands around the body and the way back
    exact ⟨header.start ++ (Code.used header.word.row (next + body.marks) .label ++ header.test),
      header.word.row, .branch,
      body.code one next ++ (header.next one c.row ++ Code.used c.row (next + body.marks) .goto),
      c.row, .label, rest.code one (next + body.marks + 2),
      by simp [code, Header.enter, Header.leave, Code.used],
      Code.avoids_append.2 ⟨hstart, Code.avoids_append.2 ⟨Code.avoids_used (by omega), htest⟩⟩,
      Code.avoids_append.2 ⟨hbody, Code.avoids_append.2 ⟨hback, Code.avoids_used (by omega)⟩⟩,
      hrest, Or.inr ⟨Or.inl rfl, rfl⟩⟩

theorem Block.paired_code {b : Block} (h : b.Proper) (hl : AllLinked t b.lexemes)
    (hm : t.identifiers.size ≤ next) (hge : next ≤ mark) (hlt : mark < next + b.marks) :
    (b.code one next).Paired mark := by
  induction b generalizing next with
  | done =>
    simp only [marks] at hlt
    omega
  | simple s rest ih =>
    obtain ⟨hls, hlr⟩ := allLinked_append.1 hl
    simp only [marks] at hlt
    rw [code]
    by_cases hs : mark < next + s.marks
    · exact (s.paired_code h.1 hls hm hge hs).append_right
        (rest.avoids_code h.2.2.2 hlr (by omega) (Or.inl hs))
    · exact (ih h.2.2.2 hlr (by omega) (by omega) (by omega)).append_left
        (s.avoids_code h.1 hls (by omega) (by omega))
  | loop header o body c rest ihb ihr =>
    by_cases hown : mark = next + body.marks ∨ mark = next + body.marks + 1
    · exact paired_loop h hl hm hown
    obtain ⟨hh, -, -, hb, -, -, -, hr⟩ := h
    simp only [lexemes, allLinked_append, allLinked_cons] at hl
    simp only [marks] at hlt
    obtain ⟨hstart, htest, hback⟩ := header.avoids_code hh hl.1.1 (by omega : _ ≤ mark) one c.row
    have htop (row : Nat) (op : Operator) : (Code.used row (next + body.marks) op).Avoids mark :=
      Code.avoids_used (by omega)
    have hexit (row : Nat) (op : Operator) : (Code.used row (next + body.marks + 1) op).Avoids mark :=
      Code.avoids_used (by omega)
    have henter : (header.enter (next + body.marks) (next + body.marks + 1)).Avoids mark :=
      Code.avoids_append.2 ⟨Code.avoids_append.2 ⟨Code.avoids_append.2 ⟨hstart, htop _ .label⟩, htest⟩,
        hexit _ .branch⟩
    have hleave : (header.leave one (next + body.marks) (next + body.marks + 1) c.row).Avoids mark :=
      Code.avoids_append.2 ⟨hback, Code.avoids_append.2 ⟨htop _ .goto, hexit _ .label⟩⟩
    rw [code]
    by_cases hlow : mark < next + body.marks
    · exact (((ihb hb hl.1.2.2.1 hm hge hlow).append_left henter).append_right hleave).append_right
        (rest.avoids_code hr hl.2 (by omega) (by omega))
    · exact (ihr hr hl.2 (by omega) (by omega) (by omega)).append_left (Code.avoids_append.2
        ⟨Code.avoids_append.2 ⟨henter, body.avoids_code hb hl.1.2.2.1 (by omega) (by omega)⟩, hleave⟩)

end

def marksFor (ls : List Lexeme) : Nat :=
  2 * (ls.map Lexeme.kind).count (.loop .doWord) + (ls.map Lexeme.kind).count (.condition .ifWord)

def Kind.marks : Kind → Nat
  | loop .doWord => 2
  | condition .ifWord => 1
  | _ => 0

theorem Kind.marks_of_inExpression {k : Kind} (h : k.inExpression) : k.marks = 0 := by
  cases k with
  | loop word => simp [inExpression, inArithmetic, isRelOp] at h
  | condition word => simp [inExpression, inArithmetic, isRelOp] at h
  | _ => rfl

section
variable {l : Lexeme} {ls ls' : List Lexeme}

@[simp] theorem marksFor_nil : marksFor [] = 0 := rfl

@[simp] theorem marksFor_cons : marksFor (l :: ls) = l.kind.marks + marksFor ls := by
  simp only [marksFor, List.map_cons, List.count_cons]
  fun_cases Kind.marks l.kind <;> grind

@[simp] theorem marksFor_append : marksFor (ls ++ ls') = marksFor ls + marksFor ls' := by
  simp only [marksFor, List.map_append, List.count_append]
  omega

theorem marksFor_of_inExpression (h : ∀ l ∈ ls, l.kind.inExpression) : marksFor ls = 0 := by
  induction ls with
  | nil => rfl
  | cons l ls ih =>
    obtain ⟨hl, hrest⟩ := List.forall_mem_cons.1 h
    rw [marksFor_cons, ih hrest, Kind.marks_of_inExpression hl]

end

theorem Definition.marksFor_lexemes {d : Definition} {assignable : List Lexeme → Prop}
    (h : d.Proper assignable)
    (ha : ∀ value, assignable value → ∀ l ∈ value, l.kind.inExpression) : marksFor d.lexemes = 0 := by
  match d, h with
  | .declaration word name typing value, ⟨⟨declarator, hw, _⟩, hn, ht, hv⟩ =>
    have htyping : marksFor (typing.elim [] fun p => [p.1, p.2]) = 0 := by
      cases typing with
      | none => rfl
      | some p =>
        obtain ⟨hc, type, htype⟩ := ht p rfl
        simp [hc, htype, Kind.marks]
    have hvalue : marksFor (value.elim [] fun p => p.1 :: p.2.lexemes) = 0 := by
      cases value with
      | none => rfl
      | some p =>
        obtain ⟨hs, -, he⟩ := hv p rfl
        simp [hs, Kind.marks, marksFor_of_inExpression (inExpression_of_isExpression he)]
    simp [lexemes, hw, Kind.marks, Lexeme.kind_of_isIdentifier hn, htyping, hvalue]
  | .assignment name sign value, ⟨hn, hs, _, hv⟩ =>
    simp [lexemes, hs, Kind.marks, Lexeme.kind_of_isIdentifier hn, marksFor_of_inExpression (ha _ hv)]

theorem Simple.marks_eq {s : Simple} (h : s.Proper) : s.marks = marksFor s.lexemes := by
  match s, h with
  | .definition d, h => exact (d.marksFor_lexemes h fun _ => Assignable.inExpression).symm
  | .conditional word condition thenWord jump target, ⟨hw, _, hc, ht, hj, hm⟩ =>
    simp [marks, lexemes, hw, ht, hj, Kind.marks, Lexeme.kind_of_isIdentifier hm,
      marksFor_of_inExpression (inExpression_of_isCondition hc)]
  | .goto word target, ⟨hw, hm⟩ =>
    simp [marks, lexemes, hw, Kind.marks, Lexeme.kind_of_isIdentifier hm]
  | .label target colon, ⟨hm, hc⟩ =>
    simp [marks, lexemes, hc, Kind.marks, Lexeme.kind_of_isIdentifier hm]

theorem Header.marksFor_lexemes {h : Header} (hp : h.Proper) : marksFor h.lexemes = 0 := by
  match h, hp with
  | .whileLoop word condition, ⟨hw, _, hc⟩ =>
    simp [lexemes, hw, Kind.marks, marksFor_of_inExpression (inExpression_of_isCondition hc)]
  | .forLoop word init toWord bound, ⟨hw, hd, ht, _, hb⟩ =>
    simp [lexemes, hw, ht, Kind.marks, init.marksFor_lexemes hd fun _ => inExpression_of_isExpression,
      marksFor_of_inExpression (inExpression_of_isFactor hb)]

theorem Block.marks_eq {b : Block} (h : b.Proper) : b.marks = marksFor b.lexemes := by
  induction b with
  | done => rfl
  | simple s rest ih => rw [marks, lexemes, marksFor_append, s.marks_eq h.1, ih h.2.2.2]
  | loop header o body c rest ihb ihr =>
    obtain ⟨hh, ho, -, hb, hc, -, -, hr⟩ := h
    have hown : o.kind.marks = 2 := by rw [ho]; rfl
    have hend : c.kind.marks = 0 := by rw [hc]; rfl
    simp only [marks, lexemes, marksFor_append, marksFor_cons, marksFor_nil,
      header.marksFor_lexemes hh, ihb hb, ihr hr, hown, hend]
    omega

section
variable {t : Tables}

theorem Tables.Lexed.not_mark (h : t.Lexed) {name : String} (hn : name ∈ t.identifiers.names) :
    ¬ Identifiers.markStem.toList <+: name.toList := by
  obtain ⟨e, he, rfl⟩ := List.mem_map.1 hn
  obtain ⟨c, rest, hname, halpha⟩ := h.alphabetic e he
  intro hmark
  rw [hname] at hmark
  obtain rfl : '_' = c := (List.cons_prefix_cons.1 hmark).1
  exact absurd halpha (by decide)

theorem Identifiers.markStem_prefix (i : Nat) :
    markStem.toList <+: (markStem ++ Nat.repr i).toList := by
  rw [String.toList_append]
  exact List.prefix_append _ _

theorem Identifiers.marks_marked {ids : Identifiers} (n : Nat)
    (h : ∀ name ∈ ids.names, ¬ markStem.toList <+: name.toList) :
    (ids.marked n).marks = List.range' ids.size n := by
  have hfront : ids.entries.filter (fun e => markStem.toList.isPrefixOf e.name.toList) = [] := by
    refine List.filter_eq_nil_iff.2 fun e he => ?_
    rw [List.isPrefixOf_iff_prefix]
    exact h e.name (List.mem_map_of_mem he)
  have hback : ((List.range' ids.size n).map markAt).filter
      (fun e => markStem.toList.isPrefixOf e.name.toList) = (List.range' ids.size n).map markAt := by
    refine List.filter_eq_self.2 fun e he => ?_
    obtain ⟨i, -, rfl⟩ := List.mem_map.1 he
    rw [List.isPrefixOf_iff_prefix]
    exact markStem_prefix i
  have hindex : Identifier.index ∘ markAt = id := rfl
  rw [marks, marked, List.filter_append, hfront, List.nil_append, hback, List.map_map, hindex,
    List.map_id]

end

/-- The entries behind those of the names of a source are its generated marks: two for each `do` and
one for each `if`, each under a new name. The code pushes such a mark at two places, once in front of
a label, which is the one that a jump to the mark finds, and once in front of a jump. -/
theorem compile_marks_fresh {s : Settings} {source : String} {compiled : Compiled}
    (h : s.compile source = .ok compiled) :
    let lexed := (lex source).tables.identifiers
    let identifiers := compiled.program.tables.identifiers
    let code := compiled.program.code
    let kinds := compiled.lexemes.map Lexeme.kind
    ∃ n, n = 2 * kinds.count (.loop .doWord) + kinds.count (.condition .ifWord) ∧
      identifiers.names =
        lexed.names ++ (List.range' lexed.size n).map (fun i => "_m" ++ Nat.repr i) ∧
      identifiers.marks = List.range' lexed.size n ∧
      ∀ i, lexed.size ≤ i → i < lexed.size + n →
        (∃ entry, identifiers.get? i = some entry ∧ entry.name = "_m" ++ Nat.repr i ∧
          entry.name ∉ lexed.names ∧ entry.type = .mark ∧ entry.binding = .undef) ∧
        ∃ p q, p ≠ q ∧
          (∀ k, code.instr? k = some (.push (.identifier i)) ↔ k = p ∨ k = q) ∧
          code.instr? (p + 1) = some (.apply .label) ∧
          (code.instr? (q + 1) = some (.apply .branch) ∨
            code.instr? (q + 1) = some (.apply .goto)) ∧
          code.labelEnd? i = some (p + 2) := by
  intro lexed identifiers code kinds
  obtain ⟨hlexemes, hparse⟩ := Settings.parse_of_compile h
  obtain ⟨b, -, hb⟩ := (isList_of_parse hparse).exists_tree
  obtain ⟨hlexed, hlinked⟩ := lex_spec source
  rw [← hb.2] at hlinked
  have hprogram := eq_lower_of_parse hparse hb
  have hidentifiers : identifiers = (lexed.typed b.typings).marked b.marks :=
    congrArg (fun program => program.tables.identifiers) hprogram
  have hsize : (lexed.typed b.typings).size = lexed.size := Identifiers.size_typed
  refine ⟨b.marks, by rw [b.marks_eq hb.1, hb.2, ← hlexemes]; rfl, ?_, ?_, ?_⟩
  · rw [hidentifiers, Identifiers.names, Identifiers.marked, List.map_append, ← Identifiers.names,
      Identifiers.names_typed, hsize, List.map_map]
    rfl
  · rw [hidentifiers, Identifiers.marks_marked, hsize]
    intro name hname
    rw [Identifiers.names_typed] at hname
    exact hlexed.not_mark hname
  · intro i hge hlt
    have hentry : identifiers.get? i = some (Identifiers.markAt i) := by
      rw [hidentifiers]
      exact Identifiers.get?_marked_mark (by omega) (by omega)
    have hpaired : code.Paired i := by
      rw [show code = _ from congrArg Program.code hprogram]
      exact b.paired_code hb.1 hlinked le_rfl hge hlt
    obtain ⟨p, q, hne, hpushed, hlabel, hjump⟩ := hpaired.places
    refine ⟨⟨_, hentry, rfl, fun hold => ?_, rfl, rfl⟩, p, q, hne, hpushed, hlabel, hjump, ?_⟩
    · exact hlexed.not_mark hold (Identifiers.markStem_prefix i)
    · refine Code.labelEnd?_eq_some_iff.2 ⟨p, rfl, ⟨(hpushed p).2 (Or.inl rfl), hlabel⟩, ?_⟩
      rintro j hj ⟨hpush, hother⟩
      rcases (hpushed j).1 hpush with rfl | rfl
      · exact hj.false
      · simp [hother] at hjump

/-- A conditional jump out of a loop in a loop takes five marks, behind `out`. -/
theorem compile_marks_fresh_of_nested_loops : ∃ source compiled,
    source = "while true do\nwhile true do\nif true then goto out\nend\nend\nout :" ∧
    Settings.compile {} source = .ok compiled ∧
    compiled.program.tables.identifiers.marks = [1, 2, 3, 4, 5] ∧
    ∀ i ∈ [1, 2, 3, 4, 5], ∃ p q, p ≠ q ∧
      (∀ k, compiled.program.code.instr? k = some (.push (.identifier i)) ↔ k = p ∨ k = q) ∧
      compiled.program.code.labelEnd? i = some (p + 2) := by
  set source := "while true do\nwhile true do\nif true then goto out\nend\nend\nout :" with hsource
  obtain ⟨compiled, hc, hcounts⟩ := exists_of_any (r := Settings.compile {} source)
    (p := fun compiled =>
      let kinds := compiled.lexemes.map Lexeme.kind
      decide (kinds.count (.loop .doWord) = 2 ∧ kinds.count (.condition .ifWord) = 1))
    (by decide +kernel)
  obtain ⟨hdo, hif⟩ := of_decide_eq_true hcounts
  have hsize : (lex source).tables.identifiers.size = 1 := by decide +kernel
  obtain ⟨n, hn, -, hmarks, hall⟩ := compile_marks_fresh hc
  rw [hdo, hif] at hn
  subst hn
  rw [hsize] at hmarks hall
  refine ⟨source, compiled, hsource, hc, hmarks, fun i hi => ?_⟩
  have hi : i ∈ List.range' 1 5 := hi
  obtain ⟨hge, hlt⟩ := List.mem_range'_1.1 hi
  obtain ⟨-, p, q, hne, hpushed, -, -, hend⟩ := hall i hge hlt
  exact ⟨p, q, hne, hpushed, hend⟩

end RowLang
