import Mathlib
import RowLang.Proofs.Machine.StackShape
import RowLang.Proofs.Statement.Records

/-! What the code of a tree pushes: entries that its lexemes are linked to, the marks it takes, and the
constant `1` if it counts. Nothing else is pushed, whatever is asked of these. -/

namespace RowLang

namespace Code
variable {p : Ref → Prop} {code code' : Code} {row i : Nat} {o : Operator}

def OnlyPushes (p : Ref → Prop) (code : Code) : Prop :=
  ∀ record ∈ code, ∀ ref, record.instr = .push ref → p ref

@[simp] theorem onlyPushes_nil : OnlyPushes p [] := by simp [OnlyPushes]

@[simp] theorem onlyPushes_append :
    OnlyPushes p (code ++ code') ↔ OnlyPushes p code ∧ OnlyPushes p code' := List.forall_mem_append

@[simp] theorem onlyPushes_constant :
    OnlyPushes p (.constant row i :: code) ↔ p (.constant i) ∧ OnlyPushes p code := by
  simp [OnlyPushes, Record.constant]

@[simp] theorem onlyPushes_identifier :
    OnlyPushes p (.identifier row i :: code) ↔ p (.identifier i) ∧ OnlyPushes p code := by
  simp [OnlyPushes, Record.identifier]

@[simp] theorem onlyPushes_op : OnlyPushes p (.op row o :: code) ↔ OnlyPushes p code := by
  simp [OnlyPushes, Record.op]

end Code

section
variable {t : Tables} {p : Ref → Prop} (hv : ∀ ref : Ref, ref.Valid t → p ref)
include hv

theorem onlyPushes_name {l : Lexeme} (hl : l.LinkedIn t) (hn : l.isIdentifier) (row : Nat) :
    Code.OnlyPushes p (recordsOf [.operand (l.onRow row)]) := by
  obtain ⟨i, -, hlt, hrecords⟩ := recordsOf_name hl hn
  simp [hrecords, hv (.identifier i) hlt]

theorem onlyPushes_jump {l : Lexeme} (hl : l.LinkedIn t) (hn : l.isIdentifier) (op : Operator)
    (row : Nat) : Code.OnlyPushes p (recordsOf [.operand l, .operator op row]) := by
  have hname : Code.OnlyPushes p (recordsOf [.operand l]) := onlyPushes_name hv hl hn l.row
  rw [recordsOf_cons, recordsOf_operator]
  simp [hname]

theorem Expr.onlyPushes_code {e : Expr} (he : e.Ordered) (hl : AllLinked t e.lexemes) :
    e.code.OnlyPushes p := by
  induction e with
  | operand l =>
    rw [code, items]
    rcases recordsOf_operand (hl l (by simp [lexemes])) he with
      ⟨i, hrecords, hlt⟩ | ⟨i, hrecords, -, hlt⟩
    · simp [hrecords, hv (.constant i) hlt]
    · simp [hrecords, hv (.identifier i) hlt]
  | group o e c ih =>
    simp only [lexemes, allLinked_cons, allLinked_append] at hl
    exact ih he.2.2 hl.2.1
  | unary l e ih =>
    simp only [lexemes, allLinked_cons] at hl
    rw [code, items, recordsOf_append, Code.onlyPushes_append]
    refine ⟨ih he.2.2 hl.2, ?_⟩
    unfold unaryItems
    split <;> simp [recordsOf, Item.records]
  | binary a l b iha ihb =>
    simp only [lexemes, allLinked_cons, allLinked_append] at hl
    rw [code, items, recordsOf_append, recordsOf_append, Code.onlyPushes_append,
      Code.onlyPushes_append]
    refine ⟨⟨iha he.2.2.2.1 hl.1, ihb he.2.2.2.2 hl.2.2⟩, ?_⟩
    unfold joinItems
    split <;> simp [recordsOf, Item.records]

theorem Definition.onlyPushes_code {d : Definition} {assignable : List Lexeme → Prop}
    (h : d.Proper assignable)
    (ha : ∀ value, assignable value → ∀ l ∈ value, l.kind.inExpression)
    (hl : AllLinked t d.lexemes) : d.code.OnlyPushes p :=
  Expr.onlyPushes_code hv (d.ordered_expr h ha) (hl.sublist d.expr_lexemes_subset)

theorem Simple.onlyPushes_code {s : Simple} (h : s.Proper) (hl : AllLinked t s.lexemes) {next : Nat}
    (hmarks : ∀ i, next ≤ i → i < next + s.marks → p (.identifier i)) :
    (s.code next).OnlyPushes p := by
  match s, h with
  | .definition d, h => exact d.onlyPushes_code hv h (fun _ => Assignable.inExpression) hl
  | .conditional word condition thenWord jump mark, ⟨_, hco, _, _, _, hm⟩ =>
    simp only [lexemes, allLinked_cons, allLinked_append] at hl
    have hskip : p (.identifier next) := hmarks next le_rfl (by simp [marks])
    have hjump := onlyPushes_jump hv hl.2.2.2.2.1 hm .goto jump.row
    simp [code, condition.onlyPushes_code hv hco hl.2.1, hjump, hskip]
  | .goto word mark, ⟨_, hm⟩ =>
    simp only [lexemes, allLinked_cons] at hl
    exact onlyPushes_jump hv hl.2.1 hm .goto word.row
  | .label mark colon, ⟨hm, _⟩ =>
    simp only [lexemes, allLinked_cons] at hl
    exact onlyPushes_jump hv hl.1 hm .label colon.row

theorem Header.onlyPushes_code {h : Header} (hp : h.Proper) (hl : AllLinked t h.lexemes) {one : Nat}
    (hone : h.counts → p (.constant one)) (endRow : Nat) :
    h.start.OnlyPushes p ∧ h.test.OnlyPushes p ∧ (h.next one endRow).OnlyPushes p := by
  match h, hp with
  | .whileLoop word condition, ⟨_, hco, _⟩ =>
    simp only [lexemes, allLinked_cons] at hl
    simp [start, test, next, condition.onlyPushes_code hv hco hl.2]
  | .forLoop word init toWord bound, ⟨_, hd, _, hbo, _⟩ =>
    simp only [lexemes, allLinked_cons, allLinked_append] at hl
    have hinit := init.onlyPushes_code hv hd (fun _ => inExpression_of_isExpression) hl.2.1
    have hname := onlyPushes_name hv (hl.2.1 _ init.name_mem) hd.counter.2.2
    simp [start, test, next, recordsOf_cons (.operand _) [_], hinit, hname,
      bound.onlyPushes_code hv hbo hl.2.2.2, hone rfl]

theorem Block.onlyPushes_code {b : Block} (h : b.Proper) (hl : AllLinked t b.lexemes) {one next : Nat}
    (hone : b.counts → p (.constant one))
    (hmarks : ∀ i, next ≤ i → i < next + b.marks → p (.identifier i)) :
    (b.code one next).OnlyPushes p := by
  induction b generalizing next with
  | done => simp [code]
  | simple s rest ih =>
    obtain ⟨hls, hlr⟩ := allLinked_append.1 hl
    simp only [marks] at hmarks
    exact Code.onlyPushes_append.2
      ⟨s.onlyPushes_code hv h.1 hls fun i hge hlt => hmarks i hge (by omega),
        ih h.2.2.2 hlr hone fun i hge hlt => hmarks i (by omega) (by omega)⟩
  | loop header o body c rest ihb ihr =>
    obtain ⟨hh, -, -, hb, -, -, -, hr⟩ := h
    simp only [lexemes, allLinked_append, allLinked_cons] at hl
    simp only [marks] at hmarks
    simp only [counts, Bool.or_eq_true] at hone
    obtain ⟨hstart, htest, hback⟩ := header.onlyPushes_code hv hh hl.1.1
      (fun hcounts => hone (Or.inl (Or.inr hcounts))) c.row
    have htop : p (.identifier (next + body.marks)) := hmarks _ (by omega) (by omega)
    have hexit : p (.identifier (next + body.marks + 1)) := hmarks _ (by omega) (by omega)
    have hbody : (body.code one next).OnlyPushes p :=
      ihb hb hl.1.2.2.1 (fun hcounts => hone (Or.inl (Or.inl hcounts)))
        fun i hge hlt => hmarks i hge (by omega)
    have hrest : (rest.code one (next + body.marks + 2)).OnlyPushes p :=
      ihr hr hl.2 (fun hcounts => hone (Or.inr hcounts)) fun i hge hlt =>
        hmarks i (by omega) (by omega)
    simp [code, Header.enter, Header.leave, hstart, htest, hback, htop, hexit, hbody, hrest]

end
end RowLang
