import Mathlib
import RowLang.Proofs.Expr.Tree

/-! The yard turns the lexemes of a tree that follows the priorities into the postorder of that
tree. While an expression is read its last operators stay behind, waiting; together with what is
out already they are its postorder. -/

namespace RowLang.Postorder

def waits (pending : List (Operator × Nat)) : List Waiting :=
  pending.map fun p => .operator p.1 p.2

def released (pending : List (Operator × Nat)) : List Item :=
  pending.map fun p => .operator p.1 p.2

def Yields (priority : Nat) (ws : List Waiting) : Prop :=
  ∀ op row, ws.head? = some (.operator op row) → op.priority?.getD 0 < priority

theorem Yields.mono {p q : Nat} {ws : List Waiting} (h : Yields p ws) (hpq : p ≤ q) : Yields q ws :=
  fun op row hw => (h op row hw).trans_le hpq

theorem releaseAll_waits (pending : List (Operator × Nat)) :
    releaseAll (waits pending) = released pending := by
  induction pending with
  | nil => rfl
  | cons p ps ih => exact congrArg (Item.operator p.1 p.2 :: ·) ih

theorem release_waits (pending : List (Operator × Nat)) (ws : List Waiting) :
    release (waits pending ++ .opening :: ws) = (released pending, ws) := by
  induction pending with
  | nil => rfl
  | cons p ps ih =>
    change (Item.operator p.1 p.2 :: (release (waits ps ++ .opening :: ws)).1,
      (release (waits ps ++ .opening :: ws)).2) = _
    rw [ih]
    rfl

theorem releaseAbove_of_yields {p : Nat} {ws : List Waiting} (h : Yields p ws) :
    releaseAbove p ws = ([], ws) := by
  match ws, h with
  | [], _ => rfl
  | .opening :: _, _ => rfl
  | .operator op row :: ws, h => rw [releaseAbove, if_pos (h op row rfl)]

theorem releaseAbove_waits {p : Nat} {pending : List (Operator × Nat)} {ws : List Waiting}
    (hp : ∀ q ∈ pending, p ≤ q.1.priority?.getD 0) (h : Yields p ws) :
    releaseAbove p (waits pending ++ ws) = (released pending, ws) := by
  induction pending with
  | nil => exact releaseAbove_of_yields h
  | cons q qs ih =>
    have hq : ¬ q.1.priority?.getD 0 < p := (hp q List.mem_cons_self).not_gt
    change releaseAbove p (.operator q.1 q.2 :: (waits qs ++ ws)) = _
    rw [releaseAbove, if_neg hq, ih fun x hx => hp x (List.mem_cons_of_mem q hx)]
    rfl

theorem shunt_operand {l : Lexeme} (h : l.kind.isOperand) (ws : List Waiting) (b : Bool) :
    shunt ⟨ws, b⟩ l = ([.operand l], ⟨ws, true⟩) := by
  cases hk : l.kind <;> simp_all [Kind.isOperand, shunt]

theorem shunt_opening {l : Lexeme} (h : l.kind = .bracket .opening) (ws : List Waiting) (b : Bool) :
    shunt ⟨ws, b⟩ l = ([], ⟨.opening :: ws, false⟩) := by
  simp [shunt, h]

theorem shunt_closing {l : Lexeme} (h : l.kind = .bracket .closing) (ws : List Waiting) (b : Bool) :
    shunt ⟨ws, b⟩ l = ((release ws).1, ⟨(release ws).2, true⟩) := by
  simp [shunt, h]

theorem shunt_unary {l : Lexeme} (h : Expr.leads l.kind) :
    ∃ pending : List (Operator × Nat), released pending = Expr.unaryItems l ∧
      (∀ q ∈ pending, ∀ e, (Expr.unary l e).priority ≤ q.1.priority?.getD 0) ∧
      ∀ ws, shunt ⟨ws, false⟩ l = ([], ⟨waits pending ++ ws, false⟩) := by
  match hk : l.kind, h with
  | .addOp .plus, _ =>
    exact ⟨[], by simp [Expr.unaryItems, hk, released], by simp,
      fun ws => by simp [shunt, hk, Kind.isAddOp, waits]⟩
  | .addOp .minus, _ =>
    exact ⟨[(.negate, l.row)], by simp [Expr.unaryItems, hk, released],
      by simp [Expr.priority, hk, Operator.priority?],
      fun ws => by simp [shunt, hk, Kind.isAddOp, waits]⟩
  | .declaration word, _ =>
    exact ⟨[(.define word, l.row)], by simp [Expr.unaryItems, hk, released],
      by simp [Expr.priority, hk, Operator.priority?], fun ws => by simp [shunt, hk, waits]⟩

theorem exists_operator_of_joins {k : Kind} (h : Expr.joins k) :
    ∃ op, Operator.ofKind? k = some op ∧ op.priority? = some (Expr.joinPriority k) := by
  cases k with
  | assign | powOp => exact ⟨_, rfl, rfl⟩
  | addOp s | multOp s | relOp s => exact ⟨_, rfl, rfl⟩
  | _ => simp [Expr.joins] at h

theorem shunt_join {l : Lexeme} {op : Operator} {p : Nat} (h : Expr.joins l.kind)
    (hop : Operator.ofKind? l.kind = some op) (hp : op.priority? = some p) (ws : List Waiting) :
    shunt ⟨ws, true⟩ l =
      ((releaseAbove p ws).1, ⟨.operator op l.row :: (releaseAbove p ws).2, false⟩) := by
  cases hk : l.kind <;> simp_all [Expr.joins, shunt]

theorem outputFrom_cons (yard : Yard) (l : Lexeme) (ls : List Lexeme) :
    outputFrom yard (l :: ls) = (shunt yard l).1 ++ outputFrom (shunt yard l).2 ls := rfl

/-- Reading an expression puts out its postorder, less some operators that still wait and that bind
at least as tightly as the expression. -/
theorem outputFrom_lexemes (e : Expr) (he : e.Ordered) (ws : List Waiting)
    (hy : e.priority < 7 → Yields e.priority ws) :
    ∃ (out : List Item) (pending : List (Operator × Nat)),
      (∀ q ∈ pending, e.priority ≤ q.1.priority?.getD 0) ∧ out ++ released pending = e.items ∧
      ∀ rest, outputFrom ⟨ws, false⟩ (e.lexemes ++ rest) =
        out ++ outputFrom ⟨waits pending ++ ws, true⟩ rest := by
  induction e generalizing ws with
  | operand l =>
    refine ⟨[.operand l], [], by simp, rfl, ?_⟩
    intro rest
    simp [Expr.lexemes, outputFrom_cons, shunt_operand he, waits]
  | group o e c ih =>
    obtain ⟨ho, hc, he⟩ := he
    -- the bracket keeps everything below it from being released
    obtain ⟨out, pending, -, hitems, hout⟩ := ih he (.opening :: ws) (fun _ op row h => by simp at h)
    refine ⟨e.items, [], by simp, by simp [Expr.items, released], ?_⟩
    intro rest
    have happ : (Expr.group o e c).lexemes ++ rest = o :: (e.lexemes ++ c :: rest) := by
      simp [Expr.lexemes]
    rw [happ, outputFrom_cons, shunt_opening ho, hout, outputFrom_cons, shunt_closing hc,
      release_waits, ← hitems]
    simp [waits]
  | unary l e ih =>
    obtain ⟨hl, hle, he⟩ := he
    have h7 := Expr.priority_unary_ge l e
    obtain ⟨front, hfront, hprio, hshunt⟩ := shunt_unary hl
    obtain ⟨out, pending, hpend, hitems, hout⟩ := ih he (waits front ++ ws) (by omega)
    refine ⟨out, pending ++ front, ?_, ?_, ?_⟩
    · intro q hq
      rcases List.mem_append.1 hq with hq | hq
      · exact hle.trans (hpend q hq)
      · exact hprio q hq e
    · rw [Expr.items, ← hfront, ← hitems]
      simp [released]
    · intro rest
      rw [Expr.lexemes, List.cons_append, outputFrom_cons, hshunt, hout]
      simp [waits]
  | binary a l b iha ihb =>
    obtain ⟨hl, hla, hlb, ha, hb⟩ := he
    obtain ⟨op, hop, hp⟩ := exists_operator_of_joins hl
    have hws : Yields (Expr.joinPriority l.kind) ws := hy (Expr.joinPriority_pos hl).2
    obtain ⟨outa, pa, hpa, hia, houta⟩ := iha ha ws fun _ => hws.mono hla
    -- the operator waits below what the right operand leaves behind
    obtain ⟨outb, pb, hpb, hib, houtb⟩ := ihb hb (.operator op l.row :: ws) fun _ o r hor => by
      obtain ⟨rfl, rfl⟩ : op = o ∧ l.row = r := by simpa using hor
      rw [hp]
      exact hlb
    refine ⟨a.items ++ outb, pb ++ [(op, l.row)], ?_, ?_, ?_⟩
    · intro q hq
      rcases List.mem_append.1 hq with hq | hq
      · exact hlb.le.trans (hpb q hq)
      · obtain rfl := List.mem_singleton.1 hq
        rw [hp]
        exact le_rfl
    · simp [Expr.items, Expr.joinItems, hop, ← hib, released]
    · intro rest
      have happ : (Expr.binary a l b).lexemes ++ rest = a.lexemes ++ l :: (b.lexemes ++ rest) := by
        simp [Expr.lexemes]
      rw [happ, houta, outputFrom_cons, shunt_join hl hop hp,
        releaseAbove_waits (fun q hq => hla.trans (hpa q hq)) hws, houtb, ← hia]
      simp [waits]

theorem postorder_lexemes {e : Expr} (he : e.Ordered) : postorder e.lexemes = e.items := by
  obtain ⟨out, pending, -, hitems, hout⟩ :=
    outputFrom_lexemes e he [] fun _ op row h => by simp at h
  have h := hout []
  rw [List.append_nil, List.append_nil] at h
  rw [postorder, h, outputFrom, releaseAll_waits, hitems]

section
variable {l l' : Lexeme}

theorem operand_not_mem_release (ws : List Waiting) : .operand l ∉ (release ws).1 := by
  induction ws with
  | nil => simp [release]
  | cons w ws ih => cases w <;> simp [release, ih]

theorem operand_not_mem_releaseAbove (p : Nat) (ws : List Waiting) :
    .operand l ∉ (releaseAbove p ws).1 := by
  induction ws with
  | nil => simp [releaseAbove]
  | cons w ws ih =>
    cases w with
    | opening => simp [releaseAbove]
    | operator op row =>
      unfold releaseAbove
      split <;> simp [ih]

theorem operand_not_mem_releaseAll (ws : List Waiting) : .operand l ∉ releaseAll ws := by
  induction ws with
  | nil => simp [releaseAll]
  | cons w ws ih => cases w <;> simp [releaseAll, ih]

theorem of_operand_mem_shunt {yard : Yard} (h : .operand l' ∈ (shunt yard l).1) :
    l' = l ∧ l.kind.isOperand := by
  unfold shunt at h
  split at h
  · rename_i hk
    exact ⟨by simpa using h, by rw [hk]; rfl⟩
  · rename_i hk
    exact ⟨by simpa using h, by rw [hk]; rfl⟩
  · simp at h
  · exact absurd h (operand_not_mem_release _)
  · simp at h
  · split at h
    · split at h <;> simp at h
    · split at h
      · simp at h
      · split at h
        · simp at h
        · exact absurd h (operand_not_mem_releaseAbove _ _)

theorem of_operand_mem_outputFrom {yard : Yard} {ls : List Lexeme}
    (h : .operand l ∈ outputFrom yard ls) : l ∈ ls ∧ l.kind.isOperand := by
  induction ls generalizing yard with
  | nil => exact absurd h (operand_not_mem_releaseAll _)
  | cons first ls ih =>
    rw [outputFrom_cons, List.mem_append] at h
    rcases h with h | h
    · obtain ⟨rfl, ho⟩ := of_operand_mem_shunt h
      exact ⟨List.mem_cons_self, ho⟩
    · exact ⟨List.mem_cons_of_mem first (ih h).1, (ih h).2⟩

end

end RowLang.Postorder
