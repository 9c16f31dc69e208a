import Mathlib
import RowLang.Proofs.Machine.StackShape

/-! Runs of code that is put together from straight pieces. A piece starts over whatever names earlier
pieces left on the stack and may leave one itself; labels stand at the ends of pieces, so jumps go
from piece to piece. -/

namespace RowLang

structure Piece where
  code : Code
  bare : Option Nat := none

namespace Piece

def joined (pieces : List Piece) : Code := pieces.flatMap Piece.code

def leftAt (position : Nat) : Nat → List Piece → List Nat
  | _, [] => []
  | start, p :: ps =>
    (if start + p.code.length = position then p.bare.toList else []) ++
      leftAt position (start + p.code.length) ps

/-- The piece is for an empty stack, and if it has a label then it is nothing but that label. -/
structure Sound (p : Piece) : Prop where
  ne_nil : p.code ≠ []
  tracked : track p.code [] = some (p.bare.toList.map .name)
  label : ∀ record ∈ p.code, record.instr = .apply .label →
    ∃ first : Record, first.instr ≠ .apply .label ∧ p.code = [first, record]

section
variable {pieces front rest : List Piece} {p : Piece} {position start : Nat}

theorem joined_append (front rest : List Piece) : joined (front ++ rest) = joined front ++ joined rest :=
  List.flatMap_append

theorem joined_cons (p : Piece) (rest : List Piece) : joined (p :: rest) = p.code ++ joined rest :=
  List.flatMap_cons

theorem leftAt_append (front rest : List Piece) (start : Nat) :
    leftAt position start (front ++ rest) =
      leftAt position start front ++ leftAt position (start + (joined front).length) rest := by
  induction front generalizing start with
  | nil => simp [leftAt, joined]
  | cons p front ih =>
    simp only [List.cons_append, leftAt, ih, joined_cons, List.length_append, List.append_assoc,
      Nat.add_assoc]

theorem leftAt_of_lt (h : ∀ p ∈ pieces, p.Sound) (hlt : start + (joined pieces).length < position) :
    leftAt position start pieces = [] := by
  induction pieces generalizing start with
  | nil => rfl
  | cons p pieces ih =>
    rw [joined_cons, List.length_append] at hlt
    rw [leftAt, if_neg (by omega), ih (fun q hq => h q (List.mem_cons_of_mem p hq)) (by omega)]
    rfl

theorem leftAt_of_le (h : ∀ p ∈ pieces, p.Sound) (hle : position ≤ start) :
    leftAt position start pieces = [] := by
  induction pieces generalizing start with
  | nil => rfl
  | cons p pieces ih =>
    have hpos := List.length_pos_iff.2 (h p List.mem_cons_self).ne_nil
    rw [leftAt, if_neg (by omega), ih (fun q hq => h q (List.mem_cons_of_mem p hq)) (by omega)]
    rfl

theorem leftAt_inside (h : ∀ q ∈ front ++ p :: rest, q.Sound) {k : Nat} (hk : 0 < k)
    (hle : k ≤ p.code.length) :
    leftAt ((joined front).length + k) 0 (front ++ p :: rest) =
      if k = p.code.length then p.bare.toList else [] := by
  have hfront : ∀ q ∈ front, q.Sound := fun q hq => h q (List.mem_append_left _ hq)
  have hrest : ∀ q ∈ rest, q.Sound := fun q hq => h q (by simp [hq])
  rw [leftAt_append, leftAt_of_lt hfront (by omega), List.nil_append, leftAt,
    leftAt_of_le hrest (by omega), List.append_nil]
  exact if_congr (by omega) rfl rfl

theorem exists_piece {record : Record} (h : (joined pieces)[position]? = some record) :
    ∃ front p rest k, pieces = front ++ p :: rest ∧ position = (joined front).length + k ∧
      p.code[k]? = some record := by
  induction pieces generalizing position with
  | nil => simp [joined] at h
  | cons p pieces ih =>
    rw [joined_cons, List.getElem?_append] at h
    split at h
    · exact ⟨[], p, pieces, position, rfl, by simp [joined], h⟩
    · rename_i hlt
      obtain ⟨front, q, rest, k, rfl, hpos, hk⟩ := ih h
      exact ⟨p :: front, q, rest, k, rfl, by rw [joined_cons, List.length_append]; omega, hk⟩

end
end Piece

theorem Code.labelEnd?_spec {code : Code} {mark position : Nat}
    (h : code.labelEnd? mark = some position) :
    ∃ q record, position = q + 1 ∧ code[q]? = some record ∧ record.instr = .apply .label := by
  induction code generalizing position with
  | nil => simp [labelEnd?] at h
  | cons a code ih =>
    cases code with
    | nil => simp [labelEnd?] at h
    | cons b code =>
      rw [labelEnd?] at h
      split at h
      · rename_i hab
        cases h
        exact ⟨1, b, rfl, rfl, hab.2⟩
      · obtain ⟨position', hpos, rfl⟩ := Option.map_eq_some_iff.1 h
        obtain ⟨q, record, rfl, hq, hlabel⟩ := ih hpos
        exact ⟨q + 1, record, rfl, hq, hlabel⟩

theorem Piece.front_of_labelEnd? {pieces : List Piece} (h : ∀ p ∈ pieces, p.Sound)
    {mark position : Nat} (hl : (joined pieces).labelEnd? mark = some position) :
    ∃ front rest, pieces = front ++ rest ∧ position = (joined front).length := by
  obtain ⟨q, record, rfl, hq, hlabel⟩ := Code.labelEnd?_spec hl
  obtain ⟨front, p, rest, k, rfl, rfl, hk⟩ := exists_piece hq
  obtain ⟨first, hfirst, hcode⟩ :=
    (h p (by simp)).label record (List.mem_of_getElem? hk) hlabel
  refine ⟨front ++ [p], rest, by simp, ?_⟩
  rw [hcode] at hk
  have hk1 : k = 1 := by
    match k, hk with
    | 0, hk =>
      obtain rfl : first = record := by simpa using hk
      exact absurd hlabel hfirst
    | 1, _ => rfl
  simp [joined, hcode, hk1]

namespace Machine

/-- The names left on the stack after a step: none after a jump, that is where the machine does not go
on with the next record, else those from before and those left at the new position. -/
def namesAfter (leftAt : Nat → List Nat) (m m' : Machine) (names : List Nat) : List Nat :=
  if m'.cursor = m.cursor + 1 then names ++ leftAt m'.cursor else []

def namesLeft (leftAt : Nat → List Nat) : Nat → Machine → List Nat → List Nat
  | 0, _, names => names
  | n + 1, m, names =>
    match m.advance with
    | (.running, m') => namesLeft leftAt n m' (namesAfter leftAt m m' names)
    | _ => names

/-- The machine stands inside a piece, or behind the last one. The stack has the shape for the records
of the piece that were executed, over the names that were left. -/
structure Steady (pieces : List Piece) (names : List Nat) (m : Machine) : Prop where
  code : m.code = Piece.joined pieces
  valid : ∀ record ∈ m.code, ∀ ref, record.instr = .push ref → ref.Valid m.tables
  place : ∃ front rest executed ahead shape top, pieces = front ++ rest ∧
    executed ++ ahead = rest.head?.elim [] Piece.code ∧ (ahead = [] → rest = []) ∧
    m.cursor = (Piece.joined front).length + executed.length ∧
    track executed [] = some shape ∧ m.stack = top ++ names.reverse.map .identifier ∧
    List.Forall₂ (Slot.Holds m.tables) shape top

section
variable {pieces : List Piece} {names : List Nat} {m m' : Machine}

theorem steady_of_front {front rest : List Piece} (hs : ∀ p ∈ pieces, p.Sound)
    (hcode : m.code = Piece.joined pieces)
    (hvalid : ∀ record ∈ m.code, ∀ ref, record.instr = .push ref → ref.Valid m.tables)
    (hp : pieces = front ++ rest) (hcursor : m.cursor = (Piece.joined front).length)
    (hstack : m.stack = names.reverse.map .identifier) : Steady pieces names m := by
  refine ⟨hcode, hvalid, front, rest, [], rest.head?.elim [] Piece.code, [], [], hp, rfl, ?_,
    by simpa using hcursor, rfl, by simpa using hstack, .nil⟩
  intro hnil
  cases rest with
  | nil => rfl
  | cons p rest => exact absurd hnil (hs p (by simp [hp])).ne_nil

theorem Steady.stack_eq {front rest : List Piece} (h : Steady pieces names m)
    (hp : pieces = front ++ rest) (hcursor : m.cursor = (Piece.joined front).length) :
    m.stack = names.reverse.map .identifier := by
  obtain ⟨front', rest', executed, ahead, shape, top, hp', hsplit, hend, hcursor', htrack, hstack,
    hholds⟩ := h.place
  have hnone : executed = [] := by
    rw [hcursor] at hcursor'
    rcases List.append_eq_append_iff.1 (hp'.symm.trans hp) with ⟨between, rfl, rfl⟩ | ⟨between, rfl, -⟩
    · -- the machine's piece would lie before the given place, and be executed as a whole
      cases between with
      | nil =>
        rw [List.append_nil] at hcursor'
        exact List.length_eq_zero_iff.1 (by omega)
      | cons p between =>
        have hlen := congrArg List.length hsplit
        have hpos : 0 < ahead.length := List.length_pos_iff.2 fun hnil =>
          absurd (hend hnil) (by simp)
        rw [Piece.joined_append, Piece.joined_cons] at hcursor'
        simp only [List.length_append, List.cons_append, List.head?_cons, Option.elim_some] at hlen hcursor'
        omega
    · rw [Piece.joined_append, List.length_append] at hcursor'
      exact List.length_eq_zero_iff.1 (by omega)
  subst hnone
  cases htrack
  cases hholds
  exact hstack

theorem Steady.continue {front rest : List Piece} {p : Piece} {executed ahead : Code} {record : Record}
    {shape shape' : List Slot} (hs : ∀ p ∈ pieces, p.Sound) (h : Steady pieces names m)
    (hp : pieces = front ++ p :: rest) (hsplit : executed ++ record :: ahead = p.code)
    (hcursor : m.cursor = (Piece.joined front).length + executed.length)
    (htrack : track executed [] = some shape) (htransfer : transfer record.instr shape = some shape')
    (hahead : track ahead shape' = some (p.bare.toList.map .name))
    (hrecord : m.code[m.cursor]? = some record)
    (ho : Executed record.instr { m with cursor := m.cursor + 1, steps := m.steps + 1 }
      (names.reverse.map .identifier) shape' (.ok () m')) :
    Steady pieces (namesAfter (Piece.leftAt · 0 pieces) m m' names) m' := by
  obtain ⟨hcode, hgrown, hcase⟩ := ho
  have hcode' : m'.code = Piece.joined pieces := hcode.trans h.code
  have hvalid : ∀ record ∈ m'.code, ∀ ref, record.instr = .push ref → ref.Valid m'.tables := by
    intro r hr ref href
    rw [hcode] at hr
    exact (h.valid r hr ref href).grown hgrown
  rcases hcase with ⟨hcur, top, hstack, hholds⟩ | ⟨hlabel, hstack, mark, hmark⟩
  · have hlen : executed.length + (ahead.length + 1) = p.code.length := by
      rw [← hsplit, List.length_append, List.length_cons]
    have hnext : m'.cursor = (Piece.joined front).length + (executed.length + 1) := by
      rw [hcur]
      simp only
      omega
    have hleft := Piece.leftAt_inside (hp ▸ hs) (Nat.succ_pos executed.length) (by omega)
    rw [namesAfter, if_pos hcur, hnext, hp, hleft, ← hp]
    cases ahead with
    | nil =>
      -- that was the last record of its piece, and the name it leaves is on the stack
      cases hahead
      rw [if_pos (by simpa using hlen)]
      have hp' : pieces = (front ++ [p]) ++ rest := by simp [hp]
      refine steady_of_front hs hcode' hvalid hp' ?_ ?_
      · rw [hnext, Piece.joined_append, List.length_append, Piece.joined_cons]
        simp [Piece.joined, ← hsplit]
      · rw [hstack, eq_of_holds_names hholds]
        cases p.bare <;> simp
    | cons next ahead =>
      rw [if_neg (by simp only [List.length_cons] at hlen; omega), List.append_nil]
      refine ⟨hcode', hvalid, front, p :: rest, executed ++ [record], next :: ahead, shape', top, hp, ?_,
        by simp, by simpa using hnext, ?_, hstack, hholds⟩
      · simp [← hsplit]
      · rw [track_append, htrack, Option.bind_some, track, htransfer]
        rfl
  · rw [h.code] at hmark
    obtain ⟨front', rest', hp', hfront⟩ := Piece.front_of_labelEnd? hs hmark
    -- behind the record itself there is no label to go to, since it places none
    have hmoved : m'.cursor ≠ m.cursor + 1 := by
      intro heq
      obtain ⟨q, r, hq, hr, hrl⟩ := Code.labelEnd?_spec hmark
      rw [heq] at hq
      obtain rfl : m.cursor = q := by omega
      rw [h.code] at hrecord
      obtain rfl : record = r := by simpa [hrecord] using hr
      exact hlabel hrl
    rw [namesAfter, if_neg hmoved]
    exact steady_of_front hs hcode' hvalid hp' hfront hstack

theorem Steady.advance (hs : ∀ p ∈ pieces, p.Sound) (h : Steady pieces names m) {status : Status}
    (ha : m.advance = (status, m')) :
    (∀ e, status = .failed e → ¬ e.cause.IsOperandFault) ∧
    (status = .finished → m' = m) ∧
    (status = .running → Steady pieces (namesAfter (Piece.leftAt · 0 pieces) m m' names) m') := by
  obtain ⟨front, rest, executed, ahead, shape, top, hp, hsplit, hend, hcursor, htrack, hstack,
    hholds⟩ := h.place
  cases ahead with
  | nil =>
    -- behind the last piece
    have hrest := hend rfl
    subst hrest
    have hnone : m.code[m.cursor]? = none := by
      rw [h.code, hp, hcursor, List.append_nil, List.getElem?_eq_none_iff]
      omega
    rw [Machine.advance, hnone] at ha
    cases ha
    simp
  | cons record ahead =>
    cases rest with
    | nil => simp at hsplit
    | cons p rest =>
      simp only [List.head?_cons, Option.elim_some] at hsplit
      have hrecord : m.code[m.cursor]? = some record := by
        rw [h.code, hp, hcursor, Piece.joined_append, Piece.joined_cons, ← hsplit,
          List.getElem?_append_right (by omega)]
        simp
      have hmem : record ∈ m.code := List.mem_of_getElem? hrecord
      -- the shape fits the record
      have hsound := hs p (by simp [hp])
      have htracked := hsound.tracked
      rw [← hsplit, track_append, htrack, Option.bind_some, track] at htracked
      obtain ⟨shape', htransfer, hahead⟩ := Option.bind_eq_some_iff.1 htracked
      have hexecuted := executed_execute (m := { m with cursor := m.cursor + 1, steps := m.steps + 1 })
        hstack hholds htransfer fun ref hr => h.valid record hmem ref hr
      rw [Machine.advance, hrecord] at ha
      simp only at ha
      split at ha
      · cases ha
        exact ⟨by rintro e ⟨⟩; exact id, by simp, by simp⟩
      · split at ha
        · rename_i m₁ hm₁
          cases ha
          rw [hm₁] at hexecuted
          exact ⟨by simp, by simp, fun _ => h.continue hs hp hsplit hcursor htrack htransfer hahead
            hrecord hexecuted⟩
        · rename_i fault m₁ hm₁
          cases ha
          rw [hm₁] at hexecuted
          exact ⟨by rintro e ⟨⟩; exact hexecuted, by simp, by simp⟩

theorem Steady.run (hs : ∀ p ∈ pieces, p.Sound) (h : Steady pieces names m) {n : Nat}
    {status : Status} (hr : m.run n = (status, m')) :
    (∀ e, status = .failed e → ¬ e.cause.IsOperandFault) ∧
    ((∀ e, status ≠ .failed e) →
      Steady pieces (namesLeft (Piece.leftAt · 0 pieces) n m names) m') := by
  induction n generalizing names m with
  | zero =>
    cases hr
    exact ⟨by simp, fun _ => h⟩
  | succ n ih =>
    rw [Machine.run] at hr
    cases ha : m.advance with
    | mk status₁ m₁ =>
      obtain ⟨hfault, hend, hnext⟩ := h.advance hs ha
      rw [ha] at hr
      rw [namesLeft, ha]
      cases status₁ with
      | running => exact ih (hnext rfl) hr
      | finished =>
        cases hr
        obtain rfl := hend rfl
        exact ⟨by simp, fun _ => h⟩
      | failed e =>
        cases hr
        exact ⟨hfault, fun hno => absurd rfl (hno e)⟩

end
end Machine
end RowLang
