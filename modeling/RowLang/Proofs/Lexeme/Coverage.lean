import Mathlib
import RowLang.Proofs.Lexeme.Segments

/-! Segments cover their row. Between them there is nothing but white space, so a source text shows the
same characters as its lexemes and the segments without a kind, in the same order and on the same lines. -/

namespace RowLang

namespace Segment

/-- At the front of what follows it in a row, the segment is a delimiter, or no delimiter starts at any
of its characters. -/
def Undivided (segment rest : List Char) : Prop :=
  delimiter? (segment ++ rest) = some (segment, rest) ∨
    ∀ front back, segment = front ++ back → back ≠ [] → delimiter? (back ++ rest) = none

/-- The row consists of the segments, each of which shows something and is undivided at its place, and
of white space before, between and behind them. -/
inductive Covers : List (List Char) → List Char → Prop
  | nil {gap : List Char} (hgap : Text.allBlank gap) : Covers [] gap
  | cons {gap segment rest : List Char} {segments : List (List Char)} (hgap : Text.allBlank gap)
      (hshows : ¬ Text.allBlank segment) (hu : Undivided segment rest) (hrest : Covers segments rest) :
      Covers (segment :: segments) (gap ++ segment ++ rest)

variable {s row : List Char} {segments : List (List Char)}

theorem Covers.blank_append {gap : List Char} (hgap : Text.allBlank gap) (h : Covers segments row) :
    Covers segments (gap ++ row) := by
  have hjoin : ∀ {next : List Char}, Text.allBlank next → Text.allBlank (gap ++ next) := by
    intro next hnext
    rw [Text.allBlank, List.all_append]
    exact Bool.and_eq_true_iff.2 ⟨hgap, hnext⟩
  cases h with
  | nil hnext => exact .nil (hjoin hnext)
  | cons hnext hshows hu hrest =>
    rw [← List.append_assoc, ← List.append_assoc]
    exact .cons (hjoin hnext) hshows hu hrest

theorem delimiter?_untilDelimiter {front back : List Char}
    (h : (untilDelimiter s).1 = front ++ back) (hne : back ≠ []) :
    delimiter? (back ++ (untilDelimiter s).2) = none := by
  induction s generalizing front with
  | nil =>
    obtain ⟨-, rfl⟩ := List.append_eq_nil_iff.1 h.symm
    exact absurd rfl hne
  | cons c s ih =>
    rw [untilDelimiter] at h ⊢
    split at h
    · obtain ⟨-, rfl⟩ := List.append_eq_nil_iff.1 h.symm
      exact absurd rfl hne
    · rename_i hd
      rw [if_neg hd]
      cases front with
      | nil =>
        rw [List.nil_append] at h
        rw [← h, List.cons_append, append_untilDelimiter]
        simpa using hd
      | cons d front => exact ih (List.cons.inj h).2

theorem exists_pieces_cons (hne : s ≠ []) :
    ∃ piece rest, s = piece ++ rest ∧ piece ≠ [] ∧ pieces s = piece :: pieces rest ∧
      Undivided piece rest := by
  obtain ⟨c, t, rfl⟩ := List.exists_cons_of_ne_nil hne
  cases hd : delimiter? (c :: t) with
  | some q =>
    obtain ⟨piece, rest⟩ := q
    obtain ⟨hsplit, hpiece⟩ := splits_delimiter? hd
    exact ⟨piece, rest, hsplit, hpiece, pieces_of_delimiter hd, Or.inl (hsplit ▸ hd)⟩
  | none =>
    refine ⟨c :: (untilDelimiter t).1, (untilDelimiter t).2, ?_, by simp, pieces_of_word hd, Or.inr ?_⟩
    · rw [List.cons_append, append_untilDelimiter]
    · intro front back hfront hback
      cases front with
      | nil =>
        rw [List.nil_append] at hfront
        rw [← hfront, List.cons_append, append_untilDelimiter, hd]
      | cons d front => exact delimiter?_untilDelimiter (List.cons.inj hfront).2 hback

theorem covers_ofRow (row : List Char) : Covers (ofRow row) row := by
  -- pieces are cut off one by one; blank ones belong to the white space before the next segment
  induction hn : row.length using Nat.strong_induction_on generalizing row with
  | _ n ih =>
    subst hn
    by_cases hrow : row = []
    · subst hrow
      rw [ofRow, pieces_nil]
      exact .nil rfl
    · obtain ⟨piece, rest, rfl, hpiece, hpieces, hu⟩ := exists_pieces_cons hrow
      have hshorter : rest.length < (piece ++ rest).length := by
        have hpos := List.length_pos_iff.2 hpiece
        rw [List.length_append]
        omega
      have hrest := ih rest.length hshorter rest rfl
      rw [ofRow, hpieces, List.filter_cons]
      by_cases hblank : Text.allBlank piece
      · rw [if_neg (by simp [hblank])]
        exact hrest.blank_append hblank
      · rw [if_pos (by simp [hblank])]
        exact .cons (show Text.allBlank [] from rfl) hblank hu hrest

theorem Covers.filter_flatten (h : Covers segments row) :
    segments.flatten.filter (fun c => !Text.isBlank c) = row.filter fun c => !Text.isBlank c := by
  have hnone : ∀ {gap : List Char}, Text.allBlank gap → gap.filter (fun c => !Text.isBlank c) = [] := by
    intro gap hgap
    rw [List.filter_eq_nil_iff]
    intro c hc
    simp [List.all_eq_true.1 hgap c hc]
  induction h with
  | nil hgap => rw [hnone hgap, List.flatten_nil, List.filter_nil]
  | cons hgap _ _ _ ih =>
    rw [List.flatten_cons, List.filter_append, ih, List.filter_append, List.filter_append, hnone hgap,
      List.nil_append]

end Segment

def onLines : Nat → List Char → List (Char × Nat)
  | _, [] => []
  | line, c :: cs => (c, line) :: onLines (if c = '\n' then line + 1 else line) cs

def shown (cs : List (Char × Nat)) : List (Char × Nat) := cs.filter fun p => !Text.isBlank p.1

def itemChars : Except Unidentified Lexeme → List (Char × Nat)
  | .ok l => l.text.toList.map (·, l.row)
  | .error u => u.text.toList.map (·, u.row)

theorem itemChars_identify (row : Nat) (segment : List Char) :
    itemChars (identify row segment) = segment.map (·, row) := by
  unfold identify
  split <;> simp [itemChars]

theorem shown_append (cs cs' : List (Char × Nat)) : shown (cs ++ cs') = shown cs ++ shown cs' :=
  List.filter_append ..

theorem shown_cons (p : Char × Nat) (cs : List (Char × Nat)) : shown (p :: cs) = shown [p] ++ shown cs :=
  shown_append [p] cs

theorem shown_map (cs : List Char) (row : Nat) :
    shown (cs.map (·, row)) = (cs.filter fun c => !Text.isBlank c).map (·, row) :=
  List.filter_map ..

theorem shown_flatMap {α : Type} (f : α → List (Char × Nat)) (xs : List α) :
    shown (xs.flatMap f) = xs.flatMap fun x => shown (f x) := by
  rw [shown, List.filter_flatMap]
  rfl

theorem shown_rowItems (row : Nat) (line : List Char) :
    shown (((Segment.ofRow line).map (identify row)).flatMap itemChars) = shown (line.map (·, row)) := by
  have hchars : ((Segment.ofRow line).map (identify row)).flatMap itemChars =
      (Segment.ofRow line).flatten.map (·, row) := by
    rw [List.flatMap_map, List.map_flatten, ← List.flatMap_def]
    exact List.flatMap_congr fun segment _ => itemChars_identify row segment
  rw [hchars, shown_map, (Segment.covers_ofRow line).filter_flatten, ← shown_map]

theorem shown_splitOn (line : Nat) (cs : List Char) :
    (((cs.splitOn '\n').zipIdx line).flatMap fun p => shown (p.1.map (·, p.2))) =
      shown (onLines line cs) := by
  induction cs generalizing line with
  | nil => rfl
  | cons c cs ih =>
    rw [List.splitOn_cons_eq_if_modifyHead, onLines, shown_cons]
    by_cases hc : c = '\n'
    · subst hc
      have hfeed : shown [('\n', line)] = [] := rfl
      rw [if_pos rfl, if_pos (beq_self_eq_true _), hfeed, List.nil_append, ← ih]
      rfl
    · -- the character goes to the front of the first line
      obtain ⟨first, others, hsplit⟩ := List.exists_cons_of_ne_nil (List.splitOn_ne_nil '\n' cs)
      rw [if_neg hc, if_neg (by simpa using hc), ← ih, hsplit, List.modifyHead_cons, List.zipIdx_cons,
        List.flatMap_cons, List.map_cons, shown_cons, List.zipIdx_cons, List.flatMap_cons,
        List.append_assoc]

/-- A row consists of its segments and of white space around them. Only delimiters have a delimiter in
them. All that is not white space in a source text is found in its lexemes and diagnostics, once, in the
order of the source and with the number of its line. -/
theorem segments_lose_nothing :
    (∀ row, Segment.Covers (Segment.ofRow row) row) ∧
    ∀ source, shown ((scan source).flatMap itemChars) = shown (onLines 1 source.toList) := by
  refine ⟨Segment.covers_ofRow, fun source => ?_⟩
  rw [scan, List.flatMap_assoc, shown_flatMap, ← shown_splitOn, sourceRows]
  exact List.flatMap_congr fun p _ => shown_rowItems p.2 p.1

end RowLang
