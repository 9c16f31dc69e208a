import Mathlib
import RowLang.Pipeline
import RowLang.Proofs.Lexeme.Rows

/-! Reprinting: every row is written again with its lexemes alone, one blank between neighbours. The
reprinted source has the lexemes and the tables of the source it was made from, and nothing in it is
unidentified. -/

namespace RowLang

def reprint (source : String) : String :=
  Text.joinWith "\n" (((sourceRows source).zipIdx 1).map fun p =>
    joinTexts ((lex source).lexemes.filter (·.row = p.2)))

namespace Segment
variable {s t : List Char} {ts : List (List Char)}

theorem flatten_pieces (s : List Char) : (pieces s).flatten = s := by
  fun_induction pieces s with
  | case1 s d r hd ih => rw [List.flatten_cons, ih, ← (splits_delimiter? hd).1]
  | case2 => rfl
  | case3 c t _ ih => rw [List.flatten_cons, ih, List.cons_append, append_untilDelimiter]

theorem mem_of_mem_ofRow {c : Char} (ht : t ∈ ofRow s) (hc : c ∈ t) : c ∈ s := by
  rw [← flatten_pieces s]
  exact List.mem_flatten_of_mem (List.mem_of_mem_filter ht) hc

theorem ofRow_intercalate (hwhole : ∀ t ∈ ts, Whole t) (hshows : ∀ t ∈ ts, Text.allBlank t = false) :
    ofRow ([' '].intercalate ts) = ts := by
  have hblank : Text.allBlank [' '] = true := by decide
  induction ts with
  | nil => rw [List.intercalate_nil, ofRow, pieces_nil, List.filter_nil]
  | cons t ts ih =>
    rw [List.forall_mem_cons] at hwhole hshows
    have ih := ih hwhole.2 hshows.2
    cases ts with
    | nil =>
      have hpieces := hwhole.1 [] .nil
      rw [List.append_nil] at hpieces
      rw [List.intercalate_singleton, ofRow, hpieces]
      simp [hshows.1]
    | cons u us =>
      have hpieces := hwhole.1 _ (.blank ([' '].intercalate (u :: us)))
      rw [List.intercalate_cons_cons, List.append_assoc, List.singleton_append, ofRow, hpieces,
        pieces_blank, List.filter_cons_of_pos (by simp [hshows.1]),
        List.filter_cons_of_neg (by simp [hblank])]
      rw [ofRow] at ih
      rw [ih]

end Segment

section
variable {p : List Char × Nat} {source : String}

theorem ofRow_texts (p : List Char × Nat) :
    Segment.ofRow ([' '].intercalate ((rowLexemes p).map (·.text.toList))) =
      (rowLexemes p).map (·.text.toList) := by
  apply Segment.ofRow_intercalate
  · intro t ht
    obtain ⟨l, hl, rfl⟩ := List.mem_map.1 ht
    exact Segment.whole_of_classify (mem_rowLexemes.1 hl).2.2.1
  · intro t ht
    obtain ⟨l, hl, rfl⟩ := List.mem_map.1 ht
    simpa using (List.mem_filter.1 (mem_rowLexemes.1 hl).2.1).2

theorem mem_of_mem_intercalate {c : Char} {ts : List (List Char)} (h : c ∈ [' '].intercalate ts) :
    c = ' ' ∨ ∃ t ∈ ts, c ∈ t := by
  induction ts with
  | nil => cases h
  | cons t ts ih =>
    cases ts with
    | nil => exact Or.inr ⟨t, by simp, by simpa using h⟩
    | cons u us =>
      rw [List.intercalate_cons_cons, List.mem_append, List.mem_append, List.mem_singleton] at h
      rcases h with (h | h) | h
      · exact Or.inr ⟨t, by simp, h⟩
      · exact Or.inl h
      · exact (ih h).imp_right fun ⟨v, hv, hc⟩ => ⟨v, List.mem_cons_of_mem _ hv, hc⟩

theorem sourceRows_reprint (source : String) :
    sourceRows (reprint source) = ((sourceRows source).zipIdx 1).map fun p =>
      [' '].intercalate ((rowLexemes p).map (·.text.toList)) := by
  have hlines : (((sourceRows source).zipIdx 1).map fun p =>
      joinTexts ((lex source).lexemes.filter (·.row = p.2))).map String.toList =
        ((sourceRows source).zipIdx 1).map fun p =>
          [' '].intercalate ((rowLexemes p).map (·.text.toList)) := by
    rw [List.map_map]
    apply List.map_congr_left
    intro p hp
    rw [Function.comp_apply, joinTexts, texts_of_row source hp, Text.joinWith,
      String.toList_intercalate, List.map_map]
    rfl
  rw [sourceRows, reprint, Text.joinWith, String.toList_intercalate, hlines]
  apply List.splitOn_intercalate
  · intro line hline hfeed
    obtain ⟨p, hp, rfl⟩ := List.mem_map.1 hline
    rcases mem_of_mem_intercalate hfeed with hblank | ⟨t, ht, hfeed⟩
    · exact absurd hblank (by decide)
    · obtain ⟨l, hl, rfl⟩ := List.mem_map.1 ht
      have hrow := Segment.mem_of_mem_ofRow (mem_rowLexemes.1 hl).2.1 hfeed
      exact linefeed_not_mem (List.fst_mem_of_mem_zipIdx hp) hrow
  · simp [sourceRows, List.splitOn_ne_nil]

theorem scan_reprint (source : String) :
    scan (reprint source) =
      (((sourceRows source).zipIdx 1).flatMap rowLexemes).map Except.ok := by
  have hnumbers : ∀ f : List Char × Nat → List Char,
      (((sourceRows source).zipIdx 1).map f).zipIdx 1 =
        ((sourceRows source).zipIdx 1).map fun p => (f p, p.2) := by
    intro f
    apply List.ext_getElem?
    intro i
    simp [List.getElem?_zipIdx, Function.comp_def]
  rw [scan, sourceRows_reprint, hnumbers, List.flatMap_map, List.map_flatMap]
  congr 1
  funext p
  dsimp only
  rw [ofRow_texts, List.map_map]
  apply List.map_congr_left
  intro l hl
  exact identify_text hl

theorem filterMap_scan_reprint (source : String) :
    (scan (reprint source)).filterMap Except.toOption = (scan source).filterMap Except.toOption := by
  rw [scan_reprint, List.filterMap_map, filterMap_scan]
  exact List.filterMap_some

theorem lex_reprint_eq (source : String) :
    lex (reprint source) = { lex source with unidentified := [] } := by
  unfold lex
  dsimp only
  rw [filterMap_scan_reprint, scan_reprint, List.filterMap_map]
  congr 1
  rw [List.filterMap_eq_nil_iff]
  intro l _
  rfl

/-- Reprinting keeps the rows, the lexemes with their links and the tables, and removes what was
unidentified; so the reprinted source compiles strictly to what the source compiles to leniently. -/
theorem lex_reprint (source : String) :
    (sourceRows (reprint source)).length = (sourceRows source).length ∧
    lex (reprint source) = { lex source with unidentified := [] } ∧
    ∀ stepLimit, Settings.compile { stepLimit, strict := true } (reprint source) =
      (Settings.compile { stepLimit, strict := false } source).map
        fun compiled => { compiled with unidentified := [] } := by
  refine ⟨by rw [sourceRows_reprint, List.length_map, List.length_zipIdx], lex_reprint_eq source, ?_⟩
  intro stepLimit
  rw [Settings.compile, Settings.compile, lex_reprint_eq]
  cases parse (lex source).lexemes (lex source).tables <;> simp [Except.map]

end
end RowLang
