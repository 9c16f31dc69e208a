import Mathlib
import RowLang.Proofs.Lexeme.Linking
import RowLang.Proofs.Lexeme.Segments

/-! The lexemes of a source text row by row. Each row gives its own lexemes, whatever stands above and
below, and linking changes neither their order nor anything else about them. -/

namespace RowLang

def rowLexemes (p : List Char × Nat) : List Lexeme :=
  (Segment.ofRow p.1).filterMap fun segment => (identify p.2 segment).toOption

section
variable {p : List Char × Nat} {l : Lexeme} {ls ls' : List Lexeme} {t : Tables} {source : String}

theorem mem_rowLexemes : l ∈ rowLexemes p ↔
    l.row = p.2 ∧ l.text.toList ∈ Segment.ofRow p.1 ∧ l.Classified := by
  rw [rowLexemes, List.mem_filterMap]
  constructor
  · rintro ⟨segment, hsegment, hl⟩
    unfold identify at hl
    split at hl
    · rename_i kind hkind
      obtain rfl : _ = l := Option.some.inj hl
      exact ⟨rfl, by simpa using hsegment, by simpa using hkind, rfl⟩
    · cases hl
  · rintro ⟨hrow, hsegment, hkind, hlink⟩
    refine ⟨_, hsegment, ?_⟩
    rw [identify, hkind, ← hrow, String.ofList_toList]
    cases l
    cases hlink
    rfl

theorem identify_text (hl : l ∈ rowLexemes p) : identify p.2 l.text.toList = .ok l := by
  obtain ⟨hrow, -, hkind, hlink⟩ := mem_rowLexemes.1 hl
  rw [identify, hkind, ← hrow, String.ofList_toList]
  cases l
  cases hlink
  rfl

theorem filterMap_scan (source : String) :
    (scan source).filterMap Except.toOption =
      ((sourceRows source).zipIdx 1).flatMap rowLexemes := by
  rw [scan, List.filterMap_flatMap]
  congr 1
  funext p
  rw [List.filterMap_map]
  rfl

theorem lexemes_lex (source : String) :
    (lex source).lexemes =
      (({} : Tables).link (((sourceRows source).zipIdx 1).flatMap rowLexemes)).2 := by
  rw [← filterMap_scan]
  rfl

theorem tables_lex (source : String) :
    (lex source).tables =
      (({} : Tables).link (((sourceRows source).zipIdx 1).flatMap rowLexemes)).1 := by
  rw [← filterMap_scan]
  rfl

theorem filter_row {rows : List (List Char × Nat)} (hrows : (rows.map Prod.snd).Nodup)
    (hp : p ∈ rows) : (rows.flatMap rowLexemes).filter (·.row = p.2) = rowLexemes p := by
  induction rows with
  | nil => cases hp
  | cons q rows ih =>
    rw [List.map_cons, List.nodup_cons] at hrows
    have hothers : ∀ r ∈ rows, r.2 ≠ q.2 := by
      intro r hr heq
      exact hrows.1 (heq ▸ List.mem_map_of_mem hr)
    rw [List.flatMap_cons, List.filter_append]
    rcases List.mem_cons.1 hp with rfl | hp
    · have hself : (rowLexemes p).filter (·.row = p.2) = rowLexemes p := by
        rw [List.filter_eq_self]
        intro l hl
        simp [(mem_rowLexemes.1 hl).1]
      have hnone : (rows.flatMap rowLexemes).filter (·.row = p.2) = [] := by
        rw [List.filter_eq_nil_iff]
        intro l hl
        obtain ⟨r, hr, hl⟩ := List.mem_flatMap.1 hl
        simpa [(mem_rowLexemes.1 hl).1] using hothers r hr
      rw [hself, hnone, List.append_nil]
    · have hnone : (rowLexemes q).filter (·.row = p.2) = [] := by
        rw [List.filter_eq_nil_iff]
        intro l hl
        simpa [(mem_rowLexemes.1 hl).1] using (hothers p hp).symm
      rw [hnone, List.nil_append, ih hrows.2 hp]

def Lexeme.unlinked (l : Lexeme) : Lexeme := { l with link := none }

theorem unlinked_link (t : Tables) (ls : List Lexeme) :
    (t.link ls).2.map Lexeme.unlinked = ls.map Lexeme.unlinked := by
  induction ls generalizing t with
  | nil => rfl
  | cons l ls ih => simp [Tables.link, ih, Lexeme.unlinked]

theorem texts_link (t : Tables) (ls : List Lexeme) {p : Lexeme → Bool}
    (hp : ∀ l, p l.unlinked = p l) :
    ((t.link ls).2.filter p).map Lexeme.text = (ls.filter p).map Lexeme.text := by
  have hunlinked : ∀ ls : List Lexeme,
      (ls.filter p).map Lexeme.text = ((ls.map Lexeme.unlinked).filter p).map Lexeme.text := by
    intro ls
    rw [List.filter_map, List.map_map, show p ∘ Lexeme.unlinked = p from funext hp]
    rfl
  rw [hunlinked, unlinked_link, ← hunlinked]

theorem texts_of_row (source : String) (hp : p ∈ (sourceRows source).zipIdx 1) :
    ((lex source).lexemes.filter (·.row = p.2)).map Lexeme.text =
      (rowLexemes p).map Lexeme.text := by
  have hrows : (((sourceRows source).zipIdx 1).map Prod.snd).Nodup := by
    rw [List.zipIdx_map_snd]
    exact List.nodup_range'
  rw [lexemes_lex, texts_link _ _ fun _ => rfl, filter_row hrows hp]

theorem linefeed_not_mem {line : List Char} (h : line ∈ sourceRows source) : '\n' ∉ line := by
  rw [sourceRows] at h
  generalize source.toList = cs at h
  induction cs generalizing line with
  | nil =>
    obtain rfl : line = [] := by simpa using h
    simp
  | cons c cs ih =>
    rw [List.splitOn_cons_eq_if_modifyHead] at h
    split at h
    · rcases List.mem_cons.1 h with rfl | h
      · simp
      · exact ih h
    · rename_i hc
      obtain ⟨first, others, heq⟩ := List.exists_cons_of_ne_nil (List.splitOn_ne_nil '\n' cs)
      rw [heq, List.modifyHead_cons] at h
      rcases List.mem_cons.1 h with rfl | h
      · have hfirst := ih (heq ▸ List.mem_cons_self)
        have hne : '\n' ≠ c := fun h => hc (beq_iff_eq.2 h.symm)
        exact List.not_mem_cons_of_ne_of_not_mem hne hfirst
      · exact ih (heq ▸ List.mem_cons_of_mem _ h)

theorem link_append (t : Tables) (ls ls' : List Lexeme) :
    (t.link (ls ++ ls')).2 = (t.link ls).2 ++ ((t.link ls).1.link ls').2 := by
  induction ls generalizing t with
  | nil => rfl
  | cons l ls ih => simp [Tables.link, ih]

theorem rows_link (t : Tables) (ls : List Lexeme) :
    (t.link ls).2.map Lexeme.row = ls.map Lexeme.row := by
  have hrows : ∀ ls : List Lexeme, ls.map Lexeme.row = (ls.map Lexeme.unlinked).map Lexeme.row := by
    intro ls
    rw [List.map_map]
    rfl
  rw [hrows, unlinked_link, ← hrows]

theorem row_bounds {lines : List (List Char)} {k : Nat}
    (hl : l ∈ (lines.zipIdx k).flatMap rowLexemes) : k ≤ l.row ∧ l.row < k + lines.length := by
  obtain ⟨p, hp, hl⟩ := List.mem_flatMap.1 hl
  rw [(mem_rowLexemes.1 hl).1]
  exact ⟨List.le_snd_of_mem_zipIdx hp, List.snd_lt_add_of_mem_zipIdx hp⟩

theorem pairwise_rowLexemes (lines : List (List Char)) (k : Nat) :
    ((lines.zipIdx k).flatMap rowLexemes).Pairwise (·.row ≤ ·.row) := by
  induction lines generalizing k with
  | nil => exact List.Pairwise.nil
  | cons line lines ih =>
    rw [List.zipIdx_cons, List.flatMap_cons, List.pairwise_append]
    refine ⟨List.pairwise_of_forall_mem_list ?_, ih (k + 1), ?_⟩
    · intro a ha b hb
      rw [(mem_rowLexemes.1 ha).1, (mem_rowLexemes.1 hb).1]
    · intro a ha b hb
      have hb := (row_bounds hb).1
      have ha : a.row = k := (mem_rowLexemes.1 ha).1
      omega

theorem pairwise_row (source : String) : (lex source).lexemes.Pairwise (·.row ≤ ·.row) := by
  have hrows := pairwise_rowLexemes (sourceRows source) 1
  rw [← List.pairwise_map (f := Lexeme.row) (R := (· ≤ ·))] at hrows ⊢
  rwa [lexemes_lex, rows_link]

def above (source : String) (row : Nat) : String :=
  Text.joinWith "\n" (((sourceRows source).take (row - 1)).map String.ofList)

theorem rowLexemes_above (source : String) (row : Nat) :
    ((sourceRows (above source row)).zipIdx 1).flatMap rowLexemes =
      (((sourceRows source).take (row - 1)).zipIdx 1).flatMap rowLexemes := by
  rw [above, Text.joinWith, sourceRows, String.toList_intercalate, List.map_map]
  have hid : (String.toList ∘ String.ofList) = id := by
    funext cs
    exact String.toList_ofList
  rw [hid, List.map_id]
  by_cases hnil : (sourceRows source).take (row - 1) = []
  · rw [hnil, List.intercalate_nil, List.splitOn_nil]
    simp [rowLexemes, Segment.ofRow]
  · have hlines : ∀ line ∈ (sourceRows source).take (row - 1), '\n' ∉ line :=
      fun line hline => linefeed_not_mem (List.mem_of_mem_take hline)
    rw [show "\n".toList = ['\n'] from rfl, List.splitOn_intercalate '\n' hlines hnil]

theorem lexemes_above (source : String) (row : Nat) :
    ∃ rest, (lex source).lexemes = (lex (above source row)).lexemes ++ rest ∧
      (∀ l ∈ (lex (above source row)).lexemes, l.row < row) ∧ ∀ l ∈ rest, row ≤ l.row := by
  have hsplit : ((sourceRows source).zipIdx 1).flatMap rowLexemes =
      (((sourceRows source).take (row - 1)).zipIdx 1).flatMap rowLexemes ++
        (((sourceRows source).drop (row - 1)).zipIdx
          (1 + ((sourceRows source).take (row - 1)).length)).flatMap rowLexemes := by
    rw [← List.flatMap_append, ← List.zipIdx_append, List.take_append_drop]
  have hmem : ∀ {t : Tables} {ls : List Lexeme}, ∀ l ∈ (t.link ls).2, ∃ l' ∈ ls, l'.row = l.row := by
    intro t ls l hl
    have hrow := List.mem_map_of_mem (f := Lexeme.row) hl
    rw [rows_link] at hrow
    exact List.mem_map.1 hrow
  rw [lexemes_lex, lexemes_lex, rowLexemes_above, hsplit, link_append]
  refine ⟨_, rfl, ?_, ?_⟩
  · intro l hl
    obtain ⟨l', hl', hrow⟩ := hmem l hl
    have hbounds := row_bounds hl'
    have hlength := List.length_take_le (row - 1) (sourceRows source)
    omega
  · intro l hl
    obtain ⟨l', hl', hrow⟩ := hmem l hl
    have hbounds := row_bounds hl'
    rw [List.length_take, List.length_drop] at hbounds
    omega

end
end RowLang
