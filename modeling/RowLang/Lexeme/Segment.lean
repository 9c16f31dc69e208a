import RowLang.Lexeme.Pattern
import RowLang.Text.Blank
import RowLang.Vocabulary

/-! Rows are cut into segments. A delimiter is a segment of its own, and so is a text in which no
delimiter starts and after which one does, or the row ends. -/

namespace RowLang.Segment

def one? (p : Char → Bool) : List Char → Option (List Char × List Char)
  | [] => none
  | c :: s => if p c then some ([c], s) else none

def relSign? (s : List Char) : Option (List Char × List Char) :=
  (Vocabulary.words : List RelSign).findSome? fun w =>
    let sign := (spelling w).toList
    if sign.isPrefixOf s then some (sign, s.drop sign.length) else none

def isSign (c : Char) : Bool :=
  "+-*/^:=()".toList.contains c

def delimiter? (s : List Char) : Option (List Char × List Char) :=
  (Pattern.quoted? s).or ((Pattern.real? s).or
    ((one? Text.isSpacing s).or ((relSign? s).or (one? isSign s))))

def untilDelimiter : List Char → List Char × List Char
  | [] => ([], [])
  | c :: s =>
    if (delimiter? (c :: s)).isSome then ([], c :: s)
    else
      let (text, rest) := untilDelimiter s
      (c :: text, rest)

theorem splits_one? {p : Char → Bool} {s : List Char} {q} (h : one? p s = some q) :
    Pattern.Splits s q := by
  cases s with
  | nil => simp [one?] at h
  | cons c s =>
    simp only [one?] at h
    split at h
    · cases h; exact ⟨rfl, by simp⟩
    · simp at h

theorem splits_relSign? {s : List Char} {q} (h : relSign? s = some q) : Pattern.Splits s q := by
  unfold relSign? at h
  obtain ⟨w, hw, h⟩ := List.exists_of_findSome?_eq_some h
  simp only [] at h
  split at h
  · rename_i hp
    cases h
    obtain ⟨t, ht⟩ := List.isPrefixOf_iff_prefix.1 hp
    refine ⟨by simp [← ht], ?_⟩
    change (spelling w).toList ≠ []
    cases w <;> decide
  · simp at h

theorem splits_delimiter? {s : List Char} {q} (h : delimiter? s = some q) :
    Pattern.Splits s q := by
  simp only [delimiter?, Option.or_eq_some_iff] at h
  rcases h with h | ⟨-, h | ⟨-, h | ⟨-, h | ⟨-, h⟩⟩⟩⟩
  · exact Pattern.splits_quoted? h
  · exact Pattern.splits_real? h
  · exact splits_one? h
  · exact splits_relSign? h
  · exact splits_one? h

theorem append_untilDelimiter (s : List Char) :
    (untilDelimiter s).1 ++ (untilDelimiter s).2 = s := by
  induction s with
  | nil => rfl
  | cons c s ih =>
    unfold untilDelimiter
    split
    · rfl
    · simp [ih]

theorem length_lt_of_splits {s : List Char} {q} (h : Pattern.Splits s q) :
    q.2.length < s.length := by
  have := List.length_pos_iff.2 h.2
  rw [h.1, List.length_append]
  omega

def pieces (s : List Char) : List (List Char) :=
  match _hd : delimiter? s with
  | some (d, r) => d :: pieces r
  | none =>
    match s with
    | [] => []
    | c :: t => (c :: (untilDelimiter t).1) :: pieces (untilDelimiter t).2
termination_by s.length
decreasing_by
  · exact length_lt_of_splits (splits_delimiter? _hd)
  · have := congrArg List.length (append_untilDelimiter t)
    simp only [List.length_append] at this
    simp only [List.length_cons]
    omega

def ofRow (row : List Char) : List (List Char) :=
  (pieces row).filter fun s => !Text.allBlank s

end RowLang.Segment
