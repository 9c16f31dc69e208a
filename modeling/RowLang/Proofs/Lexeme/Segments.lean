import Mathlib
import RowLang.Proofs.Lexeme.Classified

/-! Texts that are segments wherever a blank or the end follows them. Every text that has a kind is
such a text: a delimiter takes the same characters as before, and no delimiter starts inside a word. -/

namespace RowLang

inductive Spaced : List Char → Prop
  | nil : Spaced []
  | blank (s : List Char) : Spaced (' ' :: s)

namespace Pattern
variable {s rest : List Char}

/-- What the pattern takes does not depend on what comes behind a blank. -/
def Local (pattern : List Char → Option (List Char × List Char)) : Prop :=
  ∀ s rest, Spaced rest → pattern (s ++ rest) = (pattern s).map fun q => (q.1, q.2 ++ rest)

theorem takeWhile_append_spaced {p : Char → Bool} (hp : p ' ' = false) (hr : Spaced rest) :
    (s ++ rest).takeWhile p = s.takeWhile p := by
  have hrest : rest.takeWhile p = [] := by
    cases hr <;> simp [hp]
  rw [List.takeWhile_append, hrest]
  split
  · rename_i hlength
    rw [List.append_nil, (List.takeWhile_prefix p).eq_of_length hlength]
  · rfl

theorem dropWhile_append_spaced {p : Char → Bool} (hp : p ' ' = false) (hr : Spaced rest) :
    (s ++ rest).dropWhile p = s.dropWhile p ++ rest := by
  have hboth := List.takeWhile_append_dropWhile (p := p) (l := s ++ rest)
  rw [takeWhile_append_spaced hp hr] at hboth
  have hs := List.takeWhile_append_dropWhile (p := p) (l := s)
  have hsplit : s.takeWhile p ++ (s ++ rest).dropWhile p = s.takeWhile p ++ (s.dropWhile p ++ rest) := by
    rw [hboth, ← List.append_assoc, hs]
  exact List.append_cancel_left hsplit

theorem local_digits? : Local digits? := by
  intro s rest hr
  have hblank : Char.isDigit ' ' = false := by decide
  rw [digits?, digits?, takeWhile_append_spaced hblank hr, dropWhile_append_spaced hblank hr]
  cases s.takeWhile Char.isDigit <;> rfl

theorem fraction?_eq_none {c : Char} (hc : c ≠ '.') (s : List Char) : fraction? (c :: s) = none := by
  unfold fraction?
  split
  · rename_i heq
    exact absurd (List.cons.inj heq).1 hc
  · rfl

theorem local_fraction? : Local fraction? := by
  intro s rest hr
  cases s with
  | nil => cases hr <;> rfl
  | cons c s =>
    by_cases hc : c = '.'
    · subst hc
      simp only [List.cons_append, fraction?, local_digits? s rest hr, Option.map_map]
      rfl
    · rw [List.cons_append, fraction?_eq_none hc, fraction?_eq_none hc]
      rfl

theorem exponent?_eq_none {c : Char} (hc : c ≠ 'e') (s : List Char) : exponent? (c :: s) = none := by
  unfold exponent?
  split
  · rename_i heq
    exact absurd (List.cons.inj heq).1 hc
  · rfl

theorem local_exponent? : Local exponent? := by
  intro s rest hr
  cases s with
  | nil => cases hr <;> rfl
  | cons c s =>
    by_cases hc : c = 'e'
    · subst hc
      cases s with
      | nil =>
        cases hr with
        | nil => rfl
        | blank u => simp [exponent?]
      | cons sign s =>
        simp only [List.cons_append, exponent?, local_digits? s rest hr]
        split
        · simp only [Option.map_map]
          rfl
        · rfl
    · rw [List.cons_append, exponent?_eq_none hc, exponent?_eq_none hc]
      rfl

theorem local_tail? : Local tail? := by
  intro s rest hr
  rw [tail?, tail?, local_fraction? s rest hr]
  cases fraction? s with
  | none => exact local_exponent? s rest hr
  | some q =>
    obtain ⟨f, r⟩ := q
    simp only [Option.map_some, local_exponent? r rest hr]
    cases exponent? r <;> rfl

theorem local_real? : Local real? := by
  intro s rest hr
  rw [real?, real?, local_digits? s rest hr]
  cases digits? s with
  | none => rfl
  | some q =>
    obtain ⟨d, r⟩ := q
    simp only [Option.map_some, local_tail? r rest hr, Option.map_map]
    rfl

theorem quoted?_append {q : List Char × List Char} (h : quoted? s = some q) (rest : List Char) :
    quoted? (s ++ rest) = some (q.1, q.2 ++ rest) := by
  unfold quoted? at h
  split at h
  · rename_i u
    cases hd : u.dropWhile (· != '\'') with
    | nil => simp [hd] at h
    | cons c r =>
      simp only [hd, Option.some.injEq] at h
      subst h
      have hne : (u.dropWhile (· != '\'')).isEmpty = false := by simp [hd]
      have hlength : ¬ (u.takeWhile (· != '\'')).length = u.length := by
        intro heq
        have hall := (List.takeWhile_prefix (· != '\'')).eq_of_length heq
        rw [List.takeWhile_eq_self_iff] at hall
        rw [List.dropWhile_eq_nil_iff.2 hall] at hd
        cases hd
      rw [List.cons_append, quoted?, List.dropWhile_append, hne, List.takeWhile_append,
        if_neg hlength]
      simp [hd]
  · cases h

theorem quoted?_eq_none {c : Char} (hc : c ≠ '\'') (s : List Char) : quoted? (c :: s) = none := by
  unfold quoted?
  split
  · rename_i heq
    exact absurd (List.cons.inj heq).1 hc
  · rfl

end Pattern

namespace Segment
variable {s t rest : List Char}

theorem isPrefixOf_append_spaced {sign : List Char} (hsign : ' ' ∉ sign) (hr : Spaced rest) :
    sign.isPrefixOf (s ++ rest) = sign.isPrefixOf s := by
  induction sign generalizing s with
  | nil => simp
  | cons c sign ih =>
    have hc : c ≠ ' ' := fun h => hsign (h ▸ List.mem_cons_self)
    have ih := fun {s} => ih (s := s) fun h => hsign (List.mem_cons_of_mem _ h)
    cases s with
    | nil => cases hr <;> simp [List.isPrefixOf, hc]
    | cons d s => simp only [List.cons_append, List.isPrefixOf, ih]

theorem local_relSign? : Pattern.Local relSign? := by
  intro s rest hr
  have hword : ∀ w : RelSign, ' ' ∉ (spelling w).toList := by
    intro w
    cases w <;> decide
  rw [relSign?, relSign?, List.map_findSome?]
  congr 1
  funext w
  simp only [isPrefixOf_append_spaced (hword w) hr, Function.comp_apply]
  split
  · rename_i hp
    have hle := (List.isPrefixOf_iff_prefix.1 hp).length_le
    rw [List.drop_append_of_le_length hle, Option.map_some]
  · rfl

theorem delimiter?_append {c : Char} (hc : c ≠ '\'') (hr : Spaced rest) :
    delimiter? (c :: s ++ rest) = (delimiter? (c :: s)).map fun q => (q.1, q.2 ++ rest) := by
  have hone : ∀ p : Char → Bool,
      one? p (c :: s ++ rest) = (one? p (c :: s)).map fun q => (q.1, q.2 ++ rest) := by
    intro p
    simp only [List.cons_append, one?]
    split <;> rfl
  have hquoted : Pattern.quoted? (c :: s ++ rest) = none := Pattern.quoted?_eq_none hc _
  simp only [delimiter?, hquoted, Pattern.quoted?_eq_none hc, Pattern.local_real? _ _ hr, hone,
    local_relSign? _ _ hr, Option.none_or, Option.map_or]

@[simp]
theorem pieces_nil : pieces [] = [] := by
  rw [pieces]
  rfl

theorem pieces_of_delimiter {d r : List Char} (h : delimiter? s = some (d, r)) :
    pieces s = d :: pieces r := by
  rw [pieces]
  split
  · rename_i d' r' h'
    rw [h] at h'
    cases h'
    rfl
  · rename_i h'
    rw [h] at h'
    cases h'

theorem pieces_of_word {c : Char} (h : delimiter? (c :: s) = none) :
    pieces (c :: s) = (c :: (untilDelimiter s).1) :: pieces (untilDelimiter s).2 := by
  rw [pieces]
  split
  · rename_i h'
    rw [h] at h'
    cases h'
  · rfl

theorem delimiter?_blank (s : List Char) : delimiter? (' ' :: s) = some ([' '], s) := rfl

theorem pieces_blank (s : List Char) : pieces (' ' :: s) = [' '] :: pieces s :=
  pieces_of_delimiter (delimiter?_blank s)

/-- The text is one segment in front of a blank or the end of the row. -/
def Whole (t : List Char) : Prop :=
  ∀ rest, Spaced rest → pieces (t ++ rest) = t :: pieces rest

theorem whole_of_quoted (hq : Pattern.quoted? t = some (t, [])) : Whole t := by
  intro rest _
  apply pieces_of_delimiter
  rw [delimiter?, Pattern.quoted?_append hq]
  rfl

theorem whole_of_delimiter {c : Char} (hc : c ≠ '\'')
    (hd : delimiter? (c :: s) = some (c :: s, [])) : Whole (c :: s) := by
  intro rest hr
  apply pieces_of_delimiter
  rw [delimiter?_append hc hr, hd]
  rfl

def IsWord (t : List Char) : Prop := ∀ c ∈ t, Pattern.isWordChar c = true

theorem ne_quote_of_isWordChar {c : Char} (hc : Pattern.isWordChar c = true) : c ≠ '\'' := by
  rintro rfl
  exact absurd hc (by decide)

theorem not_isSpacing_of_isWordChar {c : Char} (hc : Pattern.isWordChar c = true) :
    Text.isSpacing c = false := by
  have hlarge : 48 ≤ c.toNat := by
    simp only [Pattern.isWordChar, Char.isAlphanum, Char.isAlpha, Char.isUpper, Char.isLower,
      Char.isDigit, Bool.or_eq_true, Bool.and_eq_true, decide_eq_true_eq, beq_iff_eq,
      ge_iff_le, UInt32.le_iff_toNat_le] at hc
    rcases hc with ((hc | hc) | hc) | rfl
    · exact le_trans (by decide) hc.1
    · exact le_trans (by decide) hc.1
    · exact hc.1
    · decide
  have hblank : c ≠ ' ' := by
    rintro rfl
    exact absurd hlarge (by decide)
  simp only [Text.isSpacing, Bool.or_eq_false_iff, beq_eq_false_iff_ne, Bool.and_eq_false_iff,
    decide_eq_false_iff_not]
  exact ⟨hblank, Or.inr (by omega)⟩

theorem not_isSign_of_isWordChar {c : Char} (hc : Pattern.isWordChar c = true) :
    isSign c = false := by
  by_contra hsign
  rw [Bool.not_eq_false, isSign, List.contains_iff_mem] at hsign
  have hnone : ("+-*/^:=()".toList.all fun d => !Pattern.isWordChar d) = true := by decide
  have hnot := List.all_eq_true.1 hnone c hsign
  rw [hc] at hnot
  cases hnot

theorem tail?_of_isWord (ht : IsWord t) : Pattern.tail? t = none := by
  have hfraction : Pattern.fraction? t = none := by
    unfold Pattern.fraction?
    split
    · exact absurd (ht '.' List.mem_cons_self) (by decide)
    · rfl
  have hexponent : Pattern.exponent? t = none := by
    unfold Pattern.exponent?
    split
    · rename_i sign u
      rw [if_neg]
      rintro (rfl | rfl)
      · exact absurd (ht '+' (by simp)) (by decide)
      · exact absurd (ht '-' (by simp)) (by decide)
    · rfl
  rw [Pattern.tail?, hfraction]
  exact hexponent

theorem real?_of_isWord (ht : IsWord t) : Pattern.real? t = none := by
  unfold Pattern.real?
  split
  · rfl
  · rename_i d r hd
    have hr : IsWord r := by
      intro c hc
      have hsplit := (Pattern.splits_digits? hd).1
      exact ht c (hsplit ▸ List.mem_append_right _ hc)
    rw [tail?_of_isWord hr]
    rfl

theorem relSign?_of_isWord (ht : IsWord t) : relSign? t = none := by
  rw [relSign?, List.findSome?_eq_none_iff]
  intro w _
  rw [if_neg]
  intro hp
  have hsub := (List.isPrefixOf_iff_prefix.1 hp).subset
  have hany : ((spelling w).toList.any fun c => !Pattern.isWordChar c) = true := by
    cases w <;> decide
  obtain ⟨c, hc, hnot⟩ := List.any_eq_true.1 hany
  rw [ht c (hsub hc)] at hnot
  cases hnot

theorem delimiter?_of_isWord (ht : IsWord t) : delimiter? t = none := by
  cases t with
  | nil => rfl
  | cons c t =>
    have hc := ht c List.mem_cons_self
    have hquote := ne_quote_of_isWordChar hc
    simp [delimiter?, Pattern.quoted?_eq_none hquote, real?_of_isWord ht, relSign?_of_isWord ht,
      one?, not_isSpacing_of_isWordChar hc, not_isSign_of_isWordChar hc]

theorem untilDelimiter_spaced (hr : Spaced rest) : untilDelimiter rest = ([], rest) := by
  cases hr <;> rfl

theorem delimiter?_word_append {c : Char} (ht : IsWord (c :: s)) (hr : Spaced rest) :
    delimiter? (c :: (s ++ rest)) = none := by
  have hquote := ne_quote_of_isWordChar (ht c List.mem_cons_self)
  rw [← List.cons_append, delimiter?_append hquote hr, delimiter?_of_isWord ht]
  rfl

theorem untilDelimiter_word_append (ht : IsWord t) (hr : Spaced rest) :
    untilDelimiter (t ++ rest) = (t, rest) := by
  induction t with
  | nil => exact untilDelimiter_spaced hr
  | cons c t ih =>
    have htail : IsWord t := fun d hd => ht d (List.mem_cons_of_mem _ hd)
    rw [List.cons_append, untilDelimiter, delimiter?_word_append ht hr, ih htail]
    rfl

theorem whole_of_isWord (ht : IsWord t) (hne : t ≠ []) : Whole t := by
  intro rest hr
  cases t with
  | nil => exact absurd rfl hne
  | cons c t =>
    have htail : IsWord t := fun d hd => ht d (List.mem_cons_of_mem _ hd)
    rw [List.cons_append, pieces_of_word (delimiter?_word_append ht hr),
      untilDelimiter_word_append htail hr]

def standsAlone (t : List Char) : Bool :=
  (t.all Pattern.isWordChar && !t.isEmpty) ||
    (delimiter? t == some (t, []) && t.head? != some '\'')

theorem whole_of_standsAlone (h : standsAlone t = true) : Whole t := by
  simp only [standsAlone, Bool.or_eq_true, Bool.and_eq_true, List.all_eq_true, Bool.not_eq_true',
    List.isEmpty_eq_false_iff, beq_iff_eq, bne_iff_ne] at h
  rcases h with ⟨hword, hne⟩ | ⟨hd, hquote⟩
  · exact whole_of_isWord hword hne
  · cases t with
    | nil => cases hd
    | cons c t =>
      have hc : c ≠ '\'' := by
        rintro rfl
        exact hquote rfl
      exact whole_of_delimiter hc hd

theorem standsAlone_of_read? {α : Type} [Vocabulary α]
    (hall : ∀ w : α, standsAlone (spelling w).toList = true) {text : String} {f : α → Kind}
    {k : Kind} (h : (Vocabulary.read? text).map f = some k) : standsAlone text.toList = true := by
  obtain ⟨w, hw, -⟩ := Option.map_eq_some_iff.1 h
  have hspelled : spelling w = text := by simpa using List.find?_some hw
  exact hspelled ▸ hall w

theorem standsAlone_of_ofSpelling? {text : String} {k : Kind}
    (h : Kind.ofSpelling? text = some k) : standsAlone text.toList = true := by
  have hfixed : ∀ {word : String} {j : Kind}, standsAlone word.toList = true →
      (if text = word then some j else none) = some k → standsAlone text.toList = true := by
    intro word j hword h
    split at h
    · rename_i heq
      rwa [heq]
    · cases h
  simp only [Kind.ofSpelling?, Option.orElse_eq_orElse, Option.orElse_eq_or,
    Option.or_eq_some_iff] at h
  rcases h with h | ⟨-, h | ⟨-, h | ⟨-, h | ⟨-, h | ⟨-, h | ⟨-, h | ⟨-, h | ⟨-, h | ⟨-, h | ⟨-,
    h | ⟨-, h⟩⟩⟩⟩⟩⟩⟩⟩⟩⟩⟩
  any_goals exact standsAlone_of_read? (by intro w; cases w <;> decide) h
  all_goals exact hfixed (by decide) h

theorem exists_of_matchesAll {pattern : List Char → Option (List Char × List Char)}
    (h : Pattern.matchesAll pattern t = true) : ∃ p, pattern t = some (p, []) := by
  unfold Pattern.matchesAll at h
  split at h
  · exact ⟨_, ‹_›⟩
  · cases h

theorem whole_of_number {p : List Char} (h : Pattern.number? t = some (p, [])) : Whole t := by
  unfold Pattern.number? at h
  split at h
  · cases h
  · rename_i d r hd
    obtain ⟨hne, hrest⟩ := Decimal.digits?_eq_some hd
    cases htail : Pattern.tail? r with
    | none =>
      -- Nothing but digits: a word.
      simp only [htail, Option.some.injEq, Prod.mk.injEq] at h
      obtain ⟨-, rfl⟩ := h
      apply whole_of_isWord
      · intro c hc
        have hdigit := List.dropWhile_eq_nil_iff.1 hrest.symm c hc
        simp [Pattern.isWordChar, Char.isAlphanum, hdigit]
      · rintro rfl
        exact hne rfl
    | some q =>
      -- A fraction or an exponent follows, so the number is a delimiter.
      obtain ⟨u, r'⟩ := q
      simp only [htail, Option.some.injEq, Prod.mk.injEq] at h
      obtain ⟨-, rfl⟩ := h
      have hreal : Pattern.real? t = some (d ++ u, []) := by
        simp [Pattern.real?, hd, htail]
      have hall : t = d ++ u := by simpa using (Pattern.splits_real? hreal).1
      cases t with
      | nil => exact absurd rfl hne
      | cons c t =>
        have hquote : c ≠ '\'' := by
          rintro rfl
          exact hne rfl
        apply whole_of_delimiter hquote
        rw [delimiter?, Pattern.quoted?_eq_none hquote, hreal, hall]
        rfl

theorem whole_of_identifier {p : List Char} (h : Pattern.identifier? t = some (p, [])) :
    Whole t := by
  cases t with
  | nil => cases h
  | cons c s =>
    simp only [Pattern.identifier?] at h
    split at h
    · rename_i hc
      simp only [Option.some.injEq, Prod.mk.injEq] at h
      apply whole_of_isWord
      · intro d hd
        rcases List.mem_cons.1 hd with rfl | hd
        · simp [Pattern.isWordChar, Char.isAlphanum, hc]
        · exact List.dropWhile_eq_nil_iff.1 h.2 d hd
      · simp
    · cases h

theorem whole_of_classify {k : Kind} (h : classify t = some k) : Whole t := by
  unfold classify at h
  split at h
  · rename_i hconstant
    simp only [isConstantText, Bool.or_eq_true, decide_eq_true_eq, or_assoc] at hconstant
    rcases hconstant with rfl | rfl | hquoted | hnumber
    · exact whole_of_standsAlone (by decide)
    · exact whole_of_standsAlone (by decide)
    · obtain ⟨p, hp⟩ := exists_of_matchesAll hquoted
      have hall : t = p := by simpa using (Pattern.splits_quoted? hp).1
      exact whole_of_quoted (by rw [hp, ← hall])
    · obtain ⟨p, hp⟩ := exists_of_matchesAll hnumber
      exact whole_of_number hp
  · rcases Option.or_eq_some_iff.1 h with h | ⟨-, h⟩
    · have halone := standsAlone_of_ofSpelling? h
      rw [String.toList_ofList] at halone
      exact whole_of_standsAlone halone
    · split at h
      · rename_i hname
        obtain ⟨p, hp⟩ := exists_of_matchesAll hname
        exact whole_of_identifier hp
      · cases h

end Segment
end RowLang
