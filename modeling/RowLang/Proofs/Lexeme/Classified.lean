import Mathlib
import RowLang.Lexeme.Source

/-! What the kind of a text says about it: constants can be read as values, and names begin with a
letter. -/

namespace RowLang

theorem isOperand_of_ofSpelling? {text : String} {k : Kind} (h : Kind.ofSpelling? text = some k) :
    k.isOperand = false := by
  cases k with
  | identifier | constant => simp [Kind.ofSpelling?, Option.or_eq_some_iff] at h
  | _ => rfl

theorem isConstantText_of_classify {segment : List Char} (h : classify segment = some .constant) :
    isConstantText segment := by
  unfold classify at h
  split at h
  · assumption
  · rcases Option.or_eq_some_iff.1 h with h | ⟨-, h⟩
    · have := isOperand_of_ofSpelling? h
      simp [Kind.isOperand] at this
    · simp at h

theorem alphabetic_of_classify {segment : List Char} (h : classify segment = some .identifier) :
    ∃ c s, segment = c :: s ∧ c.isAlpha := by
  unfold classify at h
  split at h
  · simp at h
  · rcases Option.or_eq_some_iff.1 h with h | ⟨-, h⟩
    · have := isOperand_of_ofSpelling? h
      simp [Kind.isOperand] at this
    · cases segment with
      | nil => simp [Pattern.matchesAll, Pattern.identifier?] at h
      | cons c s =>
        by_cases hc : c.isAlpha
        · exact ⟨c, s, rfl, hc⟩
        · simp [Pattern.matchesAll, Pattern.identifier?, hc] at h

namespace Decimal

theorem isSome_readExponent? {s : List Char} {p} (h : Pattern.exponent? s = some (p, [])) :
    (readExponent? s).isSome := by
  unfold Pattern.exponent? at h
  split at h
  · rename_i sign s
    split at h
    · rename_i hsign
      obtain ⟨⟨d, r⟩, hd, hq⟩ := Option.map_eq_some_iff.1 h
      obtain ⟨rfl, rfl⟩ := Prod.mk.inj hq
      unfold Pattern.digits? at hd
      split at hd
      · simp at hd
      · rename_i d' ds hds
        simp only [Option.some.injEq, Prod.mk.injEq] at hd
        have hall : s.all Char.isDigit := by
          have := List.dropWhile_eq_nil_iff.1 hd.2
          simpa using this
        have hne : s ≠ [] := by
          rintro rfl
          simp at hds
        rcases hsign with rfl | rfl <;> simp [readExponent?, splitSign, hne, hall]
    · simp at h
  · simp at h

theorem digits?_eq_some {s d r : List Char} (h : Pattern.digits? s = some (d, r)) :
    s.takeWhile Char.isDigit ≠ [] ∧ r = s.dropWhile Char.isDigit := by
  unfold Pattern.digits? at h
  split at h
  · simp at h
  · rename_i hds
    simp only [Option.some.injEq, Prod.mk.injEq] at h
    exact ⟨by simp [hds], h.2.symm⟩

theorem fraction?_eq_some {s f r : List Char} (h : Pattern.fraction? s = some (f, r)) :
    ∃ u g, s = '.' :: u ∧ Pattern.digits? u = some (g, r) := by
  unfold Pattern.fraction? at h
  split at h
  · obtain ⟨⟨g, r'⟩, hg, hq⟩ := Option.map_eq_some_iff.1 h
    obtain ⟨-, rfl⟩ := Prod.mk.inj hq
    exact ⟨_, g, rfl, hg⟩
  · simp at h

theorem isSome_readUnsigned? {s p : List Char} (h : Pattern.number? s = some (p, [])) :
    (readUnsigned? s).isSome := by
  unfold Pattern.number? at h
  split at h
  · simp at h
  · rename_i d r hd
    obtain ⟨hne, rfl⟩ := digits?_eq_some hd
    unfold readUnsigned?
    cases ht : Pattern.tail? (s.dropWhile Char.isDigit) with
    | none =>
      simp only [ht, Option.some.injEq, Prod.mk.injEq] at h
      simp [h.2, hne, readExponent?]
    | some q =>
      obtain ⟨t, r⟩ := q
      simp only [ht, Option.some.injEq, Prod.mk.injEq] at h
      obtain ⟨-, rfl⟩ := h
      unfold Pattern.tail? at ht
      split at ht
      · have he := isSome_readExponent? ht
        obtain ⟨u, hu⟩ : ∃ u, s.dropWhile Char.isDigit = 'e' :: u := by
          unfold Pattern.exponent? at ht
          split at ht
          · exact ⟨_, ‹_›⟩
          · simp at ht
        rw [hu] at he ⊢
        simpa [hne] using he
      · rename_i f r hf
        obtain ⟨u, g, hu, hg⟩ := fraction?_eq_some hf
        obtain ⟨-, rfl⟩ := digits?_eq_some hg
        rw [hu]
        split at ht
        · simp only [Option.some.injEq, Prod.mk.injEq] at ht
          simp [hne, ht.2, readExponent?]
        · rename_i e r' he
          simp only [Option.some.injEq, Prod.mk.injEq] at ht
          obtain ⟨-, rfl⟩ := ht
          simpa [hne] using isSome_readExponent? he

theorem isSome_read? {s p : List Char} (h : Pattern.number? s = some (p, [])) :
    (read? s).isSome := by
  have hu := isSome_readUnsigned? h
  have hsign : splitSign s = (false, s) := by
    unfold splitSign
    split
    · simp [Pattern.number?, Pattern.digits?] at h
    · simp [Pattern.number?, Pattern.digits?] at h
    · rfl
  rw [read?, hsign, Option.isSome_map, readMagnitude?]
  split
  · rfl
  · split
    · rfl
    · rwa [Option.isSome_map]

end Decimal

theorem exists_unquote? {segment : List Char} (h : Pattern.matchesAll Pattern.quoted? segment) :
    ∃ s, Literal.unquote? segment = some s := by
  unfold Pattern.matchesAll at h
  split at h
  · rename_i p hp
    unfold Pattern.quoted? at hp
    split at hp
    · rename_i s
      cases hd : s.dropWhile (· != '\'') with
      | nil => simp [hd] at hp
      | cons q r =>
        simp only [hd, Option.some.injEq, Prod.mk.injEq] at hp
        obtain ⟨-, rfl⟩ := hp
        have hq : q = '\'' := by
          have := List.head?_dropWhile_not (· != '\'') s
          simpa [hd] using this
        have hs := List.takeWhile_append_dropWhile (p := (· != '\'')) (l := s)
        rw [hd, hq] at hs
        have hlast : s.getLast? = some '\'' := by
          rw [← hs]
          simp
        exact ⟨s.dropLast, by simp [Literal.unquote?, hlast]⟩
    · simp at hp
  · simp at h

theorem exists_read?_of_isConstantText {segment : List Char} (h : isConstantText segment) :
    ∃ v, Literal.read? (String.ofList segment) = some v := by
  unfold Literal.read?
  split
  · exact ⟨_, rfl⟩
  · split
    · exact ⟨_, rfl⟩
    · rename_i htrue hfalse
      split
      · exact ⟨_, rfl⟩
      · rename_i hunquote
        rw [String.toList_ofList] at hunquote ⊢
        have hcases : Pattern.matchesAll Pattern.quoted? segment ∨
            Pattern.matchesAll Pattern.number? segment := by
          simp only [isConstantText, Bool.or_eq_true, decide_eq_true_eq, or_assoc] at h
          rcases h with h | h | h
          · exact absurd (congrArg String.ofList h) (by simpa using htrue)
          · exact absurd (congrArg String.ofList h) (by simpa using hfalse)
          · exact h
        rcases hcases with hq | hn
        · obtain ⟨s, hs⟩ := exists_unquote? hq
          simp [hs] at hunquote
        · unfold Pattern.matchesAll at hn
          split at hn
          · rename_i p hp
            obtain ⟨x, hx⟩ := Option.isSome_iff_exists.1 (Decimal.isSome_read? hp)
            exact ⟨.number x, by rw [hx]; rfl⟩
          · simp at hn
end RowLang
