/-! The lexical patterns. Each takes a matching prefix off a text and gives the prefix and the
rest. -/

namespace RowLang.Pattern

def digits? (s : List Char) : Option (List Char × List Char) :=
  match s.takeWhile Char.isDigit with
  | [] => none
  | d :: ds => some (d :: ds, s.dropWhile Char.isDigit)

def fraction? : List Char → Option (List Char × List Char)
  | '.' :: s => (digits? s).map fun (d, r) => ('.' :: d, r)
  | _ => none

def exponent? : List Char → Option (List Char × List Char)
  | 'e' :: sign :: s =>
    if sign = '+' ∨ sign = '-' then (digits? s).map fun (d, r) => ('e' :: sign :: d, r) else none
  | _ => none

def tail? (s : List Char) : Option (List Char × List Char) :=
  match fraction? s with
  | none => exponent? s
  | some (f, r) =>
    match exponent? r with
    | none => some (f, r)
    | some (e, r') => some (f ++ e, r')

def real? (s : List Char) : Option (List Char × List Char) :=
  match digits? s with
  | none => none
  | some (d, r) => (tail? r).map fun (t, r') => (d ++ t, r')

/-- A number without a sign, `\d+(((\.\d+)?e[+-]\d+)|(\.\d+))?`. -/
def number? (s : List Char) : Option (List Char × List Char) :=
  match digits? s with
  | none => none
  | some (d, r) =>
    match tail? r with
    | none => some (d, r)
    | some (t, r') => some (d ++ t, r')

def isWordChar (c : Char) : Bool :=
  c.isAlphanum || c == '_'

/-- A letter followed by letters, digits and underscores, `[a-zA-Z]+\w*` over ASCII. -/
def identifier? : List Char → Option (List Char × List Char)
  | [] => none
  | c :: s => if c.isAlpha then some (c :: s.takeWhile isWordChar, s.dropWhile isWordChar) else none

def quoted? : List Char → Option (List Char × List Char)
  | '\'' :: s =>
    match s.dropWhile (· != '\'') with
    | [] => none
    | q :: r => some ('\'' :: (s.takeWhile (· != '\'') ++ [q]), r)
  | _ => none

def matchesAll (pattern : List Char → Option (List Char × List Char)) (s : List Char) : Bool :=
  match pattern s with
  | some (_, []) => true
  | _ => false

def Splits (s : List Char) (p : List Char × List Char) : Prop :=
  s = p.1 ++ p.2 ∧ p.1 ≠ []

theorem splits_digits? {s : List Char} {p} (h : digits? s = some p) : Splits s p := by
  unfold digits? at h
  split at h
  · simp at h
  · rename_i d ds hd
    cases h
    refine ⟨?_, by simp⟩
    rw [← hd, List.takeWhile_append_dropWhile]

theorem splits_fraction? {s : List Char} {p} (h : fraction? s = some p) : Splits s p := by
  unfold fraction? at h
  split at h
  · obtain ⟨q, hq, rfl⟩ := Option.map_eq_some_iff.1 h
    exact ⟨by simp [(splits_digits? hq).1], by simp⟩
  · simp at h

theorem splits_exponent? {s : List Char} {p} (h : exponent? s = some p) : Splits s p := by
  unfold exponent? at h
  split at h
  · split at h
    · obtain ⟨q, hq, rfl⟩ := Option.map_eq_some_iff.1 h
      exact ⟨by simp [(splits_digits? hq).1], by simp⟩
    · simp at h
  · simp at h

theorem splits_tail? {s : List Char} {p} (h : tail? s = some p) : Splits s p := by
  unfold tail? at h
  split at h
  · exact splits_exponent? h
  · rename_i f r hf
    have hs := splits_fraction? hf
    split at h
    · cases h; exact hs
    · rename_i e r' he
      cases h
      exact ⟨by simp [hs.1, (splits_exponent? he).1], by simp [hs.2]⟩

theorem splits_real? {s : List Char} {p} (h : real? s = some p) : Splits s p := by
  unfold real? at h
  split at h
  · simp at h
  · rename_i d r hd
    obtain ⟨q, hq, rfl⟩ := Option.map_eq_some_iff.1 h
    exact ⟨by simp [(splits_digits? hd).1, (splits_tail? hq).1], by simp [(splits_digits? hd).2]⟩

theorem splits_quoted? {s : List Char} {p} (h : quoted? s = some p) : Splits s p := by
  unfold quoted? at h
  split at h
  · rename_i s
    split at h
    · simp at h
    · rename_i q r hq
      cases h
      refine ⟨?_, by simp⟩
      have hs := List.takeWhile_append_dropWhile (p := (· != '\'')) (l := s)
      rw [hq] at hs
      simp [hs]
  · simp at h

end RowLang.Pattern
