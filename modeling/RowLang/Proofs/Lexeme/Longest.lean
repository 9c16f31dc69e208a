import Mathlib
import RowLang.Lexeme.Segment

/-! The lexical patterns as languages. A pattern takes the longest prefix that is in its language. That
is shown for classes of characters and carried over to patterns that are put together, as long as the
words of one part cannot run on into those of the next: then the first way to split a prefix is the only
one, and no other choice has to be tried. -/

namespace RowLang.Pattern

open scoped Computability

/-- The pattern takes the longest prefix that is in the language and leaves the rest as it is; it fails
on texts that have no such prefix. -/
structure TakesLongest (pattern : List Char → Option (List Char × List Char)) (l : Language Char) :
    Prop where
  some_iff : ∀ s p r, pattern s = some (p, r) ↔
    s = p ++ r ∧ p ∈ l ∧ ∀ q ∈ l, q <+: s → q.length ≤ p.length
  none_iff : ∀ s, pattern s = none ↔ ∀ q ∈ l, ¬ q <+: s

def oneWith (p : Char → Prop) : Language Char := {s | ∃ c, p c ∧ s = [c]}

def digit : Language Char := oneWith fun c => '0' ≤ c ∧ c ≤ '9'

def letter : Language Char := oneWith fun c => 'a' ≤ c ∧ c ≤ 'z' ∨ 'A' ≤ c ∧ c ≤ 'Z'

def wordChar : Language Char := letter + digit + oneWith (· = '_')

def digits : Language Char := digit * digit∗

def fraction : Language Char := oneWith (· = '.') * digits

/-- `((\.\d+)?e[+-]\d+)|(\.\d+)` -/
def tail : Language Char :=
  (1 + fraction) * oneWith (· = 'e') * oneWith (fun c => c = '+' ∨ c = '-') * digits + fraction

def real : Language Char := digits * tail

/-- `\d+(((\.\d+)?e[+-]\d+)|(\.\d+))?` -/
def number : Language Char := digits * (1 + tail)

/-- `[a-zA-Z]+\w*` -/
def identifier : Language Char := letter * letter∗ * wordChar∗

/-- `'[^']*'` -/
def quoted : Language Char := oneWith (· = '\'') * (oneWith (· ≠ '\''))∗ * oneWith (· = '\'')

def andThen (f g : List Char → Option (List Char × List Char)) (s : List Char) :
    Option (List Char × List Char) :=
  (f s).bind fun x => (g x.2).map fun y => (x.1 ++ y.1, y.2)

def optional (f : List Char → Option (List Char × List Char)) (s : List Char) :
    Option (List Char × List Char) :=
  (f s).or (some ([], s))

def many (p : Char → Bool) (s : List Char) : Option (List Char × List Char) :=
  some (s.takeWhile p, s.dropWhile p)

section
variable {l m : Language Char} {f g : List Char → Option (List Char × List Char)} {s : List Char}
  {p : Char → Bool}

theorem takesLongest_of_cases
    (hsome : ∀ s p r, f s = some (p, r) → s = p ++ r ∧ p ∈ l ∧ ∀ q ∈ l, q <+: s → q <+: p)
    (hnone : ∀ s, f s = none → ∀ q ∈ l, ¬ q <+: s) : TakesLongest f l := by
  refine ⟨fun s p r => ⟨fun h => ?_, ?_⟩, fun s => ⟨hnone s, fun h => ?_⟩⟩
  · obtain ⟨hs, hp, hlongest⟩ := hsome s p r h
    exact ⟨hs, hp, fun q hq hqs => (hlongest q hq hqs).length_le⟩
  · rintro ⟨hs, hp, hlongest⟩
    have hfront : p <+: s := ⟨r, hs.symm⟩
    cases hf : f s with
    | none => exact absurd hfront (hnone s hf p hp)
    | some x =>
      obtain ⟨p', r'⟩ := x
      obtain ⟨hs', hp', hlongest'⟩ := hsome s p' r' hf
      have hpp' := hlongest' p hp hfront
      obtain rfl : p = p' := hpp'.eq_of_length_le (hlongest p' hp' ⟨r', hs'.symm⟩)
      rw [List.append_cancel_left (hs.symm.trans hs')]
  · refine Option.eq_none_iff_forall_ne_some.2 fun x hx => ?_
    obtain ⟨hs, hp, -⟩ := hsome s x.1 x.2 hx
    exact h x.1 hp ⟨x.2, hs.symm⟩

theorem TakesLongest.split (h : TakesLongest f l) {x : List Char × List Char} (hx : f s = some x) :
    s = x.1 ++ x.2 ∧ x.1 ∈ l := by
  obtain ⟨hs, hmem, -⟩ := (h.some_iff s x.1 x.2).1 hx
  exact ⟨hs, hmem⟩

theorem TakesLongest.within (h : TakesLongest f l) {x : List Char × List Char} (hx : f s = some x)
    {q : List Char} (hq : q ∈ l) (hqs : q <+: s) : q <+: x.1 := by
  obtain ⟨hs, -, hlongest⟩ := (h.some_iff s x.1 x.2).1 hx
  exact List.prefix_of_prefix_length_le hqs ⟨x.2, hs.symm⟩ (hlongest q hq hqs)

theorem TakesLongest.matchesAll_iff (h : TakesLongest f l) : matchesAll f s = true ↔ s ∈ l := by
  unfold matchesAll
  constructor
  · intro hall
    split at hall
    · rename_i p hp
      obtain ⟨hs, hmem⟩ := h.split hp
      rw [List.append_nil] at hs
      rwa [hs]
    · cases hall
  · intro hs
    have htaken : f s = some (s, []) :=
      (h.some_iff s s []).2 ⟨(List.append_nil s).symm, hs, fun q _ hq => hq.length_le⟩
    rw [htaken]

theorem takesLongest_one? (p : Char → Bool) :
    TakesLongest (Segment.one? p) (oneWith fun c => p c = true) := by
  refine takesLongest_of_cases (fun s t r h => ?_) fun s h => ?_
  · cases s with
    | nil => cases h
    | cons c s =>
      rw [Segment.one?] at h
      split at h
      · rename_i hc
        cases h
        refine ⟨rfl, ⟨c, hc, rfl⟩, ?_⟩
        rintro q ⟨d, -, rfl⟩ hq
        rw [(List.cons_prefix_cons.1 hq).1]
      · cases h
  · rintro q ⟨d, hd, rfl⟩ hq
    cases s with
    | nil => cases List.prefix_nil.1 hq
    | cons c s =>
      obtain rfl := (List.cons_prefix_cons.1 hq).1
      rw [Segment.one?, if_pos hd] at h
      cases h

theorem mem_kstar_oneWith {p : Char → Prop} : s ∈ (oneWith p)∗ ↔ ∀ c ∈ s, p c := by
  rw [Language.mem_kstar]
  constructor
  · rintro ⟨words, rfl, hwords⟩ c hc
    obtain ⟨word, hword, hc⟩ := List.mem_flatten.1 hc
    obtain ⟨d, hd, rfl⟩ := hwords word hword
    rwa [List.mem_singleton.1 hc]
  · intro hs
    refine ⟨s.map fun c => [c], by rw [← List.flatMap_def, List.flatMap_singleton'], fun word hword => ?_⟩
    obtain ⟨c, hc, rfl⟩ := List.mem_map.1 hword
    exact ⟨c, hs c hc, rfl⟩

theorem mem_oneWith_mul {p : Char → Prop} :
    s ∈ oneWith p * l ↔ ∃ c t, s = c :: t ∧ p c ∧ t ∈ l := by
  rw [Language.mem_mul]
  constructor
  · rintro ⟨a, ⟨c, hc, rfl⟩, t, ht, rfl⟩
    exact ⟨c, t, rfl, hc, ht⟩
  · rintro ⟨c, t, rfl, hc, ht⟩
    exact ⟨[c], ⟨c, hc, rfl⟩, t, ht, rfl⟩

theorem prefix_takeWhile {q : List Char} (hq : ∀ c ∈ q, p c = true) (hqs : q <+: s) :
    q <+: s.takeWhile p := by
  obtain ⟨r, rfl⟩ := hqs
  rw [List.takeWhile_append_of_pos hq]
  exact List.prefix_append q _

theorem takesLongest_many (p : Char → Bool) :
    TakesLongest (many p) (oneWith fun c => p c = true)∗ := by
  refine takesLongest_of_cases (fun s t r h => ?_) fun s h => by cases h
  cases h
  refine ⟨List.takeWhile_append_dropWhile.symm, mem_kstar_oneWith.2 fun c hc => ?_, fun q hq => ?_⟩
  · exact List.mem_takeWhile_imp hc
  · exact prefix_takeWhile (mem_kstar_oneWith.1 hq)

/-- If no word of the first language goes on as words of the second begin, then the end of the first
word is fixed, and the two patterns take the longest prefix together. -/
theorem TakesLongest.andThen (hf : TakesLongest f l) (hg : TakesLongest g m)
    (hstop : ∀ a c b x, a ∈ l → c :: b ∈ m → a ++ c :: x ∉ l) :
    TakesLongest (andThen f g) (l * m) := by
  -- the first part of a word that goes on behind it is what the first pattern takes
  have hfixed : ∀ {s x a c b}, f s = some x → a ∈ l → c :: b ∈ m → a ++ c :: b <+: s →
      a = x.1 ∧ c :: b <+: x.2 := by
    intro s x a c b hx ha hcb hfront
    obtain ⟨rest, hrest⟩ := hf.within hx ha ((List.prefix_append _ _).trans hfront)
    obtain ⟨hs, hmem⟩ := hf.split hx
    rw [hs, ← hrest, List.append_assoc, List.prefix_append_right_inj] at hfront
    cases rest with
    | nil => exact ⟨by rw [← hrest, List.append_nil], hfront⟩
    | cons d rest =>
      obtain rfl := (List.cons_prefix_cons.1 hfront).1
      exact absurd (hrest ▸ hmem) (hstop a c b rest ha hcb)
  refine takesLongest_of_cases (fun s p r h => ?_) fun s h => ?_
  · obtain ⟨x, hx, h⟩ := Option.bind_eq_some_iff.1 h
    obtain ⟨y, hy, h⟩ := Option.map_eq_some_iff.1 h
    cases h
    obtain ⟨hs, hxl⟩ := hf.split hx
    obtain ⟨hr, hym⟩ := hg.split hy
    refine ⟨by rw [List.append_assoc, ← hr, hs], Language.append_mem_mul hxl hym, fun q hq hqs => ?_⟩
    obtain ⟨a, ha, b, hb, rfl⟩ := Language.mem_mul.1 hq
    cases b with
    | nil =>
      rw [List.append_nil] at hqs ⊢
      exact (hf.within hx ha hqs).trans (List.prefix_append _ _)
    | cons c b =>
      obtain ⟨rfl, hb'⟩ := hfixed hx ha hb hqs
      exact (List.prefix_append_right_inj _).2 (hg.within hy hb hb')
  · intro q hq hqs
    obtain ⟨a, ha, b, hb, rfl⟩ := Language.mem_mul.1 hq
    cases hx : f s with
    | none => exact (hf.none_iff s).1 hx a ha ((List.prefix_append _ _).trans hqs)
    | some x =>
      have hnone : g x.2 = none := by simpa [Pattern.andThen, hx] using h
      have hno := (hg.none_iff x.2).1 hnone b hb
      cases b with
      | nil => exact hno List.nil_prefix
      | cons c b => exact hno (hfixed hx ha hb hqs).2

theorem TakesLongest.optional (hf : TakesLongest f l) : TakesLongest (optional f) (1 + l) := by
  refine takesLongest_of_cases (fun s p r h => ?_) fun s h => ?_
  · cases hx : f s with
    | none =>
      have hnone := (hf.none_iff s).1 hx
      rw [Pattern.optional, hx] at h
      cases h
      refine ⟨rfl, Or.inl rfl, fun q hq hqs => ?_⟩
      rcases hq with rfl | hq
      · exact List.prefix_rfl
      · exact absurd hqs (hnone q hq)
    | some x =>
      obtain ⟨hs, hmem⟩ := hf.split hx
      rw [Pattern.optional, hx] at h
      cases h
      refine ⟨hs, Or.inr hmem, fun q hq hqs => ?_⟩
      rcases hq with rfl | hq
      · exact List.nil_prefix
      · exact hf.within hx hq hqs
  · rw [Pattern.optional] at h
    cases hx : f s <;> simp [hx] at h

/-- Where a prefix of the one sort excludes one of the other, the order of two patterns is of no account. -/
theorem TakesLongest.or (hf : TakesLongest f l) (hg : TakesLongest g m)
    (hapart : ∀ a b s, a ∈ l → b ∈ m → a <+: s → ¬ b <+: s) :
    TakesLongest (fun s => (f s).or (g s)) (l + m) := by
  refine takesLongest_of_cases (fun s p r h => ?_) fun s h => ?_
  · rcases Option.or_eq_some_iff.1 h with h | ⟨hnone, h⟩
    · obtain ⟨hs, hmem⟩ := hf.split h
      refine ⟨hs, Or.inl hmem, fun q hq hqs => ?_⟩
      rcases hq with hq | hq
      · exact hf.within h hq hqs
      · exact absurd hqs (hapart p q s hmem hq ⟨r, hs.symm⟩)
    · obtain ⟨hs, hmem⟩ := hg.split h
      refine ⟨hs, Or.inr hmem, fun q hq hqs => ?_⟩
      rcases hq with hq | hq
      · exact absurd hqs ((hf.none_iff s).1 hnone q hq)
      · exact hg.within h hq hqs
  · obtain ⟨hf', hg'⟩ := Option.or_eq_none_iff.1 h
    rintro q (hq | hq) hqs
    · exact (hf.none_iff s).1 hf' q hq hqs
    · exact (hg.none_iff s).1 hg' q hq hqs

theorem TakesLongest.one?_andThen (hg : TakesLongest g m) (p : Char → Bool) :
    TakesLongest (Pattern.andThen (Segment.one? p) g) (oneWith (fun c => p c = true) * m) := by
  refine (takesLongest_one? p).andThen hg fun a c b x ha _ hlonger => ?_
  obtain ⟨d, -, rfl⟩ := ha
  obtain ⟨e, -, he⟩ := hlonger
  cases he

end

theorem oneWith_congr {p q : Char → Prop} (h : ∀ c, p c ↔ q c) : oneWith p = oneWith q := by
  rw [funext fun c => propext (h c)]

theorem isDigit_iff (c : Char) : c.isDigit = true ↔ '0' ≤ c ∧ c ≤ '9' := by
  simp [Char.isDigit, Char.le_def]

theorem isAlpha_iff (c : Char) :
    c.isAlpha = true ↔ 'a' ≤ c ∧ c ≤ 'z' ∨ 'A' ≤ c ∧ c ≤ 'Z' := by
  simp [Char.isAlpha, Char.isUpper, Char.isLower, Char.le_def, or_comm]

theorem digit_eq : digit = oneWith fun c => c.isDigit = true := (oneWith_congr isDigit_iff).symm

theorem letter_eq : letter = oneWith fun c => c.isAlpha = true := (oneWith_congr isAlpha_iff).symm

theorem wordChar_eq : wordChar = oneWith fun c => isWordChar c = true := by
  refine Language.ext fun s => ?_
  rw [wordChar, letter_eq, digit_eq, Language.mem_add, Language.mem_add]
  constructor
  · rintro ((⟨c, hc, rfl⟩ | ⟨c, hc, rfl⟩) | ⟨c, hc, rfl⟩) <;>
      exact ⟨c, by simp [isWordChar, Char.isAlphanum, hc], rfl⟩
  · rintro ⟨c, hc, rfl⟩
    simp only [isWordChar, Char.isAlphanum, Bool.or_eq_true, beq_iff_eq] at hc
    rcases hc with (hc | hc) | hc
    · exact Or.inl (Or.inl ⟨c, hc, rfl⟩)
    · exact Or.inl (Or.inr ⟨c, hc, rfl⟩)
    · exact Or.inr ⟨c, hc, rfl⟩

theorem mem_digits {s : List Char} : s ∈ digits ↔ s ≠ [] ∧ ∀ c ∈ s, c.isDigit = true := by
  rw [digits, digit_eq, mem_oneWith_mul]
  constructor
  · rintro ⟨c, t, rfl, hc, ht⟩
    exact ⟨List.cons_ne_nil c t, List.forall_mem_cons.2 ⟨hc, mem_kstar_oneWith.1 ht⟩⟩
  · rintro ⟨hne, hall⟩
    obtain ⟨c, t, rfl⟩ := List.exists_cons_of_ne_nil hne
    obtain ⟨hc, ht⟩ := List.forall_mem_cons.1 hall
    exact ⟨c, t, rfl, hc, mem_kstar_oneWith.2 ht⟩

theorem digits?_eq : digits? = andThen (Segment.one? Char.isDigit) (many Char.isDigit) := by
  funext s
  cases s with
  | nil => rfl
  | cons c s =>
    by_cases hc : c.isDigit <;> simp [digits?, andThen, Segment.one?, many, hc]

theorem takesLongest_digits : TakesLongest digits? digits := by
  rw [digits?_eq, digits, digit_eq]
  exact (takesLongest_many _).one?_andThen _

theorem fraction?_eq : fraction? = andThen (Segment.one? (· == '.')) digits? := by
  funext s
  unfold fraction?
  split
  · rfl
  · rename_i hno
    cases s with
    | nil => rfl
    | cons c s =>
      have hc : c ≠ '.' := by
        rintro rfl
        exact hno s rfl
      simp [andThen, Segment.one?, hc]

theorem takesLongest_fraction : TakesLongest fraction? fraction := by
  rw [fraction?_eq, fraction, oneWith_congr fun c => (beq_iff_eq (a := c) (b := '.')).symm]
  exact takesLongest_digits.one?_andThen _

def exponent : Language Char :=
  oneWith (· = 'e') * (oneWith (fun c => c = '+' ∨ c = '-') * digits)

theorem exponent?_eq : exponent? =
    andThen (Segment.one? (· == 'e')) (andThen (Segment.one? fun c => c == '+' || c == '-') digits?) := by
  funext s
  unfold exponent?
  split
  · rename_i sign s
    by_cases hsign : sign = '+' ∨ sign = '-'
    · have hone : (sign == '+' || sign == '-') = true := by simpa using hsign
      simp only [if_pos hsign, andThen, Segment.one?, hone, if_true, Option.bind_some, beq_self_eq_true,
        Option.map_map]
      rfl
    · simp [andThen, Segment.one?, hsign]
  · rename_i hno
    cases s with
    | nil => rfl
    | cons c s =>
      by_cases hc : c = 'e'
      · subst hc
        cases s with
        | nil => rfl
        | cons sign s => exact absurd rfl (hno sign s)
      · simp [andThen, Segment.one?, hc]

theorem takesLongest_exponent : TakesLongest exponent? exponent := by
  have hsign : oneWith (fun c => c = '+' ∨ c = '-') =
      oneWith fun c => (c == '+' || c == '-') = true := oneWith_congr fun c => by simp
  rw [exponent?_eq, exponent, hsign, oneWith_congr fun c => (beq_iff_eq (a := c) (b := 'e')).symm]
  exact (takesLongest_digits.one?_andThen _).one?_andThen _

theorem tail_eq : tail = fraction * (1 + exponent) + exponent := by
  simp only [tail, exponent, add_mul, mul_add, one_mul, mul_one, mul_assoc]
  abel

theorem tail?_eq : tail? = fun s => (andThen fraction? (optional exponent?) s).or (exponent? s) := by
  funext s
  rw [tail?, andThen]
  cases fraction? s with
  | none => rfl
  | some x =>
    simp only [Option.bind_some, optional]
    cases exponent? x.2 with
    | none => simp
    | some y => rfl

theorem takesLongest_tail : TakesLongest tail? tail := by
  rw [tail?_eq, tail_eq]
  refine (takesLongest_fraction.andThen takesLongest_exponent.optional ?_).or takesLongest_exponent ?_
  · -- the digits of a fraction end before an exponent
    rintro a c b x - hcb hlonger
    obtain ⟨e, u, he, rfl, -⟩ : ∃ e u, c :: b = e :: u ∧ e = 'e' ∧ _ :=
      mem_oneWith_mul.1 (hcb.resolve_left (List.cons_ne_nil c b))
    obtain ⟨rfl, -⟩ := List.cons.inj he
    obtain ⟨d, t, hd, rfl, ht⟩ := mem_oneWith_mul.1 hlonger
    cases a with
    | nil => exact absurd (List.cons.inj hd).1 (by decide)
    | cons d' a =>
      have hdigit := (mem_digits.1 ht).2 'e' (by rw [← (List.cons.inj hd).2]; simp)
      exact absurd hdigit (by decide)
  · -- a fraction begins with a point, an exponent with a letter
    rintro a b s ha hb ha' hb'
    obtain ⟨f, hf, y, -, rfl⟩ := Language.mem_mul.1 ha
    obtain ⟨c, t, rfl, rfl, -⟩ := mem_oneWith_mul.1 hf
    obtain ⟨e, u, rfl, rfl, -⟩ := mem_oneWith_mul.1 hb
    cases s with
    | nil => cases List.prefix_nil.1 hb'
    | cons d s =>
      have hpoint := (List.cons_prefix_cons.1 ha').1
      have hletter := (List.cons_prefix_cons.1 hb').1
      exact absurd (hpoint.trans hletter.symm) (by decide)

theorem head_of_mem_tail {c : Char} {t : List Char} (h : c :: t ∈ tail) : c.isDigit = false := by
  rw [tail_eq] at h
  rcases h with h | h
  · obtain ⟨f, hf, y, -, heq⟩ := Language.mem_mul.1 h
    obtain ⟨d, u, rfl, rfl, -⟩ := mem_oneWith_mul.1 hf
    rw [← (List.cons.inj heq).1]
    decide
  · obtain ⟨d, u, heq, rfl, -⟩ := mem_oneWith_mul.1 h
    rw [(List.cons.inj heq).1]
    decide

theorem digits_stop {a x : List Char} {c : Char} (hc : c.isDigit = false) : a ++ c :: x ∉ digits := by
  intro h
  have hdigit := (mem_digits.1 h).2 c (by simp)
  rw [hc] at hdigit
  cases hdigit

theorem takesLongest_real : TakesLongest real? real := by
  have hreal : real? = andThen digits? tail? := by
    funext s
    rw [real?, andThen]
    cases digits? s <;> rfl
  rw [hreal, real]
  exact takesLongest_digits.andThen takesLongest_tail fun a c b x _ hcb =>
    digits_stop (head_of_mem_tail hcb)

theorem takesLongest_number : TakesLongest number? number := by
  have hnumber : number? = andThen digits? (optional tail?) := by
    funext s
    rw [number?, andThen]
    cases digits? s with
    | none => rfl
    | some x =>
      simp only [Option.bind_some, optional]
      cases tail? x.2 with
      | none => simp
      | some y => rfl
  rw [hnumber, number]
  exact takesLongest_digits.andThen takesLongest_tail.optional fun a c b x _ hcb =>
    digits_stop (head_of_mem_tail (hcb.resolve_left (List.cons_ne_nil c b)))

theorem identifier_eq : identifier = letter * wordChar∗ := by
  have habsorb : letter∗ * wordChar∗ = wordChar∗ := by
    refine Language.ext fun s => ?_
    rw [letter_eq, wordChar_eq, Language.mem_mul]
    constructor
    · rintro ⟨a, ha, b, hb, rfl⟩
      refine mem_kstar_oneWith.2 (List.forall_mem_append.2 ⟨fun c hc => ?_, mem_kstar_oneWith.1 hb⟩)
      simp [isWordChar, Char.isAlphanum, mem_kstar_oneWith.1 ha c hc]
    · exact fun hs => ⟨[], Language.nil_mem_kstar _, s, hs, rfl⟩
  rw [identifier, mul_assoc, habsorb]

theorem takesLongest_identifier : TakesLongest identifier? identifier := by
  have hpattern : identifier? = andThen (Segment.one? Char.isAlpha) (many isWordChar) := by
    funext s
    cases s with
    | nil => rfl
    | cons c s =>
      by_cases hc : c.isAlpha <;> simp [identifier?, andThen, Segment.one?, many, hc]
  rw [hpattern, identifier_eq, letter_eq, wordChar_eq]
  exact (takesLongest_many _).one?_andThen _

theorem takesLongest_quoted : TakesLongest quoted? quoted := by
  have hpattern : quoted? = andThen (Segment.one? (· == '\''))
      (andThen (many (· != '\'')) (Segment.one? (· == '\''))) := by
    funext s
    unfold quoted?
    split
    · rename_i s
      cases hd : s.dropWhile (· != '\'') with
      | nil => simp [andThen, Segment.one?, many, hd]
      | cons q r =>
        have hq : (q == '\'') = true := by
          have hhead := List.head?_dropWhile_not (· != '\'') s
          simpa [hd] using hhead
        simp [andThen, Segment.one?, many, hd, beq_iff_eq.1 hq]
    · rename_i hno
      cases s with
      | nil => rfl
      | cons c s =>
        have hc : c ≠ '\'' := by
          rintro rfl
          exact hno s rfl
        simp [andThen, Segment.one?, hc]
  have hquote : oneWith (· = '\'') = oneWith fun c => (c == '\'') = true :=
    oneWith_congr fun c => beq_iff_eq.symm
  have hother : oneWith (· ≠ '\'') = oneWith fun c => (c != '\'') = true :=
    oneWith_congr fun c => bne_iff_ne.symm
  rw [hpattern, quoted, mul_assoc, hquote, hother]
  refine ((takesLongest_many _).andThen (takesLongest_one? _) ?_).one?_andThen _
  -- no text without quotes runs on over a quote
  rintro a c b x - ⟨d, hd, hcb⟩ hlonger
  obtain ⟨rfl, -⟩ := List.cons.inj hcb
  have hc := mem_kstar_oneWith.1 hlonger c (by simp)
  rw [bne, hd] at hc
  cases hc

end RowLang.Pattern
