import Mathlib
import RowLang.Proofs.Expr.Grammar
import RowLang.Proofs.Lexeme.Rows

/-! What lexing leaves in the tables. Each table lists the texts of its lexemes in the order in which they
occur for the first time, and what a constant is taken for by its spelling, by the recognizers and by
the value in the table is the same. -/

namespace RowLang

def appendNew (xs : List String) (x : String) : List String := if x ∈ xs then xs else xs ++ [x]

def Constants.texts (t : Constants) : List String := t.entries.map Constant.text

def ValueType.terminal : ValueType → Terminal
  | number => .number
  | string => .string
  | boolean => .boolean
  | undef | mark => .other

section
variable {xs : List String} {x : String}

theorem appendNew_eraseDups : appendNew xs.eraseDups x = (xs ++ [x]).eraseDups := by
  rw [List.eraseDups_append, appendNew]
  by_cases h : x ∈ xs <;> simp [h, List.removeAll, List.eraseDups_cons]

theorem foldl_appendNew (xs ys : List String) :
    ys.foldl appendNew xs.eraseDups = (xs ++ ys).eraseDups := by
  induction ys generalizing xs with
  | nil => simp
  | cons y ys ih => rw [List.foldl_cons, appendNew_eraseDups, ih, List.append_assoc, List.singleton_append]

end

theorem appendNew_map {α : Type} (f : α → String) (entries : List α) (x : String) :
    appendNew (entries.map f) x =
      if entries.findIdx? (fun e => f e == x) = none then entries.map f ++ [x] else entries.map f := by
  have hnew : entries.findIdx? (fun e => f e == x) = none ↔ x ∉ entries.map f := by
    simp [List.findIdx?_eq_none_iff]
  by_cases hx : x ∈ entries.map f <;>
    simp only [appendNew, hnew, hx, not_true, not_false_iff, if_true, if_false]

theorem Identifiers.names_intern (t : Identifiers) (name : String) :
    (t.intern name).1.names = appendNew t.names name := by
  rw [names, names, appendNew_map, intern, indexOf?]
  cases t.entries.findIdx? (fun i => i.name == name) <;> simp

theorem Constants.texts_insert (t : Constants) (text : String) (value : Literal) :
    (t.insert text value).1.texts = appendNew t.texts text := by
  rw [texts, texts, appendNew_map, insert, indexOf?]
  cases t.entries.findIdx? (fun c => c.text == text) <;> simp

section
variable {t : Tables} {l : Lexeme} {ls : List Lexeme}

theorem foldl_link (texts : Tables → List String) (p : Lexeme → Bool)
    (hstep : ∀ t, ∀ l ∈ ls, texts (t.internLexeme l).1 =
      if p l then appendNew (texts t) l.text else texts t) (t : Tables) :
    texts (t.link ls).1 = ((ls.filter p).map Lexeme.text).foldl appendNew (texts t) := by
  induction ls generalizing t with
  | nil => rfl
  | cons l ls ih =>
    have hrest := ih (fun t x hx => hstep t x (List.mem_cons_of_mem l hx)) (t.internLexeme l).1
    rw [hstep t l List.mem_cons_self] at hrest
    by_cases hl : p l <;> simpa [Tables.link, hl] using hrest

theorem internLexeme_of_other (t : Tables) (hk : l.kind.isOperand = false) :
    t.internLexeme l = (t, none) := by
  unfold Tables.internLexeme
  cases hkind : l.kind <;> simp_all [Kind.isOperand]

theorem names_internLexeme (t : Tables) (l : Lexeme) : (t.internLexeme l).1.identifiers.names =
    if l.isIdentifier then appendNew t.identifiers.names l.text else t.identifiers.names := by
  cases hk : l.kind with
  | identifier => simp [Tables.internLexeme, Lexeme.isIdentifier, hk, Identifiers.names_intern]
  | _ => simp [Tables.internLexeme, Lexeme.isIdentifier, hk]

theorem texts_internLexeme (t : Tables) (hl : l.Classified) : (t.internLexeme l).1.constants.texts =
    if l.isConstant then appendNew t.constants.texts l.text else t.constants.texts := by
  cases hk : l.kind with
  | constant =>
    have hclass := hl.1
    rw [hk] at hclass
    obtain ⟨v, hv⟩ := exists_read?_of_isConstantText (isConstantText_of_classify hclass)
    rw [String.ofList_toList] at hv
    simp [Tables.internLexeme, Lexeme.isConstant, hk, Constants.internText_of_read? hv,
      Constants.texts_insert]
  | _ => simp [Tables.internLexeme, Lexeme.isConstant, hk]

theorem link_eq_none (hls : ∀ l ∈ ls, l.link = none) (hl : l ∈ (t.link ls).2)
    (hk : l.kind.isOperand = false) : l.link = none := by
  induction ls generalizing t with
  | nil => cases hl
  | cons x ls ih =>
    have hl : l ∈ { x with link := (t.internLexeme x).2.or x.link } ::
        ((t.internLexeme x).1.link ls).2 := hl
    rcases List.mem_cons.1 hl with rfl | hl
    · have hnone : (t.internLexeme x).2.or x.link = none := by
        rw [internLexeme_of_other (l := x) t hk, hls x List.mem_cons_self]
        rfl
      exact hnone
    · exact ih (fun y hy => hls y (List.mem_cons_of_mem x hy)) hl

end

section
variable {s : List Char} {text : String} {v : Literal}

theorem head?_of_quoted (h : Pattern.matchesAll Pattern.quoted? s) : s.head? = some '\'' := by
  obtain ⟨p, hp⟩ := Segment.exists_of_matchesAll h
  unfold Pattern.quoted? at hp
  split at hp
  · rfl
  · cases hp

theorem head?_of_number (h : Pattern.matchesAll Pattern.number? s) : s.head?.any Char.isDigit := by
  obtain ⟨p, hp⟩ := Segment.exists_of_matchesAll h
  unfold Pattern.number? at hp
  split at hp
  · cases hp
  · rename_i d r hd
    have hne := (Decimal.digits?_eq_some hd).1
    cases s with
    | nil => simp at hne
    | cons c s =>
      by_contra hc
      simp_all

theorem terminal_of_read? {l : Lexeme} (hk : l.kind = .constant) (hc : isConstantText l.text.toList)
    (hv : Literal.read? l.text = some v) : l.terminal = v.type.terminal := by
  have hconstant : l.isConstant := by simp [Lexeme.isConstant, hk]
  by_cases hword : l.text = "true" ∨ l.text = "false"
  · obtain ⟨b, rfl⟩ : ∃ b, v = .boolean b := by
      rcases hword with hword | hword <;>
      · rw [hword] at hv
        cases hv
        exact ⟨_, rfl⟩
    exact terminal_eq_boolean.2 (by simp [isBoolean, hconstant, hword])
  · rw [not_or] at hword
    rw [Literal.read?, if_neg hword.1, if_neg hword.2] at hv
    simp only [isConstantText, Bool.or_eq_true, decide_eq_true_eq, String.toList_inj, hword, false_or] at hc
    rcases hc with hquoted | hnumber
    · obtain ⟨inside, hinside⟩ := exists_unquote? hquoted
      rw [hinside] at hv
      cases hv
      exact terminal_eq_string.2 (by simp [isString, hconstant, head?_of_quoted hquoted])
    · have hdigit := head?_of_number hnumber
      have hunquote : Literal.unquote? l.text.toList = none := by
        cases hs : l.text.toList with
        | nil => rfl
        | cons c cs =>
          rw [hs, List.head?_cons] at hdigit
          have hc : c ≠ '\'' := by
            rintro rfl
            exact absurd hdigit (by decide)
          simp [Literal.unquote?, hc]
      rw [hunquote] at hv
      obtain ⟨x, -, rfl⟩ := Option.map_eq_some_iff.1 hv
      exact terminal_eq_number.2 (by simpa [isUnsignedNumber, hconstant] using hdigit)

theorem recognized_of_terminal {l : Lexeme} (h : l.terminal = v.type.terminal) :
    [isUnsignedNumber [l], isBoolean [l], isString [l]].count true = 1 ∧
    (isUnsignedNumber [l] ↔ v.type = .number) ∧ (isBoolean [l] ↔ v.type = .boolean) ∧
    (isString [l] ↔ v.type = .string) := by
  have hnumber := terminal_eq_number (l := l)
  have hboolean := terminal_eq_boolean (l := l)
  have hstring := terminal_eq_string (l := l)
  rw [h] at hnumber hboolean hstring
  cases v <;> simp_all [Literal.type, ValueType.terminal]

end

section
variable {source : String} {l : Lexeme}

theorem classified_of_mem (h : l ∈ ((sourceRows source).zipIdx 1).flatMap rowLexemes) :
    l.Classified := by
  obtain ⟨p, -, hp⟩ := List.mem_flatMap.1 h
  exact (mem_rowLexemes.1 hp).2.2

theorem classified_of_mem_lex (h : l ∈ (lex source).lexemes) : l.unlinked.Classified := by
  have hmem := List.mem_map_of_mem (f := Lexeme.unlinked) h
  rw [lexemes_lex, unlinked_link] at hmem
  obtain ⟨l', hl', heq⟩ := List.mem_map.1 hmem
  rw [← heq]
  exact ⟨(classified_of_mem hl').1, rfl⟩

theorem first_occurrences_lex (texts : Tables → List String) (p : Lexeme → Bool)
    (hempty : texts {} = []) (hp : ∀ l, p l.unlinked = p l)
    (hstep : ∀ t l, l.Classified → texts (t.internLexeme l).1 =
      if p l then appendNew (texts t) l.text else texts t) (source : String) :
    texts (lex source).tables = (((lex source).lexemes.filter p).map Lexeme.text).eraseDups := by
  rw [tables_lex, lexemes_lex, texts_link _ _ hp,
    foldl_link texts p (fun t l hl => hstep t l (classified_of_mem hl)), hempty]
  exact foldl_appendNew [] _

/-- The tables of a source text list the texts of its identifiers and of its constants, each once and
in the order of first occurrence. Identifiers and constants are linked to the entries with their texts,
and nothing else is linked. Of the recognizers of numbers, booleans and strings one accepts a
constant, and it is the one for the type of the value that the constant is linked to. -/
theorem lex_lists_first_occurrences (source : String) :
    (lex source).tables.identifiers.names =
      (((lex source).lexemes.filter Lexeme.isIdentifier).map Lexeme.text).eraseDups ∧
    (lex source).tables.constants.texts =
      (((lex source).lexemes.filter Lexeme.isConstant).map Lexeme.text).eraseDups ∧
    ∀ l ∈ (lex source).lexemes,
      (l.kind = .identifier → ∃ i e, l.link = some i ∧ (lex source).tables.identifiers.get? i = some e ∧
        e.name = l.text) ∧
      (l.kind = .constant → ∃ i c, l.link = some i ∧ (lex source).tables.constants.get? i = some c ∧
        c.text = l.text ∧ [isUnsignedNumber [l], isBoolean [l], isString [l]].count true = 1 ∧
        (isUnsignedNumber [l] ↔ c.value.type = .number) ∧ (isBoolean [l] ↔ c.value.type = .boolean) ∧
        (isString [l] ↔ c.value.type = .string)) ∧
      (l.kind ≠ .identifier → l.kind ≠ .constant → l.link = none) := by
  obtain ⟨htables, hlinked⟩ := lex_spec source
  refine ⟨?_, ?_, fun l hl => ⟨fun hk => ?_, fun hk => ?_, fun hi hc => ?_⟩⟩
  · exact first_occurrences_lex (fun t => t.identifiers.names) _ rfl (fun _ => rfl)
      (fun t l _ => names_internLexeme t l) source
  · exact first_occurrences_lex (fun t => t.constants.texts) _ rfl (fun _ => rfl)
      (fun t _ hl => texts_internLexeme t hl) source
  · obtain ⟨i, hlink, e, he, hname⟩ := (hlinked l hl).2 hk
    exact ⟨i, e, hlink, he, hname⟩
  · obtain ⟨i, hlink, c, hget, htext⟩ := (hlinked l hl).1 hk
    have hread := htables.sound c (List.mem_of_getElem? hget)
    have hclass := (classified_of_mem_lex hl).1
    rw [show l.unlinked.kind = _ from hk] at hclass
    rw [htext] at hread
    exact ⟨i, c, hlink, hget, htext,
      recognized_of_terminal (terminal_of_read? hk (isConstantText_of_classify hclass) hread)⟩
  · have hother : l.kind.isOperand = false := by
      cases hk : l.kind <;> simp_all [Kind.isOperand]
    rw [lexemes_lex] at hl
    exact link_eq_none (fun x hx => (classified_of_mem hx).2) hl hother

end

/-- A name and a number that stand on two rows have one entry each, and the name and the string with
the same letter have nothing in common. -/
theorem lex_lists_first_occurrences_of_repeated : ∃ (source : String) (l : Lexeme),
    source = "x = 1e+0\ny = 'x'\nx = 1e+0" ∧ l ∈ (lex source).lexemes ∧ l.row = 3 ∧
    l.kind = .constant ∧ (lex source).tables.identifiers.names = ["x", "y"] ∧
    (lex source).tables.constants.texts = ["1e+0", "'x'"] ∧
    isUnsignedNumber [l] ∧ isString [l] = false ∧
    ∃ i c, l.link = some i ∧ (lex source).tables.constants.get? i = some c ∧ c.text = "1e+0" ∧
      c.value.type = .number := by
  let source := "x = 1e+0\ny = 'x'\nx = 1e+0"
  let l : Lexeme := ⟨3, "1e+0", .constant, some 0⟩
  have hl : l ∈ (lex source).lexemes := by decide +kernel
  have hnumber : isUnsignedNumber [l] := by decide
  obtain ⟨hnames, htexts, hlinks⟩ := lex_lists_first_occurrences source
  obtain ⟨i, c, hlink, hget, htext, -, htype, -⟩ := (hlinks l hl).2.1 rfl
  refine ⟨source, l, rfl, hl, rfl, rfl, ?_, ?_, hnumber, by decide, i, c, hlink, hget, htext,
    htype.1 hnumber⟩
  · rw [hnames]
    decide +kernel
  · rw [htexts]
    decide +kernel

end RowLang
