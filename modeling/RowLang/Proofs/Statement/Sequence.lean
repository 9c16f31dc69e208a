import Mathlib
import RowLang.Proofs.Lexeme.Rows
import RowLang.Proofs.Statement.Tree

/-! Sources that are one definition after the other. Statements stand on rows of their own, so the
definitions in front of a statement are what the rows above it read as. -/

namespace RowLang

section
variable {front rest ls ls' : List Lexeme}

theorem apart_iff : Apart front rest ↔ ∀ x ∈ front.getLast?, ∀ y ∈ rest.head?, x.row ≠ y.row := by
  constructor
  · intro h x hx y hy
    have hfront : front ≠ [] := List.ne_nil_of_mem (List.mem_of_mem_getLast? hx)
    have hrest : rest ≠ [] := List.ne_nil_of_mem (List.mem_of_mem_head? hy)
    have hchain := (List.splitBy_eq_iff.1 h).2.2.2
    rw [List.isChain_append] at hchain
    have hruns := List.splitBy_ne_nil (r := fun a b : Lexeme => a.row == b.row).2 hfront
    have hruns' := List.splitBy_ne_nil (r := fun a b : Lexeme => a.row == b.row).2 hrest
    obtain ⟨_, _, hne⟩ := hchain.2.2 _ (List.getLast_mem_getLast? hruns) _
      (List.head_mem_head? hruns')
    rw [List.getLast_getLast_splitBy _ hfront, List.head_head_splitBy _ hrest,
      List.getLast_of_mem_getLast? hx, List.head_of_mem_head? hy] at hne
    simpa using hne
  · intro h
    apply List.splitBy_append
    intro x hx y hy
    simpa using h x hx y hy

theorem Apart.left_of_append (h : Apart front (ls ++ ls')) : Apart front ls := by
  rw [apart_iff] at h ⊢
  intro x hx y hy
  refine h x hx y ?_
  rw [Option.mem_def] at hy ⊢
  rw [List.head?_append, hy, Option.some_or]

theorem Apart.row_lt (h : Apart front rest) (hrows : (front ++ rest).Pairwise (·.row ≤ ·.row)) :
    ∀ x ∈ front, ∀ y ∈ rest, x.row < y.row := by
  intro x hx y hy
  rw [List.pairwise_append] at hrows
  obtain ⟨hfront, hrest, hacross⟩ := hrows
  obtain ⟨init, last, rfl⟩ := List.eq_nil_or_concat front |>.resolve_left (List.ne_nil_of_mem hx)
  obtain ⟨first, tail, rfl⟩ := List.exists_cons_of_ne_nil (List.ne_nil_of_mem hy)
  have hxlast : x.row ≤ last.row := by
    rw [List.concat_eq_append, List.pairwise_append] at hfront
    rw [List.concat_eq_append, List.mem_append, List.mem_singleton] at hx
    rcases hx with hx | rfl
    · exact hfront.2.2 x hx last (List.mem_singleton_self last)
    · exact le_rfl
  have hfirsty : first.row ≤ y.row := by
    rw [List.pairwise_cons] at hrest
    rcases List.mem_cons.1 hy with rfl | hy
    · exact le_rfl
    · exact hrest.1 y hy
  have hmiddle : last.row ≤ first.row := hacross last (by simp) first List.mem_cons_self
  have hne : last.row ≠ first.row := apart_iff.1 h last (by simp) first (by simp)
  omega

end

namespace Block

def sequence : List Definition → Block
  | [] => done
  | d :: ds => simple (.definition d) (sequence ds)

variable {before after : List Definition} {d : Definition}

theorem proper_of_mem {ds : List Definition} (h : (sequence ds).Proper) :
    ∀ d ∈ ds, d.Proper Assignable := by
  induction ds with
  | nil => simp
  | cons d ds ih =>
    rw [List.forall_mem_cons]
    exact ⟨h.1, ih h.2.2.2⟩

theorem lexemes_sequence_append (before after : List Definition) :
    (sequence (before ++ after)).lexemes =
      (sequence before).lexemes ++ (sequence after).lexemes := by
  induction before with
  | nil => rfl
  | cons d before ih => simp only [List.cons_append, sequence, lexemes, ih, List.append_assoc]

theorem proper_sequence_left (h : (sequence (before ++ after)).Proper) :
    (sequence before).Proper := by
  induction before with
  | nil => trivial
  | cons d before ih =>
    rw [List.cons_append] at h
    obtain ⟨hd, hminimal, hapart, hrest⟩ := h
    rw [lexemes_sequence_append] at hapart
    exact ⟨hd, hminimal, hapart.left_of_append, ih hrest⟩

theorem apart_sequence (h : (sequence (before ++ after)).Proper) :
    Apart (sequence before).lexemes (sequence after).lexemes := by
  induction before with
  | nil => exact apart_iff.2 (by simp [sequence, lexemes])
  | cons d before ih =>
    rw [List.cons_append] at h
    obtain ⟨-, -, hapart, hrest⟩ := h
    have ih := apart_iff.1 (ih hrest)
    rw [lexemes_sequence_append, apart_iff] at hapart
    rw [apart_iff]
    intro x hx y hy
    rw [sequence, lexemes, List.getLast?_append] at hx
    cases hlast : (sequence before).lexemes.getLast? with
    | none =>
      -- nothing else is in front, so the two statements are neighbours
      rw [List.getLast?_eq_none_iff] at hlast
      rw [hlast] at hx hapart
      exact hapart x hx y hy
    | some z =>
      rw [hlast, Option.some_or] at hx
      exact ih x (hlast.trans hx) y hy

theorem reads_above {source : String} {word : Lexeme} {tail : List Lexeme}
    (h : (sequence (before ++ d :: after)).Reads (lex source).lexemes)
    (hd : d.lexemes = word :: tail) :
    (sequence before).Reads (lex (above source word.row)).lexemes := by
  obtain ⟨hproper, hlexemes⟩ := h
  refine ⟨proper_sequence_left hproper, ?_⟩
  have hrows := pairwise_row source
  rw [← hlexemes, lexemes_sequence_append] at hrows
  have hword : word ∈ (sequence (d :: after)).lexemes := by
    rw [sequence, lexemes, Simple.lexemes, hd]
    exact List.mem_append_left _ List.mem_cons_self
  have hbefore : ∀ l ∈ (sequence before).lexemes, l.row < word.row :=
    fun l hl => (apart_sequence hproper).row_lt hrows l hl word hword
  have hafter : ∀ l ∈ (sequence (d :: after)).lexemes, word.row ≤ l.row := by
    have hbehind := (List.pairwise_append.1 hrows).2.1
    rw [sequence, lexemes, Simple.lexemes, hd, List.cons_append] at hbehind ⊢
    intro l hl
    rcases List.mem_cons.1 hl with rfl | hl
    · exact le_rfl
    · exact (List.pairwise_cons.1 hbehind).1 l hl
  -- both are the lexemes above the row of the word
  have hsplit : ∀ {front behind : List Lexeme}, (∀ l ∈ front, l.row < word.row) →
      (∀ l ∈ behind, word.row ≤ l.row) → (front ++ behind).filter (·.row < word.row) = front := by
    intro front behind hfront hbehind
    rw [List.filter_append, List.filter_eq_self.2 (by simpa using hfront),
      List.filter_eq_nil_iff.2 (by simpa using hbehind), List.append_nil]
  obtain ⟨rest, hlex, habove, hrest⟩ := lexemes_above source word.row
  rw [← hsplit hbefore hafter, ← lexemes_sequence_append, hlexemes, hlex, hsplit habove hrest]

end Block
end RowLang
