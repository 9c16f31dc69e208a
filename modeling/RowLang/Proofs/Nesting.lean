import Mathlib
import RowLang.Expr.Shape

/-! Nesting of lexemes that open and lexemes that close, whichever those are. A list that nests has
in each of its suffixes at least as many closing lexemes as opening ones. -/

namespace RowLang

def nests (side : Kind → Option Bracket) : Nat → List Lexeme → Bool
  | opened, [] => opened == 0
  | opened, l :: ls =>
    match side l.kind, opened with
    | some .opening, _ => nests side (opened + 1) ls
    | some .closing, 0 => false
    | some .closing, opened + 1 => nests side opened ls
    | none, _ => nests side opened ls

def sideCount (side : Kind → Option Bracket) (b : Bracket) (lexemes : List Lexeme) : Nat :=
  lexemes.countP fun l => side l.kind == some b

section
variable {side : Kind → Option Bracket} {opened : Nat} {l : Lexeme} {ls front suffix : List Lexeme}

@[simp] theorem sideCount_nil {b : Bracket} : sideCount side b [] = 0 := rfl

theorem sideCount_cons {b : Bracket} :
    sideCount side b (l :: ls) = sideCount side b ls + if side l.kind = some b then 1 else 0 := by
  simp [sideCount, List.countP_cons]

theorem sideCount_append {b : Bracket} :
    sideCount side b (front ++ suffix) = sideCount side b front + sideCount side b suffix :=
  List.countP_append

theorem nests_cons_opening (h : side l.kind = some .opening) :
    nests side opened (l :: ls) = nests side (opened + 1) ls := by
  simp [nests, h]

theorem nests_cons_closing (h : side l.kind = some .closing) :
    nests side (opened + 1) (l :: ls) = nests side opened ls := by
  simp [nests, h]

theorem not_nests_cons_closing (h : side l.kind = some .closing) :
    nests side 0 (l :: ls) = false := by
  simp [nests, h]

theorem nests_cons_none (h : side l.kind = none) :
    nests side opened (l :: ls) = nests side opened ls := by
  simp [nests, h]

theorem nests_append (h : nests side opened front) (more : Nat) (suffix : List Lexeme) :
    nests side (opened + more) (front ++ suffix) = nests side more suffix := by
  induction front generalizing opened with
  | nil =>
    have : opened = 0 := by simpa [nests] using h
    simp [this]
  | cons l ls ih =>
    rw [List.cons_append]
    match hs : side l.kind, opened, h with
    | some .opening, opened, h =>
      rw [nests_cons_opening hs] at h ⊢
      rw [Nat.add_right_comm]
      exact ih h
    | some .closing, 0, h => simp [not_nests_cons_closing hs] at h
    | some .closing, opened + 1, h =>
      rw [nests_cons_closing hs] at h
      rw [Nat.add_right_comm, nests_cons_closing hs]
      exact ih h
    | none, opened, h =>
      rw [nests_cons_none hs] at h ⊢
      exact ih h

theorem exists_nests_of_append (h : nests side opened (front ++ suffix)) :
    ∃ still, nests side still suffix := by
  induction front generalizing opened with
  | nil => exact ⟨opened, h⟩
  | cons l ls ih =>
    rw [List.cons_append] at h
    match hs : side l.kind, opened, h with
    | some .opening, opened, h => exact ih (nests_cons_opening hs ▸ h)
    | some .closing, 0, h => simp [not_nests_cons_closing hs] at h
    | some .closing, opened + 1, h => exact ih (nests_cons_closing hs ▸ h)
    | none, opened, h => exact ih (nests_cons_none hs ▸ h)

theorem sideCount_closing_of_nests (h : nests side opened ls) :
    sideCount side .closing ls = sideCount side .opening ls + opened := by
  induction ls generalizing opened with
  | nil =>
    have : opened = 0 := by simpa [nests] using h
    simp [this]
  | cons l ls ih =>
    rw [sideCount_cons, sideCount_cons]
    match hs : side l.kind, opened, h with
    | some .opening, opened, h =>
      have := ih (nests_cons_opening hs ▸ h)
      simp only [reduceCtorEq, if_false, if_true, Option.some.injEq]
      omega
    | some .closing, 0, h => simp [not_nests_cons_closing hs] at h
    | some .closing, opened + 1, h =>
      have := ih (nests_cons_closing hs ▸ h)
      simp only [reduceCtorEq, if_false, if_true, Option.some.injEq]
      omega
    | none, opened, h =>
      have := ih (nests_cons_none hs ▸ h)
      simpa using this

theorem sideCount_opening_le (h : nests side opened ls) (hs : suffix <:+ ls) :
    sideCount side .opening suffix ≤ sideCount side .closing suffix := by
  obtain ⟨front, rfl⟩ := hs
  obtain ⟨still, hn⟩ := exists_nests_of_append h
  have := sideCount_closing_of_nests hn
  omega

theorem nests_between {c : Lexeme} (hl : side l.kind = some .opening)
    (hc : side c.kind = some .closing) (h : nests side 0 ls) :
    nests side 0 (l :: (ls ++ [c])) := by
  have hn := nests_append h 1 [c]
  rw [nests_cons_opening hl, Nat.zero_add] at *
  rw [hn, nests_cons_closing hc]
  rfl

theorem nests_of_none (h : ∀ l ∈ ls, side l.kind = none) : nests side 0 ls := by
  induction ls with
  | nil => rfl
  | cons l ls ih =>
    rw [nests_cons_none (h l List.mem_cons_self)]
    exact ih fun x hx => h x (List.mem_cons_of_mem l hx)

/-- Of the lists that are closed by the last lexeme and nest inside, no two end one list. -/
theorem eq_of_nests_between {o o' c c' : Lexeme} {inner inner' : List Lexeme}
    (ho : side o.kind = some .opening) (ho' : side o'.kind = some .opening)
    (h : nests side 0 inner) (h' : nests side 0 inner') (hs : o :: (inner ++ [c]) <:+ ls)
    (hs' : o' :: (inner' ++ [c']) <:+ ls) : o :: (inner ++ [c]) = o' :: (inner' ++ [c']) := by
  wlog hle : (o :: (inner ++ [c])).length ≤ (o' :: (inner' ++ [c'])).length generalizing
    o o' c c' inner inner'
  · exact (this ho' ho h' h hs' hs (Nat.le_of_not_le hle)).symm
  obtain ⟨front, hf⟩ := List.suffix_of_suffix_length_le hs hs' hle
  cases front with
  | nil => exact hf
  | cons x front =>
    -- a longer one has the shorter one's opening lexeme inside
    rw [List.cons_append, List.cons.injEq, ← List.cons_append, ← List.append_assoc] at hf
    have hi := (List.append_inj' hf.2 rfl).1
    have hc := sideCount_opening_le h' ⟨front, hi⟩
    have hn := sideCount_closing_of_nests h
    rw [sideCount_cons, sideCount_cons, if_pos ho, ho, if_neg (by simp)] at hc
    omega

end
end RowLang
