import Mathlib
import RowLang.Expr.Shape

/-! Where lists of lexemes are cut. There is one cut for each suffix that leaves a lexeme before it,
and a search meets them in the order of the suffixes' lengths. -/

namespace RowLang

theorem mem_cutsFrom_iff {front suffix : List Lexeme} {c : Cut} :
    c ∈ cutsFrom front suffix ↔
      ∃ more, front = more ++ c.pivot :: c.reversed ∧ c.suffix = more.reverse ++ suffix := by
  induction front generalizing suffix with
  | nil => simp [cutsFrom]
  | cons l front ih =>
    rw [cutsFrom, List.mem_cons, ih]
    constructor
    · rintro (rfl | ⟨more, rfl, hs⟩)
      · exact ⟨[], rfl, rfl⟩
      · exact ⟨l :: more, rfl, by simp [hs]⟩
    · rintro ⟨more, hf, hs⟩
      cases more with
      | nil =>
        obtain ⟨rfl, rfl⟩ := List.cons.inj hf
        exact Or.inl (by cases c; rw [Cut.mk.injEq]; exact ⟨rfl, rfl, hs⟩)
      | cons x more =>
        obtain ⟨rfl, rfl⟩ := List.cons.inj hf
        exact Or.inr ⟨more, rfl, by simpa using hs⟩

theorem mem_cuts_iff {lexemes : List Lexeme} {c : Cut} :
    c ∈ cuts lexemes ↔ c.before ++ c.pivot :: c.suffix = lexemes ∧ c.suffix ≠ [] := by
  constructor
  · intro h
    refine ⟨append_of_mem_cuts h, ?_⟩
    unfold cuts at h
    split at h
    · simp at h
    · obtain ⟨more, -, hs⟩ := mem_cutsFrom_iff.1 h
      simp [hs]
  · rintro ⟨rfl, hs⟩
    obtain ⟨init, last, hl⟩ := List.eq_nil_or_concat c.suffix |>.resolve_left hs
    have hr : (c.before ++ c.pivot :: c.suffix).reverse =
        last :: (init.reverse ++ c.pivot :: c.reversed) := by
      simp [hl, Cut.before]
    rw [cuts, hr]
    exact mem_cutsFrom_iff.2 ⟨init.reverse, rfl, by simp [hl]⟩

theorem pairwise_cutsFrom (front suffix : List Lexeme) :
    (cutsFrom front suffix).Pairwise fun c c' => c.suffix.length < c'.suffix.length := by
  induction front generalizing suffix with
  | nil => exact List.Pairwise.nil
  | cons l front ih =>
    refine List.Pairwise.cons ?_ (ih _)
    intro c hc
    obtain ⟨more, -, hs⟩ := mem_cutsFrom_iff.1 hc
    simp only [hs, List.length_append, List.length_cons]
    omega

theorem pairwise_cuts (lexemes : List Lexeme) :
    (cuts lexemes).Pairwise fun c c' => c.suffix.length < c'.suffix.length := by
  unfold cuts
  split
  · exact List.Pairwise.nil
  · exact pairwise_cutsFrom _ _

theorem eq_of_mem_cuts {lexemes : List Lexeme} {c c' : Cut} (h : c ∈ cuts lexemes)
    (h' : c' ∈ cuts lexemes) (hs : c.suffix.length = c'.suffix.length) : c = c' := by
  have ha := (append_of_mem_cuts h).trans (append_of_mem_cuts h').symm
  have hi := List.append_inj' ha (by simp [hs])
  obtain ⟨hp, hs'⟩ := List.cons.inj hi.2
  have hr := List.reverse_injective hi.1
  cases c
  cases c'
  simp_all

theorem length_le_of_find?_cuts {lexemes : List Lexeme} {p : Cut → Bool} {c c' : Cut}
    (h : (cuts lexemes).find? p = some c) (hc' : c' ∈ cuts lexemes) (hp : p c') :
    c.suffix.length ≤ c'.suffix.length := by
  obtain ⟨-, before, after, hl, hb⟩ := List.find?_eq_some_iff_append.1 h
  have hpw := pairwise_cuts lexemes
  rw [hl] at hpw hc'
  rcases List.mem_append.1 hc' with hc' | hc'
  · simpa [hp] using hb c' hc'
  · rcases List.mem_cons.1 hc' with rfl | hc'
    · exact le_rfl
    · exact ((List.pairwise_cons.1 (List.pairwise_append.1 hpw).2.1).1 c' hc').le

theorem find?_cuts_eq_some {lexemes : List Lexeme} {p : Cut → Bool} {c : Cut}
    (hc : c ∈ cuts lexemes) (hp : p c)
    (h : ∀ c' ∈ cuts lexemes, c'.suffix.length < c.suffix.length → ¬ p c') :
    (cuts lexemes).find? p = some c := by
  cases hf : (cuts lexemes).find? p with
  | none => exact absurd hp (List.find?_eq_none.1 hf c hc)
  | some c' =>
    have hm := List.mem_of_find?_eq_some hf
    have hle := length_le_of_find?_cuts hf hc hp
    have hge : ¬ c'.suffix.length < c.suffix.length := fun hlt => h c' hm hlt (List.find?_some hf)
    rw [eq_of_mem_cuts hm hc (by omega)]

theorem mem_cuts_of_cutBefore? {accepts : List Lexeme → Bool} {lexemes : List Lexeme} {c : Cut}
    (h : cutBefore? accepts lexemes = some c) : c ∈ cuts lexemes ∧ accepts c.suffix :=
  ⟨List.mem_of_find?_eq_some h, List.find?_some (p := fun c : Cut => accepts c.suffix) h⟩

theorem not_accepts_of_cutBefore? {accepts : List Lexeme → Bool} {lexemes front rest : List Lexeme}
    {l : Lexeme} {c : Cut} (h : cutBefore? accepts lexemes = some c)
    (hs : c.suffix = front ++ l :: rest) (hn : rest ≠ []) : ¬ accepts rest := by
  intro ha
  have happ := append_of_mem_cuts (mem_cuts_of_cutBefore? h).1
  have hc' : (⟨(c.before ++ c.pivot :: front).reverse, l, rest⟩ : Cut) ∈ cuts lexemes :=
    mem_cuts_iff.2 ⟨by simp [Cut.before, ← happ, hs], hn⟩
  have hle := length_le_of_find?_cuts h hc' ha
  simp only [hs, List.length_append, List.length_cons] at hle
  omega

theorem cutBefore?_append {accepts : List Lexeme → Bool} {front suffix : List Lexeme}
    {l : Lexeme} (hn : suffix ≠ []) (hs : accepts suffix)
    (h : ∀ s, s <:+ suffix → s ≠ suffix → s ≠ [] → ¬ accepts s) :
    cutBefore? accepts (front ++ l :: suffix) = some ⟨front.reverse, l, suffix⟩ := by
  refine find?_cuts_eq_some (mem_cuts_iff.2 ⟨by simp [Cut.before], hn⟩) hs ?_
  intro c hc hlt
  obtain ⟨ha, hne⟩ := mem_cuts_iff.1 hc
  have hsuf : c.suffix <:+ front ++ l :: suffix :=
    ⟨c.before ++ [c.pivot], by simpa using ha⟩
  refine h c.suffix ?_ (by rintro he; simp [he] at hlt) hne
  exact List.suffix_of_suffix_length_le hsuf ⟨front ++ [l], by simp⟩ (by simpa using hlt.le)

end RowLang
