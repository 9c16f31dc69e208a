import Mathlib
import RowLang.Proofs.Expr.Cuts
import RowLang.Proofs.Nesting

/-! The language of the expression recognizers, as a grammar: factors, terms and arithmetic
expressions. The search for the shortest suffix always lands on the last factor. -/

namespace RowLang

mutual

inductive Factor : List Lexeme → Prop
  | identifier {l : Lexeme} (h : l.isIdentifier) : Factor [l]
  | number {l : Lexeme} (h : isUnsignedNumber [l]) : Factor [l]
  | group {o c : Lexeme} {inside : List Lexeme} (ho : o.kind = .bracket .opening)
      (hc : c.kind = .bracket .closing) (h : Arithmetic inside) : Factor (o :: (inside ++ [c]))

inductive Term : List Lexeme → Prop
  | factor {f : List Lexeme} (h : Factor f) : Term f
  | joined {t f : List Lexeme} {op : Lexeme} (ht : Term t) (hop : op.kind.isTermOp)
      (hf : Factor f) : Term (t ++ op :: f)

inductive Arithmetic : List Lexeme → Prop
  | term {t : List Lexeme} (h : Term t) : Arithmetic t
  | signed {s : Lexeme} {t : List Lexeme} (hs : s.kind.isAddOp) (h : Term t) : Arithmetic (s :: t)
  | joined {a f : List Lexeme} {op : Lexeme} (ha : Arithmetic a) (hop : op.kind.isAddOp)
      (hf : Factor f) : Arithmetic (a ++ op :: f)

end

def Kind.side? : Kind → Option Bracket
  | .bracket b => some b
  | _ => none

theorem isBalanced_eq_nests (opened : Nat) (ls : List Lexeme) :
    isBalanced opened ls = nests Kind.side? opened ls := by
  induction ls generalizing opened with
  | nil => rfl
  | cons l ls ih =>
    match hk : l.kind, opened with
    | .bracket .opening, opened => simp [isBalanced, nests, Kind.side?, hk, ih]
    | .bracket .closing, 0 => simp [isBalanced, nests, Kind.side?, hk]
    | .bracket .closing, opened + 1 => simp [isBalanced, nests, Kind.side?, hk, ih]
    | .identifier, _ | .constant, _ | .declaration _, _ | .loop _, _ | .condition _, _ | .jump, _
    | .type _, _ | .assign, _ | .addOp _, _ | .multOp _, _ | .powOp, _ | .relOp _, _ | .punct, _ =>
      simp [isBalanced, nests, Kind.side?, hk, ih]

def Kind.inArithmetic : Kind → Bool
  | identifier | constant | addOp _ | multOp _ | powOp | bracket _ => true
  | _ => false

theorem Kind.side?_of_isTermOp {k : Kind} (h : k.isTermOp) : k.side? = none := by
  cases k <;> simp_all [isTermOp, side?]

theorem Kind.side?_of_isAddOp {k : Kind} (h : k.isAddOp) : k.side? = none := by
  cases k <;> simp_all [isAddOp, side?]

theorem Kind.not_isTermOp_of_isAddOp {k : Kind} (h : k.isAddOp) : ¬ k.isTermOp := by
  cases k <;> simp_all [isAddOp, isTermOp]

theorem isConstant_of_isUnsignedNumber {l : Lexeme} (h : isUnsignedNumber [l]) :
    l.kind = .constant := by
  simp_all [isUnsignedNumber, Lexeme.isConstant]

theorem Lexeme.kind_of_isIdentifier {l : Lexeme} (h : l.isIdentifier) : l.kind = .identifier := by
  simpa [isIdentifier] using h

theorem Lexeme.kind_of_isConstant {l : Lexeme} (h : l.isConstant) : l.kind = .constant := by
  simpa [isConstant] using h

theorem nests_joined {a f : List Lexeme} {op : Lexeme} (ha : nests Kind.side? 0 a)
    (hop : op.kind.side? = none) (hf : nests Kind.side? 0 f) :
    nests Kind.side? 0 (a ++ op :: f) := by
  have h := nests_append ha 0 (op :: f)
  rw [h, nests_cons_none hop]
  exact hf

mutual

theorem Factor.nests {f : List Lexeme} : Factor f → nests Kind.side? 0 f
  | .identifier h => nests_of_none (by simp [Kind.side?, Lexeme.kind_of_isIdentifier h])
  | .number h => nests_of_none (by simp [Kind.side?, isConstant_of_isUnsignedNumber h])
  | .group ho hc h => nests_between (by simp [ho, Kind.side?]) (by simp [hc, Kind.side?]) h.nests

theorem Term.nests {t : List Lexeme} : Term t → nests Kind.side? 0 t
  | .factor h => h.nests
  | .joined ht hop hf => nests_joined ht.nests (Kind.side?_of_isTermOp hop) hf.nests

theorem Arithmetic.nests {a : List Lexeme} : Arithmetic a → nests Kind.side? 0 a
  | .term h => h.nests
  | .signed hs h => by
    rw [nests_cons_none (Kind.side?_of_isAddOp hs)]
    exact h.nests
  | .joined ha hop hf => nests_joined ha.nests (Kind.side?_of_isAddOp hop) hf.nests

end

theorem Factor.ne_nil {f : List Lexeme} (h : Factor f) : f ≠ [] := by
  cases h <;> simp

/-- What ends a factor, and is not all of it, has a bracket too many. -/
theorem Factor.not_nests {f s : List Lexeme} (h : Factor f) (hs : s <:+ f) (hne : s ≠ f)
    (hn : s ≠ []) : ¬ RowLang.nests Kind.side? 0 s := by
  have hsingle : ∀ l : Lexeme, s <:+ [l] → s = [l] := by
    intro l hl
    rcases List.suffix_cons_iff.1 hl with hl | hl
    · exact hl
    · exact absurd (List.suffix_nil.1 hl) hn
  cases h with
  | identifier _ => exact absurd (hsingle _ hs) hne
  | number _ => exact absurd (hsingle _ hs) hne
  | @group o c inside _ hc h =>
    -- the last lexeme closes a bracket whose opening is cut off
    have hin := (List.suffix_cons_iff.1 hs).resolve_left hne
    obtain ⟨init, last, rfl⟩ := (List.eq_nil_or_concat s).resolve_left hn
    obtain ⟨front, hf⟩ := hin
    rw [List.concat_eq_append, ← List.append_assoc] at hf
    obtain ⟨hi, hl⟩ := List.append_inj' hf rfl
    have hle := sideCount_opening_le h.nests ⟨front, hi⟩
    intro hnests
    have hcount := sideCount_closing_of_nests hnests
    obtain rfl := List.singleton_inj.1 hl
    simp only [List.concat_eq_append, sideCount_append, sideCount_cons, sideCount_nil, hc,
      Kind.side?, Option.some.injEq, reduceCtorEq, if_true, if_false] at hcount
    omega

theorem Term.ne_nil {t : List Lexeme} (h : Term t) : t ≠ [] := by
  cases h with
  | factor h => exact h.ne_nil
  | joined => simp

theorem Arithmetic.ne_nil {a : List Lexeme} (h : Arithmetic a) : a ≠ [] := by
  cases h with
  | term h => exact h.ne_nil
  | signed => simp
  | joined => simp

theorem Factor.isAddOp_head {f : List Lexeme} (h : Factor f) {l : Lexeme} (hl : l ∈ f.head?) :
    l.kind.isAddOp = false := by
  cases h with
  | identifier h =>
    obtain rfl : _ = l := by simpa using hl
    rw [Lexeme.kind_of_isIdentifier h]
    rfl
  | number h =>
    obtain rfl : _ = l := by simpa using hl
    rw [isConstant_of_isUnsignedNumber h]
    rfl
  | group ho _ _ =>
    obtain rfl : _ = l := by simpa using hl
    rw [ho]
    rfl

theorem Term.isAddOp_head {t : List Lexeme} {l : Lexeme} :
    Term t → l ∈ t.head? → l.kind.isAddOp = false
  | .factor h, hl => h.isAddOp_head hl
  | .joined ht _ _, hl => by
    rw [List.head?_append_of_ne_nil _ ht.ne_nil] at hl
    exact ht.isAddOp_head hl

theorem unbracket?_group {o c : Lexeme} {inside : List Lexeme} (ho : o.kind = .bracket .opening)
    (hc : c.kind = .bracket .closing) (h : nests Kind.side? 0 inside) :
    unbracket? (o :: (inside ++ [c])) = some inside := by
  simp [unbracket?, ho, hc, isBalanced_eq_nests, h]

theorem eq_group_of_unbracket? {lexemes inside : List Lexeme}
    (h : unbracket? lexemes = some inside) :
    ∃ o c, o.kind = .bracket .opening ∧ c.kind = .bracket .closing ∧
      lexemes = o :: (inside ++ [c]) := by
  cases lexemes with
  | nil => simp [unbracket?] at h
  | cons o rest =>
    simp only [unbracket?] at h
    split at h
    · rename_i hc
      obtain ⟨ho, hl, -⟩ := hc
      obtain ⟨c, hr, hc⟩ := Option.map_eq_some_iff.1 hl
      obtain ⟨init, rfl⟩ := List.getLast?_eq_some_iff.1 hr
      cases h
      exact ⟨o, c, ho, hc, by simp⟩
    · simp at h

section
variable {lexemes : List Lexeme}

theorem isFactor_iff_of_shorter
    (ha : ∀ s : List Lexeme, s.length < lexemes.length → (isArithmetic s ↔ Arithmetic s)) :
    isFactor lexemes ↔ Factor lexemes := by
  rw [isFactor_eq]
  simp only [Bool.or_eq_true, or_assoc]
  constructor
  · rintro (h | h | h)
    · match lexemes, h with
      | [l], h => exact .identifier h
    · match lexemes, h with
      | [l], h => exact .number h
    · obtain ⟨inside, hu, hi⟩ := (Option.any_eq_true _ _).1 h
      have hi := (ha inside (length_of_unbracket? hu)).1 hi
      obtain ⟨o, c, ho, hc, rfl⟩ := eq_group_of_unbracket? hu
      exact .group ho hc hi
  · intro h
    cases h with
    | identifier h => exact Or.inl h
    | number h => exact Or.inr (Or.inl h)
    | @group o c inside ho hc h =>
      have hi := (ha inside (by simp)).2 h
      exact Or.inr (Or.inr (by rw [unbracket?_group ho hc h.nests]; exact hi))

theorem isTerm_iff_of_shorter
    (hf : ∀ s : List Lexeme, s.length ≤ lexemes.length → (isFactor s ↔ Factor s))
    (ht : ∀ s : List Lexeme, s.length < lexemes.length → (isTerm s ↔ Term s)) :
    isTerm lexemes ↔ Term lexemes := by
  rw [isTerm_eq, Bool.or_eq_true, hf _ le_rfl]
  constructor
  · rintro (h | h)
    · exact .factor h
    · obtain ⟨c, hc, h⟩ := (Option.any_eq_true _ _).1 h
      obtain ⟨hop, h⟩ := Bool.and_eq_true_iff.1 h
      obtain ⟨hmem, hsuf⟩ := mem_cuts_of_cutBefore? hc
      have hlen := length_of_mem_cuts hmem
      have hsuf := (hf c.suffix (by omega)).1 hsuf
      rw [← append_of_mem_cuts hmem]
      exact .joined ((ht c.before (by omega)).1 h) hop hsuf
  · intro h
    cases h with
    | factor h => exact Or.inl h
    | @joined t f op h hop hfac =>
      right
      rw [cutBefore?_append hfac.ne_nil ((hf f (by simp; omega)).2 hfac)]
      · simpa [hop, Cut.before] using (ht t (by simp)).2 h
      · intro s hs hne hn his
        have hlen := hs.length_le
        exact hfac.not_nests hs hne hn ((hf s (by simp; omega)).1 his).nests

theorem isArithmetic_iff_of_shorter
    (ht : ∀ s : List Lexeme, s.length ≤ lexemes.length → (isTerm s ↔ Term s))
    (ha : ∀ s : List Lexeme, s.length < lexemes.length → (isArithmetic s ↔ Arithmetic s)) :
    isArithmetic lexemes ↔ Arithmetic lexemes := by
  rw [isArithmetic_eq, Bool.or_eq_true]
  constructor
  · rintro (h | h)
    · match lexemes, h with
      | l :: rest, h =>
        simp only at h
        split at h
        · rename_i hs
          exact .signed hs ((ht rest (by simp)).1 h)
        · exact .term ((ht _ le_rfl).1 h)
    · obtain ⟨c, hc, h⟩ := (Option.any_eq_true _ _).1 h
      obtain ⟨hop, h⟩ := Bool.and_eq_true_iff.1 h
      obtain ⟨hmem, hterm⟩ := mem_cuts_of_cutBefore? hc
      have hlen := length_of_mem_cuts hmem
      have hterm := (ht c.suffix (by omega)).1 hterm
      have happ := append_of_mem_cuts hmem
      have hfac : Factor c.suffix := by
        generalize hsuf : c.suffix = suffix at hterm
        cases hterm with
        | factor h => exact h
        | @joined t f op _ _ hf =>
          -- the last factor alone would be a shorter term
          have hlen' := congrArg List.length hsuf
          simp only [List.length_append, List.length_cons] at hlen'
          exact absurd ((ht f (by omega)).2 (.factor hf)) (not_accepts_of_cutBefore? hc hsuf hf.ne_nil)
      rw [← happ]
      exact .joined ((ha c.before (by omega)).1 h) hop hfac
  · intro h
    cases h with
    | term h =>
      left
      cases lexemes with
      | nil => exact absurd rfl h.ne_nil
      | cons l rest =>
        simpa [h.isAddOp_head rfl] using (ht _ le_rfl).2 h
    | @signed s t hs h =>
      left
      simpa [hs] using (ht t (by simp)).2 h
    | @joined a f op h hop hf =>
      right
      rw [cutBefore?_append hf.ne_nil ((ht f (by simp; omega)).2 (.factor hf))]
      · simpa [hop, Cut.before] using (ha a (by simp)).2 h
      · intro s hs hne hn his
        have hlen := hs.length_le
        exact hf.not_nests hs hne hn ((ht s (by simp; omega)).1 his).nests

end

theorem recognizers_iff (lexemes : List Lexeme) :
    (isFactor lexemes ↔ Factor lexemes) ∧ (isTerm lexemes ↔ Term lexemes) ∧
      (isArithmetic lexemes ↔ Arithmetic lexemes) := by
  induction hn : lexemes.length using Nat.strong_induction_on generalizing lexemes with
  | _ n ih =>
    subst hn
    -- factors go down to shorter expressions, but terms to factors and terms of any such length
    have hf : ∀ s : List Lexeme, s.length ≤ lexemes.length → (isFactor s ↔ Factor s) :=
      fun s hs => isFactor_iff_of_shorter fun r hr => (ih r.length (by omega) r rfl).2.2
    have ht : ∀ s : List Lexeme, s.length ≤ lexemes.length → (isTerm s ↔ Term s) := by
      intro s hs
      induction hk : s.length using Nat.strong_induction_on generalizing s with
      | _ k iht =>
        subst hk
        exact isTerm_iff_of_shorter (fun r hr => hf r (by omega))
          fun r hr => iht r.length hr r (by omega) rfl
    exact ⟨hf _ le_rfl, ht _ le_rfl,
      isArithmetic_iff_of_shorter ht fun r hr => (ih r.length hr r rfl).2.2⟩

theorem isFactor_iff {lexemes : List Lexeme} : isFactor lexemes ↔ Factor lexemes :=
  (recognizers_iff lexemes).1

theorem isTerm_iff {lexemes : List Lexeme} : isTerm lexemes ↔ Term lexemes :=
  (recognizers_iff lexemes).2.1

theorem isArithmetic_iff {lexemes : List Lexeme} : isArithmetic lexemes ↔ Arithmetic lexemes :=
  (recognizers_iff lexemes).2.2

mutual

theorem Factor.inArithmetic {f : List Lexeme} : Factor f → ∀ l ∈ f, l.kind.inArithmetic
  | .identifier h => by simp [Lexeme.kind_of_isIdentifier h, Kind.inArithmetic]
  | .number h => by simp [isConstant_of_isUnsignedNumber h, Kind.inArithmetic]
  | .group ho hc h => by
    intro l hl
    rcases List.mem_cons.1 hl with rfl | hl
    · simp [ho, Kind.inArithmetic]
    · rcases List.mem_append.1 hl with hl | hl
      · exact h.inArithmetic l hl
      · obtain rfl := List.mem_singleton.1 hl
        simp [hc, Kind.inArithmetic]

theorem Term.inArithmetic {t : List Lexeme} : Term t → ∀ l ∈ t, l.kind.inArithmetic
  | .factor h => h.inArithmetic
  | .joined ht hop hf => by
    intro l hl
    rcases List.mem_append.1 hl with hl | hl
    · exact ht.inArithmetic l hl
    · rcases List.mem_cons.1 hl with rfl | hl
      · cases hk : l.kind <;> simp_all [Kind.isTermOp, Kind.inArithmetic]
      · exact hf.inArithmetic l hl

theorem Arithmetic.inArithmetic {a : List Lexeme} : Arithmetic a → ∀ l ∈ a, l.kind.inArithmetic
  | .term h => h.inArithmetic
  | .signed hs h => by
    intro l hl
    rcases List.mem_cons.1 hl with rfl | hl
    · cases hk : l.kind <;> simp_all [Kind.isAddOp, Kind.inArithmetic]
    · exact h.inArithmetic l hl
  | .joined ha hop hf => by
    intro l hl
    rcases List.mem_append.1 hl with hl | hl
    · exact ha.inArithmetic l hl
    · rcases List.mem_cons.1 hl with rfl | hl
      · cases hk : l.kind <;> simp_all [Kind.isAddOp, Kind.inArithmetic]
      · exact hf.inArithmetic l hl

end

theorem Term.factor_or {t : List Lexeme} (h : Term t) :
    Factor t ∨ ∃ front l f, t = front ++ l :: f ∧ Factor f := by
  cases h with
  | factor h => exact Or.inl h
  | joined _ _ hf => exact Or.inr ⟨_, _, _, rfl, hf⟩

theorem Arithmetic.factor_or {a : List Lexeme} (h : Arithmetic a) :
    Factor a ∨ ∃ front l f, a = front ++ l :: f ∧ Factor f := by
  cases h with
  | term h => exact h.factor_or
  | @signed s t _ h =>
    rcases h.factor_or with hf | ⟨front, l, f, rfl, hf⟩
    · exact Or.inr ⟨[], s, t, rfl, hf⟩
    · exact Or.inr ⟨s :: front, l, f, rfl, hf⟩
  | joined _ _ hf => exact Or.inr ⟨_, _, _, rfl, hf⟩

/-- A search that accepts factors, and only what ends in one, finds what the search for a factor
finds. -/
theorem cutBefore?_eq_isFactor {accepts : List Lexeme → Bool} (hf : ∀ s, Factor s → accepts s)
    (hlast : ∀ s, accepts s → Factor s ∨ ∃ front l f, s = front ++ l :: f ∧ Factor f)
    (lexemes : List Lexeme) : cutBefore? accepts lexemes = cutBefore? isFactor lexemes := by
  cases h : cutBefore? accepts lexemes with
  | none =>
    refine (List.find?_eq_none.2 fun c hc hfac => ?_).symm
    exact List.find?_eq_none.1 h c hc (hf _ (isFactor_iff.1 hfac))
  | some c =>
    obtain ⟨hmem, ha⟩ := mem_cuts_of_cutBefore? h
    have hfac : Factor c.suffix := by
      rcases hlast _ ha with hfac | ⟨front, l, f, hs, hfac⟩
      · exact hfac
      · exact absurd (hf f hfac) (not_accepts_of_cutBefore? h hs hfac.ne_nil)
    refine (find?_cuts_eq_some hmem (isFactor_iff.2 hfac) fun c' hc' hlt hfac' => ?_).symm
    have hle := length_le_of_find?_cuts h hc' (hf _ (isFactor_iff.1 hfac'))
    omega

theorem cutBefore?_isTerm (lexemes : List Lexeme) :
    cutBefore? isTerm lexemes = cutBefore? isFactor lexemes :=
  cutBefore?_eq_isFactor (fun _ h => isTerm_iff.2 (.factor h)) (fun _ h => (isTerm_iff.1 h).factor_or) lexemes

theorem cutBefore?_isArithmetic_eq (lexemes : List Lexeme) :
    cutBefore? isArithmetic lexemes = cutBefore? isFactor lexemes :=
  cutBefore?_eq_isFactor (fun _ h => isArithmetic_iff.2 (.term (.factor h)))
    (fun _ h => (isArithmetic_iff.1 h).factor_or) lexemes

theorem isFactor_of_cutBefore? {lexemes : List Lexeme} {c : Cut}
    (h : cutBefore? isArithmetic lexemes = some c) : isFactor c.suffix := by
  rw [cutBefore?_isArithmetic_eq] at h
  exact (mem_cuts_of_cutBefore? h).2

theorem cutBefore?_last_factor (front : List Lexeme) (l : Lexeme) {f : List Lexeme}
    (hf : isFactor f) :
    cutBefore? isFactor (front ++ l :: f) = some ⟨front.reverse, l, f⟩ := by
  have hfac := isFactor_iff.1 hf
  refine cutBefore?_append hfac.ne_nil hf ?_
  intro s hs hne hn hs'
  exact hfac.not_nests hs hne hn (isFactor_iff.1 hs').nests

theorem cutBefore?_isArithmetic (front : List Lexeme) (l : Lexeme) {f : List Lexeme}
    (hf : isFactor f) :
    cutBefore? isArithmetic (front ++ l :: f) = some ⟨front.reverse, l, f⟩ :=
  (cutBefore?_isArithmetic_eq _).trans (cutBefore?_last_factor front l hf)

theorem last_factor_unique {front front' f f' : List Lexeme} {l l' : Lexeme} (hf : Factor f)
    (hf' : Factor f') (h : front ++ l :: f = front' ++ l' :: f') : front = front' ∧ l = l' ∧ f = f' := by
  have hcut := cutBefore?_last_factor front l (isFactor_iff.2 hf)
  rw [h, cutBefore?_last_factor front' l' (isFactor_iff.2 hf'), Option.some.injEq, Cut.mk.injEq] at hcut
  exact ⟨List.reverse_injective hcut.1.symm, hcut.2.1.symm, hcut.2.2.symm⟩

theorem Factor.not_factor_append {f : List Lexeme} (h : Factor f) (front : List Lexeme) (l : Lexeme) :
    ¬ Factor (front ++ l :: f) := by
  intro hwhole
  refine hwhole.not_nests ⟨front ++ [l], by simp⟩ ?_ h.ne_nil h.nests
  intro heq
  have hlen := congrArg List.length heq
  simp only [List.length_append, List.length_cons] at hlen
  omega

theorem Term.of_append {front f : List Lexeme} {l : Lexeme} (h : Term (front ++ l :: f))
    (hf : Factor f) : Term front ∧ l.kind.isTermOp := by
  generalize hw : front ++ l :: f = whole at h
  cases h with
  | factor h => exact absurd (hw ▸ h) (hf.not_factor_append front l)
  | joined ht hop hf' =>
    obtain ⟨rfl, rfl, rfl⟩ := last_factor_unique hf hf' hw
    exact ⟨ht, hop⟩

theorem Arithmetic.of_append {front f : List Lexeme} {l : Lexeme} (h : Arithmetic (front ++ l :: f))
    (hf : Factor f) (hop : l.kind.isTermOp) :
    Term front ∨ ∃ s t, front = s :: t ∧ s.kind.isAddOp ∧ Term t := by
  generalize hw : front ++ l :: f = whole at h
  cases h with
  | term h =>
    rw [← hw] at h
    exact Or.inl (h.of_append hf).1
  | @signed s t hs h =>
    cases front with
    | nil =>
      obtain ⟨rfl, -⟩ := List.cons.inj hw
      exact absurd hop (Kind.not_isTermOp_of_isAddOp hs)
    | cons s' t' =>
      obtain ⟨rfl, ht⟩ := List.cons.inj hw
      rw [← ht] at h
      exact Or.inr ⟨s', t', rfl, hs, (h.of_append hf).1⟩
  | joined _ hadd hf' =>
    obtain ⟨rfl, rfl, rfl⟩ := last_factor_unique hf hf' hw
    exact absurd hop (Kind.not_isTermOp_of_isAddOp hadd)

theorem not_arithmetic_of_product {a f g : List Lexeme} {add mult : Lexeme} (ha : a ≠ [])
    (hadd : add.kind.isAddOp) (hf : Factor f) (hmult : mult.kind.isTermOp) (hg : Factor g) :
    ¬ Arithmetic (a ++ add :: (f ++ mult :: g)) := by
  intro h
  have hno : ∀ front, ¬ Term (front ++ add :: f) := fun front hterm =>
    Kind.not_isTermOp_of_isAddOp hadd (hterm.of_append hf).2
  rw [← List.cons_append, ← List.append_assoc] at h
  rcases h.of_append hg hmult with h | ⟨s, t, hst, -, h⟩
  · exact hno a h
  · obtain ⟨x, rest, rfl⟩ := List.exists_cons_of_ne_nil ha
    obtain ⟨-, rfl⟩ := List.cons.inj hst
    exact hno rest h

theorem exists_eq_singleton {shape : List Lexeme → Bool} {lexemes : List Lexeme}
    (h : shape lexemes) (hnil : shape [] = false) (hmore : ∀ l l' ls, shape (l :: l' :: ls) = false) :
    ∃ l, lexemes = [l] := by
  rcases lexemes with _ | ⟨l, _ | ⟨l', ls⟩⟩
  · simp [hnil] at h
  · exact ⟨l, rfl⟩
  · simp [hmore] at h

theorem isRelOp_of_arithmetic {a : List Lexeme} (h : Arithmetic a) :
    ∀ l ∈ a, l.kind.isRelOp = false := by
  intro l hl
  have := h.inArithmetic l hl
  cases hk : l.kind <;> simp_all [Kind.inArithmetic, Kind.isRelOp]

theorem isCondition_iff {lexemes : List Lexeme} :
    isCondition lexemes ↔ isBoolean lexemes ∨ isIdentifier lexemes ∨
      ∃ a op b, lexemes = a ++ op :: b ∧ Arithmetic a ∧ op.kind.isRelOp ∧ Arithmetic b := by
  rw [isCondition, Bool.or_eq_true, Bool.or_eq_true, or_assoc]
  refine or_congr_right (or_congr_right ?_)
  constructor
  · intro h
    split at h
    · simp at h
    · rename_i op b hd
      obtain ⟨ha, hb⟩ := Bool.and_eq_true_iff.1 h
      refine ⟨_, op, b, ?_, isArithmetic_iff.1 ha, ?_, isArithmetic_iff.1 hb⟩
      · rw [← hd, List.takeWhile_append_dropWhile]
      · simpa [hd] using List.head_dropWhile_not (fun l : Lexeme => !l.kind.isRelOp)
          (l := lexemes) (by simp [hd])
  · rintro ⟨a, op, b, rfl, ha, hop, hb⟩
    have hall : ∀ l ∈ a, (!l.kind.isRelOp) = true := by
      intro l hl
      simp [isRelOp_of_arithmetic ha l hl]
    rw [List.dropWhile_append_of_pos hall, List.takeWhile_append_of_pos hall]
    simp [hop, isArithmetic_iff.2 ha, isArithmetic_iff.2 hb]

def Kind.inExpression (k : Kind) : Bool := k.inArithmetic || k.isRelOp

theorem inExpression_of_isFactor {lexemes : List Lexeme} (h : isFactor lexemes) :
    ∀ l ∈ lexemes, l.kind.inExpression := by
  intro l hl
  simp [Kind.inExpression, (isFactor_iff.1 h).inArithmetic l hl]

theorem inExpression_of_isCondition {lexemes : List Lexeme} (h : isCondition lexemes) :
    ∀ l ∈ lexemes, l.kind.inExpression := by
  rcases isCondition_iff.1 h with h | h | ⟨a, op, b, rfl, ha, hop, hb⟩
  · match lexemes, h with
    | [l], h => simp_all [isBoolean, Lexeme.isConstant, Kind.inExpression, Kind.inArithmetic]
  · match lexemes, h with
    | [l], h =>
      simp [Lexeme.kind_of_isIdentifier h, Kind.inExpression, Kind.inArithmetic]
  · intro l hl
    rcases List.mem_append.1 hl with hl | hl
    · simp [Kind.inExpression, ha.inArithmetic l hl]
    · rcases List.mem_cons.1 hl with rfl | hl
      · simp [Kind.inExpression, hop]
      · simp [Kind.inExpression, hb.inArithmetic l hl]

theorem isExpression_iff {lexemes : List Lexeme} :
    isExpression lexemes ↔ isArithmetic lexemes ∨ isCondition lexemes ∨ isString lexemes := by
  simp only [isExpression, Bool.or_eq_true, or_assoc]

theorem inExpression_of_isExpression {lexemes : List Lexeme} (h : isExpression lexemes) :
    ∀ l ∈ lexemes, l.kind.inExpression := by
  rcases isExpression_iff.1 h with h | h | h
  · intro l hl
    simp [Kind.inExpression, (isArithmetic_iff.1 h).inArithmetic l hl]
  · exact inExpression_of_isCondition h
  · match lexemes, h with
    | [l], h => simp_all [isString, Lexeme.isConstant, Kind.inExpression, Kind.inArithmetic]

end RowLang
