import Mathlib
import RowLang.Proofs.Expr.Language

/-! The recognizers of expressions by positions. Here lists are indexed and sliced at positions that
are computed, and what a list does not have is an error. No recognizer makes one, on any lexemes: each
length that is tested, and each place where a search stops, puts the next positions within the list. -/

namespace RowLang

inductive OutOfRange where
  | index (index length : Nat)
  | range (start stop length : Nat)
deriving DecidableEq, Repr

namespace Ranged
variable {α β : Type}

def get (xs : List α) (index : Nat) : Except OutOfRange {x : α // xs[index]? = some x} :=
  if h : index < xs.length then .ok ⟨xs[index], List.getElem?_eq_getElem h⟩
  else .error (.index index xs.length)

def slice (xs : List α) (start stop : Nat) :
    Except OutOfRange {part : List α // part.length + start = stop ∧ stop ≤ xs.length} :=
  if h : start ≤ stop ∧ stop ≤ xs.length then
    .ok ⟨(xs.take stop).drop start, by simp only [List.length_drop, List.length_take]; omega⟩
  else .error (.range start stop xs.length)

section
variable {xs : List α} {index : Nat}

theorem suffix_lt (suffix : {part : List α // part.length + (index + 1) = xs.length ∧
    xs.length ≤ xs.length}) : suffix.1.length < xs.length := by
  have hsuffix := suffix.2
  omega

theorem before_lt (pivot : {x : α // xs[index]? = some x})
    (before : {part : List α // part.length + 0 = index ∧ index ≤ xs.length}) :
    before.1.length < xs.length := by
  have hindex := (List.getElem?_eq_some_iff.1 pivot.2).1
  have hbefore := before.2
  omega

end

abbrev Shorter (ls : List Lexeme) : Type := {s : List Lexeme // s.length < ls.length}

/-- Tries the suffixes that start at a position and at those before it, but never the whole list, and
answers the position before the first suffix that is accepted. -/
def seek (ls : List Lexeme) (accepts : Shorter ls → Except OutOfRange Bool) :
    Nat → Except OutOfRange (Option Nat)
  | 0 => pure none
  | start + 1 => do
    let suffix ← slice ls (start + 1) ls.length
    if ← accepts ⟨suffix.1, suffix_lt suffix⟩ then pure (some start)
    else seek ls accepts start

/-- Two operands around a sign: the right one is the shortest suffix that is accepted, and the sign has
to stand right before it. -/
def joins (ls : List Lexeme) (accepts : Shorter ls → Except OutOfRange Bool) (sign : Kind → Bool)
    (left : Shorter ls → Except OutOfRange Bool) : Except OutOfRange Bool := do
  if ls.length < 3 then pure false
  else
    match ← seek ls accepts (ls.length - 1) with
    | none => pure false
    | some index =>
      let pivot ← get ls index
      if sign pivot.1.kind then
        let before ← slice ls 0 index
        left ⟨before.1, before_lt pivot before⟩
      else pure false

def unsigned (ls : List Lexeme) :
    Except OutOfRange {rest : List Lexeme // rest.length ≤ ls.length} := do
  let first ← get ls 0
  if 1 < ls.length ∧ first.1.kind.isAddOp then
    let rest ← slice ls 1 ls.length
    pure ⟨rest.1, by have := rest.2; omega⟩
  else pure ⟨ls, le_rfl⟩

mutual

def isFactor (ls : List Lexeme) : Except OutOfRange Bool := do
  if isIdentifier ls || isUnsignedNumber ls then pure true
  else if ls.length < 3 then pure false
  else
    let first ← get ls 0
    let last ← get ls (ls.length - 1)
    if first.1.kind = .bracket .opening ∧ last.1.kind = .bracket .closing then
      let inner ← slice ls 1 (ls.length - 1)
      isArithmetic inner.1
    else pure false
termination_by 3 * ls.length
decreasing_by
  have := inner.2
  omega

def isTerm (ls : List Lexeme) : Except OutOfRange Bool := do
  if ← isFactor ls then pure true
  else joins ls (fun suffix => isFactor suffix.1) Kind.isTermOp fun before => isTerm before.1
termination_by 3 * ls.length + 1
decreasing_by
  · omega
  · have := suffix.2
    omega
  · have := before.2
    omega

def isArithmetic (ls : List Lexeme) : Except OutOfRange Bool := do
  if ls = [] then pure false
  else
    let term ← unsigned ls
    if ← isTerm term.1 then pure true
    else joins ls (fun suffix => isTerm suffix.1) Kind.isAddOp fun before => isArithmetic before.1
termination_by 3 * ls.length + 2
decreasing_by
  · have := term.2
    omega
  · have := suffix.2
    omega
  · have := before.2
    omega

end

def isCondition (ls : List Lexeme) : Except OutOfRange Bool := do
  if isBoolean ls || isIdentifier ls then pure true
  else if ls.length < 3 then pure false
  else
    match ls.findIdx? fun l => l.kind.isRelOp with
    | none => pure false
    | some index =>
      let left ← slice ls 0 index
      if ← isArithmetic left.1 then
        let right ← slice ls (index + 1) ls.length
        isArithmetic right.1
      else pure false

def isExpression (ls : List Lexeme) : Except OutOfRange Bool := do
  if ← isArithmetic ls then pure true
  else if ← isCondition ls then pure true
  else pure (isString ls)

section
variable {xs : List α}

theorem pure_eq_ok (a : α) : (pure a : Except OutOfRange α) = .ok a := rfl

theorem ok_bind (a : α) (f : α → Except OutOfRange β) : (Except.ok a >>= f) = f a := rfl

theorem get_eq_ok {i : Nat} {x : α} (h : xs[i]? = some x) : get xs i = .ok ⟨x, h⟩ := by
  obtain ⟨hlt, rfl⟩ := List.getElem?_eq_some_iff.1 h
  rw [get, dif_pos hlt]

theorem slice_eq_ok (front part back : List α) {start stop : Nat}
    (h : front ++ (part ++ back) = xs) (hs : front.length = start)
    (hp : part.length + start = stop) :
    slice xs start stop = .ok ⟨part, hp, by
      rw [← h, List.length_append, List.length_append]
      omega⟩ := by
  subst h hs hp
  rw [slice, dif_pos (by simp only [List.length_append]; omega)]
  congr 2
  rw [← List.append_assoc, List.take_left' (by simp; omega), List.drop_left]

end

section
variable {ls : List Lexeme}

section
variable {c : Cut} (hc : c ∈ cuts ls)
include hc

theorem getElem?_position : ls[c.position]? = some c.pivot := by
  simp [← append_of_mem_cuts hc, Cut.position, Cut.before]

theorem length_parts :
    c.before.length + 0 = c.position ∧ c.suffix.length + (c.position + 1) = ls.length := by
  have hlen := length_of_mem_cuts hc
  have hbefore : c.before.length = c.position := List.length_reverse
  omega

theorem slice_before : slice ls 0 c.position =
    .ok ⟨c.before, (length_parts hc).1, by have := length_parts hc; omega⟩ :=
  slice_eq_ok [] c.before (c.pivot :: c.suffix) (append_of_mem_cuts hc) rfl (length_parts hc).1

theorem slice_through : slice ls 0 (c.position + 1) = .ok ⟨c.before ++ [c.pivot],
    by simp [← (length_parts hc).1], by have := length_parts hc; omega⟩ :=
  slice_eq_ok [] (c.before ++ [c.pivot]) c.suffix (by simp [append_of_mem_cuts hc]) rfl
    (by simp [← (length_parts hc).1])

theorem slice_suffix : slice ls (c.position + 1) ls.length =
    .ok ⟨c.suffix, (length_parts hc).2, le_rfl⟩ :=
  slice_eq_ok (c.before ++ [c.pivot]) c.suffix [] (by simp [← append_of_mem_cuts hc])
    (by simp [← (length_parts hc).1]) (length_parts hc).2

end

section
variable {n : Nat}

theorem slice_drop (hn : n ≤ ls.length) : slice ls n ls.length =
    .ok ⟨ls.drop n, List.length_drop ▸ Nat.sub_add_cancel hn, le_rfl⟩ :=
  slice_eq_ok (ls.take n) (ls.drop n) [] (by simp) (List.length_take_of_le hn)
    (List.length_drop ▸ Nat.sub_add_cancel hn)

theorem cutsFrom_take_succ (hn : n < ls.length) :
    cutsFrom (ls.take (n + 1)).reverse (ls.drop (n + 1)) =
      ⟨(ls.take n).reverse, ls[n], ls.drop (n + 1)⟩ :: cutsFrom (ls.take n).reverse (ls.drop n) := by
  rw [List.take_succ_eq_append_getElem hn, List.reverse_append, List.reverse_singleton,
    List.singleton_append, cutsFrom, List.getElem_cons_drop]

theorem cuts_eq_cutsFrom :
    cuts ls = cutsFrom (ls.take (ls.length - 1)).reverse (ls.drop (ls.length - 1)) := by
  obtain rfl | ⟨init, last, rfl⟩ := List.eq_nil_or_concat ls
  · rfl
  · simp [cuts]

end

section
variable {accepts : Shorter ls → Except OutOfRange Bool} {p : List Lexeme → Bool}
  (h : ∀ suffix, accepts suffix = .ok (p suffix.1))
include h

theorem seek_eq_ok {n : Nat} (hn : n ≤ ls.length) :
    seek ls accepts n = .ok (((cutsFrom (ls.take n).reverse (ls.drop n)).find? fun c =>
      p c.suffix).map Cut.position) := by
  induction n with
  | zero => simp [seek, cutsFrom, pure_eq_ok]
  | succ n ih =>
    rw [seek, slice_drop hn, ok_bind, h, ok_bind, cutsFrom_take_succ hn, List.find?_cons]
    cases p (ls.drop (n + 1)) with
    | true => simp [pure_eq_ok, Cut.position, Nat.le_of_succ_le hn]
    | false => exact ih (Nat.le_of_succ_le hn)

theorem seek_eq_cutBefore? :
    seek ls accepts (ls.length - 1) = .ok ((cutBefore? p ls).map Cut.position) := by
  rw [seek_eq_ok h (Nat.sub_le ..), cutBefore?, cuts_eq_cutsFrom]

theorem joins_eq_ok {sign : Kind → Bool} {left : Shorter ls → Except OutOfRange Bool}
    {q : List Lexeme → Bool} (hl : ∀ before, left before = .ok (q before.1)) (hq : ¬ q []) :
    joins ls accepts sign left =
      .ok ((cutBefore? p ls).any fun c => sign c.pivot.kind && q c.before) := by
  rw [joins, seek_eq_cutBefore? h, ok_bind]
  cases hcut : cutBefore? p ls with
  | none => simp [pure_eq_ok]
  | some c =>
    have hmem := (mem_cuts_of_cutBefore? hcut).1
    have hn := (mem_cuts_iff.1 hmem).2
    rw [Option.any_some]
    by_cases hlen : ls.length < 3
    · -- nothing is left before the cut
      have hsuffix := List.length_pos_iff.2 hn
      have hcuts := length_of_mem_cuts hmem
      have hbefore : c.before = [] := List.length_eq_zero_iff.1 (by omega)
      simp [hlen, pure_eq_ok, hbefore, hq]
    · rw [if_neg hlen, Option.map_some]
      simp only [get_eq_ok (getElem?_position hmem), ok_bind, slice_before hmem, hl]
      cases sign c.pivot.kind <;> rfl

end

theorem any_unbracket? {o c : Lexeme} {inner : List Lexeme} :
    (unbracket? (o :: (inner ++ [c]))).any RowLang.isArithmetic =
      (decide (o.kind = .bracket .opening ∧ c.kind = .bracket .closing) &&
        RowLang.isArithmetic inner) := by
  rw [Bool.eq_iff_iff, Bool.and_eq_true, decide_eq_true_iff, Option.any_eq_true]
  constructor
  · rintro ⟨inside, hu, hi⟩
    obtain ⟨o', c', ho, hc, heq⟩ := eq_group_of_unbracket? hu
    obtain ⟨rfl, hrest⟩ := List.cons.inj heq
    obtain ⟨rfl, hlast⟩ := List.append_inj' hrest rfl
    obtain rfl := List.singleton_inj.1 hlast
    exact ⟨⟨ho, hc⟩, hi⟩
  · rintro ⟨⟨ho, hc⟩, hi⟩
    exact ⟨inner, unbracket?_group ho hc (isArithmetic_iff.1 hi).nests, hi⟩

theorem not_isTerm_nil : ¬ RowLang.isTerm [] := fun h => (isTerm_iff.1 h).ne_nil rfl

theorem not_isArithmetic_nil : ¬ RowLang.isArithmetic [] := fun h => (isArithmetic_iff.1 h).ne_nil rfl

theorem exists_ends (h : 2 ≤ ls.length) : ∃ first inner last, ls = first :: (inner ++ [last]) := by
  obtain ⟨first, rest, rfl⟩ := List.exists_cons_of_length_pos (by omega : 0 < ls.length)
  obtain rfl | ⟨inner, last, rfl⟩ := List.eq_nil_or_concat rest
  · simp at h
  · exact ⟨first, inner, last, by simp⟩

theorem isFactor_eq_ok
    (ha : ∀ s : List Lexeme, s.length < ls.length → isArithmetic s = .ok (RowLang.isArithmetic s)) :
    isFactor ls = .ok (RowLang.isFactor ls) := by
  rw [isFactor, RowLang.isFactor_eq]
  by_cases hsingle : isIdentifier ls || isUnsignedNumber ls
  · rw [if_pos hsingle, hsingle, Bool.true_or, pure_eq_ok]
  · rw [if_neg hsingle, Bool.eq_false_iff.2 hsingle, Bool.false_or]
    by_cases hlen : ls.length < 2
    · -- there is no room for two brackets
      have hnone : unbracket? ls = none := by
        by_contra hu
        obtain ⟨inner, hu⟩ := Option.ne_none_iff_exists'.1 hu
        obtain ⟨o, c, -, -, rfl⟩ := eq_group_of_unbracket? hu
        simp at hlen
      rw [if_pos (by omega), hnone]
      rfl
    · obtain ⟨o, inner, c, rfl⟩ := exists_ends (not_lt.1 hlen)
      rw [any_unbracket?]
      by_cases hinner : inner = []
      · simp [hinner, pure_eq_ok, not_isArithmetic_nil]
      · have hpos := List.length_pos_iff.2 hinner
        have hlast : (o :: (inner ++ [c]))[(o :: (inner ++ [c])).length - 1]? = some c := by simp
        have hslice : slice (o :: (inner ++ [c])) 1 ((o :: (inner ++ [c])).length - 1) = _ :=
          slice_eq_ok [o] inner [c] rfl rfl (by simp)
        rw [if_neg (by simp; omega), get_eq_ok rfl, ok_bind, get_eq_ok hlast, ok_bind]
        split
        · rename_i hb
          rw [hslice, ok_bind, ha inner (by simp), decide_eq_true hb, Bool.true_and]
        · rename_i hb
          rw [decide_eq_false hb, Bool.false_and, pure_eq_ok]

theorem isTerm_eq_ok
    (hf : ∀ s : List Lexeme, s.length ≤ ls.length → isFactor s = .ok (RowLang.isFactor s))
    (ht : ∀ s : List Lexeme, s.length < ls.length → isTerm s = .ok (RowLang.isTerm s)) :
    isTerm ls = .ok (RowLang.isTerm ls) := by
  rw [isTerm, hf ls le_rfl, ok_bind, RowLang.isTerm_eq,
    joins_eq_ok (fun suffix => hf suffix.1 suffix.2.le) (fun before => ht before.1 before.2)
      not_isTerm_nil]
  cases RowLang.isFactor ls <;> rfl

theorem exists_unsigned (l : Lexeme) (rest : List Lexeme) :
    ∃ term, unsigned (l :: rest) = .ok term ∧ RowLang.isTerm term.1 =
      if l.kind.isAddOp then RowLang.isTerm rest else RowLang.isTerm (l :: rest) := by
  rw [unsigned, get_eq_ok rfl, ok_bind]
  by_cases hsign : l.kind.isAddOp
  · rw [if_pos hsign]
    cases rest with
    | nil =>
      -- a sign alone is no term, whether it is taken off or not
      have hl : ¬ RowLang.isTerm [l] := fun h => by
        simp [(isTerm_iff.1 h).isAddOp_head rfl] at hsign
      exact ⟨⟨[l], le_rfl⟩, by simp [pure_eq_ok], by simp [hl, not_isTerm_nil]⟩
    | cons l' rest =>
      rw [if_pos ⟨by simp, hsign⟩, slice_drop (by simp)]
      exact ⟨⟨l' :: rest, by simp⟩, rfl, rfl⟩
  · rw [if_neg fun h => hsign h.2, if_neg hsign]
    exact ⟨⟨l :: rest, le_rfl⟩, rfl, rfl⟩

theorem isArithmetic_eq_ok
    (ht : ∀ s : List Lexeme, s.length ≤ ls.length → isTerm s = .ok (RowLang.isTerm s))
    (ha : ∀ s : List Lexeme, s.length < ls.length → isArithmetic s = .ok (RowLang.isArithmetic s)) :
    isArithmetic ls = .ok (RowLang.isArithmetic ls) := by
  rw [isArithmetic, RowLang.isArithmetic_eq,
    joins_eq_ok (fun suffix => ht suffix.1 suffix.2.le) (fun before => ha before.1 before.2)
      not_isArithmetic_nil]
  cases ls with
  | nil => rfl
  | cons l rest =>
    obtain ⟨term, hunsigned, hterm⟩ := exists_unsigned l rest
    rw [if_neg (by simp), hunsigned, ok_bind, ht term.1 term.2, ok_bind, hterm]
    simp only
    cases (if l.kind.isAddOp then RowLang.isTerm rest else RowLang.isTerm (l :: rest)) <;> rfl

end

theorem recognizers_eq_ok (ls : List Lexeme) :
    isFactor ls = .ok (RowLang.isFactor ls) ∧ isTerm ls = .ok (RowLang.isTerm ls) ∧
      isArithmetic ls = .ok (RowLang.isArithmetic ls) := by
  induction hn : ls.length using Nat.strong_induction_on generalizing ls with
  | _ n ih =>
    subst hn
    have hf : ∀ s : List Lexeme, s.length ≤ ls.length → isFactor s = .ok (RowLang.isFactor s) :=
      fun s hs => isFactor_eq_ok fun r hr => (ih r.length (by omega) r rfl).2.2
    have ht : ∀ s : List Lexeme, s.length ≤ ls.length → isTerm s = .ok (RowLang.isTerm s) := by
      intro s hs
      rcases hs.lt_or_eq with hlt | heq
      · exact (ih s.length hlt s rfl).2.1
      · exact isTerm_eq_ok (fun r hr => hf r (hr.trans hs))
          fun r hr => (ih r.length (by omega) r rfl).2.1
    exact ⟨hf ls le_rfl, ht ls le_rfl, isArithmetic_eq_ok ht fun r hr => (ih r.length hr r rfl).2.2⟩

theorem findIdx?_isRelOp (ls : List Lexeme) :
    (∃ left sign right, ls = left ++ sign :: right ∧
      (ls.takeWhile fun l => !l.kind.isRelOp) = left ∧
      (ls.dropWhile fun l => !l.kind.isRelOp) = sign :: right ∧
      (ls.findIdx? fun l => l.kind.isRelOp) = some left.length) ∨
    (ls.dropWhile fun l => !l.kind.isRelOp) = [] ∧ (ls.findIdx? fun l => l.kind.isRelOp) = none := by
  have happ := List.takeWhile_append_dropWhile (p := fun l : Lexeme => !l.kind.isRelOp) (l := ls)
  have hleft : (ls.takeWhile fun l => !l.kind.isRelOp).findIdx? (fun l => l.kind.isRelOp) = none :=
    List.findIdx?_eq_none_iff.2 fun l hl => by simpa using List.mem_takeWhile_imp hl
  cases hdrop : ls.dropWhile fun l => !l.kind.isRelOp with
  | nil =>
    rw [hdrop, List.append_nil] at happ
    rw [happ] at hleft
    exact Or.inr ⟨rfl, hleft⟩
  | cons sign right =>
    have hsign : sign.kind.isRelOp := by
      have := List.head?_dropWhile_not (fun l : Lexeme => !l.kind.isRelOp) ls
      simpa [hdrop] using this
    rw [hdrop] at happ
    refine Or.inl ⟨_, sign, right, happ.symm, rfl, rfl, ?_⟩
    rw [← happ, List.findIdx?_append, happ, hleft]
    simp [List.findIdx?_cons, hsign]

theorem isCondition_eq_ok (ls : List Lexeme) : isCondition ls = .ok (RowLang.isCondition ls) := by
  have ha := fun s : List Lexeme => (recognizers_eq_ok s).2.2
  rw [isCondition, RowLang.isCondition]
  by_cases hsingle : isBoolean ls || isIdentifier ls
  · rw [if_pos hsingle, hsingle, Bool.true_or, pure_eq_ok]
  · rw [if_neg hsingle, Bool.eq_false_iff.2 hsingle, Bool.false_or]
    rcases findIdx?_isRelOp ls with ⟨left, sign, right, hls, htake, hdrop, hfind⟩ | ⟨hdrop, hfind⟩
    · rw [htake, hdrop, hfind]
      by_cases hlen : ls.length < 3
      · -- one side is empty
        have hsides : left = [] ∨ right = [] := by
          rw [hls, List.length_append, List.length_cons] at hlen
          rw [← List.length_eq_zero_iff, ← List.length_eq_zero_iff]
          omega
        rcases hsides with rfl | rfl <;> simp [hlen, pure_eq_ok, not_isArithmetic_nil]
      · have hl : slice ls 0 left.length = _ :=
          slice_eq_ok [] left (sign :: right) hls.symm rfl rfl
        have hr : slice ls (left.length + 1) ls.length = _ :=
          slice_eq_ok (left ++ [sign]) right [] (by simp [hls]) (by simp) (by simp [hls]; omega)
        simp only [hl, ok_bind, ha, hr]
        rw [if_neg hlen]
        cases RowLang.isArithmetic left <;> rfl
    · rw [hdrop, hfind]
      simp [pure_eq_ok]

theorem isExpression_eq_ok (ls : List Lexeme) : isExpression ls = .ok (RowLang.isExpression ls) := by
  rw [isExpression, (recognizers_eq_ok ls).2.2, ok_bind, isCondition_eq_ok, ok_bind,
    RowLang.isExpression]
  cases RowLang.isArithmetic ls <;> cases RowLang.isCondition ls <;> rfl

end Ranged
end RowLang
