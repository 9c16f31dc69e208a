import Mathlib
import RowLang.Proofs.Decimal.Exact
import RowLang.Value

/-! Every value is read back from its text: numbers, the two zeros, infinities and `NaN` included,
strings with or without quotes inside, and booleans. -/

namespace RowLang

namespace Decimal

open Float.Model UnpackedFloat

section
variable {whole part : List Char}

theorem valueOf_eq (digits : List Char) : valueOf digits = Nat.ofDigitChars 10 digits 0 :=
  (Nat.ofDigitChars_eq_foldl ..).symm

theorem valueOf_toDigits (n : Nat) : valueOf (Nat.toDigits 10 n) = n := by
  rw [valueOf_eq, Nat.ofDigitChars_ten_toDigits]

theorem readUnsigned?_whole (hw : ∀ c ∈ whole, c.isDigit) (hne : whole ≠ []) :
    readUnsigned? whole = some ⟨valueOf whole, 0⟩ := by
  rw [readUnsigned?, List.takeWhile_eq_self_iff.2 hw, List.dropWhile_eq_nil_iff.2 hw]
  simp [hne, readExponent?]

theorem readUnsigned?_point (hw : ∀ c ∈ whole, c.isDigit) (hp : ∀ c ∈ part, c.isDigit)
    (hne : whole ≠ []) :
    readUnsigned? (whole ++ '.' :: part) = some ⟨valueOf (whole ++ part), -part.length⟩ := by
  have htake : (whole ++ '.' :: part).takeWhile Char.isDigit = whole := by
    rw [List.takeWhile_append_of_pos hw, List.takeWhile_cons_of_neg (by decide), List.append_nil]
  have hdrop : (whole ++ '.' :: part).dropWhile Char.isDigit = '.' :: part := by
    rw [List.dropWhile_append_of_pos hw, List.dropWhile_cons_of_neg (by decide)]
  rw [readUnsigned?, htake, hdrop]
  simp [List.takeWhile_eq_self_iff.2 hp, List.dropWhile_eq_nil_iff.2 hp, hne, readExponent?]

theorem readUnsigned?_layout (d : Decimal) : readUnsigned? d.layout =
    some (if 0 ≤ d.exponent then ⟨d.digits * 10 ^ d.exponent.toNat, 0⟩ else d) := by
  have hdigits : ∀ c ∈ Nat.toDigits 10 d.digits, c.isDigit := fun c =>
    Nat.isDigit_of_mem_toDigits (by decide) (by decide)
  have hzeros : ∀ n, ∀ c ∈ List.replicate n '0', c.isDigit := by
    intro n c hc
    rw [List.eq_of_mem_replicate hc]
    decide
  have hne : Nat.toDigits 10 d.digits ≠ [] := Nat.toDigits_ne_nil
  unfold layout
  split
  · rename_i he
    rw [readUnsigned?_whole (List.forall_mem_append.2 ⟨hdigits, hzeros _⟩) (by simp), valueOf_eq,
      Nat.ofDigitChars_append, Nat.ofDigitChars_ten_toDigits, Nat.ofDigitChars_replicate_zero,
      Nat.mul_comm]
  · rename_i he
    have hlen : 0 < (Nat.toDigits 10 d.digits).length := List.length_pos_iff.2 hne
    dsimp only
    split
    · rename_i hplaces
      have hwhole : (Nat.toDigits 10 d.digits).take
          ((Nat.toDigits 10 d.digits).length - d.exponent.natAbs) ≠ [] := by
        rw [← List.length_pos_iff, List.length_take]
        omega
      rw [readUnsigned?_point (fun c hc => hdigits c (List.mem_of_mem_take hc))
        (fun c hc => hdigits c (List.mem_of_mem_drop hc)) hwhole, List.take_append_drop,
        valueOf_toDigits, List.length_drop]
      congr
      omega
    · rename_i hplaces
      have hpart : ∀ c ∈ List.replicate (d.exponent.natAbs - (Nat.toDigits 10 d.digits).length) '0' ++
          Nat.toDigits 10 d.digits, c.isDigit := List.forall_mem_append.2 ⟨hzeros _, hdigits⟩
      have hzero : ∀ c ∈ ['0'], c.isDigit := List.forall_mem_singleton.2 (by decide)
      refine (readUnsigned?_point hzero hpart (by simp)).trans ?_
      congr
      · rw [← List.append_assoc, valueOf_eq, Nat.ofDigitChars_append, ← List.replicate_one,
          List.replicate_append_replicate, Nat.ofDigitChars_replicate_zero, Nat.mul_zero,
          Nat.ofDigitChars_ten_toDigits]
      · rw [List.length_append, List.length_replicate]
        omega

end

section
variable {x : Float} {d : Decimal}

theorem toLower_of_isDigit {c : Char} (h : c.isDigit) : c.toLower = c := by
  simp only [Char.isDigit, Bool.and_eq_true, decide_eq_true_eq] at h
  unfold Char.toLower
  split
  · rename_i hupper
    have hle : 'A'.val ≤ 57 := UInt32.le_trans hupper.1 h.2
    exact absurd hle (by decide)
  · rfl

theorem layout_head (d : Decimal) : ∃ c s, d.layout = c :: s ∧ c.isDigit := by
  have hne : Nat.toDigits 10 d.digits ≠ [] := Nat.toDigits_ne_nil
  obtain ⟨c, s, hc⟩ := List.exists_cons_of_ne_nil hne
  have hdigit : c.isDigit :=
    Nat.isDigit_of_mem_toDigits (by decide) (by decide) (show c ∈ Nat.toDigits 10 d.digits by simp [hc])
  unfold layout
  simp only [hc]
  split
  · exact ⟨c, _, List.cons_append, hdigit⟩
  · split
    · rename_i hlt
      obtain ⟨k, hk⟩ : ∃ k, (c :: s).length - d.exponent.natAbs = k + 1 :=
        ⟨(c :: s).length - d.exponent.natAbs - 1, by omega⟩
      rw [hk]
      exact ⟨c, _, rfl, hdigit⟩
    · exact ⟨'0', _, rfl, by decide⟩

theorem toFloat_mul (he : 0 ≤ d.exponent) (hfinite : stored d.toFloat < 2047) :
    toFloat ⟨d.digits * 10 ^ d.exponent.toNat, 0⟩ = d.toFloat := by
  unfold toFloat Float.Model.ofScientific
  by_cases h0 : d.digits = 0
  · simp [h0, ofScientific_zero]
  · by_cases hle : d.exponent ≤ 2 ^ 11
    · rw [ofScientific_mul (Nat.pos_of_ne_zero h0) he hle]
    · exfalso
      have hinf : d.toFloat = Float.ofModel (Float.Model.pack (.infinity .positive)) := by
        unfold toFloat Float.Model.ofScientific
        rw [UnpackedFloat.ofScientific, dif_neg h0, if_pos (not_le.1 hle)]
      rw [hinf] at hfinite
      revert hfinite
      decide

theorem toFloat_shortest (hfinite : stored x < 2047) (hsign : signOf x = .positive) :
    (shortest x).toFloat = x := by
  simp only [shortest]
  cases hfound : (List.range 17).findSome? fun k => cut? x (exact x) ((exact x).length - (k + 1)) with
  | none => exact toFloat_exact hfinite hsign
  | some d =>
    obtain ⟨k, -, hk⟩ := List.exists_of_findSome?_eq_some hfound
    exact eq_of_readsBack (readsBack_of_cut? hk)

def unsignedText (x : Float) : List Char :=
  if x.isInf then "inf".toList else (shortest x).layout

theorem unsignedText_head (x : Float) :
    ∃ c s, unsignedText x = c :: s ∧ (c.isDigit ∨ c = 'i') := by
  unfold unsignedText
  split
  · exact ⟨'i', _, rfl, Or.inr rfl⟩
  · obtain ⟨c, s, hlayout, hdigit⟩ := layout_head (shortest x)
    exact ⟨c, s, hlayout, Or.inl hdigit⟩

theorem readMagnitude?_unsignedText (hx : ¬ x.isNaN) (hsign : signOf x = .positive) :
    readMagnitude? (unsignedText x) = some x := by
  unfold unsignedText
  split
  · rename_i hinf
    obtain ⟨hstored, hfraction⟩ := isInf_iff.1 hinf
    have hone : x = 1.0 / 0.0 := by
      refine eq_of_toBits_toNat ?_
      rw [toNat_toBits, hsign, hstored, hfraction]
      decide +kernel
    rw [hone]
    decide +kernel
  · rename_i hinf
    have hfinite : stored x < 2047 := by
      have hlt := stored_lt x
      rw [isNaN_iff] at hx
      rw [isInf_iff] at hinf
      omega
    obtain ⟨c, s, hlayout, hdigit⟩ := layout_head (shortest x)
    have hword : ∀ word : String, ¬ word.toList.head?.any Char.isDigit →
        String.ofList ((shortest x).layout.map Char.toLower) ≠ word := by
      rintro word hw rfl
      simp [hlayout, toLower_of_isDigit hdigit, hdigit] at hw
    have hshortest := toFloat_shortest hfinite hsign
    rw [readMagnitude?, if_neg (not_or.2 ⟨hword _ (by decide), hword _ (by decide)⟩),
      if_neg (hword _ (by decide)), readUnsigned?_layout, Option.map_some]
    split
    · rename_i he
      rw [toFloat_mul he (by rwa [hshortest]), hshortest]
    · rw [hshortest]

theorem read?_text (x : Float) : read? (text x).toList = some x := by
  unfold text
  split
  · rename_i hnan
    have hread : read? "NaN".toList = some (0.0 / 0.0) := by decide +kernel
    rw [hread, eq_of_isNaN hnan (y := 0.0 / 0.0) (by decide +kernel)]
  · rename_i hnan
    simp only [String.toList_ofList]
    cases hneg : isNegative x with
    | true =>
      have hsign : signOf (-x) = .positive := by
        rw [(fields_neg hnan).1, signOf, hneg]
        rfl
      have hnan' : ¬ (-x).isNaN := by
        obtain ⟨-, hstored, hfraction⟩ := fields_neg hnan
        rw [isNaN_iff, hstored, hfraction, ← isNaN_iff]
        exact hnan
      have hread := readMagnitude?_unsignedText hnan' hsign
      simp only [if_true, read?, splitSign]
      change ((readMagnitude? (unsignedText (-x))).map fun y => -y) = some x
      rw [hread, Option.map_some, neg_neg_of_not_isNaN hnan]
    | false =>
      have hsign : signOf x = .positive := by
        rw [signOf, hneg]
        rfl
      have hread := readMagnitude?_unsignedText hnan hsign
      obtain ⟨c, s, htext, hc⟩ := unsignedText_head x
      have hminus : c ≠ '-' := by
        rintro rfl
        simp at hc
      have hplus : c ≠ '+' := by
        rintro rfl
        simp at hc
      change read? (unsignedText x) = some x
      rw [htext] at hread ⊢
      simp [read?, splitSign, hminus, hplus, hread]

theorem text_head (x : Float) :
    ∃ c s, (text x).toList = c :: s ∧ c ≠ 't' ∧ c ≠ 'f' ∧ c ≠ '\'' := by
  unfold text
  split
  · exact ⟨'N', _, rfl, by decide⟩
  · simp only [String.toList_ofList]
    cases isNegative x with
    | true => exact ⟨'-', _, rfl, by decide⟩
    | false =>
      obtain ⟨c, s, htext, hc⟩ := unsignedText_head x
      refine ⟨c, s, htext, ?_, ?_, ?_⟩ <;>
      · rintro rfl
        simp at hc

end

end Decimal

namespace Literal

theorem read?_text (v : Literal) : read? v.text = some v := by
  cases v with
  | number x =>
    obtain ⟨c, s, htext, htrue, hfalse, hquote⟩ := Decimal.text_head x
    have hword : ∀ word : String, word.toList.head? ≠ some c → Decimal.text x ≠ word := by
      rintro word hw rfl
      simp [htext] at hw
    have hunquote : unquote? (Decimal.text x).toList = none := by
      rw [htext]
      simp [unquote?, hquote]
    rw [text, read?, if_neg (hword "true" (by simpa using htrue.symm)),
      if_neg (hword "false" (by simpa using hfalse.symm)), hunquote]
    simp [Decimal.read?_text]
  | string s =>
    have hlist : ("'" ++ s ++ "'").toList = '\'' :: (s.toList ++ ['\'']) := by simp
    have hword : ∀ word : String, word.toList.head? ≠ some '\'' → "'" ++ s ++ "'" ≠ word := by
      rintro word hw rfl
      simp [hlist] at hw
    have hunquote : unquote? ('\'' :: (s.toList ++ ['\''])) = some s.toList := by simp [unquote?]
    rw [text, read?, if_neg (hword "true" (by simp)), if_neg (hword "false" (by simp)), hlist, hunquote]
    simp
  | boolean b => cases b <;> rfl

end Literal
end RowLang
