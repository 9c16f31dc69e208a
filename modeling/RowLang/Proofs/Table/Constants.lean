import Mathlib
import RowLang.Proofs.Decimal.RoundTrip
import RowLang.Table.Constants

/-! The table of constants. A constant is found under its text, and every text in the table reads as the
value beside it, whether it was met in a source or made from the value. So a value that is interned is
what its position holds, whatever was interned before. -/

namespace RowLang

theorem getElem?_of_prefix {α : Type} {xs ys : List α} {i : Nat} {x : α} (h : xs <+: ys)
    (hx : xs[i]? = some x) : ys[i]? = some x := by
  obtain ⟨zs, rfl⟩ := h
  rw [List.getElem?_append_left (List.getElem?_eq_some_iff.1 hx).1, hx]

namespace Constants

def Sound (t : Constants) : Prop := ∀ c ∈ t.entries, Literal.read? c.text = some c.value

inductive Built : Constants → Prop
  | empty : Built .empty
  | internText {t : Constants} (h : Built t) (text : String) : Built (t.internText text).1
  | intern {t : Constants} (h : Built t) (v : Literal) : Built (t.intern v).1
  | truncate {t : Constants} (h : Built t) (n : Nat) : Built (t.truncate n)

variable {t : Constants} {text : String} {value : Literal}

theorem get?_of_indexOf? {i : Nat} (h : t.indexOf? text = some i) :
    ∃ c, t.get? i = some c ∧ c.text = text := by
  obtain ⟨hi, hc, -⟩ := List.findIdx?_eq_some_iff_getElem.1 h
  exact ⟨_, List.getElem?_eq_getElem hi, by simpa using hc⟩

theorem prefix_insert (t : Constants) (text : String) (value : Literal) :
    t.entries <+: (t.insert text value).1.entries := by
  unfold insert
  split
  · exact List.prefix_refl _
  · exact List.prefix_append ..

theorem get?_insert (t : Constants) (text : String) (value : Literal) :
    ∃ c, (t.insert text value).1.get? (t.insert text value).2 = some c ∧ c.text = text := by
  unfold insert
  split
  · rename_i i hi
    exact get?_of_indexOf? hi
  · exact ⟨⟨text, value, t.size⟩, by simp [get?, size], rfl⟩

theorem indexOf?_insert (t : Constants) (text : String) (value : Literal) :
    (t.insert text value).1.indexOf? text = some (t.insert text value).2 := by
  unfold insert
  cases h : t.indexOf? text with
  | some i => exact h
  | none =>
    have h' : t.entries.findIdx? (fun c => c.text == text) = none := h
    simp [indexOf?, List.findIdx?_append, h', size]

theorem insert_insert (t : Constants) (text : String) (value : Literal) :
    (t.insert text value).1.insert text value = t.insert text value := by
  rw [insert, indexOf?_insert]

theorem Sound.insert (h : t.Sound) (hv : Literal.read? text = some value) :
    (t.insert text value).1.Sound := by
  unfold Constants.insert
  split
  · exact h
  · intro c hc
    rcases List.mem_append.1 hc with hc | hc
    · exact h c hc
    · rw [List.mem_singleton.1 hc]
      exact hv

theorem internText_of_read? (hv : Literal.read? text = some value) :
    t.internText text = ((t.insert text value).1, some (t.insert text value).2) := by
  unfold internText insert
  cases t.indexOf? text <;> simp [hv]

theorem Sound.internText (h : t.Sound) : (t.internText text).1.Sound := by
  unfold Constants.internText
  split
  · exact h
  · split
    · exact h
    · rename_i value hv
      exact h.insert hv

theorem Sound.intern (h : t.Sound) (v : Literal) : (t.intern v).1.Sound :=
  h.insert v.read?_text

theorem Sound.truncate (h : t.Sound) (n : Nat) : (t.truncate n).Sound :=
  fun c hc => h c (List.mem_of_mem_take hc)

theorem Sound.isSome_internText (h : t.Sound) :
    (t.internText text).2.isSome = (Literal.read? text).isSome := by
  unfold Constants.internText
  split
  · rename_i i hi
    obtain ⟨c, hc, rfl⟩ := get?_of_indexOf? hi
    rw [h c (List.mem_of_getElem? hc)]
    rfl
  · split <;> simp_all

theorem Built.sound (h : t.Built) : t.Sound := by
  induction h with
  | empty => simp [Sound, Constants.empty]
  | internText _ text ih => exact ih.internText
  | intern _ v ih => exact ih.intern v
  | truncate _ n ih => exact ih.truncate n

theorem Sound.get?_intern (h : t.Sound) (v : Literal) :
    ∃ c, (t.intern v).1.get? (t.intern v).2 = some c ∧ c.value = v := by
  obtain ⟨c, hc, htext⟩ := t.get?_insert v.text v
  have hread := h.intern v c (List.mem_of_getElem? hc)
  rw [htext, Literal.read?_text] at hread
  exact ⟨c, hc, (Option.some.inj hread).symm⟩

end Constants
end RowLang
