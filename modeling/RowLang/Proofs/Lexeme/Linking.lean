import Mathlib
import RowLang.Proofs.Lexeme.Classified
import RowLang.Proofs.Table.Constants
import RowLang.Proofs.Table.Identifiers

/-! Lexemes and tables of a source text. Every operand is linked to the entry with its own text, every
constant stands for the value its text reads as, and no name is formed like a generated mark. -/

namespace RowLang

def Lexeme.LinkedIn (t : Tables) (l : Lexeme) : Prop :=
  (l.kind = .constant →
    ∃ i, l.link = some i ∧ ∃ c, t.constants.get? i = some c ∧ c.text = l.text) ∧
  (l.kind = .identifier →
    ∃ i, l.link = some i ∧ ∃ e, t.identifiers.get? i = some e ∧ e.name = l.text)

def AllLinked (t : Tables) (ls : List Lexeme) : Prop := ∀ l ∈ ls, l.LinkedIn t

def Tables.Within (t t' : Tables) : Prop :=
  t.constants.entries <+: t'.constants.entries ∧ t.identifiers.entries <+: t'.identifiers.entries

def Identifiers.Untouched (t : Identifiers) : Prop :=
  ∀ e ∈ t.entries, e.type = .undef ∧ e.binding = .undef ∧ e.modifiable = false

section
variable {t t' t'' : Tables} {l : Lexeme} {ls ls' : List Lexeme}

theorem AllLinked.sublist (h : AllLinked t ls) (hs : ls' ⊆ ls) : AllLinked t ls' :=
  fun l hl => h l (hs hl)

@[simp] theorem allLinked_nil : AllLinked t [] := by
  simp [AllLinked]

@[simp] theorem allLinked_cons : AllLinked t (l :: ls) ↔ l.LinkedIn t ∧ AllLinked t ls :=
  List.forall_mem_cons

@[simp] theorem allLinked_append : AllLinked t (ls ++ ls') ↔ AllLinked t ls ∧ AllLinked t ls' :=
  List.forall_mem_append

theorem Lexeme.LinkedIn.exists_link (h : l.LinkedIn t) (ho : l.kind.isOperand) :
    ∃ i, l.link = some i := by
  cases hk : l.kind with
  | constant => exact (h.1 hk).imp fun i hi => hi.1
  | identifier => exact (h.2 hk).imp fun i hi => hi.1
  | _ => simp [hk, Kind.isOperand] at ho

theorem Tables.Within.refl (t : Tables) : t.Within t := ⟨List.prefix_refl _, List.prefix_refl _⟩

theorem Tables.Within.trans (h : t.Within t') (h' : t'.Within t'') : t.Within t'' :=
  ⟨h.1.trans h'.1, h.2.trans h'.2⟩

theorem Lexeme.LinkedIn.transfer (h : l.LinkedIn t)
    (hc : t.constants.entries <+: t'.constants.entries)
    (hi : ∀ i e, t.identifiers.get? i = some e →
      ∃ e', t'.identifiers.get? i = some e' ∧ e'.name = e.name) : l.LinkedIn t' := by
  constructor
  · intro hk
    obtain ⟨i, hlink, c, hget, htext⟩ := h.1 hk
    exact ⟨i, hlink, c, getElem?_of_prefix hc hget, htext⟩
  · intro hk
    obtain ⟨i, hlink, e, hget, hname⟩ := h.2 hk
    obtain ⟨e', hget', hname'⟩ := hi i e hget
    exact ⟨i, hlink, e', hget', hname'.trans hname⟩

theorem Lexeme.LinkedIn.mono (h : l.LinkedIn t) (ht : t.Within t') : l.LinkedIn t' :=
  h.transfer ht.1 fun _ e he => ⟨e, getElem?_of_prefix ht.2 he, rfl⟩

end

namespace Identifiers
variable {t : Identifiers} {name : String}

theorem prefix_intern (t : Identifiers) (name : String) : t.entries <+: (t.intern name).1.entries := by
  unfold intern
  split
  · exact List.prefix_refl _
  · exact List.prefix_append ..

theorem get?_intern (t : Identifiers) (name : String) :
    ∃ e, (t.intern name).1.get? (t.intern name).2 = some e ∧ e.name = name := by
  unfold intern
  split
  · rename_i i hi
    obtain ⟨hlt, he, -⟩ := List.findIdx?_eq_some_iff_getElem.1 hi
    exact ⟨_, List.getElem?_eq_getElem hlt, by simpa using he⟩
  · exact ⟨⟨name, .undef, .undef, false, t.size⟩, by simp [get?, size], rfl⟩

theorem mem_intern {e : Identifier} (h : e ∈ (t.intern name).1.entries) :
    e ∈ t.entries ∨ e = ⟨name, .undef, .undef, false, t.size⟩ := by
  unfold intern at h
  split at h
  · exact Or.inl h
  · simpa using h

theorem nodup_intern (h : t.names.Nodup) : (t.intern name).1.names.Nodup := by
  unfold intern
  split
  · exact h
  · rename_i hnew
    have hout : name ∉ t.names := by
      intro hm
      obtain ⟨e, he, rfl⟩ := List.mem_map.1 hm
      have := List.findIdx?_eq_none_iff.1 hnew e he
      simp at this
    rw [names, List.map_append]
    refine List.nodup_append.2 ⟨h, by simp, ?_⟩
    rintro a ha b hb rfl
    obtain rfl : a = name := List.mem_singleton.1 hb
    exact hout ha

end Identifiers

/-- What holds of tables that were made by linking classified lexemes. -/
structure Tables.Lexed (t : Tables) : Prop where
  sound : t.constants.Sound
  untouched : t.identifiers.Untouched
  nodup : t.identifiers.names.Nodup
  alphabetic : ∀ e ∈ t.identifiers.entries, ∃ c s, e.name.toList = c :: s ∧ c.isAlpha

def Lexeme.Classified (l : Lexeme) : Prop := classify l.text.toList = some l.kind ∧ l.link = none

section
variable {t : Tables} {l : Lexeme} {ls : List Lexeme}

theorem internLexeme_spec (ht : t.Lexed) (hl : l.Classified) :
    t.Within (t.internLexeme l).1 ∧ (t.internLexeme l).1.Lexed ∧
      { l with link := (t.internLexeme l).2.or l.link }.LinkedIn (t.internLexeme l).1 := by
  obtain ⟨hclass, hlink⟩ := hl
  cases hk : l.kind with
  | constant =>
    rw [hk] at hclass
    obtain ⟨v, hv⟩ := exists_read?_of_isConstantText (isConstantText_of_classify hclass)
    rw [String.ofList_toList] at hv
    obtain ⟨c, hc, htext⟩ := t.constants.get?_insert l.text v
    simp only [Tables.internLexeme, hk, Constants.internText_of_read? hv]
    exact ⟨⟨t.constants.prefix_insert _ _, List.prefix_refl _⟩,
      ⟨ht.sound.insert hv, ht.untouched, ht.nodup, ht.alphabetic⟩,
      fun _ => ⟨_, rfl, c, hc, htext⟩, by simp⟩
  | identifier =>
    rw [hk] at hclass
    obtain ⟨e, he, hname⟩ := t.identifiers.get?_intern l.text
    simp only [Tables.internLexeme, hk]
    refine ⟨⟨List.prefix_refl _, t.identifiers.prefix_intern _⟩,
      ⟨ht.sound, ?_, Identifiers.nodup_intern ht.nodup, ?_⟩, by simp, fun _ => ⟨_, rfl, e, he, hname⟩⟩
    · intro e he
      rcases Identifiers.mem_intern he with he | rfl
      · exact ht.untouched e he
      · exact ⟨rfl, rfl, rfl⟩
    · intro e he
      rcases Identifiers.mem_intern he with he | rfl
      · exact ht.alphabetic e he
      · exact alphabetic_of_classify hclass
  | _ =>
    simp only [Tables.internLexeme, hk]
    exact ⟨.refl t, ht, by simp, by simp⟩

theorem link_spec (ht : t.Lexed) (hl : ∀ l ∈ ls, l.Classified) :
    t.Within (t.link ls).1 ∧ (t.link ls).1.Lexed ∧ AllLinked (t.link ls).1 (t.link ls).2 := by
  induction ls generalizing t with
  | nil => exact ⟨.refl t, ht, by simp [Tables.link, AllLinked]⟩
  | cons l ls ih =>
    obtain ⟨hwithin, ht', hlinked⟩ := internLexeme_spec ht (hl l List.mem_cons_self)
    obtain ⟨hwithin', ht'', hlinked'⟩ := ih ht' fun x hx => hl x (List.mem_cons_of_mem l hx)
    refine ⟨hwithin.trans hwithin', ht'', ?_⟩
    intro x hx
    rcases List.mem_cons.1 hx with rfl | hx
    · exact hlinked.mono hwithin'
    · exact hlinked' x hx

theorem lex_spec (source : String) :
    (lex source).tables.Lexed ∧ AllLinked (lex source).tables (lex source).lexemes := by
  have hempty : ({} : Tables).Lexed := ⟨by simp [Constants.Sound], by simp [Identifiers.Untouched],
    by simp [Identifiers.names], by simp⟩
  have hclass : ∀ l ∈ (scan source).filterMap Except.toOption, l.Classified := by
    intro l hl
    obtain ⟨item, hitem, hl⟩ := List.mem_filterMap.1 hl
    obtain ⟨⟨line, row⟩, -, hitem⟩ := List.mem_flatMap.1 hitem
    obtain ⟨segment, -, rfl⟩ := List.mem_map.1 hitem
    unfold identify at hl
    split at hl
    · rename_i kind hk
      simp only [Except.toOption, Option.some.injEq] at hl
      subst hl
      exact ⟨by simpa using hk, rfl⟩
    · simp [Except.toOption] at hl
  exact (link_spec hempty hclass).2

theorem Tables.Lexed.namesFit (h : t.Lexed) : t.identifiers.NamesFit := by
  intro i k hi
  rw [Identifiers.names, List.getElem?_map, Option.map_eq_some_iff] at hi
  obtain ⟨e, he, hname⟩ := hi
  obtain ⟨c, s, hc, halpha⟩ := h.alphabetic e (List.mem_of_getElem? he)
  rw [hname, String.toList_append] at hc
  obtain ⟨rfl, -⟩ := List.cons.inj (show '_' :: _ = c :: s from hc)
  exact absurd halpha (by decide)

end
end RowLang
