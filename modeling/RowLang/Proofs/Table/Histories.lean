import Mathlib
import RowLang.Proofs.Table.Constants
import RowLang.Proofs.Table.Identifiers

/-! The tables after any sequence of operations. The index that an entry was given when it was appended is
always its position. It is found there under its own text, which no other entry has. That a generated
mark is new is never checked; it rests on names formed like marks standing at the position they are
named by. -/

namespace RowLang

section
variable {α : Type}

/-- What an operation that drops nothing does to entries, each of which has a text and an index of its
own. -/
inductive Edit (text : α → String) (index : α → Nat) (entries : List α) : List α → Prop
  | keep : Edit text index entries entries
  | append {e : α} (ht : ∀ x ∈ entries, text x ≠ text e) (hi : index e = entries.length) :
      Edit text index entries (entries ++ [e])
  | change (n : Nat) {f : α → α} (ht : ∀ e, text (f e) = text e) (hi : ∀ e, index (f e) = index e) :
      Edit text index entries (entries.modify n f)

structure Numbered (text : α → String) (index : α → Nat) (entries : List α) : Prop where
  indices : entries.map index = List.range entries.length
  nodup : (entries.map text).Nodup

section
variable {text : α → String} {index : α → Nat} {entries entries' : List α} {n : Nat} {e : α}

theorem Edit.kept (h : Edit text index entries entries') (he : entries[n]? = some e) :
    ∃ e', entries'[n]? = some e' ∧ text e' = text e ∧ index e' = index e := by
  cases h with
  | keep => exact ⟨e, he, rfl, rfl⟩
  | append => exact ⟨e, getElem?_of_prefix (List.prefix_append ..) he, rfl, rfl⟩
  | change m ht hi =>
    rw [List.getElem?_modify, he]
    exact ⟨_, rfl, by split <;> simp [ht], by split <;> simp [hi]⟩

variable (h : Numbered text index entries)
include h

theorem Numbered.edit (he : Edit text index entries entries') : Numbered text index entries' := by
  obtain ⟨hi, hn⟩ := h
  cases he with
  | keep => exact ⟨hi, hn⟩
  | append hnew hlast =>
    refine ⟨by simp [hi, hlast, List.range_succ], ?_⟩
    rw [List.map_append, List.nodup_append]
    exact ⟨hn, List.nodup_singleton _, by simpa using hnew⟩
  | change m hft hfi =>
    refine ⟨?_, ?_⟩
    · rw [map_modify_of_eq hfi, List.length_modify, hi]
    · rwa [map_modify_of_eq hft]

theorem Numbered.take (size : Nat) : Numbered text index (entries.take size) := by
  obtain ⟨hi, hn⟩ := h
  refine ⟨by rw [List.map_take, hi, List.take_range, List.length_take], ?_⟩
  rw [List.map_take]
  exact hn.sublist (List.take_sublist ..)

theorem Numbered.index_eq (he : entries[n]? = some e) : index e = n := by
  have hn : (entries.map index)[n]? = some (index e) := by rw [List.getElem?_map, he, Option.map_some]
  rw [h.indices, List.getElem?_range (List.getElem?_eq_some_iff.1 he).1] at hn
  exact (Option.some.inj hn).symm

theorem Numbered.position_unique {m : Nat} {e' : α} (he : entries[m]? = some e)
    (he' : entries[n]? = some e') (ht : text e = text e') : m = n := by
  have hm : (entries.map text)[m]? = some (text e) := by
    rw [List.getElem?_map, he, Option.map_some]
  have hn : (entries.map text)[n]? = some (text e) := by
    rw [List.getElem?_map, he', Option.map_some, ht]
  exact (List.getElem?_inj (List.getElem?_eq_some_iff.1 hm).1 h.nodup).1 (hm.trans hn.symm)

theorem Numbered.findIdx?_text (he : entries[n]? = some e) :
    entries.findIdx? (fun x => text x == text e) = some n := by
  cases hf : entries.findIdx? fun x => text x == text e with
  | none => simpa using List.findIdx?_eq_none_iff.1 hf e (List.mem_of_getElem? he)
  | some m =>
    obtain ⟨hm, hx, -⟩ := List.findIdx?_eq_some_iff_getElem.1 hf
    rw [h.position_unique (List.getElem?_eq_getElem hm) he (by simpa using hx)]

end
end

namespace Constants

inductive Op where
  | internText (text : String)
  | intern (value : Literal)
  | truncate (size : Nat)

def Op.apply : Op → Constants → Constants
  | internText text, t => (t.internText text).1
  | intern value, t => (t.intern value).1
  | truncate size, t => t.truncate size

def history (ops : List Op) : Constants := ops.foldl (fun t op => op.apply t) .empty

/-- What can be relied on: an entry has its position as its index and is found there under its text,
which is its own; a text that is present is not interned again, a new one goes to the end; and entries
stay as they are unless the table is truncated. -/
structure Regular (t : Constants) : Prop where
  found : ∀ n c, t.get? n = some c → c.index = n ∧ t.indexOf? c.text = some n
  distinct : ∀ m n c c', t.get? m = some c → t.get? n = some c' → c.text = c'.text → m = n
  present : ∀ n c, t.get? n = some c → t.internText c.text = (t, some n) ∧
    ∀ value : Literal, value.text = c.text → t.intern value = (t, n)
  absent : ∀ text, (∀ c ∈ t.entries, c.text ≠ text) →
    (∀ value, Literal.read? text = some value →
      t.internText text = (⟨t.entries ++ [⟨text, value, t.size⟩]⟩, some t.size)) ∧
    (Literal.read? text = none → t.internText text = (t, none)) ∧
    ∀ value : Literal, value.text = text →
      t.intern value = (⟨t.entries ++ [⟨text, value, t.size⟩]⟩, t.size)
  kept : ∀ op : Op, (∀ size, op ≠ .truncate size) → ∀ n c, t.get? n = some c →
    (op.apply t).get? n = some c

section
variable {t : Constants} {text : String}

theorem indexOf?_eq_none_iff : t.indexOf? text = none ↔ ∀ c ∈ t.entries, c.text ≠ text := by
  simp [indexOf?, List.findIdx?_eq_none_iff]

theorem internText_of_read?_none (h : Literal.read? text = none) :
    t.internText text = (t, t.indexOf? text) := by
  unfold internText
  cases t.indexOf? text <;> simp [h]

theorem edit_insert (t : Constants) (text : String) (value : Literal) :
    Edit Constant.text Constant.index t.entries (t.insert text value).1.entries := by
  unfold insert
  split
  · exact .keep
  · rename_i h
    exact .append (indexOf?_eq_none_iff.1 h) rfl

theorem edit_internText (t : Constants) (text : String) :
    Edit Constant.text Constant.index t.entries (t.internText text).1.entries := by
  cases hv : Literal.read? text with
  | some value =>
    rw [internText_of_read? hv]
    exact t.edit_insert text value
  | none =>
    rw [internText_of_read?_none hv]
    exact .keep

theorem prefix_internText (t : Constants) (text : String) :
    t.entries <+: (t.internText text).1.entries := by
  cases hv : Literal.read? text with
  | some value =>
    rw [internText_of_read? hv]
    exact t.prefix_insert text value
  | none => rw [internText_of_read?_none hv]

variable (h : Numbered Constant.text Constant.index t.entries)
include h

theorem numbered_apply (op : Op) : Numbered Constant.text Constant.index (op.apply t).entries := by
  cases op with
  | internText text => exact h.edit (t.edit_internText text)
  | intern value => exact h.edit (t.edit_insert value.text value)
  | truncate size => exact h.take size

omit h in
theorem numbered_history (ops : List Op) :
    Numbered Constant.text Constant.index (history ops).entries :=
  List.foldlRecOn (motive := fun t : Constants => Numbered Constant.text Constant.index t.entries) ops _
    ⟨rfl, List.nodup_nil⟩ fun _ ht op _ => numbered_apply ht op

theorem regular_of_numbered : t.Regular where
  found n c hc := ⟨h.index_eq hc, h.findIdx?_text hc⟩
  distinct m n c c' hc hc' := h.position_unique hc hc'
  present n c hc := by
    have hi : t.indexOf? c.text = some n := h.findIdx?_text hc
    refine ⟨by rw [internText, hi], fun value hv => ?_⟩
    rw [intern, hv, insert, hi]
  absent text ht := by
    have hi := indexOf?_eq_none_iff.2 ht
    refine ⟨fun value hv => ?_, fun hv => ?_, fun value hv => ?_⟩
    · rw [internText_of_read? hv, insert, hi]
    · rw [internText_of_read?_none hv, hi]
    · rw [intern, hv, insert, hi]
  kept op hop n c hc := by
    cases op with
    | internText text => exact getElem?_of_prefix (t.prefix_internText text) hc
    | intern value => exact getElem?_of_prefix (t.prefix_insert value.text value) hc
    | truncate size => exact absurd rfl (hop size)

end
end Constants

namespace Identifiers

inductive Op where
  | intern (name : String)
  | pushMark
  | setType (index : Nat) (type : ValueType)
  | setBinding (index : Nat) (binding : Binding)
  | setModifiable (index : Nat) (modifiable : Bool)
  | truncate (size : Nat)

namespace Op

def apply : Op → Identifiers → Identifiers
  | intern name, t => (t.intern name).1
  | pushMark, t => t.pushMark.1
  | setType index type, t => t.setType index type
  | setBinding index binding, t => t.setBinding index binding
  | setModifiable index modifiable, t => t.setModifiable index modifiable
  | truncate size, t => t.truncate size

def Plain : Op → Prop
  | intern name => ¬ markStem.toList <+: name.toList
  | _ => True

instance : DecidablePred Plain
  | intern name => inferInstanceAs (Decidable ¬ markStem.toList <+: name.toList)
  | pushMark | setType .. | setBinding .. | setModifiable .. | truncate _ => .isTrue trivial

end Op

def history (ops : List Op) : Identifiers := ops.foldl (fun t op => op.apply t) .empty

/-- What can be relied on: an entry has its position as its index and is found there under its name,
which is its own; a name that is present is not interned again, a new one goes to the end; so does every
generated mark; and entries keep their positions, names and indices unless the table is truncated. -/
structure Regular (t : Identifiers) : Prop where
  found : ∀ n i, t.get? n = some i → i.index = n ∧ t.indexOf? i.name = some n
  distinct : ∀ m n i i', t.get? m = some i → t.get? n = some i' → i.name = i'.name → m = n
  present : ∀ n i, t.get? n = some i → t.intern i.name = (t, n)
  absent : ∀ name, (∀ i ∈ t.entries, i.name ≠ name) →
    t.intern name = (⟨t.entries ++ [⟨name, .undef, .undef, false, t.size⟩]⟩, t.size)
  marks : t.pushMark =
    (⟨t.entries ++ [⟨"_m" ++ Nat.repr t.size, .mark, .undef, false, t.size⟩]⟩, t.size)
  kept : ∀ op : Op, (∀ size, op ≠ .truncate size) → ∀ n i, t.get? n = some i →
    ∃ i', (op.apply t).get? n = some i' ∧ i'.name = i.name ∧ i'.index = i.index

section
variable {t : Identifiers} {name : String}

theorem indexOf?_eq_none_iff : t.indexOf? name = none ↔ ∀ i ∈ t.entries, i.name ≠ name := by
  simp [indexOf?, List.findIdx?_eq_none_iff]

theorem edit_intern (t : Identifiers) (name : String) :
    Edit Identifier.name Identifier.index t.entries (t.intern name).1.entries := by
  unfold intern
  split
  · exact .keep
  · rename_i h
    exact .append (indexOf?_eq_none_iff.1 h) rfl

theorem NamesFit.edit_pushMark (h : t.NamesFit) :
    Edit Identifier.name Identifier.index t.entries t.pushMark.1.entries := by
  rw [pushMark_eq h]
  exact .append (fun i hi => h.name_ne hi) rfl

theorem NamesFit.edit (h : t.NamesFit) {op : Op} (hop : ∀ size, op ≠ .truncate size) :
    Edit Identifier.name Identifier.index t.entries (op.apply t).entries := by
  cases op with
  | intern name => exact t.edit_intern name
  | pushMark => exact h.edit_pushMark
  | setType index type => exact .change index (fun _ => rfl) fun _ => rfl
  | setBinding index binding => exact .change index (fun _ => rfl) fun _ => rfl
  | setModifiable index modifiable => exact .change index (fun _ => rfl) fun _ => rfl
  | truncate size => exact absurd rfl (hop size)

theorem NamesFit.intern (h : t.NamesFit) (hp : ¬ markStem.toList <+: name.toList) :
    (t.intern name).1.NamesFit := by
  unfold Identifiers.intern
  split
  · exact h
  · intro i k hi
    rw [names, List.map_append, List.getElem?_append] at hi
    split at hi
    · exact h i k hi
    · -- the last name is the new one
      have hname : markStem ++ Nat.repr k = name := by simpa using List.mem_of_getElem? hi
      rw [← hname, String.toList_append] at hp
      exact absurd (List.prefix_append ..) hp

theorem NamesFit.modify (h : t.NamesFit) {f : Identifier → Identifier}
    (hf : ∀ i, (f i).name = i.name) (n : Nat) : (t.modify n f).NamesFit := by
  have hnames : (t.modify n f).names = t.names := map_modify_of_eq hf ..
  rw [NamesFit, hnames]
  exact h

theorem NamesFit.apply (h : t.NamesFit) {op : Op} (hp : op.Plain) : (op.apply t).NamesFit := by
  cases op with
  | intern name => exact h.intern hp
  | pushMark =>
    rw [Op.apply, pushMark_eq h]
    exact h.marked
  | setType index type => exact h.setType
  | setBinding index binding => exact h.modify (f := fun i => { i with binding }) (fun _ => rfl) index
  | setModifiable index modifiable =>
    exact h.modify (f := fun i => { i with modifiable }) (fun _ => rfl) index
  | truncate size => exact h.truncate

variable (h : Numbered Identifier.name Identifier.index t.entries) (hf : t.NamesFit)
include h hf

theorem numbered_apply (op : Op) :
    Numbered Identifier.name Identifier.index (op.apply t).entries := by
  by_cases hop : ∃ size, op = .truncate size
  · obtain ⟨size, rfl⟩ := hop
    exact h.take size
  · exact h.edit (hf.edit (not_exists.1 hop))

omit h hf in
theorem numbered_history {ops : List Op} (hp : ∀ op ∈ ops, op.Plain) :
    Numbered Identifier.name Identifier.index (history ops).entries ∧ (history ops).NamesFit :=
  List.foldlRecOn
    (motive := fun t : Identifiers =>
      Numbered Identifier.name Identifier.index t.entries ∧ t.NamesFit)
    ops _ ⟨⟨rfl, List.nodup_nil⟩, fun i k hi => by simp [names, empty] at hi⟩
    fun _ ht op hop => ⟨numbered_apply ht.1 ht.2 op, ht.2.apply (hp op hop)⟩

theorem regular_of_numbered : t.Regular where
  found n i hi := ⟨h.index_eq hi, h.findIdx?_text hi⟩
  distinct m n i i' hi hi' := h.position_unique hi hi'
  present n i hi := by
    have hn : t.indexOf? i.name = some n := h.findIdx?_text hi
    rw [intern, hn]
  absent name hname := by rw [intern, indexOf?_eq_none_iff.2 hname]
  marks := pushMark_eq hf
  kept op hop n i hi := (hf.edit hop).kept hi

end
end Identifiers

/-- After every sequence of operations on empty tables both are as they can be relied on, as long as
no name formed like that of a generated mark is interned. -/
theorem tables_regular (cs : List Constants.Op) (is : List Identifiers.Op)
    (h : ∀ op ∈ is, op.Plain) :
    (Constants.history cs).Regular ∧ (Identifiers.history is).Regular := by
  obtain ⟨hn, hf⟩ := Identifiers.numbered_history h
  exact ⟨Constants.regular_of_numbered (Constants.numbered_history cs),
    Identifiers.regular_of_numbered hn hf⟩

/-- A mark is dropped and its name used again, behind a shorter table. -/
theorem tables_regular_of_dropped_mark : ∃ (cs : List Constants.Op) (is : List Identifiers.Op),
    cs = [.internText "3", .internText "'a'", .intern (.string "a"), .truncate 1,
      .internText "nope", .intern (.boolean true)] ∧
    is = [.intern "x", .intern "y", .pushMark, .setType 2 .number, .truncate 1, .pushMark, .pushMark,
      .intern "x"] ∧
    (∀ op ∈ is, op.Plain) ∧
    (Constants.history cs).entries.map (fun c => (c.index, c.text)) = [(0, "3"), (1, "true")] ∧
    (Identifiers.history is).entries.map (fun i => (i.index, i.name)) =
      [(0, "x"), (1, "_m1"), (2, "_m2")] ∧
    (Constants.history cs).Regular ∧ (Identifiers.history is).Regular :=
  ⟨_, _, rfl, rfl, by decide, by decide +kernel, by decide +kernel, tables_regular _ _ (by decide)⟩

end RowLang
