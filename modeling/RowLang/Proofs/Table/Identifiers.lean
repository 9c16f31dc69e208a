import Mathlib
import RowLang.Table.Identifiers

/-! The table of identifiers under the operations of the parser: types are set and set back, entries
are appended and dropped, and generated marks are always new as long as every name formed like a
mark stands at its own position. -/

namespace RowLang

theorem map_modify_of_eq {α β : Type} {g : α → β} {f : α → α} (h : ∀ x, g (f x) = g x)
    (xs : List α) (i : Nat) : (xs.modify i f).map g = xs.map g := by
  refine List.ext_getElem? fun k => ?_
  simp only [List.getElem?_map, List.getElem?_modify]
  cases xs[k]? with
  | none => rfl
  | some x => by_cases hk : i = k <;> simp [hk, h]

namespace Identifiers

def names (t : Identifiers) : List String := t.entries.map Identifier.name

def markAt (index : Nat) : Identifier := ⟨markStem ++ Nat.repr index, .mark, .undef, false, index⟩

def marked (t : Identifiers) (n : Nat) : Identifiers :=
  ⟨t.entries ++ (List.range' t.size n).map markAt⟩

/-- A name formed like a generated mark stands at the position it is named by. -/
def NamesFit (t : Identifiers) : Prop :=
  ∀ i k, t.names[i]? = some (markStem ++ Nat.repr k) → i = k

def restore (changes : List (Nat × ValueType)) (t : Identifiers) : Identifiers :=
  changes.foldl (fun t change => t.setType change.1 change.2) t

section
variable {t : Identifiers} {i n : Nat} {type : ValueType}

@[ext] theorem ext {t t' : Identifiers} (h : t.entries = t'.entries) : t = t' := by
  cases t
  cases t'
  exact congrArg mk h

@[simp] theorem size_setType : (t.setType i type).size = t.size :=
  List.length_modify ..

@[simp] theorem size_marked : (t.marked n).size = t.size + n := by
  simp [marked, size]

theorem names_setType : (t.setType i type).names = t.names :=
  map_modify_of_eq (g := Identifier.name) (f := fun entry => { entry with type }) (fun _ => rfl) ..

theorem get?_setType (k : Nat) : (t.setType i type).get? k =
    (t.get? k).map fun entry => if i = k then { entry with type } else entry := by
  simp only [get?, setType, modify, List.getElem?_modify]
  cases t.entries[k]? with
  | none => rfl
  | some entry => by_cases h : i = k <;> simp [h]

theorem truncate_setType : (t.setType i type).truncate n = (t.truncate n).setType i type :=
  ext (List.take_modify ..)

theorem setType_setType {former : Identifier} (h : t.get? i = some former) :
    (t.setType i type).setType i former.type = t := by
  refine ext (List.ext_getElem? fun k => ?_)
  change ((t.setType i type).setType i former.type).get? k = t.get? k
  rw [get?_setType, get?_setType]
  by_cases hk : i = k
  · subst hk
    simp [h]
  · simp [hk]

theorem truncate_size (t : Identifiers) : t.truncate t.size = t :=
  ext List.take_length

theorem truncate_truncate {m : Nat} (h : m ≤ n) : (t.truncate n).truncate m = t.truncate m := by
  refine ext ?_
  simp [truncate, List.take_take, h]

theorem restore_append (later earlier : List (Nat × ValueType)) :
    restore (later ++ earlier) t = restore earlier (restore later t) :=
  List.foldl_append

theorem truncate_restore (changes : List (Nat × ValueType)) :
    (restore changes t).truncate n = restore changes (t.truncate n) := by
  induction changes generalizing t with
  | nil => rfl
  | cons change changes ih =>
    change (restore changes (t.setType change.1 change.2)).truncate n = _
    rw [ih, truncate_setType]
    rfl

theorem names_truncate : (t.truncate n).names = t.names.take n :=
  List.map_take

theorem names_restore (changes : List (Nat × ValueType)) : (restore changes t).names = t.names := by
  induction changes generalizing t with
  | nil => rfl
  | cons change changes ih => exact ih.trans names_setType

theorem get?_restore {k : Nat} {entry : Identifier} (h : t.get? k = some entry)
    (changes : List (Nat × ValueType)) :
    ∃ type, (restore changes t).get? k = some { entry with type } := by
  induction changes generalizing t entry with
  | nil => exact ⟨entry.type, h⟩
  | cons change changes ih =>
    have hset : (t.setType change.1 change.2).get? k = _ := get?_setType k
    rw [h, Option.map_some] at hset
    obtain ⟨type, htype⟩ := ih hset
    refine ⟨type, htype.trans ?_⟩
    split <;> rfl

theorem NamesFit.truncate (h : t.NamesFit) : (t.truncate n).NamesFit := by
  intro i k hi
  rw [names_truncate, List.getElem?_take] at hi
  split at hi
  · exact h i k hi
  · simp at hi

theorem NamesFit.restore (h : t.NamesFit) (changes : List (Nat × ValueType)) :
    (restore changes t).NamesFit := by
  rw [NamesFit, names_restore]
  exact h

theorem NamesFit.setType (h : t.NamesFit) : (t.setType i type).NamesFit := by
  intro j k hj
  rw [names_setType] at hj
  exact h j k hj

theorem markStem_append_inj {j k : Nat} (h : markStem ++ Nat.repr j = markStem ++ Nat.repr k) :
    j = k := by
  have h := congrArg String.toList h
  rw [String.toList_append, String.toList_append] at h
  have h := congrArg (Nat.ofDigitChars 10 · 0) (List.append_cancel_left h)
  simpa [Nat.repr_eq_ofList_toDigits] using h

theorem NamesFit.marked (h : t.NamesFit) : (t.marked n).NamesFit := by
  intro i k hi
  rw [names, Identifiers.marked, List.map_append, List.getElem?_append] at hi
  split at hi
  · exact h i k hi
  · rename_i hlt
    rw [List.length_map] at hlt hi
    rw [List.map_map, List.getElem?_map, Option.map_eq_some_iff] at hi
    obtain ⟨j, hj, hname⟩ := hi
    obtain ⟨hlt', rfl⟩ := List.getElem?_eq_some_iff.1 hj
    rw [List.getElem_range'] at hname
    have hk := markStem_append_inj hname
    rw [size] at hk
    omega

theorem nodup_marked (hn : t.names.Nodup) (hf : t.NamesFit) : (t.marked n).names.Nodup := by
  rw [names, marked, List.map_append, List.map_map]
  refine List.nodup_append.2 ⟨hn, ?_, ?_⟩
  · exact (List.nodup_range' ..).map fun j k hjk => markStem_append_inj hjk
  · rintro name hname mark hmark rfl
    obtain ⟨k, hk, rfl⟩ := List.mem_map.1 hmark
    obtain ⟨i, hi⟩ := List.getElem?_of_mem hname
    obtain rfl := hf i k hi
    have hlt : i < t.names.length := (List.getElem?_eq_some_iff.1 hi).1
    rw [names, List.length_map] at hlt
    have hge := (List.mem_range'_1.1 hk).1
    rw [size] at hge
    omega

theorem get?_marked_mark {i : Nat} (hi : t.size ≤ i) (hlt : i < t.size + n) :
    (t.marked n).get? i = some (markAt i) := by
  rw [get?, marked, List.getElem?_append_right hi, List.getElem?_map]
  rw [size] at hi hlt ⊢
  rw [List.getElem?_range' (by omega)]
  simp only [Option.map_some, Nat.one_mul, Nat.add_sub_cancel' hi]

theorem NamesFit.name_ne (h : t.NamesFit) {entry : Identifier} (he : entry ∈ t.entries) :
    entry.name ≠ markStem ++ Nat.repr t.size := by
  intro hname
  obtain ⟨i, hi, rfl⟩ := List.getElem_of_mem he
  have := h i t.size (by rw [names, List.getElem?_map, List.getElem?_eq_getElem hi, ← hname]; rfl)
  exact hi.ne this

theorem pushMark_eq (h : t.NamesFit) : t.pushMark = (t.marked 1, t.size) := by
  have hnew : t.indexOf? (markStem ++ Nat.repr t.size) = none :=
    List.findIdx?_eq_none_iff.2 fun entry he => beq_eq_false_iff_ne.2 (h.name_ne he)
  rw [pushMark, intern, hnew]
  refine Prod.ext (ext ?_) rfl
  simp only [setType, modify, marked, size, List.range'_one, List.map_cons, List.map_nil]
  rw [List.modify_eq_take_drop]
  simp [markAt, List.modifyHead]

theorem marked_marked (m n : Nat) : (t.marked m).marked n = t.marked (m + n) := by
  refine ext ?_
  simp [marked, size, ← List.map_append]

theorem truncate_marked : (t.marked n).truncate t.size = t := by
  refine ext ?_
  simp [marked, truncate, size]

end

end Identifiers
end RowLang
