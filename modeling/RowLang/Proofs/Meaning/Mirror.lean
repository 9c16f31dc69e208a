import Mathlib
import RowLang.Proofs.Lexeme.Linking
import RowLang.Proofs.Machine.Effects
import RowLang.Proofs.Meaning.Structural

/-! Tables that hold what a store says of each name. Operations on references in the tables and on
operands in the store succeed and fail together, and keep the two in agreement. -/

namespace RowLang

namespace Tables

/-- Every name of the table is bound as in the store, and the store knows no other names. -/
structure Mirrors (t : Tables) (σ : Store) : Prop where
  sound : t.constants.Sound
  nodup : t.identifiers.names.Nodup
  cell : ∀ e ∈ t.identifiers.entries, σ e.name = e.cell
  blank : ∀ name, name ∉ t.identifiers.names → σ name = {}

structure Keeps (t t' : Tables) : Prop where
  constants : t.constants.entries <+: t'.constants.entries
  names : t'.identifiers.entries.map (fun e => (e.name, e.type)) =
    t.identifiers.entries.map fun e => (e.name, e.type)

end Tables

namespace Operand

def Denotes (t : Tables) : Operand → Ref → Prop
  | value v, .constant i => ∃ c, t.constants.get? i = some c ∧ c.value = v
  | name s, .identifier i => ∃ e, t.identifiers.get? i = some e ∧ e.name = s
  | _, _ => False

end Operand

namespace Tables
variable {t t' t'' : Tables} {σ : Store} {a : Operand} {ref : Ref} {i : Nat} {e : Identifier}

theorem Keeps.refl (t : Tables) : t.Keeps t := ⟨List.prefix_refl _, rfl⟩

theorem Keeps.trans (h : t.Keeps t') (h' : t'.Keeps t'') : t.Keeps t'' :=
  ⟨h.constants.trans h'.constants, h'.names.trans h.names⟩

theorem get?_of_names_eq {ids ids' : Identifiers}
    (h : ids'.entries.map (fun e => (e.name, e.type)) = ids.entries.map fun e => (e.name, e.type))
    (he : ids.get? i = some e) :
    ∃ e', ids'.get? i = some e' ∧ e'.name = e.name ∧ e'.type = e.type := by
  have hpair := congrArg (·[i]?) h
  simp only [List.getElem?_map] at hpair
  rw [show ids.entries[i]? = some e from he, Option.map_some, Option.map_eq_some_iff] at hpair
  obtain ⟨e', he', hfields⟩ := hpair
  exact ⟨e', he', congrArg Prod.fst hfields, congrArg Prod.snd hfields⟩

theorem Keeps.get? (h : t.Keeps t') (he : t.identifiers.get? i = some e) :
    ∃ e', t'.identifiers.get? i = some e' ∧ e'.name = e.name ∧ e'.type = e.type :=
  get?_of_names_eq h.names he

theorem Keeps.get?_before (h : t.Keeps t') (he : t'.identifiers.get? i = some e) :
    ∃ e', t.identifiers.get? i = some e' ∧ e'.name = e.name ∧ e'.type = e.type :=
  get?_of_names_eq h.names.symm he

theorem Keeps.denotes (h : t.Keeps t') (ha : a.Denotes t ref) : a.Denotes t' ref := by
  match a, ref, ha with
  | .value v, .constant i, ⟨c, hc, hv⟩ => exact ⟨c, getElem?_of_prefix h.constants hc, hv⟩
  | .name s, .identifier i, ⟨e, he, hname⟩ =>
    obtain ⟨e', he', hname', -⟩ := h.get? he
    exact ⟨e', he', hname'.trans hname⟩

theorem Keeps.linkedIn {l : Lexeme} (h : t.Keeps t') (hl : l.LinkedIn t) : l.LinkedIn t' :=
  hl.transfer h.constants fun _ _ he => (h.get? he).imp fun _ he' => ⟨he'.1, he'.2.1⟩

theorem mirrors_store (hs : t.constants.Sound) (hn : t.identifiers.names.Nodup) :
    t.Mirrors t.identifiers.store := by
  refine ⟨hs, hn, fun e he => ?_, fun name hout => ?_⟩
  · obtain ⟨e', he'⟩ : ∃ e', t.identifiers.entries.find? (fun x => x.name == e.name) = some e' :=
      Option.isSome_iff_exists.1 (List.find?_isSome.2 ⟨e, he, beq_self_eq_true e.name⟩)
    have hname : e'.name = e.name := by simpa using List.find?_some he'
    obtain rfl : e' = e := List.inj_on_of_nodup_map hn (List.mem_of_find?_eq_some he') he hname
    simp [Identifiers.store, he']
  · have hnone : t.identifiers.entries.find? (fun x => x.name == name) = none := by
      refine List.find?_eq_none.2 fun e he heq => hout ?_
      rw [← beq_iff_eq.1 heq]
      exact List.mem_map_of_mem he
    simp [Identifiers.store, hnone]

theorem Mirrors.store_eq (h : t.Mirrors σ) : t.identifiers.store = σ := by
  funext name
  rw [Identifiers.store]
  cases hfind : t.identifiers.entries.find? fun e => e.name == name with
  | none =>
    refine (h.blank name fun hmem => ?_).symm
    obtain ⟨e, he, rfl⟩ := List.mem_map.1 hmem
    simpa using List.find?_eq_none.1 hfind e he
  | some e =>
    have hname : e.name = name := by simpa using List.find?_some hfind
    rw [← hname]
    exact (h.cell e (List.mem_of_find?_eq_some hfind)).symm

theorem Mirrors.cell_of_get? (h : t.Mirrors σ) (he : t.identifiers.get? i = some e) :
    σ e.name = e.cell := h.cell e (List.mem_of_getElem? he)

theorem Mirrors.resolve_eq (h : t.Mirrors σ) (ha : a.Denotes t ref) : t.resolve ref = σ.resolve a := by
  match a, ref, ha with
  | .value v, .constant i, ⟨c, hc, hv⟩ => simp only [resolve, hc, Store.resolve, hv]
  | .name s, .identifier i, ⟨e, he, hname⟩ =>
    subst hname
    simp only [resolve, identifier, he, Store.resolve, h.cell_of_get? he, Identifier.cell]
    cases hb : e.binding <;> simp [bind, Except.bind, hb]

theorem denotes_intern (h : t.constants.Sound) (v : Literal) :
    (Operand.value v).Denotes { t with constants := (t.constants.intern v).1 }
      (.constant (t.constants.intern v).2) := h.get?_intern v

theorem ne_name_of_ne {j : Nat} {e' : Identifier} (h : t.identifiers.names.Nodup)
    (he : t.identifiers.get? i = some e) (he' : t.identifiers.get? j = some e') (hij : i ≠ j) :
    e'.name ≠ e.name := by
  intro hname
  have hi : t.identifiers.names[i]? = some e.name := by
    rw [Identifiers.names, List.getElem?_map, show t.identifiers.entries[i]? = _ from he]
    rfl
  have hj : t.identifiers.names[j]? = some e.name := by
    rw [Identifiers.names, List.getElem?_map, show t.identifiers.entries[j]? = _ from he', ← hname]
    rfl
  obtain ⟨hlt, -⟩ := List.getElem?_eq_some_iff.1 hi
  exact hij ((List.getElem?_inj hlt h).1 (hi.trans hj.symm))

theorem Mirrors.modify (h : t.Mirrors σ) (he : t.identifiers.get? i = some e)
    {f : Identifier → Identifier} (hname : ∀ e, (f e).name = e.name) :
    Mirrors { t with identifiers := t.identifiers.modify i f }
      (Function.update σ e.name (f e).cell) := by
  have hnames : (t.identifiers.modify i f).names = t.identifiers.names := map_modify_of_eq hname ..
  refine ⟨h.sound, by rw [hnames]; exact h.nodup, ?_, ?_⟩
  · intro e' hmem
    obtain ⟨j, hj⟩ := List.getElem?_of_mem hmem
    change (t.identifiers.modify i f).get? j = some e' at hj
    rw [Identifiers.get?_modify] at hj
    split at hj
    · rename_i hij
      rw [← hij, he] at hj
      cases hj
      rw [hname, Function.update_self]
    · rename_i hij
      rw [Function.update_of_ne (ne_name_of_ne h.nodup he hj hij)]
      exact h.cell_of_get? hj
  · intro name hout
    rw [hnames] at hout
    have hne : name ≠ e.name := by
      rintro rfl
      exact hout (List.mem_map_of_mem (List.mem_of_getElem? he))
    rw [Function.update_of_ne hne]
    exact h.blank name hout

def Agree : Except Fault Tables → Except Fault Store → Prop
  | .ok t', .ok σ' => t'.Mirrors σ'
  | .error fault, .error fault' => fault = fault'
  | _, _ => False

theorem Agree.cases {r : Except Fault Tables} {s : Except Fault Store} (h : Agree r s) :
    (∃ t' σ', r = .ok t' ∧ s = .ok σ' ∧ t'.Mirrors σ') ∨ ∃ fault, r = .error fault ∧ s = .error fault := by
  cases r with
  | ok t' =>
    cases s with
    | ok σ' => exact Or.inl ⟨t', σ', rfl, rfl, h⟩
    | error fault => exact h.elim
  | error fault =>
    cases s with
    | ok σ' => exact h.elim
    | error fault' => exact Or.inr ⟨fault, rfl, by rw [show fault = fault' from h]⟩

theorem Mirrors.define (h : t.Mirrors σ) (he : t.identifiers.get? i = some e) (word : Declarator) :
    Agree (t.define word i) (σ.define word e.name) := by
  have hcell := h.cell_of_get? he
  simp only [Tables.define, identifier, he, Store.define, hcell, Identifier.cell, bind, Except.bind]
  cases hb : e.binding with
  | undef =>
    have hdefined := h.modify he (f := Identifier.defined word) fun _ => rfl
    rw [← Identifiers.modify_defined] at hdefined
    cases word with
    | val =>
      simp only [Identifier.defined, Identifier.cell, reduceCtorEq, decide_false, Bool.or_false] at hdefined
      exact hdefined
    | var =>
      simp only [Identifier.defined, Identifier.cell, decide_true, Bool.or_true] at hdefined
      exact hdefined
  | defined | value => rfl

theorem Mirrors.assign (h : t.Mirrors σ) (he : t.identifiers.get? i = some e)
    (ha : a.Denotes t ref) : Agree (t.assign i ref) (σ.assign e.name a) := by
  have hcell := h.cell_of_get? he
  -- once the name may be given a value, both look the operand up and compare types
  have hgive : Agree
      (t.resolve ref >>= fun v =>
        if v.type = e.type then .ok { t with identifiers := t.identifiers.setBinding i (.value v) }
        else .error (.typeMismatch .assign e.type v.type))
      (σ.resolve a >>= fun v =>
        if v.type = e.type then .ok (Function.update σ e.name { e.cell with binding := .value v })
        else .error (.typeMismatch .assign e.type v.type)) := by
    rw [h.resolve_eq ha]
    cases σ.resolve a with
    | error fault => rfl
    | ok v =>
      simp only [bind, Except.bind]
      split
      · exact h.modify he fun _ => rfl
      · rfl
  simp only [Tables.assign, identifier, he, Store.assign, hcell]
  cases hb : e.binding with
  | undef =>
    simp only [Identifier.cell, hb, assignable, bind, Except.bind]
    rfl
  | defined =>
    simp only [Identifier.cell, hb, assignable, bind, Except.bind] at hgive ⊢
    exact hgive
  | value v =>
    cases hm : e.modifiable with
    | true =>
      simp only [Identifier.cell, hb, hm, assignable, bind, Except.bind] at hgive ⊢
      exact hgive
    | false =>
      simp only [Identifier.cell, hb, hm, assignable, bind, Except.bind]
      rfl

end Tables
end RowLang
