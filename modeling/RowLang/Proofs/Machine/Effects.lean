import Mathlib
import RowLang.Machine.Effect

/-! What the operations on values and tables come to: the one entry that a definition or an assignment
changes, and the reasons for which each of them complains. -/

namespace RowLang

def Ref.Valid (t : Tables) : Ref → Prop
  | constant index => index < t.constants.size
  | identifier index => index < t.identifiers.size

theorem bind_eq_error {ε α β : Type} {x : Except ε α} {f : α → Except ε β} {e : ε}
    (h : (x >>= f) = .error e) : x = .error e ∨ ∃ a, x = .ok a ∧ f a = .error e := by
  cases x with
  | error e' =>
    cases h
    exact Or.inl rfl
  | ok a => exact Or.inr ⟨a, rfl, h⟩

theorem bind_eq_ok {ε α β : Type} {x : Except ε α} {f : α → Except ε β} {b : β}
    (h : (x >>= f) = .ok b) : ∃ a, x = .ok a ∧ f a = .ok b := by
  cases x with
  | error e' => simp [bind, Except.bind] at h
  | ok a => exact ⟨a, rfl, h⟩

section
variable {fault : Fault} {v : Literal}

theorem Literal.toNumber_ok {op : Operator} {x : Float} (h : v.toNumber op = .ok x) :
    v = .number x := by
  cases v with
  | number y =>
    cases h
    rfl
  | string | boolean => cases h

theorem Literal.toNumber_error {op : Operator} (h : v.toNumber op = .error fault) :
    ∃ found, fault = .typeMismatch op .number found := by
  cases v <;> cases h <;> exact ⟨_, rfl⟩

theorem BinaryOp.apply_error {op : BinaryOp} {a b : Literal} (h : op.apply a b = .error fault) :
    ∃ expected found, fault = .typeMismatch (.binary op) expected found := by
  have hnumbers : ∀ f, BinaryOp.onNumbers op f a b = .error fault →
      ∃ expected found, fault = .typeMismatch (.binary op) expected found := by
    intro f h
    rcases bind_eq_error h with h | ⟨x, -, h⟩
    · exact ⟨_, Literal.toNumber_error h⟩
    · rcases bind_eq_error h with h | ⟨y, -, h⟩
      · exact ⟨_, Literal.toNumber_error h⟩
      · cases h
  have hequal : ∀ f : Bool → Literal, (BinaryOp.equal op a b).map f = .error fault →
      ∃ expected found, fault = .typeMismatch (.binary op) expected found := by
    intro f h
    unfold BinaryOp.equal at h
    split at h <;> cases h
    exact ⟨_, _, rfl⟩
  cases op with
  | eq | neq => exact hequal _ h
  | _ => exact hnumbers _ h

end

theorem Identifiers.get?_modify (t : Identifiers) (i : Nat) (f : Identifier → Identifier) (j : Nat) :
    (t.modify i f).get? j = if i = j then (t.get? j).map f else t.get? j := by
  simp only [get?, modify, List.getElem?_modify]
  split
  · rfl
  · exact Option.map_id'

def Identifier.defined (word : Declarator) (e : Identifier) : Identifier :=
  { e with binding := .defined, modifiable := e.modifiable || word = .var }

theorem Identifiers.modify_defined (t : Identifiers) (word : Declarator) (i : Nat) :
    (if word = .var then (t.setBinding i .defined).setModifiable i true else t.setBinding i .defined) =
      t.modify i (Identifier.defined word) := by
  cases word with
  | val =>
    have hdefined : Identifier.defined .val = fun e => { e with binding := .defined } :=
      funext fun e => by simp [Identifier.defined]
    rw [hdefined]
    rfl
  | var =>
    have hdefined : Identifier.defined .var =
        (fun e => { e with modifiable := true }) ∘ fun e => { e with binding := .defined } :=
      funext fun e => by simp [Identifier.defined]
    rw [hdefined, if_pos rfl, modify, ← List.modify_modify_eq]
    rfl

namespace Tables
variable {t t' : Tables} {ref : Ref} {i : Nat} {word : Declarator} {v : Literal} {fault : Fault}

theorem get?_of_identifier {e : Identifier} (h : t.identifier i = .ok e) :
    t.identifiers.get? i = some e := by
  unfold identifier at h
  split at h
  · rename_i entry hentry
    cases h
    exact hentry
  · cases h

theorem identifier_error (h : t.identifier i = .error fault) :
    fault = .invalidReference (.identifier i) ∧ ¬ i < t.identifiers.size := by
  unfold Tables.identifier at h
  split at h <;> cases h
  rename_i hnone
  exact ⟨rfl, (List.getElem?_eq_none_iff.1 hnone).not_gt⟩

theorem resolve_error (h : t.resolve ref = .error fault) :
    fault = .invalidReference ref ∧ ¬ ref.Valid t ∨ ∃ name, fault = .uninitialized name := by
  cases ref with
  | constant index =>
    rw [Tables.resolve] at h
    split at h <;> cases h
    rename_i hnone
    exact Or.inl ⟨rfl, (List.getElem?_eq_none_iff.1 hnone).not_gt⟩
  | identifier index =>
    rcases bind_eq_error h with h | ⟨entry, -, h⟩
    · exact Or.inl (identifier_error h)
    · split at h <;> cases h
      exact Or.inr ⟨_, rfl⟩

theorem resolve_constant_iff :
    t.resolve (.constant i) = .ok v ↔ ∃ c, t.constants.get? i = some c ∧ c.value = v := by
  simp only [resolve]
  cases t.constants.get? i <;> simp

theorem define_ok (h : t.define word i = .ok t') :
    ∃ e, t.identifiers.get? i = some e ∧ e.binding = .undef ∧
      t' = { t with identifiers := t.identifiers.modify i (Identifier.defined word) } := by
  obtain ⟨e, he, h⟩ := bind_eq_ok h
  split at h
  · rename_i hundef
    refine ⟨e, get?_of_identifier he, hundef, (Except.ok.inj h).symm.trans ?_⟩
    rw [← Identifiers.modify_defined]
  · cases h

theorem define_error (h : t.define word i = .error fault) :
    fault = .invalidReference (.identifier i) ∧ ¬ i < t.identifiers.size ∨
      ∃ name, fault = .redefined name := by
  rcases bind_eq_error h with h | ⟨entry, -, h⟩
  · exact Or.inl (identifier_error h)
  · split at h <;> cases h
    exact Or.inr ⟨_, rfl⟩

theorem assign_ok (h : t.assign i ref = .ok t') :
    ∃ e v, t.identifiers.get? i = some e ∧ t.resolve ref = .ok v ∧ v.type = e.type ∧
      (e.binding = .defined ∨ (∃ w, e.binding = .value w) ∧ e.modifiable) ∧
      t' = { t with identifiers := t.identifiers.setBinding i (.value v) } := by
  obtain ⟨e, he, h⟩ := bind_eq_ok h
  obtain ⟨_, hassignable, h⟩ := bind_eq_ok h
  obtain ⟨v, hv, h⟩ := bind_eq_ok h
  have hmay : e.binding = .defined ∨ (∃ w, e.binding = .value w) ∧ e.modifiable := by
    unfold assignable at hassignable
    split at hassignable
    · cases hassignable
    · rename_i hdefined
      exact Or.inl hdefined
    · rename_i w hw
      split at hassignable
      · rename_i hmodifiable
        exact Or.inr ⟨⟨w, hw⟩, hmodifiable⟩
      · cases hassignable
  split at h
  · rename_i htype
    exact ⟨e, v, get?_of_identifier he, hv, htype, hmay, (Except.ok.inj h).symm⟩
  · cases h

theorem assign_error (h : t.assign i ref = .error fault) :
    (fault = .invalidReference (.identifier i) ∧ ¬ i < t.identifiers.size) ∨
    (fault = .invalidReference ref ∧ ¬ ref.Valid t) ∨
    (∃ name, fault = .uninitialized name ∨ fault = .notModifiable name) ∨
      ∃ e v, t.identifiers.get? i = some e ∧ t.resolve ref = .ok v ∧ v.type ≠ e.type ∧
        fault = .typeMismatch .assign e.type v.type := by
  rcases bind_eq_error h with h | ⟨e, he, h⟩
  · exact Or.inl (identifier_error h)
  · rcases bind_eq_error h with h | ⟨-, -, h⟩
    · refine Or.inr (Or.inr (Or.inl ⟨e.name, ?_⟩))
      unfold assignable at h
      split at h
      · exact Or.inl (Except.error.inj h).symm
      · cases h
      · split at h <;> cases h
        exact Or.inr rfl
    · rcases bind_eq_error h with h | ⟨v, hv, h⟩
      · rcases resolve_error h with h | ⟨name, h⟩
        · exact Or.inr (Or.inl h)
        · exact Or.inr (Or.inr (Or.inl ⟨name, Or.inl h⟩))
      · split at h
        · cases h
        · rename_i htype
          exact Or.inr (Or.inr (Or.inr
            ⟨e, v, get?_of_identifier he, hv, htype, (Except.error.inj h).symm⟩))

end Tables

section
variable {code : Code} {t : Tables} {mark : Nat}

theorem jumpTarget_eq_ok_iff {position : Nat} : jumpTarget code t mark = .ok position ↔
    (∃ e, t.identifiers.get? mark = some e ∧ e.type = .mark) ∧ code.labelEnd? mark = some position := by
  constructor
  · intro h
    obtain ⟨e, he, h⟩ := bind_eq_ok h
    split at h
    · rename_i htype
      split at h
      · rename_i hlabel
        cases h
        exact ⟨⟨e, Tables.get?_of_identifier he, htype⟩, hlabel⟩
      · cases h
    · cases h
  · rintro ⟨⟨e, he, htype⟩, hlabel⟩
    simp only [jumpTarget, Tables.identifier, he, bind, Except.bind, htype, if_true, hlabel]

theorem jumpTarget_error {fault : Fault} (h : jumpTarget code t mark = .error fault) :
    fault = .invalidReference (.identifier mark) ∧ ¬ mark < t.identifiers.size ∨
    ∃ entry, t.identifiers.get? mark = some entry ∧
      (fault = .labelNotFound entry.name ∧ entry.type = .mark ∧ code.labelEnd? mark = none ∨
        fault = .unknownMark entry.name ∧ entry.type ≠ .mark) := by
  rcases bind_eq_error h with h | ⟨entry, he, h⟩
  · exact Or.inl (Tables.identifier_error h)
  · refine Or.inr ⟨entry, Tables.get?_of_identifier he, ?_⟩
    split at h
    · rename_i htype
      split at h <;> cases h
      rename_i hend
      exact Or.inl ⟨rfl, htype, hend⟩
    · rename_i htype
      cases h
      exact Or.inr ⟨rfl, htype⟩

end
end RowLang
