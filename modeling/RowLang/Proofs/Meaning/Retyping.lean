import Mathlib
import RowLang.Proofs.Meaning.Structural
import RowLang.Proofs.Statement.Sequence

/-! Definitions under other types. Types are read where a value is assigned and nowhere else, so what
runs to its end over one store does so over the store with other types too, as long as the names
that are given values keep theirs; the first value for a name that does not is refused. -/

namespace RowLang

open Machine (Status)

namespace Store
variable {σ σ' : Store}

def retyped (σ : Store) (types : String → ValueType) : Store := fun name =>
  { σ name with type := types name }

theorem retyped_update (σ : Store) (types : String → ValueType) (name : String) (c : Cell) :
    retyped (Function.update σ name c) types =
      Function.update (σ.retyped types) name { c with type := types name } := by
  funext y
  by_cases hy : y = name
  · subst hy
    simp [retyped]
  · simp [retyped, hy]

theorem resolve_retyped (σ : Store) (types : String → ValueType) (a : Operand) :
    (σ.retyped types).resolve a = σ.resolve a := by
  cases a <;> rfl

theorem negate_retyped (σ : Store) (types : String → ValueType) (a : Operand) :
    (σ.retyped types).negate a = σ.negate a := by
  rw [negate, negate, resolve_retyped]

theorem combine_retyped (σ : Store) (types : String → ValueType) (op : BinaryOp) (a b : Operand) :
    (σ.retyped types).combine op a b = σ.combine op a b := by
  rw [combine, combine, resolve_retyped, resolve_retyped]

theorem define_retyped (σ : Store) (types : String → ValueType) (word : Declarator) (name : String) :
    (σ.retyped types).define word name = (σ.define word name).map (·.retyped types) := by
  have hbinding : ((σ.retyped types) name).binding = (σ name).binding := rfl
  unfold define
  rw [hbinding]
  cases (σ name).binding with
  | undef =>
    simp only [Except.map, retyped_update]
    rfl
  | _ => rfl

def Admits (σ : Store) (name : String) : Prop :=
  (σ name).binding ≠ .undef ∧ ∀ v, (σ name).binding = .value v → (σ name).modifiable = true

theorem assign_of_admits {name : String} (h : σ.Admits name) (a : Operand) :
    σ.assign name a = σ.resolve a >>= fun v =>
      if v.type = (σ name).type then .ok (Function.update σ name { σ name with binding := .value v })
      else .error (.typeMismatch .assign (σ name).type v.type) := by
  unfold assign
  cases hb : (σ name).binding with
  | undef => exact absurd hb h.1
  | defined => rfl
  | value v =>
    rw [h.2 v hb]
    rfl

theorem admits_of_assign {name : String} {a : Operand} (h : σ.assign name a = .ok σ') :
    σ.Admits name := by
  unfold assign at h
  cases hb : (σ name).binding with
  | undef =>
    rw [hb] at h
    cases h
  | defined => exact ⟨by simp [hb], by simp [hb]⟩
  | value v =>
    rw [hb] at h
    cases hm : (σ name).modifiable with
    | true => exact ⟨by simp [hb], fun _ _ => hm⟩
    | false =>
      rw [hm] at h
      cases h

theorem assign_ok {name : String} {a : Operand} (h : σ.assign name a = .ok σ') :
    ∃ v, σ.resolve a = .ok v ∧ v.type = (σ name).type ∧
      σ' = Function.update σ name { σ name with binding := .value v } := by
  rw [assign_of_admits (admits_of_assign h)] at h
  cases hv : σ.resolve a with
  | error fault =>
    rw [hv] at h
    cases h
  | ok v =>
    rw [hv] at h
    change (if v.type = (σ name).type then _ else _) = _ at h
    split at h
    · rename_i htype
      cases h
      exact ⟨v, rfl, htype, rfl⟩
    · cases h

theorem assign_retyped {name : String} {a : Operand} (h : σ.assign name a = .ok σ')
    (types : String → ValueType) :
    (σ.retyped types).assign name a =
      if types name = (σ name).type then .ok (σ'.retyped types)
      else .error (.typeMismatch .assign (types name) (σ name).type) := by
  obtain ⟨v, hv, htype, rfl⟩ := assign_ok h
  have hadmits : σ.Admits name := admits_of_assign h
  rw [assign_of_admits (σ := σ.retyped types) hadmits, resolve_retyped, hv, retyped_update]
  change (if v.type = types name then _ else _) = _
  rw [htype]
  by_cases hkept : types name = (σ name).type
  · rw [if_pos hkept.symm, if_pos hkept]
    rfl
  · rw [if_neg (Ne.symm hkept), if_neg hkept]
    rfl

structure Follows (σ σ' : Store) : Prop where
  type_eq : ∀ y, (σ' y).type = (σ y).type
  bound : ∀ y, (σ y).binding ≠ .undef → (σ' y).binding ≠ .undef

theorem Follows.refl (σ : Store) : σ.Follows σ := ⟨fun _ => rfl, fun _ h => h⟩

theorem Follows.trans {σ'' : Store} (h : σ.Follows σ') (h' : σ'.Follows σ'') : σ.Follows σ'' :=
  ⟨fun y => (h'.type_eq y).trans (h.type_eq y), fun y hy => h'.bound y (h.bound y hy)⟩

theorem follows_update {name : String} {c : Cell} (htype : c.type = (σ name).type)
    (hbound : c.binding ≠ .undef) : σ.Follows (Function.update σ name c) := by
  constructor
  · intro y
    by_cases hy : y = name
    · rw [hy, Function.update_self, htype]
    · rw [Function.update_of_ne hy]
  · intro y hbinding
    by_cases hy : y = name
    · rwa [hy, Function.update_self]
    · rwa [Function.update_of_ne hy]

theorem follows_assign {name : String} {a : Operand} (h : σ.assign name a = .ok σ') :
    σ.Follows σ' := by
  obtain ⟨v, -, -, rfl⟩ := assign_ok h
  exact follows_update rfl (by simp)

theorem define_ok {word : Declarator} {name : String} (h : σ.define word name = .ok σ') :
    σ.Follows σ' ∧ (σ' name).binding ≠ .undef := by
  unfold define at h
  split at h
  · cases h
    refine ⟨follows_update rfl (by simp), ?_⟩
    rw [Function.update_self]
    simp
  · cases h

end Store

theorem Expr.eval_retyped (σ : Store) (types : String → ValueType) (e : Expr) :
    e.eval (σ.retyped types) = e.eval σ := by
  induction e with
  | operand l => rfl
  | group o e c ih => exact ih
  | unary l e ih =>
    rw [eval, eval, ih]
    simp only [Store.negate_retyped]
  | binary a l b iha ihb =>
    rw [eval, eval, iha, ihb]
    simp only [Store.combine_retyped]

namespace Definition
variable {σ σ' : Store} {d : Definition}

def given? : Definition → Option (Lexeme × Lexeme)
  | declaration _ name _ value => value.map fun p => (name, p.1)
  | assignment name sign _ => some (name, sign)

def SameType (σ τ : Store) (d : Definition) : Prop :=
  ∀ p ∈ d.given?, (τ p.1.text).type = (σ p.1.text).type

theorem give_finished {name sign : Lexeme} {value : Expr} (h : give name sign value σ = (.finished, σ')) :
    ∃ a, value.eval σ = .ok a ∧ σ.assign name.text a = .ok σ' := by
  rw [give] at h
  cases ha : value.eval σ with
  | error e =>
    rw [ha] at h
    cases h
  | ok a =>
    rw [ha] at h
    change σ.settle (located sign.row (σ.assign name.text a)) = _ at h
    cases hs : σ.assign name.text a with
    | error fault =>
      rw [hs] at h
      cases h
    | ok σ'' =>
      rw [hs] at h
      cases h
      exact ⟨a, rfl, hs⟩

theorem give_retyped {name sign : Lexeme} {value : Expr} (h : give name sign value σ = (.finished, σ'))
    (types : String → ValueType) :
    give name sign value (σ.retyped types) =
      if types name.text = (σ name.text).type then (.finished, σ'.retyped types)
      else (.failed ⟨.typeMismatch .assign (types name.text) (σ name.text).type, sign.row⟩,
        σ.retyped types) := by
  obtain ⟨a, ha, hassign⟩ := give_finished h
  rw [give, Expr.eval_retyped, ha]
  change (σ.retyped types).settle (located sign.row ((σ.retyped types).assign name.text a)) = _
  rw [Store.assign_retyped hassign]
  split <;> rfl

theorem declaration_finished {word name : Lexeme} {typing : Option (Lexeme × Lexeme)}
    {value : Option (Lexeme × Expr)} {declarator : Declarator}
    (hword : word.kind = .declaration declarator)
    (h : (declaration word name typing value).run σ = (.finished, σ')) :
    ∃ τ, σ.define declarator name.text = .ok τ ∧
      value.elim (.finished, τ) (fun p => give name p.1 p.2 τ) = (.finished, σ') := by
  rw [run] at h
  simp only [hword] at h
  cases hd : σ.define declarator name.text with
  | error fault =>
    rw [hd] at h
    cases h
  | ok τ =>
    rw [hd] at h
    exact ⟨τ, rfl, h⟩

theorem give_follows {name sign : Lexeme} {value : Expr} (h : give name sign value σ = (.finished, σ')) :
    σ.Follows σ' := by
  obtain ⟨a, -, hassign⟩ := give_finished h
  exact Store.follows_assign hassign

section
variable {assignable : List Lexeme → Prop} (hd : d.Proper assignable)
include hd

theorem run_follows (h : d.run σ = (.finished, σ')) : σ.Follows σ' := by
  cases d with
  | assignment name sign value => exact give_follows h
  | declaration word name typing value =>
    obtain ⟨⟨declarator, hword, -⟩, -⟩ := hd
    obtain ⟨τ, hdefine, hvalue⟩ := declaration_finished hword h
    have hfollows := (Store.define_ok hdefine).1
    cases value with
    | none =>
      cases hvalue
      exact hfollows
    | some p => exact hfollows.trans (give_follows hvalue)

/-- Under other types a definition ends alike, or its value is refused. -/
theorem run_retyped (h : d.run σ = (.finished, σ')) (types : String → ValueType) :
    (d.SameType σ (σ.retyped types) → d.run (σ.retyped types) = (.finished, σ'.retyped types)) ∧
    ∀ p ∈ d.given?, types p.1.text ≠ (σ p.1.text).type → ∃ τ, d.run (σ.retyped types) =
      (.failed ⟨.typeMismatch .assign (types p.1.text) (σ p.1.text).type, p.2.row⟩, τ) := by
  cases d with
  | assignment name sign value =>
    have hgive := give_retyped h types
    constructor
    · intro hsame
      have hsame : types name.text = (σ name.text).type := hsame _ rfl
      rwa [if_pos hsame] at hgive
    · rintro p ⟨⟩ hne
      rw [if_neg hne] at hgive
      exact ⟨_, hgive⟩
  | declaration word name typing value =>
    obtain ⟨⟨declarator, hword, -⟩, -⟩ := hd
    obtain ⟨τ, hdefine, hvalue⟩ := declaration_finished hword h
    have htype := (Store.define_ok hdefine).1.type_eq name.text
    have hrun : (declaration word name typing value).run (σ.retyped types) =
        value.elim (.finished, τ.retyped types) fun p => give name p.1 p.2 (τ.retyped types) := by
      rw [run]
      simp only [hword, Store.define_retyped, hdefine]
      rfl
    cases value with
    | none =>
      cases hvalue
      exact ⟨fun _ => hrun, by simp [given?]⟩
    | some p =>
      have hgive := give_retyped hvalue types
      rw [htype] at hgive
      constructor
      · intro hsame
        have hsame : types name.text = (σ name.text).type := hsame _ rfl
        rw [if_pos hsame] at hgive
        exact hrun.trans hgive
      · rintro q ⟨⟩ hne
        rw [if_neg hne] at hgive
        exact ⟨_, hrun.trans hgive⟩

end

end Definition

theorem Outcome.andThen_finished {o : Outcome} {next : Store → Outcome} {σ' : Store}
    (h : o.andThen next = (.finished, σ')) : ∃ σ, o = (.finished, σ) ∧ next σ = (.finished, σ') := by
  obtain ⟨status, σ⟩ := o
  cases status with
  | finished => exact ⟨σ, rfl, h⟩
  | _ => cases h

namespace Block
variable {σ σ' : Store} {n : Nat}

theorem run_sequence_append (before after : List Definition) (σ : Store) :
    (sequence (before ++ after)).run n σ =
      ((sequence before).run n σ).andThen ((sequence after).run n) := by
  induction before generalizing σ with
  | nil => rfl
  | cons d before ih =>
    rw [List.cons_append, sequence, sequence, run, run]
    obtain ⟨status, τ⟩ : Outcome := (Simple.definition d).run σ
    cases status with
    | finished => exact ih τ
    | _ => rfl

section
variable {ds : List Definition} (hds : ∀ d ∈ ds, d.Proper Assignable)
variable (h : (sequence ds).run n σ = (.finished, σ'))
include hds h

theorem run_sequence_follows : σ.Follows σ' := by
  induction ds generalizing σ with
  | nil =>
    cases h
    exact .refl _
  | cons d ds ih =>
    rw [List.forall_mem_cons] at hds
    obtain ⟨τ, hd, hrest⟩ := Outcome.andThen_finished h
    exact (d.run_follows hds.1 hd).trans (ih hds.2 hrest)

theorem run_sequence_retyped {types : String → ValueType}
    (hsame : ∀ d ∈ ds, d.SameType σ (σ.retyped types)) :
    (sequence ds).run n (σ.retyped types) = (.finished, σ'.retyped types) := by
  induction ds generalizing σ with
  | nil =>
    cases h
    rfl
  | cons d ds ih =>
    rw [List.forall_mem_cons] at hds hsame
    obtain ⟨τ, hd, hrest⟩ := Outcome.andThen_finished h
    have hrun := (d.run_retyped hds.1 hd types).1 hsame.1
    have htype := (d.run_follows hds.1 hd).type_eq
    have hsame' : ∀ c ∈ ds, c.SameType τ (τ.retyped types) := by
      intro c hc p hp
      rw [htype]
      exact hsame.2 c hc p hp
    change (d.run (σ.retyped types)).andThen ((sequence ds).run n) = _
    rw [hrun]
    exact ih hds.2 hrest hsame'

end

end Block
end RowLang
