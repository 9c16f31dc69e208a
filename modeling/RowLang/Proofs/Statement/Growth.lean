import Mathlib
import RowLang.Proofs.Lexeme.Linking
import RowLang.Proofs.Statement.Traversal
import RowLang.Proofs.Table.Identifiers

/-! What a trial does to a draft. Over linked lexemes a draft only grows: code and tables are added to
at their ends, and the journal has what is needed to set changed types back. So a rejected attempt
leaves nothing behind but its diagnostics. -/

namespace RowLang

namespace Draft

theorem resolve_of_link {l : Lexeme} {i : Nat} (h : l.link = some i) (d : Draft) :
    d.resolve l = (d, some i) := by
  rw [resolve, h]

/-- The later draft has what the earlier one has, and its journal says how to get the earlier types
back. -/
structure Grew (d d' : Draft) : Prop where
  code : d.code <+: d'.code
  constants : d.tables.constants.entries <+: d'.tables.constants.entries
  size : d.tables.identifiers.size ≤ d'.tables.identifiers.size
  journal : ∃ changes, d'.journal = changes ++ d.journal ∧
    Identifiers.restore changes (d'.tables.identifiers.truncate d.tables.identifiers.size) =
      d.tables.identifiers
  depth : d'.depth = d.depth

def Fits (d : Draft) : Prop := d.tables.identifiers.NamesFit

def Extends (d d' : Draft) : Prop := d.Fits → Grew d d' ∧ d'.Fits

section
variable {d d' d'' : Draft}

theorem Grew.of_identifiers (hc : d.code <+: d'.code)
    (hk : d.tables.constants.entries <+: d'.tables.constants.entries)
    (hi : d'.tables.identifiers = d.tables.identifiers) (hj : d'.journal = d.journal)
    (hd : d'.depth = d.depth) : Grew d d' :=
  ⟨hc, hk, by rw [hi], ⟨[], hj, by rw [hi]; exact Identifiers.truncate_size _⟩, hd⟩

theorem Grew.trans (h : Grew d d') (h' : Grew d' d'') : Grew d d'' := by
  obtain ⟨early, hj, hr⟩ := h.journal
  obtain ⟨late, hj', hr'⟩ := h'.journal
  refine ⟨h.code.trans h'.code, h.constants.trans h'.constants, h.size.trans h'.size,
    ⟨late ++ early, by rw [hj', hj, List.append_assoc], ?_⟩, h'.depth.trans h.depth⟩
  -- the later changes are undone inside the table cut to its middle size
  rw [Identifiers.restore_append, ← Identifiers.truncate_truncate h.size,
    ← Identifiers.truncate_restore, hr', hr]

theorem Grew.rollback (h : Grew d d') :
    d'.rollback d = { d with diagnostics := d'.diagnostics } := by
  obtain ⟨changes, hj, hr⟩ := h.journal
  have hlen : d'.journal.length - d.journal.length = changes.length := by simp [hj]
  have hcode := List.prefix_iff_eq_take.1 h.code
  have hconstants : d'.tables.constants.truncate d.tables.constants.size = d.tables.constants :=
    congrArg Constants.mk (List.prefix_iff_eq_take.1 h.constants).symm
  unfold Draft.rollback
  rw [hlen, hj, List.take_left, List.drop_left, hconstants, ← hcode, h.depth]
  change Draft.mk ⟨_, Identifiers.restore changes _⟩ _ _ _ _ = _
  rw [hr]

theorem Grew.refl (d : Draft) : Grew d d :=
  .of_identifiers (List.prefix_refl _) (List.prefix_refl _) rfl rfl rfl

theorem rollback_self (d : Draft) : d.rollback d = d := (Grew.refl d).rollback

theorem Extends.refl (d : Draft) : Extends d d := fun h => ⟨.refl d, h⟩

theorem Extends.trans (h : Extends d d') (h' : Extends d' d'') : Extends d d'' := fun hd =>
  have ⟨hg, hd'⟩ := h hd
  have ⟨hg', hd''⟩ := h' hd'
  ⟨hg.trans hg', hd''⟩

theorem extends_emit (d : Draft) (records : Code) : Extends d (d.emit records) := fun h =>
  ⟨.of_identifiers (List.prefix_append ..) (List.prefix_refl _) rfl rfl rfl, h⟩

theorem extends_diagnostics (d : Draft) (ds : List Diagnostic) :
    Extends d { d with diagnostics := ds } := fun h =>
  ⟨.of_identifiers (List.prefix_refl _) (List.prefix_refl _) rfl rfl rfl, h⟩

theorem extends_setType (d : Draft) (i : Nat) (type : ValueType) : Extends d (d.setType i type) := by
  unfold setType
  cases hi : d.tables.identifiers.get? i with
  | none => exact .refl d
  | some entry =>
    refine fun h => ⟨⟨List.prefix_refl _, List.prefix_refl _, by simp, ⟨[(i, entry.type)], rfl, ?_⟩,
      rfl⟩, h.setType⟩
    have hcut : (d.tables.identifiers.setType i type).truncate d.tables.identifiers.size =
        d.tables.identifiers.setType i type := by
      have hsize : (d.tables.identifiers.setType i type).size = d.tables.identifiers.size :=
        Identifiers.size_setType
      rw [← hsize]
      exact Identifiers.truncate_size _
    exact (congrArg (Identifiers.restore _) hcut).trans (Identifiers.setType_setType hi)

theorem pushMark_eq (h : d.Fits) : d.pushMark =
    ({ d with tables := { d.tables with identifiers := d.tables.identifiers.marked 1 } },
      d.tables.identifiers.size) := by
  rw [pushMark, Identifiers.pushMark_eq h]

theorem extends_pushMark (d : Draft) : Extends d d.pushMark.1 := fun h => by
  rw [pushMark_eq h]
  exact ⟨⟨List.prefix_refl _, List.prefix_refl _, by simp,
    ⟨[], rfl, Identifiers.truncate_marked⟩, rfl⟩, h.marked⟩

theorem extends_internValue (d : Draft) (v : Literal) : Extends d (d.internValue v).1 := fun h => by
  refine ⟨.of_identifiers (List.prefix_refl _) ?_ rfl rfl rfl, h⟩
  simp only [internValue, Constants.intern, Constants.insert]
  split
  · exact List.prefix_refl _
  · exact List.prefix_append ..

end

theorem resolve_of_linkedIn {t : Tables} {l : Lexeme} (h : l.LinkedIn t) (d : Draft) :
    (d.resolve l).1 = d := by
  cases hl : l.link with
  | some i => rw [resolve_of_link hl]
  | none =>
    have hout : l.kind.isOperand = false := Bool.eq_false_iff.2 fun ho => by
      obtain ⟨i, hi⟩ := h.exists_link ho
      simp [hl] at hi
    rw [resolve, hl]
    cases hk : l.kind <;> simp [hk, Kind.isOperand, Tables.internLexeme] at hout ⊢

theorem progress_extends (t : Tables) : Progress (·.LinkedIn t) Extends where
  refl := .refl
  trans := .trans
  emit := extends_emit
  resolve d l hl := by
    rw [resolve_of_linkedIn hl]
    exact .refl d
  setType := extends_setType
  pushMark := extends_pushMark
  internValue := extends_internValue
  diagnostics := extends_diagnostics
  nested h hd := by
    obtain ⟨⟨hcode, hconstants, hsize, hjournal, -⟩, hfits⟩ := h hd
    exact ⟨⟨hcode, hconstants, hsize, hjournal, rfl⟩, hfits⟩
  withdrawn h hd := by
    obtain ⟨⟨hcode, hconstants, hsize, hjournal, hdepth⟩, hfits⟩ := h hd
    refine ⟨⟨?_, hconstants, hsize, hjournal, hdepth⟩, hfits⟩
    rw [← List.prefix_iff_eq_take.1 hcode]
  rollback h hd := by
    rw [(h hd).1.rollback]
    exact extends_diagnostics _ _ hd

end Draft

namespace Trial
open Draft

def Grows (trial : Trial) : Prop := ∀ d, Extends d (trial d).1

section
variable {trial : Trial} {trials : List Trial} {d : Draft}

theorem Grows.attempt_eq (h : trial.Grows) (hd : d.Fits) (hr : (trial d).2 = false) :
    trial.attempt d = ({ d with diagnostics := (trial d).1.diagnostics }, false) := by
  have hg := (h d hd).1
  unfold attempt
  split
  · simp_all
  · rename_i d' hd'
    rw [hd'] at hg ⊢
    rw [hg.rollback]

theorem firstOf_rejected (h : ∀ trial ∈ trials, trial.Grows) (hd : d.Fits)
    (hr : (firstOf trials d).2 = false) :
    ∃ ds, firstOf trials d = ({ d with diagnostics := ds }, false) := by
  induction trials generalizing d with
  | nil => exact ⟨d.diagnostics, rfl⟩
  | cons trial trials ih =>
    unfold firstOf at hr ⊢
    split at hr
    · simp at hr
    · rename_i d' hd'
      have hrej : (trial d).2 = false := by
        have := attempt_snd trial d
        rw [hd'] at this
        exact this.symm
      rw [(h trial List.mem_cons_self).attempt_eq hd hrej, Prod.mk.injEq] at hd'
      obtain ⟨rfl, -⟩ := hd'
      obtain ⟨ds, hds⟩ := ih (fun x hx => h x (List.mem_cons_of_mem trial hx)) (by exact hd) hr
      exact ⟨ds, hds⟩

end

section
variable {t : Tables} {ls : List Lexeme}

theorem seekBody_found {body : List Lexeme → Trial} {cs : List Cut} {c : Cut} {d : Draft}
    (h : ∀ c ∈ cs, ∀ inside, insideBody? c.suffix = some inside → (body inside).Grows)
    (hd : d.Fits) (hc : (seekBody body cs d).2 = some c) :
    c ∈ cs ∧ ∃ inside ds, insideBody? c.suffix = some inside ∧
      loopBody body inside { d with diagnostics := ds } = ((seekBody body cs d).1, true) := by
  induction cs generalizing d with
  | nil => simp [seekBody] at hc
  | cons c' cs ih =>
    have hrest := fun {d} => ih (d := d) fun x hx => h x (List.mem_cons_of_mem c' hx)
    unfold seekBody at hc ⊢
    cases hi : insideBody? c'.suffix with
    | none =>
      rw [hi] at hc
      obtain ⟨hmem, hfound⟩ := hrest hd hc
      exact ⟨List.mem_cons_of_mem c' hmem, hfound⟩
    | some inside =>
      have hgrows : (loopBody body inside).Grows :=
        follows_loopBody (progress_extends {}) (h c' List.mem_cons_self inside hi)
      rw [hi] at hc
      simp only at hc ⊢
      cases hacc : (loopBody body inside d).2 with
      | true =>
        have hatt : (loopBody body inside).attempt d = ((loopBody body inside d).1, true) := by
          rw [attempt]
          split <;> simp_all
        rw [hatt] at hc ⊢
        cases hc
        exact ⟨List.mem_cons_self, inside, d.diagnostics, hi, Prod.ext rfl hacc⟩
      | false =>
        rw [hgrows.attempt_eq hd hacc] at hc ⊢
        obtain ⟨hmem, inside', ds, hi', hfound⟩ := hrest (by exact hd) hc
        exact ⟨List.mem_cons_of_mem c' hmem, inside', ds, hi', hfound⟩

theorem linked_of_insideBody? {c : Cut} {inside : List Lexeme} (h : AllLinked t ls)
    (hc : c ∈ cuts ls) (hi : insideBody? c.suffix = some inside) : AllLinked t inside :=
  (forall_mem_cut h hc).2 inside hi

theorem statement_rejected {body : List Lexeme → Trial} {d : Draft}
    (hb : ∀ inside, AllLinked t inside → (body inside).Grows) (h : AllLinked t ls) (hd : d.Fits)
    (hr : (statement body ls d).2 = false) :
    ∃ ds, statement body ls d = ({ d with diagnostics := ds }, false) :=
  firstOf_rejected (follows_alternatives (progress_extends t) hb h) hd hr

theorem grows_listed (h : AllLinked t ls) : (listed ls).Grows :=
  follows_listed (progress_extends t) h

end
end Trial
end RowLang
