import Mathlib
import RowLang.Proofs.Statement.Growth

/-! Rejected attempts leave no trace. In whatever state the parser of a source is, and whichever of its
lexemes it tries then, a rejection gives back the code, the tables, the journal and the depth it began
with, and an acceptance only adds to code and tables. -/

namespace RowLang

namespace Draft

inductive Change (source : String) : Draft → Draft → Prop where
  | emit (d : Draft) (records : Code) : Change source d (d.emit records)
  | resolve (d : Draft) {l : Lexeme} (h : l ∈ (lex source).lexemes) : Change source d (d.resolve l).1
  | setType (d : Draft) (index : Nat) (type : ValueType) : Change source d (d.setType index type)
  | pushMark (d : Draft) : Change source d d.pushMark.1
  | internValue (d : Draft) (v : Literal) : Change source d (d.internValue v).1
  | diagnostics (d : Draft) (ds : List Diagnostic) : Change source d { d with diagnostics := ds }
  | depth (d : Draft) (level : Nat) : Change source d { d with depth := level }
  | withdraw (d : Draft) (length : Nat) : Change source d { d with code := d.code.take length }
  | rollback (d earlier : Draft) : Change source d (d.rollback earlier)

def Reached (source : String) (d : Draft) : Prop :=
  Relation.ReflTransGen (Change source) { tables := (lex source).tables } d

section
variable {source : String} {d d' : Draft}

theorem progress_changes (source : String) :
    Progress (· ∈ (lex source).lexemes) (Relation.ReflTransGen (Change source)) where
  refl _ := .refl
  trans := .trans
  emit d records := .single (.emit d records)
  resolve d _ h := .single (.resolve d h)
  setType d index type := .single (.setType d index type)
  pushMark d := .single (.pushMark d)
  internValue d v := .single (.internValue d v)
  diagnostics d ds := .single (.diagnostics d ds)
  nested h := (Relation.ReflTransGen.head (.depth _ _) h).tail (.depth _ _)
  withdrawn h := h.tail (.withdraw _ _)
  rollback h := h.tail (.rollback _ _)

theorem Change.fits (h : Change source d d') (hd : d.Fits) : d'.Fits := by
  cases h with
  | emit | internValue | diagnostics | depth | withdraw => exact hd
  | resolve hl =>
    rw [resolve_of_linkedIn ((lex_spec source).2 _ hl)]
    exact hd
  | setType => exact (extends_setType _ _ _ hd).2
  | pushMark => exact (extends_pushMark _ hd).2
  | rollback earlier => exact (Identifiers.NamesFit.truncate hd).restore _

theorem Reached.fits (h : d.Reached source) : d.Fits := by
  induction h with
  | refl => exact (lex_spec source).1.namesFit
  | tail _ hchange ih => exact hchange.fits ih

theorem Grew.get? (h : Grew d d') {i : Nat} {entry : Identifier}
    (he : d.tables.identifiers.get? i = some entry) :
    ∃ type, d'.tables.identifiers.get? i = some { entry with type } := by
  obtain ⟨changes, -, hrestored⟩ := h.journal
  have hlt : i < d.tables.identifiers.size := (List.getElem?_eq_some_iff.1 he).1
  obtain ⟨later, hlater⟩ : ∃ later, d'.tables.identifiers.get? i = some later :=
    ⟨_, List.getElem?_eq_getElem (hlt.trans_le h.size)⟩
  have hcut : (d'.tables.identifiers.truncate d.tables.identifiers.size).get? i =
      d'.tables.identifiers.get? i := List.getElem?_take_of_lt hlt
  obtain ⟨type, htype⟩ := Identifiers.get?_restore (hcut.trans hlater) changes
  rw [hrestored, he, Option.some.injEq] at htype
  exact ⟨_, by rw [hlater, htype]⟩

end
end Draft

namespace Trial
open Draft

def attempts (ls : List Lexeme) : List Trial :=
  alternatives listed ls ++ [loopBody listed ls, firstOf [declaration ls, assignment ls]]

def MadeOn (ls : List Lexeme) (trial : Trial) : Prop :=
  trial = statement listed ls ∨ ∃ attempted ∈ attempts ls, trial = attempted.attempt

section
variable {p : Lexeme → Prop} {R : Draft → Draft → Prop} {ls : List Lexeme} {trial : Trial}

theorem follows_attempts (hR : Progress p R) (h : ∀ l ∈ ls, p l) :
    ∀ trial ∈ attempts ls, trial.Follows R := by
  have hlisted : ∀ inside : List Lexeme, (∀ l ∈ inside, p l) → (listed inside).Follows R :=
    fun _ => follows_listed hR
  refine List.forall_mem_append.2 ⟨follows_alternatives hR hlisted h, ?_⟩
  simp only [List.forall_mem_cons]
  exact ⟨follows_loopBody hR (hlisted ls h), follows_init hR h, by simp⟩

theorem MadeOn.follows (ht : trial.MadeOn ls) (hR : Progress p R) (h : ∀ l ∈ ls, p l) :
    trial.Follows R := by
  rcases ht with rfl | ⟨attempted, hm, rfl⟩
  · exact follows_firstOf hR fun x hx => follows_attempts hR h x (List.mem_append_left _ hx)
  · exact (follows_attempts hR h attempted hm).attempt hR

theorem MadeOn.rejected {t : Tables} {d : Draft} (ht : trial.MadeOn ls) (h : AllLinked t ls)
    (hd : d.Fits) (hr : (trial d).2 = false) :
    ∃ ds, trial d = ({ d with diagnostics := ds }, false) := by
  rcases ht with rfl | ⟨attempted, hm, rfl⟩
  · exact statement_rejected (fun _ => grows_listed) h hd hr
  · rw [attempt_snd] at hr
    exact ⟨_, Grows.attempt_eq (follows_attempts (progress_extends t) h attempted hm) hd hr⟩

end

/-- Wherever the parser of a source stands, and whichever of its lexemes it tries there: a rejection
leaves all but the diagnostics as it was, and an acceptance only adds to the code and to the tables,
where names that were there keep all but their types. -/
theorem attempt_leaves_no_trace {source : String} {d : Draft} {slice : List Lexeme} {trial : Trial}
    (hd : d.Reached source) (hs : slice <:+: (lex source).lexemes) (ht : trial.MadeOn slice) :
    d.Fits ∧ (trial d).1.Reached source ∧
    ((trial d).2 = false → (trial d).1 = { d with diagnostics := (trial d).1.diagnostics }) ∧
    ((trial d).2 = true →
      d.code <+: (trial d).1.code ∧
      d.tables.constants.entries <+: (trial d).1.tables.constants.entries ∧
      ∀ i entry, d.tables.identifiers.get? i = some entry →
        ∃ type, (trial d).1.tables.identifiers.get? i = some { entry with type }) := by
  have hfits := hd.fits
  have hmem : ∀ l ∈ slice, l ∈ (lex source).lexemes := fun l hl => hs.subset hl
  have hlinked : AllLinked (lex source).tables slice := (lex_spec source).2.sublist hs.subset
  refine ⟨hfits, hd.trans (ht.follows (progress_changes source) hmem d), ?_, ?_⟩
  · intro hr
    obtain ⟨ds, hds⟩ := ht.rejected hlinked hfits hr
    rw [hds]
  · intro _
    obtain ⟨hgrew, -⟩ := ht.follows (progress_extends (lex source).tables) hlinked d hfits
    exact ⟨hgrew.code, hgrew.constants, fun i entry he => hgrew.get? he⟩

/-- After a declaration, a loop whose body is lowered before its condition turns out to be wrong. -/
theorem attempt_leaves_no_trace_of_lowered_body : ∃ source d slice,
    source = "val a = 1\nwhile 1 + do\nwhile a do\nL :\nend\nend" ∧
    d.Reached source ∧ d.code.length = 4 ∧ slice <:+: (lex source).lexemes ∧
    (seekBody listed (cuts slice) d).2.isSome ∧ (statement listed slice d).2 = false ∧
    (statement listed slice d).1 =
      { d with diagnostics := (statement listed slice d).1.diagnostics } := by
  set source := "val a = 1\nwhile 1 + do\nwhile a do\nL :\nend\nend" with hsource
  set front := (lex source).lexemes.take 4
  set slice := (lex source).lexemes.drop 4
  obtain ⟨-, hd, -⟩ := attempt_leaves_no_trace (d := { tables := (lex source).tables }) .refl
    (List.take_prefix 4 _).isInfix (Or.inl rfl : (statement listed front).MadeOn front)
  set d := (statement listed front { tables := (lex source).tables }).1
  have hrejected : (statement listed slice d).2 = false := by decide +kernel
  have hslice : slice <:+: (lex source).lexemes := (List.drop_suffix 4 _).isInfix
  obtain ⟨-, -, hreject, -⟩ := attempt_leaves_no_trace hd hslice (Or.inl rfl)
  exact ⟨source, d, slice, hsource, hd, by decide +kernel, hslice, by decide +kernel, hrejected,
    hreject hrejected⟩

end Trial
end RowLang
