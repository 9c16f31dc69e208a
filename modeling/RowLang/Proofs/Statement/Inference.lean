import Mathlib
import RowLang.Proofs.Statement.Refinement

/-! Types that declarations copy. Types are given in the order of lowering, where the body of a loop comes
before its header; so the counter that a `for` declares has no type yet when its body copies it. All
other declarations that come first in the source have been lowered first. -/

namespace RowLang

namespace Definition

def declared : Definition → List Lexeme
  | declaration _ name _ _ => [name]
  | assignment .. => []

def Declares (d : Definition) (name : String) : Prop := ∃ l ∈ d.declared, l.text = name

end Definition

namespace Simple

def definitions : Simple → List Definition
  | definition d => [d]
  | _ => []

def labels : Simple → List Lexeme
  | label mark _ => [mark]
  | _ => []

end Simple

namespace Header

def definitions : Header → List Definition
  | whileLoop .. => []
  | forLoop _ init _ _ => [init]

end Header

namespace Block

def definitions : List Definition → Block → List (List Definition × Definition)
  | _, done => []
  | outer, simple s rest => s.definitions.map (outer, ·) ++ rest.definitions outer
  | outer, loop header _ body _ rest => header.definitions.map (outer, ·) ++
      (body.definitions (header.definitions ++ outer) ++ rest.definitions outer)

def labels : Block → List Lexeme
  | done => []
  | simple s rest => s.labels ++ rest.labels
  | loop _ _ body _ rest => body.labels ++ rest.labels

def declared (b : Block) : List Lexeme := (b.definitions []).flatMap fun p => p.2.declared

end Block

section
variable {outer around : List Definition} {d : Definition} {b : Block}

theorem Definition.targets_eq (d : Definition) : d.typings.map Typing.target = d.declared := by
  cases d with
  | declaration word name type value => cases type <;> rfl
  | assignment name sign value => rfl

theorem Simple.targets_eq (s : Simple) :
    s.typings.map Typing.target = s.definitions.flatMap (fun d => d.declared) ++ s.labels := by
  cases s with
  | definition d => simp [typings, definitions, labels, d.targets_eq]
  | _ => rfl

theorem Header.targets_eq (h : Header) :
    h.typings.map Typing.target = h.definitions.flatMap fun d => d.declared := by
  cases h with
  | whileLoop word condition => rfl
  | forLoop word init toWord bound => simp [typings, definitions, init.targets_eq]

theorem Definition.targets_named {assignable : List Lexeme → Prop} (h : d.Proper assignable) :
    ∀ typing ∈ d.typings, typing.target ∈ d.lexemes ∧ typing.target.isIdentifier := by
  intro typing ht
  have htarget : typing.target ∈ d.declared := by
    rw [← d.targets_eq]
    exact List.mem_map_of_mem ht
  have hname : typing.target = d.name := by
    cases d with
    | declaration word name type value => exact List.mem_singleton.1 htarget
    | assignment name sign value => simp [declared] at htarget
  rw [hname]
  exact ⟨d.name_mem, h.counter.2.2⟩

theorem Simple.targets_named {s : Simple} (h : s.Proper) :
    ∀ typing ∈ s.typings, typing.target ∈ s.lexemes ∧ typing.target.isIdentifier := by
  cases s with
  | definition d => exact d.targets_named h
  | label mark colon => simpa [typings, lexemes] using h.1
  | conditional | goto => simp [typings]

theorem Header.targets_named {h : Header} (hp : h.Proper) :
    ∀ typing ∈ h.typings, typing.target ∈ h.lexemes ∧ typing.target.isIdentifier := by
  cases h with
  | whileLoop word condition => simp [typings]
  | forLoop word init toWord bound =>
    intro typing ht
    refine (init.targets_named hp.2.1 typing ht).imp_left fun hmem => ?_
    exact List.mem_cons_of_mem _ (List.mem_append_left _ hmem)

theorem Simple.typings_of_definition {s : Simple} (h : d ∈ s.definitions) : s.typings = d.typings := by
  cases s with
  | definition d' =>
    obtain rfl := List.mem_singleton.1 h
    rfl
  | _ => simp [definitions] at h

theorem Header.typings_of_definition {h : Header} (hd : d ∈ h.definitions) : h.typings = d.typings := by
  cases h with
  | whileLoop word condition => simp [definitions] at hd
  | forLoop word init toWord bound =>
    obtain rfl := List.mem_singleton.1 hd
    rfl

theorem Simple.lexemes_of_definition {s : Simple} (h : d ∈ s.definitions) : s.lexemes = d.lexemes := by
  cases s with
  | definition d' =>
    obtain rfl := List.mem_singleton.1 h
    rfl
  | _ => simp [definitions] at h

theorem Header.lexemes_of_definition {h : Header} (hd : d ∈ h.definitions) :
    ∀ l ∈ d.lexemes, l ∈ h.lexemes := by
  cases h with
  | whileLoop word condition => simp [definitions] at hd
  | forLoop word init toWord bound =>
    obtain rfl := List.mem_singleton.1 hd
    exact fun l hl => List.mem_cons_of_mem _ (List.mem_append_left _ hl)

theorem Simple.length_definitions (s : Simple) : s.definitions.length ≤ 1 := by
  cases s <;> simp [definitions]

theorem Header.length_definitions (h : Header) : h.definitions.length ≤ 1 := by
  cases h <;> simp [definitions]

theorem mem_map_pair {ds : List Definition} :
    (around, d) ∈ ds.map (outer, ·) ↔ around = outer ∧ d ∈ ds := by
  simp only [List.mem_map, Prod.mk.injEq]
  constructor
  · rintro ⟨d', hd', rfl, rfl⟩
    exact ⟨rfl, hd'⟩
  · rintro ⟨rfl, hd⟩
    exact ⟨d, hd, rfl, rfl⟩

theorem append_eq_append_cons {α : Type} {xs ys before after : List α} {a : α}
    (h : xs ++ ys = before ++ a :: after) :
    (∃ after', xs = before ++ a :: after') ∨ ∃ before', before = xs ++ before' ∧
      ys = before' ++ a :: after := by
  rcases List.append_eq_append_iff.1 h with ⟨before', hbefore, hys⟩ | ⟨middle, hxs, hafter⟩
  · exact Or.inr ⟨before', hbefore, hys⟩
  · cases middle with
    | nil => exact Or.inr ⟨[], by simpa using hxs.symm, by simpa using hafter.symm⟩
    | cons a' middle =>
      obtain ⟨rfl, -⟩ := List.cons.inj hafter
      exact Or.inl ⟨middle, hxs⟩

theorem split_of_single {ds : List Definition} {before after : List (List Definition × Definition)}
    (hds : ds.length ≤ 1) (h : ds.map (outer, ·) = before ++ (around, d) :: after) :
    before = [] ∧ around = outer ∧ d ∈ ds := by
  have hmem : (around, d) ∈ ds.map (outer, ·) := by simp [h]
  have hlength := congrArg List.length h
  simp only [List.length_map, List.length_append, List.length_cons] at hlength
  exact ⟨List.eq_nil_of_length_eq_zero (by omega), mem_map_pair.1 hmem⟩

namespace Block

theorem mem_definitions (h : (around, d) ∈ b.definitions outer) :
    (∀ c ∈ outer, c ∈ around) ∧ (∀ l ∈ d.lexemes, l ∈ b.lexemes) ∧
      ∀ typing ∈ d.typings, typing ∈ b.typings := by
  induction b generalizing outer with
  | done => simp [definitions] at h
  | simple s rest ih =>
    simp only [definitions, List.mem_append, mem_map_pair] at h
    simp only [lexemes, typings, List.mem_append]
    rcases h with ⟨rfl, hd⟩ | h
    · rw [s.typings_of_definition hd, s.lexemes_of_definition hd]
      exact ⟨fun c hc => hc, fun l hl => Or.inl hl, fun typing ht => Or.inl ht⟩
    · obtain ⟨houter, hlex, htyp⟩ := ih h
      exact ⟨houter, fun l hl => Or.inr (hlex l hl), fun typing ht => Or.inr (htyp typing ht)⟩
  | loop header o body c rest ihb ihr =>
    simp only [definitions, List.mem_append, mem_map_pair] at h
    simp only [lexemes, typings, List.mem_append, List.mem_cons]
    rcases h with ⟨rfl, hd⟩ | h | h
    · rw [header.typings_of_definition hd]
      exact ⟨fun c hc => hc, fun l hl => Or.inl (Or.inl (header.lexemes_of_definition hd l hl)),
        fun typing ht => Or.inl (Or.inr ht)⟩
    · obtain ⟨houter, hlex, htyp⟩ := ihb h
      exact ⟨fun c hc => houter c (List.mem_append_right _ hc),
        fun l hl => Or.inl (Or.inr (Or.inr (Or.inl (hlex l hl)))),
        fun typing ht => Or.inl (Or.inl (htyp typing ht))⟩
    · obtain ⟨houter, hlex, htyp⟩ := ihr h
      exact ⟨houter, fun l hl => Or.inr (hlex l hl), fun typing ht => Or.inr (htyp typing ht)⟩

/-- Around the typings of a definition: what comes first in the source has been lowered first, unless it
is in the header of a loop around the definition, and what is in such a header is lowered behind. -/
theorem typings_around {before after : List (List Definition × Definition)}
    (h : b.definitions outer = before ++ (around, d) :: after) :
    ∃ front back, b.typings = front ++ (d.typings ++ back) ∧
      (∀ p ∈ before, p.2 ∈ around ∨ ∀ typing ∈ p.2.typings, typing ∈ front) ∧
      ∀ c ∈ around, c ∈ outer ∨ ∀ typing ∈ c.typings, typing ∈ back := by
  induction b generalizing outer before after with
  | done => simp [definitions] at h
  | simple s rest ih =>
    rw [definitions] at h
    rcases append_eq_append_cons h with ⟨after', hs⟩ | ⟨before', rfl, hrest⟩
    · obtain ⟨rfl, rfl, hd⟩ := split_of_single s.length_definitions hs
      exact ⟨[], rest.typings, by rw [typings, s.typings_of_definition hd]; rfl, by simp,
        fun c hc => Or.inl hc⟩
    · obtain ⟨front, back, hsplit, hbefore, haround⟩ := ih hrest
      refine ⟨s.typings ++ front, back, by rw [typings, hsplit, List.append_assoc], ?_, haround⟩
      rintro ⟨around', d'⟩ hp
      rcases List.mem_append.1 hp with hp | hp
      · refine Or.inr fun typing ht => List.mem_append_left _ ?_
        rwa [s.typings_of_definition (mem_map_pair.1 hp).2]
      · exact (hbefore _ hp).imp_right fun hfront typing ht => List.mem_append_right _ (hfront typing ht)
  | loop header o body c rest ihb ihr =>
    rw [definitions] at h
    rcases append_eq_append_cons h with ⟨after', hh⟩ | ⟨before', rfl, hbehind⟩
    · -- the definition is in the header, which is lowered behind the whole body
      obtain ⟨rfl, rfl, hd⟩ := split_of_single header.length_definitions hh
      exact ⟨body.typings, rest.typings, by simp [typings, header.typings_of_definition hd], by simp,
        fun c hc => Or.inl hc⟩
    · rcases append_eq_append_cons hbehind with ⟨after', hbody⟩ | ⟨before'', rfl, hrest⟩
      · -- it is in the body, so the header comes first and is lowered behind it
        obtain ⟨front, back, hsplit, hbefore, haround⟩ := ihb hbody
        refine ⟨front, back ++ (header.typings ++ rest.typings), by simp [typings, hsplit], ?_, ?_⟩
        · rintro ⟨around', d'⟩ hp
          rcases List.mem_append.1 hp with hp | hp
          · have hinside : (around, d) ∈ body.definitions (header.definitions ++ outer) := by
              simp [hbody]
            exact Or.inl ((mem_definitions hinside).1 d'
              (List.mem_append_left _ (mem_map_pair.1 hp).2))
          · exact hbefore _ hp
        · intro c hc
          rcases haround c hc with hc | hback
          · rcases List.mem_append.1 hc with hd | hc
            · refine Or.inr fun typing ht => ?_
              rw [← header.typings_of_definition hd] at ht
              simp [ht]
            · exact Or.inl hc
          · exact Or.inr fun typing ht => List.mem_append_left _ (hback typing ht)
      · obtain ⟨front, back, hsplit, hbefore, haround⟩ := ihr hrest
        refine ⟨body.typings ++ header.typings ++ front, back, by simp [typings, hsplit], ?_, haround⟩
        rintro ⟨around', d'⟩ hp
        simp only [List.mem_append, mem_map_pair] at hp
        rcases hp with ⟨-, hd⟩ | hp | hp
        · refine Or.inr fun typing ht => ?_
          rw [← header.typings_of_definition hd] at ht
          simp [ht]
        · exact Or.inr fun typing ht => by simp [(mem_definitions hp).2.2 typing ht]
        · exact (hbefore _ hp).imp_right fun hfront typing ht => List.mem_append_right _ (hfront typing ht)

theorem targets_perm (b : Block) (outer : List Definition) : (b.typings.map Typing.target).Perm
    ((b.definitions outer).flatMap (fun p => p.2.declared) ++ b.labels) := by
  induction b generalizing outer with
  | done => exact List.Perm.refl _
  | simple s rest ih =>
    refine List.perm_iff_count.2 fun l => ?_
    have hrest := (ih outer).count_eq l
    simp only [typings, definitions, labels, List.map_append, List.flatMap_append, List.flatMap_map,
      s.targets_eq, List.count_append] at hrest ⊢
    omega
  | loop header o body c rest ihb ihr =>
    refine List.perm_iff_count.2 fun l => ?_
    have hbody := (ihb (header.definitions ++ outer)).count_eq l
    have hrest := (ihr outer).count_eq l
    simp only [typings, definitions, labels, List.map_append, List.flatMap_append, List.flatMap_map,
      header.targets_eq, List.count_append] at hbody hrest ⊢
    omega

theorem targets_named (h : b.Proper) : ∀ typing ∈ b.typings,
    typing.target ∈ b.lexemes ∧ typing.target.isIdentifier := by
  induction b with
  | done => simp [typings]
  | simple s rest ih =>
    simp only [typings, lexemes, List.mem_append]
    rintro typing (hx | hx)
    · exact (s.targets_named h.1 typing hx).imp_left Or.inl
    · exact (ih h.2.2.2 typing hx).imp_left Or.inr
  | loop header o body c rest ihb ihr =>
    obtain ⟨hh, -, -, hb, -, -, -, hr⟩ := h
    simp only [typings, lexemes, List.mem_append, List.mem_cons]
    rintro typing ((hx | hx) | hx)
    · exact (ihb hb typing hx).imp_left fun hm => Or.inl (Or.inr (Or.inr (Or.inl hm)))
    · exact (header.targets_named hh typing hx).imp_left fun hm => Or.inl (Or.inl hm)
    · exact (ihr hr typing hx).imp_left Or.inr

structure DeclaresOnce (b : Block) : Prop where
  once : (b.declared.map Lexeme.text).Nodup
  apart : ∀ l ∈ b.declared, ∀ mark ∈ b.labels, mark.text ≠ l.text

theorem DeclaresOnce.count_eq_one (h : b.DeclaresOnce) {name : String}
    (hn : name ∈ b.declared.map Lexeme.text) :
    (b.typings.map fun typing => typing.target.text).count name = 1 := by
  have hperm := ((b.targets_perm []).map Lexeme.text).count_eq name
  rw [List.map_map, List.map_append, List.count_append] at hperm
  have hlabels : (b.labels.map Lexeme.text).count name = 0 := by
    obtain ⟨l, hl, rfl⟩ := List.mem_map.1 hn
    refine List.count_eq_zero.2 fun hmem => ?_
    obtain ⟨mark, hmark, htext⟩ := List.mem_map.1 hmem
    exact h.apart l hl mark hmark htext
  rw [hlabels] at hperm
  exact hperm.trans (List.count_eq_one_of_mem h.once hn)

theorem DeclaresOnce.text_ne (h : b.DeclaresOnce) {front back : List Typing} {p q : Typing}
    (hsplit : b.typings = front ++ back) (hp : p ∈ front) (hq : q ∈ back)
    (hn : p.target.text ∈ b.declared.map Lexeme.text) : q.target.text ≠ p.target.text := by
  intro heq
  have hone := h.count_eq_one hn
  rw [hsplit, List.map_append, List.count_append] at hone
  have hfront : 0 < (front.map fun typing => typing.target.text).count p.target.text :=
    List.count_pos_iff.2 (List.mem_map_of_mem hp)
  have hback : 0 < (back.map fun typing => typing.target.text).count p.target.text :=
    List.count_pos_iff.2 (heq ▸ List.mem_map_of_mem hq)
  omega

end Block

theorem Definition.Declares.exists_typing {name : String} (h : d.Declares name) :
    ∃ typing ∈ d.typings, typing.target.text = name := by
  obtain ⟨l, hl, rfl⟩ := h
  rw [← d.targets_eq] at hl
  obtain ⟨typing, ht, rfl⟩ := List.mem_map.1 hl
  exact ⟨typing, ht, rfl⟩

theorem TypeSource.ofValue_name {x : Lexeme} (h : x.isIdentifier) : ofValue [x] = .copied x.link := by
  have hstring : isString [x] = false := by
    simp [isString, Lexeme.isConstant, Lexeme.kind_of_isIdentifier h]
  simp [ofValue, hstring, isIdentifier, h]

namespace Block
variable {t : Tables} {i : Nat} {e : Identifier}

theorem link_ne_of_text_ne (h : b.Proper) (hl : AllLinked t b.lexemes)
    (he : t.identifiers.get? i = some e) {typing : Typing} (ht : typing ∈ b.typings)
    (hne : typing.target.text ≠ e.name) : typing.target.link ≠ some i := by
  intro hlink
  obtain ⟨hmem, hn⟩ := b.targets_named h typing ht
  obtain ⟨k, hk, e', he', hname⟩ := (hl _ hmem).2 (Lexeme.kind_of_isIdentifier hn)
  obtain rfl : k = i := Option.some.inj (hk.symm.trans hlink)
  rw [he, Option.some.injEq] at he'
  exact hne (by rw [he', hname])

theorem type_of_copy {before after : List (List Definition × Definition)} {word x y sign : Lexeme}
    {value : Expr} (h : b.Proper) (ht : t.Lexed) (hl : AllLinked t b.lexemes) (honce : b.DeclaresOnce)
    (hsplit : b.definitions [] =
      before ++ (around, .declaration word y none (some (sign, value))) :: after)
    (hvalue : value.lexemes = [x]) (hx : x.isIdentifier)
    (hearlier : ∃ p ∈ before, p.2.Declares x.text) :
    ∃ i j ex ey, (b.lower t).tables.identifiers.get? i = some ex ∧ ex.name = x.text ∧
      (b.lower t).tables.identifiers.get? j = some ey ∧ ey.name = y.text ∧
      ((∃ c ∈ around, c.Declares x.text) → ey.type = .undef) ∧
      ((∀ c ∈ around, ¬ c.Declares x.text) → ey.type = ex.type) := by
  obtain ⟨front, back, htypings, hbefore, haround⟩ := typings_around hsplit
  have hmem : (around, .declaration word y none (some (sign, value))) ∈ b.definitions [] := by
    simp [hsplit]
  obtain ⟨-, hlex, htyp⟩ := mem_definitions hmem
  have hxl : x.LinkedIn t := hl x (hlex x (by simp [Definition.lexemes, hvalue]))
  have hyl : y.LinkedIn t := hl y (hlex y (by simp [Definition.lexemes]))
  have hy : y.isIdentifier := (b.targets_named h ⟨y, _⟩ (htyp _ List.mem_cons_self)).2
  obtain ⟨i, hi, e, he, hename⟩ := hxl.2 (Lexeme.kind_of_isIdentifier hx)
  obtain ⟨j, hj, e', he', hename'⟩ := hyl.2 (Lexeme.kind_of_isIdentifier hy)
  have hyd : y.text ∈ b.declared.map Lexeme.text :=
    List.mem_map_of_mem (List.mem_flatMap.2 ⟨_, hmem, List.mem_cons_self⟩)
  -- `y` gets its type once, from what `x` has when the declaration is lowered
  have htypings : b.typings = front ++ ⟨y, .copied (some i)⟩ :: back := by
    rw [htypings, Definition.typings, Option.elim_some, hvalue, TypeSource.ofValue_name hx, hi]
    rfl
  obtain ⟨type, htype⟩ := Identifiers.get?_typed he b.typings
  obtain ⟨type', htype'⟩ := Identifiers.get?_typed he' b.typings
  have hilt : i < t.identifiers.size := (List.getElem?_eq_some_iff.1 he).1
  have hjlt : j < t.identifiers.size := (List.getElem?_eq_some_iff.1 he').1
  rw [← b.get?_lower_typed hjlt] at htype'
  have hcopy : type' = (TypeSource.copied (some i)).type (t.identifiers.typed front) := by
    refine b.type_of_lastTyping htype' hjlt htypings hj fun q hq => ?_
    have hbehind : b.typings = (front ++ [⟨y, .copied (some i)⟩]) ++ back := by simp [htypings]
    have hne := honce.text_ne (p := ⟨y, .copied (some i)⟩) hbehind (by simp) hq hyd
    exact link_ne_of_text_ne h hl he' (by simp [htypings, hq]) (by rwa [hename'])
  obtain ⟨p, hp, hdeclared⟩ := hearlier
  obtain ⟨l, hld, hltext⟩ := hdeclared
  have hxd : x.text ∈ b.declared.map Lexeme.text := by
    rw [← hltext]
    refine List.mem_map_of_mem (List.mem_flatMap.2 ⟨p, ?_, hld⟩)
    simp [hsplit, hp]
  refine ⟨i, j, _, _, (b.get?_lower_typed hilt).trans htype, hename, htype', hename', ?_, ?_⟩
  · rintro ⟨c, hc, hdeclares⟩
    -- `x` gets its type behind `y`, so it has none yet
    obtain ⟨typing, htc, htext⟩ := hdeclares.exists_typing
    have hback : typing ∈ back := (haround c hc).resolve_left (by simp) typing htc
    have hfront : ∀ q ∈ front, q.target.link ≠ some i := by
      intro q hq
      refine link_ne_of_text_ne h hl he (by simp [htypings, hq]) fun heq => ?_
      have hqx : q.target.text = x.text := heq.trans hename
      exact honce.text_ne htypings hq (List.mem_cons_of_mem _ hback) (hqx ▸ hxd) (htext.trans hqx.symm)
    rw [hcopy, TypeSource.type, Option.bind_some, Identifiers.get?_typed_of_ne hfront, he]
    exact (ht.untouched e (List.mem_of_getElem? he)).1
  · intro hno
    -- `x` has got its type, and no other comes behind `y`
    obtain ⟨typing, htp, htext⟩ := Definition.Declares.exists_typing ⟨l, hld, hltext⟩
    have hfront : typing ∈ front :=
      (hbefore p hp).resolve_left (fun hin => hno p.2 hin ⟨l, hld, hltext⟩) typing htp
    have hback : ∀ q ∈ (⟨y, .copied (some i)⟩ :: back : List Typing), q.target.link ≠ some i := by
      intro q hq
      refine link_ne_of_text_ne h hl he (by rw [htypings]; exact List.mem_append_right _ hq) ?_
      rw [hename, ← htext]
      exact honce.text_ne htypings hfront hq (htext ▸ hxd)
    rw [htypings, Identifiers.typed_append, Identifiers.get?_typed_of_ne hback] at htype
    rw [hcopy, TypeSource.type, Option.bind_some, htype]
    rfl

end Block
end

def Identifiers.named? (t : Identifiers) (name : String) : Option Identifier :=
  t.entries.find? fun e => e.name == name

theorem Identifiers.named?_of_get? {t : Identifiers} {i : Nat} {e : Identifier} (h : t.names.Nodup)
    (he : t.get? i = some e) : t.named? e.name = some e := by
  have hmem : e ∈ t.entries := List.mem_of_getElem? he
  obtain ⟨e', he'⟩ : ∃ e', t.named? e.name = some e' :=
    Option.isSome_iff_exists.1 (List.find?_isSome.2 ⟨e, hmem, beq_self_eq_true e.name⟩)
  have hname : e'.name = e.name := by simpa using List.find?_some he'
  rw [he', List.inj_on_of_nodup_map h (List.mem_of_find?_eq_some he') hmem hname]

/-- Where names are declared once and apart from labels, a declaration that copies a name declared
before it gets the type of that name, unless a `for` around the declaration declares it: then it gets
no type. -/
theorem compile_copied_type {s : Settings} {source : String} {compiled : Compiled}
    (h : s.compile source = .ok compiled) :
    let identifiers := compiled.program.tables.identifiers
    (∃ b : Block, b.Reads compiled.lexemes) ∧
    ∀ b : Block, b.Reads compiled.lexemes → b.DeclaresOnce →
    ∀ before around word y sign value after x,
      b.definitions [] = before ++ (around, .declaration word y none (some (sign, value))) :: after →
      value.lexemes = [x] → x.isIdentifier → (∃ p ∈ before, p.2.Declares x.text) →
      ∃ ex ey, identifiers.named? x.text = some ex ∧ identifiers.named? y.text = some ey ∧
        (ey.type = ex.type ↔ ex.type = .undef ∨ ∀ c ∈ around, ¬ c.Declares x.text) ∧
        ((∃ c ∈ around, c.Declares x.text) → ey.type = .undef) := by
  intro identifiers
  obtain ⟨hlexemes, hparse⟩ := Settings.parse_of_compile h
  rw [hlexemes]
  refine ⟨(isList_of_parse hparse).exists_tree.imp fun b hb => hb.2, ?_⟩
  intro b hb honce before around word y sign value after x hsplit hvalue hx hearlier
  obtain ⟨hlexed, hlinked⟩ := lex_spec source
  rw [← hb.2] at hlinked
  have hidentifiers : identifiers = (b.lower (lex source).tables).tables.identifiers :=
    congrArg (fun program => program.tables.identifiers) (eq_lower_of_parse hparse hb)
  have hnodup : identifiers.names.Nodup := by
    rw [hidentifiers]
    refine Identifiers.nodup_marked ?_ hlexed.namesFit.typed
    rw [Identifiers.names_typed]
    exact hlexed.nodup
  obtain ⟨i, j, ex, ey, hex, hxname, hey, hyname, hinside, houtside⟩ :=
    b.type_of_copy hb.1 hlexed hlinked honce hsplit hvalue hx hearlier
  rw [← hidentifiers] at hex hey
  refine ⟨ex, ey, hxname ▸ Identifiers.named?_of_get? hnodup hex,
    hyname ▸ Identifiers.named?_of_get? hnodup hey, ?_, hinside⟩
  by_cases hin : ∃ c ∈ around, c.Declares x.text
  · rw [hinside hin]
    constructor
    · exact fun heq => Or.inl heq.symm
    · rintro (hundef | hno)
      · exact hundef.symm
      · obtain ⟨c, hc, hdeclares⟩ := hin
        exact absurd hdeclares (hno c hc)
  · have hno : ∀ c ∈ around, ¬ c.Declares x.text := fun c hc hd => hin ⟨c, hc, hd⟩
    exact iff_of_true (houtside hno) (Or.inr hno)

theorem minimal_of_row {ls : List Lexeme} (h : rowRuns ls = [ls]) : Minimal ls := by
  intro front hfront hne
  rw [h] at hfront hne
  obtain rfl : front = [] := by
    rcases List.prefix_cons_iff.1 hfront with hnil | ⟨rest, rfl, hrest⟩
    · exact hnil
    · exact absurd (by rw [List.prefix_nil.1 hrest]) hne
  exact Trial.not_isStatementOver_nil IsList

instance (front rest : List Lexeme) : Decidable (Apart front rest) :=
  inferInstanceAs (Decidable (_ = _))

theorem proper_value_of_operand {sign l : Lexeme} (hs : sign.kind = .assign) (hl : l.kind.isOperand)
    (he : isExpression [l]) : ∀ p ∈ some (sign, Expr.operand l),
      p.1.kind = .assign ∧ p.2.Ordered ∧ isExpression p.2.lexemes := by
  rintro p ⟨⟩
  exact ⟨hs, hl, he⟩

/-- `val x = 1`, and on the next row `for var i = x to 3 do val y = i end`. -/
def copyingLoop : Block :=
  .simple (.definition (.declaration ⟨1, "val", .declaration .val, none⟩ ⟨1, "x", .identifier, some 0⟩
    none (some (⟨1, "=", .assign, none⟩, .operand ⟨1, "1", .constant, some 0⟩)))) <|
  .loop (.forLoop ⟨2, "for", .loop .forWord, none⟩
      (.declaration ⟨2, "var", .declaration .var, none⟩ ⟨2, "i", .identifier, some 1⟩ none
        (some (⟨2, "=", .assign, none⟩, .operand ⟨2, "x", .identifier, some 0⟩)))
      ⟨2, "to", .loop .toWord, none⟩ (.operand ⟨2, "3", .constant, some 1⟩))
    ⟨2, "do", .loop .doWord, none⟩
    (.simple (.definition (.declaration ⟨2, "val", .declaration .val, none⟩
      ⟨2, "y", .identifier, some 2⟩ none
      (some (⟨2, "=", .assign, none⟩, .operand ⟨2, "i", .identifier, some 1⟩)))) .done)
    ⟨2, "end", .loop .endWord, none⟩ .done

theorem copyingLoop_reads :
    copyingLoop.Reads (lex "val x = 1\nfor var i = x to 3 do val y = i end").lexemes := by
  refine ⟨⟨?_, minimal_of_row (by decide +kernel), by decide +kernel, ?_, rfl, by simp, ?_, rfl,
    minimal_of_row (by decide +kernel), by decide +kernel, trivial⟩, by decide +kernel⟩
  · exact ⟨⟨.val, rfl, by simp⟩, rfl, by simp, proper_value_of_operand rfl rfl (by decide +kernel)⟩
  · exact ⟨rfl, ⟨⟨.var, rfl, by simp⟩, rfl, by simp,
      proper_value_of_operand rfl rfl (by decide +kernel)⟩, rfl, rfl, by decide +kernel⟩
  · exact ⟨⟨⟨.val, rfl, by simp⟩, rfl, by simp, proper_value_of_operand rfl rfl (by decide +kernel)⟩,
      minimal_of_row (by decide +kernel), by decide +kernel, trivial⟩

theorem copyingLoop_declaresOnce : copyingLoop.DeclaresOnce := by
  have hlabels : copyingLoop.labels = [] := rfl
  exact ⟨by decide, by simp [hlabels]⟩

/-- The counter copies `x` and gets its type; `y` copies the counter and gets none. -/
theorem compile_copied_type_of_counter : ∃ source compiled ex ei ey,
    source = "val x = 1\nfor var i = x to 3 do val y = i end" ∧
    Settings.compile {} source = .ok compiled ∧
    copyingLoop.Reads compiled.lexemes ∧ copyingLoop.DeclaresOnce ∧
    compiled.program.tables.identifiers.named? "x" = some ex ∧
    compiled.program.tables.identifiers.named? "i" = some ei ∧
    compiled.program.tables.identifiers.named? "y" = some ey ∧
    ei.type = ex.type ∧ ey.type = .undef := by
  obtain ⟨compiled, hc, -⟩ := exists_of_any
    (r := Settings.compile {} "val x = 1\nfor var i = x to 3 do val y = i end")
    (p := fun _ => true) (by decide +kernel)
  have hreads : copyingLoop.Reads compiled.lexemes := by
    rw [(Settings.parse_of_compile hc).1]
    exact copyingLoop_reads
  have hall := (compile_copied_type hc).2 copyingLoop hreads copyingLoop_declaresOnce
  obtain ⟨ex, ei, hx, hi, htype, -⟩ := hall [_] [] _ _ _ _ [_] _ rfl rfl rfl
    ⟨_, List.mem_cons_self, _, List.mem_cons_self, rfl⟩
  obtain ⟨-, ey, -, hy, -, huntyped⟩ := hall [_, _] [_] _ _ _ _ [] _ rfl rfl rfl
    ⟨_, List.mem_cons_of_mem _ List.mem_cons_self, _, List.mem_cons_self, rfl⟩
  exact ⟨_, compiled, ex, ei, ey, rfl, hc, hreads, copyingLoop_declaresOnce, hx, hi, hy,
    htype.2 (Or.inr (by simp)), huntyped ⟨_, List.mem_cons_self, _, List.mem_cons_self, rfl⟩⟩

/-- The body of a `for` copies its counter, which is declared before it in the source, and has another
type than the counter. -/
theorem copy_of_counter_differs : ∃ compiled ex ey,
    ∃ (before after : List (List Definition × Definition)) (around : List Definition)
      (word x y sign : Lexeme),
    Settings.compile {} "val x = 1\nfor var i = x to 3 do val y = i end" = .ok compiled ∧
    copyingLoop.Reads compiled.lexemes ∧ copyingLoop.DeclaresOnce ∧
    copyingLoop.definitions [] =
      before ++ (around, .declaration word y none (some (sign, .operand x))) :: after ∧
    x.isIdentifier ∧ (∃ p ∈ before, p.2.Declares x.text) ∧
    compiled.program.tables.identifiers.named? x.text = some ex ∧
    compiled.program.tables.identifiers.named? y.text = some ey ∧ ey.type ≠ ex.type := by
  obtain ⟨compiled, hc, htypes⟩ := exists_of_any
    (r := Settings.compile {} "val x = 1\nfor var i = x to 3 do val y = i end")
    (p := fun compiled => decide
      ((∃ ex ∈ compiled.program.tables.identifiers.named? "i", ex.type = .number) ∧
        ∃ ey ∈ compiled.program.tables.identifiers.named? "y", ey.type = .undef))
    (by decide +kernel)
  obtain ⟨⟨ex, hx, hnumber⟩, ey, hy, hundef⟩ := of_decide_eq_true htypes
  have hreads : copyingLoop.Reads compiled.lexemes := by
    rw [(Settings.parse_of_compile hc).1]
    exact copyingLoop_reads
  exact ⟨compiled, ex, ey, [_, _], [], [_], _, _, _, _, hc, hreads, copyingLoop_declaresOnce, rfl, rfl,
    ⟨_, List.mem_cons_of_mem _ List.mem_cons_self, _, List.mem_cons_self, rfl⟩, hx, hy,
    by simp [hnumber, hundef]⟩

end RowLang
