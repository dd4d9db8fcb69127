import PropertyRenaming.Proofs.DistinctNames
import PropertyRenaming.Proofs.ScannedWalk

namespace PropertyRenaming

open Declarations (Drawing Spares Terms)

def Atom.IsIdentifier (a : Atom) : Prop := ∃ t, a = .text t ∧ isIdentifier t = true

namespace Names

/-- The names from the supply are identifiers, and none of them is taken. -/
structure Fresh {γ : Type} (supply : Supply γ) (Kept : γ → Prop) : Prop where
  avoids : Avoids supply Kept
  identifiers : Yields supply Kept Atom.IsIdentifier

theorem isIdentifier_of_checked {name : String} {new : Atom} (h : checked name = .ok new) :
    new.IsIdentifier := by
  unfold checked at h
  split at h
  · rename_i hname
    exact ⟨name, (Except.ok.inj h).symm, hname⟩
  · cases h

theorem isIdentifier_numberedCandidate (n : Nat) : isIdentifier (numberedCandidate n) = true := by
  rw [numberedCandidate, ← String.ofList_toList (s := toString n)]
  apply isIdentifier_append (by decide)
  rw [List.all_eq_true]
  intro c hc
  rw [Nat.toString_eq_repr, Nat.toList_repr] at hc
  have hdigit := Nat.isDigit_of_mem_toDigits (by decide) (by decide) hc
  simp [isIdentifierPart, Char.isAlphanum, hdigit]

theorem identifiers_draw : Yields Source.draw Source.Searches Atom.IsIdentifier := by
  intro asked taken source hsource
  refine ⟨(avoids_draw asked taken source hsource).1, fun new hnew => ?_⟩
  cases source with
  | alphabetic lead =>
    simp only [Source.draw, alphabetic] at hnew
    split at hnew
    · exact isIdentifier_of_checked hnew
    · cases hnew
  | hashed h =>
    simp only [Source.draw, hashed] at hnew
    split at hnew
    · exact isIdentifier_of_checked hnew
    · cases hnew
  | numbered last =>
    simp only [Source.draw] at hnew
    split at hnew
    · rename_i k _
      exact ⟨_, (Except.ok.inj hnew).symm, isIdentifier_numberedCandidate k⟩
    · cases hnew
  | listed names => exact hsource.elim
  | counting => exact hsource.elim

theorem fresh_draw : Fresh Source.draw Source.Searches := ⟨avoids_draw, identifiers_draw⟩

theorem Source.searches_ofSettings {settings : Settings} {source : Source}
    (h : Source.ofSettings settings = .ok source) : source.Searches := by
  unfold Source.ofSettings at h
  split at h
  · cases h
    trivial
  · cases h
    trivial
  · cases h

end Names

namespace Declarations

variable {γ : Type} {t : Terms γ} {d d' : Drawing γ} {qs : List Request}
  {names : List (Option Atom)}

/-- Identifiers that are not reserved. -/
def NewName (reserved : List Atom) (a : Atom) : Prop := a.IsIdentifier ∧ a.isIn reserved = false

theorem NewName.exists_text {reserved : List Atom} {a : Atom} (h : NewName reserved a) :
    ∃ t, a = .text t := by
  obtain ⟨text, htext, -⟩ := h.1
  exact ⟨text, htext⟩

theorem NewName.not_mem {old : List String} {new : String}
    (h : NewName (old.map .text) (.text new)) : new ∉ old := by
  intro hmem
  have hsame := Atom.isIn_eq_false_iff.mp h.2 (.text new) (List.mem_map_of_mem hmem)
  simp at hsame

theorem Terms.serveAll_new {Kept : γ → Prop} (hfresh : Names.Fresh t.supply Kept)
    (hd : d.Sound Kept) (hslots : ∀ q ∈ qs, q.slot = none) :
    Spares t.ignore (NewName t.reserved) qs (t.serveAll qs d).2.1 := by
  intro e he new hnew
  obtain ⟨hspared, hidentifier⟩ :=
    Terms.serveAll_spares hfresh.identifiers hd.memory hslots e he new hnew
  obtain ⟨k, hk⟩ := List.mem_iff_getElem?.mp (List.of_mem_zip he).2
  have hstep := t.step_serveAll qs k d
  rw [hk, Option.join_some, hnew] at hstep
  have hadds := (hstep.adds hfresh.avoids (hd.serveAll hfresh.avoids qs k).1).1
  exact ⟨hspared, hidentifier, hadds.exists_key.1⟩

/-- Drawing a name notes nothing, or the name under the key of the item. -/
theorem Terms.map_draw (t : Terms γ) {name : Atom} {scope : Option Scope} {key : Key}
    (hkey : d.map.key name scope = .ok key) :
    (t.draw name scope d).1.map = d.map ∨ ∃ new, (t.draw name scope d).2.1 = some new ∧
      (t.draw name scope d).1.map = d.map.insert key new := by
  have hdraws := t.draws name scope d
  generalize t.draw name scope d = o at hdraws ⊢
  cases hdraws with
  | keyless _ | refused _ _ | unnoted _ _ _ _ => exact Or.inl rfl
  | noted _ _ hkey' _ _ =>
    obtain rfl := Except.ok.inj (hkey.symm.trans hkey')
    exact Or.inr ⟨_, rfl, rfl⟩

theorem Terms.map_serve (t : Terms γ) (owner : ClassId) (name : Atom) (d : Drawing γ) :
    (t.serve (.item owner name none) d).1.map = d.map ∨
      ∃ new, (t.serve (.item owner name none) d).2.1 = some new ∧
        (t.serve (.item owner name none) d).1.map =
          d.map.insert (propertyKey d.map.perClass t.scope owner name) new := by
  cases hname : name.isIn t.ignore with
  | true =>
    left
    rw [t.serve_ignored owner hname]
    split <;> rfl
  | false =>
    rw [t.serve_item owner hname]
    exact t.map_draw (d.map.key_eq_propertyKey t.scope owner name)

/-- Whatever is in the map after some requests was there before, or it is the name that was drawn
for one of them. -/
theorem Terms.mem_serveAll (hslots : ∀ q ∈ qs, q.slot = none)
    (h : t.serveAll qs d = (d', names, none)) {e : Key × Atom} (he : e ∈ d'.map.entries) :
    e ∈ d.map.entries ∨ ∃ owner name, Request.item owner name none ∈ qs ∧
      e.1.code = (propertyKey d.map.perClass t.scope owner name).code ∧ (some e.2) ∈ names := by
  induction qs generalizing d names with
  | nil =>
    cases h
    exact Or.inl he
  | cons q qs ih =>
    have hgrows := t.serve_grows q d
    rw [List.forall_mem_cons] at hslots
    cases q with
    | bad e => simp [Terms.serveAll, Terms.serve] at h
    | item owner name slot =>
      obtain rfl : slot = none := hslots.1
      have hmap := t.map_serve owner name d
      obtain ⟨⟨d₁, new, fault⟩, hserve⟩ : ∃ o, t.serve (.item owner name none) d = o := ⟨_, rfl⟩
      rw [hserve] at hmap hgrows
      cases fault with
      | some e => simp [serveAll_cons_fault hserve] at h
      | none =>
        rw [serveAll_cons_served hserve] at h
        obtain ⟨hd', hnames, hfault⟩ : (t.serveAll qs d₁).1 = d' ∧
            new :: (t.serveAll qs d₁).2.1 = names ∧ (t.serveAll qs d₁).2.2 = none := by
          simpa using h
        rcases ih hslots.2 (Prod.ext hd' (Prod.ext rfl hfault)) with
          he | ⟨owner', name', hmem, hcode, hdrawn⟩
        · -- The entry is from this request or from before it.
          rcases hmap with hmap | ⟨new', hnew, hmap⟩
          · exact Or.inl (hmap ▸ he)
          · rw [hmap] at he
            rcases RenameMap.mem_put he with he | ⟨hcode, hvalue⟩
            · exact Or.inl he
            · refine Or.inr ⟨owner, name, List.mem_cons_self, hcode, ?_⟩
              rw [hvalue, ← hnew, ← hnames]
              exact List.mem_cons_self
        · refine Or.inr ⟨owner', name', List.mem_cons_of_mem _ hmem, hgrows.perClass ▸ hcode, ?_⟩
          rw [← hnames]
          exact List.mem_cons_of_mem _ hdrawn

theorem mem_propertyNames_of_asked {unit : List Node} (hu : WellFormed unit) {owner : ClassId}
    {name : Atom} (h : Request.item owner name none ∈ requests unit) :
    ∃ text ∈ propertyNames unit, name = .text text := by
  obtain ⟨asked, hasked, hmem⟩ := exists_asked hu
  rw [hasked] at h
  obtain ⟨q, hq, hrequest⟩ := List.mem_map.mp h
  obtain ⟨x, hx, hdeclared⟩ := (hmem q).mp hq
  obtain ⟨-, rfl, -⟩ := Request.item.inj hrequest
  exact ⟨q.2, mem_propertyNames_of_declared hx hdeclared, rfl⟩

theorem Spares.given {ignore : List Atom} {given : Atom → Prop} (h : Spares ignore given qs names)
    (hlen : names.length ≤ qs.length) {new : Atom} (hnew : some new ∈ names) : given new := by
  have hzip : (qs.zip names).map Prod.snd = names := List.map_snd_zip hlen
  rw [← hzip] at hnew
  obtain ⟨e, he, hname⟩ := List.mem_map.mp hnew
  exact (h e he new hname).2

end Declarations

namespace Renamer

variable {γ : Type} {supply : Names.Supply γ} {Kept : γ → Prop} {limit : Nat} {unit : List Node}
  {s : Session (Renamer γ)}

/-- An entry of a map that a walk with a fresh supply leaves: its key is made from a name of the
unit, and its name is none. -/
def NewEntry (perClass : Bool) (scope : ClassId → Scope) (unit : List Node) (e : Key × Atom) :
    Prop :=
  (∃ owner, ∃ name ∈ propertyNames unit, e.1.code = propertyKey perClass scope owner (.text name)) ∧
    Declarations.NewName ((propertyNames unit).map .text) e.2

section Entries

variable {map : RenameMap} {table : ClassTable}
  (hentries : ∀ e ∈ map.entries, NewEntry map.perClass table.scope unit e)

include hentries

theorem newName_of_fetchRewriting {x : Site} {a : Atom} (h : fetchRewriting map table x = some a) :
    Declarations.NewName ((propertyNames unit).map .text) a := by
  obtain ⟨_, -, hget⟩ := Option.bind_eq_some_iff.mp h
  obtain ⟨e, he, -, rfl⟩ := RenameMap.exists_mem_of_find?_eq_some hget
  exact (hentries e he).2

theorem fits_fetchRewriting : (fetchRewriting map table).Fits where
  kind hx := Or.inr (fetchRewriting_literal hx).1
  literal _ hx := (fetchRewriting_literal hx).2
  text hx := (newName_of_fetchRewriting hentries hx).exists_text

end Entries

/-- How a walk with a fresh supply ends, if it does. -/
theorem exists_fresh_end (hfresh : Names.Fresh supply Kept) (hu : WellFormed unit)
    (hd : depth unit ≤ limit) (hs : s.log.Quiet) (hkept : Kept s.own.memory) {nodes : List Node}
    (h : (traverse limit [visitor supply] unit s).reply = .ok nodes) :
    ∃ d names, Ended supply unit s d names (traverse limit [visitor supply] unit s) ∧
      Spares s.own.ignore (Declarations.NewName ((propertyNames unit).map .text))
        (Declarations.requests unit) names ∧
      d.map.perClass = s.own.map.perClass ∧
      ∀ e ∈ d.map.entries, NewEntry d.map.perClass s.classes.scope unit e := by
  obtain ⟨d, names, hserve⟩ := exists_served hu h
  have hslots : ∀ q ∈ Declarations.requests unit, q.slot = none := fun q hq =>
    (Declarations.slot_of_mem_requests hu hq).1
  have hstart : (scanStart s).Sound Kept := ⟨hkept, RenameMap.sound_nil s.own.map.perClass⟩
  have hnew := Declarations.Terms.serveAll_new (t := scanTerms supply unit s) hfresh hstart hslots
  have hgrows := (scanTerms supply unit s).serveAll_grows (Declarations.requests unit) (scanStart s)
  rw [hserve] at hnew hgrows
  have hperClass : d.map.perClass = s.own.map.perClass := hgrows.perClass
  have htext : Spares s.own.ignore Atom.IsText (Declarations.requests unit) names := by
    intro e he new hname
    obtain ⟨hspared, hgiven⟩ := hnew e he new hname
    exact ⟨hspared, hgiven.exists_text⟩
  refine ⟨d, names, ended_of_served hu hd hs hserve htext, hnew, hperClass, fun e he => ?_⟩
  rcases Declarations.Terms.mem_serveAll hslots hserve he with
    hempty | ⟨owner, name, hasked, hcode, hdrawn⟩
  · exact absurd hempty List.not_mem_nil
  · obtain ⟨text, htext, rfl⟩ := Declarations.mem_propertyNames_of_asked hu hasked
    rw [code_propertyKey] at hcode
    exact ⟨⟨owner, text, htext, hperClass ▸ hcode⟩,
      hnew.given (Declarations.Terms.length_serveAll hserve).le hdrawn⟩

end Renamer

end PropertyRenaming
