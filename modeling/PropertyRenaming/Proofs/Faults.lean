import PropertyRenaming.Proofs.Keys
import PropertyRenaming.RenameUnit

namespace PropertyRenaming

def stopFault : Fault := .detailTaken "name"

theorem Value.strippedName_ne {v : Value} {e : Fault} (h : v.strippedName = .error e) :
    e ≠ stopFault := by
  unfold strippedName at h
  split at h
  · cases h
  · obtain rfl := Except.error.inj h
    nofun

theorem Value.asName_ne {v : Value} {e : Fault} (h : v.asName = .error e) : e ≠ stopFault := by
  unfold asName at h
  split at h
  · cases h
  · obtain rfl := Except.error.inj h
    nofun

theorem Node.tokenText_ne {token : Node} {e : Fault} (h : token.tokenText = .error e) :
    e ≠ stopFault := by
  unfold tokenText at h
  split at h
  · cases h
  · obtain rfl := Except.error.inj h
    nofun

theorem Context.openScope_ne {n : Node} {c : Context} {e : Fault} (h : openScope n c = .error e) :
    e ≠ stopFault := by
  unfold openScope at h
  split at h
  · unfold nsOf at h
    split at h
    · cases hname : (n.get .name).strippedName with
      | ok name => simp [hname, Except.map] at h
      | error e' =>
        obtain rfl : e' = e := by simpa [hname, Except.map] using h
        exact Value.strippedName_ne hname
    · cases h
  · unfold addImport exposedName at h
    cases hname : (n.get .name).strippedName with
    | error e' =>
      obtain rfl : e' = e := by simpa [hname, bind, Except.bind] using h
      exact Value.strippedName_ne hname
    | ok name =>
      simp only [hname, bind, Except.bind, Except.map] at h
      split at h
      · rename_i hshort
        split at hshort <;> cases hshort
      · split at h
        · cases h
        · obtain rfl := Except.error.inj h
          nofun
  · cases h
  · cases h

theorem ClassTable.isLocal_ne {t : ClassTable} {n : Node} {e : Fault} (h : t.isLocal n = .error e) :
    e ≠ stopFault := by
  unfold isLocal at h
  split at h
  · cases h
  · split at h
    · rename_i token _
      cases htext : token.tokenText with
      | ok text => simp [htext, Except.map] at h
      | error e' =>
        obtain rfl : e' = e := by simpa [htext, Except.map] using h
        exact Node.tokenText_ne htext
    · cases h
  · cases h

theorem RenameMap.key_ne {m : RenameMap} {name : Atom} {scope : Option Scope} {e : Fault}
    (h : m.key name scope = .error e) : e ≠ stopFault := by
  unfold key at h
  split at h
  · cases h
  · cases h
  · obtain rfl := Except.error.inj h
    nofun

theorem RenameMap.replacements_ne {m : RenameMap} {name : Atom} {scope : Option Scope} {e : Fault}
    (h : m.replacements name scope = .error e) : e ≠ stopFault :=
  key_ne (key_of_replacements_error h)

theorem reservedNames_ne {unit : List Node} {e : Fault} (h : reservedNames unit = .error e) :
    e ≠ stopFault := by
  have hmem : ∀ l : List (Except Fault Atom), l.mapM id = .error e → .error e ∈ l := by
    intro l
    induction l with
    | nil => nofun
    | cons a l ih =>
      intro hl
      rw [List.mapM_cons] at hl
      cases a with
      | error e' =>
        obtain rfl : e' = e := by simpa [bind, Except.bind] using hl
        exact List.mem_cons_self
      | ok a =>
        cases hrest : l.mapM id with
        | error e' =>
          obtain rfl : e' = e := by simpa [hrest, bind, Except.bind] using hl
          exact List.mem_cons_of_mem _ (ih hrest)
        | ok names => simp [hrest, bind, Except.bind, pure, Except.pure] at hl
  obtain ⟨n, -, hn⟩ := List.mem_filterMap.mp (hmem _ h)
  unfold Node.reservedName? at hn
  split at hn
  · exact Value.asName_ne (Option.some.inj hn)
  · split at hn
    · obtain ⟨name, -, hname⟩ := Option.map_eq_some_iff.mp hn
      cases hname
    · cases hn

theorem Settings.check_ne {settings : Settings} {e : Fault} (h : settings.check = .error e) :
    e ≠ stopFault := by
  have hlead : ∀ {a : Atom} {e : Fault}, checkLead a = .error e → e ≠ stopFault := by
    intro a e h
    unfold checkLead at h
    split at h <;> split at h
    · cases h
    · obtain rfl := Except.error.inj h
      nofun
    · obtain rfl := Except.error.inj h
      nofun
    · cases h
  unfold check at h
  split at h
  · obtain rfl := Except.error.inj h
    nofun
  · cases hl : checkLead settings.lead with
    | error e' =>
      obtain rfl : e' = e := by simpa [hl, bind, Except.bind] using h
      exact hlead hl
    | ok _ =>
      simp only [hl, bind, Except.bind] at h
      split at h
      · cases h
      · obtain rfl := Except.error.inj h
        nofun

theorem Names.Source.ofSettings_ne {settings : Settings} {e : Fault}
    (h : ofSettings settings = .error e) : e ≠ stopFault := by
  unfold ofSettings at h
  split at h
  · cases h
  · cases h
  · obtain rfl := Except.error.inj h
    nofun

/-- A supply that does not answer with the fault of a stopped run itself. -/
def Names.Unstopped {γ : Type} (supply : Names.Supply γ) : Prop :=
  ∀ asked taken memory, (supply asked taken memory).name ≠ .error stopFault

theorem Names.Source.unstopped_draw : Unstopped draw := by
  have hchecked : ∀ name, Names.checked name ≠ .error stopFault := by
    intro name h
    unfold Names.checked at h
    split at h <;> cases h
  intro asked taken source
  cases source with
  | alphabetic lead =>
    intro h
    simp only [Names.Source.draw, Names.alphabetic] at h
    split at h
    · exact hchecked _ h
    · cases h
  | hashed hashing =>
    intro h
    simp only [Names.Source.draw, Names.hashed] at h
    split at h
    · exact hchecked _ h
    · cases h
  | numbered last =>
    intro h
    simp only [Names.Source.draw] at h
    split at h <;> cases h
  | listed names => cases names <;> simp [Names.Source.draw, stopFault]
  | counting => simp [Names.Source.draw]

namespace Declarations

theorem isPrivate_ne {n : Node} {e : Fault} (h : isPrivate n = .error e) : e ≠ stopFault := by
  unfold isPrivate at h
  split at h
  · cases h
  · cases h
  · obtain rfl := Except.error.inj h
    nofun

theorem itemName_ne {v : Value} {e : Fault} (h : itemName v = .error e) : e ≠ stopFault := by
  unfold itemName at h
  split at h
  · split at h
    · exact Value.asName_ne h
    · obtain rfl := Except.error.inj h
      nofun
  · obtain rfl := Except.error.inj h
    nofun

theorem stop_not_mem_itemNames (v : Value) : .error stopFault ∉ itemNames v := by
  unfold itemNames
  split
  · rename_i items
    intro h
    obtain ⟨item, -, hitem⟩ := List.mem_map.mp h
    exact itemName_ne hitem rfl
  · rename_i text
    intro h
    obtain ⟨c, -, hc⟩ := List.mem_map.mp h
    cases hc
  · intro h
    cases List.mem_singleton.mp h

theorem stop_not_mem_ownRequests (enclosing : Option ClassId) (n : Node) :
    .bad stopFault ∉ ownRequests enclosing n := by
  unfold ownRequests
  intro h
  split at h
  · split at h
    · rename_i e he
      obtain rfl : stopFault = e := Request.bad.inj (List.mem_singleton.mp h)
      exact isPrivate_ne he rfl
    · rename_i owner _
      obtain ⟨name, hname, hbad⟩ := List.mem_map.mp h
      cases name with
      | ok name => cases hbad
      | error e =>
        obtain rfl : e = stopFault := Request.bad.inj hbad
        exact stop_not_mem_itemNames _ hname
    · cases h
  · cases h

theorem stop_not_mem_sharedRequests {qs : List Request} (h : .bad stopFault ∉ qs)
    (share : Option ShareId) : .bad stopFault ∉ sharedRequests share qs := by
  cases share with
  | none => exact h
  | some id =>
    intro hmem
    obtain ⟨i, hi, hq⟩ := List.mem_mapIdx.mp hmem
    have hbelow : ∀ q, Request.below id i q = .bad stopFault → q = .bad stopFault := by
      intro q hq
      unfold Request.below at hq
      split at hq
      · cases hq
      · exact hq
    exact h (hbelow _ hq ▸ List.getElem_mem hi)

mutual

theorem stop_not_mem_nodeRequests (enclosing : Option ClassId) : (n : Node) →
    .bad stopFault ∉ nodeRequests enclosing n
  | ⟨kind, place, fields⟩ => by
    rw [nodeRequests]
    refine stop_not_mem_sharedRequests ?_ place.share
    rw [List.mem_append, not_or]
    exact ⟨stop_not_mem_ownRequests enclosing _, stop_not_mem_fieldRequests _ fields⟩

theorem stop_not_mem_valueRequests (enclosing : Option ClassId) : (v : Value) →
    .bad stopFault ∉ valueRequests enclosing v
  | .node n => by
    rw [valueRequests]
    exact stop_not_mem_nodeRequests enclosing n
  | .list vs => by
    rw [valueRequests]
    split
    · exact stop_not_mem_fieldRequests enclosing vs
    · exact List.not_mem_nil
  | .atom _ | .object => by simp [valueRequests]

theorem stop_not_mem_fieldRequests (enclosing : Option ClassId) : (vs : List Value) →
    .bad stopFault ∉ fieldRequests enclosing vs
  | [] => List.not_mem_nil
  | v :: vs => by
    rw [fieldRequests, List.mem_append, not_or]
    exact ⟨stop_not_mem_valueRequests enclosing v, stop_not_mem_fieldRequests enclosing vs⟩

end

theorem stop_not_mem_requests (unit : List Node) : .bad stopFault ∉ requests unit := by
  intro h
  obtain ⟨n, -, hn⟩ := List.mem_flatMap.mp h
  exact stop_not_mem_nodeRequests none n hn

end Declarations

end PropertyRenaming
