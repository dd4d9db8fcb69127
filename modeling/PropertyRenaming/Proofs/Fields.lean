import Mathlib.Data.List.Forall2
import Mathlib.Tactic
import PropertyRenaming.Declarations

namespace PropertyRenaming

theorem Value.str?_eq_some_iff {v : Value} {s : String} : v.str? = some s ↔ v = .str s := by
  unfold Value.str?
  split <;> simp_all

namespace Node

variable {n : Node} {f g : Field}

theorem eta (n : Node) : (⟨n.kind, n.place, n.fields⟩ : Node) = n := by
  cases n
  rfl

@[simp] theorem kind_set (n : Node) (f : Field) (v : Value) : (n.set f v).kind = n.kind := by
  unfold set
  split <;> rfl

@[simp] theorem place_set (n : Node) (f : Field) (v : Value) : (n.set f v).place = n.place := by
  unfold set
  split <;> rfl

@[simp] theorem length_fields_set (n : Node) (f : Field) (v : Value) :
    (n.set f v).fields.length = n.fields.length := by
  unfold set
  split <;> simp

theorem get_mem_or_null (n : Node) (f : Field) : n.get f ∈ n.fields ∨ n.get f = .null := by
  unfold get
  split
  · rename_i i _
    rw [List.getD_eq_getElem?_getD]
    cases hi : n.fields[i]? with
    | none => exact Or.inr rfl
    | some v => exact Or.inl (List.mem_of_getElem? hi)
  · exact Or.inr rfl

theorem get_of_not_mem (h : f ∉ n.kind.fields) : n.get f = .null := by
  rw [get, List.idxOf?_eq_none_iff.mpr h]

theorem idxOf?_inj {fs : List Field} {i : Nat} (hf : fs.idxOf? f = some i)
    (hg : fs.idxOf? g = some i) : f = g := by
  rw [List.idxOf?_eq_some_iff] at hf hg
  obtain ⟨h, hf, -⟩ := hf
  obtain ⟨h', hg, -⟩ := hg
  simp_all

theorem get_set_of_ne (h : f ≠ g) (n : Node) (v : Value) : (n.set f v).get g = n.get g := by
  unfold get
  rw [kind_set]
  cases hg : n.kind.fields.idxOf? g with
  | none => rfl
  | some j =>
    unfold set
    cases hf : n.kind.fields.idxOf? f with
    | none => rfl
    | some i =>
      have hij : i ≠ j := fun hij => h (idxOf?_inj hf (hij ▸ hg))
      simp [List.getD_eq_getElem?_getD, List.getElem?_set_ne hij]

/-- A node with one value for each of its fields. -/
def Filled (n : Node) : Prop := n.fields.length = n.kind.fields.length

theorem Filled.set (hn : n.Filled) (f : Field) (v : Value) : (n.set f v).Filled := by
  unfold Filled at *
  rw [kind_set, length_fields_set, hn]

theorem Filled.refill (hn : n.Filled) (place : Place) {fields : List Value}
    (h : fields.length = n.fields.length) : Filled ⟨n.kind, place, fields⟩ :=
  h.trans hn

theorem Filled.get_set_self (hn : n.Filled) (hf : f ∈ n.kind.fields) (v : Value) :
    (n.set f v).get f = v := by
  unfold get
  rw [kind_set]
  cases hi : n.kind.fields.idxOf? f with
  | none => exact absurd hf (List.idxOf?_eq_none_iff.mp hi)
  | some i =>
    have hlt : i < n.fields.length := by
      rw [hn]
      exact (List.idxOf?_eq_some_iff.mp hi).1
    simp [Node.set, hi, List.getD_eq_getElem?_getD, hlt]

theorem Filled.set_get_self (hn : n.Filled) (f : Field) : n.set f (n.get f) = n := by
  obtain ⟨kind, place, fields⟩ := n
  cases hi : kind.fields.idxOf? f with
  | none => simp [Node.set, hi]
  | some i =>
    have hlt : i < fields.length := by
      rw [show fields.length = kind.fields.length from hn]
      exact (List.idxOf?_eq_some_iff.mp hi).1
    simp [Node.set, get, hi, List.getD_eq_getElem?_getD, hlt]

def modify (n : Node) (f : Field) (change : Value → Value) : Node := n.set f (change (n.get f))

theorem Filled.modify (hn : n.Filled) (f : Field) (change : Value → Value) :
    (n.modify f change).Filled := hn.set _ _

end Node

abbrev Patch := Field × (Value → Value)

def Node.patched (n : Node) (ps : List Patch) : Node := ps.foldl (fun n p => n.modify p.1 p.2) n

/-- What a field is declared to hold. -/
inductive Content
  | any
  | text
  | optionalText
  | number
  | optionalToken
  | items

namespace Content

def isItem : Value → Bool
  | .node n => n.kind == .propertyItem
  | _ => false

def admits : Content → Value → Bool
  | any, _ => true
  | text, .str _ => true
  | optionalText, .str _ | optionalText, .null => true
  | number, .int _ => true
  | optionalToken, .null => true
  | optionalToken, .node n => n.kind == .className
  | items, .list vs => vs.all isItem
  | _, _ => false

end Content

def Kind.content : Kind → Field → Content
  | .className, .value => .text
  | .namespaceBlock, .name => .optionalText
  | .useImport, .name => .text
  | .useImport, .shortName => .optionalText
  | .param, .type => .optionalToken
  | .propertyItem, .name => .text
  | .propertyDecl, .flags => .number
  | .propertyDecl, .props => .items
  | .classDecl _, .name => .optionalText
  | .classDecl _, .parent => .optionalToken
  | .classDecl _, .qualifiedName => .optionalText
  | _, _ => .any

/-- A node that holds what is declared, and that stands in one field only. -/
structure Node.WellFormed (n : Node) : Prop where
  filled : n.Filled
  admits (f : Field) : (n.kind.content f).admits (n.get f) = true
  unshared : n.place.share = none

theorem Node.WellFormed.at_place {n : Node} (h : n.WellFormed) {place : Place}
    (hp : place.share = none) : Node.WellFormed ⟨n.kind, place, n.fields⟩ where
  filled := h.filled
  admits := h.admits
  unshared := hp

theorem Node.WellFormed.set {n : Node} (h : n.WellFormed) {f : Field} {v : Value}
    (hv : (n.kind.content f).admits v = true) : (n.set f v).WellFormed where
  filled := h.filled.set f v
  unshared := by rw [place_set, h.unshared]
  admits g := by
    rw [kind_set]
    by_cases hg : f = g
    · subst hg
      by_cases hf : f ∈ n.kind.fields
      · rw [h.filled.get_set_self hf]
        exact hv
      · have hi : n.kind.fields.idxOf? f = none := List.idxOf?_eq_none_iff.mpr hf
        simpa [Node.set, hi] using h.admits f
    · rw [get_set_of_ne hg]
      exact h.admits g

theorem Kind.content_of_not_mem {kind : Kind} {f : Field} (h : f ∉ kind.fields) :
    kind.content f = .any := by
  unfold Kind.content
  split <;> simp_all [Kind.fields]

instance (n : Node) : Decidable n.WellFormed :=
  decidable_of_iff (n.fields.length = n.kind.fields.length ∧
      (∀ f ∈ n.kind.fields, (n.kind.content f).admits (n.get f) = true) ∧ n.place.share = none)
    ⟨fun ⟨hfilled, hadmits, hshare⟩ =>
      { filled := hfilled
        admits := fun f => by
          by_cases hf : f ∈ n.kind.fields
          · exact hadmits f hf
          · rw [Kind.content_of_not_mem hf]
            rfl
        unshared := hshare },
      fun h => ⟨h.filled, fun f _ => h.admits f, h.unshared⟩⟩

/-- A unit whose nodes all hold what is declared. -/
def WellFormed (unit : List Node) : Prop := ∀ n ∈ preorder unit, n.WellFormed

instance (unit : List Node) : Decidable (WellFormed unit) := List.decidableBAll _ (preorder unit)

end PropertyRenaming
