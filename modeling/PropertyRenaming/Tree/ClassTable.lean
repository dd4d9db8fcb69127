import PropertyRenaming.Tree.Spelling

namespace PropertyRenaming

/-- What stands for a class among the keys of a map: its qualified name, or its number, which no
name can be mistaken for. -/
inductive Scope
  | unnamed (id : ClassId)
  | named (name : Value)

def Scope.ofName (id : ClassId) : Value → Scope
  | .null => .unnamed id
  | name => .named name

def Scope.shown : Scope → Value
  | .unnamed id => .str ("class@#" ++ toString id)
  | .named name => name

/-- The classes met so far, by number, each with its qualified name once that is known. A node refers
to its enclosing class by number, so it sees the name that the class has now. -/
structure ClassTable where
  names : List Value := []

namespace ClassTable

def register (t : ClassTable) : ClassId × ClassTable := (t.names.length, ⟨t.names ++ [.null]⟩)

def number (t : ClassTable) : Kind → Kind × ClassTable
  | .classDecl _ =>
    let (id, t) := t.register
    (.classDecl id, t)
  | kind => (kind, t)

def name (t : ClassTable) (id : ClassId) : Value := t.names.getD id .null

def setName (t : ClassTable) (id : ClassId) (name : Value) : ClassTable := ⟨t.names.set id name⟩

def scope (t : ClassTable) (id : ClassId) : Scope := .ofName id (t.name id)

end ClassTable

mutual

/-- Gives every class below a value a number of its own, a class before those inside it. -/
def Value.renumber (t : ClassTable) : Value → Value × ClassTable
  | .node n =>
    let (n, t) := n.renumber t
    (.node n, t)
  | .list vs =>
    let (vs, t) := Value.renumberAll t vs
    (.list vs, t)
  | v => (v, t)

def Node.renumber (t : ClassTable) : Node → Node × ClassTable
  | ⟨.classDecl _, place, fields⟩ =>
    let (id, t) := t.register
    let (fields, t) := Value.renumberAll t fields
    let n : Node := ⟨.classDecl id, place, fields⟩
    (n, t.setName id (n.get .qualifiedName))
  | ⟨kind, place, fields⟩ =>
    let (fields, t) := Value.renumberAll t fields
    (⟨kind, place, fields⟩, t)

def Value.renumberAll (t : ClassTable) : List Value → List Value × ClassTable
  | [] => ([], t)
  | v :: vs =>
    let (v, t) := v.renumber t
    let (vs, t) := Value.renumberAll t vs
    (v :: vs, t)

end

end PropertyRenaming
