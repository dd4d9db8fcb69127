namespace PropertyRenaming

/-- Class declarations are numbered, so that a node can say which class encloses it. -/
abbrev ClassId := Nat

inductive Field
  | value
  | name
  | target
  | func
  | args
  | cls
  | object
  | nullsafe
  | stmts
  | shortName
  | type
  | initial
  | flags
  | props
  | params
  | parent
  | qualifiedName
  | expr
  deriving DecidableEq

def Field.label : Field → String
  | .value => "value"
  | .name => "name"
  | .target => "target"
  | .func => "func"
  | .args => "args"
  | .cls => "cls"
  | .object => "var"
  | .nullsafe => "nullsafe"
  | .stmts => "stmts"
  | .shortName => "alias"
  | .type => "type"
  | .initial => "default"
  | .flags => "flags"
  | .props => "props"
  | .params => "params"
  | .parent => "extends"
  | .qualifiedName => "namespaced_name"
  | .expr => "expr"

inductive Kind
  | className
  | variableRef
  | scalar
  | assign
  | call
  | instantiate
  | fetch
  | staticFetch
  | namespaceBlock
  | useImport
  | param
  | propertyItem
  | propertyDecl
  | method
  | function
  | classDecl (id : ClassId)
  | returnStmt
  | exprStmt
  deriving DecidableEq

namespace Kind

def label : Kind → String
  | className => "Name"
  | variableRef => "Variable"
  | scalar => "Scalar"
  | assign => "Assign"
  | call => "Call"
  | instantiate => "New"
  | fetch => "PropertyFetch"
  | staticFetch => "StaticPropertyFetch"
  | namespaceBlock => "Namespace"
  | useImport => "UseImport"
  | param => "Param"
  | propertyItem => "PropertyItem"
  | propertyDecl => "PropertyDecl"
  | method => "ClassMethod"
  | function => "Function"
  | classDecl _ => "ClassDecl"
  | returnStmt => "Return"
  | exprStmt => "ExprStmt"

/-- One kind of each label. -/
def all : List Kind :=
  [className, variableRef, scalar, assign, call, instantiate, fetch, staticFetch, namespaceBlock,
   useImport, param, propertyItem, propertyDecl, method, function, classDecl 0, returnStmt,
   exprStmt]

def ofLabel? (s : String) : Option Kind := all.find? (·.label == s)

def fields : Kind → List Field
  | className => [.value]
  | variableRef => [.name]
  | scalar => [.value]
  | assign => [.target, .value]
  | call => [.func, .args]
  | instantiate => [.cls, .args]
  | fetch => [.object, .name, .nullsafe]
  | staticFetch => [.cls, .name]
  | namespaceBlock => [.name, .stmts]
  | useImport => [.name, .shortName]
  | param => [.name, .type]
  | propertyItem => [.name, .initial]
  | propertyDecl => [.flags, .props]
  | method => [.name, .flags, .params, .stmts]
  | function => [.name, .params, .stmts]
  | classDecl _ => [.name, .stmts, .parent, .qualifiedName]
  | returnStmt => [.expr]
  | exprStmt => [.expr]

def classId? : Kind → Option ClassId
  | classDecl id => some id
  | _ => none

def isFetch : Kind → Bool
  | fetch | staticFetch => true
  | _ => false

end Kind

end PropertyRenaming
