import Shading.Location
import Shading.Position

/-!
# Symbols and functions

A symbol is a declared name: a variable, which the layout gives a place,
or a function. Globals are visible everywhere and locals in the function
that owns them, where they are found first. Functions are kept in a
table of their own, with their parameters and locals.
-/

namespace Shading

/-- **How far a symbol is visible.** -/
inductive SymbolScope where
  /-- In the whole program. -/
  | global
  /-- In one function. -/
  | local
deriving DecidableEq

/-- **What a symbol names.** -/
inductive SymbolKind where
  /-- Storage. -/
  | variable
  /-- Something to call. -/
  | function
deriving DecidableEq

/-- The number of a symbol in its table. -/
abbrev SymbolId := Nat

/-- The number of a function in its table. -/
abbrev FunctionId := Nat

/-- **A declared name.** -/
structure Symbol where
  name : String
  scope : SymbolScope
  kind : SymbolKind
  /-- The declared type; that of a function is `function`. -/
  ty : Ty
  /-- The function that owns a local. -/
  owner : Option FunctionId
  /-- Where the declaring identifier stands. -/
  declaredAt : Option Position := none
  /-- Whether the stage declares it, and not the shader. -/
  intrinsic : Bool := false
  /-- The place that the layout gave it. -/
  location : Location := .none
deriving DecidableEq

/-- **The symbols in the order of their declaration.** -/
structure SymbolTable where
  symbols : List Symbol := []

namespace SymbolTable

/-- The symbol with a number. -/
def get? (t : SymbolTable) (id : SymbolId) : Option Symbol := t.symbols[id]?

/-- How many symbols there are. -/
def size (t : SymbolTable) : Nat := t.symbols.length

/-- Whether a symbol is the local of a function with a name. -/
def isLocalNamed (owner : FunctionId) (name : String) (s : Symbol) : Bool :=
  s.scope == .local && s.owner == some owner && s.name == name

/-- Whether a symbol is the global with a name. -/
def isGlobalNamed (name : String) (s : Symbol) : Bool :=
  s.scope == .global && s.name == name

/-- **The symbol a name denotes** in a function: its own local with the
name, else the global. Outside functions only globals are found. -/
def find? (t : SymbolTable) (name : String) (owner : Option FunctionId) : Option SymbolId :=
  (owner.bind (fun f => t.symbols.findIdx? (isLocalNamed f name))).or
    (t.symbols.findIdx? (isGlobalNamed name))

/-- Declares a name, unless it is visible already. -/
def add? (t : SymbolTable) (name : String) (scope : SymbolScope) (kind : SymbolKind) (ty : Ty)
    (owner : Option FunctionId) (declaredAt : Option Position := none)
    (intrinsic : Bool := false) : Option (SymbolId × SymbolTable) :=
  if (t.find? name owner).isSome then none
  else
    let declared : Symbol :=
      { name := name, scope := scope, kind := kind, ty := ty, owner := owner,
        declaredAt := declaredAt, intrinsic := intrinsic }
    some (t.size, ⟨t.symbols ++ [declared]⟩)

/-- Declares a global of the stage, unless its name is visible
already. -/
def addIntrinsic? (t : SymbolTable) (name : String) (kind : SymbolKind) (ty : Ty) :
    Option (SymbolId × SymbolTable) :=
  t.add? name .global kind ty none none true

/-- Gives a symbol a place. -/
def place (t : SymbolTable) (id : SymbolId) (location : Location) : SymbolTable :=
  ⟨t.symbols.modify id (fun s => { s with location })⟩

/-- The global symbols, in the order of their declaration. -/
def globals (t : SymbolTable) : List SymbolId :=
  (List.range t.size).filter (fun id => (t.get? id).any (fun s => s.scope == .global))

/-- **The name of the variable at a place**, as a function sees it: the
first variable there that is global or the function's own. -/
def nameAt? (t : SymbolTable) (location : Location) (owner : Option FunctionId) :
    Option String :=
  (t.symbols.find? (fun s =>
    s.kind == .variable && s.location == location && (s.scope == .global || s.owner == owner))).map
      Symbol.name

end SymbolTable

/-- **A function**, declared by the shader or by its stage. -/
structure Function where
  name : String
  /-- The symbol that names the function. -/
  symbol : SymbolId
  parameters : List SymbolId := []
  locals : List SymbolId := []
  returnTy : Ty
  /-- Whether the host can see the function. -/
  isExported : Bool := false
  /-- Whether the stage provides it. -/
  intrinsic : Bool := false
deriving DecidableEq

/-- **The functions in the order of their declaration.** -/
structure FunctionTable where
  functions : List Function := []

namespace FunctionTable

/-- The function with a number. -/
def get? (t : FunctionTable) (id : FunctionId) : Option Function := t.functions[id]?

/-- How many functions there are. -/
def size (t : FunctionTable) : Nat := t.functions.length

/-- The function with a name. -/
def find? (t : FunctionTable) (name : String) : Option FunctionId :=
  t.functions.findIdx? (fun f => f.name == name)

/-- Declares a function, unless its name is taken. -/
def add? (t : FunctionTable) (name : String) (symbol : SymbolId) (returnTy : Ty)
    (isExported : Bool := false) (intrinsic : Bool := false) :
    Option (FunctionId × FunctionTable) :=
  if (t.find? name).isSome then none
  else
    let declared : Function :=
      { name := name, symbol := symbol, returnTy := returnTy, isExported := isExported,
        intrinsic := intrinsic }
    some (t.size, ⟨t.functions ++ [declared]⟩)

/-- Adds a parameter to a function. -/
def addParameter (t : FunctionTable) (id : FunctionId) (s : SymbolId) : FunctionTable :=
  ⟨t.functions.modify id (fun f => { f with parameters := f.parameters ++ [s] })⟩

/-- Adds a local to a function. -/
def addLocal (t : FunctionTable) (id : FunctionId) (s : SymbolId) : FunctionTable :=
  ⟨t.functions.modify id (fun f => { f with locals := f.locals ++ [s] })⟩

end FunctionTable

/-- **The declarations of a program**: its symbols and its functions. -/
structure Declarations where
  symbols : SymbolTable := {}
  functions : FunctionTable := {}

namespace Declarations

/-- The declared type of a symbol. -/
def symbolTy (d : Declarations) (id : SymbolId) : Ty :=
  ((d.symbols.get? id).map Symbol.ty).getD .void

/-- The name of a symbol. -/
def symbolName (d : Declarations) (id : SymbolId) : String :=
  ((d.symbols.get? id).map Symbol.name).getD ""

/-- The type that a function returns. -/
def returnTy (d : Declarations) (id : FunctionId) : Ty :=
  ((d.functions.get? id).map Function.returnTy).getD .void

/-- The parameters of a function. -/
def parameters (d : Declarations) (id : FunctionId) : List SymbolId :=
  ((d.functions.get? id).map Function.parameters).getD []

end Declarations

end Shading
