import ElmLint.Syntax.Expr

/-!
# Declarations

The declarations of a module, and how annotations find their declarations: `attachSignatures` moves each signature into
the declaration of the same name that directly follows it, and leaves the others where they are.
-/

namespace ElmLint

/-- A constructor of a custom type, with the types of its arguments. -/
structure ValueConstructor where
  name : String
  arguments : List TypeExpr
  range : SourceRange
deriving Inhabited

/-- `type Name parameters = Constructor … | …`. -/
structure CustomType where
  name : String
  parameters : List String
  constructors : List ValueConstructor
  range : SourceRange
deriving Inhabited

/-- `type alias Name parameters = type`. -/
structure TypeAlias where
  name : String
  parameters : List String
  type : TypeExpr
  range : SourceRange
deriving Inhabited

/-- `port name : type`. -/
structure Port where
  name : String
  type : TypeExpr
  range : SourceRange
deriving Inhabited

/-- A top-level declaration. -/
inductive Declaration where
  | function (decl : FunctionDecl Expr)
  | customType (decl : CustomType)
  | typeAlias (decl : TypeAlias)
  | port (decl : Port)
  /-- A signature that belongs to no declaration. -/
  | signature (decl : Signature)
deriving Inhabited

/-- An item of a `let` block, before the signatures are attached. -/
inductive LetItem where
  | signature (decl : Signature)
  | declaration (decl : LetDecl Expr)

namespace Declaration

/-- The name that a declaration declares. -/
def name : Declaration → String
  | function d => d.name
  | customType d => d.name
  | typeAlias d => d.name
  | port d => d.name
  | signature d => d.name

/-- The place of a declaration. -/
def range : Declaration → SourceRange
  | function d => d.range
  | customType d => d.range
  | typeAlias d => d.range
  | port d => d.range
  | signature d => d.range

/-- The function that is declared. -/
def function? : Declaration → Option (FunctionDecl Expr)
  | function d => some d
  | _ => none

/-- The custom type that is declared. -/
def customType? : Declaration → Option CustomType
  | customType d => some d
  | _ => none

/-- The signature that stands alone. -/
def signature? : Declaration → Option Signature
  | signature s => some s
  | _ => none

/-- A declaration with its signature; only a function of that name takes it. -/
def annotate? (s : Signature) : Declaration → Option Declaration
  | function d => if d.name = s.name then some (function { d with signature := some s }) else none
  | _ => none

end Declaration

namespace LetItem

/-- The signature that an item is. -/
def signature? : LetItem → Option Signature
  | signature s => some s
  | _ => none

/-- The declaration that an item is. -/
def declaration? : LetItem → Option (LetDecl Expr)
  | declaration d => some d
  | _ => none

/-- An item with its signature; only a function of that name takes it. -/
def annotate? (s : Signature) : LetItem → Option LetItem
  | declaration (.function d) =>
    if d.name = s.name then some (declaration (.function { d with signature := some s })) else none
  | _ => none

end LetItem

/-- Move each signature into the declaration that directly follows it, if that one takes it. -/
def attachSignatures {δ : Type} (signature? : δ → Option Signature) (annotate? : Signature → δ → Option δ) :
    List δ → List δ
  | [] => []
  | [d] => [d]
  | d :: e :: rest =>
    match (signature? d).bind (annotate? · e) with
    | some annotated => annotated :: attachSignatures signature? annotate? rest
    | none => d :: attachSignatures signature? annotate? (e :: rest)

/-- The declarations of a module with their signatures. -/
def Declaration.attach (ds : List Declaration) : List Declaration := attachSignatures signature? annotate? ds

/-- The declarations of a `let` block with their signatures; a signature without its declaration is dropped. -/
def LetItem.attach (items : List LetItem) : List (LetDecl Expr) :=
  (attachSignatures signature? annotate? items).filterMap declaration?

end ElmLint
