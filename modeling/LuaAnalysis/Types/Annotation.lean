import LuaAnalysis.Syntax.Shorthand
import LuaAnalysis.Types.Ty

/-!
# Types written in annotations

`SyntaxTree.annotatedType` gives the type that a type annotation writes. A name that is not built in
stands for a named type, a table type for its own fields. What has no meaning is `unknown`.
-/

namespace LuaAnalysis

/-- The types with a name of their own. -/
def Ty.builtin? : String → Option Ty
  | "unknown" => some unknown
  | "nil" | "void" => some nil
  | "any" => some any
  | "boolean" | "bool" => some boolean
  | "integer" | "int" => some integer
  | "number" => some number
  | "string" => some string
  | "table" => some table
  | "function" => some function
  | _ => none

namespace SyntaxTree

/-- The type of an annotation from the types of those inside it. -/
def annotationStep (t : SyntaxTree) (type : NodeId → Ty) (id : NodeId) : Ty :=
  match t.node? id with
  | some (.docNameType name) => (Ty.builtin? name).getD (.named name)
  | some (.docArrayType element) => .array ((element.map type).getD .unknown)
  | some (.docUnionType types) => (types.map type).foldl Ty.join .unknown
  | some (.docFuncType params returns) =>
    .signature
      { params := params.filterMap fun param =>
          match t.node? param with
          | some (.docFuncParam (some name) type' nullable) =>
            let ty := (type'.map type).getD .unknown
            some ⟨t.nameText name, if nullable then ty.nullable else ty⟩
          | _ => none
        returns := returns.map type }
  | some (.docTableType _) => .tableLiteral (t.syntaxId id)
  | some (.docGenericType head args) =>
    match t.node? head with
    | some (.docNameType name) => .genericApp name (args.map type)
    | _ => .unknown
  | _ => .unknown

/-- The type of an annotation that is nested at most a number of levels deep. -/
def annotatedTypeWithin (t : SyntaxTree) : Nat → NodeId → Ty
  | 0, _ => .unknown
  | levels + 1, id => t.annotationStep (t.annotatedTypeWithin levels) id

/-- The type that an annotation writes. Ids shrink downwards, so `id + 1` levels are all there
are. -/
def annotatedType (t : SyntaxTree) (id : NodeId) : Ty :=
  t.annotatedTypeWithin (id + 1) id

/-- The type of an annotation that may be missing. -/
def annotatedType? (t : SyntaxTree) : Option NodeId → Ty
  | some id => t.annotatedType id
  | none => .unknown

end SyntaxTree

/-- The type that a text such as `T[]` or `T?` stands for. -/
def Ty.ofText (text : String) : Ty :=
  let (ids, d) := (Sketch.type text).write {}
  (SyntaxTree.ofPlaced 0 d.placed 0).annotatedType (ids.headD 0)

end LuaAnalysis
