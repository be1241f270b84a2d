import LetPoly.Infer.State
import LetPoly.Syntax.Pattern

/-!
Reading annotations: the names of types and measures, and the named variables, which stand for the
same type everywhere in an item.
-/
namespace LetPoly.Infer

/-- What the name of a type stands for. -/
inductive TypeName where
  | prim (p : Prim)
  | wrapper (w : Wrapper)
  deriving DecidableEq, Repr

/-- The types that an annotation can name. -/
def typeName? : String → Option TypeName
  | "int" => some (.prim .int)
  | "float" => some (.prim .float)
  | "bool" => some (.prim .bool)
  | "char" => some (.prim .char)
  | "string" => some (.prim .string)
  | "unit" => some (.prim .unit)
  | "list" => some (.wrapper .list)
  | "option" => some (.wrapper .option)
  | _ => none

/-- Reads a written measure. Its names have to be declared; a name that points into no text is
    reported at `span`. -/
def resolveMeasure (span : Span) : MeasureExpr → Infer Measure
  | .one => return .one
  | .named name place => do
    if (← get).measures.contains name then return .named name
    else fail (place.orElse span) (.unboundMeasure name)
  | .product left right => return .product (← resolveMeasure span left) (← resolveMeasure span right)
  | .quotient numerator denominator =>
    return .quotient (← resolveMeasure span numerator) (← resolveMeasure span denominator)
  | .power base exponent => return .power (← resolveMeasure span base) exponent

/-- The type of a number. -/
def numberType : Number → Ty
  | .int _ => .int
  | .float _ => .float

/-- The type of a literal. -/
def literalType (span : Span) : Literal → Infer Ty
  | .number value => return numberType value
  | .bool _ => return .bool
  | .char _ => return .char
  | .string _ => return .string
  | .unit => return .unit
  | .measured value measure => return (numberType value).withMeasure (← resolveMeasure span measure)

/-- Reads a named variable: the first occurrence in an item stands for a new variable, later ones for
    what is known of it by then. -/
def resolveVar (name : String) : Infer Ty := do
  let st ← get
  match st.named[name]? with
  | some v =>
    let t := st.solved.value v
    record [.resolved name t]
    return t
  | none =>
    let v ← freshVar
    modify fun st => { st with named := st.named.insert name v }
    record [.resolved name (.var v)]
    return .var v

/-- The tuple of the given components. -/
def tupleType (span : Span) (components : List Ty) : Infer Ty :=
  match Ty.tupleOf? components with
  | some t => return t
  | none => fail span (.malformedTuple components.length)

/-- A type with a measure. Only numbers have measures. -/
def measuredType (span : Span) (base : Ty) (measure : MeasureExpr) : Infer Ty := do
  if base = .int ∨ base = .float then
    return base.withMeasure (← resolveMeasure span measure)
  else fail span (.mismatch .float base (some "units of measure apply to int or float"))

mutual

/-- Reads a written type. -/
def resolve : TypeExpr → Infer Ty
  | .con name args span =>
    match typeName? name, args with
    | none, _ => fail span (.unboundType name)
    | some (.prim p), [] => return .prim p
    | some (.prim _), args => fail span (.constructorArity name 0 args.length)
    | some (.wrapper w), [arg] => return .wrap w (← resolve arg)
    | some (.wrapper _), args => fail span (.constructorArity name 1 args.length)
  | .var name _ => resolveVar name
  | .func param result => return .func (← resolve param) (← resolve result)
  | .tuple elements span => do tupleType span (← resolveList elements)
  | .measured base measure span => do measuredType span (← resolve base) measure

/-- Reads written types from left to right. -/
def resolveList : List TypeExpr → Infer (List Ty)
  | [] => return []
  | e :: es => return (← resolve e) :: (← resolveList es)

end

end LetPoly.Infer
