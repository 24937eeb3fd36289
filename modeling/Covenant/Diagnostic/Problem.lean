import Covenant.Scope
import Covenant.Text.Position

/-! Rule violations found by checking. A problem is a cause; its kind and its wording are functions
of the cause. -/

namespace Covenant

inductive ProblemKind where
  | semantic
  | undefinedSymbol
  | typeMismatch
  | arityMismatch
  | duplicateDeclaration
  | unreachableReturn
  | immutableAssignment
  | nonExhaustiveMatch
  | invalidControlFlow
  | shadowedBinding
  deriving DecidableEq, Repr

def ProblemKind.text : ProblemKind → String
  | semantic => "SemanticError"
  | undefinedSymbol => "UndefinedSymbol"
  | typeMismatch => "TypeMismatch"
  | arityMismatch => "ArityMismatch"
  | duplicateDeclaration => "DuplicateDeclaration"
  | unreachableReturn => "UnreachableReturn"
  | immutableAssignment => "ImmutableAssignment"
  | nonExhaustiveMatch => "NonExhaustiveMatch"
  | invalidControlFlow => "InvalidControlFlow"
  | shadowedBinding => "ShadowedBinding"

inductive Keyword where
  | ifWord
  | whileWord
  | letWord
  | forWord
  | breakWord
  | continueWord
  deriving DecidableEq, Repr

def Keyword.text : Keyword → String
  | ifWord => "if"
  | whileWord => "while"
  | letWord => "let"
  | forWord => "for"
  | breakWord => "break"
  | continueWord => "continue"

inductive Problem where
  -- declarations
  | functionRedefined (name : String)
  | functionReserved (name : String)
  | typeRedefined (name : String)
  | fieldRepeated (field record : String)
  | variantRepeated (variant enum : String)
  | constantRedefined (name : String)
  | parameterRepeated (param function : String)
  | emptyEnum (name : String)
  | unknownType (name : String)
  | notConstant (name : String)
  | constantType (name : String) (declared actual : Ty)
  | noEntryPoint
  | entryResult (type : Ty)
  | entryParameter (param : String) (type : Ty)
  | missingReturn (function : String) (type : Ty)
  -- statements
  | conditionType (word : Keyword) (type : Ty)
  | letType (name : String) (declared actual : Ty)
  | uninferable (name : String)
  | hides (word : Keyword) (name : String)
  | undeclaredTarget (name : String)
  | immutableTarget (kind : SymbolKind) (name : String)
  | assignedType (place actual : Ty)
  | returnsNothing (function : String) (type : Ty)
  | returnsValue (function : String) (actual : Ty)
  | returnedType (function : String) (declared actual : Ty)
  | unknownElement
  | notIterable (type : Ty)
  | outsideLoop (word : Keyword)
  -- expressions
  | noValue
  | literalRange
  | undefinedName (name : String)
  | unaryOperand (op : UnaryOp) (operand : Ty)
  | binaryOperands (op : BinaryOp) (left right : Ty)
  | arity (name : String) (expected given : Nat)
  | argumentType (index : Nat) (function : String) (declared actual : Ty)
  | undefinedFunction (name : String)
  | noMethod (receiver : Ty) (method : String)
  | builtinText (name : String) (actual : Ty)
  | builtinArray (name : String) (actual : Ty)
  | builtinElement (name : String) (element actual : Ty)
  | builtinScalar (element : Ty)
  | elementTypes (first second : Ty)
  | indexType (actual : Ty)
  | notIndexable (type : Ty)
  | fieldOfNonRecord (type : Ty) (field : String)
  | unknownRecord (name : String)
  | noField (record field : String)
  | fieldGivenTwice (field : String)
  | fieldType (field : String) (declared actual : Ty)
  | missingFields (record : String) (fields : List String)
  | unknownEnum (name : String)
  | noVariant (enum variant : String)
  | errPayload (actual : Ty)
  -- matches
  | notMatchable (type : Ty)
  | armTypes (first second : Ty)
  | notExhaustive (type : Ty)
  | patternRange
  | patternType (form : String) (type : Ty)
  deriving DecidableEq, Repr

namespace Problem

def kind : Problem → ProblemKind
  | functionRedefined _ | functionReserved _ | typeRedefined _ | fieldRepeated _ _
  | variantRepeated _ _ | constantRedefined _ | parameterRepeated _ _ | fieldGivenTwice _ =>
    .duplicateDeclaration
  | emptyEnum _ | notConstant _ => .semantic
  | unknownType _ | noEntryPoint | undeclaredTarget _ | undefinedName _ | undefinedFunction _
  | unknownRecord _ | noField _ _ | unknownEnum _ | noVariant _ _ => .undefinedSymbol
  | missingReturn _ _ => .unreachableReturn
  | immutableTarget _ _ => .immutableAssignment
  | outsideLoop _ => .invalidControlFlow
  | hides _ _ => .shadowedBinding
  | arity _ _ _ => .arityMismatch
  | notExhaustive _ => .nonExhaustiveMatch
  | _ => .typeMismatch

/-- How a declaration hides an outer one, as errors and warnings both begin. -/
def hidingText (word : Keyword) (name : String) : String :=
  "'" ++ word.text ++ " " ++ name ++ "' hides the outer '" ++ name ++ "'" ++
    (if word = .letWord then " instead of assigning it" else "")

def message : Problem → String
  | functionRedefined n => "function '" ++ n ++ "' is already defined"
  | functionReserved n => "'" ++ n ++ "' is a built-in function"
  | typeRedefined n => "type '" ++ n ++ "' is already defined"
  | fieldRepeated f r => "field '" ++ f ++ "' repeated in '" ++ r ++ "'"
  | variantRepeated v e => "variant '" ++ v ++ "' repeated in '" ++ e ++ "'"
  | constantRedefined n => "constant '" ++ n ++ "' is already defined"
  | parameterRepeated p f => "parameter '" ++ p ++ "' repeated in '" ++ f ++ "'"
  | emptyEnum n => "enum '" ++ n ++ "' has no variants"
  | unknownType n => "unknown type '" ++ n ++ "'"
  | notConstant n => "initializer of '" ++ n ++ "' is not a compile-time constant"
  | constantType n d a =>
    "constant '" ++ n ++ "' is declared " ++ d.text ++ " but initialized with " ++ a.text
  | noEntryPoint => "contract has no entry point 'run'"
  | entryResult t => "entry point 'run' must return a scalar, not " ++ t.text
  | entryParameter p t =>
    "entry point parameter '" ++ p ++ "' must be a scalar, not " ++ t.text
  | missingReturn f t =>
    "function '" ++ f ++ "' does not return a " ++ t.text ++ " on every path"
  | conditionType w t => "'" ++ w.text ++ "' condition must be Boolean, got " ++ t.text
  | letType n d a =>
    "'" ++ n ++ "' is declared " ++ d.text ++ " but initialized with " ++ a.text
  | uninferable n => "cannot infer the type of '" ++ n ++ "'; add a type annotation"
  | hides w n => hidingText w n
  | undeclaredTarget n =>
    "cannot assign to undeclared '" ++ n ++ "'; declare it with 'let'"
  | immutableTarget k n => "cannot assign to " ++ k.text ++ " '" ++ n ++ "'"
  | assignedType p a => "cannot assign " ++ a.text ++ " to a place of type " ++ p.text
  | returnsNothing f t => "'" ++ f ++ "' must return a " ++ t.text
  | returnsValue f a => "'" ++ f ++ "' has no return type but returns " ++ a.text
  | returnedType f d a => "'" ++ f ++ "' returns " ++ d.text ++ ", got " ++ a.text
  | unknownElement => "cannot iterate over an array of unknown element type"
  | notIterable t => "'for' expects an Array, got " ++ t.text
  | outsideLoop w => "'" ++ w.text ++ "' outside of a loop"
  | noValue => "expression has no value"
  | literalRange => "integer literal out of range for Integer"
  | undefinedName n => "'" ++ n ++ "' is not defined"
  | unaryOperand op t => "operator '" ++ op.text ++ "' cannot be applied to " ++ t.text
  | binaryOperands op l r =>
    "operator '" ++ op.text ++ "' cannot be applied to " ++ l.text ++ " and " ++ r.text
  | arity n e g =>
    "'" ++ n ++ "' expects " ++ e.repr ++ " argument(s), got " ++ g.repr
  | argumentType i f d a =>
    "argument " ++ i.repr ++ " of '" ++ f ++ "' expects " ++ d.text ++ ", got " ++ a.text
  | undefinedFunction n => "function '" ++ n ++ "' is not defined"
  | noMethod t m => t.text ++ " has no method '" ++ m ++ "'"
  | builtinText n a => "'" ++ n ++ "' expects String, got " ++ a.text
  | builtinArray n a => "'" ++ n ++ "' expects an Array, got " ++ a.text
  | builtinElement n e a =>
    "'" ++ n ++ "' expects an element of type " ++ e.text ++ ", got " ++ a.text
  | builtinScalar e => "'array_contains' needs scalar elements, got " ++ e.text
  | elementTypes s t =>
    "array elements must share one type; found " ++ s.text ++ " and " ++ t.text
  | indexType a => "array index must be Integer, got " ++ a.text
  | notIndexable t => "cannot index into " ++ t.text
  | fieldOfNonRecord t f => t.text ++ " has no field '" ++ f ++ "'"
  | unknownRecord n => "unknown record type '" ++ n ++ "'"
  | noField r f => "'" ++ r ++ "' has no field '" ++ f ++ "'"
  | fieldGivenTwice f => "field '" ++ f ++ "' given twice"
  | fieldType f d a => "field '" ++ f ++ "' is " ++ d.text ++ ", got " ++ a.text
  | missingFields r fs => "missing field(s) for '" ++ r ++ "': " ++ ", ".intercalate fs
  | unknownEnum n => "unknown enum '" ++ n ++ "'"
  | noVariant e v => "'" ++ e ++ "' has no variant '" ++ v ++ "'"
  | errPayload a => "Err carries a String, got " ++ a.text
  | notMatchable t => "cannot match on " ++ t.text
  | armTypes s t => "match arms disagree: " ++ s.text ++ " and " ++ t.text
  | notExhaustive t => "match on " ++ t.text ++ " is not exhaustive; add a '_' arm"
  | patternRange => "integer pattern out of range"
  | patternType f t => "pattern '" ++ f ++ "' cannot match a value of type " ++ t.text

end Problem

structure Diagnostic where
  problem : Problem
  pos : Pos
  deriving DecidableEq, Repr

def Diagnostic.text (d : Diagnostic) : String :=
  d.pos.text ++ ": " ++ d.problem.kind.text ++ ": " ++ d.problem.message

/-- What checking points out without refusing the program. -/
inductive Caution where
  | unreachableStatement
  | unreachableArm
  | hides (word : Keyword) (name : String)
  deriving DecidableEq, Repr

def Caution.message : Caution → String
  | unreachableStatement => "unreachable statement"
  | unreachableArm => "unreachable match arm"
  | hides w n =>
    Problem.hidingText w n ++
      (if w = .letWord then "; write '" ++ n ++ " = ...' to update it"
       else "; rename the loop variable")

structure Warning where
  caution : Caution
  pos : Pos
  deriving DecidableEq, Repr

def Warning.text (w : Warning) : String :=
  w.pos.text ++ ": warning: " ++ w.caution.message

end Covenant
