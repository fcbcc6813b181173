import Lambdict.Number.Basic
import Lambdict.Primitive
import Lambdict.Text.Quoted

/-!
# Errors

Two kinds of things end a computation early. A *condition* is the language's own: it has a kind and
a message, and a run that meets one is a failed run. An *abort* is not: it says that a limit of the
machine was met, or that an operation was asked for wrongly, and no result captures it.

Conditions are kept by cause. Where a message shows a value or an expression, the cause holds the
text that was shown, since that text is made when the condition arises and making it may itself
abort.
-/

namespace Lambdict

/-- The forms that bind names. -/
inductive BindingForm
  | lambda | letIn | define
deriving DecidableEq, Repr

/-- The keyword of a binding form. -/
def BindingForm.keyword : BindingForm → String
  | .lambda => "lambda"
  | .letIn => "let"
  | .define => "define"

/-- The kinds of compound expressions that hold expressions. -/
inductive NodeKind
  | conditional | lambda | application | definition | dictionary
deriving DecidableEq, Repr

/-- The name of a kind of expression. -/
def NodeKind.name : NodeKind → String
  | .conditional => "Conditional"
  | .lambda => "Lambda"
  | .application => "Application"
  | .definition => "Definition"
  | .dictionary => "DictionaryLiteral"

/-- What is wrong with a text, a form or an expression. -/
inductive Malformed
  /-- A character that begins no token. -/
  | unexpectedChar (position : Nat) (c : Char)
  | unterminatedComment
  | unexpectedEnd
  | unmatchedOpen
  | dotWithoutElement
  | expectedClose
  | unexpectedClose
  /-- Something other than a name where a form binds one. -/
  | notABinder (form : BindingForm) (shown : String)
  | bindsPrimitive (form : BindingForm) (name : String)
  | emptyBody (form : BindingForm)
  | quoteShape
  | ifShape
  | lambdaShape
  | defineShape
  | dictMixture
  | letShape
  | letBindingShape (shown : String)
  | dottedExpression
  | emptyCombination
  | nestedDefine
  | expressionCount (found : Nat)
  /-- A part of an expression that has the wrong type. -/
  | notANumber (shown : String)
  | notABoolean (shown : String)
  | notAString (shown : String)
  | variableName (shown : String)
  | notASequence (owner : NodeKind) (field : String)
  | notAnExpression (owner : NodeKind) (shown : String)
  | defineInside (owner : NodeKind)
  | parameterName (shown : String)
  | duplicateParameters (params : List String)
  | definitionName (shown : String)
  | quotedDictionary
  | entryShape (shown : String)
  | keyName (shown : String)
  | duplicateKey (key : String)
  /-- An expression that cannot be evaluated where it stands. -/
  | misplacedDefine (name : String)
  | unknownExpression (shown : String)
deriving DecidableEq, Repr

/-- The fault in words. -/
def Malformed.message : Malformed → String
  | .unexpectedChar position c =>
    "Unexpected char at " ++ Nat.repr position ++ ": " ++ Text.quoted (String.singleton c)
  | .unterminatedComment => "Unterminated multi-line comment"
  | .unexpectedEnd => "Unexpected end of input"
  | .unmatchedOpen => "Unmatched '('"
  | .dotWithoutElement => "Dotted list needs at least one element before '.'"
  | .expectedClose => "Expected ')' after dotted tail"
  | .unexpectedClose => "Unexpected ')'"
  | .notABinder form shown => form.keyword ++ ": expected a variable name, got " ++ shown
  | .bindsPrimitive form name => form.keyword ++ ": cannot bind primitive " ++ name
  | .emptyBody form => form.keyword ++ " requires a non-empty body"
  | .quoteShape => "quote requires exactly 1 argument"
  | .ifShape => "if requires a test, a consequent and an alternate"
  | .lambdaShape => "lambda requires a parameter list"
  | .defineShape => "define requires exactly 2 arguments"
  | .dictMixture => "dict mixes (key value) entries with other arguments"
  | .letShape => "let requires a binding list"
  | .letBindingShape shown => "let bindings must look like (name value), got " ++ shown
  | .dottedExpression => "A dotted list is not an expression"
  | .emptyCombination => "Empty combination ()"
  | .nestedDefine => "define is only allowed at the start of a sequence"
  | .expressionCount found => "Expected exactly one expression, found " ++ Nat.repr found
  | .notANumber shown => "Not a number: " ++ shown
  | .notABoolean shown => "Not a boolean: " ++ shown
  | .notAString shown => "Not a string: " ++ shown
  | .variableName shown => "Invalid variable name: " ++ shown
  | .notASequence owner field => owner.name ++ "." ++ field ++ " must be a sequence"
  | .notAnExpression owner shown => owner.name ++ ": not an expression: " ++ shown
  | .defineInside owner => "define is not allowed inside " ++ owner.name
  | .parameterName shown => "Invalid parameter name: " ++ shown
  | .duplicateParameters params =>
    "Duplicate parameter names in lambda: " ++ " ".intercalate params
  | .definitionName shown => "Invalid definition name: " ++ shown
  | .quotedDictionary => "A dictionary value cannot be quoted"
  | .entryShape shown => "Dictionary entry must be a (key, value) pair: " ++ shown
  | .keyName shown => "Dictionary key must be a name: " ++ shown
  | .duplicateKey key => "Duplicate dictionary key: " ++ key
  | .misplacedDefine name => "define of " ++ name ++ " is only allowed at the start of a sequence"
  | .unknownExpression shown => "Unknown expression type: " ++ shown

/-- What a primitive has against its arguments. -/
inductive Complaint
  | numbers | divisionByZero | ordered | strings | booleans | pair | entries | getShape | bindShape
deriving DecidableEq, Repr

/-- The complaint in words. -/
def Complaint.text : Complaint → String
  | .numbers => "expects numbers only"
  | .divisionByZero => "division by zero"
  | .ordered => "expects two numbers or two strings"
  | .strings => "expects strings"
  | .booleans => "arguments not booleans"
  | .pair => "param is not a pair"
  | .entries => "entries must be (symbol . value) pairs"
  | .getShape => "expects a dict and a symbol"
  | .bindShape => "expects a dict, a symbol and a value"

/-- The conditions of the language, by cause. -/
inductive Condition
  | malformed (fault : Malformed)
  | unbound (name : String)
  | primitiveArity (op : Primitive) (expected got : Nat)
  | closureArity (params : List String) (got : Nat)
  | notAProcedure (shown : String)
  | dictionaryArguments (got : Nat)
  | keyNotFound (key : String)
  | typeMismatch (op : Primitive) (arguments : String) (complaint : Complaint)
  | emptySequence
  | sequenceEndsInDefinition (name : String)
  | dictionaryLiteral
  | noLiteral (shown : String)
  /-- A failure that was given by its texts alone. -/
  | reported (text : String)
deriving DecidableEq, Repr

namespace Condition

/-- The kind of a condition. -/
def kind : Condition → String
  | .malformed _ => "MalformedSyntax"
  | .unbound _ => "UnboundVariable"
  | .primitiveArity .. => "ArityError"
  | .closureArity .. => "ArityError"
  | .notAProcedure _ => "NotApplicable"
  | .dictionaryArguments _ => "NotApplicable"
  | .keyNotFound _ => "KeyNotFound"
  | .typeMismatch .. => "TypeMismatch"
  | .emptySequence => "EmptySequence"
  | .sequenceEndsInDefinition _ => "EmptySequence"
  | .dictionaryLiteral => "NonLiteralizableValue"
  | .noLiteral _ => "NonLiteralizableValue"
  | .reported _ => "DictSchemeError"

/-- The condition in words. -/
def message : Condition → String
  | .malformed fault => fault.message
  | .unbound name => "Cannot lookup unbound variable " ++ name
  | .primitiveArity op expected got =>
    op.name ++ " expects exactly " ++ Nat.repr expected ++
      (if expected = 1 then " argument" else " arguments") ++ ", got " ++ Nat.repr got
  | .closureArity params got =>
    "Closure (" ++ " ".intercalate params ++ ") expects " ++ Nat.repr params.length ++
      " arguments, got " ++ Nat.repr got
  | .notAProcedure shown => "Bad procedure " ++ shown
  | .dictionaryArguments got =>
    "Dictionary application requires exactly one symbol key, got " ++ Nat.repr got ++ " argument(s)"
  | .keyNotFound key => "Key '" ++ key ++ "' not found"
  | .typeMismatch op arguments complaint =>
    op.name ++ ": " ++ complaint.text ++ " " ++ arguments
  | .emptySequence => "Empty sequence"
  | .sequenceEndsInDefinition name => "Sequence ends with the definition of " ++ name
  | .dictionaryLiteral => "Cannot quote a dictionary value"
  | .noLiteral shown => "No literal form for " ++ shown
  | .reported text => text

end Condition

/-- What ends a computation without being a condition. -/
inductive Abort
  /-- An integer in a text has too many digits. -/
  | longNumeral (digits : Nat)
  /-- An integer that is to be written has too many digits. -/
  | longNumber
  | arithmetic (fault : ArithmeticFault)
  | unknownStrategy (name : String)
  | replacementCount
  /-- The entries of a dictionary literal are something that has no items to go through. -/
  | noItems (typeName : String)
  /-- Values with a plain sequence inside are to be counted without repetition. -/
  | uncountable
  /-- The name of a file holds the character of number zero. -/
  | nullInName
deriving DecidableEq, Repr, Inhabited

namespace Abort

/-- What is said of integers over the digit limit, with their number of digits where it is known. -/
def digitLimitMessage (detail : String) : String :=
  "Exceeds the limit (" ++ Nat.repr Number.digitLimit ++
    " digits) for integer string conversion" ++ detail ++
    "; use sys.set_int_max_str_digits() to increase the limit"

/-- The abort in words. -/
def message : Abort → String
  | .longNumeral digits => digitLimitMessage (": value has " ++ Nat.repr digits ++ " digits")
  | .longNumber => digitLimitMessage ""
  | .arithmetic fault => fault.message
  | .unknownStrategy name =>
    "Unknown desugar strategy " ++ Text.quoted name ++ " (expected one of: construct, lookup)"
  | .replacementCount => "substitute needs one replacement per name"
  | .noItems typeName => "'" ++ typeName ++ "' object is not iterable"
  | .uncountable => "unhashable type: 'list'"
  | .nullInName => "embedded null byte"

end Abort

/-- What ends a computation early. -/
inductive Error
  | condition (c : Condition)
  | abort (a : Abort)
deriving DecidableEq, Repr

instance : Inhabited Error := ⟨.abort default⟩

/-- What is wrong with a form is a condition. -/
def Malformed.toError (f : Malformed) : Error :=
  .condition (.malformed f)

/-- The error in words. -/
def Error.message : Error → String
  | .condition c => c.message
  | .abort a => a.message

end Lambdict
