import Mila.Token.Lexer
import Mila.Tree.Grouping

/-! # Parsing

Reading a program off a stream of tokens, by recursive descent with one token of lookahead. Reading
stops at the first token that cannot go on; what follows that token stays in the stream, and so does the
token itself if it was only looked at.

Every step of the descent that comes back to an expression or a statement inside another has taken a
token before. So the number of pending tokens bounds the descent, and the functions below recurse on
such a bound `n`. Where the bound is used up nothing is pending, and they answer as they do at the end
of input.
-/

namespace Mila

/-- The parts of the grammar that messages name. -/
inductive Production where
  | identifier
  | number
  | type
  | declaration
  | statement
  | operand
  | operator
  deriving DecidableEq, Repr

def Production.describe : Production → String
  | identifier => "identifier"
  | number => "number"
  | type => "`integer` or `array`"
  | declaration => "declaration or `begin`"
  | statement => "statement"
  | operand => "number, identifier or `(`"
  | operator => "operator or end of expression"

/-- Why a stream of tokens is no program. -/
inductive ParseErrorCause where
  | unexpected (expected actual : Kind)
  | unexpectedAny (expected : List Kind) (actual : Kind)
  | expectedProduction (expected : Production) (actual : Kind)
  | lexical (reason : LexicalError)
  | emptyArrayRange (low high : Word)
  | outOfOrder
  deriving DecidableEq, Repr

def ParseErrorCause.message : ParseErrorCause → String
  | unexpected expected actual => "expected " ++ expected.describe ++ ", got " ++ actual.describe
  | unexpectedAny expected actual =>
    "expected one of " ++ ", ".intercalate (expected.map Kind.describe) ++ ", got " ++ actual.describe
  | expectedProduction expected actual =>
    "expected " ++ expected.describe ++ ", got " ++ actual.describe
  | lexical reason => reason.message
  | emptyArrayRange low high =>
    "array range " ++ toString low.toInt ++ ".." ++ toString high.toInt ++ " is empty"
  | outOfOrder => "tokens do not stand in the order of the source"

/-- A parse error and its place. -/
structure ParseError where
  cause : ParseErrorCause
  span : Span
  deriving DecidableEq, Repr

def ParseError.message (e : ParseError) : String := e.span.note e.cause.message

/-- A step that takes tokens off a stream, and leaves the rest of it behind also when it fails. -/
abbrev Parser := EStateM ParseError TokenStream

namespace Parser

/-! ## Single tokens -/

/-- Fails if the token is a bad one. -/
def checked (t : Token) : Parser Token :=
  match t.kind with
  | .error reason => throw ⟨.lexical reason, t.span⟩
  | _ => pure t

/-- Looks at the next token. -/
def peek : Parser Token := do checked (← get).head

/-- Takes the next token, whatever it is. -/
def takeAny : Parser Token := modifyGet fun s => (s.head, s.tail)

/-- Takes the next token. -/
def advance : Parser Token := do checked (← takeAny)

/-- Fails because a part of the grammar would have to start with the token `t`. -/
def expected {α : Type} (production : Production) (t : Token) : Parser α :=
  throw ⟨.expectedProduction production t.kind, t.span⟩

/-- Whether the next token is of the given kind. -/
def isNext (kind : Kind) : Parser Bool := do return (← peek).kind == kind

/-- Takes the next token if it is of the given kind, and says whether it was. -/
def accept (kind : Kind) : Parser Bool := do
  let found ← isNext kind
  if found then
    let _ ← advance
  return found

/-- Takes the next token, which has to be of the given kind. -/
def consume (kind : Kind) : Parser Unit := do
  let t ← advance
  unless t.kind == kind do throw ⟨.unexpected kind t.kind, t.span⟩

/-- Takes the next token, which has to be of one of the given kinds. -/
def consumeAny (kinds : List Kind) : Parser Kind := do
  let t ← advance
  unless kinds.contains t.kind do throw ⟨.unexpectedAny kinds t.kind, t.span⟩
  return t.kind

/-- A name. -/
def identifier : Parser String := do
  let t ← advance
  match t.kind with
  | .identifier name => pure name
  | _ => expected .identifier t

/-- The stretch from the start of one span to the end of another. Tokens that were handed back may stand
anywhere, so there need not be one. -/
def stretch (first last : Span) : Parser Span :=
  match Span.ofBounds? first.lo last.hi with
  | some span => pure span
  | none => throw ⟨.outOfOrder, last⟩

/-- A number, perhaps with a minus sign, and where it stands. -/
def number : Parser (Word × Span) := do
  let first ← advance
  let negative := first.kind == .operator .minus
  let t ← if negative then advance else pure first
  let span ← stretch first.span t.span
  match t.kind with
  | .integer value => pure (if negative then -value else value, span)
  | _ => expected .number t

/-! ## Expressions -/

/-- The operator that a token between two operands stands for. -/
def binaryOperator? : Kind → Option BinaryOperator
  | .operator .plus => some .add
  | .operator .minus => some .sub
  | .operator .star => some .mul
  | .keyword .div => some .div
  | .keyword .mod => some .mod
  | .operator .eq => some .eq
  | .operator .notEq => some .ne
  | .operator .less => some .lt
  | .operator .lessEq => some .le
  | .operator .greater => some .gt
  | .operator .greaterEq => some .ge
  | .keyword .and => some .and
  | .keyword .or => some .or
  | _ => none

/-- Whether a token may follow an expression. -/
def endsExpression : Kind → Bool
  | .operator .semicolon | .operator .assign | .operator .rparen | .operator .rbracket
  | .operator .comma => true
  | .keyword .then | .keyword .do | .keyword .else | .keyword .end | .keyword .to
  | .keyword .downto => true
  | .eof => true
  | _ => false

/-- The operators and operands that follow the first operand of an expression. -/
def chainTail (operand : Parser Node) : Nat → Parser (List (BinaryOperator × Node))
  | 0 => pure []
  | n + 1 => do
    let t ← peek
    match binaryOperator? t.kind with
    | some op =>
      let _ ← advance
      let next ← operand
      let rest ← chainTail operand n
      return (op, next) :: rest
    | none => if endsExpression t.kind then pure [] else expected .operator t

/-- A chain of operands, grouped by precedence. -/
def expressionOf (operand : Parser Node) (n : Nat) : Parser Node := do
  let first ← operand
  let rest ← chainTail operand n
  return Chain.group .binary ⟨first, rest⟩

/-- One argument after the other, up to the closing parenthesis. -/
def argumentsTail (expression : Parser Node) : Nat → Parser (List Node)
  | 0 => do expected .operand (← peek)
  | n + 1 => do
    let arg ← expression
    let separator ← consumeAny [.operator .comma, .operator .rparen]
    if separator == .operator .rparen then return [arg]
    let args ← argumentsTail expression n
    return arg :: args

/-- The arguments of a call, in parentheses. -/
def argumentsOf (expression : Parser Node) (n : Nat) : Parser (List Node) := do
  consume (.operator .lparen)
  if ← accept (.operator .rparen) then return []
  argumentsTail expression n

/-- One operand, given how to read an expression inside it. -/
def operandOf (expression : Parser Node) (n : Nat) : Parser Node := do
  let t ← advance
  match t.kind with
  | .integer value => return .number value
  | .operator .minus =>
    let t ← advance
    match t.kind with
    | .integer value => return .number (-value)
    | _ => expected .number t
  | .identifier name =>
    if ← accept (.operator .lbracket) then
      let index ← expression
      consume (.operator .rbracket)
      return .element name index
    else if ← isNext (.operator .lparen) then
      let args ← argumentsOf expression n
      return .call name args
    else return .ident name
  | .operator .lparen =>
    let inner ← expression
    consume (.operator .rparen)
    return inner
  | _ => expected .operand t

/-- One operand. -/
def operand : Nat → Parser Node
  | 0 => do expected .operand (← peek)
  | n + 1 => operandOf (expressionOf (operand n) n) n

/-- An expression. -/
def expression (n : Nat) : Parser Node := expressionOf (operand n) n

/-- The arguments of a call. -/
def arguments (n : Nat) : Parser (List Node) := argumentsOf (expression n) n

/-! ## Statements -/

/-- Takes tokens of any kind up to and with the closing quote. -/
def skipText : Nat → Parser Unit
  | 0 => do
    let t := (← get).head
    throw ⟨.unexpected (.operator .quote) t.kind, t.span⟩
  | n + 1 => do
    let t ← takeAny
    match t.kind with
    | .operator .quote => pure ()
    | .eof => throw ⟨.unexpected (.operator .quote) .eof, t.span⟩
    | _ => skipText n

/-- A `write` statement. Its text may hold any tokens, bad ones included, and leaves no trace. -/
def write (n : Nat) : Parser Unit := do
  consume (.keyword .write)
  consume (.operator .lparen)
  consume (.operator .quote)
  skipText n
  consume (.operator .rparen)

/-- A statement that works on a variable directly, from its keyword on. -/
def intrinsic (which : Intrinsic) : Parser Node := do
  let _ ← advance
  consume (.operator .lparen)
  let name ← identifier
  consume (.operator .rparen)
  return .intrinsic which name

/-- A statement that starts with a name: a call or an assignment. -/
def command (n : Nat) : Parser Node := do
  let name ← identifier
  if ← isNext (.operator .lparen) then
    let args ← arguments n
    return .call name args
  let target ←
    if ← accept (.operator .lbracket) then
      let index ← expression n
      consume (.operator .rbracket)
      pure (.element name index)
    else pure (.ident name)
  consume (.operator .assign)
  let value ← expression n
  return .binary .assign target value

/-- The statements of a block, up to and with its `end`. A semicolon may also stand after the last of
them. -/
def statementsOf (statement : Parser (Option Node)) : Nat → Parser (List Node)
  | 0 => do expected .statement (← peek)
  | n + 1 => do
    let first ← statement
    let separator ← consumeAny [.operator .semicolon, .keyword .end]
    if separator == .keyword .end then return first.toList
    if ← accept (.keyword .end) then return first.toList
    let rest ← statementsOf statement n
    return first.toList ++ rest

/-- A block of statements. -/
def blockOf (statement : Parser (Option Node)) (n : Nat) : Parser Node := do
  consume (.keyword .begin)
  let nodes ← statementsOf statement n
  return .block nodes

/-- The statement of a branch or of a loop body, an empty block if it leaves no node. -/
def branchOf (statement : Parser (Option Node)) : Parser Node := do
  return (← statement).getD (.block [])

/-- A conditional; a missing `else` arm is the number zero. -/
def conditionalOf (statement : Parser (Option Node)) (n : Nat) : Parser Node := do
  consume (.keyword .if)
  let condition ← expression n
  consume (.keyword .then)
  let thenArm ← branchOf statement
  let elseArm ← if ← accept (.keyword .else) then branchOf statement else pure (.number 0)
  return .conditional condition thenArm elseArm

def whileOf (statement : Parser (Option Node)) (n : Nat) : Parser Node := do
  consume (.keyword .while)
  let condition ← expression n
  consume (.keyword .do)
  let body ← branchOf statement
  return .whileLoop condition body

def forOf (statement : Parser (Option Node)) (n : Nat) : Parser Node := do
  consume (.keyword .for)
  let name ← identifier
  consume (.operator .assign)
  let start ← expression n
  let word ← consumeAny [.keyword .to, .keyword .downto]
  let direction := if word == .keyword .to then Direction.up else Direction.down
  let stop ← expression n
  consume (.keyword .do)
  let body ← branchOf statement
  return .forLoop name direction start stop body

/-- One statement, given how to read a statement inside it. Only `write` leaves no node. -/
def statementOf (statement : Parser (Option Node)) (n : Nat) : Parser (Option Node) := do
  let t ← peek
  match t.kind with
  | .keyword .begin => return some (← blockOf statement n)
  | .keyword .if => return some (← conditionalOf statement n)
  | .keyword .while => return some (← whileOf statement n)
  | .keyword .for => return some (← forOf statement n)
  | .keyword .exit =>
    let _ ← advance
    return some .exit
  | .keyword .readln => return some (← intrinsic .readln)
  | .keyword .inc => return some (← intrinsic .inc)
  | .keyword .dec => return some (← intrinsic .dec)
  | .keyword .writeln =>
    let _ ← advance
    let args ← arguments n
    return some (.call Keyword.writeln.text args)
  | .keyword .write =>
    write n
    return none
  | .identifier _ => return some (← command n)
  | _ => expected .statement t

/-- One statement. -/
def statement : Nat → Parser (Option Node)
  | 0 => do expected .statement (← peek)
  | n + 1 => statementOf (statement n) n

/-- A block of statements. -/
def block (n : Nat) : Parser Node := blockOf (statement n) n

/-! ## Declarations -/

/-- The range of an array type and where it stands. -/
structure ArrayBounds where
  low : Word
  high : Word
  span : Span

/-- A type: the bounds of an array, or none for a plain variable. -/
def type : Parser (Option ArrayBounds) := do
  let t ← advance
  match t.kind with
  | .keyword .integer => return none
  | .keyword .array =>
    consume (.operator .lbracket)
    let (low, lowSpan) ← number
    consume (.operator .range)
    let (high, highSpan) ← number
    consume (.operator .rbracket)
    consume (.keyword .of)
    consume (.keyword .integer)
    let span ← stretch lowSpan highSpan
    return some ⟨low, high, span⟩
  | _ => expected .type t

/-- The names after the first one of a variable declaration. -/
def moreNames : Nat → Parser (List String)
  | 0 => pure []
  | n + 1 => do
    if ← accept (.operator .comma) then
      let name ← identifier
      let names ← moreNames n
      return name :: names
    else return []

/-- The declaration of one name with the type that was read for it. -/
def declared (bounds : Option ArrayBounds) (name : String) : Parser Node :=
  match bounds with
  | none => pure (.variableDecl (.scalar name))
  | some b =>
    match VariableDecl.array? name b.low b.high with
    | some decl => pure (.variableDecl decl)
    | none => throw ⟨.emptyArrayRange b.low b.high, b.span⟩

/-- Whether the next token is a name. -/
def isNextName : Parser Bool := do
  match (← peek).kind with
  | .identifier _ => return true
  | _ => return false

/-- The lines of a `var` section, for as long as names follow. -/
def variableLines : Nat → Parser (List Node)
  | 0 => do expected .identifier (← peek)
  | n + 1 => do
    let name ← identifier
    let names ← moreNames n
    consume (.operator .colon)
    let bounds ← type
    consume (.operator .semicolon)
    let decls ← (name :: names).mapM (declared bounds)
    if ← isNextName then
      let rest ← variableLines n
      return decls ++ rest
    else return decls

/-- A `var` section. -/
def variableSection (n : Nat) : Parser (List Node) := do
  consume (.keyword .var)
  variableLines n

/-- The lines of a `const` section, for as long as names follow. -/
def constantLines : Nat → Parser (List Node)
  | 0 => do expected .identifier (← peek)
  | n + 1 => do
    let name ← identifier
    consume (.operator .eq)
    let (value, _) ← number
    consume (.operator .semicolon)
    if ← isNextName then
      let rest ← constantLines n
      return .constantDecl name value :: rest
    else return [.constantDecl name value]

/-- A `const` section. -/
def constantSection (n : Nat) : Parser (List Node) := do
  consume (.keyword .const)
  constantLines n

/-- One parameter after the other, up to the closing parenthesis. -/
def paramsTail : Nat → Parser (List String)
  | 0 => do expected .identifier (← peek)
  | n + 1 => do
    let name ← identifier
    consume (.operator .colon)
    consume (.keyword .integer)
    let separator ← consumeAny [.operator .semicolon, .operator .rparen]
    if separator == .operator .rparen then return [name]
    let names ← paramsTail n
    return name :: names

/-- The parameters of a subprogram, in parentheses. -/
def params (n : Nat) : Parser (List String) := do
  consume (.operator .lparen)
  if ← accept (.operator .rparen) then return []
  paramsTail n

/-- The heading of a subprogram. -/
def prototype (n : Nat) : Parser Prototype := do
  let word ← consumeAny [.keyword .function, .keyword .procedure]
  let kind := if word == .keyword .function then SubprogramKind.function else .procedure
  let name ← identifier
  let params ← params n
  if kind = .function then
    consume (.operator .colon)
    consume (.keyword .integer)
  consume (.operator .semicolon)
  return ⟨kind, name, params⟩

/-- The `var` sections at the start of a subprogram. -/
def localVariables : Nat → Parser (List Node)
  | 0 => pure []
  | n + 1 => do
    if ← isNext (.keyword .var) then
      let decls ← variableSection n
      let rest ← localVariables n
      return decls ++ rest
    else return []

/-- A function or procedure, announced by `forward` or defined in full. The body of a function declares
a variable of the function's own name and ends by reading it; that of a procedure ends with zero. -/
def subprogram (n : Nat) : Parser Node := do
  let heading ← prototype n
  if ← accept (.keyword .forward) then
    consume (.operator .semicolon)
    return .forward heading
  let decls ← localVariables n
  let body ← block n
  consume (.operator .semicolon)
  match heading.kind with
  | .function =>
    return .subprogram heading
      (decls ++ [.variableDecl (.scalar heading.name), body, .ident heading.name])
  | .procedure => return .subprogram heading (decls ++ [body, .number 0])

/-- The declarations of a program, up to its `begin`. -/
def declarations : Nat → Parser (List Node)
  | 0 => do expected .declaration (← peek)
  | n + 1 => do
    let t ← peek
    match t.kind with
    | .keyword .var =>
      let decls ← variableSection n
      let rest ← declarations n
      return decls ++ rest
    | .keyword .const =>
      let decls ← constantSection n
      let rest ← declarations n
      return decls ++ rest
    | .keyword .function | .keyword .procedure =>
      let decl ← subprogram n
      let rest ← declarations n
      return decl :: rest
    | .keyword .begin => return []
    | _ => expected .declaration t

/-- A program and the end of input. -/
def programOf (n : Nat) : Parser Program := do
  consume (.keyword .program)
  let name ← identifier
  consume (.operator .semicolon)
  let decls ← declarations n
  let body ← block n
  consume (.operator .dot)
  consume .eof
  return ⟨name, decls, body⟩

/-- Reads a program, which ends with the end of input. -/
def program : Parser Program := do programOf (← get).pending.length

/-- Reads an expression that is followed by the end of input. -/
def wholeExpression : Parser Node := do
  let node ← expression (← get).pending.length
  consume .eof
  return node

/-- The result of a parser on a stream, without what it leaves. -/
def result {α : Type} (parser : Parser α) (stream : TokenStream) : Except ParseError α :=
  match parser.run stream with
  | .ok a _ => .ok a
  | .error e _ => .error e

end Parser

/-- The program that a source text spells. -/
def parseProgram (source : String) : Except ParseError Program :=
  Parser.program.result (Cursor.ofInput (Input.ofString source)).stream

/-- The expression that a source text spells. -/
def parseExpression (source : String) : Except ParseError Node :=
  Parser.wholeExpression.result (Cursor.ofInput (Input.ofString source)).stream

end Mila
