import Mila.Token.Scan

/-! # Lexers

A lexer hands out the tokens of an input one at a time. Its client may look at the next token without
taking it, and may hand tokens back: those are given out again, in the order in which they came, before
any further input is scanned. Past the end of the input every token is an end of input.

The client that wants all tokens at once takes them as a `TokenStream`.
-/

namespace Mila

/-- A place in an input: what is still to be scanned, and how many bytes came before it. -/
structure Cursor where
  input : Input
  position : Nat

namespace Cursor

def ofInput (input : Input) : Cursor := ⟨input, 0⟩

/-- Moves past the blanks at the cursor. -/
def skipBlanks (c : Cursor) : Cursor :=
  let (blanks, rest) := c.input.takeWhile Ascii.isBlank
  ⟨rest, c.position + blanks.length⟩

/-- The next token and the cursor behind it. -/
def token (c : Cursor) : Token × Cursor :=
  let start := c.skipBlanks
  let lexeme := scan start.input
  (⟨lexeme.kind, Span.ofLength start.position lexeme.size⟩,
    ⟨lexeme.rest, start.position + lexeme.size⟩)

theorem token_shortens {c : Cursor} (h : c.token.1.kind ≠ .eof) :
    c.token.2.input.length < c.input.length :=
  Nat.lt_of_lt_of_le (scan_shortens h) (Input.length_takeWhile_le _ _)

end Cursor

/-- A sequence of tokens: the pending ones, and after them ends of input at `last` without end. -/
structure TokenStream where
  pending : List Token
  last : Span
  deriving DecidableEq, Repr

namespace TokenStream

/-- The token that stands at the end of input. -/
def eof (s : TokenStream) : Token := ⟨.eof, s.last⟩

/-- The next token. -/
def head (s : TokenStream) : Token := s.pending.headD s.eof

/-- What follows the next token. -/
def tail (s : TokenStream) : TokenStream := { s with pending := s.pending.tail }

/-- Puts a token in front. -/
def cons (t : Token) (s : TokenStream) : TokenStream := { s with pending := t :: s.pending }

/-- All tokens, with one end of input. -/
def toList (s : TokenStream) : List Token := s.pending ++ [s.eof]

end TokenStream

/-- The tokens from the cursor on. -/
def Cursor.stream (c : Cursor) : TokenStream :=
  if c.token.1.kind = .eof then ⟨[], c.token.1.span⟩
  else .cons c.token.1 (stream c.token.2)
termination_by c.input.length
decreasing_by exact Cursor.token_shortens (by assumption)

/-- All tokens of a source text, the end of input included. -/
def tokens (source : String) : List Token :=
  (Cursor.ofInput (Input.ofString source)).stream.toList

/-- A source of tokens that can be looked at ahead of time and refilled. -/
structure Lexer where
  cursor : Cursor
  /-- Tokens to give out before any further input is scanned. -/
  queue : List Token
  /-- Whether iteration has come to its end. -/
  finished : Bool

namespace Lexer

def ofInput (input : Input) : Lexer := ⟨.ofInput input, [], false⟩

/-- Takes the next token. -/
def next (l : Lexer) : Token × Lexer :=
  match l.queue with
  | t :: queue => (t, { l with queue })
  | [] => (l.cursor.token.1, { l with cursor := l.cursor.token.2 })

/-- Looks at the next token, which stays the next one. -/
def peek (l : Lexer) : Token × Lexer :=
  match l.queue with
  | t :: _ => (t, l)
  | [] => (l.cursor.token.1, { l with cursor := l.cursor.token.2, queue := [l.cursor.token.1] })

/-- Hands a token back, to be given out after those handed back before it. -/
def pushBack (l : Lexer) (t : Token) : Lexer := { l with queue := l.queue ++ [t] }

/-- Whether nothing but blanks is left. To find out, the blanks in front are passed over, unless there are tokens
to give out before them. -/
def atEnd (l : Lexer) : Bool × Lexer :=
  match l.queue with
  | _ :: _ => (false, l)
  | [] =>
    let cursor := l.cursor.skipBlanks
    match cursor.input.next with
    | .finished => (true, { l with cursor })
    | _ => (false, { l with cursor })

def isAtEnd (l : Lexer) : Bool := l.atEnd.1

/-- Takes the next token, unless an earlier iteration already gave the end of input. -/
def iterate (l : Lexer) : Option Token × Lexer :=
  if l.finished then (none, l)
  else (some l.next.1, { l.next.2 with finished := l.next.1.kind == .eof })

/-- Everything that is still to come. -/
def stream (l : Lexer) : TokenStream :=
  l.queue.foldr .cons l.cursor.stream

end Lexer

/-- Why a text is not the spelling of one token. -/
inductive SpellingError where
  | lexical (reason : LexicalError)
  | notASingleToken (text : String)
  deriving DecidableEq, Repr

def SpellingError.message : SpellingError → String
  | lexical reason => reason.message
  | notASingleToken text => "`" ++ text ++ "` is not a single token"

/-- The one kind of token that a text spells. -/
def Kind.ofText (text : String) : Except SpellingError Kind :=
  let (first, rest) := (Cursor.ofInput (Input.ofString text)).token
  match first.kind with
  | .error reason => .error (.lexical reason)
  | .eof => .error (.notASingleToken text)
  | kind => if rest.token.1.kind = .eof then .ok kind else .error (.notASingleToken text)

end Mila
