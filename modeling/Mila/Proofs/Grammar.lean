import Mila.Proofs.Grouping
import Mila.Token

/-! # The grammar

Which sequences of tokens spell a program, and the tree of the program that they spell.

    program     = "program" ID ";" declaration* block "."
    declaration = var | const | heading ( "forward" ";" | var* block ";" )
    var         = "var" ( ID ( "," ID )* ":" type ";" )+
    type        = "integer" | "array" "[" number ".." number "]" "of" "integer"
    const       = "const" ( ID "=" number ";" )+
    heading     = "function" ID "(" params ")" ":" "integer" ";" | "procedure" ID "(" params ")" ";"
    params      = [ ID ":" "integer" ( ";" ID ":" "integer" )* ]
    block       = "begin" statement ( ";" statement )* [ ";" ] "end"
    statement   = block | command | "if" expr "then" statement [ "else" statement ]
                | "while" expr "do" statement | "for" ID ":=" expr ( "to" | "downto" ) expr "do" statement
    command     = lvalue ":=" expr | ID "(" args ")" | "writeln" "(" args ")" | "exit"
                | ( "readln" | "inc" | "dec" ) "(" ID ")" | "write" "(" "'" text "'" ")"
    lvalue      = ID | ID "[" expr "]"
    args        = [ expr ( "," expr )* ]
    expr        = operand ( operator operand )*
    operand     = number | ID | ID "[" expr "]" | ID "(" args ")" | "(" expr ")"
    number      = [ "-" ] INT
-/

namespace Mila.Grammar

/-! ## 1. Expressions -/

abbrev ident (name : String) : List Kind := [.identifier name]

abbrev sign (symbol : Operator) : List Kind := [.operator symbol]

abbrev word (keyword : Keyword) : List Kind := [.keyword keyword]

/-- A number, perhaps with a minus sign. -/
inductive Number : List Kind → Word → Prop where
  | plain (value : Word) : Number [.integer value] value
  | negative (value : Word) : Number (sign .minus ++ [.integer value]) (-value)

/-- How an operator between two operands is written. An assignment does not stand between operands. -/
def symbol? : BinaryOperator → Option Kind
  | .assign => none
  | .add => some (.operator .plus)
  | .sub => some (.operator .minus)
  | .mul => some (.operator .star)
  | .div => some (.keyword .div)
  | .mod => some (.keyword .mod)
  | .lt => some (.operator .less)
  | .le => some (.operator .lessEq)
  | .gt => some (.operator .greater)
  | .ge => some (.operator .greaterEq)
  | .eq => some (.operator .eq)
  | .ne => some (.operator .notEq)
  | .and => some (.keyword .and)
  | .or => some (.keyword .or)

/-- The parts of expressions, with their trees. -/
inductive Term where
  | operand (n : Node)
  /-- What follows the first operand of an expression. -/
  | tail (rest : List (BinaryOperator × Node))
  | expression (n : Node)
  /-- What stands between the parentheses of a call. -/
  | arguments (args : List Node)
  /-- At least one argument. -/
  | list (args : List Node)

/-- Tokens that spell a part of an expression. Parentheses leave no trace in its tree. -/
inductive Spells : List Kind → Term → Prop where
  | number {ks : List Kind} {value : Word} (h : Number ks value) : Spells ks (.operand (.number value))
  | ident (name : String) : Spells (ident name) (.operand (.ident name))
  | element (name : String) {ks : List Kind} {index : Node} (h : Spells ks (.expression index)) :
      Spells (ident name ++ sign .lbracket ++ ks ++ sign .rbracket)
        (.operand (.element name index))
  | call (name : String) {ks : List Kind} {args : List Node} (h : Spells ks (.arguments args)) :
      Spells (ident name ++ sign .lparen ++ ks ++ sign .rparen)
        (.operand (.call name args))
  | parentheses {ks : List Kind} {n : Node} (h : Spells ks (.expression n)) :
      Spells (sign .lparen ++ ks ++ sign .rparen) (.operand n)
  | tailNil : Spells [] (.tail [])
  | tailCons {k : Kind} {ks ks' : List Kind} {op : BinaryOperator} {n : Node}
      {rest : List (BinaryOperator × Node)} (hop : symbol? op = some k) (h : Spells ks (.operand n))
      (h' : Spells ks' (.tail rest)) : Spells ([k] ++ ks ++ ks') (.tail ((op, n) :: rest))
  | expression {ks ks' : List Kind} {first n : Node} {rest : List (BinaryOperator × Node)}
      (h : Spells ks (.operand first)) (h' : Spells ks' (.tail rest))
      (hgroup : Chain.Grouped .binary ⟨first, rest⟩ n) : Spells (ks ++ ks') (.expression n)
  | noArguments : Spells [] (.arguments [])
  | someArguments {ks : List Kind} {args : List Node} (h : Spells ks (.list args)) :
      Spells ks (.arguments args)
  | listLast {ks : List Kind} {n : Node} (h : Spells ks (.expression n)) : Spells ks (.list [n])
  | listCons {ks ks' : List Kind} {n : Node} {args : List Node} (h : Spells ks (.expression n))
      (h' : Spells ks' (.list args)) : Spells (ks ++ sign .comma ++ ks') (.list (n :: args))

/-! ## 2. Statements -/

/-- The text of a `write`: any tokens, bad ones included, but a quote and the end of input. -/
def Text (ks : List Kind) : Prop := ∀ k ∈ ks, k ≠ .operator .quote ∧ k ≠ .eof

/-- The places that can be assigned to. -/
inductive Lvalue : List Kind → Node → Prop where
  | variable (name : String) : Lvalue (ident name) (.ident name)
  | element (name : String) {ks : List Kind} {index : Node} (h : Spells ks (.expression index)) :
      Lvalue (ident name ++ sign .lbracket ++ ks ++ sign .rbracket)
        (.element name index)

/-- The word that a statement which works on a variable directly starts with. -/
def keyword : Intrinsic → Keyword
  | .readln => .readln
  | .inc => .inc
  | .dec => .dec

/-- Statements without statements in them. A `write` leaves no node. -/
inductive Command : List Kind → Option Node → Prop where
  | assign {ts ks : List Kind} {target value : Node} (ht : Lvalue ts target)
      (hv : Spells ks (.expression value)) :
      Command (ts ++ sign .assign ++ ks) (some (.binary .assign target value))
  | call (name : String) {ks : List Kind} {args : List Node} (h : Spells ks (.arguments args)) :
      Command (ident name ++ sign .lparen ++ ks ++ sign .rparen) (some (.call name args))
  | writeln {ks : List Kind} {args : List Node} (h : Spells ks (.arguments args)) :
      Command (word .writeln ++ sign .lparen ++ ks ++ sign .rparen)
        (some (.call "writeln" args))
  | exit : Command (word .exit) (some .exit)
  | intrinsic (which : Intrinsic) (name : String) :
      Command (word (keyword which) ++ sign .lparen ++ ident name ++ sign .rparen)
        (some (.intrinsic which name))
  | write {ks : List Kind} (h : Text ks) :
      Command (word .write ++ sign .lparen ++ sign .quote ++ ks ++ sign .quote ++ sign .rparen) none

/-- The statement of a branch or of a loop body, an empty block if it leaves no node. -/
def branch (s : Option Node) : Node := s.getD (.block [])

def direction : Direction → Keyword
  | .up => .to
  | .down => .downto

/-- The parts of blocks, with their trees. -/
inductive Clause where
  /-- A statement is open if an `else` right behind it would belong to an `if` in it. -/
  | statement (isOpen : Bool) (s : Option Node)
  /-- What stands between `begin` and `end`. -/
  | statements (nodes : List Node)
  | block (n : Node)

/-- Tokens that spell a part of a block. An `else` belongs to the nearest open `if`: there is no open
statement in front of it. A missing `else` arm is the number zero. -/
inductive Says : List Kind → Clause → Prop where
  | command {ks : List Kind} {s : Option Node} (h : Command ks s) : Says ks (.statement false s)
  | nested {ks : List Kind} {n : Node} (h : Says ks (.block n)) : Says ks (.statement false (some n))
  | ifThen {cs ts : List Kind} {c : Node} {t : Option Node} {isOpen : Bool}
      (hc : Spells cs (.expression c)) (ht : Says ts (.statement isOpen t)) :
      Says (word .if ++ cs ++ word .then ++ ts)
        (.statement true (some (.conditional c (branch t) (.number 0))))
  | ifElse {cs ts es : List Kind} {c : Node} {t e : Option Node} {isOpen : Bool}
      (hc : Spells cs (.expression c)) (ht : Says ts (.statement false t))
      (he : Says es (.statement isOpen e)) :
      Says (word .if ++ cs ++ word .then ++ ts ++ word .else ++ es)
        (.statement isOpen (some (.conditional c (branch t) (branch e))))
  | whileLoop {cs bs : List Kind} {c : Node} {b : Option Node} {isOpen : Bool}
      (hc : Spells cs (.expression c)) (hb : Says bs (.statement isOpen b)) :
      Says (word .while ++ cs ++ word .do ++ bs)
        (.statement isOpen (some (.whileLoop c (branch b))))
  | forLoop (name : String) (d : Direction) {ss zs bs : List Kind} {start stop : Node} {b : Option Node}
      {isOpen : Bool} (hs : Spells ss (.expression start)) (hz : Spells zs (.expression stop))
      (hb : Says bs (.statement isOpen b)) :
      Says (word .for ++ ident name ++ sign .assign ++ ss ++ word (direction d) ++ zs ++
          word .do ++ bs)
        (.statement isOpen (some (.forLoop name d start stop (branch b))))
  | last {ks : List Kind} {s : Option Node} {isOpen : Bool} (h : Says ks (.statement isOpen s)) :
      Says ks (.statements s.toList)
  | lastSemicolon {ks : List Kind} {s : Option Node} {isOpen : Bool} (h : Says ks (.statement isOpen s)) :
      Says (ks ++ sign .semicolon) (.statements s.toList)
  | cons {ks ks' : List Kind} {s : Option Node} {isOpen : Bool} {nodes : List Node}
      (h : Says ks (.statement isOpen s)) (h' : Says ks' (.statements nodes)) :
      Says (ks ++ sign .semicolon ++ ks') (.statements (s.toList ++ nodes))
  | block {ks : List Kind} {nodes : List Node} (h : Says ks (.statements nodes)) :
      Says (word .begin ++ ks ++ word .end) (.block (.block nodes))

/-! ## 3. Declarations -/

/-- A type: the bounds of an array, or none for a plain variable. -/
inductive TypeName : List Kind → Option (Word × Word) → Prop where
  | integer : TypeName (word .integer) none
  | array {ls hs : List Kind} {low high : Word} (hl : Number ls low) (hh : Number hs high) :
      TypeName (word .array ++ sign .lbracket ++ ls ++ sign .range ++ hs ++
        sign .rbracket ++ word .of ++ word .integer) (some (low, high))

/-- The declaration of one name. An array has one cell for each index between its bounds. -/
def declared (bounds : Option (Word × Word)) (name : String) : VariableDecl :=
  match bounds with
  | none => .scalar name
  | some (low, high) => ⟨name, -low, (high.toInt - low.toInt + 1).toNat⟩

/-- Names with commas between them. -/
def names (first : String) (others : List String) : List Kind :=
  ident first ++ others.flatMap fun name => sign .comma ++ ident name

/-- Parameters with semicolons between them. -/
def params : List String → List Kind
  | [] => []
  | first :: others =>
    ident first ++ sign .colon ++ word .integer ++ others.flatMap fun name =>
      sign .semicolon ++ ident name ++ sign .colon ++ word .integer

/-- The heading of a subprogram. -/
def heading (p : Prototype) : List Kind :=
  match p.kind with
  | .function => word .function ++ ident p.name ++ sign .lparen ++ params p.params ++
      sign .rparen ++ sign .colon ++ word .integer ++ sign .semicolon
  | .procedure => word .procedure ++ ident p.name ++ sign .lparen ++ params p.params ++
      sign .rparen ++ sign .semicolon

/-- The tree of a subprogram. The body of a function declares a variable of the function's own name and ends
by reading it; that of a procedure ends with zero. -/
def subprogram (p : Prototype) (decls : List VariableDecl) (block : Node) : Node :=
  .subprogram p (decls.map .variableDecl ++ match p.kind with
    | .function => [.variableDecl (.scalar p.name), block, .ident p.name]
    | .procedure => [block, .number 0])

section

-- which ranges of array indices there may be
variable (Range : Word → Word → Prop)

/-- One line of a `var` section. -/
inductive VariableLine : List Kind → List VariableDecl → Prop where
  | mk (first : String) (others : List String) {ts : List Kind} {bounds : Option (Word × Word)}
      (ht : TypeName ts bounds) (hrange : ∀ low high, bounds = some (low, high) → Range low high) :
      VariableLine (names first others ++ sign .colon ++ ts ++ sign .semicolon)
        ((first :: others).map (declared bounds))

/-- The lines of a `var` section. -/
inductive VariableLines : List Kind → List VariableDecl → Prop where
  | last {ks : List Kind} {decls : List VariableDecl} (h : VariableLine Range ks decls) :
      VariableLines ks decls
  | cons {ks ks' : List Kind} {decls decls' : List VariableDecl} (h : VariableLine Range ks decls)
      (h' : VariableLines ks' decls') : VariableLines (ks ++ ks') (decls ++ decls')

/-- The lines of a `const` section. -/
inductive ConstantLines : List Kind → List Node → Prop where
  | last (name : String) {ks : List Kind} {value : Word} (h : Number ks value) :
      ConstantLines (ident name ++ sign .eq ++ ks ++ sign .semicolon)
        [.constantDecl name value]
  | cons (name : String) {ks ks' : List Kind} {value : Word} {decls : List Node} (h : Number ks value)
      (h' : ConstantLines ks' decls) :
      ConstantLines (ident name ++ sign .eq ++ ks ++ sign .semicolon ++ ks')
        (.constantDecl name value :: decls)

/-- The `var` sections at the start of a subprogram. -/
inductive LocalVariables : List Kind → List VariableDecl → Prop where
  | nil : LocalVariables [] []
  | cons {ks ks' : List Kind} {decls decls' : List VariableDecl} (h : VariableLines Range ks decls)
      (h' : LocalVariables ks' decls') : LocalVariables (word .var ++ ks ++ ks') (decls ++ decls')

/-- One declaration of a program. -/
inductive Declares : List Kind → List Node → Prop where
  | variables {ks : List Kind} {decls : List VariableDecl} (h : VariableLines Range ks decls) :
      Declares (word .var ++ ks) (decls.map .variableDecl)
  | constants {ks : List Kind} {decls : List Node} (h : ConstantLines ks decls) :
      Declares (word .const ++ ks) decls
  | forward (p : Prototype) :
      Declares (heading p ++ word .forward ++ sign .semicolon) [.forward p]
  | subprogram (p : Prototype) {vs bs : List Kind} {decls : List VariableDecl} {block : Node}
      (hv : LocalVariables Range vs decls) (hb : Says bs (.block block)) :
      Declares (heading p ++ vs ++ bs ++ sign .semicolon) [subprogram p decls block]

/-- The declarations of a program. -/
inductive Declarations : List Kind → List Node → Prop where
  | nil : Declarations [] []
  | cons {ks ks' : List Kind} {decls decls' : List Node} (h : Declares Range ks decls)
      (h' : Declarations ks' decls') : Declarations (ks ++ ks') (decls ++ decls')

/-- A whole program. -/
inductive Derives : List Kind → Program → Prop where
  | program (name : String) {ds bs : List Kind} {decls : List Node} {body : Node}
      (hd : Declarations Range ds decls) (hb : Says bs (.block body)) :
      Derives (word .program ++ ident name ++ sign .semicolon ++ ds ++ bs ++ sign .dot)
        ⟨name, decls, body⟩

end

end Mila.Grammar
