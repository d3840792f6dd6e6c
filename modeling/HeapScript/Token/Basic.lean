import HeapScript.Decimal.Shortest
import HeapScript.Operator

/-!
# Tokens

What a source text is made of: literals, names, and the fixed symbols of the
language. A token keeps the text it was read from and the line it stands on.

* `Symbol` are the tokens that have one spelling each.
* `TokenKind.describe` is how a syntax error names a token.
-/

namespace HeapScript

/-- The reserved words. -/
inductive Keyword where
  | const | alloc | ref | func | closure | classDef
  | ifThen | elseThen | whileLoop | forLoop | breakLoop | continueLoop | returnValue
  | trueValue | falseValue
  deriving DecidableEq, Repr

namespace Keyword

/-- Every reserved word. -/
def all : List Keyword :=
  [const, alloc, ref, func, closure, classDef, ifThen, elseThen, whileLoop, forLoop, breakLoop,
    continueLoop, returnValue, trueValue, falseValue]

/-- How the word is written. -/
def spelling : Keyword → String
  | const => "const"
  | alloc => "alloc"
  | ref => "ref"
  | func => "func"
  | closure => "closure"
  | classDef => "class"
  | ifThen => "if"
  | elseThen => "else"
  | whileLoop => "while"
  | forLoop => "for"
  | breakLoop => "break"
  | continueLoop => "continue"
  | returnValue => "return"
  | trueValue => "true"
  | falseValue => "false"

/-- The reserved word with a given spelling. -/
def ofSpelling? (s : String) : Option Keyword :=
  all.find? fun k => k.spelling == s

theorem mem_all (k : Keyword) : k ∈ all := by cases k <;> decide

end Keyword

/-- The brackets and separators. -/
inductive Delimiter where
  | lparen | rparen | lbrace | rbrace | lbracket | rbracket
  | comma | semicolon | dot | arrow
  deriving DecidableEq, Repr

namespace Delimiter

/-- Every bracket and separator. -/
def all : List Delimiter :=
  [lparen, rparen, lbrace, rbrace, lbracket, rbracket, comma, semicolon, dot, arrow]

/-- How the delimiter is written. -/
def spelling : Delimiter → String
  | lparen => "("
  | rparen => ")"
  | lbrace => "\x7b"
  | rbrace => "\x7d"
  | lbracket => "["
  | rbracket => "]"
  | comma => ","
  | semicolon => ";"
  | dot => "."
  | arrow => "->"

theorem mem_all (d : Delimiter) : d ∈ all := by cases d <;> decide

end Delimiter

/-- The tokens with a fixed spelling. The minus sign is the operator of
subtraction, whichever way it is used. -/
inductive Symbol where
  | keyword (k : Keyword)
  | delimiter (d : Delimiter)
  | operator (op : BinaryOp)
  | assign (op : AssignOp)
  | bang
  | tilde
  deriving DecidableEq, Repr

namespace Symbol

/-- How the symbol is written. -/
def spelling : Symbol → String
  | keyword k => k.spelling
  | delimiter d => d.spelling
  | operator op => op.spelling
  | assign op => op.spelling
  | bang => "!"
  | tilde => "~"

/-- Every symbol that is not a word. -/
def punctuation : List Symbol :=
  Delimiter.all.map delimiter ++ BinaryOp.all.map operator ++ AssignOp.all.map assign ++
    [bang, tilde]

/-- The symbol other than a word that is written with the given characters. -/
def ofSpelling? (cs : List Char) : Option Symbol :=
  punctuation.find? fun s => s.spelling.toList == cs

/-- The prefix operator that the symbol can be. -/
def unary? : Symbol → Option UnaryOp
  | operator .sub => some .neg
  | bang => some .not
  | tilde => some .bitNot
  | _ => none

end Symbol

/-- What a token is. Literals carry the value they stand for. -/
inductive TokenKind where
  | num (value : Float)
  | str (value : String)
  | ident (name : String)
  | symbol (s : Symbol)
  | eof

namespace TokenKind

/-- The spelling of a symbol, or a word in angle brackets for the other kinds. -/
def label : TokenKind → String
  | num _ => "<number>"
  | str _ => "<string>"
  | ident _ => "<identifier>"
  | symbol s => s.spelling
  | eof => "<eof>"

/-- How a syntax error names the token. -/
def describe : TokenKind → String
  | num value => "number `" ++ Decimal.text value ++ "`"
  | str _ => "string literal"
  | ident name => "identifier `" ++ name ++ "`"
  | symbol s => "`" ++ s.spelling ++ "`"
  | eof => "end of file"

/-- Whether the token is the given symbol. -/
def isSymbol (s : Symbol) : TokenKind → Bool
  | symbol t => t == s
  | _ => false

end TokenKind

/-- A token with the text it was read from and its line. -/
structure Token where
  kind : TokenKind
  text : String
  line : Nat

namespace Token

/-- The token's description and line. -/
def shown (t : Token) : String :=
  t.kind.describe ++ " (line " ++ toString t.line ++ ")"

end Token

end HeapScript
