/-
  Lox.Token.Basic
  ───────────────
  **TOKENS.**

  The words of a program: a kind, the characters that spell it, and the line
  it starts on.  String and number tokens carry their value in the kind.
-/
import Lox.Decimal.Layout
import Lox.Json

namespace Lox

/-! ## §1. Kinds. -/

/-- The kinds of token. -/
inductive TokenKind where
  | leftParen
  | rightParen
  | leftBrace
  | rightBrace
  | comma
  | dot
  | minus
  | plus
  | semicolon
  | slash
  | star
  | bang
  | bangEqual
  | equal
  | equalEqual
  | greater
  | greaterEqual
  | less
  | lessEqual
  /-- A name that is no keyword. -/
  | identifier
  /-- A string with the characters between its quotes. -/
  | string (contents : String)
  /-- A number with its value. -/
  | number (value : Float)
  | kwAnd
  | kwClass
  | kwElse
  | kwFalse
  | kwFun
  | kwFor
  | kwIf
  | kwNil
  | kwOr
  | kwPrint
  | kwReturn
  | kwSuper
  | kwThis
  | kwTrue
  | kwVar
  | kwWhile
  /-- The end of the input. -/
  | eof
  deriving Repr, DecidableEq, Inhabited

namespace TokenKind

/-- The name of a kind. -/
def name : TokenKind → String
  | leftParen => "LEFT_PAREN"
  | rightParen => "RIGHT_PAREN"
  | leftBrace => "LEFT_BRACE"
  | rightBrace => "RIGHT_BRACE"
  | comma => "COMMA"
  | dot => "DOT"
  | minus => "MINUS"
  | plus => "PLUS"
  | semicolon => "SEMICOLON"
  | slash => "SLASH"
  | star => "STAR"
  | bang => "BANG"
  | bangEqual => "BANG_EQUAL"
  | equal => "EQUAL"
  | equalEqual => "EQUAL_EQUAL"
  | greater => "GREATER"
  | greaterEqual => "GREATER_EQUAL"
  | less => "LESS"
  | lessEqual => "LESS_EQUAL"
  | identifier => "IDENTIFIER"
  | string _ => "STRING"
  | number _ => "NUMBER"
  | kwAnd => "AND"
  | kwClass => "CLASS"
  | kwElse => "ELSE"
  | kwFalse => "FALSE"
  | kwFun => "FUN"
  | kwFor => "FOR"
  | kwIf => "IF"
  | kwNil => "NIL"
  | kwOr => "OR"
  | kwPrint => "PRINT"
  | kwReturn => "RETURN"
  | kwSuper => "SUPER"
  | kwThis => "THIS"
  | kwTrue => "TRUE"
  | kwVar => "VAR"
  | kwWhile => "WHILE"
  | eof => "EOF"

/-- The keywords with their spelling. -/
def keywords : List (String × TokenKind) :=
  [("and", kwAnd), ("class", kwClass), ("else", kwElse), ("false", kwFalse),
   ("fun", kwFun), ("for", kwFor), ("if", kwIf), ("nil", kwNil), ("or", kwOr),
   ("print", kwPrint), ("return", kwReturn), ("super", kwSuper), ("this", kwThis),
   ("true", kwTrue), ("var", kwVar), ("while", kwWhile)]

/-- The kind of a word: a keyword if it is spelled like one. -/
def ofWord (word : String) : TokenKind :=
  (keywords.lookup word).getD identifier

/-- All kinds, those with a value at one value of it. -/
def samples : List TokenKind :=
  [leftParen, rightParen, leftBrace, rightBrace, comma, dot, minus, plus, semicolon,
   slash, star, bang, bangEqual, equal, equalEqual, greater, greaterEqual, less,
   lessEqual, identifier, string "", number 0] ++ keywords.map Prod.snd ++ [eof]

/-- The kind of a name. -/
def ofName? (s : String) : Option TokenKind :=
  samples.find? fun k => k.name == s

/-- Number tokens show a whole number with `.0` and never an exponent; the
sign of a zero is lost. -/
def numberLayout : Decimal.Layout where
  signedZero := false

/-- The value that a token of this kind carries, as text; `null` if there is
none. -/
def literalText : TokenKind → String
  | string contents => contents
  | number value => numberLayout.render value
  | _ => "null"

/-- A kind as a document: its name, with its value if it carries one. -/
def toJson : TokenKind → Json
  | string contents => .tagged "STRING" (.string contents)
  | number value => .tagged "NUMBER" (.number value)
  | kind => .string kind.name

end TokenKind

/-! ## §2. Tokens. -/

/-- A token: its kind, its spelling, and the line it starts on. -/
structure Token where
  kind : TokenKind
  lexeme : String
  line : Nat
  deriving Repr, DecidableEq, Inhabited

namespace Token

/-- A name that stands in no source text, on a line of choice. -/
def named (name : String) (line : Nat) : Token :=
  ⟨.identifier, name, line⟩

/-- Kind, spelling and value, with blanks between them. -/
def text (t : Token) : String :=
  t.kind.name ++ " " ++ t.lexeme ++ " " ++ t.kind.literalText

/-- A token as a document. -/
def toJson (t : Token) : Json :=
  .object
    [("token_type", t.kind.toJson), ("lexeme", .string t.lexeme), ("line", .natural t.line)]

end Token

end Lox
