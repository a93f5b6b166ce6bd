import Scad.Span
import Scad.Text.Quoted

/-! Tokens of the modelling language: reserved words, symbols, and the four classes whose text
varies. A token keeps its text without the delimiters of strings and file references. -/
namespace Scad

inductive Keyword where
  | forLoop | letIn | assert | echo | each | function | moduleDef | ifThen | otherwise
  | includeFile | useFile | true | false | undef
  deriving DecidableEq

namespace Keyword

def text : Keyword → String
  | forLoop => "for"
  | letIn => "let"
  | assert => "assert"
  | echo => "echo"
  | each => "each"
  | function => "function"
  | moduleDef => "module"
  | ifThen => "if"
  | otherwise => "else"
  | includeFile => "include"
  | useFile => "use"
  | true => "true"
  | false => "false"
  | undef => "undef"

def all : List Keyword :=
  [forLoop, letIn, assert, echo, each, function, moduleDef, ifThen, otherwise, includeFile,
    useFile, true, false, undef]

def ofText? (s : String) : Option Keyword := all.find? (·.text = s)

end Keyword

inductive Symbol where
  | orElse | andAlso | equal | notEqual | lessEqual | greaterEqual | less | greater | assign
  | plus | minus | star | slash | percent | caret | bang | hash | question | colon
  | semicolon | comma | dot
  | leftParen | rightParen | leftBracket | rightBracket | leftBrace | rightBrace
  deriving DecidableEq

namespace Symbol

def text : Symbol → String
  | orElse => "||"
  | andAlso => "&&"
  | equal => "=="
  | notEqual => "!="
  | lessEqual => "<="
  | greaterEqual => ">="
  | less => "<"
  | greater => ">"
  | assign => "="
  | plus => "+"
  | minus => "-"
  | star => "*"
  | slash => "/"
  | percent => "%"
  | caret => "^"
  | bang => "!"
  | hash => "#"
  | question => "?"
  | colon => ":"
  | semicolon => ";"
  | comma => ","
  | dot => "."
  | leftParen => "("
  | rightParen => ")"
  | leftBracket => "["
  | rightBracket => "]"
  | leftBrace => "\x7b"
  | rightBrace => "\x7d"

/-- Every symbol, the long ones first, so that the first that fits is the longest. -/
def all : List Symbol :=
  [orElse, andAlso, equal, notEqual, lessEqual, greaterEqual, less, greater, assign, plus, minus,
    star, slash, percent, caret, bang, hash, question, colon, semicolon, comma, dot, leftParen,
    rightParen, leftBracket, rightBracket, leftBrace, rightBrace]

/-- The marks that may stand before a module instantiation. -/
def modifiers : List Symbol := [bang, hash, percent, star]

end Symbol

inductive TokenKind where
  | keyword (word : Keyword)
  | identifier
  | number
  | string
  | file
  | symbol (sign : Symbol)
  | eof
  deriving DecidableEq

namespace TokenKind

def all : List TokenKind :=
  Keyword.all.map keyword ++ [identifier, number, string, file] ++ Symbol.all.map symbol ++ [eof]

/-- How a message names a kind that it misses. -/
def describe : TokenKind → String
  | keyword w => "'" ++ w.text ++ "'"
  | symbol s => "'" ++ s.text ++ "'"
  | identifier => "identifier"
  | number => "number"
  | string => "string"
  | file => "file reference"
  | eof => "end of input"

/-- Whether a `<` behind a token of this kind opens a file reference. -/
def expectsFile (k : TokenKind) : Bool := k = keyword .includeFile || k = keyword .useFile

end TokenKind

structure Token where
  kind : TokenKind
  text : String
  span : Span
  deriving DecidableEq

/-- How a message shows a token that it found. -/
def Token.describe (t : Token) : String :=
  if t.kind = .eof then "end of input" else Text.quoted t.text

end Scad
