import Scad.Diagnostic
import Scad.Token.Lexeme

/-! From a text to its tokens. The scanner cuts the text into pieces of at least one character:
blanks, tokens and faults. A fault never stops it. -/
namespace Scad

/-- What the scanner found at one place. -/
inductive Piece where
  | blank
  | token (kind : TokenKind) (text : List Char)
  | fault (message : String)

namespace Piece

def isBlank (c : Char) : Bool :=
  c = ' ' || c = '\t' || c = '\r' || c = '\n' || c = '\x0c' || c = '\x0b'

/-- The number of characters up to and with the `*/` that ends a block comment. -/
def commentEnd? : List Char → Option Nat
  | [] => none
  | '*' :: '/' :: _ => some 2
  | _ :: cs => (commentEnd? cs).map (· + 1)

/-- The number of characters before the quote that closes a string. A backslash keeps the
character behind it from closing the string. -/
def stringEnd? (quote : Char) : List Char → Option Nat
  | [] => none
  | c :: cs =>
    if c = quote then some 0
    else if c = '\\' then
      match cs with
      | [] => none
      | _ :: rest => (stringEnd? quote rest).map (· + 2)
    else (stringEnd? quote cs).map (· + 1)

/-- The word, number or symbol at the head of a text. Of a word and a number the longer wins, and
the number if they are equally long. -/
def lexeme (cs : List Char) : Piece × Nat :=
  let word := Lexeme.identifierLength cs
  let number := Lexeme.numberLength cs
  if number ≠ 0 ∧ word ≤ number then (token .number (cs.take number), number)
  else if word ≠ 0 then
    let text := cs.take word
    match Keyword.ofText? (String.ofList text) with
    | some k => (token (.keyword k) text, word)
    | none => (token .identifier text, word)
  else
    match Lexeme.symbol? cs with
    | some s => (token (.symbol s) s.text.toList, s.text.length)
    | none => (fault ("unexpected character " ++ Text.quoted (String.ofList (cs.take 1))), 1)

/-- The piece at the head of `c :: cs`, with the number of its characters. `expectsFile` says that
the last token was one that a file reference follows. -/
def first (expectsFile : Bool) (c : Char) (cs : List Char) : Piece × Nat :=
  if isBlank c then (blank, 1 + Lexeme.run isBlank cs)
  else if c = '/' ∧ cs.head? = some '*' then
    match commentEnd? cs.tail with
    | some n => (blank, 2 + n)
    | none => (fault "unterminated block comment", 1 + cs.length)
  else if c = '/' ∧ cs.head? = some '/' then (blank, 1 + Lexeme.run (· ≠ '\n') cs)
  else if c = '"' ∨ c = '\'' then
    match stringEnd? c cs with
    | some n => (token .string (cs.take n), n + 2)
    | none => (fault "unterminated string literal", 1 + cs.length)
  else if c = '<' ∧ expectsFile then
    let name := cs.takeWhile fun d => d ≠ '>' && d ≠ '\n'
    if cs[name.length]? = some '>' then (token .file name, name.length + 2)
    else (fault "unterminated file reference", 1)
  else lexeme (c :: cs)

end Piece

/-- What scanning a text yields, in the order of the text. -/
inductive Scanned where
  | token (t : Token)
  | fault (d : Diagnostic)

/-- Scans `cs`, which starts at `place` in the text called `origin`. `last` is the kind of the token
before it. Gives what was found and the place behind the text. -/
def scanFrom (origin : String) (last : Option TokenKind) (place : Position) :
    List Char → List Scanned × Position
  | [] => ([], place)
  | c :: cs =>
    let (piece, length) := Piece.first (last.any TokenKind.expectsFile) c cs
    let next := place.advanceAll ((c :: cs).take length)
    let span : Span := ⟨origin, place, next⟩
    let rest := cs.drop (length - 1)
    match piece with
    | .blank => scanFrom origin last next rest
    | .token kind text =>
      let (found, stop) := scanFrom origin (some kind) next rest
      (.token ⟨kind, String.ofList text, span⟩ :: found, stop)
    | .fault message =>
      let (found, stop) := scanFrom origin last next rest
      (.fault ⟨.lexical (String.singleton c), span, message⟩ :: found, stop)
termination_by cs => cs.length
decreasing_by all_goals simp only [List.length_drop, List.length_cons]; omega

/-- The outcome of scanning: the tokens and, apart from them, the faults. -/
structure TokenStream where
  tokens : List Token
  faults : List Diagnostic

namespace Scanned

def token? : Scanned → Option Token
  | .token t => some t
  | .fault _ => none

def fault? : Scanned → Option Diagnostic
  | .token _ => none
  | .fault d => some d

end Scanned

/-- The tokens of a text, closed by an end marker, and the faults met on the way. -/
def tokenize (source origin : String) : TokenStream :=
  let (found, stop) := scanFrom origin none .start source.toList
  { tokens := found.filterMap Scanned.token? ++ [⟨.eof, "", ⟨origin, stop, stop⟩⟩]
    faults := found.filterMap Scanned.fault? }

/-- The tokens of a text by its characters. To evaluate `tokenize` itself, the text has to
be decoded. -/
theorem tokens_ofList (cs : List Char) (origin : String) :
    (tokenize (String.ofList cs) origin).tokens =
      (scanFrom origin none .start cs).1.filterMap Scanned.token? ++
        [⟨.eof, "",
          ⟨origin, (scanFrom origin none .start cs).2, (scanFrom origin none .start cs).2⟩⟩] := by
  rw [tokenize, String.toList_ofList]

end Scad
