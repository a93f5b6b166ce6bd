import Scad.Data.YamlNode

/-! Reading YAML text: block and flow collections of plain and quoted words, comments, and marks
around the one document. Text with anything else is malformed. -/
namespace Scad.Yaml

/-- The text ahead and where its first character stands. -/
structure Place where
  ahead : List Char
  line : Nat
  column : Nat

namespace Place

/-- The place behind the next `n` characters, none of which ends a line. -/
def along (p : Place) (n : Nat) : Place := ⟨p.ahead.drop n, p.line, p.column + n⟩

/-- Goes on over blanks and line ends; gives the line ends on the way. -/
def skipBreaks (blank : Char → Bool) (line column : Nat) : List Char → List Char × Place
  | [] => ([], ⟨[], line, column⟩)
  | c :: cs =>
    if isBreak c then
      let (breaks, p) := skipBreaks blank (line + 1) 0 cs
      (c :: breaks, p)
    else if blank c then skipBreaks blank line (column + 1) cs
    else ([], ⟨c :: cs, line, column⟩)

def skipBlanks (line column : Nat) (comment : Bool) : List Char → Place
  | [] => ⟨[], line, column⟩
  | c :: cs =>
    if isBreak c then skipBlanks (line + 1) 0 false cs
    else if comment || c = '#' then skipBlanks line (column + 1) true cs
    else if c = ' ' then skipBlanks line (column + 1) false cs
    else ⟨c :: cs, line, column⟩

/-- The next place with neither a blank, a comment nor the end of a line. -/
def token (p : Place) : Place := skipBlanks p.line p.column false p.ahead

/-- A document mark at the start of a line. -/
def atMark (p : Place) : Bool :=
  p.column = 0 && opensWithMark p.ahead && gapAhead (p.ahead.drop 3)

/-- The document has no more text. -/
def ended (p : Place) : Bool := p.ahead.isEmpty || p.atMark

def atItem (p : Place) : Bool :=
  match p.ahead with
  | '-' :: rest => gapAhead rest
  | _ => false

/-- Whether a document mark stands at the start of a line that `skipBreaks` passes. -/
def meetsMark : List Char → Bool
  | [] => false
  | c :: cs =>
    if isBreak c then (opensWithMark cs && gapAhead (cs.drop 3)) || meetsMark cs
    else (c = ' ' || c = '\t') && meetsMark cs

end Place

/-- What a stretch of blanks with line ends stands for: one line end is a space, and of several the
first is dropped. -/
def foldBreaks : List Char → List Char
  | [] => []
  | '\n' :: [] => [' ']
  | '\n' :: more => more
  | breaks => breaks

/-! ### Words -/

/-- Brackets and commas end a word inside of flow collections. -/
def isFlowEnd (c : Char) : Bool := ",[]\x7b\x7d".toList.contains c

def colonEnds (flow : Bool) : List Char → Bool
  | [] => true
  | c :: _ => isGap c || (flow && isFlowEnd c)

/-- The number of characters up to a gap or the end of a word. -/
def stretch (flow : Bool) : List Char → Nat
  | [] => 0
  | c :: cs =>
    if isGap c || (c = ':' && colonEnds flow cs) || (flow && (isFlowEnd c || c = '?')) then 0
    else stretch flow cs + 1

/-- The blanks inside of a word and the place behind them, if the word goes on there: in a block it
has to be further in than `indent`. -/
def wordGap? (flow : Bool) (indent : Int) (p : Place) : Option (List Char × Place) :=
  let q := p.along (p.ahead.takeWhile (· = ' ')).length
  let (gap, r) :=
    if q.ahead.head?.any isBreak then
      let (breaks, r) := Place.skipBreaks (· = ' ') q.line q.column q.ahead
      (foldBreaks breaks, r)
    else (p.ahead.takeWhile (· = ' '), q)
  if gap = [] || r.ahead.head? = some '#' || stretch flow r.ahead = 0 ||
      (q.line < r.line && Place.meetsMark q.ahead) || (!flow && r.column ≤ indent) then none
  else some (gap, r)

/-- A plain word, over several lines if it goes on. -/
def plainWord (flow : Bool) (indent : Int) : (fuel : Nat) → Place → List Char × Place
  | 0, p => ([], p)
  | fuel + 1, p =>
    let n := stretch flow p.ahead
    let q := p.along n
    match wordGap? flow indent q with
    | none => (p.ahead.take n, q)
    | some (gap, r) =>
      let (more, r) := plainWord flow indent fuel r
      (p.ahead.take n ++ gap ++ more, r)

/-- Whether a plain word can start here. -/
def opensPlain (flow : Bool) (cs : List Char) : Bool :=
  opensWord cs && !gapAhead cs && !(flow && (cs.head? = some '?' || cs.head? = some ':'))

def escaped? (c : Char) : Option Char :=
  [('0', '\x00'), ('a', '\x07'), ('b', '\x08'), ('t', '\t'), ('\t', '\t'), ('n', '\n'),
    ('v', '\x0b'), ('f', '\x0c'), ('r', '\r'), ('e', '\x1b'), (' ', ' '), ('"', '"'), ('\\', '\\'),
    ('/', '/'), ('N', '\x85'), ('_', '\xa0'), ('L', '\u2028'), ('P', '\u2029')].lookup c

/-- The number of digits behind the letter of an escape. -/
def codeLength? (c : Char) : Option Nat := [('x', 2), ('u', 4), ('U', 8)].lookup c

/-- A character by its code. Half of a pair of code units stands for no character of its own. -/
def ofCode (code : Nat) : Except Fault Char :=
  if code.isValidChar then .ok (Char.ofNat code)
  else if code < 0x110000 then .ok '\uFFFD'
  else .error (.noCharacter code)

/-- The character of an escape and the number of its characters, from behind the backslash. -/
def readEscape : List Char → Except Fault (Char × Nat)
  | [] => .error .malformed
  | c :: cs =>
    match escaped? c, codeLength? c with
    | some e, _ => .ok (e, 1)
    | none, some n => do
      let digits := cs.take n
      if digits.length = n ∧ digits.all Text.isHexDigit then
        return (← ofCode (Numeral.digitsValue 16 Text.hexDigit? digits), n + 1)
      else .error .malformed
    | none, none => .error .malformed

/-- The line ends among the blanks ahead in a quoted text, where no document mark may stand. -/
def quotedBreaks (p : Place) : Except Fault (List Char × Place) :=
  if Place.meetsMark p.ahead then .error .malformed
  else .ok (Place.skipBreaks Reading.isBlank p.line p.column p.ahead)

/-- The blanks inside of a quoted text, folded if they hold a line end. -/
def quotedGap (p : Place) : Except Fault (List Char × Place) :=
  let blanks := p.ahead.takeWhile Reading.isBlank
  let q := p.along blanks.length
  if q.ahead.head?.any isBreak then (quotedBreaks q).map fun (breaks, r) => (foldBreaks breaks, r)
  else .ok (blanks, q)

/-- The rest of a quoted text with its closing quote. -/
def quotedText (quote : Char) : (fuel : Nat) → Place → Except Fault (List Char × Place)
  | 0, _ => .error .malformed
  | fuel + 1, p =>
    let go (cs : List Char) (q : Place) : Except Fault (List Char × Place) :=
      (quotedText quote fuel q).map fun (more, r) => (cs ++ more, r)
    match p.ahead with
    | [] => .error .malformed
    | c :: rest =>
      if c = quote then
        if quote = '\'' && rest.head? = some quote then go [c] (p.along 2)
        else .ok ([], p.along 1)
      else if c = '\\' && quote = '"' then
        if rest.head?.any isBreak then do
          -- An escaped line end is dropped with the blanks behind it.
          let (breaks, q) ← quotedBreaks (p.along 1)
          go (breaks.drop 1) q
        else do
          let (e, n) ← readEscape rest
          go [e] (p.along (n + 1))
      else if Reading.isBlank c || isBreak c then do
        let (gap, q) ← quotedGap p
        go gap q
      else go [c] (p.along 1)

def opensQuoted (p : Place) : Bool := p.ahead.head?.any fun c => c = '"' || c = '\''

/-- The word that starts here. `limit` is at least the number of characters ahead. -/
def readWord (limit : Nat) (flow : Bool) (indent : Int) (p : Place) : Except Fault (Node × Place) :=
  if opensQuoted p then do
    let (cs, q) ← quotedText (p.ahead.headD '"') limit (p.along 1)
    return (.word cs true, q)
  else if opensPlain flow p.ahead then
    let (cs, q) := plainWord flow indent limit p
    .ok (.word cs false, q)
  else .error .malformed

/-- How far behind its start a key may end. -/
def keyLimit : Nat := 1024

/-- Whether what starts at one place can be a key with its colon at another: on the same line, and
not too far. -/
def fitsKey (start colon : Place) : Bool :=
  start.line = colon.line && colon.column ≤ start.column + keyLimit

/-! ### Flow collections -/

def opensFlow (p : Place) : Bool := p.ahead.head?.any fun c => c = '[' || c = '\x7b'

mutual
def flowNode (limit : Nat) : (fuel : Nat) → Place → Except Fault (Node × Place)
  | 0, _ => .error .malformed
  | fuel + 1, p =>
    match p.ahead with
    | '[' :: _ => do
      let (items, q) ← flowItems limit fuel (p.along 1)
      return (.list items, q)
    | '\x7b' :: _ => do
      let (fields, q) ← flowFields limit fuel (p.along 1)
      return (.ofFields fields, q)
    | _ => readWord limit true 0 p

/-- What stands behind the colon of a key. -/
def flowValue (limit : Nat) : (fuel : Nat) → Place → Except Fault (Node × Place)
  | 0, _ => .error .malformed
  | fuel + 1, p =>
    let q := p.token
    if q.ended then .error .malformed
    else if q.ahead.head?.any fun c => c = ',' || c = ']' || c = '\x7d' then .ok (.empty, p)
    else flowNode limit fuel q

/-- A node, with its value if it is a key. -/
def flowEntry (limit : Nat) : (fuel : Nat) → Place → Except Fault ((Node × Option Node) × Place)
  | 0, _ => .error .malformed
  | fuel + 1, p => do
    let (n, q) ← flowNode limit fuel p
    let r := q.token
    if r.ahead.head? = some ':' then
      if fitsKey p r then
        let (d, s) ← flowValue limit fuel (r.along 1)
        return ((n, some d), s)
      else .error .malformed
    else return ((n, none), q)

/-- The rest of a list with its closing bracket. A key with a value counts as a record. -/
def flowItems (limit : Nat) : (fuel : Nat) → Place → Except Fault (List Node × Place)
  | 0, _ => .error .malformed
  | fuel + 1, p =>
    let q := p.token
    if q.ended then .error .malformed
    else if q.ahead.head? = some ']' then .ok ([], q.along 1)
    else do
      let ((key, value), r) ← flowEntry limit fuel q
      let n := (value.map fun d => Node.ofFields [(key, d)]).getD key
      let r := r.token
      match r.ahead with
      | ']' :: _ => return ([n], r.along 1)
      | ',' :: _ => do
        let (rest, r) ← flowItems limit fuel (r.along 1)
        return (n :: rest, r)
      | _ => .error .malformed

/-- The rest of a record with its closing brace. A node without a colon is a key with no value. -/
def flowFields (limit : Nat) : (fuel : Nat) → Place → Except Fault (List (Node × Node) × Place)
  | 0, _ => .error .malformed
  | fuel + 1, p =>
    let q := p.token
    if q.ended then .error .malformed
    else if q.ahead.head? = some '\x7d' then .ok ([], q.along 1)
    else do
      let ((key, value), r) ← flowEntry limit fuel q
      let field := (key, value.getD .empty)
      let r := r.token
      match r.ahead with
      | '\x7d' :: _ => return ([field], r.along 1)
      | ',' :: _ => do
        let (rest, r) ← flowFields limit fuel (r.along 1)
        return (field :: rest, r)
      | _ => .error .malformed
end

/-! ### Block collections -/

/-- A word or a flow collection. -/
def inlineNode (limit : Nat) (indent : Int) (p : Place) : Except Fault (Node × Place) :=
  if opensFlow p then flowNode limit (3 * limit) p else readWord limit false indent p

/-- A key and the place behind its colon, if a key starts here. -/
def blockKey? (limit : Nat) (indent : Int) (p : Place) : Except Fault (Option (Node × Place)) := do
  let (n, q) ← inlineNode limit indent p
  let r := q.along (q.ahead.takeWhile (· = ' ')).length
  match r.ahead with
  | ':' :: rest => return if fitsKey p r ∧ gapAhead rest then some (n, r.along 1) else none
  | _ => return none

mutual
/-- The node that starts here, inside of a block at column `indent`. `inline` tells that a key
stands on the same line, behind which no block can start. -/
def blockNode (limit : Nat) (indent : Int) (inline : Bool) :
    (fuel : Nat) → Place → Except Fault (Node × Place)
  | 0, _ => .error .malformed
  | fuel + 1, p =>
    if p.atItem then
      if inline then .error .malformed
      else do
        let (items, q) ← blockItems limit p.column fuel p
        return (.list items, q)
    else if inline then inlineNode limit indent p
    else do
      match ← blockKey? limit indent p with
      | some _ =>
        let (fields, q) ← blockFields limit p.column fuel p
        return (.ofFields fields, q)
      | none => inlineNode limit indent p

/-- The node behind a key or a dash at column `indent`, or nothing. Under a key, a list may start at
the column of the key. -/
def blockValue (limit indent : Nat) (underKey : Bool) :
    (fuel : Nat) → Place → Except Fault (Node × Place)
  | 0, _ => .error .malformed
  | fuel + 1, p =>
    let q := p.token
    if q.ended then .ok (.empty, p)
    else if p.line = q.line then blockNode limit indent underKey fuel q
    else if indent < q.column then blockNode limit indent false fuel q
    else if underKey && q.column = indent && q.atItem then do
      let (items, r) ← blockItems limit indent fuel q
      return (.list items, r)
    else .ok (.empty, p)

/-- The items of a list, from a dash on. -/
def blockItems (limit column : Nat) : (fuel : Nat) → Place → Except Fault (List Node × Place)
  | 0, _ => .error .malformed
  | fuel + 1, p => do
    let (n, q) ← blockValue limit column false fuel (p.along 1)
    let r := q.token
    if !r.ended && r.line = q.line then .error .malformed
    else if !r.ended && r.column = column && r.atItem then
      let (rest, q) ← blockItems limit column fuel r
      return (n :: rest, q)
    else if r.ended || r.column ≤ column then return ([n], q)
    else .error .malformed

/-- The fields of a record, from a key on. -/
def blockFields (limit column : Nat) :
    (fuel : Nat) → Place → Except Fault (List (Node × Node) × Place)
  | 0, _ => .error .malformed
  | fuel + 1, p => do
    match ← blockKey? limit column p with
    | none => .error .malformed
    | some (key, behind) =>
      let (n, q) ← blockValue limit column true fuel behind
      let r := q.token
      if !r.ended && r.line = q.line then .error .malformed
      else if !r.ended && r.column = column then
        let (rest, q) ← blockFields limit column fuel r
        return ((key, n) :: rest, q)
      else if r.ended || r.column < column then return ([(key, n)], q)
      else .error .malformed
end

/-! ### Documents -/

/-- Line ends of every make but the two separators are alike. -/
def joinBreaks (cs : List Char) : List Char :=
  (Text.joinLineEnds cs).map fun c => if c = '\x85' then '\n' else c

def isReadable (c : Char) : Bool :=
  let n := c.toNat
  c = '\t' || c = '\n' || c = '\r' || c = '\x85' || (0x20 ≤ n && n ≤ 0x7E) ||
    (0xA0 ≤ n && n ≤ 0xFFFD) || 0x10000 ≤ n

/-- After the document only end marks may follow. -/
def finished (fuel : Nat) (p : Place) : Bool :=
  let q := p.token
  match fuel with
  | 0 => false
  | fuel + 1 =>
    q.ahead.isEmpty || (q.atMark && q.ahead.head? = some '.' && finished fuel (q.along 3))

/-- The one document of a text. -/
def readNode (source : String) : Except Fault Node :=
  let cs := source.toList
  let text := joinBreaks (if cs.head? = some '\uFEFF' then cs.drop 1 else cs)
  let p := Place.token ⟨text, 0, 0⟩
  let marked := p.atMark && p.ahead.head? = some '-'
  let start := if marked then p.along 3 else p
  let q := start.token
  let limit := text.length + 1
  let fuel := 3 * limit
  if !cs.all isReadable || (!marked && q.atMark) then .error .malformed
  else do
    let (n, r) ← if q.ended then pure (.empty, start)
      else blockNode limit (-1) (marked && q.line = start.line) fuel q
    if finished fuel r then return n else .error .malformed

/-- The data of a text with one document. -/
def read (source : String) : Except Fault Data := do
  (← readNode source).data

end Scad.Yaml
