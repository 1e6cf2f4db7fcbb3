import LichenVm.LongestMatch

namespace LichenVm.Lexer

open LongestMatch

abbrev Byte := UInt8

/-- A 1-based line and a 1-based column in bytes. -/
abbrev Span := Nat × Nat

/-- The tokens spelled in one way only. -/
inductive Fixed where
  | kwInt | kwFloat | kwString | kwType | kwTuple | kwArray | kwStruct | kwTable | kwSet | kwLet
  | kwIf | kwThen | kwElse | kwReturn | kwPub | kwInt2Float | kwFloat2Int | kwMax | kwMin | kwExp
  | kwSqrt | kwFloor | kwSin | kwCos | kwLn
  | fatArrow | tableArrow | tableFindArrow | colon | colonEquals | templateUnify | hash | question
  | bang | dollar | equals | eq | neq | leq | geq | plus | minus | star | slash | percent | amp
  | pipe | caret | dot | lParen | rParen | lBracket | rBracket | lBrace | rBrace | lAngle | rAngle
  | tilde
  deriving DecidableEq

namespace Fixed

def spelling : Fixed → String
  | kwInt => "Int"
  | kwFloat => "Float"
  | kwString => "string"
  | kwType => "Type"
  | kwTuple => "Tuple"
  | kwArray => "Array"
  | kwStruct => "Struct"
  | kwTable => "table"
  | kwSet => "set"
  | kwLet => "let"
  | kwIf => "if"
  | kwThen => "then"
  | kwElse => "else"
  | kwReturn => "return"
  | kwPub => "pub"
  | kwInt2Float => "int2float"
  | kwFloat2Int => "float2int"
  | kwMax => "max"
  | kwMin => "min"
  | kwExp => "exp"
  | kwSqrt => "sqrt"
  | kwFloor => "floor"
  | kwSin => "sin"
  | kwCos => "cos"
  | kwLn => "ln"
  | fatArrow => "=>"
  | tableArrow => "==>"
  | tableFindArrow => "<=="
  | colon => ":"
  | colonEquals => ":="
  | templateUnify => "<:"
  | hash => "#"
  | question => "?"
  | bang => "!"
  | dollar => "$"
  | equals => "="
  | eq => "=="
  | neq => "!="
  | leq => "<="
  | geq => ">="
  | plus => "+"
  | minus => "-"
  | star => "*"
  | slash => "/"
  | percent => "%"
  | amp => "&"
  | pipe => "|"
  | caret => "^"
  | dot => "."
  | lParen => "("
  | rParen => ")"
  | lBracket => "["
  | rBracket => "]"
  | lBrace => "\x7b"
  | rBrace => "\x7d"
  | lAngle => "<"
  | rAngle => ">"
  | tilde => "~"

/-- The words among them, which a name could also spell. -/
def keywords : List Fixed :=
  [kwInt, kwFloat, kwString, kwType, kwTuple, kwArray, kwStruct, kwTable, kwSet, kwLet, kwIf, kwThen,
    kwElse, kwReturn, kwPub, kwInt2Float, kwFloat2Int, kwMax, kwMin, kwExp, kwSqrt, kwFloor, kwSin,
    kwCos, kwLn]

def symbols : List Fixed :=
  [fatArrow, tableArrow, tableFindArrow, colon, colonEquals, templateUnify, hash, question, bang,
    dollar, equals, eq, neq, leq, geq, plus, minus, star, slash, percent, amp, pipe, caret, dot,
    lParen, rParen, lBracket, rBracket, lBrace, rBrace, lAngle, rAngle, tilde]

end Fixed

def bytes (text : String) : List Byte := text.toList.map Char.toUInt8

def isDigit (b : Byte) : Bool := 48 ≤ b && b ≤ 57

def isNameStart (b : Byte) : Bool := (65 ≤ b && b ≤ 90) || (97 ≤ b && b ≤ 122) || b == 95

def isNameRest (b : Byte) : Bool := isNameStart b || isDigit b

/-- The token kinds the generated tokenizer recognises. -/
inductive RawToken where
  | separator
  | intLit
  | floatLit
  | strLit
  | fixed (word : Fixed)
  | atNameLit
  | nameLit
  deriving DecidableEq

namespace RawToken

def isName : List Byte → Bool
  | [] => false
  | first :: rest => isNameStart first && rest.all isNameRest

def isInt (word : List Byte) : Bool := !word.isEmpty && word.all isDigit

/-- Whether a word is in the pattern of a kind. -/
def accepts (word : List Byte) : RawToken → Bool
  | separator => word == [10] || word == [44] || word == [59]
  | intLit => isInt word
  | floatLit =>
    match word.dropWhile isDigit with
    | [] => false
    | point :: fraction => isInt (word.takeWhile isDigit) && point == 46 && isInt fraction
  | strLit =>
    match word with
    | [] => false
    | opening :: rest => opening == 34 &&
        (rest.dropWhile (· != 34) == [] || rest.dropWhile (· != 34) == [34])
  | fixed spelled => word == bytes spelled.spelling
  | atNameLit =>
    match word with
    | [] => false
    | sigil :: rest => sigil == 64 && isName rest
  | nameLit => isName word

/-- The kinds, a fixed spelling before the pattern it is also in. -/
def all : List RawToken :=
  (Fixed.keywords ++ Fixed.symbols).map fixed ++
    [separator, intLit, floatLit, strLit, atNameLit, nameLit]

def isPostfixDelim : RawToken → Bool
  | fixed .lParen | fixed .lBracket | fixed .lBrace => true
  | _ => false

end RawToken

def isBlank (b : Byte) : Bool := b == 32 || b == 9 || b == 13

/-- How many bytes follow the first one of a character. -/
def continuation (lead : Byte) : Nat :=
  if lead < 0xC0 then 0 else if lead < 0xE0 then 1 else if lead < 0xF0 then 2 else 3

/-- The tokenizer takes the longest match at every position and skips blanks. -/
def tokenizer : Grammar Byte RawToken where
  blank := isBlank
  recognise := fun word => RawToken.all.find? (RawToken.accepts word)
  extra := continuation

/-- The kinds of a token, `F` standing for the float values. -/
inductive TokenKind (F : Type) where
  | int (value : Nat)
  | float (value : F)
  | str (content : List Byte)
  | name (text : List Byte)
  | placeholder
  | fixed (word : Fixed)
  | kwLoop
  | kwAssert
  | kwIn
  | kwShallow
  | any
  | kwGc
  | kwCache
  | separator
  | glue
  | eof
  deriving DecidableEq

structure Token (F : Type) where
  kind : TokenKind F
  span : Span
  start : Nat
  stop : Nat
  deriving DecidableEq

/-- What a lexical diagnostic says, with the text it names. -/
inductive LexMessage where
  | unexpected (character : List Byte)
  | literalOutOfRange
  | unterminatedString
  | notKeyword (word : List Byte)
  deriving DecidableEq

structure LexDiag where
  span : Option Span
  message : LexMessage
  deriving DecidableEq

structure Lexed (F : Type) where
  tokens : List (Token F)
  errors : List LexDiag
  deriving DecidableEq

def lineStarts (source : List Byte) : List Nat :=
  0 :: (source.zipIdx.filter fun place => place.1 == 10).map fun place => place.2 + 1

/-- The line and column of a byte offset. The table is in order, so its binary search finds how
many lines start at the offset or before. -/
def lineCol (starts : List Nat) (pos : Nat) : Span :=
  let line := max 1 (starts.countP (· ≤ pos))
  (line, pos - starts.getD (line - 1) 0 + 1)

/-- The value of an integer literal that a 64-bit word holds. -/
def readInt (slice : List Byte) : Option Nat :=
  slice.foldl (fun value digit => value.bind fun value =>
    let next := value * 10 + (digit.toNat - 48)
    if next < 2 ^ 64 then some next else none) (some 0)

variable {F : Type} (parseFloat : List Byte → F)

/-- A raw token's kind, or the message of a literal that yields no token. -/
def rawToKind (raw : RawToken) (slice : List Byte) : Except LexMessage (TokenKind F) :=
  match raw with
  | .intLit =>
    match readInt slice with
    | some value => .ok (.int value)
    | none => .error .literalOutOfRange
  | .floatLit => .ok (.float (parseFloat slice))
  | .strLit =>
    if slice.length < 2 ∨ slice.getLast? ≠ some 34 then .error .unterminatedString
    else .ok (.str (slice.drop 1).dropLast)
  | .atNameLit =>
    let word := slice.drop 1
    if word = bytes "loop" then .ok .kwLoop
    else if word = bytes "assert" then .ok .kwAssert
    else if word = bytes "in" then .ok .kwIn
    else if word = bytes "shallow" then .ok .kwShallow
    else if word = bytes "any" then .ok .any
    else if word = bytes "gc" then .ok .kwGc
    else if word = bytes "cache" then .ok .kwCache
    else .error (.notKeyword word)
  | .nameLit =>
    match Fixed.keywords.find? fun word => slice == bytes word.spelling with
    | some word => .ok (.fixed word)
    | none => if slice = bytes "_" then .ok .placeholder else .ok (.name slice)
  | .fixed word => .ok (.fixed word)
  | .separator => .ok .separator

/-- What lexing one piece pushes. -/
inductive Event (F : Type) where
  | token (token : Token F)
  | error (diag : LexDiag)

def Event.token? : Event F → Option (Token F)
  | .token made => some made
  | .error _ => none

def Event.error? : Event F → Option LexDiag
  | .token _ => none
  | .error made => some made

variable (lines : List Nat)

/-- What one piece pushes, given the end of the last token before it. -/
def pushed (previous : Option Nat) (piece : Piece Byte RawToken) : List (Event F) :=
  let span := lineCol lines piece.start
  match piece.found with
  | none => [.error ⟨some span, .unexpected piece.slice⟩]
  | some .separator => [.token ⟨.separator, span, piece.start, piece.stop⟩]
  | some raw =>
    (if raw.isPostfixDelim = true ∧ previous = some piece.start then
      [.token ⟨.glue, span, piece.start, piece.start⟩]
    else []) ++
    [match rawToKind parseFloat raw piece.slice with
    | .ok kind => .token ⟨kind, span, piece.start, piece.stop⟩
    | .error message => .error ⟨some span, message⟩]

/-- The end a following delimiter is glued to. -/
def endAfter (piece : Piece Byte RawToken) : Option Nat :=
  match piece.found with
  | none | some .separator => none
  | some _ => some piece.stop

def lexLoop : Option Nat → List (Piece Byte RawToken) → List (Event F)
  | _, [] => []
  | previous, piece :: pieces =>
    pushed parseFloat lines previous piece ++ lexLoop (endAfter piece) pieces

def eofToken (pos : Nat) : Token F := ⟨.eof, lineCol lines pos, pos, pos⟩

/-- Lex a slice of a larger source at `base`. -/
def lexWith (code : List Byte) (base : Nat) : Lexed F :=
  let events := lexLoop parseFloat lines none (pieces tokenizer base code)
  { tokens := events.filterMap Event.token? ++ [eofToken lines (base + code.length)]
    errors := events.filterMap Event.error? }

/-- The end of the last token before index `k`, unless a separator comes between. -/
def seedPrevEnd (prev : List (Token F)) : Nat → Option Nat
  | 0 => none
  | k + 1 =>
    match prev[k]? with
    | none => seedPrevEnd prev k
    | some token =>
      match token.kind with
      | .glue => seedPrevEnd prev k
      | .separator => none
      | _ => some token.stop

variable [DecidableEq F]

/-- Probe the old tokens from `j` for the one a re-lexed token is. -/
def resync (prev : List (Token F)) (j : Nat) (token : Token F) (delta : Int) (b : Nat) :
    Nat × Option Nat :=
  let target : Int := token.start - delta
  if target < b - delta then (j, none)
  else
    let j := j + ((prev.drop j).takeWhile fun old => (old.stop : Int) < target).length
    match prev[j]? with
    | none => (j, none)
    | some old =>
      if (old.start : Int) = target ∧ (old.stop : Int) = token.stop - delta ∧
          old.kind = token.kind then (j, some j)
      else (j, none)

/-- Push what is re-lexed until a token is found among the old ones. -/
def resumeLoop (prev : List (Token F)) (delta : Int) (b : Nat) :
    Nat → List (Event F) → List (Event F) × Option Nat
  | _, [] => ([], none)
  | j, .error diag :: events =>
    let rest := resumeLoop prev delta b j events
    (.error diag :: rest.1, rest.2)
  | j, .token token :: events =>
    match resync prev j token delta b with
    | (_, some found) => ([], some found)
    | (j, none) =>
      let rest := resumeLoop prev delta b j events
      (.token token :: rest.1, rest.2)

/-- An old token where the edit moved it. -/
def moved (delta : Int) (token : Token F) : Token F :=
  let start := (token.start + delta).toNat
  ⟨token.kind, lineCol lines start, start, (token.stop + delta).toNat⟩

def isCharBoundary (source : List Byte) (pos : Nat) : Bool :=
  match source[pos]? with
  | none => pos == source.length
  | some byte => byte < 0x80 || 0xC0 ≤ byte

/-- Re-lex over an edit: reuse the tokens before it, lex on from the first one it may touch, and
reuse the old tokens again from the first one found unchanged after it. A position that is not
one of the new source is a panic. -/
def lexResume (prev : List (Token F)) (old new : List Byte) (base a b : Nat) : Option (Lexed F) :=
  let delta : Int := new.length - old.length
  let i := prev.findIdx fun token => a ≤ token.stop
  let s := (prev[i]?.map Token.start).getD a
  if s < base ∨ isCharBoundary new (s - base) = false then none
  else
    let code := new.drop (s - base)
    let events := lexLoop parseFloat lines (seedPrevEnd prev i) (pieces tokenizer s code)
    let resumed := resumeLoop prev delta b i events
    let suffix := match resumed.2 with
      | some found => (prev.drop found).map (moved lines delta)
      | none => [eofToken lines (s + code.length)]
    some
      { tokens := prev.take i ++ resumed.1.filterMap Event.token? ++ suffix
        errors := resumed.1.filterMap Event.error? }

/-- How long two texts agree. -/
def agreement : List Byte → List Byte → Nat
  | x :: xs, y :: ys => if x = y then agreement xs ys + 1 else 0
  | _, _ => 0

/-- The span of the new source that differs from the old one. -/
def editSpan (old new : List Byte) : Nat × Nat :=
  let most := min old.length new.length
  let a := agreement old new
  (a, new.length - min (most - a) (agreement old.reverse new.reverse))

end LichenVm.Lexer
