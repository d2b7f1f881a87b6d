import FlowShader.Token

namespace FlowShader.Text

def blankRanges : List (Nat × Nat) :=
  [(0x9, 0xD), (0x20, 0x20), (0x85, 0x85), (0xA0, 0xA0), (0x1680, 0x1680), (0x2000, 0x200A),
    (0x2028, 0x2029), (0x202F, 0x202F), (0x205F, 0x205F), (0x3000, 0x3000)]

def isBlank (c : Char) : Bool := blankRanges.any fun (lo, hi) => lo ≤ c.toNat && c.toNat ≤ hi

end FlowShader.Text

namespace FlowShader

namespace Token

def isNameStart (c : Char) : Bool := c.isAlpha || c == '_'

def isNameChar (c : Char) : Bool := c.isAlphanum || c == '_'

def ofWord (w : String) : Token :=
  match Constant.ofName? w with
  | some c => constant c
  | none =>
    match Callable.ofName? w with
    | some f => function w f
    | none => ident w

/-- The number that starts with `c`, a digit or a point, and the count of characters after `c` that
belong to it. A point with no digit on either side is no number. -/
def readNumber (c : Char) (rest : List Char) : Option (Decimal × Nat) :=
  if c == '.' then
    let fraction := rest.takeWhile Char.isDigit
    if fraction.isEmpty then none else some (.ofPoint [] fraction, fraction.length)
  else
    let whole := rest.takeWhile Char.isDigit
    match rest.dropWhile Char.isDigit with
    | '.' :: more =>
      let fraction := more.takeWhile Char.isDigit
      some (.ofPoint (c :: whole) fraction, whole.length + 1 + fraction.length)
    | _ => some (.ofPoint (c :: whole) [], whole.length)

def minus (previous : Option Token) : Token :=
  if previous.all precedesOperand then negation else operator .sub

def read (previous : Option Token) (position : Nat) (c : Char) (rest : List Char) :
    Except SyntaxError (Token × Nat) :=
  if c == '(' then .ok (lparen, 0)
  else if c == ')' then .ok (rparen, 0)
  else if c == ',' then .ok (comma, 0)
  else if c == '-' then .ok (minus previous, 0)
  else if c == '.' || c.isDigit then
    match readNumber c rest with
    | some (d, n) => .ok (number d, n)
    | none => .error (.malformedNumber position)
  else if isNameStart c then
    let more := rest.takeWhile isNameChar
    .ok (ofWord (String.ofList (c :: more)), more.length)
  else
    match Operator.ofChar? c with
    | some o => .ok (operator o, 0)
    | none => .error (.unexpectedCharacter c position)

end Token

/-- The tokens of a text up to the first error, if there is one; otherwise the last token is
`Token.eof`. -/
structure Scan where
  tokens : List Located
  fault : Option SyntaxError

namespace Scan

def ofChars (previous : Option Token) (position : Nat) : List Char → Scan
  | [] => ⟨[⟨.eof, position⟩], none⟩
  | c :: rest =>
    if Text.isBlank c then ofChars previous (position + 1) rest
    else
      match Token.read previous position c rest with
      | .error fault => ⟨[], some fault⟩
      | .ok (token, width) =>
        let later := ofChars (some token) (position + 1 + width) (rest.drop width)
        ⟨⟨token, position⟩ :: later.tokens, later.fault⟩
termination_by cs => cs.length
decreasing_by all_goals simp only [List.length_cons, List.length_drop]; omega

def ofString (s : String) : Scan := ofChars none 0 s.toList

def toExcept (s : Scan) : Except SyntaxError (List Located) :=
  match s.fault with
  | some fault => .error fault
  | none => .ok s.tokens

end Scan

def findIdentifier (source name : String) : Option Nat :=
  ((Scan.ofString source).tokens.find? (·.token == .ident name)).map (·.position)

end FlowShader
