import ProgramQuery.Text.Blank
import ProgramQuery.Token.Basic

/-!
# Splitting a text into tokens

`tokenize` walks through a text one character at a time. Where a lexeme starts, its token is
written down and the walk remembers how many more characters belong to it, so the place of every
token is the place that the walk has counted.

## Main definitions

- `lexeme?`: the lexeme that starts a text, if one does.
- `Position.after`: the place after one more character.
- `tokenize`: the tokens of a text, or the reason why it has none.
-/

namespace ProgramQuery

/-- The lexemes with a fixed text. A lexeme stands before its own beginnings, so the first match
is the longest. -/
def fixedLexemes : List (String × TokenKind) :=
  [("\x7b", .lBrace), ("\x7d", .rBrace), ("(", .lParen), (")", .rParen), (";", .semicolon),
    (",", .comma), ("_", .underscore), ("\"", .doubleQuote), (".", .dot), ("#", .hash),
    ("!=", .notEq), ("!", .not), ("==", .eqEq), ("=", .singleEq), ("&&", .andAnd), ("||", .orOr),
    (">=", .gtEq), (">", .gt), ("<=", .ltEq), ("<", .lt), ("+", .plus), ("-", .minus),
    ("*", .times), ("/", .div), ("%", .mod)]

/-- The lexeme at the start of `cs`: a fixed one, a name (a letter, then letters and digits) or an
integer (digits), each as long as possible. Letters and digits are those of ASCII. -/
def lexeme? (cs : List Char) : Option (TokenKind × List Char) :=
  match fixedLexemes.find? fun entry => entry.1.toList.isPrefixOf cs with
  | some (text, kind) => some (kind, text.toList)
  | none =>
    match cs with
    | [] => none
    | c :: _ =>
      if c.isAlpha then
        some (.name, cs.takeWhile Char.isAlphanum)
      else if c.isDigit then
        some (.integer, cs.takeWhile Char.isDigit)
      else
        none

/-- A place in a text. -/
structure Position where
  /-- One more than the number of line ends before the place. -/
  line : Nat
  /-- One more than the number of characters before the place on its line. -/
  column : Nat
deriving DecidableEq

namespace Position

/-- The first place of a text. -/
def start : Position := ⟨1, 1⟩

/-- The place after one more character: only a line feed ends a line. -/
def after (p : Position) (c : Char) : Position :=
  if c = '\n' then ⟨p.line + 1, 1⟩ else ⟨p.line, p.column + 1⟩

end Position

/-- Why a text has no tokens. -/
inductive LexicalError where
  /-- No lexeme starts at this place. -/
  | unmatched (place : Position)
  /-- An integer on this line has more than one digit and starts with zero. -/
  | leadingZero (digits : String) (line : Nat)
deriving DecidableEq

/-- The wording of a lexical error. -/
def LexicalError.message : LexicalError → String
  | unmatched place =>
    "Lexer error at line " ++ toString place.line ++ " column " ++ toString place.column ++
      ": No rules available to parse the remaining line"
  | leadingZero digits line => "Invalid number '" ++ digits ++ "' at line " ++ toString line

/-- Whether digits are longer than the number they denote. -/
def hasLeadingZero : List Char → Bool
  | '0' :: _ :: _ => true
  | _ => false

/-- The tokens of `cs`, which starts at `place` and whose first `skip` characters belong to a
token that is already written down. -/
def scan : (skip : Nat) → (place : Position) → List Char → Except LexicalError (List Token)
  | _, _, [] => .ok []
  | skip + 1, place, c :: cs => scan skip (place.after c) cs
  | 0, place, c :: cs =>
    if isBlank c then
      scan 0 (place.after c) cs
    else
      match lexeme? (c :: cs) with
      | none => .error (.unmatched place)
      | some (kind, lexeme) =>
        if kind = .integer ∧ hasLeadingZero lexeme then
          .error (.leadingZero (String.ofList lexeme) place.line)
        else do
          let rest ← scan (lexeme.length - 1) (place.after c) cs
          return ⟨kind, String.ofList lexeme, place.line, place.column⟩ :: rest

/-- The tokens of a text in order. Blanks only separate them. -/
def tokenize (text : String) : Except LexicalError (List Token) :=
  scan 0 .start text.toList

end ProgramQuery
