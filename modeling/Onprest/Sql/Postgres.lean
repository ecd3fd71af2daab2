import Onprest.Sql.Syntax

/-! PostgreSQL's own reading of an ASCII text: the documented lexical rules, token by token. What a token is depends
on the token directly before it. -/

namespace Onprest.Sql.Postgres

inductive Kind
  | word | number | quoted | comment | space | other
deriving DecidableEq

structure Token where
  kind : Kind
  text : Text
deriving DecidableEq

/-- Letters, digits, underscores and dollar signs continue an identifier. -/
def continues (b : UInt8) : Bool := isName b || b == '$'.toUInt8

def isSpace (b : UInt8) : Bool :=
  b == ' '.toUInt8 || b == '\t'.toUInt8 || b == '\n'.toUInt8 || b == '\r'.toUInt8 || b == 11 || b == 12

/-! ### The texts of tokens behind their first bytes -/

/-- Up to an undoubled quote; a backslash takes the next byte with it where it escapes. -/
def quotedText (quote : UInt8) (escapes : Bool) : Text → Text
  | [] => []
  | [c] => [c]
  | c :: d :: cs =>
    if escapes ∧ c = '\\'.toUInt8 then c :: d :: quotedText quote escapes cs
    else if c ≠ quote then c :: quotedText quote escapes (d :: cs)
    else if d = quote then c :: d :: quotedText quote escapes cs
    else [c]

/-- Up to the end of the line, read as a line feed; PostgreSQL itself also ends a comment at a carriage return. -/
def lineText (cs : Text) : Text := cs.take ((cs.takeWhile (· ≠ '\n'.toUInt8)).length + 1)

/-- Up to the end of a comment in which `depth` more are open. -/
def commentText : ℕ → Text → Text
  | _, [] => []
  | _, [c] => [c]
  | depth, c :: d :: cs =>
    if c = '/'.toUInt8 ∧ d = '*'.toUInt8 then c :: d :: commentText (depth + 1) cs
    else if c = '*'.toUInt8 ∧ d = '/'.toUInt8 then
      match depth with
      | 0 => [c, d]
      | depth + 1 => c :: d :: commentText depth cs
    else c :: commentText depth (d :: cs)

/-- Up to and with the repetition of a tag. -/
def taggedText (tag : Text) : Text → Text
  | [] => []
  | c :: cs => if tag <+: c :: cs then tag else c :: taggedText tag cs

/-- A dollar quote behind its first dollar sign, if one may start here. -/
def dollarText (previous : Option Token) (cs : Text) : Option Text :=
  let name := cs.takeWhile isName
  match cs.dropWhile isName with
  | d :: body =>
    if d ≠ '$'.toUInt8 ∨ previous.any (fun t => t.kind = .word ∨ t.kind = .number) ∨ name.head?.any isDigit then none
    else some (name ++ d :: taggedText (dollarTag name) body)
  | [] => none

def digits (cs : Text) : Text := cs.takeWhile isDigit

/-- The fraction of a number, if there is one. -/
def fractionText : Text → Text
  | [] => []
  | c :: cs => if c = '.'.toUInt8 then c :: digits cs else []

/-- The exponent of a number, if there is one: its digits may have a sign. -/
def exponentText : Text → Text
  | c :: d :: cs =>
    if c ≠ 'e'.toUInt8 ∧ c ≠ 'E'.toUInt8 then []
    else if isDigit d then c :: d :: digits cs
    else if (d = '+'.toUInt8 ∨ d = '-'.toUInt8) ∧ cs.head?.any isDigit then c :: d :: digits cs
    else []
  | _ => []

/-- A number behind its first digit. -/
def numberText (cs : Text) : Text :=
  let whole := digits cs ++ fractionText (cs.drop (digits cs).length)
  whole ++ exponentText (cs.drop whole.length)

/-- A number behind the dot it starts with. -/
def dottedText (cs : Text) : Text := digits cs ++ exponentText (cs.drop (digits cs).length)

/-- An `e` makes the next quote an escape string where it is a whole token. -/
def opensEscapes (previous : Option Token) : Bool :=
  previous = some ⟨.word, ['e'.toUInt8]⟩ || previous = some ⟨.word, ['E'.toUInt8]⟩

/-- The kind of the token that `c` starts, and its text behind `c`. -/
def token (previous : Option Token) (c : UInt8) (cs : Text) : Kind × Text :=
  if c = '\''.toUInt8 then (.quoted, quotedText '\''.toUInt8 (opensEscapes previous) cs)
  else if c = '"'.toUInt8 then (.quoted, quotedText '"'.toUInt8 false cs)
  else if c = '-'.toUInt8 ∧ cs.head? = some '-'.toUInt8 then (.comment, '-'.toUInt8 :: lineText cs.tail)
  else if c = '/'.toUInt8 ∧ cs.head? = some '*'.toUInt8 then (.comment, '*'.toUInt8 :: commentText 0 cs.tail)
  else if c = '$'.toUInt8 then
    match dollarText previous cs with
    | some text => (.quoted, text)
    | none => (.other, [])
  else if isIdent c then (.word, cs.takeWhile continues)
  else if isDigit c then (.number, numberText cs)
  else if c = '.'.toUInt8 ∧ cs.head?.any isDigit then (.number, dottedText cs)
  else if isSpace c then (.space, [])
  else (.other, [])

/-- The tokens of a text behind the token `previous`. -/
def lexFrom (previous : Option Token) (rest : Text) : List Token :=
  match rest with
  | [] => []
  | c :: cs =>
    let t : Token := ⟨(token previous c cs).1, c :: (token previous c cs).2⟩
    t :: lexFrom (some t) (cs.drop (token previous c cs).2.length)
termination_by rest.length
decreasing_by simp only [List.length_drop, List.length_cons]; omega

def lex (query : Text) : List Token := lexFrom none query

/-! ### What a text is made of -/

/-- Quotes and comments. -/
def Token.guarded (t : Token) : Bool := t.kind = .quoted || t.kind = .comment

/-- Of each position of a text, whether it is in a quoted or commented token. -/
def guardedPositions (ts : List Token) : List Bool := ts.flatMap fun t => List.replicate t.text.length t.guarded

def Token.semicolon (t : Token) : Bool := t = ⟨.other, [';'.toUInt8]⟩

def Token.trivia (t : Token) : Bool := t.kind = .space || t.kind = .comment

/-- The statements that are not empty: semicolons part a text, and white space and comments do not count. -/
def statements (ts : List Token) : List (List Token) :=
  (ts.splitOnP Token.semicolon).filter fun statement => !statement.all Token.trivia

/-- The word is the token, in any case. -/
def Token.isWord (word : String) (t : Token) : Bool := t.kind = .word && t.text.map lower = ascii word

end Onprest.Sql.Postgres
