import Onprest.Lib.Regexp

/-! String patterns: the check of the source text, the normalized Go syntax tree and the tree published to other
engines. -/

namespace Onprest.Contract
open Lib

/-- The library code that patterns and formats rely on. -/
structure Library where
  /-- Two runes are case variants of one letter: one orbit of `unicode.SimpleFold`. -/
  eqFold : Char → Char → Bool
  /-- `syntax.Parse(s, syntax.Perl)`. -/
  parse : List Char → Option Regexp
  /-- The program of `regexp.Compile(tree.String())`. -/
  recompile : Regexp → Option Regexp
  /-- `mail.ParseAddress` returns no error. -/
  email : String → Bool
  /-- `time.Parse` with the layout `2006-01-02` returns no error. -/
  date : String → Bool
  /-- `time.Parse` with `time.RFC3339` returns no error. -/
  dateTime : String → Bool
  /-- The scheme of `url.Parse`. -/
  uri : String → Option String

/-- A library that parses no pattern and no text format. -/
def Library.bare : Library where
  eqFold a b := a == b
  parse _ := none
  recompile _ := none
  email _ := false
  date _ := false
  dateTime _ := false
  uri _ := none

/-- `syntax.Op` names. -/
inductive Op
  | noMatch | emptyMatch | literal | charClass | anyCharNotNL | anyChar | beginLine | endLine | beginText | endText
  | wordBoundary | noWordBoundary | capture | star | plus | quest | repeated | concat | alternate
deriving DecidableEq, Repr

/-- `PatternNode`; `max` is `-1` for no bound. -/
inductive PatternNode
  | mk (kind : Op) (text : List Char) (ranges : List (ℕ × ℕ)) (min max : ℤ) (lazy : Bool)
      (children : List PatternNode)

/-- A compiled pattern: its source, the published tree and the expression that matches. -/
structure Pattern where
  source : String
  ast : PatternNode
  re : Regexp

def isHex (c : Char) : Bool := Regexp.inClass [(48, 57), (65, 70), (97, 102)] c

/-- The characters that may stand after a backslash anywhere. -/
def plainEscapes : List Char :=
  ['\\', '/', 'n', 'r', 't', 'f', 'v', 'd', 'D', 'w', 'W', '.', '*', '+', '?', '(', ')', '[', ']', '{',
    '}', '^', '$', '|']

/-- The text between braces is one number, or a number, a comma and maybe another one. -/
def validRepetition (body : List Char) : Bool :=
  match body.splitOn ',' with
  | [a] => a ≠ [] && a.all Char.isDigit
  | [a, b] => a ≠ [] && a.all Char.isDigit && b.all Char.isDigit
  | _ => false

/-- How many characters after the backslash an escape has, if it is one of the common subset. -/
def escapeLength (inClass : Bool) : List Char → Except String ℕ
  | [] => .error "incomplete pattern escape"
  | e :: rest =>
    if plainEscapes.contains e then .ok 1
    else if e = '-' then if inClass then .ok 1 else .error "hyphen escape is class-only"
    else if e = 'x' then
      match rest with
      | a :: b :: _ => if isHex a && isHex b then .ok 3 else .error "invalid hex escape"
      | _ => .error "invalid hex escape"
    else .error "unsupported pattern escape"

/-- The loop over the source text; `skip` characters are already read. -/
def checkPattern (skip : ℕ) (inClass afterAnchor : Bool) : List Char → Except String Unit
  | [] => if inClass then .error "unterminated pattern class" else .ok ()
  | c :: cs =>
    match skip with
    | skip + 1 => checkPattern skip inClass afterAnchor cs
    | 0 =>
      if !inClass && afterAnchor && ['*', '+', '?', '{'].contains c then
        .error "quantifier after an anchor is unsupported"
      else if c = '\\' then
        match escapeLength inClass cs with
        | .ok n => checkPattern n inClass false cs
        | .error e => .error e
      else if inClass then
        if c = '[' then .error "nested or POSIX class is unsupported"
        else checkPattern 0 (c ≠ ']') false cs
      else if c = '[' then
        if (if cs.head? = some '^' then cs.tail else cs).head? = some ']' then
          .error "class starting with ']' is unsupported"
        else checkPattern 0 true false cs
      else if c = '^' || c = '$' then checkPattern 0 false true cs
      else if c = ']' || c = '}' then .error "unescaped pattern syntax character"
      else if c = '(' then
        if cs.head? = some '?' then
          if cs[1]? = some ':' then checkPattern 2 false false cs else .error "unsupported pattern group"
        else checkPattern 0 false false cs
      else if c = '{' then
        if cs.contains '}' && validRepetition (cs.takeWhile (· ≠ '}')) then
          checkPattern ((cs.takeWhile (· ≠ '}')).length + 1) false false cs
        else .error "invalid repetition"
      else checkPattern 0 false false cs

/-- Go's parser does not accept the escaped slash. -/
def unescapeSlash : List Char → List Char
  | [] => []
  | '\\' :: c :: cs => if c = '/' then '/' :: unescapeSlash cs else '\\' :: c :: unescapeSlash cs
  | c :: cs => c :: unescapeSlash cs

/-- What `.` stands for: every character but the line terminators. -/
def dotRanges : List (ℕ × ℕ) := [(0, 9), (11, 12), (14, 0x2027), (0x202a, 0x10ffff)]

mutual
/-- Drop captures and give both any-character nodes the meaning of `.`. -/
def normalizePattern : Regexp → Regexp
  | .capture r => normalizePattern r
  | .anyCharNotNL => .charClass dotRanges
  | .anyChar => .charClass dotRanges
  | .star r g => .star (normalizePattern r) g
  | .plus r g => .plus (normalizePattern r) g
  | .quest r g => .quest (normalizePattern r) g
  | .repeated r min max g => .repeated (normalizePattern r) min max g
  | .concat rs => .concat (normalizePatterns rs)
  | .alternate rs => .alternate (normalizePatterns rs)
  | .noMatch => .noMatch
  | .emptyMatch => .emptyMatch
  | .literal rs f => .literal rs f
  | .charClass ranges => .charClass ranges
  | .beginLine => .beginLine
  | .endLine => .endLine
  | .beginText => .beginText
  | .endText => .endText
  | .wordBoundary => .wordBoundary
  | .noWordBoundary => .noWordBoundary
def normalizePatterns : List Regexp → List Regexp
  | [] => []
  | r :: rs => normalizePattern r :: normalizePatterns rs
end

mutual
/-- Copy the tree; of a literal only its text is kept. -/
def patternNode : Regexp → PatternNode
  | .noMatch => .mk .noMatch [] [] 0 0 false []
  | .emptyMatch => .mk .emptyMatch [] [] 0 0 false []
  | .literal rs _ => .mk .literal rs [] 0 0 false []
  | .charClass ranges => .mk .charClass [] ranges 0 0 false []
  | .anyCharNotNL => .mk .anyCharNotNL [] [] 0 0 false []
  | .anyChar => .mk .anyChar [] [] 0 0 false []
  | .beginLine => .mk .beginLine [] [] 0 0 false []
  | .endLine => .mk .endLine [] [] 0 0 false []
  | .beginText => .mk .beginText [] [] 0 0 false []
  | .endText => .mk .endText [] [] 0 0 false []
  | .wordBoundary => .mk .wordBoundary [] [] 0 0 false []
  | .noWordBoundary => .mk .noWordBoundary [] [] 0 0 false []
  | .capture r => .mk .capture [] [] 0 0 false [patternNode r]
  | .star r g => .mk .star [] [] 0 0 g [patternNode r]
  | .plus r g => .mk .plus [] [] 0 0 g [patternNode r]
  | .quest r g => .mk .quest [] [] 0 0 g [patternNode r]
  | .repeated r min max g => .mk .repeated [] [] min (max.elim (-1) (↑·)) g [patternNode r]
  | .concat rs => .mk .concat [] [] 0 0 false (patternNodes rs)
  | .alternate rs => .mk .alternate [] [] 0 0 false (patternNodes rs)
def patternNodes : List Regexp → List PatternNode
  | [] => []
  | r :: rs => patternNode r :: patternNodes rs
end

/-- `CompilePattern`. -/
def compilePattern (lib : Library) (source : String) : Except String Pattern :=
  match checkPattern 0 false false source.toList with
  | .error e => .error e
  | .ok () =>
    match lib.parse (unescapeSlash source.toList) with
    | none => .error "invalid common pattern"
    | some tree =>
      match lib.recompile (normalizePattern tree) with
      | none => .error "invalid generated pattern"
      | some re => .ok ⟨source, patternNode (normalizePattern tree), re⟩

/-- `MatchString`. -/
def Pattern.matchString (lib : Library) (p : Pattern) (s : String) : Bool := p.re.matchString lib.eqFold s.toList

end Onprest.Contract
