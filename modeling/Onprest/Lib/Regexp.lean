import Mathlib.Data.List.Basic
import Mathlib.Order.Nat

/-! Syntax trees of `regexp/syntax`, and what they match between two positions of a string. -/

namespace Onprest.Lib

/-- A parsed expression; a class is a list of code point ranges. -/
inductive Regexp
  | noMatch
  | emptyMatch
  | literal (runes : List Char) (foldCase : Bool)
  | charClass (ranges : List (ℕ × ℕ))
  | anyCharNotNL
  | anyChar
  | beginLine
  | endLine
  | beginText
  | endText
  | wordBoundary
  | noWordBoundary
  | capture (sub : Regexp)
  | star (sub : Regexp) (nonGreedy : Bool)
  | plus (sub : Regexp) (nonGreedy : Bool)
  | quest (sub : Regexp) (nonGreedy : Bool)
  | repeated (sub : Regexp) (min : ℕ) (max : Option ℕ) (nonGreedy : Bool)
  | concat (subs : List Regexp)
  | alternate (subs : List Regexp)

namespace Regexp

/-- The code point lies in one of the ranges. -/
def inClass (ranges : List (ℕ × ℕ)) (c : Char) : Bool := ranges.any fun r => r.1 ≤ c.toNat && c.toNat ≤ r.2

/-- A word character of the Perl syntax. -/
def isWord (c : Char) : Bool := inClass [(48, 57), (65, 90), (95, 95), (97, 122)] c

/-- Exactly one side of position `i` is a word character. -/
def atBoundary (s : List Char) (i : ℕ) : Bool :=
  (i != 0 && (s[i - 1]?.map isWord).getD false) != (s[i]?.map isWord).getD false

section Matching
variable (eqFold : Char → Char → Bool) (s : List Char)

/-- Whether one rune of a literal accepts a character. -/
def runeAccepts (foldCase : Bool) (r c : Char) : Bool := if foldCase then eqFold r c else r == c

/-- Some position of the string satisfies `p`. -/
def anyPos (p : ℕ → Bool) : Bool := (List.range (s.length + 1)).any p

def one (p : Char → Bool) (i j : ℕ) : Bool :=
  match s[i]? with
  | some c => p c && j == i + 1
  | none => false

/-- Exactly `n` steps. -/
def steps (R : ℕ → ℕ → Bool) : ℕ → ℕ → ℕ → Bool
  | 0, i, j => i == j
  | n + 1, i, j => anyPos s fun k => R i k && steps R n k j

/-- At most `n` steps. -/
def upTo (R : ℕ → ℕ → Bool) : ℕ → ℕ → ℕ → Bool
  | 0, i, j => i == j
  | n + 1, i, j => i == j || anyPos s fun k => R i k && upTo R n k j

/-- `min` steps and then at most as many as the bound or the length of the string allows. -/
def repeats (R : ℕ → ℕ → Bool) (min : ℕ) (max : Option ℕ) (i j : ℕ) : Bool :=
  (max.all (min ≤ ·)) && anyPos s fun k => steps s R min i k && upTo s R (max.elim s.length (· - min)) k j

def literalAt (foldCase : Bool) : List Char → ℕ → ℕ → Bool
  | [], i, j => i == j
  | r :: rs, i, j => anyPos s fun k => one s (runeAccepts eqFold foldCase r) i k && literalAt foldCase rs k j

mutual
/-- The expression matches from `i` to `j`. -/
def run : Regexp → ℕ → ℕ → Bool
  | .noMatch => fun _ _ => false
  | .emptyMatch => fun i j => i == j
  | .literal rs f => literalAt eqFold s f rs
  | .charClass ranges => one s (inClass ranges)
  | .anyCharNotNL => one s fun c => c != '\n'
  | .anyChar => one s fun _ => true
  | .beginLine => fun i j => i == j && (i == 0 || s[i - 1]? == some '\n')
  | .endLine => fun i j => i == j && (i == s.length || s[i]? == some '\n')
  | .beginText => fun i j => i == j && i == 0
  | .endText => fun i j => i == j && i == s.length
  | .wordBoundary => fun i j => i == j && atBoundary s i
  | .noWordBoundary => fun i j => i == j && !atBoundary s i
  | .capture r => run r
  | .star r _ => repeats s (run r) 0 none
  | .plus r _ => repeats s (run r) 1 none
  | .quest r _ => repeats s (run r) 0 (some 1)
  | .repeated r min max _ => repeats s (run r) min max
  | .concat rs => runAll rs
  | .alternate rs => runAny rs
def runAll : List Regexp → ℕ → ℕ → Bool
  | [] => fun i j => i == j
  | r :: rs => fun i j => anyPos s fun k => run r i k && runAll rs k j
def runAny : List Regexp → ℕ → ℕ → Bool
  | [] => fun _ _ => false
  | r :: rs => fun i j => run r i j || runAny rs i j
end

/-- `MatchString`. -/
def matchString (r : Regexp) : Bool := anyPos s fun i => anyPos s fun j => run eqFold s r i j

end Matching
end Regexp
end Onprest.Lib
