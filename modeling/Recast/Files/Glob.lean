/-!
# Glob patterns

A pattern is matched against the bytes of a relative path. A star and a question mark stay inside a name; two
stars that fill a whole part of the pattern stand for any number of names.
-/

namespace Recast.Files

/-- The slash between names. -/
def slash : UInt8 := 0x2F

/-- A part of a pattern. -/
inductive GlobToken where
  | byte (b : UInt8)
  /-- One byte of a name. -/
  | one
  /-- Any bytes of a name. -/
  | many
  /-- Nothing, or any path with a slash behind it. -/
  | anyBefore
  /-- A slash and any path behind it. -/
  | anyBehind
  /-- A slash, or any path between slashes. -/
  | anyBetween
  /-- One byte, in one of the ranges or in none. -/
  | oneOf (negated : Bool) (ranges : List (UInt8 × UInt8))
  | choice (alternatives : List (List GlobToken))
deriving Repr, Inhabited

/-- Whether some rest of the bytes behind one that passes every test on the way is accepted. -/
def someRest (pass : UInt8 → Bool) (accept : List UInt8 → Bool) : List UInt8 → Bool
  | [] => accept []
  | b :: bs => accept (b :: bs) || (pass b && someRest pass accept bs)

/-- Whether some rest directly behind a slash is accepted. -/
def behindSlash (accept : List UInt8 → Bool) : List UInt8 → Bool
  | [] => false
  | b :: bs => (b == slash && accept bs) || behindSlash accept bs

mutual

/-- Whether a token takes some bytes from the front such that the rest is accepted. -/
def GlobToken.takes (accept : List UInt8 → Bool) (bs : List UInt8) : GlobToken → Bool
  | .byte b =>
    match bs with
    | c :: rest => b == c && accept rest
    | [] => false
  | .one =>
    match bs with
    | c :: rest => c != slash && accept rest
    | [] => false
  | .many => someRest (· != slash) accept bs
  | .anyBefore => accept bs || behindSlash accept bs
  | .anyBehind =>
    match bs with
    | c :: rest => c == slash && someRest (fun _ => true) accept rest
    | [] => false
  | .anyBetween =>
    match bs with
    | c :: rest => c == slash && (accept rest || behindSlash accept rest)
    | [] => false
  | .oneOf negated ranges =>
    match bs with
    | c :: rest => (ranges.any fun range => range.1 ≤ c && c ≤ range.2) != negated && accept rest
    | [] => false
  | .choice alternatives => takesOne accept bs alternatives

def takesAll (accept : List UInt8 → Bool) (bs : List UInt8) : List GlobToken → Bool
  | [] => accept bs
  | token :: tokens => token.takes (fun rest => takesAll accept rest tokens) bs

def takesOne (accept : List UInt8 → Bool) (bs : List UInt8) : List (List GlobToken) → Bool
  | [] => false
  | tokens :: rest => takesAll accept bs tokens || takesOne accept bs rest

end

/-- Whether the pattern matches all bytes. Two stars alone match everything. -/
def globMatches (tokens : List GlobToken) (bs : List UInt8) : Bool :=
  match tokens with
  | [.anyBefore] => true
  | tokens => takesAll List.isEmpty bs tokens

/-- Whether a token takes nothing, wherever it stands. -/
def GlobToken.takesNothing : GlobToken → Bool
  | .choice [[]] => true
  | _ => false

/-- The number of pieces of a token: a slash with any path behind it counts as two. -/
def GlobToken.pieces : GlobToken → Nat
  | .choice [[]] => 0
  | .anyBehind => 2
  | _ => 1

/-- What a list of a number of pieces adds to their depth. -/
def listDepth (pieces : Nat) : Nat :=
  if pieces ≤ 1 then 0 else 1

mutual

/-- How deep the repetitions, groups and lists in a token stand inside one another. -/
def GlobToken.depth : GlobToken → Nat
  | .byte _ => 0
  | .one => 1
  | .many => 2
  | .anyBefore => 4
  | .anyBehind => 1
  | .anyBetween => 4
  | .oneOf _ ranges => 1 + listDepth ranges.length
  | .choice [[]] => 0
  | .choice alternatives => 1 + listDepth alternatives.length + choiceDepth alternatives

def sequenceDepth : List GlobToken → Nat
  | [] => 0
  | token :: tokens => max token.depth (sequenceDepth tokens)

def choiceDepth : List (List GlobToken) → Nat
  | [] => 0
  | tokens :: rest =>
    max (listDepth (tokens.map GlobToken.pieces).sum + sequenceDepth tokens) (choiceDepth rest)

end

/-- The greatest depth of a pattern that can be matched. -/
def globDepthLimit : Nat := 250

/-- Whether a pattern is too deep to be matched. -/
def isTooDeep (tokens : List GlobToken) : Bool :=
  globDepthLimit < 1 + sequenceDepth tokens

/-- The bytes of a character. -/
def charBytes (c : Char) : List UInt8 :=
  (String.singleton c).toUTF8.toList

/-- The bytes that a range of characters stands for. A class takes one byte, so of a character with several
bytes each counts alone, and the range itself runs from the last byte of the low end to the first byte of the
high end. -/
def byteRanges (low high : Char) : List (UInt8 × UInt8) :=
  let alone (bytes : List UInt8) := bytes.map fun b => (b, b)
  let lows := charBytes low
  match lows.getLast?, charBytes high with
  | some last, first :: rest =>
    if low = high then alone lows else alone lows.dropLast ++ (last, first) :: alone rest
  | _, _ => []

/-- What stands behind an opening bracket. -/
inductive ClassReading where
  /-- A class that a bracket closes, and what follows it. -/
  | closed (ranges : List (Char × Char)) (rest : List Char)
  /-- Text that no bracket closes. -/
  | unclosed
  /-- A range whose high end is below its low end. -/
  | backwards

/-- The ranges of a class in brackets, from behind its opening and its negation. A closing bracket and a hyphen
that come first stand for themselves. `joining` tells whether a hyphen followed the last range of `done`. -/
def readClass (done : List (Char × Char)) (first joining : Bool) : List Char → ClassReading
  | [] => .unclosed
  | c :: cs =>
    if c = ']' && !first then .closed (if joining then done ++ [('-', '-')] else done) cs
    else if joining then
      match done.getLast? with
      | some (low, _) =>
        if c < low then .backwards else readClass (done.dropLast ++ [(low, c)]) false false cs
      | none => .backwards
    else if c = '-' && !first then readClass done false true cs
    else readClass (done ++ [(c, c)]) false false cs

/-- The alternatives of a pattern; those that take nothing count only where there are no others. -/
def GlobToken.ofAlternatives (alternatives : List (List GlobToken)) : GlobToken :=
  match alternatives.filter (!·.all takesNothing) with
  | [] => .choice [[]]
  | alternatives => .choice alternatives

/-- The pattern that is being read: the alternatives that are open, innermost first, each with the branches that
are finished and the tokens of the last one, newest first. Once a bracket was met that nothing closes, brackets
are ordinary characters. -/
structure GlobDraft where
  tokens : List GlobToken := []
  outer : List (List (List GlobToken) × List GlobToken) := []
  plainBrackets : Bool := false

namespace GlobDraft

def push (draft : GlobDraft) (token : GlobToken) : GlobDraft :=
  { draft with tokens := token :: draft.tokens }

/-- Takes in the bytes of a character that stands for itself. -/
def pushChar (draft : GlobDraft) (c : Char) : GlobDraft :=
  (charBytes c).foldl (fun draft b => draft.push (.byte b)) draft

/-- Takes in two stars, of which the character before and the characters behind are known. Only as a whole part
of the pattern do they stand for names; then they take the slashes around them with them. Among alternatives, a
comma or an opening brace that an escape lets stand there counts like a slash. -/
def twoStars (draft : GlobDraft) (previous : Option Char) (behind : List Char) : GlobDraft × List Char :=
  let plain := ((draft.push .many).push .many, behind)
  let starts := previous == some '/' ||
    !draft.outer.isEmpty && (previous == some ',' || previous == some '\x7b')
  let settle (token : GlobToken) (rest : List Char) : GlobDraft × List Char :=
    match draft.tokens with
    | [] => (draft, rest)
    | .anyBefore :: _ => (draft, rest)
    | .anyBehind :: _ => (draft, rest)
    | _ :: tokens => ({ draft with tokens := token :: tokens }, rest)
  if draft.tokens.isEmpty then
    match behind with
    | [] => (draft.push .anyBefore, [])
    | '/' :: rest => (draft.push .anyBefore, rest)
    | _ => plain
  else if !starts then plain
  else
    match behind with
    | [] => settle .anyBehind []
    | '/' :: rest => settle .anyBetween rest
    | c :: rest => if (c = ',' || c = '\x7d') && !draft.outer.isEmpty then settle .anyBehind (c :: rest) else plain

/-- Closes the innermost alternatives. -/
def closeChoice (draft : GlobDraft) : Option GlobDraft :=
  match draft.outer with
  | [] => none
  | (branches, before) :: outer =>
    let alternatives := (draft.tokens.reverse :: branches).reverse
    some { draft with tokens := GlobToken.ofAlternatives alternatives :: before, outer := outer }

/-- Begins the next branch of the innermost alternatives. -/
def nextBranch (draft : GlobDraft) : GlobDraft :=
  match draft.outer with
  | [] => draft.push (.byte 0x2C)
  | (branches, before) :: outer =>
    { draft with tokens := [], outer := (draft.tokens.reverse :: branches, before) :: outer }

/-- Begins alternatives. -/
def openChoice (draft : GlobDraft) : GlobDraft :=
  { draft with tokens := [], outer := ([], draft.tokens) :: draft.outer }

end GlobDraft

/-- The tokens of a pattern; `fuel` bounds its length. -/
def readGlob (fuel : Nat) (draft : GlobDraft) (previous : Option Char) (cs : List Char) : Option (List GlobToken) :=
  match fuel, cs with
  | 0, _ => none
  | _, [] => if draft.outer.isEmpty then some draft.tokens.reverse else none
  | fuel + 1, c :: cs =>
    let literal (draft : GlobDraft) (c : Char) (cs : List Char) := readGlob fuel (draft.pushChar c) (some c) cs
    match c, cs with
    | '?', cs => readGlob fuel (draft.push .one) (some '?') cs
    | '*', '*' :: behind =>
      let (draft, rest) := draft.twoStars previous behind
      let consumed := rest.length < behind.length
      readGlob fuel draft (some (if consumed then '/' else '*')) rest
    | '*', cs => readGlob fuel (draft.push .many) (some '*') cs
    | '[', cs =>
      let (negated, inner) :=
        match cs with
        | '!' :: rest => (true, rest)
        | '^' :: rest => (true, rest)
        | rest => (false, rest)
      match if draft.plainBrackets then .unclosed else readClass [] true false inner with
      | .closed ranges rest =>
        let ranges := ranges.flatMap fun range => byteRanges range.1 range.2
        readGlob fuel (draft.push (.oneOf negated ranges)) (some ']') rest
      | .unclosed => literal { draft with plainBrackets := true } '[' cs
      | .backwards => none
    | '\x7b', cs => readGlob fuel draft.openChoice (some '\x7b') cs
    | '\x7d', cs => do
      let draft ← draft.closeChoice
      readGlob fuel draft (some '\x7d') cs
    | ',', cs => readGlob fuel draft.nextBranch (some ',') cs
    | '\\', [] => none
    | '\\', c :: cs => literal draft c cs
    | c, cs => literal draft c cs

/-- The tokens of a pattern; nothing when a brace has no partner, a range runs backwards or an escape is cut
off. A bracket that nothing closes stands for itself. -/
def parseGlob (pattern : String) : Option (List GlobToken) :=
  readGlob (pattern.length + 1) {} none pattern.toList

end Recast.Files
