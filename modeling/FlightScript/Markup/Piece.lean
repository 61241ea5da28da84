import FlightScript.Location
import FlightScript.Markup.Character
import FlightScript.Text.Parts

/-!
# `Markup.Piece` — a document cut into tags and text

The first step of reading a document. A document is cut into tags, runs of text, sections of literal text, and
asides (comments and processing instructions), each with its span. What stands in text and values is not
interpreted yet.

## Contents

* `Input` and `Read`, a text that is read from its front;
* `QName`, `RawAttribute`, `Piece`;
* `Read.piece`, one piece;
* `Piece.ofText`, the pieces of a document behind its declaration.
-/

namespace FlightScript.Markup

/-! ## Reading from the front -/

/-- The rest of a text and its place. -/
structure Input where
  rest : List Char
  place : Location

/-- The input behind some characters at its front. -/
def Input.skip (i : Input) (cs : List Char) : Input := ⟨i.rest.drop cs.length, i.place.after cs⟩

/-- A step of reading, which may find a document malformed. -/
abbrev Read (α : Type) : Type := StateT Input Option α

namespace Read

/-- What is left. -/
def rest : Read (List Char) := do return (← get).rest

/-- The place reached. -/
def place : Read Location := do return (← get).place

/-- The longest run of characters of a class. -/
def run (p : Char → Bool) : Read (List Char) := fun i =>
  let cs := i.rest.takeWhile p
  some (cs, i.skip cs)

/-- Exactly this text. -/
def exactly (text : String) : Read Unit := fun i =>
  if text.toList.isPrefixOf i.rest then some ((), i.skip text.toList) else none

/-- The text before the first occurrence of a mark, if there is one. -/
def before? (mark : List Char) : List Char → Option (List Char)
  | [] => if mark.isEmpty then some [] else none
  | c :: cs => if mark.isPrefixOf (c :: cs) then some [] else (before? mark cs).map (c :: ·)

/-- The text up to a mark, which is read too. -/
def upTo (mark : String) : Read (List Char) := do
  match before? mark.toList (← rest) with
  | some cs =>
    guard (cs.all isAllowed)
    modify fun i => i.skip (cs ++ mark.toList)
    return cs
  | none => failure

/-- White space that may be missing. -/
def spaces : Read Unit := do let _ ← run isSpace

end Read

/-! ## Pieces -/

/-- A name with a qualifier, which may be empty. -/
structure QName where
  qualifier : String
  base : String
deriving DecidableEq, Repr

/-- An attribute as it stands between its quotes. -/
structure RawAttribute where
  name : QName
  value : List Char
deriving DecidableEq, Repr

/-- A piece of a document. -/
inductive Piece where
  | text (raw : List Char)
  | section_ (raw : List Char)
  | aside
  | startTag (name : QName) (attributes : List RawAttribute) (closed : Bool)
  | endTag (name : QName)
deriving DecidableEq, Repr

/-- A piece with its span. -/
structure Placed where
  piece : Piece
  span : Span
deriving DecidableEq, Repr

/-- Whether a text can be part of a name with a qualifier. -/
def startsName : List Char → Bool
  | [] => false
  | c :: _ => isNameStart c

namespace Read

/-- A name, with at most one colon. -/
def qname : Read QName := do
  let cs ← run isNamePart
  match Text.parts ':' cs with
  | [base] =>
    guard (startsName base)
    return ⟨"", String.ofList base⟩
  | [qualifier, base] =>
    guard ((qualifier.isEmpty || startsName qualifier) && startsName base)
    return ⟨String.ofList qualifier, String.ofList base⟩
  | _ => failure

/-- A value between quotes. -/
def value (quote : Char) : Read (List Char) := do
  exactly (String.singleton quote)
  let cs ← run fun c => c != quote && c != '<'
  guard (cs.all isAllowed)
  exactly (String.singleton quote)
  return cs

/-- A name and its value. -/
def attribute_ : Read RawAttribute := do
  let name ← qname
  spaces
  exactly "="
  spaces
  match (← rest).head? with
  | some '\x22' => return ⟨name, ← value '\x22'⟩
  | some '\x27' => return ⟨name, ← value '\x27'⟩
  | _ => failure

/-- The rest of a start tag: its attributes, and whether it closes itself. An attribute follows white
space. -/
def attributes : Nat → Read (List RawAttribute × Bool)
  | 0 => failure
  | budget + 1 => do
    let gap ← run isSpace
    match (← rest).head? with
    | some '/' =>
      exactly "/>"
      return ([], true)
    | some '>' =>
      exactly ">"
      return ([], false)
    | _ =>
      guard !gap.isEmpty
      let a ← attribute_
      let (more, closed) ← attributes budget
      return (a :: more, closed)

/-- A comment. Two hyphens stand only at its end. -/
def comment : Read Piece := do
  exactly "<!--"
  let cs ← upTo "-->"
  guard ((before? "--".toList cs).isNone && cs.getLast? != some '-')
  return .aside

/-- A processing instruction. One that reads as a declaration has no place behind the front. -/
def instruction : Read Piece := do
  guard !("<?xml ".toList.isPrefixOf (← rest))
  exactly "<?"
  let name ← run isNamePart
  guard (startsName name)
  spaces
  let _ ← upTo "?>"
  return .aside

/-- A section of literal text. -/
def literalSection : Read Piece := do
  exactly "<![CDATA["
  return .section_ (← upTo "]]>")

/-- An end tag. -/
def endTag : Read Piece := do
  exactly "</"
  let name ← qname
  spaces
  exactly ">"
  return .endTag name

/-- A start tag with at most so many attributes. -/
def startTag (budget : Nat) : Read Piece := do
  exactly "<"
  let name ← qname
  let (attrs, closed) ← attributes budget
  return .startTag name attrs closed

/-- A run of text. The mark that ends a section does not stand in it. -/
def text : Read Piece := do
  let cs ← run fun c => c != '<'
  guard (cs.all isAllowed && (before? "]]>".toList cs).isNone)
  return .text cs

/-- The piece that a document begins with. -/
def piece (budget : Nat) : Read Piece := do
  match ← rest with
  | '<' :: '!' :: '-' :: _ => comment
  | '<' :: '!' :: _ => literalSection
  | '<' :: '?' :: _ => instruction
  | '<' :: '/' :: _ => endTag
  | '<' :: _ => startTag budget
  | _ => text

/-- All pieces. No piece is empty, so the number of characters bounds the number of pieces, and the number of
attributes in each. -/
def pieces : Nat → Read (List Placed)
  | 0 => do
    guard (← rest).isEmpty
    return []
  | budget + 1 => do
    if (← rest).isEmpty then return []
    let start ← place
    let p ← piece (budget + 1)
    let stop ← place
    let more ← pieces budget
    return ⟨p, start, stop⟩ :: more

/-! ## The front of a document -/

/-- White space that may be missing only at the end of a declaration. -/
def declarationGap : Read Unit := do
  let gap ← run isSpace
  guard (!gap.isEmpty || "?>".toList.isPrefixOf (← rest))

/-- An attribute of a declaration, if its name begins so. -/
def declared (name : String) : Read Bool := do
  if name.toList.isPrefixOf (← rest) then
    let _ ← attribute_
    return true
  else return false

/-- A declaration: a version, then perhaps an encoding, then perhaps whether the document stands alone. -/
def declaration : Read Unit := do
  exactly "<?xml"
  declarationGap
  guard (← declared "version")
  declarationGap
  if ← declared "encoding" then declarationGap
  let _ ← declared "standalone"
  spaces
  exactly "?>"

/-- The front of a document: a byte order mark and a declaration, both of which may be missing. -/
def front : Read Unit := do
  if "\uFEFF".toList.isPrefixOf (← rest) then exactly "\uFEFF"
  if "<?xml ".toList.isPrefixOf (← rest) then declaration

end Read

/-- The pieces of a document behind its front. -/
def Piece.ofText (source : String) : Option (List Placed) :=
  let go : Read (List Placed) := do
    Read.front
    Read.pieces (← Read.rest).length
  (go ⟨source.toList, .origin⟩).map Prod.fst

end FlightScript.Markup
