import FlightScript.Markup
import FlightScript.Markup.Piece
import FlightScript.Text.Blank

/-!
# `Markup.Reader` — the root of a document

The second step of reading a document. References are resolved, line ends and white space in values become
what they stand for, tags are matched and qualifiers are checked and dropped. Text that is only white space is
left out.

## Contents

* `Chunk`, `chunks?`: text with its references resolved;
* `textValue`, `attributeValue`: line ends in text and in values;
* `Namespaces`, `ReadAttribute.mayDeclare`, `openElement?`: qualifiers;
* `elementWith`, `content?`, `Markup.read`, `Markup.elements?`.
-/

namespace FlightScript.Markup

/-! ## References -/

/-- A character of text: one that stands there, or one that is referred to. -/
inductive Chunk where
  | literal (c : Char)
  | referenced (c : Char)
deriving DecidableEq, Repr

/-- The value of a digit. -/
def digitValue? (base : Nat) (c : Char) : Option Nat :=
  let v :=
    if '0' ≤ c ∧ c ≤ '9' then some (c.toNat - 48)
    else if 'a' ≤ c ∧ c ≤ 'f' then some (c.toNat - 87)
    else if 'A' ≤ c ∧ c ≤ 'F' then some (c.toNat - 55)
    else none
  v.filter fun n => decide (n < base)

/-- The number that digits stand for. -/
def numeral? (base : Nat) : List Char → Option Nat
  | [] => none
  | cs => cs.foldlM (fun n c => (digitValue? base c).map (n * base + ·)) 0

/-- The character with a number. A number of 32 bits that is no character stands for the replacement
character. -/
def numbered? (n : Nat) : Option Char :=
  if n < 0x100000000 then
    let c := if n.isValidChar then Char.ofNat n else '\uFFFD'
    if isAllowed c then some c else none
  else none

/-- The characters that have names. -/
def namedChars : List (String × Char) :=
  [("quot", '\x22'), ("amp", '&'), ("apos", '\x27'), ("lt", '<'), ("gt", '>')]

/-- The character of a reference, from the text between its marks. -/
def reference? : List Char → Option Char
  | '#' :: 'x' :: cs => (numeral? 16 cs).bind numbered?
  | '#' :: cs => (numeral? 10 cs).bind numbered?
  | cs => (namedChars.find? fun n => n.1.toList == cs).map Prod.snd

/-- Text with its references resolved. What stands between the marks of a reference is held back, last
character first. -/
def chunksFrom (held : Option (List Char)) : List Char → Option (List Chunk)
  | [] => if held.isSome then none else some []
  | c :: cs =>
    match held with
    | none =>
      if c = '&' then chunksFrom (some []) cs else (chunksFrom none cs).map (.literal c :: ·)
    | some name =>
      if c = ';' then do
        let r ← reference? name.reverse
        let rest ← chunksFrom none cs
        return .referenced r :: rest
      else chunksFrom (some (c :: name)) cs

/-- Text with its references resolved, unless one of them is not known. -/
def chunks? (cs : List Char) : Option (List Chunk) := chunksFrom none cs

/-! ## Line ends -/

/-- Text as it counts so far, last character first, and whether the next character is kept as it is. -/
structure Buffer where
  chars : List Char := []
  keepNext : Bool := false

namespace Buffer

/-- One more character that stands in the text. A carriage return is a line feed as soon as the character
behind it, or the end, is known; with a line feed behind it both are one. -/
def pushLiteral (b : Buffer) (c : Char) (isLast : Bool) : Buffer :=
  if b.keepNext then ⟨c :: b.chars, false⟩
  else
    match b.chars with
    | '\r' :: cs =>
      if isLast && c == '\r' then ⟨'\n' :: '\n' :: cs, false⟩
      else if c == '\n' then ⟨'\n' :: cs, false⟩
      else ⟨c :: '\n' :: cs, false⟩
    | cs => ⟨(if isLast && c == '\r' then '\n' else c) :: cs, false⟩

/-- One more character that is referred to. It is kept as it is, and so is the one behind it. -/
def pushReferenced (b : Buffer) (c : Char) : Buffer := ⟨c :: b.chars, true⟩

/-- More text. -/
def pushAll (b : Buffer) : List Chunk → Buffer
  | [] => b
  | .literal c :: rest => (b.pushLiteral c rest.isEmpty).pushAll rest
  | .referenced c :: rest => (b.pushReferenced c).pushAll rest

end Buffer

/-- The text that chunks stand for between tags. -/
def textValue (chunks : List Chunk) : List Char := (Buffer.pushAll {} chunks).chars.reverse

/-- The text that chunks stand for in a value: white space becomes a space, and a line end of two characters
one space. -/
def attributeValue : List Chunk → List Char
  | [] => []
  | .referenced c :: rest => c :: attributeValue rest
  | .literal c :: rest =>
    -- the line feed behind it becomes the space
    if c = '\r' ∧ rest.head? = some (.literal '\n') then attributeValue rest
    else (if isSpace c then ' ' else c) :: attributeValue rest

/-! ## Qualifiers -/

/-- Qualifiers with the names they stand for. -/
abbrev Namespaces : Type := List (String × String)

/-- What an attribute belongs to. -/
inductive Namespace where
  | none
  | reserved
  | named (name : String)
deriving DecidableEq, Repr

/-- An attribute with its value. -/
structure ReadAttribute where
  name : QName
  value : String
deriving DecidableEq, Repr

/-- The value of an attribute. -/
def readAttribute? (a : RawAttribute) : Option ReadAttribute :=
  (chunks? a.value).map fun cs => ⟨a.name, String.ofList (attributeValue cs)⟩

/-- Whether an attribute declares a qualifier. -/
def ReadAttribute.declaresQualifier (a : ReadAttribute) : Bool := a.name.qualifier == "xmlns"

/-- Whether an attribute declares anything; what belongs to no qualifier may be declared too. -/
def ReadAttribute.declares (a : ReadAttribute) : Bool := a.declaresQualifier || a.name.base == "xmlns"

/-- The name that the qualifier `xml` stands for, everywhere and without a declaration. -/
def xmlName : String := "http://www.w3.org/XML/1998/namespace"

/-- The name that declarations belong to. -/
def declarationName : String := "http://www.w3.org/2000/xmlns/"

/-- Whether an attribute may declare what it does: the qualifier `xml` stands for its own name, nothing else
stands for that name, and nothing stands for the name of declarations. -/
def ReadAttribute.mayDeclare (a : ReadAttribute) : Bool :=
  (a.declaresQualifier && a.name.base == "xml") == (a.value == xmlName) && a.value != declarationName

/-- The qualifiers that attributes declare, each once. The qualifier `xml` is always there and is not
declared anew. -/
def ownNamespaces? : List ReadAttribute → Option Namespaces
  | [] => some []
  | a :: rest => do
    let more ← ownNamespaces? rest
    if a.declaresQualifier && a.name.base != "xml" then
      guard !(more.any fun n => n.1 == a.name.base)
      return (a.name.base, a.value) :: more
    else return more

/-- What an attribute with a qualifier belongs to. -/
def namespace? (ns : Namespaces) (name : QName) : Option Namespace :=
  if name.qualifier = "" then some .none
  else if name.qualifier = "xml" then some .reserved
  else (ns.find? fun n => n.1 == name.qualifier).map fun n => .named n.2

/-- Attributes without qualifiers, unless one is not declared or two are the same. -/
def bareAttributes? (ns : Namespaces) (seen : List (Namespace × String)) :
    List ReadAttribute → Option (List (String × String))
  | [] => some []
  | a :: rest => do
    let key := (← namespace? ns a.name, a.name.base)
    guard !(seen.contains key)
    let more ← bareAttributes? ns (key :: seen) rest
    return (a.name.base, a.value) :: more

/-- Whether the name of an element may have its qualifier. -/
def knownElement (ns : Namespaces) (name : QName) : Bool :=
  name.qualifier == "" || (name.qualifier != "xmlns" && ns.any fun n => n.1 == name.qualifier)

/-- The qualifiers known in an element and its attributes. -/
def openElement? (ns : Namespaces) (name : QName) (attributes : List RawAttribute) :
    Option (Namespaces × Attributes) := do
  let read ← attributes.mapM readAttribute?
  guard ((read.filter ReadAttribute.declares).all ReadAttribute.mayDeclare)
  let own ← ownNamespaces? read
  let all := own ++ ns
  guard (knownElement all name)
  let bare ← bareAttributes? all [] (read.filter fun a => !a.declares)
  return (all, .ofList bare)

/-! ## Content -/

/-- The text of a piece of text. -/
def characterData? : Piece → Option (List Char)
  | .text raw => (chunks? raw).map textValue
  | .section_ raw => some (textValue (raw.map .literal))
  | _ => none

/-- Whether a piece is text. -/
def Placed.isCharacterData (p : Placed) : Bool :=
  match p.piece with
  | .text _ | .section_ _ => true
  | _ => false

/-- Text as a child, nothing for white space. -/
def textChild (value : List Char) (span : Span) : List (Child Element) :=
  if Text.allBlank value then [] else [.text (String.ofList value) span]

/-- What reading the children of an element gives: the children, and the pieces from the end tag on. -/
abbrev Content : Type := List (Child Element) × List Placed

/-- The element that a start tag opens and the pieces behind it, given how to read its children. -/
def elementWith (content : Namespaces → List Placed → Option Content) (ns : Namespaces) (p : Placed)
    (ps : List Placed) : Option (Element × List Placed) :=
  match p.piece with
  | .startTag name attributes closed => do
    let (inner, attrs) ← openElement? ns name attributes
    if closed then return (⟨name.base, attrs, [], p.span⟩, ps)
    else
      match ← content inner ps with
      | (_, []) => none
      | (children, q :: qs) =>
        guard (q.piece = .endTag name)
        return (⟨name.base, attrs, children, p.span.start, q.span.stop⟩, qs)
  | _ => none

/-- The children up to the end tag that closes them, and the pieces from there on. Pieces of text that touch
are one child with the span of the first. -/
def content? : Nat → Namespaces → List Placed → Option Content
  | _, _, [] => some ([], [])
  | 0, _, _ :: _ => none
  | budget + 1, ns, p :: ps =>
    match p.piece with
    | .text _ | .section_ _ => do
      let values ← (p :: ps.takeWhile Placed.isCharacterData).mapM fun q => characterData? q.piece
      let (more, rest) ← content? budget ns (ps.dropWhile Placed.isCharacterData)
      return (textChild values.flatten p.span ++ more, rest)
    | .aside => content? budget ns ps
    | .endTag _ => some ([], p :: ps)
    | .startTag .. => do
      let (e, rest) ← elementWith (content? budget) ns p ps
      let (more, rest) ← content? budget ns rest
      return (.element e :: more, rest)

/-- Whether a piece may stand outside the root. -/
def Placed.isOutside (p : Placed) : Bool :=
  match p.piece with
  | .text raw => raw.all isSpace
  | .aside => true
  | _ => false

/-- The root of pieces, if they have exactly one and nothing else of meaning. -/
def root? (pieces : List Placed) : Option Element :=
  match pieces.dropWhile Placed.isOutside with
  | [] => none
  | p :: ps => do
    let (e, rest) ← elementWith (content? ps.length) [] p ps
    guard (rest.all Placed.isOutside)
    return e

/-- The root of a document, unless the document is malformed. -/
def read (source : String) : Option Element := (Piece.ofText source).bind root?

/-- The elements on top of a document, unless the document is malformed. It is so without a root and with several. -/
def elements? (source : String) : Option (List Element) := (read source).map fun root => [root]

end FlightScript.Markup
