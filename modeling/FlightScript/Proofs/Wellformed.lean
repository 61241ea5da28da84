import FlightScript.Proofs.Documents

/-!
# `Proofs.Wellformed` — which documents can be read

A value stands in a document as it is, but for the characters that mean something there: these are written as
references and read back as themselves. XML 1.0 leaves out most control characters and two more, and they have no
references either. So a document can be read exactly if it holds none of them, and then the elements that are read are
those that were written. Every tree that has a document has one of such elements, whatever its names and texts are.

## Contents

* `Markup.IsLegal`: the characters of XML 1.0;
* `Element.values`: the values of all attributes;
* `Markup.Plain.legal_write_iff`: the characters of a document are legal if those of its values are;
* `rootOfDocument_write`: reading undoes writing;
* `documentOfText_readable_iff`: the documents of texts.
-/

namespace FlightScript

/-! ## Characters

Which characters are legal is a matter of their codes. The reader has the same ranges as a test. -/

namespace Markup

/-- The characters of XML 1.0. -/
def IsLegal (c : Char) : Prop :=
  c = '\t' ∨ c = '\n' ∨ c = '\r' ∨ (0x20 ≤ c.toNat ∧ c.toNat ≤ 0xD7FF) ∨ (0xE000 ≤ c.toNat ∧ c.toNat ≤ 0xFFFD) ∨
    (0x10000 ≤ c.toNat ∧ c.toNat ≤ 0x10FFFF)

/-- The test of the reader accepts exactly the legal characters. The test rules codes out and the definition
lists ranges; they agree because no character is a surrogate and none lies beyond the last plane. -/
theorem isAllowed_iff {c : Char} : isAllowed c = true ↔ IsLegal c := by
  -- no character is a surrogate, and none lies beyond the last plane
  have hvalid : c.toNat < 0xD800 ∨ 0xDFFF < c.toNat ∧ c.toNat < 0x110000 := c.valid
  by_cases hlow : c.toNat < 0x20
  · have hspace : c ≠ ' ' := by
      rintro rfl
      exact absurd hlow (by decide)
    have hranges : ¬ (0x20 ≤ c.toNat ∧ c.toNat ≤ 0xD7FF) ∧ ¬ (0xE000 ≤ c.toNat ∧ c.toNat ≤ 0xFFFD) ∧
        ¬ (0x10000 ≤ c.toNat ∧ c.toNat ≤ 0x10FFFF) := by omega
    simp [isAllowed, hlow, isSpace, IsLegal, hspace, hranges, or_assoc]
  · have hcontrol : ∀ d : Char, d.toNat < 0x20 → c ≠ d := by
      rintro d hd rfl
      exact hlow hd
    rw [isAllowed, if_neg hlow, IsLegal, Bool.and_eq_true, bne_iff_ne, bne_iff_ne]
    simp only [hcontrol '\t' (by decide), hcontrol '\n' (by decide), hcontrol '\r' (by decide), false_or]
    omega

instance : DecidablePred IsLegal := fun _ => decidable_of_iff _ isAllowed_iff

theorem all_isAllowed_iff {cs : List Char} : cs.all isAllowed = true ↔ ∀ c ∈ cs, IsLegal c := by
  rw [List.all_eq_true]
  exact forall₂_congr fun _ _ => isAllowed_iff

/-- A character that may stand in a name is legal. -/
theorem isLegal_of_isNamePart {c : Char} (h : isNamePart c = true) : IsLegal c := by
  have hle : ∀ a b : Char, a ≤ b ↔ a.toNat ≤ b.toNat := fun _ _ => Iff.rfl
  have heq : ∀ d : Char, c = d ↔ c.toNat = d.toNat := fun _ => Char.toNat_inj.symm
  -- no name has a control character, and the ranges of names lie in the three ranges of legal characters
  right; right; right
  simp only [isNamePart, isNameStart, isLetter, inRanges, nameStartRanges, namePartRanges, List.any_cons, List.any_nil,
    Bool.or_eq_true, Bool.and_eq_true, decide_eq_true_eq, beq_iff_eq, Bool.or_false, hle, heq, Char.reduceToNat] at h
  omega

theorem isLegal_of_isPlainName {name : String} (h : isPlainName name = true) : ∀ c ∈ name.toList, IsLegal c := by
  simp only [isPlainName, Bool.and_eq_true, List.all_eq_true] at h
  exact fun c hc => isLegal_of_isNamePart (h.1.2 c hc)

/-- Escaping makes no character legal, and none illegal. -/
theorem isLegal_escapeValueChar_iff (c : Char) : (∀ d ∈ escapeValueChar c, IsLegal d) ↔ IsLegal c := by
  by_cases hself : escapeValueChar c = [c]
  · rw [hself, List.forall_mem_singleton]
  · -- what is written as a reference is legal, and so are the characters of references
    have hwritten : c ∈ ['\x22', '\x27', '\n', '\r', '\t', '&', '<', '>'] := by
      by_contra hother
      simp only [List.mem_cons, List.not_mem_nil, or_false, not_or] at hother
      exact hself (by simp only [escapeValueChar, escapeTextChar, hother, if_false])
    have hlegal : ['\x22', '\x27', '\n', '\r', '\t', '&', '<', '>'].all
        (fun c => isAllowed c && (escapeValueChar c).all isAllowed) = true := by decide +kernel
    obtain ⟨hc, hwords⟩ := (Bool.and_eq_true _ _).mp (List.all_eq_true.mp hlegal c hwritten)
    exact iff_of_true (all_isAllowed_iff.mp hwords) (isAllowed_iff.mp hc)

/-- The written value of an attribute has legal characters exactly if the value has. -/
theorem isLegal_escapeValue_iff (value : String) :
    (∀ d ∈ value.toList.flatMap escapeValueChar, IsLegal d) ↔ ∀ c ∈ value.toList, IsLegal c := by
  rw [List.forall_mem_flatMap]
  exact forall₂_congr fun c _ => isLegal_escapeValueChar_iff c

end Markup

/-! ## Values

The names in a document are plain, so the characters that need looking at are those of values. -/

namespace Element

mutual

/-- The values of the attributes of an element and of the elements in it. -/
def values : Element → List String
  | ⟨_, a, children, _⟩ => a.entries.map (·.2) ++ valuesAll children

/-- The values of the attributes of the elements in a list of children. -/
def valuesAll : List (Child Element) → List String
  | [] => []
  | .element e :: rest => e.values ++ valuesAll rest
  | .text .. :: rest => valuesAll rest

end

/-- Whether all values are legal. -/
def isLegal (e : Element) : Bool := e.values.all fun v => v.toList.all Markup.isAllowed

theorem isLegal_iff {e : Element} : e.isLegal = true ↔ ∀ v ∈ e.values, ∀ c ∈ v.toList, Markup.IsLegal c := by
  rw [isLegal, List.all_eq_true]
  exact forall₂_congr fun _ _ => Markup.all_isAllowed_iff

theorem valuesAll_map_element (es : List Element) : valuesAll (es.map Child.element) = es.flatMap values := by
  induction es with
  | nil => rfl
  | cons e es ih => rw [List.map_cons, valuesAll, ih, List.flatMap_cons]

end Element

namespace Markup

open Element (values valuesAll_map_element)

/-- The characters of the values of attributes, and of the elements inside, together. -/
theorem forall_values_iff {P : String → Prop} {name : String} {a : Attributes} {es : List Element} {span : Span} :
    (∀ v ∈ values ⟨name, a, es.map Child.element, span⟩, P v) ↔
      (∀ e ∈ a.entries, P e.2) ∧ ∀ e ∈ es, ∀ v ∈ values e, P v := by
  rw [values, valuesAll_map_element, List.forall_mem_append, List.forall_mem_map, List.forall_mem_flatMap]

/-- The reader takes the tags of an element exactly if the values are legal. -/
theorem Plain.allowed_tags_iff {e : Element} (he : Plain e) :
    (∀ q ∈ tags e, q.Allowed) ↔ ∀ v ∈ e.values, ∀ c ∈ v.toList, IsLegal c := by
  induction he with
  | @intro name a es span _ _ _ ih =>
      -- values stand in start tags only
      have hstart : ∀ closed, (Piece.startTag ⟨"", name⟩ (a.entries.map rawAttribute) closed).Allowed ↔
          ∀ e ∈ a.entries, ∀ c ∈ e.2.toList, IsLegal c := by
        intro closed
        rw [Piece.Allowed, List.forall_mem_map]
        refine forall₂_congr fun e _ => ?_
        rw [RawAttribute.Allowed, all_isAllowed_iff]
        exact isLegal_escapeValue_iff e.2
      have hinside : (∀ q ∈ es.flatMap tags, q.Allowed) ↔ ∀ e ∈ es, ∀ v ∈ values e, ∀ c ∈ v.toList, IsLegal c := by
        rw [List.forall_mem_flatMap]
        exact forall₂_congr ih
      rw [forall_values_iff, tags, tagsAll_map_element]
      cases es with
      | nil => simp [hstart]
      | cons e es =>
          rw [List.map_cons, List.isEmpty_cons, if_neg (by decide), List.forall_mem_cons, hstart, List.forall_mem_append,
            hinside]
          simp [Piece.Allowed]

/-! ## Documents

Everything in a document beside its values is spelt with legal characters: names, marks, blanks and line ends. -/

section Text

variable {name : String}

/-- The characters of a start tag are legal exactly if those of its values are. -/
theorem isLegal_startChars_iff {es : List (String × String)} (hname : isPlainName name = true)
    (hes : ∀ e ∈ es, isPlainName e.1 = true) (closed : Bool) :
    (∀ c ∈ startChars name es closed, IsLegal c) ↔ ∀ e ∈ es, ∀ c ∈ e.2.toList, IsLegal c := by
  have hend : ∀ c ∈ tagEnd closed, IsLegal c := all_isAllowed_iff.mp (by cases closed <;> decide +kernel)
  have hmarks : IsLegal '<' ∧ IsLegal ' ' ∧ IsLegal '=' ∧ IsLegal '\x22' := by decide +kernel
  rw [startChars, List.forall_mem_cons, List.forall_mem_append, List.forall_mem_append, List.forall_mem_flatMap,
    and_iff_right hmarks.1, and_iff_right (isLegal_of_isPlainName hname), and_iff_left hend]
  refine forall₂_congr fun e he => ?_
  rw [List.forall_mem_cons, attributeChars, List.forall_mem_append, List.forall_mem_cons, List.forall_mem_cons,
    List.forall_mem_append, List.forall_mem_singleton, and_iff_right hmarks.2.1,
    and_iff_right (isLegal_of_isPlainName (hes e he)), and_iff_right hmarks.2.2.1, and_iff_right hmarks.2.2.2,
    and_iff_left hmarks.2.2.2, isLegal_escapeValue_iff]

theorem isLegal_endChars (hname : isPlainName name = true) : ∀ c ∈ endChars name, IsLegal c := by
  have hmarks : IsLegal '<' ∧ IsLegal '/' ∧ IsLegal '>' := by decide +kernel
  rw [endChars, List.forall_mem_cons, List.forall_mem_cons, List.forall_mem_append, List.forall_mem_singleton]
  exact ⟨hmarks.1, hmarks.2.1, isLegal_of_isPlainName hname, hmarks.2.2⟩

theorem isLegal_indent (depth : Nat) : ∀ c ∈ (Text.indent depth).toList, IsLegal c := by
  intro c hc
  rcases mem_indent depth c hc with rfl | rfl <;> decide +kernel

theorem isLegal_newline : IsLegal '\n' := by decide +kernel

theorem lines_toList (depth : Nat) (es : List Element) :
    (lines depth (es.map Child.element)).toList = es.flatMap fun e => (element depth e).toList := by
  induction es with
  | nil => rfl
  | cons e es ih => rw [List.map_cons, lines, String.toList_append, ih, List.flatMap_cons]

/-- The characters of a written element are legal exactly if those of all values in it are, at any depth of
indentation. The induction is over the element. -/
theorem Plain.legal_element_iff {e : Element} (he : Plain e) (depth : Nat) :
    (∀ c ∈ (element depth e).toList, IsLegal c) ↔ ∀ v ∈ e.values, ∀ c ∈ v.toList, IsLegal c := by
  induction he generalizing depth with
  | @intro name a es span hname hkeys _ ih =>
      have hstart := isLegal_startChars_iff hname (fun e he => (hkeys e he).1)
      rw [forall_values_iff]
      cases es with
      | nil =>
          rw [List.map_nil, element_toList_empty, List.forall_mem_append, List.forall_mem_append,
            List.forall_mem_singleton, hstart, and_iff_right (isLegal_indent depth), and_iff_left isLegal_newline]
          simp
      | cons e es =>
          -- indents, line ends and the end tag are legal whatever the values are
          rw [element_toList_cons, lines_toList]
          simp only [List.forall_mem_append, List.forall_mem_cons (a := '\n'), List.forall_mem_singleton,
            List.forall_mem_flatMap, and_iff_right (isLegal_indent depth), and_iff_right isLegal_newline,
            and_iff_left isLegal_newline, and_iff_left (isLegal_endChars hname), hstart]
          exact and_congr Iff.rfl (forall₂_congr fun e he => ih e he (depth + 1))

/-- **The characters of a document are legal exactly if those of its values are.** Everything else in it is written by
the writer itself or is a name, and escapes put legal characters for legal ones. -/
theorem Plain.legal_write_iff {e : Element} (he : Plain e) :
    (∀ c ∈ (write e).toList, IsLegal c) ↔ ∀ v ∈ e.values, ∀ c ∈ v.toList, IsLegal c := by
  have hheader : ∀ c ∈ (header ++ "\n").toList, IsLegal c := all_isAllowed_iff.mp (by decide +kernel)
  rw [write, String.toList_append, List.forall_mem_append, and_iff_right hheader, he.legal_element_iff 0]

/-- A document with an illegal character is not read, and any other gives its element back. -/
theorem Plain.read_write_iff {e : Element} (he : Plain e) :
    ((∀ v ∈ e.values, ∀ c ∈ v.toList, IsLegal c) → ∃ f, rootOfDocument (write e) = .ok f ∧ Element.Related Eq e f) ∧
      (¬ (∀ v ∈ e.values, ∀ c ∈ v.toList, IsLegal c) → rootOfDocument (write e) = .error .malformedDocument) := by
  obtain ⟨hyes, hno⟩ := read_write he
  rw [← he.allowed_tags_iff]
  constructor
  · intro hlegal
    obtain ⟨f, hf, hrelated⟩ := hyes hlegal
    exact ⟨f, by rw [rootOfDocument_eq, hf], hrelated⟩
  · intro hlegal
    rw [rootOfDocument_eq, hno hlegal]

end Text

end Markup

/-- **Reading undoes writing.** An element of any depth, with names that need no qualifier and legal values, comes back
with the same names, attributes and children; only places differ. -/
theorem rootOfDocument_write {e : Element} (hplain : Markup.Plain e)
    (hlegal : ∀ v ∈ e.values, ∀ c ∈ v.toList, Markup.IsLegal c) :
    ∃ f, rootOfDocument (Markup.write e) = .ok f ∧ Element.Related Eq e f :=
  hplain.read_write_iff.1 hlegal

/-- Every character that is written as a reference, white space that would be normalised, and characters beyond ASCII,
at three depths. -/
theorem rootOfDocument_write_references :
    let leaf := Element.make "Ünit" [("a.b-c", "x < y && z > \"w\" 'v'"), ("_", "\t\n\r\n &amp; &#10;")] []
    let e := Element.make "root" [("text", "日本 😀 \u00a0")] [leaf, .make "list" [] [leaf, leaf]]
    (Markup.Plain e ∧ ∀ v ∈ e.values, ∀ c ∈ v.toList, Markup.IsLegal c) ∧
      ∃ f, rootOfDocument (Markup.write e) = .ok f ∧ Element.Related Eq e f := by
  intro leaf e
  have hleaf : Markup.Plain leaf := @Markup.Plain.intro _ _ [] _ (by decide +kernel) (by decide +kernel) (by simp)
  have hlist : Markup.Plain (.make "list" [] [leaf, leaf]) :=
    @Markup.Plain.intro _ _ [leaf, leaf] _ (by decide +kernel) (by decide +kernel) (by simpa using hleaf)
  have he : Markup.Plain e :=
    @Markup.Plain.intro _ _ [leaf, _] _ (by decide +kernel) (by decide +kernel) (by simpa using ⟨hleaf, hlist⟩)
  have hlegal := Element.isLegal_iff.mp (show e.isLegal = true by decide +kernel)
  exact ⟨⟨he, hlegal⟩, rootOfDocument_write he hlegal⟩

/-! ## The documents of texts

A text gives a tree whether it has problems or not, and the tree has an element or a reason why not. -/

theorem documentOfText_eq {source : String} {e : Element} (h : (resolvedTreeOfText source).result.document = .ok e) :
    (documentOfText source).result = .ok (Markup.write e) := by
  rw [documentOfText, Node.documentText, h]
  rfl

/-- **The document of a text can be read exactly if it holds legal characters only**, and then the elements that are read
are those that were exported. -/
theorem documentOfText_readable_iff {source document : String} (h : (documentOfText source).result = .ok document) :
    ∃ e, (resolvedTreeOfText source).result.document = .ok e ∧ document = Markup.write e ∧
      ((∀ c ∈ document.toList, Markup.IsLegal c) → ∃ f, rootOfDocument document = .ok f ∧ Element.Related Eq e f) ∧
      (¬ (∀ c ∈ document.toList, Markup.IsLegal c) → rootOfDocument document = .error .malformedDocument) := by
  obtain ⟨e, he, rfl⟩ := Node.exists_document h
  have hplain := Node.plain_document he
  rw [hplain.legal_write_iff]
  exact ⟨e, he, rfl, hplain.read_write_iff⟩

/-- Characters of markup, quotes and characters beyond ASCII in a name, a position, a text and a comment. -/
theorem documentOfText_readable_references :
    let source := "#program \"a < b & 'c'\"\n#pos \"1 > 0\"\n\x7b\n  // \"tab\there\" 日本 😀\n  Display '&amp;'\n\x7d\n"
    ∃ document, ((documentOfText source).result = .ok document ∧ ∀ c ∈ document.toList, Markup.IsLegal c) ∧
      ∃ e f, (resolvedTreeOfText source).result.document = .ok e ∧ rootOfDocument document = .ok f ∧
        Element.Related Eq e f := by
  intro source
  have hlegal : ∃ e ∈ (resolvedTreeOfText source).result.document.toOption, e.isLegal = true := by decide +kernel
  obtain ⟨e, he, hlegal⟩ := hlegal
  have he := eq_ok_of_toOption he
  have hlegal := (Node.plain_document he).legal_write_iff.mpr (Element.isLegal_iff.mp hlegal)
  have hdocument := documentOfText_eq he
  obtain ⟨d, hd, _, hread, _⟩ := documentOfText_readable_iff hdocument
  obtain ⟨f, hf, hrelated⟩ := hread hlegal
  exact ⟨Markup.write e, ⟨hdocument, hlegal⟩, d, f, hd, hf, hrelated⟩

/-- Control characters and a character that is none, in a name, a text and a comment: each of these texts is without
problems and has a document that cannot be read. -/
theorem documentOfText_unreadable :
    let name := "#program \"\x01\"\n"
    let constant := "#program \"p\"\n\x7b\n  Display \"\x0b\"\n\x7d\n"
    let comment := "#program \"p\"\n\x7b\n  // \uFFFE\n\x7d\n"
    ∀ source ∈ [name, constant, comment], (documentOfText source).problems = [] ∧
      ∃ document, (documentOfText source).result = .ok document ∧
        rootOfDocument document = .error .malformedDocument := by
  intro name constant comment
  have hillegal : ∀ source ∈ [name, constant, comment], (documentOfText source).problems = [] ∧
      ∃ e ∈ (resolvedTreeOfText source).result.document.toOption, ¬ e.isLegal = true := by
    decide +kernel
  intro source hsource
  obtain ⟨hproblems, e, he, hlegal⟩ := hillegal source hsource
  have he := eq_ok_of_toOption he
  exact ⟨hproblems, Markup.write e, documentOfText_eq he,
    (Node.plain_document he).read_write_iff.2 (mt Element.isLegal_iff.mpr hlegal)⟩

end FlightScript
