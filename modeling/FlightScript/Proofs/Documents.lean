import FlightScript.Proofs.Elements
import FlightScript.Proofs.Trimming

/-!
# `Proofs.Documents` — what a document says about its program

The document of a program is written from elements that get their ids at the end. Reading it gives the same elements
back, and the tree of these is what the document keeps of the program.

## Contents

* `Element.Related`: its rules, for ids and for positions;
* `Import.Reads`, `Import.Declares`: an element shows an item of a program;
* `Export.Shows`: what connects the items of a program with their elements, and with the elements of what is kept;
* `Grammar.Program.exists_of_document`, `Grammar.Program.textOfDocument_write`: what the document of a program says.
-/

namespace FlightScript

open Markup (Plain)

theorem eq_ok_of_toOption {ε α : Type} {x : Except ε α} {a : α} (h : x.toOption = some a) : x = .ok a := by
  cases x with
  | error => cases h
  | ok => rw [Option.some.inj h]

/-- What is related to a list with two parts has two parts. -/
theorem exists_append_of_forall₂ {α β : Type} {R : α → β → Prop} {xs ys : List α} {zs : List β}
    (h : List.Forall₂ R (xs ++ ys) zs) : ∃ us vs, zs = us ++ vs ∧ List.Forall₂ R xs us ∧ List.Forall₂ R ys vs := by
  refine ⟨zs.take xs.length, zs.drop xs.length, (List.take_append_drop _ _).symm, ?_, ?_⟩
  · simpa using List.forall₂_take xs.length h
  · simpa using List.forall₂_drop xs.length h

theorem forall_right_of_forall₂ {α β : Type} {R : α → β → Prop} {P : β → Prop} {xs : List α} {ys : List β}
    (h : List.Forall₂ R xs ys) (hP : ∀ x y, R x y → P y) : ∀ y ∈ ys, P y := by
  induction h with
  | nil => simp
  | cons hxy _ ih => exact List.forall_mem_cons.mpr ⟨hP _ _ hxy, ih⟩

/-! ## The same elements, but for ids

The importer looks at neither ids nor places, so elements that differ in nothing else are read alike. -/

namespace Element

variable {R S Q : Attributes → Attributes → Prop} {e f g : Element}

/-- What is known of an element that is related to one with elements in it. -/
theorem Related.inv (h : Related R e f) {es : List Element} (hes : e.children = es.map Child.element) :
    f.name = e.name ∧ R e.attributes f.attributes ∧
      ∃ fs, f.children = fs.map Child.element ∧ List.Forall₂ (Related R) es fs := by
  cases h with
  | @intro name a b es' fs s t hab hlength hzip =>
      have hinj : Function.Injective (List.map (@Child.element Element)) :=
        List.map_injective_iff.mpr fun _ _ heq => Child.element.inj heq
      obtain rfl := hinj hes
      exact ⟨rfl, hab, fs, rfl, List.forall₂_iff_zip.mpr ⟨hlength, fun hp => hzip _ hp⟩⟩

/-- What holds of related elements if it holds of those inside them. -/
theorem Related.induct {P : Element → Element → Prop}
    (step : ∀ {name : String} {a b : Attributes} {es fs : List Element} (s t : Span), R a b →
      List.Forall₂ P es fs → P ⟨name, a, es.map Child.element, s⟩ ⟨name, b, fs.map Child.element, t⟩)
    (h : Related R e f) : P e f := by
  induction h with
  | intro hab hlength _ ih => exact step _ _ hab (List.forall₂_iff_zip.mpr ⟨hlength, fun hp => ih _ hp⟩)

/-- Related elements may be compared through a third one, if the relations of their attributes compose. -/
theorem Related.trans (hQ : ∀ {a b c : Attributes}, R a b → S b c → Q a c) (h : Related R e f) (h' : Related S f g) :
    Related Q e g := by
  refine Related.induct (P := fun e f => ∀ g, Related S f g → Related Q e g) (fun s t hab hes g hg => ?_) h g h'
  obtain ⟨hname, hbc, gs, hgs, hfg⟩ := hg.inv rfl
  obtain ⟨gname, c, children, span⟩ := g
  subst hname hgs
  refine .of_forall₂ (hQ hab hbc) ?_
  clear hg hbc
  induction hes generalizing gs with
  | nil =>
      cases hfg
      exact .nil
  | cons he _ ih =>
      cases hfg with
      | cons hf hfs => exact .cons (he _ hf) (ih _ hfs)

theorem Related.size_eq (h : Related R e f) : e.size = f.size := by
  refine Related.induct (P := fun e f => e.size = f.size) (fun s t _ hes => ?_) h
  have hsizes : ∀ {es fs : List Element}, List.Forall₂ (fun e f => e.size = f.size) es fs → sizes es = sizes fs := by
    intro es fs hes
    induction hes with
    | nil => rfl
    | cons he _ ih => rw [sizes_cons, sizes_cons, he, ih]
  rw [size, size, sizeAll_map_element, sizeAll_map_element, hsizes hes]

/-- The importer does not look at ids. -/
theorem Related.likewise (h : Related Attributes.Alike e f) : e.Likewise f := by
  refine Related.induct (fun s t hab hes => ?_) h
  exact .intro (fun key hid _ => hab key hid) (fun _ => hes.length_eq) fun _ _ hp => (List.forall₂_iff_zip.mp hes).2 hp

theorem Likewise.name_eq (h : e.Likewise f) : f.name = e.name := by
  cases h
  rfl

theorem Likewise.attr?_eq (h : e.Likewise f) {key : String} (hid : key ≠ "id") (hpos : key ≠ "pos") :
    f.attr? key = e.attr? key := by
  cases h with
  | intro hab _ _ => exact (hab key hid hpos).symm

end Element

/-! ## Ids

Ids are given in the order of the document. Each element gets one more attribute and keeps all else. -/

namespace Export

open Element (Related)

theorem insert_id_alike {a : Attributes} (value : String) : a.Alike (a.insert "id" value) :=
  fun _ hkey => (a.get?_insert_of_ne value hkey).symm

/-- Giving ids to elements in a row leaves each of them as it is otherwise. -/
theorem numberAll_related {es : List Element}
    (h : ∀ e ∈ es, ∀ next, Related Attributes.Alike e (number next e).1 ∧ Plain (number next e).1) (next : Nat) :
    ∃ fs, (numberAll next (es.map Child.element)).1 = fs.map Child.element ∧
      List.Forall₂ (Related Attributes.Alike) es fs ∧ ∀ f ∈ fs, Plain f := by
  induction es generalizing next with
  | nil => exact ⟨[], rfl, .nil, by simp⟩
  | cons e es ih =>
      obtain ⟨he, hplain⟩ := h e List.mem_cons_self next
      obtain ⟨fs, hfs, hes, hplains⟩ := ih (fun e hm => h e (List.mem_cons_of_mem _ hm)) (number next e).2
      refine ⟨(number next e).1 :: fs, ?_, .cons he hes, List.forall_mem_cons.mpr ⟨hplain, hplains⟩⟩
      rw [List.map_cons, numberAll, List.map_cons, hfs]

/-- Giving ids leaves everything else as it is. -/
theorem number_related {e : Element} (h : Plain e) (next : Nat) :
    Related Attributes.Alike e (number next e).1 ∧ Plain (number next e).1 := by
  induction h generalizing next with
  | @intro name a es span hname hkeys _ ih =>
      rw [number]
      dsimp only
      split
      · obtain ⟨fs, hfs, hes, hplains⟩ := numberAll_related ih (next + 1)
        rw [hfs]
        refine ⟨.of_forall₂ (insert_id_alike _) hes, .intro hname (fun e he => ?_) hplains⟩
        rcases NameMap.mem_insertEntry he with rfl | he
        · exact ⟨(plain_keyWords "id" List.mem_cons_self).1, by simp⟩
        · exact hkeys e he
      · obtain ⟨fs, hfs, hes, hplains⟩ := numberAll_related ih next
        rw [hfs]
        exact ⟨.of_forall₂ (.refl a) hes, .intro hname hkeys hplains⟩

end Export

/-- Whatever the tree is, if it has a document then the element of the document is plain; numbering adds ids
only. -/
theorem Node.plain_document {n : Node} {e : Element} (h : n.document = .ok e) : Markup.Plain e := by
  have hgives : Export.Gives Markup.Plain n.document := by
    apply (Export.plain_root (Globals.declared_ofNode n) n.resolved).bind
    intro d hd
    -- numbering changes values and no names
    exact .ok (Export.number_related hd 0).2
  exact hgives.of_ok h

/-- Reading the document of an element gives the element back, but for its ids. -/
theorem related_of_read_write {e f : Element} (he : Plain e)
    (h : Markup.read (Markup.write (Export.number 0 e).1) = some f) : Element.Related Attributes.Alike e f := by
  obtain ⟨hnumber, hplain⟩ := Export.number_related he 0
  obtain ⟨hyes, hno⟩ := Markup.read_write hplain
  by_cases hallowed : ∀ q ∈ Markup.tags (Export.number 0 e).1, q.Allowed
  · obtain ⟨g, hg, hrelated⟩ := hyes hallowed
    rw [hg] at h
    cases h
    exact Element.Related.trans (S := Eq) (fun hab heq => heq ▸ hab) hnumber hrelated
  · rw [hno hallowed] at h
    cases h

/-! ## Positions

A position is an attribute of the first element of a block. An empty one is not written, and is read as none. -/

namespace Export

open Element (Related Likewise)

variable {pos : Option String} {e f g : Element} {es : List Element}

@[simp] theorem name_positioned : (positioned pos e).name = e.name := by
  unfold positioned
  split <;> rfl

@[simp] theorem children_positioned : (positioned pos e).children = e.children := by
  unfold positioned
  split <;> rfl

@[simp] theorem size_positioned : (positioned pos e).size = e.size := by
  obtain ⟨name, a, children, span⟩ := e
  unfold positioned
  split <;> rfl

theorem positioned_filled : positioned (Text.filled pos) e = positioned pos e := by
  rw [positioned, positioned, Node.filled_filled]

theorem block_filled : block (Text.filled pos) es = block pos es := by
  cases es with
  | nil => rfl
  | cons e es => rw [block, block, positioned_filled]

/-- The position of an element that had none is the one it is given, unless that is empty. -/
theorem attr?_positioned (h : e.attr? "pos" = none) : (positioned pos e).attr? "pos" = Text.filled pos := by
  unfold positioned
  split
  · rename_i p hp
    rw [hp]
    exact e.attributes.get?_insert_self "pos" p
  · rename_i hp
    rw [hp, h]

/-- What an element with a position cannot be told apart from, the element alone cannot. -/
theorem likewise_of_positioned (h : (positioned pos e).Likewise f) : e.Likewise f := by
  obtain ⟨name, a, children, span⟩ := e
  unfold positioned at h
  split at h
  · rename_i p _
    generalize hplaced : (Element.mk name a children span).withAttr "pos" p = placed at h
    cases h with
    | intro hab hlength hzip =>
        cases hplaced
        exact .intro (fun key hid hpos => (a.get?_insert_of_ne p hpos).symm.trans (hab key hid hpos)) hlength hzip
  · exact h

/-- The importer sees an element with a position as the element, and the position. -/
theorem likewise_of_related (h : Related Attributes.Alike (positioned pos e) f) (he : e.Unplaced) :
    e.Likewise f ∧ f.attr? "pos" = Text.filled pos := by
  refine ⟨likewise_of_positioned h.likewise, ?_⟩
  have hattr : ∀ {e f : Element}, Related Attributes.Alike e f → e.attr? "pos" = f.attr? "pos" := by
    rintro _ _ ⟨hab, _, _⟩
    exact hab "pos" (by decide)
  rw [← hattr h, attr?_positioned he.pos]

@[simp] theorem size_block : (block pos (e :: es)).size = 1 + (e.size + Element.sizes es) := by
  rw [block, Element.size_make, Element.sizes_cons, size_positioned]

/-- What is read where a block is written. -/
theorem exists_of_related_block (h : Related Attributes.Alike (block pos (e :: es)) g) (he : e.Unplaced) :
    g.name = "Instructions" ∧ ∃ f fs, g.children = .element f :: fs.map Child.element ∧ e.Likewise f ∧
      f.attr? "pos" = Text.filled pos ∧ List.Forall₂ Likewise es fs := by
  obtain ⟨hname, _, fs, hfs, hes⟩ := @Related.inv _ _ _ h (positioned pos e :: es) rfl
  cases hes with
  | @cons _ f _ fs hf hes =>
      obtain ⟨hlikewise, hpos⟩ := likewise_of_related hf he
      exact ⟨hname, f, fs, hfs, hlikewise, hpos, hes.imp fun _ _ hr => hr.likewise⟩

end Export

/-! ## Bodies

The elements of statements are read back by the importer, whatever ids they were given. What comes out is what a
document keeps of them. -/

namespace Grammar

open Export (Trims)

variable {s o : Scope} {n : Node} {ns : List Node}

/-- **What is read from the elements of statements is what is kept of them.** The importer sees no difference between
the elements of the statements and those of what is kept of them. The latter it reads as what they were made from,
since every name in it has a definition that takes its arguments. -/
theorem Statement.exists_elements (h : ∀ n ∈ ns, Grammar.settled.Statement s n) (hn : Node.complaintsAll s ns = [])
    (ho : o.globals = s.globals) (hs : o.globals.Declared) : ∃ es fs, Export.statements o ns = .ok es ∧
      Export.statements o (ns.map Node.kept) = .ok fs ∧ Trims ns es fs ∧
      ∀ gs, List.Forall₂ Element.Likewise es gs → Import.statements (gs.map Child.element) = .ok (ns.map Node.kept) := by
  obtain ⟨es, fs, hes, hfs, htrims⟩ := Statement.exists_trims h ho
  refine ⟨es, fs, hes, hfs, htrims, fun gs hgs => ?_⟩
  rw [Node.complaintsAll_of_programFree (Statement.programFree_all h), List.flatMap_eq_nil_iff] at hn
  have hdefined := forall_mem_map_kept fun m hm => (h m hm).defined_kept (hn m hm) ho.symm
  obtain ⟨fs', hfs', hrecovers⟩ := Statement.exists_recovers hdefined rfl hs
  obtain rfl : fs = fs' := Except.ok.inj (hfs.symm.trans hfs')
  -- the importer sees no difference between what is there and the elements of what is kept
  have hsame : (Import.statements (gs.map Child.element)).toOption = (Import.statements (fs.map Child.element)).toOption :=
    (Import.ReadAlike.of_forall₂ hgs).statements.symm.trans (Import.ReadAlike.of_forall₂ htrims.likewise).statements
  have hkept : (ns.map Node.kept).map Node.clearMetadata = ns.map Node.kept := by
    rw [List.map_map]
    exact List.map_congr_left fun m _ => m.clearMetadata_kept
  rw [hrecovers.statements, hkept] at hsame
  exact eq_ok_of_toOption hsame

/-- Without arguments of local names, statements and what is kept of them have the same elements. -/
theorem Statement.elements_eq (h : ∀ n ∈ ns, Grammar.settled.Statement s n) (hcalls : ∀ n ∈ ns, n.NoLocalCalls)
    {es fs : List Element} (hes : Export.statements o ns = .ok es)
    (hfs : Export.statements o (ns.map Node.kept) = .ok fs) : fs = es := by
  have hkept : ns.map Node.kept = Node.clearMetadataAll ns := by
    rw [Node.clearMetadataAll_eq_map]
    exact List.map_congr_left fun n hn => (h n hn).kept_eq_clearMetadata (hcalls n hn)
  have hsame := toOption_of_mapError (Export.statements_clearMetadata o ns)
  rw [← hkept, hfs, hes] at hsame
  exact Option.some.inj hsame

/-- An expression and what is kept of it have the same element, if no local name is called with arguments. -/
theorem Expression.element_eq (h : Grammar.settled.Expression s n) (hcalls : n.NoLocalCalls) {e f : Element}
    (he : Export.expression o n = .ok e) (hf : Export.expression o n.kept = .ok f) : f = e := by
  have hsame := toOption_of_mapError (Export.expression_clearMetadata o n)
  rw [← h.kept_eq_clearMetadata hcalls, hf, he] at hsame
  exact Option.some.inj hsame

/-- The element of an expression without complaints exists, and is read as what is kept of the expression,
whatever ids and positions it was given. -/
theorem Expression.exists_element (h : Grammar.settled.Expression s n) (hn : n.complaints s = [])
    (ho : o.globals = s.globals) (hs : o.globals.Declared) : ∃ e f, Export.expression o n = .ok e ∧
      Export.expression o n.kept = .ok f ∧ Trims [n] [e] [f] ∧
      ∀ gs, List.Forall₂ Element.Likewise [e] gs → Import.Part.first (Import.parts (gs.map Child.element)) = .ok n.kept := by
  obtain ⟨e, f, he, hf, htrims⟩ := h.trims ho
  refine ⟨e, f, he, hf, htrims, fun gs hgs => ?_⟩
  have hdefined := h.defined_kept hn ho.symm
  obtain ⟨f', hf', hrecovers⟩ := hdefined.recovered rfl hs
  obtain rfl : f = f' := Except.ok.inj (hf.symm.trans hf')
  have hsame := (Import.Part.first_congr (Import.ReadAlike.of_forall₂ hgs).parts).symm.trans
    (Import.Part.first_congr (Import.ReadAlike.of_forall₂ htrims.likewise).parts)
  rw [show Import.Part.first (Import.parts ([f].map Child.element)) = Import.expression f from rfl, hrecovers.tree,
    Node.clearMetadata_kept] at hsame
  exact eq_ok_of_toOption hsame

end Grammar

/-! ## Heads

The head of a handler or of a declaration is an element of its own in front of the statements. -/

namespace Element

theorem elementsOf_map_element (es : List Element) : elementsOf (es.map Child.element) = es := by
  rw [elementsOf, List.filterMap_map]
  exact List.filterMap_some

theorem elements_eq {e : Element} {es : List Element} (h : e.children = es.map Child.element) : e.elements = es := by
  rw [elements, h, elementsOf_map_element]

/-- What the importer cannot tell apart has elements in it that the importer cannot tell apart, unless it is a
variable, whose content is not looked at. -/
theorem Likewise.exists_children {e f : Element} (h : e.Likewise f) (hname : e.name ≠ "Variable") {es : List Element}
    (hes : e.children = es.map Child.element) : List.Forall₂ Likewise es f.elements := by
  cases h with
  | intro _ hlength hzip =>
      obtain rfl := (elementsOf_map_element _).symm.trans ((congrArg elementsOf hes).trans (elementsOf_map_element _))
      rw [elements_eq rfl]
      exact List.forall₂_iff_zip.mpr ⟨hlength hname, fun hp => hzip hname _ hp⟩

/-- The texts of a declared name in an element. -/
def callFormat (e : Element) : CallFormat := ⟨(e.attr? "callFormat").getD "", (e.attr? "format").getD ""⟩

/-- The texts of the instruction that a block declares. -/
def instructionFormat? (e : Element) : Option CallFormat :=
  (e.first?.filter fun c => c.name == "CustomInstruction").map callFormat

end Element

/-- The texts of something with a value. -/
def CallFormat.returning (format : CallFormat) : CallFormat := ⟨format.numbered, format.named ++ " return (0)"⟩

theorem Text.filled_getD (value : Option String) : filled (some (value.getD "")) = filled value := by
  cases value <;> rfl

theorem Text.getD_filled (value : Option String) : (filled value).getD "" = value.getD "" := by
  cases value with
  | none => rfl
  | some v => by_cases hv : v = "" <;> simp [filled, Option.filter, hv]

/-- Handlers of messages, and no others, have a filter. -/
theorem Catalog.hasFilter_iff {name : String} {d : EventDefinition} (h : event? name = some d) :
    d.hasFilter = true ↔ name = messageEvent := by
  have hevents : ∀ d ∈ events, d.hasFilter = true ↔ d.event = messageEvent := by decide +kernel
  have hname : d.event = name := by simpa using List.find?_some h
  rw [hevents d (List.mem_of_find?_eq_some h), hname]

namespace Import

/-- An element shows the head of a declaration; something may follow its format. -/
structure ShowsHead (h : DeclarationHead) (suffix : String) (f : Element) : Prop where
  pos : f.attr? "pos" = Text.filled h.pos
  name : f.attr? "name" = some h.name
  numbered : f.attr? "callFormat" = some h.format.numbered
  named : f.attr? "format" = some (h.format.named ++ suffix)

/-- A head that an element shows is read as what is kept of it, if what follows its format holds no mark of a
format. -/
theorem ShowsHead.declarationHead_eq {h : DeclarationHead} {suffix : String} {f : Element} (hf : ShowsHead h suffix f)
    (hsuffix : '|' ∉ suffix.toList) : declarationHead f = h.kept := by
  rw [declarationHead, hf.pos, hf.name, hf.numbered, hf.named, Node.filled_filled, Option.getD_some, Option.getD_some,
    CallFormat.parameters_append _ hsuffix]
  rfl

theorem ShowsHead.callFormat_eq {h : DeclarationHead} {suffix : String} {f : Element} (hf : ShowsHead h suffix f) :
    f.callFormat = ⟨h.format.numbered, h.format.named ++ suffix⟩ := by
  rw [Element.callFormat, hf.numbered, hf.named]
  rfl

section Heads

attribute [local simp] Element.make Element.attr? NameMap.ofList NameMap.get?_insert_self NameMap.get?_insert_of_ne
  NameMap.get?_empty Export.idSlot

variable {f : Element}

/-- The element of a declared instruction shows its head, with nothing behind the format. -/
theorem showsHead_instructionHead {h : DeclarationHead} (hf : (Export.instructionHead h).Likewise f)
    (hpos : f.attr? "pos" = Text.filled h.pos) : ShowsHead h "" f where
  pos := hpos
  name := by
    rw [hf.attr?_eq (by decide) (by decide)]
    simp [Export.instructionHead]
  numbered := by
    rw [hf.attr?_eq (by decide) (by decide)]
    simp [Export.instructionHead, DeclarationHead.format]
  named := by
    rw [hf.attr?_eq (by decide) (by decide)]
    simp [Export.instructionHead, DeclarationHead.format]

/-- What is read where a declared expression is written. -/
theorem exists_of_related_expressionDeclaration {h : DeclarationHead} {value : Element} (hvalue : value.Unplaced)
    (hf : Element.Related Attributes.Alike (Export.expressionDeclaration h value) f) :
    f.name = "CustomExpression" ∧ ShowsHead h " return (0)" f ∧
      ∃ fs, f.children = fs.map Child.element ∧ List.Forall₂ Element.Likewise [value] fs := by
  obtain ⟨hname, _, fs, hfs, hvalues⟩ := @Element.Related.inv _ _ _ hf [value] Export.children_positioned
  obtain ⟨hlikewise, hpos⟩ := Export.likewise_of_related hf (Export.unplaced_declared hvalue)
  refine ⟨hname.trans Export.name_positioned, ⟨hpos, ?_, ?_, ?_⟩, fs, hfs, hvalues.imp fun _ _ hr => hr.likewise⟩
  · rw [hlikewise.attr?_eq (by decide) (by decide)]
    simp
  · rw [hlikewise.attr?_eq (by decide) (by decide)]
    simp [DeclarationHead.format]
  · rw [hlikewise.attr?_eq (by decide) (by decide)]
    simp [DeclarationHead.format]

/-- The filter of a handler is the text of the first element in its head, where its event has one. -/
theorem eventFilter_eq {h : EventHead} {d : EventDefinition} (hh : h.Legible) (hd : Catalog.event? h.event = some d)
    (hf : (Export.eventHead h d).Likewise f) :
    (if h.event = Catalog.messageEvent then Text.filled (f.first?.bind fun c => c.attr? "text") else none) =
      Text.filled h.filter := by
  split
  · rename_i hmessage
    have hchildren := @Element.Likewise.exists_children _ _ hf (by simp [Export.eventHead])
      [.make "Constant" [("canReplace", "false"), ("text", h.filter.getD "")] []]
      (by simp [Export.eventHead, (Catalog.hasFilter_iff hd).mpr hmessage])
    cases helements : f.elements with
    | nil =>
        rw [helements] at hchildren
        cases hchildren
    | cons c cs =>
        rw [helements] at hchildren
        obtain ⟨hc, _⟩ := List.forall₂_cons.mp hchildren
        have htext : c.attr? "text" = some (h.filter.getD "") := by
          rw [hc.attr?_eq (by decide) (by decide)]
          simp
        rw [Element.first?, helements, List.head?_cons, Option.bind_some, htext, Text.filled_getD]
  · rename_i hother
    rw [of_not_not fun hsome => hother (hh.filter hsome)]
    rfl

/-- What is read where the head of a handler is written. -/
theorem eventHead_eq {h : EventHead} {d : EventDefinition} (hh : h.Legible) (hd : Catalog.event? h.event = some d)
    (hf : (Export.eventHead h d).Likewise f) (hpos : f.attr? "pos" = Text.filled h.pos) : eventHead f = h.kept := by
  have hevent : f.attr? "event" = some h.event := by
    rw [hf.attr?_eq (by decide) (by decide)]
    simp [Export.eventHead]
  rw [eventHead, hevent, hpos, Node.filled_filled]
  dsimp only [Option.getD_some]
  rw [eventFilter_eq hh hd hf]
  rfl

end Heads

end Import

/-! ## Items

Items with blocks and declared expressions are at two different places of a document, so a program is taken apart
into the two and put together in another order. -/

namespace Import

/-- An element is read as an item of a program that has a block. -/
structure Reads (n : Node) (g : Element) : Prop where
  name : g.name = "Instructions"
  tree : block g = .ok (some n.kept)
  format : g.instructionFormat? = n.instructionHead?.map DeclarationHead.format

/-- An element is read as a declared expression. -/
structure Declares (n : Node) (g : Element) : Prop where
  name : g.name = "CustomExpression"
  tree : ∃ v, Part.first (parts g.children) = .ok v ∧ n.kept = .expressionDeclaration (declarationHead g) v
  format : n.expressionHead?.map (fun h => h.format.returning) = some g.callFormat

end Import

namespace Import

variable {g d : Element} {gs : List Element} {n : Node} {ns : List Node}

theorem first?_eq (hg : g.children = .element d :: gs.map Child.element) : g.first? = some d := by
  rw [Element.first?, @Element.elements_eq g (d :: gs) hg]
  rfl

theorem block_event (hg : g.children = .element d :: gs.map Child.element) (hd : d.name = "Event")
    (hns : statements (gs.map Child.element) = .ok ns) : block g = .ok (some (.event (eventHead d) ns)) := by
  rw [block, hg, split?]
  dsimp only
  rw [hd, hns]
  rfl

/-- A block whose first element is that of a declaration is read as the declared instruction. -/
theorem block_instruction (hg : g.children = .element d :: gs.map Child.element) (hd : d.name = "CustomInstruction")
    (hns : statements (gs.map Child.element) = .ok ns) :
    block g = .ok (some (.instructionDeclaration (declarationHead d) ns)) := by
  rw [block, hg, split?]
  dsimp only
  rw [hd, hns]
  rfl

/-- Any other block is read as statements of their own, the first of which carries the position. -/
theorem block_detached (hg : g.children = .element d :: gs.map Child.element) (hevent : d.name ≠ "Event")
    (hinstruction : d.name ≠ "CustomInstruction") (hns : statements g.children = .ok ns) :
    block g = .ok (some (.detached (Text.filled (d.attr? "pos")) ns none)) := by
  unfold block
  rw [hns, hg, split?]
  dsimp only
  split
  · rename_i hname
    exact absurd hname hinstruction
  · rename_i hname
    exact absurd hname hevent
  · rfl

/-- The heads of handlers and declarations are no statements. -/
theorem name_ne_of_statements (h : statements (.element d :: gs.map Child.element) = .ok (n :: ns))
    (hn : ∀ message, n ≠ .error message none) : d.name ≠ "Event" ∧ d.name ≠ "CustomInstruction" := by
  obtain ⟨name, a, children, span⟩ := d
  have hunknown : ∀ message, simpleStatement name a children (parts children) = .ok (.error message none) →
      name ∉ Definition.constructs → False := by
    intro message hsimple hname
    simp only [Definition.constructs, List.mem_cons, not_or] at hname
    rw [statements, hsimple] at h
    · cases hrest : statements (gs.map Child.element) with
      | error =>
          rw [hrest] at h
          cases h
      | ok ms =>
          rw [hrest] at h
          cases h
          exact hn _ rfl
    all_goals simp [hname]
  constructor
  · rintro rfl
    exact hunknown _ rfl (by decide)
  · rintro rfl
    exact hunknown _ rfl (by decide)

end Import

theorem Node.hasBlock_kept (n : Node) : n.kept.hasBlock = n.hasBlock := by
  cases n <;> simp [kept, hasBlock]

theorem Node.isExpressionDeclaration_kept (n : Node) : n.kept.isExpressionDeclaration = n.isExpressionDeclaration := by
  cases n <;> rfl

namespace Export

open Element (Related sizes)

/-- The elements of items in a row are those of each, blocks with blocks and declared expressions with theirs. -/
theorem topLevels_append (s : Scope) (ns ms : List Node) : topLevels s (ns ++ ms) = (do
    let x ← topLevels s ns
    let y ← topLevels s ms
    return (x.1 ++ y.1, x.2 ++ y.2)) := by
  induction ns using topLevels.induct with
  | case1 =>
      rw [List.nil_append, topLevels]
      cases topLevels s ms <;> rfl
  | case2 head value ns ih => simp only [List.cons_append, topLevels, ih, bind_assoc, pure_bind]
  | case3 n ns h ih =>
      rw [List.cons_append, topLevels_cons s _ h, topLevels_cons s _ h, ih]
      simp only [bind_assoc, pure_bind, List.append_assoc]

/-- Items of a program with their blocks and the elements of their declared expressions, and with the same of what is
kept of them. -/
structure Shows (o : Scope) (ns : List Node) (bs ds bs' ds' : List Element) : Prop where
  exports : topLevels o ns = .ok (bs, ds)
  blocks : topLevels o ((ns.map Node.kept).filter Node.hasBlock) = .ok (bs', [])
  declared : topLevels o ((ns.map Node.kept).filter Node.isExpressionDeclaration) = .ok ([], ds')
  size_le : sizes bs' + sizes ds' ≤ sizes bs + sizes ds
  noLocalCalls : sizes bs + sizes ds ≤ sizes bs' + sizes ds' → ∀ n ∈ ns, n.NoLocalCalls
  same : (∀ n ∈ ns, n.NoLocalCalls) → (∀ n ∈ ns, n.losesFormat = false) → bs' = bs ∧ ds' = ds
  reads : ∀ gs, List.Forall₂ (Related Attributes.Alike) bs gs → List.Forall₂ Import.Reads (ns.filter Node.hasBlock) gs
  declares : ∀ gs, List.Forall₂ (Related Attributes.Alike) ds gs →
    List.Forall₂ Import.Declares (ns.filter Node.isExpressionDeclaration) gs

/-- The head of a handler keeps its element. -/
theorem eventHead_kept (head : EventHead) (d : EventDefinition) : eventHead head.kept d = eventHead head d := by
  have hfilter : head.kept.filter.getD "" = head.filter.getD "" := Text.getD_filled head.filter
  rw [eventHead, eventHead, hfilter]
  rfl

/-- The head of a declared instruction does so if its texts stay the same. -/
theorem instructionHead_kept {head : DeclarationHead} (h : head.kept.format = head.format) :
    instructionHead head.kept = instructionHead head := by
  unfold DeclarationHead.format at h
  rw [instructionHead, instructionHead]
  rw [h]
  rfl

theorem expressionDeclaration_kept {head : DeclarationHead} (h : head.kept.format = head.format) (e : Element) :
    expressionDeclaration head.kept e = expressionDeclaration head e := by
  unfold DeclarationHead.format at h
  rw [expressionDeclaration, expressionDeclaration]
  rw [h]
  exact positioned_filled

namespace Shows

variable {o : Scope} {n : Node} {ns ms : List Node} {bs ds bs' ds' cs es cs' es' : List Element} {e f : Element}

/-- No items have no elements. -/
theorem nil : Shows o [] [] [] [] [] where
  exports := rfl
  blocks := rfl
  declared := rfl
  size_le := Nat.le_refl _
  noLocalCalls := by simp
  same _ _ := ⟨rfl, rfl⟩
  reads _ h := by
    cases h
    exact .nil
  declares _ h := by
    cases h
    exact .nil

/-- Items in a row show the elements of both, part by part. -/
theorem append (h : Shows o ns bs ds bs' ds') (h' : Shows o ms cs es cs' es') :
    Shows o (ns ++ ms) (bs ++ cs) (ds ++ es) (bs' ++ cs') (ds' ++ es') where
  exports := by rw [topLevels_append, h.exports, h'.exports]; rfl
  blocks := by rw [List.map_append, List.filter_append, topLevels_append, h.blocks, h'.blocks]; rfl
  declared := by rw [List.map_append, List.filter_append, topLevels_append, h.declared, h'.declared]; rfl
  size_le := by
    have hle := h.size_le
    have hle' := h'.size_le
    simp only [Element.sizes_append]
    omega
  noLocalCalls hsize := by
    have hle := h.size_le
    have hle' := h'.size_le
    simp only [Element.sizes_append] at hsize
    exact List.forall_mem_append.mpr ⟨h.noLocalCalls (by omega), h'.noLocalCalls (by omega)⟩
  same hcalls hformats := by
    rw [List.forall_mem_append] at hcalls hformats
    obtain ⟨rfl, rfl⟩ := h.same hcalls.1 hformats.1
    obtain ⟨rfl, rfl⟩ := h'.same hcalls.2 hformats.2
    exact ⟨rfl, rfl⟩
  reads gs hgs := by
    obtain ⟨us, vs, rfl, hleft, hright⟩ := exists_append_of_forall₂ hgs
    rw [List.filter_append]
    exact List.rel_append (h.reads us hleft) (h'.reads vs hright)
  declares gs hgs := by
    obtain ⟨us, vs, rfl, hleft, hright⟩ := exists_append_of_forall₂ hgs
    rw [List.filter_append]
    exact List.rel_append (h.declares us hleft) (h'.declares vs hright)

/-- Statements of their own, if there are none. -/
theorem of_empty {pos : Option String} {loc : Option Span} : Shows o [.detached pos [] loc] [] [] [] [] where
  exports := rfl
  blocks := rfl
  declared := rfl
  size_le := Nat.le_refl _
  noLocalCalls _ := List.forall_mem_singleton.mpr (Node.everywhere_detached.mpr ⟨rfl, by simp⟩)
  same _ _ := ⟨rfl, rfl⟩
  reads _ h := by
    cases h
    exact .nil
  declares _ h := by
    cases h
    exact .nil

/-- An item with a block. -/
theorem of_block (hn : n.hasBlock = true) (he : topLevel o n = .ok (some e)) (hf : topLevel o n.kept = .ok (some f))
    (hle : f.size ≤ e.size) (hcalls : e.size ≤ f.size → n.NoLocalCalls)
    (hsame : n.NoLocalCalls → n.losesFormat = false → f = e)
    (hreads : ∀ g, Related Attributes.Alike e g → Import.Reads n g) : Shows o [n] [e] [] [f] [] := by
  have hother : n.isExpressionDeclaration = false := by
    cases n <;> first | rfl | cases hn
  have hexports : ∀ {n : Node} {e : Element}, n.isExpressionDeclaration = false → topLevel o n = .ok (some e) →
      topLevels o [n] = .ok ([e], []) := by
    intro n e hn he
    rw [topLevels_cons o [] (by rintro head value rfl; cases hn), he]
    rfl
  exact {
    exports := hexports hother he
    blocks := by
      rw [List.map_singleton, List.filter_singleton, Node.hasBlock_kept, hn]
      exact hexports ((Node.isExpressionDeclaration_kept n).trans hother) hf
    declared := by
      rw [List.map_singleton, List.filter_singleton, Node.isExpressionDeclaration_kept, hother]
      rfl
    size_le := by simpa using hle
    noLocalCalls := by simpa using hcalls
    same := by simpa using hsame
    reads := by
      intro gs hgs
      obtain ⟨g, _, hg, hnil, rfl⟩ := List.forall₂_cons_left_iff.mp hgs
      cases hnil
      rw [List.filter_singleton, hn]
      exact .cons (hreads g hg) .nil
    declares := by
      intro gs hgs
      cases hgs
      rw [List.filter_singleton, hother]
      exact .nil }

/-- An item whose block holds these elements. -/
theorem of_elements {pos pos' : Option String} {c c' : Element} (hn : n.hasBlock = true)
    (he : topLevel o n = .ok (some (block pos (c :: es)))) (hf : topLevel o n.kept = .ok (some (block pos' (c' :: es'))))
    (hunplaced : c.Unplaced) (hle : sizes (c' :: es') ≤ sizes (c :: es))
    (hcalls : sizes (c :: es) ≤ sizes (c' :: es') → n.NoLocalCalls)
    (hsame : n.NoLocalCalls → n.losesFormat = false → block pos' (c' :: es') = block pos (c :: es))
    (hreads : ∀ g d gs, g.children = .element d :: gs.map Child.element → c.Likewise d →
      d.attr? "pos" = Text.filled pos → List.Forall₂ Element.Likewise es gs →
      Import.block g = .ok (some n.kept) ∧ g.instructionFormat? = n.instructionHead?.map DeclarationHead.format) :
    Shows o [n] [block pos (c :: es)] [] [block pos' (c' :: es')] [] := by
  refine .of_block hn he hf (by simpa using hle) (by simpa using hcalls) hsame fun g hg => ?_
  obtain ⟨hname, d, gs, hchildren, hd, hpos, hgs⟩ := exists_of_related_block hg hunplaced
  obtain ⟨htree, hformat⟩ := hreads g d gs hchildren hd hpos hgs
  exact ⟨hname, htree, hformat⟩

/-- A declared expression. -/
theorem of_declared {head : DeclarationHead} {value : Node}
    (he : expression o value = .ok e) (hf : expression o value.kept = .ok f)
    (hle : f.size ≤ e.size)
    (hcalls : e.size ≤ f.size → value.NoLocalCalls) (hsame : value.NoLocalCalls → f = e)
    (hreads : ∀ g, Related Attributes.Alike (expressionDeclaration head e) g →
      Import.Declares (.expressionDeclaration head value) g) :
    Shows o [.expressionDeclaration head value] [] [expressionDeclaration head e] []
      [expressionDeclaration head.kept f] := by
  have hsize : ∀ (head : DeclarationHead) (e : Element), (expressionDeclaration head e).size = 1 + e.size := by
    intro head e
    rw [expressionDeclaration, size_positioned]
    simp
  exact {
    exports := by
      rw [topLevels, he]
      rfl
    blocks := rfl
    declared := by
      rw [List.map_singleton, Node.kept]
      show topLevels o [.expressionDeclaration head.kept value.kept] = _
      rw [topLevels, hf]
      rfl
    size_le := by simpa [hsize] using hle
    noLocalCalls := by
      intro hle
      have hvalue := hcalls (by simpa [hsize] using hle)
      exact List.forall_mem_singleton.mpr (Node.everywhere_expressionDeclaration.mpr ⟨rfl, hvalue⟩)
    same := by
      intro hnone hformats
      rw [List.forall_mem_singleton] at hnone hformats
      have hformat : head.kept.format = head.format := by simpa [Node.losesFormat] using hformats
      refine ⟨rfl, ?_⟩
      rw [hsame (Node.everywhere_expressionDeclaration.mp hnone).2, expressionDeclaration_kept hformat]
    reads := by
      intro gs hgs
      cases hgs
      exact .nil
    declares := by
      intro gs hgs
      obtain ⟨g, _, hg, hnil, rfl⟩ := List.forall₂_cons_left_iff.mp hgs
      cases hnil
      exact .cons (hreads g hg) .nil }

end Shows

end Export

namespace Grammar

open Element (sizes)
open Export (Shows)

variable {s : Scope} {n : Node} {ns : List Node}

theorem Statement.kept_ne_error (h : Grammar.settled.Statement s n) (message : Option String) :
    n.kept ≠ .error message none := by
  cases h <;> exact nofun

/-- An item that has a head before its statements shows its elements, if the head does. -/
theorem Statement.exists_shows_headed {s' : Scope} {body : List Node} (pos : Option String) {c c' : Element}
    (hb : ∀ m ∈ body, Grammar.settled.Statement s' m) (hbody : Node.complaintsAll s' body = [])
    (ho : s.globals = s'.globals) (hs : s.globals.Declared) (hn : n.hasBlock = true)
    (he : ∀ es, Export.statements s body = .ok es → Export.topLevel s n = .ok (some (Export.block pos (c :: es))))
    (hf : ∀ fs, Export.statements s (body.map Node.kept) = .ok fs →
      Export.topLevel s n.kept = .ok (some (Export.block (Text.filled pos) (c' :: fs))))
    (hunplaced : c.Unplaced) (hsize : c'.size = c.size) (hcalls : n.NoLocalCalls ↔ ∀ m ∈ body, m.NoLocalCalls)
    (hsame : n.losesFormat = false → c' = c)
    (hreads : ∀ (g d : Element) (gs : List Element), g.children = .element d :: gs.map Child.element → c.Likewise d →
      d.attr? "pos" = Text.filled pos → Import.statements (gs.map Child.element) = .ok (body.map Node.kept) →
      Import.block g = .ok (some n.kept) ∧ g.instructionFormat? = n.instructionHead?.map DeclarationHead.format) :
    ∃ bs ds bs' ds', Shows s [n] bs ds bs' ds' := by
  obtain ⟨es, fs, hes, hfs, htrims, hread⟩ := Statement.exists_elements hb hbody ho hs
  refine ⟨_, _, _, _, .of_elements hn (he es hes) (hf fs hfs) hunplaced ?_ ?_ ?_ ?_⟩
  · simpa [hsize] using htrims.size_le
  · intro hle
    exact hcalls.mpr (htrims.noLocalCalls (by simpa [hsize] using hle))
  · intro hnone hformat
    rw [Statement.elements_eq hb (hcalls.mp hnone) hes hfs, hsame hformat]
    exact Export.block_filled
  · exact fun g d gs hg hd hpos hgs => hreads g d gs hg hd hpos (hread gs hgs)

/-- Statements of their own show their elements. None of them is read as a head. -/
theorem Statement.exists_shows_detached {body : List Node} {pos : Option String} {loc : Option Span}
    (hb : ∀ m ∈ body, Grammar.settled.Statement s m) (hbody : Node.complaintsAll s body = [])
    (hs : s.globals.Declared) : ∃ bs ds bs' ds', Shows s [.detached pos body loc] bs ds bs' ds' := by
  obtain ⟨es, fs, hes, hfs, htrims, hread⟩ := Statement.exists_elements hb hbody rfl hs
  have hlength := htrims.likewise.length_eq
  cases body with
  | nil => exact ⟨_, _, _, _, .of_empty⟩
  | cons m ms =>
      obtain ⟨hm, _⟩ := List.forall_mem_cons.mp hb
      cases es with
      | nil =>
          have hnone := hread [] .nil
          rw [List.map_nil, Import.statements] at hnone
          cases hnone
      | cons e es =>
          obtain ⟨f, fs, rfl⟩ := List.exists_cons_of_length_eq_add_one hlength.symm
          have he : Export.topLevel s (.detached pos (m :: ms) loc) = .ok (some (Export.block pos (e :: es))) := by
            rw [Export.topLevel, hes]
            rfl
          have hf : Export.topLevel s (Node.detached pos (m :: ms) loc).kept =
              .ok (some (Export.block (Text.filled pos) (f :: fs))) := by
            rw [Node.kept, Node.keptAll_eq_map, Export.topLevel, hfs]
            rfl
          have hunplaced := (Export.unplaced_statements hs (m :: ms)).of_ok hes e List.mem_cons_self
          refine ⟨_, _, _, _, .of_elements rfl he hf hunplaced htrims.size_le ?_ ?_ ?_⟩
          · exact fun hsize => Node.everywhere_detached.mpr ⟨rfl, htrims.noLocalCalls hsize⟩
          · intro hcalls _
            rw [Statement.elements_eq hb (Node.everywhere_detached.mp hcalls).2 hes hfs]
            exact Export.block_filled
          · intro g c gs hg hc hpos hgs
            have hall := hread (c :: gs) (.cons hc hgs)
            obtain ⟨hevent, hinstruction⟩ := Import.name_ne_of_statements hall hm.kept_ne_error
            rw [List.map_cons, ← hg] at hall
            refine ⟨?_, ?_⟩
            · rw [Import.block_detached hg hevent hinstruction hall, hpos, Node.filled_filled, Node.kept,
                Node.keptAll_eq_map]
            · simp [Element.instructionFormat?, Import.first?_eq hg, hinstruction, Node.instructionHead?]

/-- **An item of a program and its elements.** -/
theorem Item.exists_shows (h : Grammar.settled.Item s n) (hn : n.complaints s = []) (hs : s.globals.Declared) :
    ∃ bs ds bs' ds', Shows s [n] bs ds bs' ds' := by
  cases h with
  | @event head body hh hb =>
      rw [Node.complaints, List.append_eq_nil_iff] at hn
      obtain ⟨d, hd⟩ := Option.isSome_iff_exists.mp hh.event
      have hkept := Export.eventHead_kept head d
      refine Statement.exists_shows_headed head.pos hb hn.2 rfl hs rfl ?_ ?_
        (Export.unplaced_eventHead head d) (congrArg Element.size hkept)
        (Node.everywhere_event.trans (and_iff_right rfl)) (fun _ => hkept) ?_
      · intro es hes
        rw [Export.topLevel, hd, hes]
        rfl
      · intro fs hfs
        rw [Node.kept, Node.keptAll_eq_map, Export.topLevel, show Catalog.event? head.kept.event = some d from hd, hfs]
        rfl
      · intro g c gs hg hc hpos hgs
        have hname : c.name = "Event" := hc.name_eq
        refine ⟨?_, ?_⟩
        · rw [Import.block_event hg hname hgs, Import.eventHead_eq hh hd hc hpos, Node.kept, Node.keptAll_eq_map]
        · simp [Element.instructionFormat?, Import.first?_eq hg, hname, Node.instructionHead?]
  | @instructionDeclaration head body _ hb =>
      have hsize : (Export.instructionHead head.kept).size = (Export.instructionHead head).size := by
        simp [Export.instructionHead]
      refine Statement.exists_shows_headed head.pos hb hn rfl hs rfl ?_ ?_
        (Export.unplaced_instructionHead head) hsize
        (Node.everywhere_instructionDeclaration.trans (and_iff_right rfl)) ?_ ?_
      · intro es hes
        rw [Export.topLevel, hes]
        rfl
      · intro fs hfs
        rw [Node.kept, Node.keptAll_eq_map, Export.topLevel, hfs]
        rfl
      · intro hformat
        exact Export.instructionHead_kept (by simpa [Node.losesFormat] using hformat)
      · intro g c gs hg hc hpos hgs
        have hname : c.name = "CustomInstruction" := hc.name_eq
        have hshows := Import.showsHead_instructionHead hc hpos
        refine ⟨?_, ?_⟩
        · rw [Import.block_instruction hg hname hgs, hshows.declarationHead_eq (by simp), Node.kept,
            Node.keptAll_eq_map]
        · simp [Element.instructionFormat?, Import.first?_eq hg, hname, Node.instructionHead?, hshows.callFormat_eq]
  | @expressionDeclaration head value _ hv =>
      obtain ⟨e, f, he, hf, htrims, hread⟩ := @Expression.exists_element _ s _ hv hn rfl hs
      have hunplaced := (Export.unplaced_expression hs value).of_ok he
      refine ⟨_, _, _, _, .of_declared he hf ?_ ?_ ?_ ?_⟩
      · simpa using htrims.size_le
      · simpa using htrims.noLocalCalls
      · exact fun hcalls => hv.element_eq hcalls he hf
      · intro g hg
        obtain ⟨hname, hshows, gs, hgs, hvalue⟩ := Import.exists_of_related_expressionDeclaration hunplaced hg
        refine ⟨hname, ?_, ?_⟩
        · rw [hgs, hshows.declarationHead_eq (by decide)]
          exact ⟨value.kept, hread gs hvalue, rfl⟩
        · rw [hshows.callFormat_eq]
          rfl
  | detached _ hb => exact Statement.exists_shows_detached hb hn hs

/-- **The items of a program and their elements.** -/
theorem Item.exists_shows_all (h : ∀ n ∈ ns, Grammar.settled.Item s n) (hn : ∀ n ∈ ns, n.complaints s = [])
    (hs : s.globals.Declared) : ∃ bs ds bs' ds', Shows s ns bs ds bs' ds' := by
  induction ns with
  | nil => exact ⟨_, _, _, _, .nil⟩
  | cons n ns ih =>
      obtain ⟨_, _, _, _, hshows⟩ := (h n List.mem_cons_self).exists_shows (hn n List.mem_cons_self) hs
      obtain ⟨_, _, _, _, hrest⟩ := ih (fun m hm => h m (List.mem_cons_of_mem _ hm)) fun m hm =>
        hn m (List.mem_cons_of_mem _ hm)
      exact ⟨_, _, _, _, hshows.append hrest⟩

end Grammar

/-! ## Programs

A document has the variables, then the blocks, then the declared expressions. -/

namespace Node

/-- The heads of the instructions that a program declares. -/
def instructionHeads : Node → List DeclarationHead
  | program _ _ body _ => body.filterMap instructionHead?
  | _ => []

/-- The heads of the expressions that a program declares. -/
def expressionHeads : Node → List DeclarationHead
  | program _ _ body _ => body.filterMap expressionHead?
  | _ => []

/-- The order of a document has the items with blocks first and the declared expressions behind them. -/
theorem inOrder_map_kept (body : List Node) :
    inOrder (body.map kept) = (body.filter hasBlock).map kept ++ (body.filter isExpressionDeclaration).map kept := by
  have hblock : hasBlock ∘ kept = hasBlock := funext hasBlock_kept
  have hexpression : isExpressionDeclaration ∘ kept = isExpressionDeclaration := funext isExpressionDeclaration_kept
  rw [inOrder, List.filter_map, List.filter_map, hblock, hexpression]

theorem filterMap_instructionHead?_filter (body : List Node) :
    (body.filter hasBlock).filterMap instructionHead? = body.filterMap instructionHead? := by
  rw [List.filterMap_filter]
  refine List.filterMap_congr fun n _ => ?_
  cases n <;> simp [hasBlock, instructionHead?]

theorem filterMap_expressionHead?_filter (body : List Node) :
    (body.filter isExpressionDeclaration).filterMap expressionHead? = body.filterMap expressionHead? := by
  rw [List.filterMap_filter]
  refine List.filterMap_congr fun n _ => ?_
  cases n <;> simp [isExpressionDeclaration, expressionHead?]

end Node

namespace Element

/-- The texts of the instructions that a document declares. -/
def instructionFormats (g : Element) : List CallFormat :=
  (Import.elementsNamed "Instructions" (some g)).filterMap instructionFormat?

/-- The texts of the expressions that a document declares. -/
def expressionFormats (g : Element) : List CallFormat :=
  (Import.elementsNamed "CustomExpression" (g.named? "Expressions")).map callFormat

end Element

namespace Import

variable {ns : List Node} {g : Element} {gs : List Element}

theorem blocks_of_reads (h : List.Forall₂ Reads ns gs) : blocks gs = .ok (ns.map Node.kept) := by
  induction h with
  | nil => rfl
  | cons hn _ ih =>
      rw [blocks, hn.tree, ih]
      rfl

/-- Elements that are each read as a declared expression are read as all of them. -/
theorem expressionDeclarations_of_declares (h : List.Forall₂ Declares ns gs) :
    expressionDeclarations gs = .ok (ns.map Node.kept) := by
  induction h with
  | nil => rfl
  | cons hn _ ih =>
      obtain ⟨v, hv, hkept⟩ := hn.tree
      rw [expressionDeclarations, hv, ih, List.map_cons, hkept]
      rfl

theorem instructionFormats_of_reads (h : List.Forall₂ Reads ns gs) :
    gs.filterMap Element.instructionFormat? = (ns.filterMap Node.instructionHead?).map DeclarationHead.format := by
  induction h with
  | nil => rfl
  | @cons n g _ _ hn _ ih =>
      rw [List.filterMap_cons, List.filterMap_cons, hn.format]
      cases n.instructionHead? <;> simp [ih]

/-- The texts of the expressions in a document are those of their heads, with the mark of a value behind them. -/
theorem expressionFormats_of_declares (h : List.Forall₂ Declares ns gs) :
    gs.map Element.callFormat = (ns.filterMap Node.expressionHead?).map fun h => h.format.returning := by
  induction h with
  | nil => rfl
  | @cons n g _ _ hn _ ih =>
      obtain ⟨head, hhead, hformat⟩ := Option.map_eq_some_iff.mp hn.format
      rw [List.filterMap_cons, hhead, List.map_cons, List.map_cons, ih, hformat]

section Variables

attribute [local simp] Element.make Element.attr? NameMap.ofList NameMap.get?_insert_self NameMap.get?_insert_of_ne
  NameMap.get?_empty Export.variableElement

/-- What is read where a declared variable is written. -/
theorem variableDeclaration_eq {v : VariableDeclaration} (h : (Export.variableElement v).Likewise g) :
    g.name = "Variable" ∧ variableDeclaration g = v.clearMetadata := by
  obtain ⟨name, nameLoc, kind, loc⟩ := v
  have hname : g.attr? "name" = some name := by
    rw [h.attr?_eq (by decide) (by decide)]
    cases kind <;> simp
  have hnumber : (if (g.attr? "number").isSome then VariableKind.value else .list) = kind := by
    rw [h.attr?_eq (by decide) (by decide)]
    cases kind <;> simp
  refine ⟨?_, ?_⟩
  · rw [h.name_eq]
    cases kind <;> rfl
  · rw [variableDeclaration, hname, hnumber]
    rfl

theorem variableDeclarations_eq {vars : List VariableDeclaration}
    (h : List.Forall₂ (fun v w => w.name = "Variable" ∧ variableDeclaration w = v.clearMetadata) vars gs) :
    gs.map variableDeclaration = vars.map VariableDeclaration.clearMetadata := by
  induction h with
  | nil => rfl
  | cons hv _ ih => rw [List.map_cons, List.map_cons, hv.2, ih]

/-- An element is read as a program. -/
structure ReadsProgram (n : Node) (g : Element) : Prop where
  root : g.name = "Program"
  tree : program g = .ok n.kept
  instructions : g.instructionFormats = n.instructionHeads.map DeclarationHead.format
  expressions : g.expressionFormats = n.expressionHeads.map fun h => h.format.returning

/-- **The element of a program is read as the program**, whatever ids and positions it was given: its variables,
then the items of its blocks, then its declared expressions. The parts of the element are found by their names,
in the order in which the writer puts them, and each of them is read as the items that it shows. -/
theorem readsProgram_of_related {o : Scope} {name : String} {vars : List VariableDeclaration} {body : List Node}
    {loc : Option Span} {bs ds bs' ds' : List Element} (hshows : Export.Shows o body bs ds bs' ds')
    (hg : Element.Related Attributes.Alike (.make "Program" [("name", name)]
      (.make "Variables" [] (vars.map Export.variableElement) :: bs ++ [.make "Expressions" [] ds])) g) :
    ReadsProgram (.program name vars body loc) g := by
  obtain ⟨hname, hattributes, gs, hgs, hes⟩ := @Element.Related.inv _ _ _ hg _ rfl
  obtain ⟨us, xs, rfl, hus, hxs⟩ := exists_append_of_forall₂ hes
  obtain ⟨v, cs, hv, hcs, rfl⟩ := List.forall₂_cons_left_iff.mp hus
  obtain ⟨x, _, hx, hnil, rfl⟩ := List.forall₂_cons_left_iff.mp hxs
  cases hnil
  obtain ⟨hvname, _, ws, hws, hvars⟩ := @Element.Related.inv _ _ _ hv _ rfl
  obtain ⟨hxname, _, ys, hys, hds⟩ := @Element.Related.inv _ _ _ hx _ rfl
  rw [List.forall₂_map_left_iff] at hvars
  have hvars := hvars.imp fun v w hw => variableDeclaration_eq (Element.Related.likewise hw)
  have hreads := hshows.reads cs hcs
  have hdeclares := hshows.declares ys hds
  have helements : g.elements = v :: cs ++ [x] := Element.elements_eq hgs
  -- the blocks stand between the variables and the declared expressions, and the names tell them apart
  have hblocks : elementsNamed "Instructions" (some g) = cs := by
    have hfilter : cs.filter (fun c => c.name == "Instructions") = cs :=
      List.filter_eq_self.mpr (forall_right_of_forall₂ hreads fun _ _ h => by simp [h.name])
    show g.elements.filter _ = cs
    rw [helements]
    simp [hvname, hxname, hfilter, Element.make]
  have hvariables : g.named? "Variables" = some v := by
    rw [Element.named?, helements]
    simp [hvname, Element.make]
  have hexpressions : g.named? "Expressions" = some x := by
    have hnone : cs.find? (fun c => c.name == "Expressions") = none :=
      List.find?_eq_none.mpr (forall_right_of_forall₂ hreads fun _ _ h => by simp [h.name])
    rw [Element.named?, helements]
    simp [hvname, hxname, hnone, Element.make]
  have hnamed : elementsNamed "Variable" (some v) = ws := by
    show v.elements.filter _ = ws
    rw [Element.elements_eq hws]
    exact List.filter_eq_self.mpr (forall_right_of_forall₂ hvars fun _ _ h => by simp [h.1])
  have hdeclared : elementsNamed "CustomExpression" (some x) = ys := by
    show x.elements.filter _ = ys
    rw [Element.elements_eq hys]
    exact List.filter_eq_self.mpr (forall_right_of_forall₂ hdeclares fun _ _ h => by simp [h.name])
  exact {
    root := hname
    tree := by
      have hprogram : g.attr? "name" = some name := (hattributes "name" (by decide)).symm.trans (by simp)
      rw [program, hblocks, blocks_of_reads hreads, hexpressions, hdeclared,
        expressionDeclarations_of_declares hdeclares, hvariables, hnamed, variableDeclarations_eq hvars, hprogram,
        Node.kept, Node.keptAll_eq_map, Node.inOrder_map_kept]
      rfl
    instructions := by
      rw [Element.instructionFormats, hblocks, instructionFormats_of_reads hreads,
        Node.filterMap_instructionHead?_filter]
      rfl
    expressions := by
      rw [Element.expressionFormats, hexpressions, hdeclared, expressionFormats_of_declares hdeclares,
        Node.filterMap_expressionHead?_filter]
      rfl }

end Variables

end Import

namespace Grammar

open Export (Shows)
variable {name : String} {vars : List VariableDeclaration} {body : List Node} {loc : Option Span}

/-- **The element of a program and of what is kept of it.** -/
theorem Program.exists_elements (hb : ∀ n ∈ body, Grammar.settled.Item (scopeOf vars body) n)
    (hn : (Node.program name vars body loc).problems = []) : ∃ e f,
      Export.root (scopeOf vars body) (.program name vars body loc) = .ok e ∧
      Export.root (scopeOf vars body) (Node.program name vars body loc).kept = .ok f ∧
      (e.size ≤ f.size → (Node.program name vars body loc).NoLocalCalls) ∧
      ((Node.program name vars body loc).NoLocalCalls → (∀ n ∈ body, n.losesFormat = false) → f = e) ∧
      ∀ g, Element.Related Attributes.Alike e g → Import.ReadsProgram (.program name vars body loc) g := by
  rw [Program.problems_eq hb, List.flatMap_eq_nil_iff] at hn
  obtain ⟨bs, ds, bs', ds', hshows⟩ := Item.exists_shows_all hb hn (Globals.declared_ofProgram vars body)
  -- in a document the blocks stand before the declared expressions, whatever their order in the program
  have hkept : Export.topLevels (scopeOf vars body) (Node.inOrder (body.map Node.kept)) = .ok (bs', ds') := by
    rw [Node.inOrder, Export.topLevels_append, hshows.blocks, hshows.declared]
    show Except.ok (bs' ++ [], ds') = _
    rw [List.append_nil]
  have hvars : (vars.map VariableDeclaration.clearMetadata).map Export.variableElement =
      vars.map Export.variableElement := by
    rw [List.map_map]
    rfl
  refine ⟨.make "Program" [("name", name)]
      (.make "Variables" [] (vars.map Export.variableElement) :: bs ++ [.make "Expressions" [] ds]),
    .make "Program" [("name", name)]
      (.make "Variables" [] (vars.map Export.variableElement) :: bs' ++ [.make "Expressions" [] ds']),
    ?_, ?_, ?_, ?_, ?_⟩
  · rw [Export.root, Export.program, hshows.exports]
    rfl
  · rw [Node.kept, Node.keptAll_eq_map, Export.root, Export.program, hkept, hvars]
    rfl
  · intro hsize
    refine Node.everywhere_program.mpr ⟨rfl, hshows.noLocalCalls ?_⟩
    simp only [Element.size_make, Element.sizes_append, Element.sizes_cons, Element.sizes_nil, List.cons_append] at hsize
    omega
  · intro hcalls hformats
    obtain ⟨rfl, rfl⟩ := hshows.same (Node.everywhere_program.mp hcalls).2 hformats
    rfl
  · exact fun g hg => Import.readsProgram_of_related hshows hg

/-- **What the document of a program says**: the tree that it stands for is what is kept of the program. The element
that is read differs from the exported one in ids and places only, and its size tells whether arguments of local names
were left out. -/
theorem Program.exists_of_document {n : Node} (h : Grammar.settled.Program n) (hn : n.problems = [])
    {document : String} (hdocument : n.documentText = .ok document) {g : Element} (hg : Markup.read document = some g) :
    ∃ e f, Export.root { globals := .ofNode n } n = .ok e ∧ Export.root { globals := .ofNode n } n.kept = .ok f ∧
      g.size = e.size ∧ (e.size ≤ f.size → n.NoLocalCalls) ∧ (n.NoLocalCalls → n.KeepsFormats → f = e) ∧
      Import.ReadsProgram n g := by
  have htext := h.documentText_eq
  cases h with
  | @program name vars body loc hb =>
      obtain ⟨e, f, he, hf, hcalls, hsame, hreads⟩ := Program.exists_elements hb hn
      rw [hdocument, show Export.root { globals := .ofNode (.program name vars body loc) } _ = _ from he] at htext
      obtain rfl : document = _ := Option.some.inj htext
      have hplain := (Export.plain_root (Globals.declared_ofProgram vars body) _).of_ok he
      have hrelated := related_of_read_write hplain hg
      exact ⟨e, f, he, hf, hrelated.size_eq.symm, hcalls,
        fun hcalls hformats => hsame hcalls ((Program.keepsFormats_iff hb).mp hformats), hreads g hrelated⟩

end Grammar

/-- The text of a document that is read as a program. -/
theorem textOfDocument_eq {document : String} {g : Element} (hg : Markup.read document = some g) {n : Node}
    (hn : Import.ReadsProgram n g) : textOfDocument document = .ok n.kept.text := by
  have htree : g.tree = .ok (some n.kept) := by
    rw [Element.tree, if_pos hn.root, hn.tree]
    rfl
  rw [textOfDocument, rootOfDocument_eq, hg]
  change (g.tree >>= _) = _
  rw [htree]
  rfl

/-- A document that becomes a text was read, and its text is that of every program it is read as. -/
theorem exists_of_textOfDocument {document text : String} (h : textOfDocument document = .ok text) :
    ∃ g, Markup.read document = some g ∧ ∀ n, Import.ReadsProgram n g → text = n.kept.text := by
  cases hg : Markup.read document with
  | none =>
      rw [textOfDocument, rootOfDocument_eq, hg] at h
      cases h
  | some g => exact ⟨g, rfl, fun n hn => Except.ok.inj (h.symm.trans (textOfDocument_eq hg hn))⟩

/-- A document that is written is the document of an element. -/
theorem Node.exists_document {n : Node} {document : String} (h : n.documentText = .ok document) :
    ∃ d, n.document = .ok d ∧ document = Markup.write d := by
  rw [documentText] at h
  cases hd : n.document with
  | error =>
      rw [hd] at h
      cases h
  | ok d =>
      rw [hd] at h
      exact ⟨d, rfl, (Except.ok.inj h).symm⟩

/-- **The document of a program becomes a text**, the text of what is kept of the program, if it has no characters that
documents may not hold. -/
theorem Grammar.Program.textOfDocument_write {n : Node} (h : Grammar.settled.Program n) (hn : n.problems = [])
    {d : Element} (hd : n.document = .ok d) (hallowed : ∀ q ∈ Markup.tags d, q.Allowed) :
    textOfDocument (Markup.write d) = .ok n.kept.text := by
  have hdocument : n.documentText = .ok (Markup.write d) := by
    rw [Node.documentText, hd]
    rfl
  obtain ⟨g, hg, _⟩ := (Markup.read_write (Node.plain_document hd)).1 hallowed
  obtain ⟨_, _, _, _, _, _, _, hreads⟩ := h.exists_of_document hn hdocument hg
  exact textOfDocument_eq hg hreads

end FlightScript
