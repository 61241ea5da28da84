import FlightScript.Proofs.ImportExport
import FlightScript.Proofs.Markup

/-!
# `Proofs.Likeness` — what the importer does not look at

Reading expressions and statements out of elements looks at no id, at no position and at no place in the document, and
it does not look inside a variable. So elements that differ in nothing else are read alike: the elements of a program
before and after their ids are given, with and without a position, and with and without arguments of a local name.

## Contents

* `Attributes.Likewise`, `Element.Likewise`: differences that are not looked at;
* `Import.ReadAlike`: children of elements that are read alike, as expressions and as statements;
* `Import.ReadAlike.of_forall₂`: so are elements without other differences.
-/

namespace FlightScript

/-- The same attributes, ids and positions apart. -/
def Attributes.Likewise (a b : Attributes) : Prop := ∀ key, key ≠ "id" → key ≠ "pos" → a.get? key = b.get? key

/-- The same elements, but for ids, positions and places, and what stands inside variables. -/
inductive Element.Likewise : Element → Element → Prop where
  | intro {name : String} {a b : Attributes} {es fs : List Element} {s t : Span} : a.Likewise b →
      (name ≠ "Variable" → es.length = fs.length) → (name ≠ "Variable" → ∀ p ∈ es.zip fs, Likewise p.1 p.2) →
      Likewise ⟨name, a, es.map Child.element, s⟩ ⟨name, b, fs.map Child.element, t⟩

namespace Import

/-! ## Parts

Parts are read before their element is, so it is enough that they become the same. -/

/-- Parts with the same name that become the same. -/
structure Part.Likewise (p q : Part) : Prop where
  name : p.name = q.name
  node : p.node.toOption = q.node.toOption

namespace Part

variable {ps qs : List Part}

theorem first_congr (h : List.Forall₂ Part.Likewise ps qs) : (first ps).toOption = (first qs).toOption := by
  cases h with
  | nil => rfl
  | cons hp _ => exact hp.node

theorem at?_congr (h : List.Forall₂ Part.Likewise ps qs) (i : Nat) : (at? ps i).toOption = (at? qs i).toOption :=
  first_congr (List.forall₂_drop i h)

theorem all_congr (h : List.Forall₂ Part.Likewise ps qs) : (all ps).toOption = (all qs).toOption := by
  induction h with
  | nil => rfl
  | cons hp _ ih => simp only [all, toOption_bind, hp.node, ih]

theorem arguments_congr (h : List.Forall₂ Part.Likewise ps qs) : (arguments ps).toOption = (arguments qs).toOption := by
  refine all_congr ?_
  induction h with
  | nil => exact .nil
  | @cons p q _ _ hp _ ih =>
      rw [List.filter_cons, List.filter_cons, hp.name]
      split
      · exact .cons hp ih
      · exact ih

end Part

/-! ## Single elements

An element is read by its name, its attributes and its parts. Ids and positions are never asked for. -/

section Attributes

variable {a b : Attributes} (h : a.Likewise b)

include h

theorem expressionOf_attributes (name : String) (span : Span) (parts : List Part) :
    expressionOf name a span parts = expressionOf name b span parts := by
  have hget : ∀ key, key ≠ "id" → key ≠ "pos" → a.get? key = b.get? key := h
  unfold expressionOf
  split <;> simp (disch := decide) only [constant, textOf, stringOperation, required, hget]
  rfl

/-- A statement is read from an element whatever its id and its position are. -/
theorem simpleStatement_attributes (name : String) (children : List (Child Element)) (parts : List Part) :
    simpleStatement name a children parts = simpleStatement name b children parts := by
  have hget : ∀ key, key ≠ "id" → key ≠ "pos" → a.get? key = b.get? key := h
  have hname : instructionName? name a = instructionName? name b := by
    unfold instructionName?
    dsimp only
    split <;> simp (disch := decide) only [hget]
  unfold simpleStatement
  rw [hname]
  split <;> simp (disch := decide) only [textOf, hget]

end Attributes

/-- An expression is read from parts that become the same, wherever the element stands. A variable is read from
its attributes alone. -/
theorem expressionOf_parts (name : String) (a : Attributes) (s t : Span) {ps qs : List Part}
    (h : name ≠ "Variable" → List.Forall₂ Part.Likewise ps qs) :
    (expressionOf name a s ps).toOption = (expressionOf name a t qs).toOption := by
  by_cases hname : name = "Variable"
  · rw [hname]
    rfl
  · have hparts := h hname
    have hrequired : ∀ key element, (required key element a s).toOption = (required key element a t).toOption := by
      intro key element
      unfold required
      cases a.get? key <;> rfl
    unfold expressionOf
    split <;> first | rfl | simp only [binary, apply_ite Except.toOption, toOption_bind, Part.first_congr hparts,
      Part.all_congr hparts, Part.at?_congr hparts, hrequired]

/-- A statement is read from parts that become the same. A comment is read from the text in its first part, which
has to be the same. -/
theorem simpleStatement_parts (name : String) (a : Attributes) {xs ys : List (Child Element)} {ps qs : List Part}
    (h : name ≠ "Variable" → commentText xs = commentText ys ∧ List.Forall₂ Part.Likewise ps qs) :
    (simpleStatement name a xs ps).toOption = (simpleStatement name a ys qs).toOption := by
  by_cases hname : name = "Variable"
  · rw [hname]
    rfl
  · obtain ⟨hcomment, hparts⟩ := h hname
    unfold simpleStatement
    split
    case h_11 =>
      cases instructionName? name a with
      | none => rfl
      | some i => simp only [toOption_bind, Part.arguments_congr hparts]
    all_goals first | rfl | simp only [hcomment, toOption_bind, Part.first_congr hparts, Part.at?_congr hparts,
      Part.arguments_congr hparts]

theorem commentText_cons (e : Element) (xs : List (Child Element)) : commentText (.element e :: xs) =
    if e.name == "Constant" then (e.attr? "text").getD "" else commentText xs := by
  rw [commentText, show Element.elementsOf (.element e :: xs) = e :: Element.elementsOf xs from rfl, List.find?_cons]
  cases e.name == "Constant" <;> rfl

/-! ## Children of elements

A chain of conditions is read across several children, so children are compared as lists and not one by one. -/

/-- Children that are read alike, whatever they are read as. -/
structure ReadAlike (xs ys : List (Child Element)) : Prop where
  parts : List.Forall₂ Part.Likewise (Import.parts xs) (Import.parts ys)
  comment : commentText xs = commentText ys
  statements : (Import.statements xs).toOption = (Import.statements ys).toOption
  alternative : (Import.alternative xs).toOption = (Import.alternative ys).toOption
  body : (Import.body xs).toOption = (Import.body ys).toOption

namespace ReadAlike

variable {xs ys cs ds : List (Child Element)} {name : String} {a b : Attributes} {s t : Span}

theorem nil : ReadAlike [] [] where
  parts := .nil
  comment := rfl
  statements := rfl
  alternative := rfl
  body := rfl

/-- Elements whose children are read alike are read alike, in front of others that are. -/
theorem cons (hab : a.Likewise b) (hcs : name ≠ "Variable" → ReadAlike cs ds) (h : ReadAlike xs ys) :
    ReadAlike (.element ⟨name, a, cs, s⟩ :: xs) (.element ⟨name, b, ds, t⟩ :: ys) where
  parts := by
    rw [Import.parts, Import.parts]
    refine .cons ⟨rfl, ?_⟩ h.parts
    rw [expression, expression, expressionOf_attributes hab]
    exact expressionOf_parts name b s t fun hname => (hcs hname).parts
  comment := by
    have htext : a.get? "text" = b.get? "text" := hab "text" (by decide) (by decide)
    simp only [commentText_cons, Element.attr?, htext, h.comment]
  body := by
    rw [Import.body, Import.body]
    split
    · rename_i hname
      exact (hcs (by simp [hname])).statements
    · exact h.body
  alternative := by
    have hstyle : a.get? "style" = b.get? "style" := hab "style" (by decide) (by decide)
    rw [Import.alternative, Import.alternative, hstyle]
    split
    · rename_i hname
      have hcs := hcs (by simp [hname])
      split
      · exact hcs.body
      · simp only [toOption_bind, h.alternative, Part.first_congr hcs.parts, hcs.body]
    · rfl
  statements := by
    have hvar : a.get? "var" = b.get? "var" := hab "var" (by decide) (by decide)
    unfold Import.statements
    split
    · have hcs := hcs (by decide)
      simp only [toOption_bind, h.alternative, Part.first_congr hcs.parts, hcs.body, h.statements]
    · exact h.statements
    · have hcs := hcs (by decide)
      simp only [toOption_bind, Part.first_congr hcs.parts, hcs.body, h.statements]
    · have hcs := hcs (by decide)
      simp only [toOption_bind, Part.first_congr hcs.parts, hcs.body, h.statements]
    · have hcs := hcs (by decide)
      simp only [toOption_bind, Part.at?_congr hcs.parts, hcs.body, h.statements, hvar]
    · rw [simpleStatement_attributes hab]
      -- a variable is read without its children, so they need not be alike
      have hsimple := simpleStatement_parts name b fun hname => ⟨(hcs hname).comment, (hcs hname).parts⟩
      simp only [toOption_bind, hsimple, h.statements]

end ReadAlike

variable {e f : Element} {es fs : List Element}

/-- Elements without other differences are read alike, if what stands inside them is. -/
theorem ReadAlike.of_children (h : List.Forall₂ (fun e f => e.Likewise f ∧
      (e.name ≠ "Variable" → ReadAlike e.children f.children)) es fs) :
    ReadAlike (es.map Child.element) (fs.map Child.element) := by
  induction h with
  | nil => exact .nil
  | cons he _ ih =>
      obtain ⟨hlikewise, hchildren⟩ := he
      cases hlikewise with
      | intro hab _ _ => exact .cons hab hchildren ih

/-- What stands inside elements without other differences is read alike. -/
theorem ReadAlike.children (h : e.Likewise f) (hname : e.name ≠ "Variable") : ReadAlike e.children f.children := by
  induction h with
  | intro _ hlength hzip ih =>
      refine .of_children (List.forall₂_iff_zip.mpr ⟨hlength hname, fun hp => ?_⟩)
      exact ⟨hzip hname _ hp, ih hname _ hp⟩

/-- **Elements without other differences are read alike.** -/
theorem ReadAlike.of_forall₂ (h : List.Forall₂ Element.Likewise es fs) :
    ReadAlike (es.map Child.element) (fs.map Child.element) :=
  .of_children (h.imp fun _ _ he => ⟨he, .children he⟩)

end Import

end FlightScript
