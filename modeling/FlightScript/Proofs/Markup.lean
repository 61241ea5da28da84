import FlightScript.Markup.Reader
import FlightScript.Markup.Writer
import FlightScript.Proofs.CatalogImport
import Mathlib.Data.Option.Basic

/-!
# `Proofs.Markup` — reading what was written

A document that the writer gives is cut into the tags of its elements with white space between them, unless a value
holds a character that no document may hold; and the tags are put together to the same elements. Only elements
without text in them are looked at, as no others are exported.

## Contents

* `TakesIf`: what a step of reading takes off the front of a text, and when it fails;
* `tags`: the tags of an element, and `Cuts`: a text is cut into tags;
* `Element.Plain`: elements whose names need no qualifier;
* `Element.Related`: the same elements, but for places and perhaps attributes;
* `read_write`: reading what was written.
-/

namespace FlightScript

/-! ## The same elements

Elements that are read have the places of their own text, so they are compared by a relation and not by equality.
What it says of attributes is a parameter: equality here, and something weaker where a document was numbered. -/

namespace NameMap

variable {α : Type}

/-- A name that comes after all others is put at the end of the entries. -/
theorem insertEntry_append {name : String} (value : α) {es : List (String × α)} (h : ∀ e ∈ es, e.1 < name) :
    insertEntry name value es = es ++ [(name, value)] := by
  induction es with
  | nil => rfl
  | cons e es ih =>
      obtain ⟨he, hes⟩ := List.forall_mem_cons.mp h
      have hne : name ≠ e.1 := fun heq => String.lt_irrefl name (heq ▸ he)
      rw [insertEntry, if_neg (String.lt_asymm he), if_neg hne, ih hes]
      rfl

/-- The entries of a map make the map. -/
theorem ofList_entries (m : NameMap α) : ofList m.entries = m := by
  have hfold : ∀ (es ds : List (String × α)) (m : NameMap α), m.entries = ds →
      (ds ++ es).Pairwise (fun a b => a.1 < b.1) →
      (es.foldl (fun m e => m.insert e.1 e.2) m).entries = ds ++ es := by
    intro es
    induction es with
    | nil =>
        intro ds m hm _
        rw [List.foldl_nil, hm, List.append_nil]
    | cons e es ih =>
        intro ds m hm hsorted
        have hlt : ∀ d ∈ ds, d.1 < e.1 := fun d hd =>
          (List.pairwise_append.mp hsorted).2.2 d hd e List.mem_cons_self
        have hinsert : (m.insert e.1 e.2).entries = ds ++ [e] := by
          rw [← insertEntry_append e.2 hlt, ← hm]
          rfl
        rw [List.foldl_cons, ih (ds ++ [e]) _ hinsert (by simpa using hsorted), List.append_assoc]
        rfl
  exact ext_entries (hfold m.entries [] empty rfl m.sorted)

end NameMap

/-- The same elements in the same order, but for their places and what a relation allows of their attributes. -/
inductive Element.Related (R : Attributes → Attributes → Prop) : Element → Element → Prop where
  | intro {name : String} {a b : Attributes} {es fs : List Element} {s t : Span} : R a b → es.length = fs.length →
      (∀ p ∈ es.zip fs, Related R p.1 p.2) →
      Related R ⟨name, a, es.map Child.element, s⟩ ⟨name, b, fs.map Child.element, t⟩

theorem Element.Related.of_forall₂ {R : Attributes → Attributes → Prop} {name : String} {a b : Attributes}
    {es fs : List Element} {s t : Span} (hab : R a b) (h : List.Forall₂ (Element.Related R) es fs) :
    Element.Related R ⟨name, a, es.map Child.element, s⟩ ⟨name, b, fs.map Child.element, t⟩ :=
  .intro hab h.length_eq fun _ hp => (List.forall₂_iff_zip.mp h).2 hp

end FlightScript

namespace FlightScript.Markup

/-! ## Steps of reading

Reading may fail, and it does so exactly if a character stands in the text that no document may hold. `TakesIf`
carries this condition through a sequence of steps, so that success and failure are settled by one proof. -/

/-- A step of reading takes characters off the front of a text, leaving a rest, exactly under a condition. -/
structure TakesIf {α : Type} (ok : Prop) (m : Read α) (cs : List Char) (Q : α → Prop) (rest : List Char) : Prop where
  takes : ok → ∀ place, ∃ y i, m ⟨cs, place⟩ = some (y, i) ∧ Q y ∧ i.rest = rest
  fails : ¬ ok → ∀ place, m ⟨cs, place⟩ = none

section Steps

variable {α β : Type} {p q : Prop} {m : Read α} {cs mid rest : List Char} {Q : α → Prop} {R : β → Prop}

theorem Read.bind_eq (m : Read α) (f : α → Read β) (i : Input) : (m >>= f) i = (m i).bind fun r => f r.1 r.2 := rfl

/-- **The rule for sequences.** The second step begins where the first one ended, both conditions have to hold,
and if one of them fails then the whole reading does. -/
theorem TakesIf.bind {f : α → Read β} (hm : TakesIf p m cs Q mid) (hf : ∀ y, Q y → TakesIf q (f y) mid R rest) :
    TakesIf (p ∧ q) (m >>= f) cs R rest where
  takes := by
    rintro ⟨hp, hq⟩ place
    obtain ⟨y, ⟨r, l⟩, hy, hQ, rfl⟩ := hm.takes hp place
    obtain ⟨z, j, hz, hR, hrest⟩ := (hf y hQ).takes hq l
    refine ⟨z, j, ?_, hR, hrest⟩
    rw [Read.bind_eq, hy]
    exact hz
  fails := by
    intro hpq place
    rw [Read.bind_eq]
    by_cases hp : p
    · obtain ⟨y, ⟨r, l⟩, hy, hQ, rfl⟩ := hm.takes hp place
      rw [hy]
      exact (hf y hQ).fails (fun hq => hpq ⟨hp, hq⟩) l
    · rw [hm.fails hp place]
      rfl

theorem TakesIf.mono {Q' : α → Prop} (h : TakesIf p m cs Q rest) (hQ : ∀ y, Q y → Q' y) : TakesIf p m cs Q' rest where
  takes := by
    intro hp place
    obtain ⟨y, i, hy, hq, hrest⟩ := h.takes hp place
    exact ⟨y, i, hy, hQ y hq, hrest⟩
  fails := h.fails

theorem TakesIf.congr (h : TakesIf p m cs Q rest) (hpq : p ↔ q) : TakesIf q m cs Q rest where
  takes := fun hq => h.takes (hpq.mpr hq)
  fails := fun hq => h.fails fun hp => hq (hpq.mp hp)

/-- A step that takes something without a condition, in front of others. -/
theorem TakesIf.andThen {f : α → Read β} (hm : TakesIf True m cs Q mid) (hf : ∀ y, Q y → TakesIf q (f y) mid R rest) :
    TakesIf q (m >>= f) cs R rest :=
  (hm.bind hf).congr (iff_of_eq (true_and q))

/-- A step that always gives a result. -/
theorem TakesIf.of_eq {y : α} (h : ∀ place, ∃ i, m ⟨cs, place⟩ = some (y, i) ∧ i.rest = rest) :
    TakesIf True m cs (· = y) rest where
  takes := by
    intro _ place
    obtain ⟨i, hi, hrest⟩ := h place
    exact ⟨y, i, hi, rfl, hrest⟩
  fails := fun h => absurd trivial h

theorem takesIf_pure (y : α) : TakesIf True (pure y) cs (· = y) cs := .of_eq fun _ => ⟨_, rfl, rfl⟩

theorem takesIf_rest : TakesIf True Read.rest cs (· = cs) cs := .of_eq fun _ => ⟨_, rfl, rfl⟩

theorem takesIf_place : TakesIf True Read.place cs (fun _ => True) cs where
  takes := fun _ place => ⟨place, _, rfl, trivial, rfl⟩
  fails := fun h => absurd trivial h

/-- A check takes nothing and fails exactly if it does not hold. -/
theorem takesIf_guard (b : Bool) : TakesIf (b = true) (guard b : Read Unit) cs (fun _ => True) cs where
  takes := by
    intro hb place
    subst hb
    exact ⟨(), _, rfl, trivial, rfl⟩
  fails := by
    intro hb place
    rw [Bool.not_eq_true] at hb
    subst hb
    rfl

/-- A run takes all characters of its class, if what follows does not begin with one. -/
theorem takesIf_run {c : Char → Bool} {ds : List Char} (hds : ∀ d ∈ ds, c d = true)
    (hrest : rest.takeWhile c = []) : TakesIf True (Read.run c) (ds ++ rest) (· = ds) rest := by
  have htake : (ds ++ rest).takeWhile c = ds := by
    rw [List.takeWhile_append_of_pos hds, hrest, List.append_nil]
  refine .of_eq fun place => ?_
  rw [Read.run, htake]
  exact ⟨_, rfl, List.drop_left⟩

theorem takesIf_spaces (hrest : rest.takeWhile isSpace = []) : TakesIf True Read.spaces rest (fun _ => True) rest := by
  have hrun : TakesIf True (Read.run isSpace) ([] ++ rest) (· = []) rest := takesIf_run (by simp) hrest
  exact hrun.andThen fun _ _ => (takesIf_pure _).mono fun _ _ => trivial

theorem takesIf_exactly (text : String) : TakesIf True (Read.exactly text) (text.toList ++ rest) (fun _ => True) rest := by
  have htext : text.toList.isPrefixOf (text.toList ++ rest) = true :=
    List.isPrefixOf_iff_prefix.mpr (List.prefix_append _ _)
  have h : TakesIf True (Read.exactly text) (text.toList ++ rest) (· = ()) rest := by
    refine .of_eq fun place => ?_
    rw [Read.exactly, if_pos htext]
    exact ⟨_, rfl, List.drop_left⟩
  exact h.mono fun _ _ => trivial

/-! ## Names, values and tags

One lemma for each part of a tag, from names to whole tags. The budget of a reading is a bound on the number of
attributes, so it only has to be large enough. -/

/-- A name without a qualifier. -/
def isPlainName (name : String) : Bool :=
  startsName name.toList && name.toList.all isNamePart && !name.toList.contains ':'

/-- A plain name is taken up to the first character that belongs to no name, and it has no qualifier. -/
theorem takesIf_qname {name : String} (hname : isPlainName name = true) (hrest : rest.takeWhile isNamePart = []) :
    TakesIf True Read.qname (name.toList ++ rest) (· = ⟨"", name⟩) rest := by
  simp only [isPlainName, Bool.and_eq_true, List.all_eq_true, Bool.not_eq_true', List.contains_eq_mem,
    decide_eq_false_iff_not] at hname
  obtain ⟨⟨hstart, hpart⟩, hcolon⟩ := hname
  refine (takesIf_run hpart hrest).andThen ?_
  rintro _ rfl
  rw [Text.parts_of_notMem hcolon]
  refine ((takesIf_guard (startsName name.toList)).bind fun _ _ => takesIf_pure _).congr ?_ |>.mono ?_
  · simp [hstart]
  · rintro _ rfl
    rw [String.ofList_toList]

/-- A value between quotes is taken as it stands, if it has neither a quote nor the mark of a tag in it. Reading
fails exactly if one of its characters may not stand in a document. -/
theorem takesIf_value {ds : List Char} (hquote : '\x22' ∉ ds) (htag : '<' ∉ ds) :
    TakesIf (ds.all isAllowed = true) (Read.value '\x22') ('\x22' :: (ds ++ '\x22' :: rest)) (· = ds) rest := by
  have hopen : TakesIf True (Read.exactly (String.singleton '\x22')) ('\x22' :: (ds ++ '\x22' :: rest)) (fun _ => True)
      (ds ++ '\x22' :: rest) := takesIf_exactly (String.singleton '\x22')
  have hclose : TakesIf True (Read.exactly (String.singleton '\x22')) ('\x22' :: rest) (fun _ => True) rest :=
    takesIf_exactly (String.singleton '\x22')
  have hrun : TakesIf True (Read.run fun c => c != '\x22' && c != '<') (ds ++ '\x22' :: rest) (· = ds) ('\x22' :: rest) := by
    refine takesIf_run (fun d hd => ?_) (by simp)
    have hne : d ≠ '\x22' := fun h => hquote (h ▸ hd)
    have hnt : d ≠ '<' := fun h => htag (h ▸ hd)
    simp [hne, hnt]
  refine hopen.andThen fun _ _ => hrun.andThen ?_
  rintro _ rfl
  refine ((takesIf_guard _).bind fun _ _ => hclose.andThen fun _ _ => takesIf_pure _).congr ?_
  exact and_iff_left trivial

/-- An attribute as the writer spells it, behind a space. -/
def attributeChars (e : String × String) : List Char :=
  e.1.toList ++ '=' :: '\x22' :: (e.2.toList.flatMap escapeValueChar ++ ['\x22'])

/-- An attribute as it is read. -/
def rawAttribute (e : String × String) : RawAttribute := ⟨⟨"", e.1⟩, e.2.toList.flatMap escapeValueChar⟩

/-- A value in which every character may stand in a document. -/
def RawAttribute.Allowed (a : RawAttribute) : Prop := a.value.all isAllowed = true

theorem notMem_escapeValueChar (c : Char) : '\x22' ∉ escapeValueChar c ∧ '<' ∉ escapeValueChar c := by
  unfold escapeValueChar escapeTextChar
  split_ifs <;> simp_all [eq_comm]

/-- An attribute as the writer spells it is read as its name with the escaped value. -/
theorem takesIf_attribute {e : String × String} (hname : isPlainName e.1 = true) :
    TakesIf (rawAttribute e).Allowed Read.attribute_ (attributeChars e ++ rest) (· = rawAttribute e) rest := by
  have hquote : '\x22' ∉ e.2.toList.flatMap escapeValueChar := by
    rw [List.mem_flatMap]
    rintro ⟨c, _, hc⟩
    exact (notMem_escapeValueChar c).1 hc
  have htag : '<' ∉ e.2.toList.flatMap escapeValueChar := by
    rw [List.mem_flatMap]
    rintro ⟨c, _, hc⟩
    exact (notMem_escapeValueChar c).2 hc
  have hchars : attributeChars e ++ rest =
      e.1.toList ++ '=' :: '\x22' :: (e.2.toList.flatMap escapeValueChar ++ '\x22' :: rest) := by
    simp [attributeChars]
  have hequals : TakesIf True (Read.exactly "=")
      ('=' :: '\x22' :: (e.2.toList.flatMap escapeValueChar ++ '\x22' :: rest)) (fun _ => True)
      ('\x22' :: (e.2.toList.flatMap escapeValueChar ++ '\x22' :: rest)) := takesIf_exactly "="
  rw [hchars]
  refine (takesIf_qname hname (List.takeWhile_cons_of_neg (by decide))).andThen ?_
  rintro _ rfl
  refine (takesIf_spaces (List.takeWhile_cons_of_neg (by decide))).andThen fun _ _ => hequals.andThen fun _ _ => ?_
  refine (takesIf_spaces (List.takeWhile_cons_of_neg (by decide))).andThen fun _ _ => takesIf_rest.andThen ?_
  rintro _ rfl
  refine ((takesIf_value hquote htag).bind fun _ h => ?_).congr (and_iff_left trivial)
  subst h
  exact takesIf_pure _

/-- What the writer puts behind the attributes of a start tag. -/
def tagEnd (closed : Bool) : List Char := if closed then " />".toList else ">".toList

/-- A name begins with none of the marks of a tag. -/
theorem exists_of_isPlainName {name : String} (h : isPlainName name = true) : ∃ c cs, name.toList = c :: cs ∧
    isSpace c = false ∧ c ∉ ['/', '>', '!', '?'] := by
  simp only [isPlainName, Bool.and_eq_true] at h
  obtain ⟨⟨hstart, _⟩, _⟩ := h
  cases hname : name.toList with
  | nil => rw [hname] at hstart; cases hstart
  | cons c cs =>
      rw [hname] at hstart
      have hc : isNameStart c = true := hstart
      have hne : ∀ d : Char, isNameStart d = false → c ≠ d := by
        rintro d hd rfl
        rw [hc] at hd
        cases hd
      refine ⟨c, cs, rfl, ?_, ?_⟩
      · simp [isSpace, hne ' ' (by decide), hne '\t' (by decide), hne '\n' (by decide), hne '\r' (by decide)]
      · simp [hne '/' (by decide), hne '>' (by decide), hne '!' (by decide), hne '?' (by decide)]

/-- At the end of a start tag no attributes are left. The mark that stands there tells whether the tag is closed. -/
theorem takesIf_tagEnd (closed : Bool) (budget : Nat) :
    TakesIf True (Read.attributes (budget + 1)) (tagEnd closed ++ rest) (· = ([], closed)) rest := by
  cases closed with
  | true =>
      have hgap : TakesIf True (Read.run isSpace) ([' '] ++ '/' :: '>' :: rest) (· = [' ']) ('/' :: '>' :: rest) :=
        takesIf_run (by simp [isSpace]) (List.takeWhile_cons_of_neg (by decide))
      have hend : TakesIf True (Read.exactly "/>") ('/' :: '>' :: rest) (fun _ => True) rest := takesIf_exactly "/>"
      refine hgap.andThen fun _ _ => takesIf_rest.andThen ?_
      rintro _ rfl
      exact hend.andThen fun _ _ => takesIf_pure _
  | false =>
      have hgap : TakesIf True (Read.run isSpace) ([] ++ '>' :: rest) (· = []) ('>' :: rest) :=
        takesIf_run (by simp) (List.takeWhile_cons_of_neg (by decide))
      have hend : TakesIf True (Read.exactly ">") ('>' :: rest) (fun _ => True) rest := takesIf_exactly ">"
      refine hgap.andThen fun _ _ => takesIf_rest.andThen ?_
      rintro _ rfl
      exact hend.andThen fun _ _ => takesIf_pure _

/-- **The attributes of a start tag**, up to and with its end. They are all read, and whether the tag is closed
is read with them, exactly if every value may stand in a document. The induction is over the attributes: behind
white space there is the end of the tag or the first letter of a name, so it is clear which of the two follows.
-/
theorem takesIf_attributes {es : List (String × String)} (hnames : ∀ e ∈ es, isPlainName e.1 = true) (closed : Bool)
    {budget : Nat} (hbudget : es.length < budget) :
    TakesIf (∀ e ∈ es, (rawAttribute e).Allowed) (Read.attributes budget)
      (es.flatMap (fun e => ' ' :: attributeChars e) ++ (tagEnd closed ++ rest))
      (· = (es.map rawAttribute, closed)) rest := by
  induction es generalizing budget with
  | nil =>
      obtain ⟨budget, rfl⟩ : ∃ k, budget = k + 1 := ⟨budget - 1, by omega⟩
      exact (takesIf_tagEnd closed budget).congr (by simp)
  | cons e es ih =>
      obtain ⟨hname, hnames⟩ := List.forall_mem_cons.mp hnames
      obtain ⟨budget, rfl⟩ : ∃ k, budget = k + 1 := ⟨budget - 1, by omega⟩
      have hmore := ih hnames (Nat.lt_of_succ_lt_succ hbudget)
      obtain ⟨c, cs, hc, hspace, hmark⟩ := exists_of_isPlainName hname
      obtain ⟨ds, hds⟩ : ∃ ds, attributeChars e ++ (es.flatMap (fun e => ' ' :: attributeChars e) ++
          (tagEnd closed ++ rest)) = c :: ds := by
        rw [attributeChars, hc]
        exact ⟨_, rfl⟩
      have hgap : TakesIf True (Read.run isSpace) ([' '] ++ c :: ds) (· = [' ']) (c :: ds) :=
        takesIf_run (by simp [isSpace]) (List.takeWhile_cons_of_neg (by simp [hspace]))
      have hchars : (e :: es).flatMap (fun e => ' ' :: attributeChars e) ++ (tagEnd closed ++ rest) =
          [' '] ++ c :: ds := by
        rw [← hds]
        simp
      simp only [List.mem_cons, List.not_mem_nil, or_false, not_or] at hmark
      rw [hchars, List.forall_mem_cons]
      refine hgap.andThen fun _ hy => takesIf_rest.andThen ?_
      subst hy
      rintro _ rfl
      -- the front is the first letter of a name, so that neither mark of an end stands there
      rw [List.head?_cons]
      split
      · rename_i h
        exact absurd (Option.some.inj h) hmark.1
      · rename_i h
        exact absurd (Option.some.inj h) hmark.2.1
      · refine ((takesIf_guard true).congr (iff_of_true rfl trivial)).andThen fun _ _ => ?_
        rw [← hds]
        refine (takesIf_attribute hname).bind ?_
        rintro _ rfl
        refine (hmore.bind fun y hy => ?_).congr (and_iff_left trivial)
        subst hy
        exact takesIf_pure _

/-- A start tag as the writer spells it. -/
def startChars (name : String) (es : List (String × String)) (closed : Bool) : List Char :=
  '<' :: (name.toList ++ (es.flatMap (fun e => ' ' :: attributeChars e) ++ tagEnd closed))

/-- An end tag as the writer spells it. -/
def endChars (name : String) : List Char := '<' :: '/' :: (name.toList ++ ['>'])

/-- A start tag as the writer spells it is one piece. Its mark is followed by the letter of a name, so it is
neither an end tag nor a comment nor anything else that begins with the mark. -/
theorem takesIf_startTag {name : String} {es : List (String × String)} (hname : isPlainName name = true)
    (hnames : ∀ e ∈ es, isPlainName e.1 = true) (closed : Bool) {budget : Nat} (hbudget : es.length < budget) :
    TakesIf (∀ e ∈ es, (rawAttribute e).Allowed) (Read.piece budget) (startChars name es closed ++ rest)
      (· = .startTag ⟨"", name⟩ (es.map rawAttribute) closed) rest := by
  obtain ⟨c, cs, hc, _, hmark⟩ := exists_of_isPlainName hname
  simp only [List.mem_cons, List.not_mem_nil, or_false, not_or] at hmark
  have hchars : startChars name es closed ++ rest =
      '<' :: (name.toList ++ (es.flatMap (fun e => ' ' :: attributeChars e) ++ (tagEnd closed ++ rest))) := by
    simp [startChars]
  have hopen : TakesIf True (Read.exactly "<")
      ('<' :: (name.toList ++ (es.flatMap (fun e => ' ' :: attributeChars e) ++ (tagEnd closed ++ rest))))
      (fun _ => True) (name.toList ++ (es.flatMap (fun e => ' ' :: attributeChars e) ++ (tagEnd closed ++ rest))) :=
    takesIf_exactly "<"
  have hstop : (es.flatMap (fun e => ' ' :: attributeChars e) ++ (tagEnd closed ++ rest)).takeWhile isNamePart = [] := by
    cases es with
    | nil => cases closed <;> exact List.takeWhile_cons_of_neg (by decide)
    | cons e es => exact List.takeWhile_cons_of_neg (by decide)
  have htag : TakesIf (∀ e ∈ es, (rawAttribute e).Allowed) (Read.startTag budget) (startChars name es closed ++ rest)
      (· = .startTag ⟨"", name⟩ (es.map rawAttribute) closed) rest := by
    rw [hchars]
    refine hopen.andThen fun _ _ => (takesIf_qname hname hstop).andThen ?_
    rintro _ rfl
    refine ((takesIf_attributes hnames closed hbudget).bind fun y hy => ?_).congr (and_iff_left trivial)
    subst hy
    exact takesIf_pure _
  refine takesIf_rest.andThen ?_
  rintro _ rfl
  have hfront : ∃ ds, startChars name es closed ++ rest = '<' :: c :: ds := by
    rw [hchars, hc]
    exact ⟨_, rfl⟩
  obtain ⟨ds, hds⟩ := hfront
  rw [hds] at htag ⊢
  -- no other piece begins like this: a name begins with none of the marks `!`, `?` and `/`
  split
  · rename_i h
    simp only [List.cons.injEq, true_and] at h
    exact absurd h.1 hmark.2.2.1
  · rename_i h
    simp only [List.cons.injEq, true_and] at h
    exact absurd h.1 hmark.2.2.1
  · rename_i h
    simp only [List.cons.injEq, true_and] at h
    exact absurd h.1 hmark.2.2.2
  · rename_i h
    simp only [List.cons.injEq, true_and] at h
    exact absurd h.1 hmark.1
  · exact htag
  · rename_i h
    exact absurd rfl (h (c :: ds))

/-- An end tag as the writer spells it is one piece. -/
theorem takesIf_endTag {name : String} (hname : isPlainName name = true) (budget : Nat) :
    TakesIf True (Read.piece budget) (endChars name ++ rest) (· = .endTag ⟨"", name⟩) rest := by
  have hchars : endChars name ++ rest = '<' :: '/' :: (name.toList ++ '>' :: rest) := by simp [endChars]
  have hopen : TakesIf True (Read.exactly "</") ('<' :: '/' :: (name.toList ++ '>' :: rest)) (fun _ => True)
      (name.toList ++ '>' :: rest) := takesIf_exactly "</"
  have hclose : TakesIf True (Read.exactly ">") ('>' :: rest) (fun _ => True) rest := takesIf_exactly ">"
  rw [hchars]
  refine takesIf_rest.andThen ?_
  rintro _ rfl
  refine hopen.andThen fun _ _ => (takesIf_qname hname (List.takeWhile_cons_of_neg (by decide))).andThen ?_
  rintro _ rfl
  refine (takesIf_spaces (List.takeWhile_cons_of_neg (by decide))).andThen fun _ _ => ?_
  exact hclose.andThen fun _ _ => takesIf_pure _

/-- The white space between the lines of a document. -/
def Gap (cs : List Char) : Prop := cs ≠ [] ∧ ∀ c ∈ cs, c = ' ' ∨ c = '\n'

/-- White space does not hold the mark that text must not hold. -/
theorem before?_gap {cs : List Char} (h : ∀ c ∈ cs, c = ' ' ∨ c = '\n') : Read.before? "]]>".toList cs = none := by
  induction cs with
  | nil => rfl
  | cons c cs ih =>
      obtain ⟨hc, hcs⟩ := List.forall_mem_cons.mp h
      have hmark : "]]>".toList.isPrefixOf (c :: cs) = false := by
        rcases hc with rfl | rfl <;> rfl
      rw [Read.before?, hmark, ih hcs]
      rfl

/-- The white space before a tag, or at the end, is one piece of text. -/
theorem takesIf_gap {cs : List Char} (h : Gap cs) (hrest : rest.head? = none ∨ rest.head? = some '<') (budget : Nat) :
    TakesIf True (Read.piece budget) (cs ++ rest) (· = .text cs) rest := by
  obtain ⟨hne, hcs⟩ := h
  have hallowed : (cs.all isAllowed && (Read.before? "]]>".toList cs).isNone) = true := by
    rw [before?_gap hcs, Bool.and_eq_true, List.all_eq_true]
    refine ⟨fun c hc => ?_, rfl⟩
    rcases hcs c hc with rfl | rfl <;> decide
  have hrun : TakesIf True (Read.run fun c => c != '<') (cs ++ rest) (· = cs) rest := by
    refine takesIf_run (fun c hc => ?_) ?_
    · rcases hcs c hc with rfl | rfl <;> decide
    · cases rest with
      | nil => rfl
      | cons d rest =>
          obtain rfl : d = '<' := by simpa using hrest
          rfl
  have htext : TakesIf True Read.text (cs ++ rest) (· = .text cs) rest := by
    refine hrun.andThen ?_
    rintro _ rfl
    exact ((takesIf_guard _).congr (iff_of_true hallowed trivial)).andThen fun _ _ => takesIf_pure _
  refine takesIf_rest.andThen ?_
  rintro _ rfl
  cases cs with
  | nil => exact absurd rfl hne
  | cons c cs =>
      have hc : c ≠ '<' := by rcases hcs c List.mem_cons_self with rfl | rfl <;> decide
      split
      all_goals first | exact htext | (rename_i h; exact absurd (List.cons.inj h).1 hc)

end Steps

/-! ## Pieces

A document is cut into pieces one after the other, and between tags there is white space. `Cuts` puts one piece
in front of a text that is known to be cut. -/

/-- Tags with white space between them. -/
inductive Woven : List Placed → List Piece → Prop where
  | nil : Woven [] []
  | gap {raw : List Char} {span : Span} {ps : List Placed} {qs : List Piece} :
      (∀ c ∈ raw, c = ' ' ∨ c = '\n') → Woven ps qs → Woven (⟨.text raw, span⟩ :: ps) qs
  | tag {q : Piece} {span : Span} {ps : List Placed} {qs : List Piece} :
      Woven ps qs → Woven (⟨q, span⟩ :: ps) (q :: qs)

/-- A text is cut into tags with white space between them, exactly under a condition. -/
def Cuts (ok : Prop) (cs : List Char) (qs : List Piece) : Prop :=
  ∀ budget, cs.length ≤ budget → TakesIf ok (Read.pieces budget) cs (Woven · qs) []

section Cuts

variable {ok p : Prop} {cs ds : List Char} {qs : List Piece}

theorem Cuts.nil : Cuts True [] [] := by
  intro budget _
  have h : TakesIf True (Read.pieces budget) [] (· = []) [] := by
    cases budget with
    | zero => exact .of_eq fun _ => ⟨_, rfl, rfl⟩
    | succ budget => exact .of_eq fun _ => ⟨_, rfl, rfl⟩
  exact h.mono fun _ hy => hy ▸ .nil

theorem Cuts.congr {ok' : Prop} (h : Cuts ok cs qs) (hok : ok ↔ ok') : Cuts ok' cs qs :=
  fun budget hbudget => (h budget hbudget).congr hok

/-- One more piece in front. -/
theorem Cuts.cons {q : Piece} {qs' : List Piece} (hds : ds ≠ [])
    (hpiece : ∀ budget, ds.length ≤ budget → TakesIf p (Read.piece budget) (ds ++ cs) (· = q) cs)
    (h : Cuts ok cs qs) (hwoven : ∀ ps span, Woven ps qs → Woven (⟨q, span⟩ :: ps) qs') :
    Cuts (p ∧ ok) (ds ++ cs) qs' := by
  intro budget hbudget
  have hpos : 0 < ds.length := List.length_pos_iff.mpr hds
  rw [List.length_append] at hbudget
  obtain ⟨budget, rfl⟩ : ∃ k, budget = k + 1 := ⟨budget - 1, by omega⟩
  have hmore := h budget (by omega)
  have hne : (ds ++ cs).isEmpty = false := by
    cases ds with
    | nil => exact absurd rfl hds
    | cons d ds => rfl
  refine takesIf_rest.andThen ?_
  rintro _ rfl
  rw [hne, if_neg (by decide)]
  refine takesIf_place.andThen fun start _ => (hpiece _ (by omega)).bind ?_
  rintro _ rfl
  refine takesIf_place.andThen fun stop _ => (hmore.bind fun ps hps => ?_).congr (and_iff_left trivial)
  exact (takesIf_pure _).mono fun _ hy => hy ▸ hwoven ps _ hps

/-- White space in front of a text that is cut, if the text begins with a tag or is empty: otherwise its own
white space would be part of the same piece. -/
theorem Cuts.gap (hds : Gap ds) (h : Cuts ok cs qs) (hcs : cs.head? = none ∨ cs.head? = some '<') :
    Cuts ok (ds ++ cs) qs :=
  (Cuts.cons hds.1 (fun budget _ => takesIf_gap hds hcs budget) h fun _ _ hps => .gap hds.2 hps).congr
    (iff_of_eq (true_and ok))

/-- A start tag in front of a text that is cut. Its condition is added to that of the text. -/
theorem Cuts.startTag {name : String} {es : List (String × String)} (hname : isPlainName name = true)
    (hnames : ∀ e ∈ es, isPlainName e.1 = true) (closed : Bool) (h : Cuts ok cs qs) :
    Cuts ((∀ e ∈ es, (rawAttribute e).Allowed) ∧ ok) (startChars name es closed ++ cs)
      (.startTag ⟨"", name⟩ (es.map rawAttribute) closed :: qs) := by
  have hlength : ∀ es : List (String × String), es.length ≤ (es.flatMap fun e => ' ' :: attributeChars e).length := by
    intro es
    induction es with
    | nil => exact Nat.le_refl 0
    | cons e es ih =>
        rw [List.flatMap_cons, List.length_append, List.length_cons, List.length_cons]
        omega
  refine Cuts.cons (List.cons_ne_nil _ _) (fun budget hbudget => ?_) h fun _ _ hps => .tag hps
  refine takesIf_startTag hname hnames closed ?_
  have := hlength es
  simp only [startChars, List.length_cons, List.length_append] at hbudget
  omega

theorem Cuts.endTag {name : String} (hname : isPlainName name = true) (h : Cuts ok cs qs) :
    Cuts ok (endChars name ++ cs) (.endTag ⟨"", name⟩ :: qs) :=
  (Cuts.cons (List.cons_ne_nil _ _) (fun budget _ => takesIf_endTag hname budget) h fun _ _ hps => .tag hps).congr
    (iff_of_eq (true_and ok))

end Cuts

/-! ## Elements

The writer puts every element on lines of its own. The induction is over the element, and what stands behind it
is any text that is cut as wanted. -/

/-- Elements whose names need no qualifier and declare none, with nothing but such elements in them. -/
inductive Plain : Element → Prop where
  | intro {name : String} {a : Attributes} {es : List Element} {span : Span} : isPlainName name = true →
      (∀ e ∈ a.entries, isPlainName e.1 = true ∧ e.1 ≠ "xmlns") → (∀ e ∈ es, Plain e) →
      Plain ⟨name, a, es.map Child.element, span⟩

mutual

/-- The tags of an element, in order. -/
def tags : Element → List Piece
  | ⟨name, a, children, _⟩ =>
    if children.isEmpty then [.startTag ⟨"", name⟩ (a.entries.map rawAttribute) true]
    else .startTag ⟨"", name⟩ (a.entries.map rawAttribute) false :: (tagsAll children ++ [.endTag ⟨"", name⟩])

/-- The tags of the elements in a list of children. -/
def tagsAll : List (Child Element) → List Piece
  | [] => []
  | .element e :: rest => tags e ++ tagsAll rest
  | .text .. :: rest => tagsAll rest

end

/-- A tag in which every character may stand in a document. -/
def Piece.Allowed : Piece → Prop
  | .startTag _ attributes _ => ∀ a ∈ attributes, a.Allowed
  | _ => True

instance (a : RawAttribute) : Decidable a.Allowed := inferInstanceAs (Decidable (_ = true))

instance : (q : Piece) → Decidable q.Allowed
  | .startTag _ attributes _ => inferInstanceAs (Decidable (∀ a ∈ attributes, a.Allowed))
  | .text _ | .section_ _ | .aside | .endTag _ => isTrue trivial

theorem tagsAll_map_element (es : List Element) : tagsAll (es.map Child.element) = es.flatMap tags := by
  induction es with
  | nil => rfl
  | cons e es ih => rw [List.map_cons, tagsAll, ih, List.flatMap_cons]

/-- However much white space stands before it, a text is cut into tags. -/
def CutsBehindGap (ok : Prop) (cs : List Char) (qs : List Piece) : Prop :=
  ∀ g : List Char, (∀ c ∈ g, c = ' ' ∨ c = '\n') → Cuts ok (g ++ cs) qs

section Elements

variable {ok : Prop} {cs : List Char} {qs : List Piece}

theorem Cuts.behindGap (h : Cuts ok cs qs) (hcs : cs.head? = none ∨ cs.head? = some '<') : CutsBehindGap ok cs qs := by
  intro g hg
  cases g with
  | nil => exact h
  | cons c g => exact h.gap ⟨List.cons_ne_nil c g, hg⟩ hcs

theorem mem_indent (depth : Nat) : ∀ c ∈ (Text.indent depth).toList, c = ' ' ∨ c = '\n' := by
  induction depth with
  | zero => exact fun c hc => by cases hc
  | succ depth ih =>
      intro c hc
      rw [Text.indent, String.toList_append, List.mem_append] at hc
      rcases hc with hc | hc
      · left
        simpa using hc
      · exact ih c hc

/-- An indentation may stand in front; it becomes part of the white space. -/
theorem CutsBehindGap.indent (h : CutsBehindGap ok cs qs) (depth : Nat) :
    CutsBehindGap ok ((Text.indent depth).toList ++ cs) qs := by
  intro g hg
  rw [← List.append_assoc]
  refine h _ fun c hc => ?_
  rcases List.mem_append.mp hc with hc | hc
  · exact hg c hc
  · exact mem_indent depth c hc

/-- The attributes that the writer gives are those of the map, in its order, each behind a space. -/
theorem attributes_toList (a : Attributes) :
    (attributes a).toList = a.entries.flatMap fun e => ' ' :: attributeChars e := by
  unfold attributes
  induction a.entries with
  | nil => rfl
  | cons e es ih =>
      rw [List.map_cons, String.join_cons, String.toList_append, ih, List.flatMap_cons]
      simp [attributeChars, escapeValue]

theorem element_toList_empty (depth : Nat) (name : String) (a : Attributes) (span : Span) :
    (element depth ⟨name, a, [], span⟩).toList =
      (Text.indent depth).toList ++ (startChars name a.entries true ++ ['\n']) := by
  rw [element]
  simp [attributes_toList, startChars, tagEnd]

/-- An element with content has its tags on lines of their own and its elements between them, one level further
in. -/
theorem element_toList_cons (depth : Nat) (name : String) (a : Attributes) (e : Element) (es : List Element)
    (span : Span) : (element depth ⟨name, a, (e :: es).map Child.element, span⟩).toList =
      (Text.indent depth).toList ++ (startChars name a.entries false ++
        '\n' :: ((lines (depth + 1) ((e :: es).map Child.element)).toList ++
          ((Text.indent depth).toList ++ (endChars name ++ ['\n'])))) := by
  rw [element]
  simp [attributes_toList, startChars, tagEnd, endChars, isText]

theorem newline_gap : ∀ c ∈ ['\n'], c = ' ' ∨ c = '\n' := by simp

/-- What stands in front of elements on lines of their own, if each is cut into its tags. -/
theorem cuts_lines {es : List Element} {depth : Nat}
    (hes : ∀ e ∈ es, ∀ {ok : Prop} {cs : List Char} {qs : List Piece}, CutsBehindGap ok cs qs →
      CutsBehindGap ((∀ q ∈ tags e, q.Allowed) ∧ ok) ((element depth e).toList ++ cs) (tags e ++ qs))
    (h : CutsBehindGap ok cs qs) :
    CutsBehindGap ((∀ q ∈ es.flatMap tags, q.Allowed) ∧ ok)
      ((lines depth (es.map Child.element)).toList ++ cs) (es.flatMap tags ++ qs) := by
  induction es with
  | nil =>
      intro g hg
      exact (h g hg).congr (by simp)
  | cons e es ih =>
      obtain ⟨he, hes⟩ := List.forall_mem_cons.mp hes
      have hall := he (ih hes)
      intro g hg
      rw [List.map_cons, lines, String.toList_append, List.append_assoc, List.flatMap_cons, List.append_assoc]
      refine (hall g hg).congr ?_
      rw [List.forall_mem_append, and_assoc]

/-- **The lines of an element are cut into its tags**, exactly if all their characters may stand in a document. -/
theorem Plain.cuts {e : Element} (he : Plain e) (depth : Nat) {ok : Prop} {cs : List Char} {qs : List Piece}
    (h : CutsBehindGap ok cs qs) :
    CutsBehindGap ((∀ q ∈ tags e, q.Allowed) ∧ ok) ((element depth e).toList ++ cs) (tags e ++ qs) := by
  induction he generalizing depth ok cs qs with
  | @intro name a es span hname hnames _ ih =>
      have hplain : ∀ e ∈ a.entries, isPlainName e.1 = true := fun e he => (hnames e he).1
      have hallowed : ∀ closed, (Piece.startTag ⟨"", name⟩ (a.entries.map rawAttribute) closed).Allowed ↔
          ∀ e ∈ a.entries, (rawAttribute e).Allowed := by
        intro closed
        rw [Piece.Allowed, List.forall_mem_map]
      -- an empty element is one tag; another one has its children on lines of their own between two tags
      cases es with
      | nil =>
          have hstart := (h ['\n'] newline_gap).startTag hname hplain true
          have htags : tags ⟨name, a, [], span⟩ = [.startTag ⟨"", name⟩ (a.entries.map rawAttribute) true] := rfl
          rw [List.map_nil, element_toList_empty, htags, List.append_assoc, List.append_assoc]
          intro g hg
          refine (((hstart.behindGap (.inr rfl)).indent depth) g hg).congr ?_
          rw [List.forall_mem_singleton, hallowed]
      | cons e es =>
          have hend : CutsBehindGap ok ((Text.indent depth).toList ++ (endChars name ++ '\n' :: cs))
              (.endTag ⟨"", name⟩ :: qs) :=
            (((h ['\n'] newline_gap).endTag hname).behindGap (.inr rfl)).indent depth
          have hlines := cuts_lines (fun e he => ih e he (depth + 1)) hend
          have hstart := (hlines ['\n'] newline_gap).startTag hname hplain false
          have htags : tags ⟨name, a, (e :: es).map Child.element, span⟩ =
              .startTag ⟨"", name⟩ (a.entries.map rawAttribute) false ::
                ((e :: es).flatMap tags ++ [.endTag ⟨"", name⟩]) := by
            rw [tags, tagsAll_map_element]
            rfl
          intro g hg
          have hall := ((hstart.behindGap (.inr rfl)).indent depth) g hg
          rw [element_toList_cons, htags]
          simp only [List.append_assoc, List.cons_append, List.nil_append] at hall ⊢
          refine hall.congr ?_
          rw [List.forall_mem_cons, hallowed, List.forall_mem_append, List.forall_mem_singleton, and_assoc]
          simp [Piece.Allowed]

/-! The front of a document, step by step. -/

/-- The white space in the first line of a document, which may be missing only before the end of it. -/
theorem takesIf_declarationGap {ds : List Char} (hds : ∀ d ∈ ds, isSpace d = true) (hcs : cs.takeWhile isSpace = [])
    (hend : (!ds.isEmpty || "?>".toList.isPrefixOf cs) = true) :
    TakesIf True Read.declarationGap (ds ++ cs) (fun _ => True) cs := by
  refine (takesIf_run hds hcs).andThen ?_
  rintro _ rfl
  refine takesIf_rest.andThen ?_
  rintro _ rfl
  exact (takesIf_guard _).congr (iff_of_true hend trivial)

/-- A declaration in the first line that is there and may stand in a document. -/
theorem takesIf_declared {e : String × String} (hname : isPlainName e.1 = true) (hallowed : (rawAttribute e).Allowed) :
    TakesIf True (Read.declared e.1) (attributeChars e ++ cs) (· = true) cs := by
  have hfront : e.1.toList.isPrefixOf (attributeChars e ++ cs) = true := by
    rw [attributeChars, List.append_assoc]
    exact List.isPrefixOf_iff_prefix.mpr (List.prefix_append _ _)
  refine takesIf_rest.andThen ?_
  rintro _ rfl
  rw [if_pos hfront]
  exact ((takesIf_attribute hname).congr (iff_of_true hallowed trivial)).andThen fun _ _ => takesIf_pure _

theorem takesIf_declared_none {name : String} (hname : name.toList.isPrefixOf cs = false) :
    TakesIf True (Read.declared name) cs (· = false) cs := by
  refine takesIf_rest.andThen ?_
  rintro _ rfl
  rw [hname, if_neg (by decide)]
  exact takesIf_pure _

/-- The first line that the writer gives is read as the declaration of a document. -/
theorem takesIf_declaration : TakesIf True Read.declaration (header.toList ++ cs) (fun _ => True) cs := by
  have hheader : header.toList ++ cs = "<?xml".toList ++ ([' '] ++ (attributeChars ("version", "1.0") ++
      ([' '] ++ (attributeChars ("encoding", "utf-8") ++ ([] ++ ("?>".toList ++ cs)))))) := rfl
  rw [hheader]
  refine (takesIf_exactly "<?xml").andThen fun _ _ => ?_
  refine (takesIf_declarationGap (by simp [isSpace]) (List.takeWhile_cons_of_neg (by decide)) rfl).andThen fun _ _ => ?_
  refine (takesIf_declared (e := ("version", "1.0")) (by decide) rfl).andThen ?_
  rintro _ rfl
  refine ((takesIf_guard true).congr (iff_of_true rfl trivial)).andThen fun _ _ => ?_
  refine (takesIf_declarationGap (by simp [isSpace]) (List.takeWhile_cons_of_neg (by decide)) rfl).andThen fun _ _ => ?_
  refine (takesIf_declared (e := ("encoding", "utf-8")) (by decide) rfl).andThen ?_
  rintro _ rfl
  rw [if_pos rfl]
  refine (takesIf_declarationGap (by simp) (List.takeWhile_cons_of_neg (by decide)) rfl).andThen fun _ _ => ?_
  refine (takesIf_declared_none rfl).andThen fun _ _ => ?_
  refine (takesIf_spaces (List.takeWhile_cons_of_neg (by decide))).andThen fun _ _ => ?_
  exact takesIf_exactly "?>"

/-- Everything before the root of a written document is its first line. -/
theorem takesIf_front : TakesIf True Read.front (header.toList ++ cs) (fun _ => True) cs := by
  refine takesIf_rest.andThen ?_
  rintro _ rfl
  have hmark : "\uFEFF".toList.isPrefixOf (header.toList ++ cs) = false := rfl
  have hdeclared : "<?xml ".toList.isPrefixOf (header.toList ++ cs) = true := rfl
  rw [hmark, if_neg (by decide)]
  refine takesIf_rest.andThen ?_
  rintro _ rfl
  rw [hdeclared, if_pos rfl]
  exact takesIf_declaration

/-- **A written document is cut into the tags of its root.** -/
theorem Plain.pieces {e : Element} (he : Plain e) :
    ((∀ q ∈ tags e, q.Allowed) → ∃ placed, Piece.ofText (write e) = some placed ∧ Woven placed (tags e)) ∧
      (¬ (∀ q ∈ tags e, q.Allowed) → Piece.ofText (write e) = none) := by
  have hcuts := he.cuts 0 (Cuts.nil.behindGap (.inl rfl)) ['\n'] newline_gap
  rw [List.append_nil, List.append_nil] at hcuts
  have hwrite : (write e).toList = header.toList ++ (['\n'] ++ (element 0 e).toList) := by
    simp [write]
  have hgo : TakesIf (∀ q ∈ tags e, q.Allowed)
      (do
        Read.front
        Read.pieces (← Read.rest).length) (write e).toList (Woven · (tags e)) [] := by
    rw [hwrite]
    refine takesIf_front.andThen fun _ _ => takesIf_rest.andThen ?_
    rintro _ rfl
    exact (hcuts _ (Nat.le_refl _)).congr (and_iff_left trivial)
  unfold Piece.ofText
  constructor
  · intro hok
    obtain ⟨placed, i, hplaced, hwoven, _⟩ := hgo.takes hok .origin
    refine ⟨placed, ?_, hwoven⟩
    dsimp only
    rw [hplaced]
    rfl
  · intro hok
    dsimp only
    rw [hgo.fails hok .origin]
    rfl

end Elements

/-! ## Values

A value is escaped character by character and read back chunk by chunk, so the two are compared character by
character. -/

/-- A character of a value as it is read. -/
def chunkOf (c : Char) : Chunk := if escapeValueChar c = [c] then .literal c else .referenced c

/-- The escape of a character is read back as one chunk, and what follows it is read as it would be without it.
-/
theorem chunksFrom_escapeValueChar (c : Char) (cs : List Char) :
    chunksFrom none (escapeValueChar c ++ cs) = (chunksFrom none cs).map (chunkOf c :: ·) := by
  by_cases hspecial : c ∈ ['\x22', '\x27', '\n', '\r', '\t', '&', '<', '>']
  · simp only [List.mem_cons, List.not_mem_nil, or_false] at hspecial
    rcases hspecial with rfl | rfl | rfl | rfl | rfl | rfl | rfl | rfl <;>
      (simp [escapeValueChar, escapeTextChar, chunksFrom, chunkOf]; cases chunksFrom none cs <;> rfl)
  · simp only [List.mem_cons, List.not_mem_nil, or_false, not_or] at hspecial
    have hescape : escapeValueChar c = [c] := by simp [escapeValueChar, escapeTextChar, hspecial]
    rw [chunkOf, if_pos hescape, hescape, List.singleton_append, chunksFrom, if_neg hspecial.2.2.2.2.2.1]

/-- An escaped value is read back chunk by chunk, by induction over its characters. -/
theorem chunks?_escape (cs : List Char) : chunks? (cs.flatMap escapeValueChar) = some (cs.map chunkOf) := by
  unfold chunks?
  induction cs with
  | nil => rfl
  | cons c cs ih =>
      rw [List.flatMap_cons, chunksFrom_escapeValueChar, ih]
      rfl

/-- The chunks of an escaped value give the value. A character that was not escaped is taken as it stands, and
white space other than a space, which would not be, always was escaped. -/
theorem attributeValue_chunkOf (cs : List Char) : attributeValue (cs.map chunkOf) = cs := by
  induction cs with
  | nil => rfl
  | cons c cs ih =>
      rw [List.map_cons, chunkOf]
      split
      · rename_i h
        -- white space that is not escaped is a space
        have hreturn : c ≠ '\r' := by
          rintro rfl
          revert h
          decide
        have hspace : (if isSpace c then ' ' else c) = c := by
          by_cases hc : isSpace c = true
          · rw [if_pos hc]
            simp only [isSpace, Bool.or_eq_true, beq_iff_eq] at hc
            rcases hc with ((rfl | rfl) | rfl) | rfl
            · rfl
            all_goals (revert h; decide)
          · rw [if_neg hc]
        rw [attributeValue, if_neg (fun h => hreturn h.1), hspace, ih]
      · rw [attributeValue, ih]

theorem readAttribute?_rawAttribute (e : String × String) : readAttribute? (rawAttribute e) = some ⟨⟨"", e.1⟩, e.2⟩ := by
  rw [readAttribute?, rawAttribute, chunks?_escape, Option.map_some, attributeValue_chunkOf, String.ofList_toList]

/-- Attributes without qualifiers, each name once. -/
theorem bareAttributes?_eq {es : List (String × String)} (h : es.Pairwise fun a b => a.1 < b.1)
    {seen : List (Namespace × String)} (hseen : ∀ e ∈ es, (Namespace.none, e.1) ∉ seen) :
    bareAttributes? [] seen (es.map fun e => ⟨⟨"", e.1⟩, e.2⟩) = some es := by
  induction es generalizing seen with
  | nil => rfl
  | cons e es ih =>
      obtain ⟨hlt, hes⟩ := List.pairwise_cons.mp h
      obtain ⟨he, hseen⟩ := List.forall_mem_cons.mp hseen
      have hmore : ∀ d ∈ es, (Namespace.none, d.1) ∉ (Namespace.none, e.1) :: seen := by
        intro d hd hmem
        rcases List.mem_cons.mp hmem with heq | hmem
        · have hname : d.1 = e.1 := congrArg Prod.snd heq
          exact String.lt_irrefl e.1 (hname ▸ hlt d hd)
        · exact hseen d hd hmem
      simp [bareAttributes?, namespace?, he, ih hes hmore]

/-- An attribute without a qualifier, as it is read. -/
def bareAttribute (e : String × String) : ReadAttribute := ⟨⟨"", e.1⟩, e.2⟩

theorem mapM_readAttribute? (es : List (String × String)) :
    (es.map rawAttribute).mapM readAttribute? = some (es.map bareAttribute) := by
  induction es with
  | nil => rfl
  | cons e es ih =>
      rw [List.map_cons, List.mapM_cons, readAttribute?_rawAttribute, ih]
      rfl

theorem ownNamespaces?_bare (es : List (String × String)) : ownNamespaces? (es.map bareAttribute) = some [] := by
  induction es with
  | nil => rfl
  | cons e es ih =>
      rw [List.map_cons, ownNamespaces?, ih]
      rfl

/-- A start tag without qualifiers has the attributes that were written. -/
theorem openElement?_eq {name : String} {a : Attributes} (h : ∀ e ∈ a.entries, e.1 ≠ "xmlns") :
    openElement? [] ⟨"", name⟩ (a.entries.map rawAttribute) = some ([], a) := by
  -- without `xmlns` no attribute declares a namespace, so all of them are attributes of the element
  have hdeclares : ∀ r ∈ a.entries.map bareAttribute, r.declares = false := by
    rw [List.forall_mem_map]
    intro e he
    simp [bareAttribute, ReadAttribute.declares, ReadAttribute.declaresQualifier, h e he]
  have hnone : (a.entries.map bareAttribute).filter ReadAttribute.declares = [] :=
    List.filter_eq_nil_iff.mpr fun r hr => by simp [hdeclares r hr]
  have hall : (a.entries.map bareAttribute).filter (fun r => !r.declares) = a.entries.map bareAttribute :=
    List.filter_eq_self.mpr fun r hr => by simp [hdeclares r hr]
  have hbare : bareAttributes? [] [] (a.entries.map bareAttribute) = some a.entries :=
    bareAttributes?_eq a.sorted (by simp)
  unfold openElement?
  rw [mapM_readAttribute?]
  show (do
    guard ((List.filter ReadAttribute.declares _).all ReadAttribute.mayDeclare)
    let own ← ownNamespaces? _
    let all := own ++ []
    guard (knownElement all ⟨"", name⟩)
    let bare ← bareAttributes? all [] (List.filter (fun r => !r.declares) _)
    return (all, NameMap.ofList bare)) = _
  rw [hnone, ownNamespaces?_bare, hall]
  show (do
    let bare ← bareAttributes? [] [] _
    return ([], NameMap.ofList bare)) = _
  rw [hbare]
  show some ([], NameMap.ofList a.entries) = _
  rw [NameMap.ofList_entries]

/-! ## Content

Pieces are put together to elements by their tags. White space between them is no child, since it would be text.
-/

/-- A piece of white space. -/
def Placed.IsGap (p : Placed) : Prop := ∃ raw, p.piece = .text raw ∧ ∀ c ∈ raw, c = ' ' ∨ c = '\n'

/-- The first tag stands behind white space. -/
theorem Woven.cons_inv {placed : List Placed} {q : Piece} {qs : List Piece} (h : Woven placed (q :: qs)) :
    ∃ gs span ps, placed = gs ++ ⟨q, span⟩ :: ps ∧ (∀ g ∈ gs, g.IsGap) ∧ Woven ps qs := by
  generalize hqs : q :: qs = all at h
  induction h with
  | nil => cases hqs
  | @gap raw span ps _ hraw _ ih =>
      obtain ⟨gs, span', ps', rfl, hgs, hps⟩ := ih hqs
      exact ⟨⟨.text raw, span⟩ :: gs, span', ps', rfl, List.forall_mem_cons.mpr ⟨⟨raw, rfl, hraw⟩, hgs⟩, hps⟩
  | tag hps _ =>
      cases hqs
      exact ⟨[], _, _, rfl, by simp, hps⟩

theorem Woven.nil_inv {placed : List Placed} (h : Woven placed []) : ∀ g ∈ placed, g.IsGap := by
  generalize hqs : ([] : List Piece) = all at h
  induction h with
  | nil => simp
  | @gap raw span ps _ hraw _ ih => exact List.forall_mem_cons.mpr ⟨⟨raw, rfl, hraw⟩, ih hqs⟩
  | tag _ _ => cases hqs

/-- Text without carriage returns is its own value. -/
theorem textValue_literal {raw : List Char} (h : '\r' ∉ raw) : textValue (raw.map .literal) = raw := by
  have hpush : ∀ (raw : List Char) (b : Buffer), '\r' ∉ raw → '\r' ∉ b.chars → b.keepNext = false →
      (b.pushAll (raw.map .literal)).chars = raw.reverse ++ b.chars := by
    intro raw
    induction raw with
    | nil => exact fun b _ _ _ => rfl
    | cons c raw ih =>
        intro b hraw hb hkeep
        obtain ⟨hc, hraw⟩ : '\r' ≠ c ∧ '\r' ∉ raw := by simpa using hraw
        have hone : b.pushLiteral c (raw.map Chunk.literal).isEmpty = ⟨c :: b.chars, false⟩ := by
          rw [Buffer.pushLiteral, hkeep, if_neg (by decide)]
          split
          · rename_i heq
            exact absurd (heq ▸ List.mem_cons_self) hb
          · simp [Ne.symm hc]
        rw [List.map_cons, Buffer.pushAll, hone, ih _ hraw (by simp [hc, hb]) rfl, List.reverse_cons,
          List.append_assoc]
        rfl
  rw [textValue, hpush raw {} h (by simp) rfl]
  simp

theorem chunks?_literal {raw : List Char} (h : '&' ∉ raw) : chunks? raw = some (raw.map .literal) := by
  unfold chunks?
  induction raw with
  | nil => rfl
  | cons c raw ih =>
      obtain ⟨hc, hraw⟩ : '&' ≠ c ∧ '&' ∉ raw := by simpa using h
      rw [chunksFrom, if_neg (Ne.symm hc), ih hraw]
      rfl

/-- White space is character data, and its value is blank. -/
theorem characterData?_gap {p : Placed} (h : p.IsGap) :
    p.isCharacterData = true ∧ ∃ value, characterData? p.piece = some value ∧ ∀ c ∈ value, Text.isBlank c = true := by
  obtain ⟨raw, hpiece, hraw⟩ := h
  have hnot : ∀ d : Char, d ≠ ' ' → d ≠ '\n' → d ∉ raw := by
    intro d hspace hline hd
    rcases hraw d hd with rfl | rfl
    · exact hspace rfl
    · exact hline rfl
  refine ⟨by rw [Placed.isCharacterData, hpiece], raw, ?_, fun c hc => ?_⟩
  · rw [hpiece, characterData?, chunks?_literal (hnot '&' (by decide) (by decide)), Option.map_some,
      textValue_literal (hnot '\r' (by decide) (by decide))]
  · rcases hraw c hc with rfl | rfl <;> decide

/-- Several pieces of white space have blank values, one for each. -/
theorem mapM_characterData?_gaps {gs : List Placed} (hgs : ∀ g ∈ gs, g.IsGap) :
    ∃ values : List (List Char), (gs.mapM fun q => characterData? q.piece) = some values ∧
      ∀ c ∈ values.flatten, Text.isBlank c = true := by
  induction gs with
  | nil => exact ⟨[], rfl, by simp⟩
  | cons g gs ih =>
      obtain ⟨hg, hgs⟩ := List.forall_mem_cons.mp hgs
      obtain ⟨values, hvalues, hblank⟩ := ih hgs
      obtain ⟨_, value, hvalue, hb⟩ := characterData?_gap hg
      refine ⟨value :: values, ?_, ?_⟩
      · rw [List.mapM_cons, hvalue, hvalues]
        rfl
      · rw [List.flatten_cons, List.forall_mem_append]
        exact ⟨hb, hblank⟩

/-- White space in front of a tag is no child. -/
theorem content?_gaps {gs ps : List Placed} (hgs : ∀ g ∈ gs, g.IsGap) (hne : gs ≠ [])
    (hps : ps.takeWhile Placed.isCharacterData = []) (budget : Nat) (ns : Namespaces) :
    content? (budget + 1) ns (gs ++ ps) = content? budget ns ps := by
  cases gs with
  | nil => exact absurd rfl hne
  | cons g gs =>
      obtain ⟨values, hvalues, hblank⟩ := mapM_characterData?_gaps hgs
      obtain ⟨⟨raw, hpiece, hraw⟩, hgs⟩ := List.forall_mem_cons.mp hgs
      have hdata : ∀ q ∈ gs, q.isCharacterData = true := fun q hq => (characterData?_gap (hgs q hq)).1
      have htake : (gs ++ ps).takeWhile Placed.isCharacterData = gs := by
        rw [List.takeWhile_append_of_pos hdata, hps, List.append_nil]
      have hdrop : (gs ++ ps).dropWhile Placed.isCharacterData = ps := by
        rw [List.dropWhile_append_of_pos hdata]
        cases ps with
        | nil => rfl
        | cons p ps =>
            refine List.dropWhile_cons_of_neg fun hp => ?_
            rw [List.takeWhile_cons_of_pos hp] at hps
            cases hps
      have htext : ∀ span, textChild values.flatten span = [] := by
        intro span
        rw [textChild, Text.allBlank, if_pos (List.all_eq_true.mpr hblank)]
      rw [List.cons_append, content?, hpiece]
      dsimp only
      rw [htake, hdrop, hvalues, Option.bind_eq_bind, Option.bind_some, htext]
      cases content? budget ns ps <;> rfl

/-- White space in front of a tag costs at most some of the budget. -/
theorem content?_behind_gaps {gs ps : List Placed} {p : Placed} {budget : Nat} (hgs : ∀ g ∈ gs, g.IsGap)
    (hp : p.isCharacterData = false) (hbudget : (gs ++ p :: ps).length ≤ budget) (ns : Namespaces) :
    ∃ k, ps.length ≤ k ∧ content? budget ns (gs ++ p :: ps) = content? (k + 1) ns (p :: ps) := by
  rw [List.length_append, List.length_cons] at hbudget
  cases gs with
  | nil =>
      obtain ⟨k, rfl⟩ : ∃ k, budget = k + 1 := ⟨budget - 1, by omega⟩
      exact ⟨k, by omega, rfl⟩
  | cons g gs =>
      rw [List.length_cons] at hbudget
      obtain ⟨k, rfl⟩ : ∃ k, budget = k + 1 + 1 := ⟨budget - 2, by omega⟩
      have hps : (p :: ps).takeWhile Placed.isCharacterData = [] := List.takeWhile_cons_of_neg (by simp [hp])
      exact ⟨k, by omega, content?_gaps hgs (List.cons_ne_nil _ _) hps _ _⟩

/-- From its first tag on, an element is put together again. -/
def Rebuilds (e : Element) : Prop :=
  ∀ {budget : Nat} {q : Piece} {qt qs : List Piece} {span : Span} {ps : List Placed}, tags e = q :: qt →
    Woven ps (qt ++ qs) → ps.length ≤ budget →
    ∃ f rest, elementWith (content? budget) [] ⟨q, span⟩ ps = some (f, rest) ∧ Element.Related Eq e f ∧
      Woven rest qs ∧ rest.length ≤ ps.length

theorem tags_eq_cons (e : Element) : ∃ name attributes closed qt, tags e = .startTag name attributes closed :: qt := by
  obtain ⟨name, a, children, span⟩ := e
  rw [tags]
  split
  · exact ⟨_, _, _, _, rfl⟩
  · exact ⟨_, _, _, _, rfl⟩

/-- Elements up to an end tag are the children in front of it. -/
theorem content?_of_rebuilds {es : List Element} (hes : ∀ e ∈ es, Rebuilds e) {budget : Nat} {name : QName}
    {qs : List Piece} {placed : List Placed} (h : Woven placed (es.flatMap tags ++ .endTag name :: qs))
    (hbudget : placed.length ≤ budget) :
    ∃ fs span rest, content? budget [] placed = some (fs.map Child.element, ⟨.endTag name, span⟩ :: rest) ∧
      List.Forall₂ (Element.Related Eq) es fs ∧ Woven rest qs ∧ rest.length ≤ placed.length := by
  induction es generalizing budget placed with
  | nil =>
      obtain ⟨gs, span, ps, rfl, hgs, hps⟩ := h.cons_inv
      obtain ⟨k, _, hcontent⟩ := content?_behind_gaps hgs rfl hbudget []
      refine ⟨[], span, ps, hcontent.trans rfl, .nil, hps, ?_⟩
      rw [List.length_append, List.length_cons]
      omega
  | cons e es ih =>
      obtain ⟨he, hes⟩ := List.forall_mem_cons.mp hes
      obtain ⟨tag, attributes, closed, qt, htags⟩ := tags_eq_cons e
      rw [List.flatMap_cons, htags, List.append_assoc, List.cons_append] at h
      obtain ⟨gs, span, ps, rfl, hgs, hps⟩ := h.cons_inv
      obtain ⟨k, hk, hcontent⟩ := content?_behind_gaps hgs rfl hbudget []
      obtain ⟨f, rest, helement, hrelated, hrest, hlength⟩ := he htags hps hk
      obtain ⟨fs, span', rest', hmore, hfs, hrest', hlength'⟩ := ih hes hrest (hlength.trans hk)
      refine ⟨f :: fs, span', rest', ?_, .cons hrelated hfs, hrest', ?_⟩
      · rw [hcontent, content?]
        dsimp only
        rw [helement, Option.bind_eq_bind, Option.bind_some, hmore]
        rfl
      · rw [List.length_append, List.length_cons]
        omega

/-- **The tags of an element are put together to the element.** -/
theorem Plain.rebuilds {e : Element} (he : Plain e) : Rebuilds e := by
  induction he with
  | @intro name a es span hname hnames _ ih =>
      have hopen : openElement? [] ⟨"", name⟩ (a.entries.map rawAttribute) = some ([], a) :=
        openElement?_eq fun e he => (hnames e he).2
      intro budget q qt qs span' ps htags hps hbudget
      cases es with
      | nil =>
          obtain ⟨rfl, rfl⟩ : .startTag ⟨"", name⟩ (a.entries.map rawAttribute) true = q ∧ [] = qt := List.cons.inj htags
          refine ⟨⟨name, a, [], span'⟩, ps, ?_, .of_forall₂ rfl .nil, hps, Nat.le_refl _⟩
          rw [elementWith]
          dsimp only
          rw [hopen]
          rfl
      | cons e es =>
          rw [tags, tagsAll_map_element, if_neg (by simp)] at htags
          obtain ⟨rfl, rfl⟩ := List.cons.inj htags
          rw [List.append_assoc] at hps
          obtain ⟨fs, stop, rest, hcontent, hfs, hrest, hlength⟩ := content?_of_rebuilds ih hps hbudget
          refine ⟨⟨name, a, fs.map Child.element, span'.start, stop.stop⟩, rest, ?_, .of_forall₂ rfl hfs, hrest, hlength⟩
          rw [elementWith]
          dsimp only
          rw [hopen]
          rw [Option.bind_eq_bind, Option.bind_some]
          dsimp only
          rw [if_neg Bool.false_ne_true, hcontent]
          show (do
            guard (Piece.endTag ⟨"", name⟩ = Piece.endTag ⟨"", name⟩)
            some (Element.mk name a (fs.map Child.element) ⟨span'.start, stop.stop⟩, rest)) = _
          rw [guard, if_pos rfl]
          rfl

theorem isOutside_gap {p : Placed} (h : p.IsGap) : p.isOutside = true := by
  obtain ⟨raw, hpiece, hraw⟩ := h
  rw [Placed.isOutside, hpiece]
  refine List.all_eq_true.mpr fun c hc => ?_
  rcases hraw c hc with rfl | rfl <;> decide

/-- **Reading what was written.** The same elements come back, unless some value holds a character that no document
may hold: then nothing is read. -/
theorem read_write {e : Element} (he : Plain e) :
    ((∀ q ∈ tags e, q.Allowed) → ∃ f, read (write e) = some f ∧ Element.Related Eq e f) ∧
      (¬ (∀ q ∈ tags e, q.Allowed) → read (write e) = none) := by
  obtain ⟨hyes, hno⟩ := he.pieces
  constructor
  · intro hok
    obtain ⟨placed, hplaced, hwoven⟩ := hyes hok
    obtain ⟨tag, attributes, closed, qt, htags⟩ := tags_eq_cons e
    rw [htags] at hwoven
    obtain ⟨gs, span, ps, rfl, hgs, hps⟩ := hwoven.cons_inv
    rw [← List.append_nil qt] at hps
    obtain ⟨f, rest, helement, hrelated, hrest, _⟩ := he.rebuilds htags hps (Nat.le_refl _)
    -- there may be gaps before the first tag and behind the last one, but nothing else
    have hdrop : (gs ++ ⟨.startTag tag attributes closed, span⟩ :: ps).dropWhile Placed.isOutside =
        ⟨.startTag tag attributes closed, span⟩ :: ps := by
      rw [List.dropWhile_append_of_pos fun g hg => isOutside_gap (hgs g hg)]
      rfl
    have houtside : rest.all Placed.isOutside = true :=
      List.all_eq_true.mpr fun g hg => isOutside_gap (hrest.nil_inv g hg)
    refine ⟨f, ?_, hrelated⟩
    rw [read, hplaced, Option.bind_some, root?, hdrop]
    dsimp only
    rw [helement]
    rw [Option.bind_eq_bind, Option.bind_some]
    dsimp only
    rw [houtside]
    rfl
  · intro hok
    rw [read, hno hok]
    rfl

end FlightScript.Markup
