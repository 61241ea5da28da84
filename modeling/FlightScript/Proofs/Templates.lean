import FlightScript.Proofs.CallFormat
import Mathlib.Data.List.DropRight

/-!
# `Proofs.Templates` — which templates survive in the texts of a declared name

The template of a declaration is not stored: it goes into the two texts of a call, and is read off them again. Three
things can be lost on the way. White space around the template is trimmed. A number in parentheses becomes one more
place for a parameter. And a template of nothing but places is taken for the default, in which a space stands between
any two. The names of parameters are read off as what stands between bars, so a bar in a parameter, in the declared
name or in the template can lose them, but not every bar does.

## Contents

* `CallFormat.pattern`, and `CallFormat.ofTemplate_eq`: both texts fill the places of one pattern;
* `CallFormat.Stable`: the templates that come back;
* `CallFormat.Marked`: the patterns between whose gaps the names can be told;
* `CallFormat.ofTemplate_stable_iff`.
-/

namespace FlightScript

/-! ## Parts of a text

A text is cut at each occurrence of a character, and put together again by placing it between the parts. -/

namespace Text

theorem exists_parts (sep : Char) (cs : List Char) : ∃ p ps, parts sep cs = p :: ps :=
  List.exists_cons_of_ne_nil (parts_ne_nil sep cs)

theorem parts_cons_of_ne {sep c : Char} (h : c ≠ sep) {cs p : List Char} {ps : List (List Char)}
    (hcs : parts sep cs = p :: ps) : parts sep (c :: cs) = (c :: p) :: ps := by
  rw [parts, if_neg h, hcs]

theorem parts_cons_self (sep : Char) (cs : List Char) : parts sep (sep :: cs) = [] :: parts sep cs := by
  rw [parts, if_pos rfl]

/-- Cutting gives one part more than there are places to cut. -/
theorem length_parts (sep : Char) (cs : List Char) : (parts sep cs).length = cs.count sep + 1 := by
  induction cs with
  | nil => rfl
  | cons c cs ih =>
      obtain ⟨p, ps, hcs⟩ := exists_parts sep cs
      by_cases hc : c = sep
      · rw [hc, parts_cons_self, List.length_cons, ih, List.count_cons_self]
      · rw [parts_cons_of_ne hc hcs, List.count_cons_of_ne hc, ← ih, hcs]
        rfl

/-- The parts, each behind the character, give the text back. -/
theorem flatten_parts (sep : Char) (cs : List Char) : ((parts sep cs).map (sep :: ·)).flatten = sep :: cs := by
  induction cs with
  | nil => rfl
  | cons c cs ih =>
      obtain ⟨p, ps, hcs⟩ := exists_parts sep cs
      by_cases hc : c = sep
      · rw [hc, parts_cons_self, List.map_cons, List.flatten_cons, ih]
        rfl
      · rw [hcs] at ih
        rw [parts_cons_of_ne hc hcs]
        simpa using ih

/-! ## Trimming

White space is taken off both ends and nowhere else. -/

theorem trim_eq (cs : List Char) : trim cs = (cs.dropWhile isBlank).rdropWhile isBlank := rfl

theorem trim_cons_of_isBlank {c : Char} (h : isBlank c = true) (cs : List Char) : trim (c :: cs) = trim cs := by
  rw [trim_eq, List.dropWhile_cons_of_pos h, ← trim_eq]

/-- Only white space is taken off. -/
theorem exists_trim (cs : List Char) : ∃ us vs, cs = us ++ (trim cs ++ vs) ∧ (∀ c ∈ us, isBlank c = true) ∧
    ∀ c ∈ vs, isBlank c = true := by
  refine ⟨cs.takeWhile isBlank, (cs.dropWhile isBlank).rtakeWhile isBlank, ?_, ?_, ?_⟩
  · rw [trim_eq, List.rdropWhile_append_rtakeWhile, List.takeWhile_append_dropWhile]
  · exact fun c hc => List.mem_takeWhile_imp hc
  · exact fun c hc => List.mem_rtakeWhile_imp hc

theorem trim_eq_self {c d : Char} {cs us vs : List Char} (hfirst : cs = c :: us) (hc : isBlank c = false)
    (hlast : cs = vs ++ [d]) (hd : isBlank d = false) : trim cs = cs := by
  have hstart : cs.dropWhile isBlank = cs := by rw [hfirst, List.dropWhile_cons_of_neg (by simp [hc])]
  rw [trim_eq, hstart, hlast, List.rdropWhile_concat_neg _ _ _ (by simp [hd])]

theorem isBlank_last_of_trim {c : Char} {cs us : List Char} (h : trim cs = cs) (hcs : cs = us ++ [c]) :
    isBlank c = false := by
  have hne : (cs.dropWhile isBlank).rdropWhile isBlank ≠ [] := by
    rw [← trim_eq, h, hcs]
    simp
  have hlast := List.rdropWhile_last_not isBlank _ hne
  simp only [← trim_eq, h] at hlast
  simpa [hcs] using hlast

end Text

namespace CallFormat

/-! ## Patterns

A pattern is a template with the space before it, or the default one, so that one argument does for both. -/

/-- A template counts: it says something and has as many places as there are parameters. -/
def Counts (count : Nat) (template : Option String) : Prop :=
  template.getD "" ≠ "" ∧ (Text.parts '_' (template.getD "").toList).length = count + 1

instance (count : Nat) (template : Option String) : Decidable (Counts count template) :=
  inferInstanceAs (Decidable (_ ∧ _))

/-- What follows the name in the texts of a call, with `_` for each parameter. -/
def pattern (count : Nat) (template : Option String) : List Char :=
  if Counts count template then ' ' :: (template.getD "").toList else (List.replicate count [' ', '_']).flatten

variable {count : Nat} {template : Option String}

theorem pattern_of_counts (h : Counts count template) : pattern count template = ' ' :: (template.getD "").toList :=
  if_pos h

theorem pattern_of_not_counts (h : ¬ Counts count template) :
    pattern count template = (List.replicate count [' ', '_']).flatten :=
  if_neg h

theorem Counts.count_eq (h : Counts count template) : (template.getD "").toList.count '_' = count := by
  have hlength := h.2
  rw [Text.length_parts] at hlength
  omega

theorem replicate_flatten_succ (count : Nat) : (List.replicate (count + 1) [' ', '_']).flatten =
    ' ' :: '_' :: (List.replicate count [' ', '_']).flatten := by
  simp [List.replicate_succ]

theorem count_replicate_flatten (c : Char) (count : Nat) :
    (List.replicate count [' ', '_']).flatten.count c = count * [' ', '_'].count c := by
  rw [List.count_flatten, List.map_replicate, List.sum_replicate_nat]

/-- A pattern has a place for each parameter. -/
theorem count_pattern (count : Nat) (template : Option String) : (pattern count template).count '_' = count := by
  by_cases h : Counts count template
  · rw [pattern_of_counts h, List.count_cons_of_ne (by decide), h.count_eq]
  · rw [pattern_of_not_counts h, count_replicate_flatten]
    simp

theorem fill_cons (c : Char) (p : List Char) (ps : List (List Char)) (fs : List String) :
    (fill ((c :: p) :: ps) fs).toList = c :: (fill (p :: ps) fs).toList := by
  cases ps with
  | nil => simp [fill]
  | cons q ps => cases fs <;> simp [fill]

theorem fill_parts_cons {c : Char} (hc : c ≠ '_') (cs : List Char) (fs : List String) :
    (fill (Text.parts '_' (c :: cs)) fs).toList = c :: (fill (Text.parts '_' cs) fs).toList := by
  obtain ⟨p, ps, hcs⟩ := Text.exists_parts '_' cs
  rw [Text.parts_cons_of_ne hc hcs, hcs, fill_cons]

theorem fill_parts_place (cs : List Char) (f : String) (fs : List String) :
    (fill (Text.parts '_' ('_' :: cs)) (f :: fs)).toList = f.toList ++ (fill (Text.parts '_' cs) fs).toList := by
  obtain ⟨p, ps, hcs⟩ := Text.exists_parts '_' cs
  rw [Text.parts_cons_self, hcs]
  simp [fill]

/-- Without a template the placeholders follow in order. -/
theorem fill_parts_replicate (fs : List String) :
    (fill (Text.parts '_' (List.replicate fs.length [' ', '_']).flatten) fs).toList = (spaced fs).toList := by
  induction fs with
  | nil => rfl
  | cons f fs ih =>
      rw [List.length_cons, replicate_flatten_succ, fill_parts_cons (by decide), fill_parts_place, ih, spaced_cons]

/-- **Both texts of a call fill the places of one pattern**, one with numbers and one with names. If the template has
as many places as there are parameters it is the pattern, and otherwise the pattern is a space and a place for each of
them. -/
theorem ofTemplate_eq (name : String) (ps : List String) (template : Option String) :
    ofTemplate name ps template =
      ⟨name ++ fill (Text.parts '_' (pattern ps.length template)) (numbers ps.length),
        name ++ fill (Text.parts '_' (pattern ps.length template)) (names ps)⟩ := by
  by_cases h : Counts ps.length template
  · have hfill : ∀ fs, " " ++ fill (Text.parts '_' (template.getD "").toList) fs =
        fill (Text.parts '_' (pattern ps.length template)) fs := by
      intro fs
      rw [← String.toList_inj, pattern_of_counts h, fill_parts_cons (by decide)]
      simp
    show (if Counts ps.length template then _ else _) = _
    rw [if_pos h, String.append_assoc, String.append_assoc, hfill, hfill]
  · have hfill : ∀ fs : List String, fs.length = ps.length →
        spaced fs = fill (Text.parts '_' (pattern ps.length template)) fs := by
      intro fs hfs
      rw [← String.toList_inj, pattern_of_not_counts h, ← hfs, fill_parts_replicate]
    show (if Counts ps.length template then _ else _) = _
    rw [if_neg h, hfill _ (by simp [numbers]), hfill _ (by simp [names])]

/-! ## Numbers in their places

The numbered text has parentheses with digits where the pattern has places. -/

/-- A text with numbers in its places, counted from a first one. -/
def expand (i : Nat) : List Char → List Char
  | [] => []
  | c :: cs => if c = '_' then '(' :: ((toString i).toList ++ ')' :: expand (i + 1) cs) else c :: expand i cs

theorem expand_place (i : Nat) (cs : List Char) :
    expand i ('_' :: cs) = '(' :: ((toString i).toList ++ ')' :: expand (i + 1) cs) := if_pos rfl

theorem expand_cons {c : Char} (hc : c ≠ '_') (i : Nat) (cs : List Char) : expand i (c :: cs) = c :: expand i cs :=
  if_neg hc

/-- Filling a pattern with the numbers from `i` on is expanding it from `i` on. The induction is over the
pattern. -/
theorem fill_range' (i : Nat) (cs : List Char) :
    (fill (Text.parts '_' cs) ((List.range' i (cs.count '_')).map fun k => "(" ++ toString k ++ ")")).toList =
      expand i cs := by
  induction cs generalizing i with
  | nil => rfl
  | cons c cs ih =>
      by_cases hc : c = '_'
      · rw [hc, List.count_cons_self, List.range'_succ, List.map_cons, fill_parts_place, ih, expand_place,
          number_toList]
        simp
      · rw [List.count_cons_of_ne hc, fill_parts_cons hc, ih, expand_cons hc]

/-- The numbered text is the pattern with numbers in its places. -/
theorem fill_numbers_pattern (count : Nat) (template : Option String) :
    (fill (Text.parts '_' (pattern count template)) (numbers count)).toList = expand 0 (pattern count template) := by
  rw [← fill_range', count_pattern, numbers, List.range_eq_range']

/-- Two texts are expanded one after the other, the second from the number that the first has come to. -/
theorem expand_append (i : Nat) (cs ds : List Char) :
    expand i (cs ++ ds) = expand i cs ++ expand (i + cs.count '_') ds := by
  induction cs generalizing i with
  | nil => rfl
  | cons c cs ih =>
      by_cases hc : c = '_'
      · rw [hc, List.cons_append, expand_place, expand_place, ih, List.count_cons_self, Nat.add_right_comm,
          Nat.add_assoc i]
        simp
      · rw [List.cons_append, expand_cons hc, expand_cons hc, ih, List.count_cons_of_ne hc, List.cons_append]

theorem expand_of_notMem {cs : List Char} (h : '_' ∉ cs) (i : Nat) : expand i cs = cs := by
  induction cs with
  | nil => rfl
  | cons c cs ih =>
      rw [List.mem_cons, not_or] at h
      rw [expand_cons (Ne.symm h.1), ih h.2]

theorem isDigit_toString (i : Nat) : ∀ d ∈ (toString i).toList, Text.isDigit d = true := by
  intro d hd
  rw [toString_toList] at hd
  exact isDigit_of_isDigit (Nat.isDigit_of_mem_toDigits (by decide) (by decide) hd)

theorem toString_ne_nil (i : Nat) : (toString i).toList ≠ [] := by
  rw [toString_toList]
  exact Nat.toDigits_ne_nil

/-- Every place adds a parenthesis. -/
theorem count_expand (i : Nat) (cs : List Char) : (expand i cs).count '(' = cs.count '(' + cs.count '_' := by
  have hdigits : ∀ i : Nat, (toString i).toList.count '(' = 0 := by
    intro i
    rw [List.count_eq_zero]
    exact fun h => absurd (isDigit_toString i _ h) (by decide)
  induction cs generalizing i with
  | nil => rfl
  | cons c cs ih =>
      by_cases hc : c = '_'
      · rw [hc, expand_place, List.count_cons_self, List.count_append, hdigits, List.count_cons_of_ne (by decide), ih,
          List.count_cons_of_ne (by decide), List.count_cons_self]
        omega
      · rw [expand_cons hc, List.count_cons, List.count_cons, ih, List.count_cons_of_ne hc]
        omega

/-- White space in front stays in front: a place is not blank, before and after it is filled. -/
theorem dropWhile_expand (i : Nat) (cs : List Char) :
    (expand i cs).dropWhile Text.isBlank = expand i (cs.dropWhile Text.isBlank) := by
  induction cs with
  | nil => rfl
  | cons c cs ih =>
      by_cases hc : c = '_'
      · rw [hc, expand_place]
        exact (expand_place i cs).symm
      · by_cases hb : Text.isBlank c = true
        · rw [expand_cons hc, List.dropWhile_cons_of_pos hb, List.dropWhile_cons_of_pos hb, ih]
        · rw [List.dropWhile_cons_of_neg hb, expand_cons hc, List.dropWhile_cons_of_neg hb]

/-- White space behind stays behind. The induction is over the text from its end. -/
theorem rdropWhile_expand (i : Nat) (cs : List Char) :
    (expand i cs).rdropWhile Text.isBlank = expand i (cs.rdropWhile Text.isBlank) := by
  induction cs using List.reverseRecOn with
  | nil => rfl
  | append_singleton cs c ih =>
      rw [expand_append]
      by_cases hc : c = '_'
      · subst hc
        have hlast : expand (i + cs.count '_') ['_'] = ('(' :: (toString (i + cs.count '_')).toList) ++ [')'] :=
          expand_place _ _
        rw [hlast, ← List.append_assoc, List.rdropWhile_concat_neg _ _ _ (by decide),
          List.rdropWhile_concat_neg _ _ _ (by decide), expand_append, hlast, List.append_assoc]
      · rw [expand_cons hc]
        by_cases hb : Text.isBlank c = true
        · rw [List.rdropWhile_concat_pos _ _ _ hb, ← ih, ← List.rdropWhile_concat_pos _ (expand i cs) _ hb]
          rfl
        · rw [List.rdropWhile_concat_neg _ _ _ hb, expand_append, expand_cons hc]
          exact List.rdropWhile_concat_neg _ _ _ hb

/-- White space around a text stays around it. -/
theorem trim_expand (i : Nat) (cs : List Char) : Text.trim (expand i cs) = expand i (Text.trim cs) := by
  rw [Text.trim_eq, dropWhile_expand, rdropWhile_expand, ← Text.trim_eq]

theorem notMem_of_isBlank {us : List Char} (h : ∀ c ∈ us, Text.isBlank c = true) : '_' ∉ us :=
  fun hmem => absurd (h _ hmem) (by decide)

/-- Trimming takes off no places. -/
theorem count_trim (cs : List Char) : (Text.trim cs).count '_' = cs.count '_' := by
  obtain ⟨us, vs, hcs, hus, hvs⟩ := Text.exists_trim cs
  have hsum := congrArg (List.count '_') hcs
  rw [List.count_append, List.count_append, List.count_eq_zero.mpr (notMem_of_isBlank hus),
    List.count_eq_zero.mpr (notMem_of_isBlank hvs)] at hsum
  omega

/-- So a text that is as long as the trimmed one has none around it. -/
theorem trim_eq_self_of_expand {i : Nat} {cs : List Char} (h : expand i (Text.trim cs) = expand i cs) :
    Text.trim cs = cs := by
  obtain ⟨us, vs, hcs, hus, hvs⟩ := Text.exists_trim cs
  have hlength := congrArg List.length h
  rw [congrArg (expand i) hcs, expand_append, expand_append, expand_of_notMem (notMem_of_isBlank hus),
    expand_of_notMem (notMem_of_isBlank hvs), List.count_eq_zero.mpr (notMem_of_isBlank hus)] at hlength
  simp only [List.length_append, Nat.add_zero] at hlength
  have hu : us = [] := List.eq_nil_of_length_eq_zero (by omega)
  have hv : vs = [] := List.eq_nil_of_length_eq_zero (by omega)
  rw [hu, hv] at hcs
  simpa using hcs.symm

/-! ## Places read off a numbered text

The importer replaces numbers in parentheses by places, wherever they come from. -/

/-- No number stands in parentheses. -/
def Numberless (cs : List Char) : Prop :=
  ∀ us ds vs, cs = us ++ '(' :: (ds ++ ')' :: vs) → (∀ d ∈ ds, Text.isDigit d = true) → ds = []

theorem Numberless.tail {c : Char} {cs : List Char} (h : Numberless (c :: cs)) : Numberless cs :=
  fun us ds vs hcs hds => h (c :: us) ds vs (by rw [hcs, List.cons_append]) hds

theorem Numberless.of_append {us cs : List Char} (h : Numberless (us ++ cs)) : Numberless cs := by
  induction us with
  | nil => exact h
  | cons u us ih => exact ih h.tail

theorem numberless_of_notMem {cs : List Char} (h : '(' ∉ cs) : Numberless cs := by
  intro us ds vs hcs _
  exact absurd (hcs ▸ by simp) h

/-- What stands in front of a parenthesis is read by itself. -/
theorem replaceNumbers_append (held cs ds : List Char) :
    replaceNumbers held (cs ++ '(' :: ds) = replaceNumbers held cs ++ replaceNumbers ['('] ds := by
  induction cs generalizing held with
  | nil => simp [replaceNumbers]
  | cons c cs ih =>
      simp only [List.cons_append, replaceNumbers, ih]
      split_ifs <;> simp

/-- A number in parentheses becomes a place. -/
theorem replaceNumbers_number {held ds : List Char} (hheld : held ≠ []) (hds : ∀ d ∈ ds, Text.isDigit d = true)
    (hlength : 1 < held.length + ds.length) (cs : List Char) :
    replaceNumbers held (ds ++ ')' :: cs) = '_' :: replaceNumbers [] cs := by
  have hempty : ∀ {held : List Char}, held ≠ [] → ¬ held.isEmpty = true := by simp
  induction ds generalizing held with
  | nil =>
      have hlong : ')' = ')' ∧ 1 < held.length := ⟨rfl, by simpa using hlength⟩
      rw [List.nil_append, replaceNumbers, if_neg (by decide), if_neg (hempty hheld), if_neg (by decide), if_pos hlong]
  | cons d ds ih =>
      obtain ⟨hd, hds⟩ := List.forall_mem_cons.mp hds
      have hopen : ¬ d = '(' := by
        rintro rfl
        exact absurd hd (by decide)
      have hmore : 1 < (d :: held).length + ds.length := by
        simp only [List.length_cons] at hlength ⊢
        omega
      rw [List.cons_append, replaceNumbers, if_neg hopen, if_neg (hempty hheld), if_pos hd]
      exact ih (by simp) hds hmore

theorem replaceNumbers_toString (i : Nat) (cs : List Char) :
    replaceNumbers ['('] ((toString i).toList ++ ')' :: cs) = '_' :: replaceNumbers [] cs := by
  have hlength := List.length_pos_of_ne_nil (toString_ne_nil i)
  exact replaceNumbers_number (by simp) (isDigit_toString i) (by simp only [List.length_singleton]; omega) cs

theorem replaceNumbers_place (held : List Char) (i : Nat) (cs : List Char) :
    replaceNumbers held (expand i ('_' :: cs)) = held.reverse ++ '_' :: replaceNumbers [] (expand (i + 1) cs) := by
  rw [expand_place, replaceNumbers, if_pos rfl, replaceNumbers_toString]

/-- What is held back while a numbered text is read: nothing, or a parenthesis with digits behind it. -/
def Held (held : List Char) : Prop := held = [] ∨ ∃ ds, held.reverse = '(' :: ds ∧ ∀ d ∈ ds, Text.isDigit d = true

/-- **The places are read off a text without numbers of its own.** -/
theorem replaceNumbers_expand {held cs : List Char} (hheld : Held held) (h : Numberless (held.reverse ++ cs))
    (i : Nat) : replaceNumbers held (expand i cs) = held.reverse ++ cs := by
  induction cs generalizing held i with
  | nil => simp [expand, replaceNumbers]
  | cons c cs ih =>
      have hcs : Numberless cs := h.of_append.tail
      by_cases hc : c = '_'
      · rw [hc, replaceNumbers_place, ih (.inl rfl) hcs]
        rfl
      rw [expand_cons hc, replaceNumbers]
      by_cases hopen : c = '('
      · have hread := @ih ['('] (.inr ⟨[], rfl, by simp⟩) (hopen ▸ h.of_append) i
        rw [if_pos hopen, hopen, hread]
        rfl
      rw [if_neg hopen]
      by_cases hnil : held = []
      · rw [hnil, if_pos List.isEmpty_nil, ih (.inl rfl) hcs]
        rfl
      rw [if_neg (by simpa using hnil)]
      obtain ⟨ds, hreverse, hds⟩ := hheld.resolve_left hnil
      by_cases hdigit : Text.isDigit c = true
      · -- one more digit is held back
        have hmore : Held (c :: held) := by
          refine .inr ⟨ds ++ [c], by simp [hreverse], ?_⟩
          simpa [or_imp, forall_and] using ⟨hds, hdigit⟩
        rw [if_pos hdigit, ih hmore (by simpa using h)]
        simp
      rw [if_neg hdigit]
      by_cases hclose : c = ')' ∧ 1 < held.length
      · -- a number would be complete, but there is none
        obtain ⟨rfl, hlength⟩ := hclose
        have hnone : ds = [] := h [] ds cs (by rw [hreverse]; rfl) hds
        rw [← List.length_reverse, hreverse, hnone] at hlength
        exact absurd hlength (by decide)
      · rw [if_neg hclose, ih (.inl rfl) hcs]
        rfl

theorem replaceNumbers_nil_expand {cs : List Char} (h : Numberless cs) (i : Nat) :
    replaceNumbers [] (expand i cs) = cs :=
  replaceNumbers_expand (.inl rfl) h i

/-- Every place of a text is read off it, whatever else is. -/
theorem count_le_count_replaceNumbers (held : List Char) (i : Nat) (cs : List Char) :
    cs.count '_' ≤ (replaceNumbers held (expand i cs)).count '_' := by
  induction cs generalizing held i with
  | nil => simp
  | cons c cs ih =>
      by_cases hc : c = '_'
      · rw [hc, replaceNumbers_place, List.count_cons_self, List.count_append, List.count_cons_self]
        have := ih [] (i + 1)
        omega
      · rw [List.count_cons_of_ne hc, expand_cons hc, replaceNumbers]
        have hrest : ∀ us, cs.count '_' ≤ (us ++ replaceNumbers [] (expand i cs)).count '_' := by
          intro us
          rw [List.count_append]
          exact Nat.le_add_left_of_le (ih [] i)
        split_ifs
        · rw [List.count_append]
          exact Nat.le_add_left_of_le (ih [c] i)
        · exact hrest [c]
        · exact ih (c :: held) i
        · exact hrest ['_']
        · simpa using hrest (held.reverse ++ [c])

/-- **A number of its own is read off a text as one more place.** -/
theorem numberless_of_count {i : Nat} {cs : List Char}
    (h : (replaceNumbers [] (expand i cs)).count '_' ≤ cs.count '_') : Numberless cs := by
  rintro us ds vs rfl hds
  by_contra hne
  have hmark : '_' ∉ ds := fun hmem => absurd (hds _ hmem) (by decide)
  have hzero := List.count_eq_zero.mpr hmark
  have hlength := List.length_pos_of_ne_nil hne
  have hnumber := @replaceNumbers_number ['('] ds (by simp) hds (by simp only [List.length_singleton]; omega)
    (expand (i + us.count '_' + ds.count '_') vs)
  have hus := count_le_count_replaceNumbers [] i us
  have hvs := count_le_count_replaceNumbers [] (i + us.count '_' + ds.count '_') vs
  rw [expand_append, expand_cons (by decide), expand_append, expand_of_notMem hmark, expand_cons (by decide),
    replaceNumbers_append, hnumber] at h
  simp only [List.count_append, List.count_cons_self, List.count_cons_of_ne (show '(' ≠ '_' by decide),
    List.count_cons_of_ne (show ')' ≠ '_' by decide)] at h
  omega

/-! ## Texts of numbers only

What is left of a default pattern are numbers with single spaces between them, which the importer tells by a
small machine that runs over the characters. -/

theorem foldl_next_failed (cs : List Char) : cs.foldl Progress.next .failed = .failed := by
  induction cs with
  | nil => rfl
  | cons c cs ih => exact ih

/-- What cannot be read makes the rest fail. -/
theorem foldl_next_ne_closed {state : Progress} {c : Char} (h : Progress.next state c = .failed) (cs : List Char) :
    (c :: cs).foldl Progress.next state ≠ .closed := by
  rw [List.foldl_cons, h, foldl_next_failed]
  decide

/-- Digits behind a parenthesis end in no number if there is none. -/
theorem foldl_next_digits {ds cs : List Char} (hne : ds ≠ []) (hds : ∀ d ∈ ds, Text.isDigit d = true)
    (h : Numberless ('(' :: (ds ++ cs))) (i : Nat) : (expand i cs).foldl Progress.next .digits ≠ .closed := by
  induction cs generalizing ds with
  | nil => simp [expand]
  | cons c cs ih =>
      by_cases hc : c = '_'
      · rw [hc, expand_place]
        exact foldl_next_ne_closed rfl _
      rw [expand_cons hc]
      by_cases hdigit : Text.isDigit c = true
      · have hmore : ∀ d ∈ ds ++ [c], Text.isDigit d = true := by
          simpa [or_imp, forall_and] using ⟨hds, hdigit⟩
        rw [List.foldl_cons, Progress.next, if_pos hdigit]
        exact ih (by simp) hmore (by simpa using h)
      by_cases hclose : c = ')'
      · exact absurd (h [] ds cs (by rw [hclose]; rfl) hds) hne
      · exact foldl_next_ne_closed (by rw [Progress.next, if_neg hdigit, if_neg hclose]) _

/-- Behind a parenthesis that belongs to no number of its own the machine does not come to an end of a number. -/
theorem foldl_next_opened {cs : List Char} (h : Numberless ('(' :: cs)) (i : Nat) :
    (expand i cs).foldl Progress.next .opened ≠ .closed := by
  cases cs with
  | nil => simp [expand]
  | cons c cs =>
      by_cases hc : c = '_'
      · rw [hc, expand_place]
        exact foldl_next_ne_closed rfl _
      rw [expand_cons hc]
      by_cases hdigit : Text.isDigit c = true
      · rw [List.foldl_cons, Progress.next, if_pos hdigit]
        exact @foldl_next_digits [c] cs (by simp) (by simpa using hdigit) h i
      · exact foldl_next_ne_closed (by rw [Progress.next, if_neg hdigit]) _

/-- One place or several without anything between them. -/
def Run (w : List Char) : Prop := w ≠ [] ∧ ∀ c ∈ w, c = '_'

/-- **A text without numbers of its own is read as numbers only** exactly if it is runs of places with single spaces
between them. Behind a number the first run may have begun already. -/
theorem foldl_next_expand {cs : List Char} (h : Numberless cs) {p : List Char} {ps : List (List Char)}
    (hcs : Text.parts ' ' cs = p :: ps) (i : Nat) :
    ((expand i cs).foldl Progress.next .boundary = .closed ↔ Run p ∧ ∀ w ∈ ps, Run w) ∧
      ((expand i cs).foldl Progress.next .closed = .closed ↔ (∀ c ∈ p, c = '_') ∧ ∀ w ∈ ps, Run w) := by
  induction cs generalizing i p ps with
  | nil =>
      cases hcs
      simp [expand, Run]
  | cons c cs ih =>
      obtain ⟨q, qs, hparts⟩ := Text.exists_parts ' ' cs
      have hrest := fun i => ih h.tail hparts i
      by_cases hmark : c = '_'
      · rw [hmark, Text.parts_cons_of_ne (by decide) hparts] at hcs
        cases hcs
        have hnumber : ∀ state, Progress.next state '(' = .opened →
            (expand i (c :: cs)).foldl Progress.next state = (expand (i + 1) cs).foldl Progress.next .closed := by
          intro state hstate
          rw [hmark, expand_place, ← foldl_next_number i, List.foldl_cons, hstate]
          rfl
        rw [hnumber .boundary rfl, hnumber .closed rfl, (hrest (i + 1)).2]
        simp [Run]
      rw [expand_cons hmark]
      by_cases hspace : c = ' '
      · -- a space may stand behind a number only
        rw [hspace, Text.parts_cons_self, hparts] at hcs
        cases hcs
        have hboundary : Progress.next .closed c = .boundary := by rw [hspace]; rfl
        have hfailed : (c :: expand i cs).foldl Progress.next .boundary ≠ .closed :=
          foldl_next_ne_closed (by rw [hspace]; rfl) _
        refine ⟨iff_of_false hfailed fun hw => hw.1.1 rfl, ?_⟩
        rw [List.foldl_cons, hboundary, (hrest i).1]
        simp
      · -- any other character can only open a number, and there is none
        rw [Text.parts_cons_of_ne hspace hparts] at hcs
        cases hcs
        have hno : ∀ state, state = .boundary ∨ state = .closed →
            (c :: expand i cs).foldl Progress.next state ≠ .closed := by
          intro state hstate
          by_cases hopen : c = '('
          · have hnext : Progress.next state c = .opened := by
              rcases hstate with rfl | rfl <;> rw [hopen] <;> rfl
            rw [List.foldl_cons, hnext]
            exact foldl_next_opened (hopen ▸ h) i
          · have hnext : Progress.next state c = .failed := by
              rcases hstate with rfl | rfl <;> simp [Progress.next, hopen, hspace]
            exact foldl_next_ne_closed hnext _
        have hrun : ¬ ∀ d ∈ c :: q, d = '_' := fun hall => hmark (hall c List.mem_cons_self)
        exact ⟨iff_of_false (hno _ (.inl rfl)) fun hw => hrun hw.1.2,
          iff_of_false (hno _ (.inr rfl)) fun hw => hrun hw.1⟩

theorem next_ne_boundary {c : Char} (hc : c ≠ ' ') (state : Progress) : Progress.next state c ≠ .boundary := by
  cases state <;> grind [Progress.next]

/-- No space stands at the end of a trimmed text, so numbers only end with a parenthesis. -/
theorem isNumbering_iff {cs : List Char} (hne : cs ≠ []) (htrim : Text.trim cs = cs) :
    isNumbering cs = true ↔ cs.foldl Progress.next .boundary = .closed := by
  obtain ⟨init, c, hcs⟩ := (List.eq_nil_or_concat cs).resolve_left hne
  rw [List.concat_eq_append] at hcs
  have hspace : c ≠ ' ' := by
    rintro rfl
    exact absurd (Text.isBlank_last_of_trim htrim hcs) (by decide)
  have hboundary : cs.foldl Progress.next .boundary ≠ .boundary := by
    rw [hcs, List.foldl_concat]
    exact next_ne_boundary hspace _
  unfold isNumbering
  cases hstate : cs.foldl Progress.next .boundary with
  | boundary => exact absurd hstate hboundary
  | _ => simp

/-- A trimmed text without numbers of its own is read as numbers only exactly if it is places with single spaces
between them. -/
theorem isNumbering_expand {cs : List Char} (hne : cs ≠ []) (htrim : Text.trim cs = cs) (h : Numberless cs) :
    isNumbering (expand 0 cs) = true ↔ ∀ w ∈ Text.parts ' ' cs, Run w := by
  obtain ⟨p, ps, hparts⟩ := Text.exists_parts ' ' cs
  have hexpand : expand 0 cs ≠ [] := by
    intro hnil
    cases cs with
    | nil => exact hne rfl
    | cons c cs =>
        by_cases hc : c = '_'
        · rw [hc, expand_place] at hnil
          cases hnil
        · rw [expand_cons hc] at hnil
          cases hnil
  rw [isNumbering_iff hexpand (by rw [trim_expand, htrim]), (foldl_next_expand h hparts 0).1, hparts,
    List.forall_mem_cons]

/-! ## Templates that come back

A template is stable if writing and reading it gives the same texts again. -/

/-- A template that comes back from a call: nothing is trimmed from it, it holds no number in parentheses, and if it is
runs of places with single spaces between them, each run is one place. -/
structure Stable (cs : List Char) : Prop where
  trimmed : Text.trim cs = cs
  numberless : Numberless cs
  spread : (∀ w ∈ Text.parts ' ' cs, Run w) → ∀ w ∈ Text.parts ' ' cs, w = ['_']

/-- The template that is read off what follows the name in a call. -/
def recover (cs : List Char) : Option String :=
  if isNumbering (Text.trim cs) then none else some (String.ofList (replaceNumbers [] (Text.trim cs)))

/-- What is read off a call behind the declared name is the template. -/
theorem template?_append (name rest : String) :
    template? (some name) (some (name ++ rest)) = recover rest.toList := by
  have hdrop : dropBytes name.utf8ByteSize (name ++ rest).toList = some rest.toList := by
    have h := dropBytes_append name.toList rest.toList
    rwa [String.ofList_toList, ← String.toList_append] at h
  show (if isNumbering (Text.trim ((dropBytes _ _).getD [])) then none else _) = _
  rw [hdrop]
  rfl

/-- Single places with single spaces between them are the pattern of the default. -/
theorem eq_replicate_of_parts {cs : List Char} (h : ∀ w ∈ Text.parts ' ' cs, w = ['_']) :
    ' ' :: cs = (List.replicate (cs.count '_') [' ', '_']).flatten := by
  have hparts := List.eq_replicate_of_mem h
  have htext := Text.flatten_parts ' ' cs
  rw [hparts, List.map_replicate] at htext
  have hcount : (Text.parts ' ' cs).length = cs.count '_' := by
    have hsum := congrArg (List.count '_') htext
    rw [count_replicate_flatten] at hsum
    simpa using hsum
  rw [← hcount, htext]

theorem parts_replicate_flatten (count : Nat) :
    Text.parts ' ' (List.replicate count [' ', '_']).flatten = [] :: List.replicate count ['_'] := by
  induction count with
  | zero => rfl
  | succ count ih =>
      rw [replicate_flatten_succ, Text.parts_cons_self, Text.parts_cons_of_ne (by decide) ih, List.replicate_succ]

/-- The template of the default has no white space around it. -/
theorem trim_of_replicate {cs : List Char} (h : (List.replicate count [' ', '_']).flatten = ' ' :: cs) :
    Text.trim cs = cs := by
  cases count with
  | zero => cases h
  | succ count =>
      have hfirst : cs = '_' :: (List.replicate count [' ', '_']).flatten := by
        rw [replicate_flatten_succ] at h
        exact (List.cons.inj h).2.symm
      obtain ⟨us, c, hlast⟩ := (List.eq_nil_or_concat cs).resolve_left (by rw [hfirst]; simp)
      rw [List.concat_eq_append] at hlast
      have hmark : c = '_' := by
        have hend : (List.replicate count [' ', '_']).flatten ++ [' '] ++ ['_'] = ' ' :: us ++ [c] := by
          rw [List.cons_append, ← hlast, ← h, List.replicate_succ', List.flatten_append]
          simp
        exact (List.append_inj' hend rfl).2 |> List.singleton_inj.mp |> Eq.symm
      exact Text.trim_eq_self hfirst (by decide) hlast (by rw [hmark]; decide)

theorem trim_expand_pattern (h : Counts count template) :
    Text.trim (expand 0 (pattern count template)) = expand 0 (Text.trim (template.getD "").toList) := by
  rw [pattern_of_counts h, expand_cons (by decide), Text.trim_cons_of_isBlank (by decide), trim_expand]

/-- A stable template gives the same pattern once more. -/
theorem pattern_recover (h : Counts count template) (hs : Stable (template.getD "").toList) :
    pattern count (recover (expand 0 (pattern count template))) = pattern count template := by
  have hne : (template.getD "").toList ≠ [] := by simpa using h.1
  unfold recover
  rw [trim_expand_pattern h, hs.trimmed]
  by_cases hnumbering : isNumbering (expand 0 (template.getD "").toList) = true
  · -- the template is taken for the default, and is the default
    have hwords := hs.spread ((isNumbering_expand hne hs.trimmed hs.numberless).mp hnumbering)
    rw [if_pos hnumbering, pattern_of_not_counts fun hnone => hnone.1 rfl, pattern_of_counts h,
      eq_replicate_of_parts hwords, h.count_eq]
  · have hsame : Counts count (some (template.getD "")) := h
    rw [if_neg hnumbering, replaceNumbers_nil_expand hs.numberless, String.ofList_toList, pattern_of_counts hsame,
      pattern_of_counts h, Option.getD_some]

/-- If what is read off has as many places, no number was among them, and nothing was trimmed. -/
theorem stable_of_counts (h : Counts count template)
    (hback : Counts count (recover (expand 0 (pattern count template))))
    (heq : expand 0 (pattern count (recover (expand 0 (pattern count template)))) = expand 0 (pattern count template)) :
    Stable (template.getD "").toList := by
  unfold recover at hback heq
  rw [trim_expand_pattern h] at hback heq
  by_cases hnumbering : isNumbering (expand 0 (Text.trim (template.getD "").toList)) = true
  · rw [if_pos hnumbering] at hback
    exact absurd rfl hback.1
  rw [if_neg hnumbering] at hback heq
  have hnumberless : Numberless (Text.trim (template.getD "").toList) := by
    have hread := hback.count_eq
    rw [Option.getD_some, String.toList_ofList] at hread
    exact numberless_of_count (by rw [hread, count_trim, h.count_eq])
  -- so the trimmed template itself was read off, and writing it gives a text of the same length
  rw [replaceNumbers_nil_expand hnumberless] at hback heq
  rw [pattern_of_counts hback, pattern_of_counts h, Option.getD_some, String.toList_ofList, expand_cons (by decide),
    expand_cons (by decide)] at heq
  have htrimmed := trim_eq_self_of_expand (List.cons.inj heq).2
  rw [htrimmed] at hnumberless hnumbering
  have hne : (template.getD "").toList ≠ [] := by simpa using h.1
  refine ⟨htrimmed, hnumberless, fun hruns => ?_⟩
  exact absurd ((isNumbering_expand hne htrimmed hnumberless).mpr hruns) hnumbering

/-- If the numbered text is that of the default, the template is that of the default. -/
theorem stable_of_default (h : Counts count template)
    (heq : expand 0 (List.replicate count [' ', '_']).flatten = expand 0 (pattern count template)) :
    Stable (template.getD "").toList := by
  have hdefault : (List.replicate count [' ', '_']).flatten.count '(' = 0 := by
    rw [count_replicate_flatten]
    rfl
  -- the parentheses are those of the places, so neither pattern has any of its own
  have hopen : (pattern count template).count '(' = 0 := by
    have hparens := congrArg (List.count '(') heq
    rw [count_expand, count_expand, hdefault, count_replicate_flatten, count_pattern] at hparens
    have hone : [' ', '_'].count '_' = 1 := rfl
    rw [hone] at hparens
    omega
  have hread := congrArg (replaceNumbers []) heq
  rw [replaceNumbers_nil_expand (numberless_of_notMem (List.count_eq_zero.mp hdefault)),
    replaceNumbers_nil_expand (numberless_of_notMem (List.count_eq_zero.mp hopen)), pattern_of_counts h] at hread
  refine ⟨trim_of_replicate hread, ?_, fun _ => ?_⟩
  · rw [pattern_of_counts h] at hopen
    exact (numberless_of_notMem (List.count_eq_zero.mp hopen)).tail
  · have hparts := parts_replicate_flatten count
    rw [hread, Text.parts_cons_self, List.cons.injEq] at hparts
    rw [hparts.2]
    exact fun w hw => List.eq_of_mem_replicate hw

/-- A template that gives the same numbered text once more is stable. -/
theorem stable_of_expand (h : Counts count template)
    (heq : expand 0 (pattern count (recover (expand 0 (pattern count template)))) = expand 0 (pattern count template)) :
    Stable (template.getD "").toList := by
  by_cases hback : Counts count (recover (expand 0 (pattern count template)))
  · exact stable_of_counts h hback heq
  · rw [pattern_of_not_counts hback] at heq
    exact stable_of_default h heq

/-- **The texts of a call come back from the template that is read off them** exactly if the template, where it
counts, is stable. -/
theorem ofTemplate_template?_iff (name : String) (ps : List String) (template : Option String) :
    ofTemplate name ps (template? (some name) (some (ofTemplate name ps template).numbered)) =
        ofTemplate name ps template ↔ (Counts ps.length template → Stable (template.getD "").toList) := by
  by_cases h : Counts ps.length template
  · rw [ofTemplate_eq name ps template, template?_append, fill_numbers_pattern, ofTemplate_eq]
    constructor
    · intro heq _
      have hfill := (String.append_right_inj name).mp (CallFormat.mk.inj heq).1
      have hexpand := congrArg String.toList hfill
      rw [fill_numbers_pattern, fill_numbers_pattern] at hexpand
      exact stable_of_expand h hexpand
    · intro hs
      rw [pattern_recover h (hs h)]
  · have hnone : ofTemplate name ps template = ofTemplate name ps none := by
      rw [ofTemplate_eq, ofTemplate_eq, pattern_of_not_counts h, pattern_of_not_counts fun hnone => hnone.1 rfl]
    rw [hnone, template?_ofTemplate]
    exact iff_of_true rfl fun hcounts => absurd hcounts h

/-! ## Names between bars

The names are read off as every second part between bars, so one bar too many shifts all names behind it. -/

/-- The gaps of a pattern in which the names between bars can be told apart from the rest: no bar stands in a gap or a
name. One more bar does no harm behind the last name, nor where it stands in front of a name in a gap that ends with the
name, if from there on the gaps repeat the names. -/
inductive Marked : List (List Char) → List String → Prop where
  | last {gap : List Char} : gap.count '|' ≤ 1 → Marked [gap] []
  | clear {gap : List Char} {gaps : List (List Char)} {p : String} {ps : List String} :
      '|' ∉ gap → '|' ∉ p.toList → Marked gaps ps → Marked (gap :: gaps) (p :: ps)
  | shifted {gap lead : List Char} {gaps : List (List Char)} {p : String} {ps : List String} :
      gap = lead ++ '|' :: p.toList → '|' ∉ lead → '|' ∉ p.toList → (∀ g ∈ gaps, '|' ∉ g) →
      gaps.dropLast = ps.map String.toList → Marked (gap :: gaps) (p :: ps)

theorem exists_cons_cons {gaps : List (List Char)} {k : Nat} (h : gaps.length = k + 1 + 1) :
    ∃ gap next rest, gaps = gap :: next :: rest := by
  obtain ⟨gap, gaps, rfl⟩ := List.exists_cons_of_length_eq_add_one h
  obtain ⟨next, gaps, rfl⟩ := List.exists_cons_of_length_eq_add_one (Nat.succ.inj h)
  exact ⟨gap, next, gaps, rfl⟩

theorem length_closedParts : (ps : List (List Char)) → (closedParts ps).length = (ps.length - 1) / 2
  | [] => rfl
  | [_] => by simp [closedParts]
  | [_, _] => by simp [closedParts]
  | _ :: p :: q :: ps => by
      rw [closedParts, List.length_cons, length_closedParts (q :: ps)]
      simp only [List.length_cons]
      omega

theorem fill_names_cons (gap next : List Char) (gaps : List (List Char)) (p : String) (ps : List String) :
    (fill (gap :: next :: gaps) (names (p :: ps))).toList =
      gap ++ '|' :: (p.toList ++ '|' :: (fill (next :: gaps) (names ps)).toList) := by
  simp [fill, names]

/-- Every name brings two bars. -/
theorem count_fill_names {gaps : List (List Char)} {ps : List String} (h : gaps.length = ps.length + 1) :
    2 * ps.length ≤ (fill gaps (names ps)).toList.count '|' := by
  induction ps generalizing gaps with
  | nil => simp
  | cons p ps ih =>
      obtain ⟨gap, next, gaps, rfl⟩ := exists_cons_cons h
      have hrest := @ih (next :: gaps) (by simpa using h)
      rw [fill_names_cons]
      simp only [List.count_append, List.count_cons_self, List.length_cons]
      omega

theorem closedParts_cons_cons {ps : List (List Char)} (h : ps ≠ []) (x p : List Char) :
    closedParts (x :: p :: ps) = String.ofList p :: closedParts ps := by
  obtain ⟨q, ps, rfl⟩ := List.exists_cons_of_ne_nil h
  rfl

/-- The names are read off as many bars as there are. -/
theorem length_closedParts_parts (cs : List Char) : (closedParts (Text.parts '|' cs)).length = cs.count '|' / 2 := by
  rw [length_closedParts, Text.length_parts]
  rfl

theorem length_closedParts_cons (x cs : List Char) :
    (closedParts (x :: Text.parts '|' cs)).length = (cs.count '|' + 1) / 2 := by
  rw [length_closedParts, List.length_cons, Text.length_parts]
  rfl

/-- Behind one part more, the gaps are read off in place of the names. -/
theorem closedParts_cons_eq_iff {gaps : List (List Char)} {ps : List String} (h : gaps.length = ps.length + 1)
    (x : List Char) : closedParts (x :: Text.parts '|' (fill gaps (names ps)).toList) = ps ↔
      (∀ g ∈ gaps, '|' ∉ g) ∧ gaps.dropLast = ps.map String.toList := by
  induction ps generalizing gaps x with
  | nil =>
      obtain ⟨gap, rfl⟩ := List.length_eq_one_iff.mp h
      have hfill : (fill [gap] (names [])).toList = gap := by simp [fill]
      rw [hfill, ← List.length_eq_zero_iff, length_closedParts_cons]
      have hcount : (gap.count '|' + 1) / 2 = 0 ↔ gap.count '|' = 0 := by omega
      rw [hcount, List.count_eq_zero]
      simp
  | cons p ps ih =>
      obtain ⟨gap, next, gaps, rfl⟩ := exists_cons_cons h
      have hrest : (next :: gaps).length = ps.length + 1 := by simpa using h
      by_cases hgap : '|' ∈ gap
      · -- there are too many bars for the names
        refine iff_of_false (fun heq => ?_) fun hno => hno.1 gap List.mem_cons_self hgap
        have hlength := congrArg List.length heq
        rw [length_closedParts_cons, fill_names_cons] at hlength
        have hbars := count_fill_names hrest
        have hone := List.count_pos_iff.mpr hgap
        simp only [List.count_append, List.count_cons_self, List.length_cons] at hlength
        omega
      · rw [fill_names_cons, parts_append_cons hgap, closedParts_cons_cons (Text.parts_ne_nil _ _), List.cons.injEq,
          List.forall_mem_cons, List.dropLast_cons_cons, List.map_cons, List.cons.injEq]
        by_cases hname : String.ofList gap = p
        · have hp : p.toList = gap := by rw [← hname, String.toList_ofList]
          rw [hp, parts_append_cons hgap, ih hrest gap]
          simp [hname, hgap]
        · have hp : gap ≠ p.toList := fun heq => hname (by rw [heq, String.ofList_toList])
          simp [hname, hp]

/-- The first bar of a text divides it in one way. -/
theorem append_bar_inj {as bs cs ds : List Char} (ha : '|' ∉ as) (hc : '|' ∉ cs)
    (h : as ++ '|' :: bs = cs ++ '|' :: ds) : as = cs ∧ bs = ds := by
  have hparts := congrArg (Text.parts '|') h
  rw [parts_append_cons ha, parts_append_cons hc] at hparts
  obtain rfl := (List.cons.inj hparts).1
  exact ⟨rfl, (List.cons.inj (List.append_cancel_left h)).2⟩

section Names

variable {gap : List Char} {gaps : List (List Char)} {p : String} {ps : List String}

/-- A name behind a gap without bars is read off if it holds no bar. -/
theorem closedParts_clear_iff (hgap : '|' ∉ gap) (cs : List Char) :
    closedParts (Text.parts '|' (gap ++ '|' :: (p.toList ++ '|' :: cs))) = p :: ps ↔
      '|' ∉ p.toList ∧ closedParts (Text.parts '|' cs) = ps := by
  rw [parts_append_cons hgap]
  by_cases hp : '|' ∈ p.toList
  · refine iff_of_false (fun heq => ?_) fun hno => hno.1 hp
    obtain ⟨lead, after, hname, hlead⟩ := List.eq_append_cons_of_mem hp
    rw [hname, List.append_assoc, List.cons_append, parts_append_cons hlead,
      closedParts_cons_cons (Text.parts_ne_nil _ _), List.cons.injEq] at heq
    rw [← heq.1, String.toList_ofList] at hp
    exact hlead hp
  · rw [parts_append_cons hp, closedParts_cons_cons (Text.parts_ne_nil _ _), String.ofList_toList, List.cons.injEq]
    simp [hp]

/-- Behind a gap with a bar the names are read off only if the gaps repeat them. -/
theorem closedParts_barred_iff (hgap : '|' ∈ gap) (h : gaps.length = ps.length + 1) :
    closedParts (Text.parts '|' (gap ++ '|' :: (p.toList ++ '|' :: (fill gaps (names ps)).toList))) = p :: ps ↔
      ∃ lead, gap = lead ++ '|' :: p.toList ∧ '|' ∉ lead ∧ '|' ∉ p.toList ∧ (∀ g ∈ gaps, '|' ∉ g) ∧
        gaps.dropLast = ps.map String.toList := by
  obtain ⟨lead, after, rfl, hlead⟩ := List.eq_append_cons_of_mem hgap
  rw [List.append_assoc, List.cons_append, parts_append_cons hlead]
  by_cases hafter : '|' ∈ after
  · refine iff_of_false (fun heq => ?_) ?_
    · -- two bars in a gap are too many for the names
      have hlength := congrArg List.length heq
      rw [length_closedParts_cons] at hlength
      have hbars := count_fill_names h
      have hone := List.count_pos_iff.mpr hafter
      simp only [List.count_append, List.count_cons_self, List.length_cons] at hlength
      omega
    · rintro ⟨lead', heq, hlead', hp, _⟩
      rw [(append_bar_inj hlead hlead' heq).2] at hafter
      exact hp hafter
  · rw [parts_append_cons hafter, closedParts_cons_cons (Text.parts_ne_nil _ _), List.cons.injEq]
    constructor
    · rintro ⟨hname, hps⟩
      have hp : p.toList = after := by rw [← hname, String.toList_ofList]
      rw [hp, parts_append_cons hafter, closedParts_cons_eq_iff h] at hps
      exact ⟨lead, by rw [hp], hlead, by rw [hp]; exact hafter, hps⟩
    · rintro ⟨lead', heq, hlead', hp, hgaps⟩
      have hname := (append_bar_inj hlead hlead' heq).2
      rw [hname, String.ofList_toList, parts_append_cons hp, closedParts_cons_eq_iff h]
      exact ⟨rfl, hgaps⟩

/-- **The names of parameters are read off a format exactly if they are marked in it.** -/
theorem closedParts_eq_iff (h : gaps.length = ps.length + 1) :
    closedParts (Text.parts '|' (fill gaps (names ps)).toList) = ps ↔ Marked gaps ps := by
  induction ps generalizing gaps with
  | nil =>
      obtain ⟨gap, rfl⟩ := List.length_eq_one_iff.mp h
      have hfill : (fill [gap] (names [])).toList = gap := by simp [fill]
      have hcount : gap.count '|' / 2 = 0 ↔ gap.count '|' ≤ 1 := by omega
      rw [hfill, ← List.length_eq_zero_iff, length_closedParts_parts, hcount]
      constructor
      · exact .last
      · rintro ⟨hgap⟩
        exact hgap
  | cons p ps ih =>
      obtain ⟨gap, next, gaps, rfl⟩ := exists_cons_cons h
      have hrest : (next :: gaps).length = ps.length + 1 := by simpa using h
      rw [fill_names_cons]
      by_cases hgap : '|' ∈ gap
      · rw [closedParts_barred_iff hgap hrest]
        constructor
        · rintro ⟨lead, heq, hlead, hp, hgaps, hnames⟩
          exact .shifted heq hlead hp hgaps hnames
        · intro hmarked
          cases hmarked with
          | clear hno => exact absurd hgap hno
          | shifted heq hlead hp hgaps hnames => exact ⟨_, heq, hlead, hp, hgaps, hnames⟩
      · rw [closedParts_clear_iff hgap, ih hrest]
        constructor
        · exact fun hmarked => .clear hgap hmarked.1 hmarked.2
        · intro hmarked
          cases hmarked with
          | clear _ hp hmarked => exact ⟨hp, hmarked⟩
          | shifted heq => exact absurd (heq ▸ by simp) hgap

end Names

/-! ## Re-reading a call

What is known of templates and of names is put together. -/

/-- What stands around the names in the format of a call. -/
def gaps (name : String) (count : Nat) (template : Option String) : List (List Char) :=
  (Text.parts '_' (pattern count template)).modifyHead (name.toList ++ ·)

/-- A text in front of the first part stands in front of the filled text. -/
theorem fill_modifyHead (name : String) (cs : List Char) (fs : List String) :
    (fill ((Text.parts '_' cs).modifyHead (name.toList ++ ·)) fs).toList =
      (name ++ fill (Text.parts '_' cs) fs).toList := by
  obtain ⟨p, ps, hcs⟩ := Text.exists_parts '_' cs
  rw [hcs]
  cases ps with
  | nil => simp [fill]
  | cons q ps => cases fs <;> simp [fill]

/-- The parameters come back from the format exactly if they are marked in it. -/
theorem parameters_named_iff (name : String) (ps : List String) (template : Option String) :
    parameters (ofTemplate name ps template).named = ps ↔ Marked (gaps name ps.length template) ps := by
  have hlength : (gaps name ps.length template).length = ps.length + 1 := by
    rw [gaps, List.length_modifyHead, Text.length_parts, count_pattern]
  rw [← closedParts_eq_iff hlength, gaps, fill_modifyHead, ofTemplate_eq, parameters]

/-- **When the texts of a call are stable**: from the format, with or without what is written behind it for an
expression, the parameters come back, and together with the template in the call format they give the same texts again,
exactly if the names are marked in the format and the template, where it counts, is stable. -/
theorem ofTemplate_stable_iff (name : String) (ps : List String) (template : Option String) :
    let call := ofTemplate name ps template
    let back := template? (some name) (some call.numbered)
    (parameters call.named = ps ∧ ofTemplate name (parameters call.named) back = call ∧
      parameters (call.named ++ " return (0)") = ps ∧
      ofTemplate name (parameters (call.named ++ " return (0)")) back = call) ↔
    Marked (gaps name ps.length template) ps ∧ (Counts ps.length template → Stable (template.getD "").toList) := by
  intro call back
  rw [parameters_append call.named (by decide), ← parameters_named_iff, ← ofTemplate_template?_iff name]
  constructor
  · rintro ⟨hps, hcall, _, _⟩
    rw [hps] at hcall
    exact ⟨hps, hcall⟩
  · rintro ⟨hps, hcall⟩
    have hboth : ofTemplate name (parameters call.named) back = call := by rw [hps]; exact hcall
    exact ⟨hps, hboth, hps, hboth⟩

/-- Parentheses without a number between them do no harm. -/
example : template? (some "Go") (some (ofTemplate "Go" ["a", "b"] (some "(x) _, (1 _")).numbered) =
    some "(x) _, (1 _" := by
  decide +kernel

/-- Two places side by side come back with a space between them, white space around a template is lost, a number in
parentheses comes back as a place, and a bar in a name is taken for the start of a parameter. -/
theorem ofTemplate_unstable :
    let again := fun name ps template =>
      let call := ofTemplate name ps (some template)
      ofTemplate name (parameters call.named) (template? (some name) (some call.numbered)) = call
    ¬ again "Go" ["a", "b"] "__" ∧ ¬ again "Go" ["a"] " _ to" ∧ ¬ again "Go" ["a"] "(5) _" ∧
      ¬ again "G|o" ["a"] "_" := by
  decide +kernel

end CallFormat

end FlightScript
