import FlightScript.CallFormat
import Mathlib.Data.List.Basic

/-!
# `Proofs.CallFormat` — what the texts of a declared name say about it

A document carries two texts for a declared name, one with the numbers of its parameters and one with their names.
Together they say how many parameters there are: behind the last placeholder both texts go on alike, and in front of
that stands the number of the last parameter. What is read off the texts is less sure, because names and templates may
hold what looks like a placeholder. Only where there is no template, none is ever read off.

## Contents

* `CallFormat.length_eq_of_ofTemplate_eq`: the texts determine the number of parameters;
* `CallFormat.parameters_append`, `CallFormat.template?_ne_empty`: what is read off them;
* `CallFormat.template?_ofTemplate`: no template is read off texts that were made without one.
-/

namespace FlightScript.CallFormat

/-! ## The number of parameters

Two texts that agree were filled with as many placeholders. The last one is found from behind, since the texts
end in the same way. -/

/-- Lists that two different elements can follow in the same place are equal. -/
theorem eq_of_append_cons {α : Type} {cs ds us vs xs ys : List α} {a b : α} (hab : a ≠ b)
    (ha : cs ++ a :: us = ds ++ a :: vs) (hb : cs ++ b :: xs = ds ++ b :: ys) : cs = ds := by
  induction cs generalizing ds with
  | nil =>
      cases ds with
      | nil => rfl
      | cons d ds => exact absurd ((List.cons.inj ha).1.trans (List.cons.inj hb).1.symm) hab
  | cons c cs ih =>
      cases ds with
      | nil => exact absurd ((List.cons.inj ha).1.symm.trans (List.cons.inj hb).1) hab
      | cons d ds =>
          obtain ⟨hcd, ha⟩ := List.cons.inj ha
          rw [hcd, ih ha (List.cons.inj hb).2]

/-- One more placeholder stands behind the others, with one more piece of the template behind it. -/
theorem fill_concat {pieces : List (List Char)} {placeholders : List String}
    (h : pieces.length = placeholders.length + 1) (piece : List Char) (placeholder : String) :
    fill (pieces ++ [piece]) (placeholders ++ [placeholder]) =
      fill pieces placeholders ++ placeholder ++ String.ofList piece := by
  induction placeholders generalizing pieces with
  | nil =>
      obtain ⟨p, rfl⟩ := List.length_eq_one_iff.mp h
      rfl
  | cons f fs ih =>
      obtain ⟨p, q, ps, rfl⟩ : ∃ p q ps, pieces = p :: q :: ps := by
        match pieces, h with
        | p :: q :: ps, _ => exact ⟨p, q, ps, rfl⟩
      have htail := @ih (q :: ps) (by simpa using h)
      show String.ofList p ++ f ++ fill ((q :: ps) ++ [piece]) (fs ++ [placeholder]) = _
      rw [htail, ← String.append_assoc, ← String.append_assoc]
      rfl

theorem spaced_concat (placeholders : List String) (placeholder : String) :
    spaced (placeholders ++ [placeholder]) = spaced placeholders ++ (" " ++ placeholder) := by
  simp [spaced]

theorem numbers_succ (k : Nat) : numbers (k + 1) = numbers k ++ ["(" ++ toString k ++ ")"] := by
  simp [numbers, List.range_succ]

theorem names_concat (ps : List String) (p : String) : names (ps ++ [p]) = names ps ++ ["|" ++ p ++ "|"] := by
  simp [names]

/-- Behind the last placeholder both texts go on alike. -/
theorem exists_last (name : String) (ps : List String) (p : String) (template : Option String) : ∃ left right rest,
    (ofTemplate name (ps ++ [p]) template).numbered = left ++ ("(" ++ toString ps.length ++ ")") ++ rest ∧
      (ofTemplate name (ps ++ [p]) template).named = right ++ ("|" ++ p ++ "|") ++ rest := by
  unfold ofTemplate
  rw [List.length_append, List.length_singleton, numbers_succ, names_concat]
  dsimp only
  split
  · rename_i h
    generalize Text.parts '_' (template.getD "").toList = pieces at h
    obtain ⟨init, piece, rfl⟩ : ∃ init piece, pieces = init ++ [piece] := by
      rcases pieces.eq_nil_or_concat with rfl | ⟨init, piece, rfl⟩
      · cases h.2
      · exact ⟨init, piece, List.concat_eq_append⟩
    have hinit : init.length = ps.length + 1 := by simpa using h.2
    rw [fill_concat (by simpa [numbers] using hinit), fill_concat (by simpa [names] using hinit)]
    exact ⟨name ++ " " ++ fill init (numbers ps.length), name ++ " " ++ fill init (names ps), String.ofList piece,
      by simp only [String.append_assoc], by simp only [String.append_assoc]⟩
  · rw [spaced_concat, spaced_concat]
    exact ⟨name ++ spaced (numbers ps.length) ++ " ", name ++ spaced (names ps) ++ " ", "",
      by simp only [String.append_assoc, String.append_empty], by simp only [String.append_assoc, String.append_empty]⟩

/-- Without parameters the texts are the same. -/
theorem numbered_eq_named (name : String) (template : Option String) :
    (ofTemplate name [] template).numbered = (ofTemplate name [] template).named := by
  unfold ofTemplate
  dsimp only
  split
  · cases Text.parts '_' (template.getD "").toList <;> rfl
  · rfl

theorem toString_toList (k : Nat) : (toString k).toList = Nat.toDigits 10 k := by
  show (Nat.repr k).toList = _
  rw [Nat.repr_eq_ofList_toDigits, String.toList_ofList]

/-- A number ends in front of a character that is no digit. -/
theorem takeWhile_isDigit_toString (k : Nat) {c : Char} (hc : c.isDigit = false) (cs : List Char) :
    ((toString k).toList.reverse ++ c :: cs).takeWhile Char.isDigit = (Nat.toDigits 10 k).reverse := by
  rw [toString_toList, List.takeWhile_append_of_pos, List.takeWhile_cons_of_neg (by simp [hc]), List.append_nil]
  intro d hd
  rw [List.mem_reverse] at hd
  exact Nat.isDigit_of_mem_toDigits (by decide) (by decide) hd

/-- **The texts of a declared name determine the number of its parameters.** -/
theorem length_eq_of_ofTemplate_eq {name : String} {ps qs : List String} {t u : Option String}
    (h : ofTemplate name ps t = ofTemplate name qs u) : ps.length = qs.length := by
  -- with the last character first, a text is its rest, a bracket and a number, or its rest, a bar and a name
  have hlast : ∀ (ps : List String) (p : String) (t : Option String), ∃ left right rest,
      (ofTemplate name (ps ++ [p]) t).numbered.toList.reverse =
          rest ++ ')' :: ((toString ps.length).toList.reverse ++ '(' :: left) ∧
        (ofTemplate name (ps ++ [p]) t).named.toList.reverse = rest ++ '|' :: right := by
    intro ps p t
    obtain ⟨left, right, rest, hnumbered, hnamed⟩ := exists_last name ps p t
    refine ⟨left.toList.reverse, p.toList.reverse ++ '|' :: right.toList.reverse, rest.toList.reverse, ?_, ?_⟩
    · simp [hnumbered]
    · simp [hnamed]
  -- so a name without parameters has other texts than one with some
  have hnone : ∀ (qs : List String) (q : String) (t u : Option String),
      ofTemplate name [] t ≠ ofTemplate name (qs ++ [q]) u := by
    intro qs q t u heq
    obtain ⟨left, right, rest, hnumbered, hnamed⟩ := hlast qs q u
    rw [← heq, numbered_eq_named, heq, hnamed, List.append_cancel_left_eq] at hnumbered
    exact absurd (List.cons.inj hnumbered).1 (by decide)
  rcases ps.eq_nil_or_concat with rfl | ⟨ps, p, rfl⟩ <;> rcases qs.eq_nil_or_concat with rfl | ⟨qs, q, rfl⟩
  · rfl
  · rw [List.concat_eq_append] at h
    exact absurd h (hnone qs q t u)
  · rw [List.concat_eq_append] at h
    exact absurd h.symm (hnone ps p u t)
  · rw [List.concat_eq_append, List.concat_eq_append] at h
    obtain ⟨left, right, rest, hnumbered, hnamed⟩ := hlast ps p t
    obtain ⟨left', right', rest', hnumbered', hnamed'⟩ := hlast qs q u
    rw [h, hnumbered'] at hnumbered
    rw [h, hnamed'] at hnamed
    obtain rfl := eq_of_append_cons (by decide) hnumbered hnamed
    rw [List.append_cancel_left_eq] at hnumbered
    have hdigits := congrArg (List.takeWhile Char.isDigit) (List.cons.inj hnumbered).2
    rw [takeWhile_isDigit_toString _ rfl, takeWhile_isDigit_toString _ rfl] at hdigits
    have hvalue := congrArg (Nat.ofDigitChars 10 · 0) (List.reverse_inj.mp hdigits)
    have hlength : qs.length = ps.length := by simpa using hvalue
    simp [hlength]

/-! ## What is read off the texts

The importer takes the names between bars and the numbers between parentheses. It may find more of them than
there are parameters. -/

/-- What is written behind a text without the character that it is cut at becomes part of its last part. -/
theorem exists_parts_append {sep : Char} {ds : List Char} (hds : sep ∉ ds) (cs : List Char) : ∃ init last,
    Text.parts sep cs = init ++ [last] ∧ Text.parts sep (cs ++ ds) = init ++ [last ++ ds] := by
  induction cs with
  | nil => exact ⟨[], [], rfl, Text.parts_of_notMem hds⟩
  | cons c cs ih =>
      obtain ⟨init, last, hcs, hall⟩ := ih
      rw [List.cons_append, Text.parts, Text.parts, hcs, hall]
      by_cases hc : c = sep
      · rw [if_pos hc, if_pos hc]
        exact ⟨[] :: init, last, rfl, rfl⟩
      · rw [if_neg hc, if_neg hc]
        cases init with
        | nil => exact ⟨[], c :: last, rfl, rfl⟩
        | cons p ps => exact ⟨(c :: p) :: ps, last, rfl, rfl⟩

/-- The last part is no name. -/
theorem closedParts_concat (a b : List Char) : ∀ ps : List (List Char), closedParts (ps ++ [a]) = closedParts (ps ++ [b])
  | [] => rfl
  | [_] => rfl
  | [_, _] => rfl
  | _ :: p :: q :: ps => congrArg (String.ofList p :: ·) (closedParts_concat a b (q :: ps))

/-- A text without bars behind a format adds no names. -/
theorem parameters_append (format : String) {suffix : String} (h : '|' ∉ suffix.toList) :
    parameters (format ++ suffix) = parameters format := by
  obtain ⟨init, last, hformat, hall⟩ := exists_parts_append h format.toList
  rw [parameters, parameters, String.toList_append, hall, hformat]
  exact closedParts_concat _ _ init

/-- Nothing is left of a text after its numbers are replaced only if there was nothing. -/
theorem eq_nil_of_replaceNumbers {held cs : List Char} (h : replaceNumbers held cs = []) : held = [] ∧ cs = [] := by
  induction cs generalizing held with
  | nil => exact ⟨List.reverse_eq_nil_iff.mp h, rfl⟩
  | cons c cs ih =>
      unfold replaceNumbers at h
      split at h
      · exact absurd (ih (List.append_eq_nil_iff.mp h).2).1 (by simp)
      split at h
      · cases h
      split at h
      · exact absurd (ih h).1 (by simp)
      split at h
      · cases h
      · cases (List.append_eq_nil_iff.mp h).2

/-- A template that is read off a call format says something. -/
theorem template?_ne_empty (name format : Option String) : template? name format ≠ some "" := by
  intro h
  cases name with
  | none => cases h
  | some name =>
      cases format with
      | none => cases h
      | some format =>
          obtain ⟨rest, hrest⟩ : ∃ rest, rest = Text.trim ((dropBytes name.utf8ByteSize format.toList).getD []) := ⟨_, rfl⟩
          have hread : (if isNumbering rest then none else some (String.ofList (replaceNumbers [] rest))) = some "" := by
            rw [hrest]
            exact h
          split at hread
          · cases hread
          · rename_i hnumbering
            have hnil : replaceNumbers [] rest = [] := by simpa using hread
            rw [(eq_nil_of_replaceNumbers hnil).2] at hnumbering
            exact hnumbering rfl

/-! ## Declarations without a template

Then only spaces stand between the placeholders, which is what the importer takes to mean that there is none. -/

theorem parts_append_cons {sep : Char} {cs : List Char} (h : sep ∉ cs) (ds : List Char) :
    Text.parts sep (cs ++ sep :: ds) = cs :: Text.parts sep ds := by
  induction cs with
  | nil => rw [List.nil_append, Text.parts, if_pos rfl]
  | cons c cs ih =>
      rw [List.mem_cons, not_or] at h
      rw [List.cons_append, Text.parts, if_neg (Ne.symm h.1), ih h.2]

theorem spaced_cons (placeholder : String) (placeholders : List String) :
    (spaced (placeholder :: placeholders)).toList = ' ' :: (placeholder.toList ++ (spaced placeholders).toList) := by
  simp [spaced]

theorem ofTemplate_none (name : String) (ps : List String) :
    ofTemplate name ps none = ⟨name ++ spaced (numbers ps.length), name ++ spaced (names ps)⟩ := by
  rw [ofTemplate, if_neg fun h => h.1 rfl]

/-- Taking off as many bytes as a text has takes off the text. -/
theorem dropBytes_append (cs ds : List Char) : dropBytes (String.ofList cs).utf8ByteSize (cs ++ ds) = some ds := by
  induction cs with
  | nil => cases ds <;> rfl
  | cons c cs ih =>
      have hpos := c.utf8Size_pos
      rw [String.ofList_cons, String.utf8ByteSize_append, String.utf8ByteSize_singleton]
      obtain ⟨m, hm⟩ := Nat.exists_eq_add_one_of_ne_zero (Nat.pos_iff_ne_zero.mp hpos)
      rw [hm, Nat.add_right_comm, List.cons_append, dropBytes, if_pos (by omega), ← ih]
      congr 1
      omega

theorem isDigit_of_isDigit {c : Char} (h : c.isDigit = true) : Text.isDigit c = true := by
  simp only [Char.isDigit, Bool.and_eq_true, decide_eq_true_eq] at h
  simp only [Text.isDigit, Text.digitRanges, List.any_cons, Bool.or_eq_true, Bool.and_eq_true, decide_eq_true_eq]
  exact .inl h

/-- A number in parentheses is read to its end. -/
theorem foldl_next_number (k : Nat) (cs : List Char) :
    ('(' :: ((toString k).toList ++ ')' :: cs)).foldl Progress.next .boundary = cs.foldl Progress.next .closed := by
  have hdigits : ∀ (ds : List Char), (∀ d ∈ ds, d.isDigit = true) →
      (ds ++ ')' :: cs).foldl Progress.next .digits = cs.foldl Progress.next .closed := by
    intro ds hds
    induction ds with
    | nil => rfl
    | cons d ds ih =>
        obtain ⟨hd, hds⟩ := List.forall_mem_cons.mp hds
        rw [List.cons_append, List.foldl_cons, Progress.next, if_pos (isDigit_of_isDigit hd), ih hds]
  have hall : ∀ d ∈ (toString k).toList, d.isDigit = true := by
    intro d hd
    rw [toString_toList] at hd
    exact Nat.isDigit_of_mem_toDigits (by decide) (by decide) hd
  cases hk : (toString k).toList with
  | nil => exact absurd ((toString_toList k).symm.trans hk) Nat.toDigits_ne_nil
  | cons d ds =>
      rw [hk] at hall
      obtain ⟨hd, hds⟩ := List.forall_mem_cons.mp hall
      rw [List.foldl_cons, List.cons_append, List.foldl_cons]
      show (ds ++ ')' :: cs).foldl Progress.next (Progress.next .opened d) = _
      rw [Progress.next, if_pos (isDigit_of_isDigit hd), hdigits ds hds]

theorem number_toList (k : Nat) : ("(" ++ toString k ++ ")").toList = '(' :: ((toString k).toList ++ [')']) := by
  simp

/-- Numbers in parentheses with spaces between them are read to their end, one after the other. -/
theorem foldl_next_spaced (ks : List Nat) :
    (spaced (ks.map fun k => "(" ++ toString k ++ ")")).toList.foldl Progress.next .closed = .closed := by
  induction ks with
  | nil => rfl
  | cons k ks ih =>
      rw [List.map_cons, spaced_cons, number_toList, List.cons_append, List.append_assoc, List.foldl_cons]
      exact (foldl_next_number k _).trans ih

/-- Only the space in front is taken off. -/
theorem trim_numbers {cs us vs : List Char} (hfirst : cs = '(' :: us) (hlast : ' ' :: cs = vs ++ [')']) :
    Text.trim (' ' :: cs) = cs := by
  have hstart : Text.trimStart (' ' :: cs) = cs := by
    rw [hfirst]
    rfl
  have hend : Text.trimStart cs.reverse = cs.reverse := by
    have hreverse := congrArg List.reverse hlast
    rw [List.reverse_cons, List.reverse_append] at hreverse
    cases hcs : cs.reverse with
    | nil => rw [List.reverse_eq_nil_iff.mp hcs] at hfirst; cases hfirst
    | cons d ds =>
        rw [hcs] at hreverse
        obtain rfl : d = ')' := (List.cons.inj hreverse).1
        rfl
  rw [Text.trim, hstart, hend, List.reverse_reverse]

/-- Without a template, none is read off the call format. -/
theorem template?_ofTemplate (name : String) (ps : List String) :
    template? (some name) (some (ofTemplate name ps none).numbered) = none := by
  have hdrop : dropBytes name.utf8ByteSize (name ++ spaced (numbers ps.length)).toList =
      some (spaced (numbers ps.length)).toList := by
    have h := dropBytes_append name.toList (spaced (numbers ps.length)).toList
    rwa [String.ofList_toList, ← String.toList_append] at h
  have hnumbering : isNumbering (Text.trim (spaced (numbers ps.length)).toList) = true := by
    cases ps.length with
    | zero => rfl
    | succ k =>
        obtain ⟨ks, hks⟩ : ∃ ks : List Nat, numbers (k + 1) = (0 :: ks).map fun i => "(" ++ toString i ++ ")" :=
          ⟨(List.range k).map Nat.succ, by rw [numbers, List.range_succ_eq_map]⟩
        have hlast : (spaced (numbers (k + 1))).toList =
            ((spaced (numbers k)).toList ++ (' ' :: '(' :: (toString k).toList)) ++ [')'] := by
          rw [numbers_succ, spaced_concat]
          simp
        rw [hks, List.map_cons, spaced_cons, number_toList, List.cons_append, List.append_assoc,
          List.singleton_append] at hlast ⊢
        rw [trim_numbers rfl hlast, isNumbering, foldl_next_number, foldl_next_spaced]
  rw [ofTemplate_none]
  show (if isNumbering (Text.trim ((dropBytes _ _).getD [])) then none else _) = none
  rw [hdrop]
  exact if_pos hnumbering

end FlightScript.CallFormat
