import FlightScript.Proofs.Scanning
import Mathlib.Data.List.Induction
import Mathlib.Data.String.Basic

/-!
# `Proofs.LineIndex` — the place of an offset, by the line feeds before it

An index finds the place of a byte offset in three steps that could each be off by one: a bisection among the starts of
lines, a slice of the text between two byte offsets, and a count of its characters. Together they give what the text in
front of the offset says: as many lines as it has line feeds, and as many columns as characters stand behind the last of
them. This holds in front of every character and at the end of the text, however many bytes its characters take.

## Contents

* `Text.slice?_append`: a slice between offsets of characters;
* `bisect_found`: the contract of the search; `LineIndex.line_spec`, what it says about lines;
* `Location.behind`, `Location.ofOffset`: the place of an offset, by the line feeds before it;
* `LineIndex.location?_byteSize`: an index finds that place;
* `Lexing.walk`, `Lexing.ofText_eq_walk`: lexemes with places that are counted on from piece to piece.
-/

namespace FlightScript

/-! ## Bytes and characters

An index speaks of byte offsets, and a text is a list of characters. An offset is that of a character if it is
the number of bytes of some first part of the text. -/

namespace Text

@[simp] theorem byteSize_nil : byteSize [] = 0 := rfl

@[simp] theorem byteSize_cons (c : Char) (cs : List Char) : byteSize (c :: cs) = c.utf8Size + byteSize cs := rfl

@[simp] theorem byteSize_append (cs ds : List Char) : byteSize (cs ++ ds) = byteSize cs + byteSize ds := by
  induction cs with
  | nil => rw [List.nil_append, byteSize_nil, Nat.zero_add]
  | cons c cs ih => rw [List.cons_append, byteSize_cons, byteSize_cons, ih, Nat.add_assoc]

/-- The byte offset at which the character with a number starts, or at which the text ends. -/
def byteOffset (cs : List Char) (i : Nat) : Nat := byteSize (cs.take i)

/-- The bytes of characters are counted as the standard library counts them. -/
theorem byteSize_eq_utf8Len (cs : List Char) : byteSize cs = String.utf8Len cs := by
  induction cs with
  | nil => rfl
  | cons c cs ih => rw [byteSize_cons, String.utf8Len_cons, ih, Nat.add_comm]

/-- Behind any first part of a text a character starts, or the text ends. -/
theorem isValid_byteSize (cs ds : List Char) :
    String.Pos.Raw.isValid (String.ofList (cs ++ ds)) ⟨byteSize cs⟩ = true := by
  rw [String.Pos.Raw.isValid_eq_true_iff, String.Pos.Raw.isValid_ofList]
  refine ⟨cs.length, ?_⟩
  rw [List.take_left, String.utf8ByteSize_ofList, byteSize_eq_utf8Len]

/-- A slice between byte offsets is made of the characters between them, if characters start there. -/
theorem slice?_append (cs ds rest : List Char) :
    slice? (String.ofList (cs ++ ds ++ rest)) (byteSize cs) (byteSize (cs ++ ds)) = some (String.ofList ds) := by
  have hstart := isValid_byteSize cs (ds ++ rest)
  rw [← List.append_assoc] at hstart
  have hstop := isValid_byteSize (cs ++ ds) rest
  have hextract := String.extract_of_valid cs ds rest
  have hle : byteSize cs ≤ byteSize (cs ++ ds) := by
    rw [byteSize_append]
    exact Nat.le_add_right _ _
  rw [slice?, hstart, hstop, decide_eq_true hle]
  rw [byteSize_append, byteSize_eq_utf8Len, byteSize_eq_utf8Len, hextract]
  rfl

/-- The slice between the byte offsets of two characters is made of the characters between them. -/
theorem slice?_byteOffset (source : String) {i j : Nat} (hij : i ≤ j) :
    slice? source (byteOffset source.toList i) (byteOffset source.toList j) =
      some (String.ofList (source.toList.extract i j)) := by
  have hsplit : source.toList.take i ++ source.toList.extract i j = source.toList.take j := by
    rw [List.extract_eq_take_drop, ← List.take_add, Nat.add_sub_cancel' hij]
  have hslice := slice?_append (source.toList.take i) (source.toList.extract i j) (source.toList.drop j)
  rwa [hsplit, List.take_append_drop, String.ofList_toList] at hslice

end Text

/-! ## Bisection

The contract of a search in two halves: the place of the wanted number, or the place before which it would stand.
-/

/-- What a search for a number is to give: an index where it stands, or the index that has the smaller numbers before it
and the larger ones from it on. -/
inductive Found (xs : Array Nat) (key : Nat) : Except Nat Nat → Prop where
  | ok {i : Nat} (h : xs[i]? = some key) : Found xs key (.ok i)
  | error {i : Nat} (hsize : i ≤ xs.size) (hbelow : ∀ j x, j < i → xs[j]? = some x → x < key)
      (habove : ∀ j x, i ≤ j → xs[j]? = some x → key < x) : Found xs key (.error i)

theorem lt_of_increasing {xs : Array Nat} (hxs : xs.toList.Pairwise (· < ·)) {i j x y : Nat} (hij : i < j)
    (hi : xs[i]? = some x) (hj : xs[j]? = some y) : x < y := by
  obtain ⟨hisize, rfl⟩ := Array.getElem?_eq_some_iff.mp hi
  obtain ⟨hjsize, rfl⟩ := Array.getElem?_eq_some_iff.mp hj
  exact List.pairwise_iff_getElem.mp hxs i j hisize hjsize hij

/-- **A search among increasing numbers finds what it is to find**, if no number outside its bounds could be meant. -/
theorem bisect_found {xs : Array Nat} (hxs : xs.toList.Pairwise (· < ·)) (key low high : Nat) (hhigh : high ≤ xs.size)
    (hle : low ≤ high) (hbelow : ∀ j x, j < low → xs[j]? = some x → x < key)
    (habove : ∀ j x, high ≤ j → xs[j]? = some x → key < x) : Found xs key (bisect xs key low high hhigh) := by
  fun_induction bisect xs key low high hhigh with
  | case1 low high hhigh hlow hmid heq => exact .ok (Array.getElem?_eq_some_iff.mpr ⟨hmid, heq⟩)
  | case2 low high hhigh hlow hmid hne hlt ih =>
      refine ih (by omega) (fun j x hj hx => ?_) habove
      rcases Nat.lt_or_eq_of_le (Nat.le_of_lt_succ hj) with hj | rfl
      · exact Nat.lt_trans (lt_of_increasing hxs hj hx (Array.getElem?_eq_getElem hmid)) hlt
      · rw [Array.getElem?_eq_getElem hmid, Option.some_inj] at hx
        exact hx ▸ hlt
  | case3 low high hhigh hlow hmid hne hnlt ih =>
      have hgt : key < xs[low + (high - low) / 2] := by omega
      refine ih (by omega) hbelow (fun j x hj hx => ?_)
      rcases Nat.lt_or_eq_of_le hj with hj | rfl
      · exact Nat.lt_trans hgt (lt_of_increasing hxs hj (Array.getElem?_eq_getElem hmid) hx)
      · rw [Array.getElem?_eq_getElem hmid, Option.some_inj] at hx
        exact hx ▸ hgt
  | case4 low high hhigh hlow =>
      obtain rfl : low = high := by omega
      exact .error hhigh hbelow habove

/-! ## Lines

The starts of lines increase, so the line of an offset is the last one that starts at the offset or before it. -/

namespace LineIndex

/-- The line of an offset starts at the offset or before it, and all later lines start behind it. -/
theorem line_spec (index : LineIndex) (offset : Nat) :
    (∃ start, index.lineStarts[index.line offset]? = some start ∧ start ≤ offset) ∧
      ∀ j x, index.line offset < j → index.lineStarts[j]? = some x → offset < x := by
  have hfound := bisect_found index.increasing offset 0 index.lineStarts.size (Nat.le_refl _) (Nat.zero_le _)
    (by omega) (fun j x hj hx => absurd (Array.getElem?_eq_some_iff.mp hx).1 (by omega))
  unfold line
  generalize bisect index.lineStarts offset 0 index.lineStarts.size (Nat.le_refl _) = r at hfound
  cases hfound with
  | ok h => exact ⟨⟨offset, h, Nat.le_refl _⟩, fun j x hj hx => lt_of_increasing index.increasing hj h hx⟩
  | @error i hsize hbelow habove =>
      -- the first line starts at 0, so the index to put in at is not the first
      have hpos : 0 < i := by
        by_contra hzero
        exact absurd (habove 0 0 (by omega) index.first) (by omega)
      have hlt : i - 1 < index.lineStarts.size := by omega
      have hstart := Array.getElem?_eq_getElem hlt
      show (∃ start, index.lineStarts[i - 1]? = some start ∧ start ≤ offset) ∧
        ∀ j x, i - 1 < j → index.lineStarts[j]? = some x → offset < x
      exact ⟨⟨_, hstart, Nat.le_of_lt (hbelow (i - 1) _ (by omega) hstart)⟩, fun j x hj hx => habove j x (by omega) hx⟩

/-- The line of an offset is the only one that starts before its end and is followed by later lines only. -/
theorem line_eq (index : LineIndex) {offset i start : Nat} (hstart : index.lineStarts[i]? = some start)
    (hle : start ≤ offset) (hlater : ∀ j x, i < j → index.lineStarts[j]? = some x → offset < x) :
    index.line offset = i := by
  obtain ⟨⟨start', hstart', hle'⟩, hlater'⟩ := index.line_spec offset
  rcases Nat.lt_trichotomy (index.line offset) i with hlt | heq | hgt
  · exact absurd (hlater' i start hlt hstart) (by omega)
  · exact heq
  · exact absurd (hlater _ start' hgt hstart') (by omega)

end LineIndex

/-! ## Places

The place behind a text is told by its line feeds alone. What the index computes is brought to the same form
here. -/

namespace Location

/-- The place behind a text: its line feeds make lines, and the characters behind the last of them make columns. -/
def behind (cs : List Char) : Location :=
  ⟨1 + cs.count '\n', 1 + (cs.reverse.takeWhile (· != '\n')).length⟩

/-- The place of an offset in a text. -/
def ofOffset (cs : List Char) (k : Nat) : Location := behind (cs.take k)

/-- The place behind one more character. A line feed begins a new line, any other character takes one column. -/
theorem advance_behind (cs : List Char) (c : Char) : (behind cs).advance c = behind (cs ++ [c]) := by
  unfold advance behind
  by_cases hc : c = '\n'
  · simp [hc, Nat.add_assoc]
  · simp [hc, Nat.add_comm]

theorem after_behind (cs ds : List Char) : (behind cs).after ds = behind (cs ++ ds) := by
  induction ds generalizing cs with
  | nil => rw [List.append_nil, after_nil]
  | cons d ds ih => rw [after_cons, advance_behind, ih, List.append_assoc, List.singleton_append]

end Location

namespace Text

/-- The characters of a second part are counted on from the bytes of the first. -/
theorem charIndices_append (offset : Nat) (cs ds : List Char) :
    charIndices offset (cs ++ ds) = charIndices offset cs ++ charIndices (offset + byteSize cs) ds := by
  induction cs generalizing offset with
  | nil => rfl
  | cons c cs ih => rw [List.cons_append, charIndices, charIndices, ih, byteSize_cons, Nat.add_assoc]; rfl

theorem map_snd_charIndices (offset : Nat) (cs : List Char) : (charIndices offset cs).map Prod.snd = cs := by
  induction cs generalizing offset with
  | nil => rfl
  | cons c cs ih => rw [charIndices, List.map_cons, ih]

end Text

namespace LineIndex

theorem feeds_append (cs ds : List Char) : feeds (cs ++ ds) = feeds cs ++
    ((Text.charIndices (Text.byteSize cs) ds).filter fun x => x.2 == '\n').map fun x => x.1 + 1 := by
  rw [feeds, Text.charIndices_append, List.filter_append, List.map_append, Nat.zero_add]
  rfl

theorem length_feeds (cs : List Char) : (feeds cs).length = cs.count '\n' := by
  rw [feeds, List.length_map, ← List.countP_eq_length_filter, List.count]
  conv_rhs => rw [← Text.map_snd_charIndices 0 cs, List.countP_map]
  rfl

/-- A text without line feeds adds no lines. -/
theorem feeds_append_of_notMem (cs : List Char) {ds : List Char} (hds : '\n' ∉ ds) : feeds (cs ++ ds) = feeds cs := by
  have hnone : ((Text.charIndices (Text.byteSize cs) ds).filter fun x => x.2 == '\n') = [] := by
    refine List.filter_eq_nil_iff.mpr fun x hx hfeed => hds ?_
    have hmem := List.mem_map_of_mem (f := Prod.snd) hx
    rw [Text.map_snd_charIndices] at hmem
    exact eq_of_beq hfeed ▸ hmem
  rw [feeds_append, hnone, List.map_nil, List.append_nil]

/-- What a text adds starts behind it. -/
theorem lt_of_mem_feeds_append {cs ds : List Char} {x : Nat}
    (h : x ∈ ((Text.charIndices (Text.byteSize cs) ds).filter fun x => x.2 == '\n').map fun x => x.1 + 1) :
    Text.byteSize cs < x := by
  obtain ⟨y, hy, rfl⟩ := List.mem_map.mp h
  exact Nat.lt_succ_of_le (Text.le_of_mem_charIndices (List.mem_of_mem_filter hy))

/-- A text that is empty or ends in a line feed is followed by the start of a line, the last of its own. -/
theorem exists_starts {cs : List Char} (hcs : cs = [] ∨ ∃ ds, cs = ds ++ ['\n']) :
    ∃ starts, 0 :: feeds cs = starts ++ [Text.byteSize cs] ∧ starts.length = cs.count '\n' := by
  rcases hcs with rfl | ⟨ds, rfl⟩
  · exact ⟨[], rfl, rfl⟩
  · refine ⟨0 :: feeds ds, ?_, ?_⟩
    · rw [feeds_append, Text.byteSize_append]
      rfl
    · simp [length_feeds]

end LineIndex

/-- A text up to its last line feed, and the line it ends in. -/
theorem exists_lastLine (cs : List Char) : ∃ ls ms, cs = ls ++ ms ∧ (ls = [] ∨ ∃ ds, ls = ds ++ ['\n']) ∧ '\n' ∉ ms := by
  induction cs using List.reverseRecOn with
  | nil => exact ⟨[], [], rfl, .inl rfl, by simp⟩
  | append_singleton cs c ih =>
      obtain ⟨ls, ms, rfl, hls, hms⟩ := ih
      by_cases hc : c = '\n'
      · exact ⟨ls ++ ms ++ [c], [], by simp, .inr ⟨ls ++ ms, by rw [hc]⟩, by simp⟩
      · exact ⟨ls, ms ++ [c], by simp, hls, by simp [hms, Ne.symm hc]⟩

/-- The place behind a text whose last line is known: one line more than there are line feeds before it, and one
column more than the line has characters. -/
theorem Location.behind_append {ls ms : List Char} (hls : ls = [] ∨ ∃ ds, ls = ds ++ ['\n']) (hms : '\n' ∉ ms) :
    behind (ls ++ ms) = ⟨ls.count '\n' + 1, ms.length + 1⟩ := by
  have htake : (ms.reverse ++ ls.reverse).takeWhile (· != '\n') = ms.reverse := by
    have hall : ∀ c ∈ ms.reverse, (c != '\n') = true := by
      intro c hc
      have hne : c ≠ '\n' := fun h => hms (h ▸ List.mem_reverse.mp hc)
      simpa using hne
    rw [List.takeWhile_append_of_pos hall]
    rcases hls with rfl | ⟨ds, rfl⟩ <;> simp
  unfold behind
  rw [List.reverse_append, htake, List.count_append, List.count_eq_zero.mpr hms, List.length_reverse, Nat.add_zero,
    Nat.add_comm 1, Nat.add_comm 1]

namespace LineIndex

/-- **An index finds the place of every offset**: behind any first part of a text stands the place that the line feeds
and characters of that part make. -/
theorem location?_byteSize {source : String} {cs ds : List Char} (h : source.toList = cs ++ ds) :
    (ofText source).location? (Text.byteSize cs) = some (.behind cs) := by
  obtain ⟨ls, ms, rfl, hls, hms⟩ := exists_lastLine cs
  obtain ⟨starts, hstarts, hlength⟩ := exists_starts hls
  have hle : Text.byteSize ls ≤ Text.byteSize (ls ++ ms) := by
    rw [Text.byteSize_append]
    exact Nat.le_add_right _ _
  -- the starts of lines are those up to the last line feed, that of the last line, and those behind the offset
  have hlines : (ofText source).lineStarts = (starts ++ Text.byteSize ls ::
      ((Text.charIndices (Text.byteSize (ls ++ ms)) ds).filter fun x => x.2 == '\n').map fun x => x.1 + 1).toArray := by
    show (0 :: feeds source.toList).toArray = _
    rw [h, feeds_append, feeds_append_of_notMem _ hms, ← List.cons_append, hstarts, List.append_assoc,
      List.singleton_append]
  have hstart : (ofText source).lineStarts[ls.count '\n']? = some (Text.byteSize ls) := by
    rw [hlines, ← hlength, List.getElem?_toArray, List.getElem?_append_right (Nat.le_refl _), Nat.sub_self]
    rfl
  have hline : (ofText source).line (Text.byteSize (ls ++ ms)) = ls.count '\n' := by
    refine line_eq _ hstart hle fun j x hj hx => ?_
    rw [hlines, List.getElem?_toArray, List.getElem?_append_right (by omega)] at hx
    obtain ⟨k, hk⟩ : ∃ k, j - starts.length = k + 1 := ⟨j - starts.length - 1, by omega⟩
    rw [hk, List.getElem?_cons_succ] at hx
    exact lt_of_mem_feeds_append (List.mem_of_getElem? hx)
  have hslice : Text.slice? (ofText source).source (Text.byteSize ls) (Text.byteSize (ls ++ ms)) =
      some (String.ofList ms) := by
    have hsource : source = String.ofList (ls ++ ms ++ ds) := by rw [← h, String.ofList_toList]
    show Text.slice? source _ _ = _
    rw [hsource]
    exact Text.slice?_append ls ms ds
  unfold location?
  simp only [hline, hstart, hslice, Option.bind_eq_bind, Option.bind_some]
  rw [Location.behind_append hls hms, String.length_ofList]
  rfl

/-- A letter of two bytes takes one column, and inside of it there is no place. -/
example : (ofText "aé\né").location? 3 = some ⟨1, 3⟩ ∧ (ofText "aé\né").location? 6 = some ⟨2, 2⟩ ∧
    (ofText "aé\né").location? 2 = none := by
  decide +kernel

theorem location?_byteOffset (source : String) (i : Nat) :
    (ofText source).location? (Text.byteOffset source.toList i) = some (.ofOffset source.toList i) :=
  location?_byteSize (List.take_append_drop i source.toList).symm

theorem location_byteSize {source : String} {cs ds : List Char} (h : source.toList = cs ++ ds) :
    (ofText source).location (Text.byteSize cs) = .behind cs := by
  rw [location, location?_byteSize h, Option.getD_some]

end LineIndex

/-! ## Places counted on

An index looks each place up anew. The same places come out if one counts on from piece to piece, which is easier to
evaluate and to reason about. -/

namespace Lexing

/-- The lexemes and problems of the pieces that follow a place, inside `depth` open parentheses. -/
def walk (start : Location) (depth : Nat) : List Piece → Lexing
  | [] => ⟨[], []⟩
  | ⟨kind, text⟩ :: pieces =>
    let stop := start.after text
    match kind with
    | .gap => walk stop depth pieces
    | .unknown =>
      let rest := walk stop depth pieces
      ⟨rest.lexemes, Problem.errorAt (unknownMessage text) ⟨start, stop⟩ :: rest.problems⟩
    | .token t =>
      let rest := walk stop (depthAfter depth t) pieces
      if isLayout t && decide (0 < depth) then rest
      else ⟨⟨t, String.ofList text, ⟨start, stop⟩⟩ :: rest.lexemes, rest.problems⟩

/-- Looking places up and counting them on agree from any point of a text. The induction is over the pieces that
are left, with the text before them as what is done. -/
theorem ofPieces_eq_walk (source : String) (cs : List Char) (depth : Nat) (ps : List Piece)
    (h : source.toList = cs ++ ps.flatMap Piece.text) :
    ofPieces (.ofText source) (Text.byteSize cs) depth ps = walk (.behind cs) depth ps := by
  induction ps generalizing cs depth with
  | nil => rfl
  | cons p ps ih =>
      obtain ⟨kind, text⟩ := p
      rw [List.flatMap_cons] at h
      have hstart := LineIndex.location_byteSize h
      rw [← List.append_assoc] at h
      have hstop := LineIndex.location_byteSize h
      have hrest := fun depth => ih (cs ++ text) depth h
      rw [Text.byteSize_append] at hstop hrest
      cases kind <;> simp only [ofPieces, walk, hstart, hstop, hrest, Location.after_behind]

/-- **The index of a text and counting on give the same lexemes and problems.** The one looks up each offset among the
starts of the lines, the other counts on from the place where the last piece ended, and both find the place behind the
same characters. -/
theorem ofText_eq_walk (source : String) : ofText source = walk .origin 0 (Piece.ofText source.toList) := by
  refine ofPieces_eq_walk source [] 0 _ ?_
  rw [Piece.flatMap_text_ofText, List.nil_append]

end Lexing

end FlightScript
