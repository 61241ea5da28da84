import FlightScript.Conversion
import FlightScript.Proofs.LineIndex

/-!
# `Proofs.Bytes` — the characters of a text from its bytes

To read characters off a text one has to decode it, which is slow to evaluate. In a text of bytes below 128 each byte is
a character. So what holds of a fixed text is settled on its bytes.

## Contents

* `Text.chars`, and `Text.chars_eq_toList`;
* `Lexing.ofText_eq_chars`, `treeOfText_eq_chars`: lexemes and trees from bytes.
-/

namespace FlightScript

namespace Text

/-- The bytes of a text. -/
def bytes (s : String) : List UInt8 := s.toByteArray.data.toList

/-- The characters of a text, from its bytes if each of them is a character. -/
def chars (s : String) : List Char :=
  if (bytes s).all fun b => b.toNat < 128 then (bytes s).map fun b => Char.ofNat b.toNat else s.toList

theorem bytes_eq (s : String) : bytes s = s.toList.flatMap String.utf8EncodeChar := by
  have hencode : s.toByteArray = (s.toList.flatMap String.utf8EncodeChar).toByteArray := by
    rw [← List.utf8Encode, ← String.toByteArray_ofList, String.ofList_toList]
  rw [bytes, hencode]
  simp

/-- A character of several bytes has none below 128, and one of a single byte is that byte. -/
theorem utf8EncodeChar_cases (c : Char) :
    (∃ b, String.utf8EncodeChar c = [b] ∧ Char.ofNat b.toNat = c) ∨
      ∃ b ∈ String.utf8EncodeChar c, ¬ b.toNat < 128 := by
  fun_cases String.utf8EncodeChar c
  · rename_i v hv
    refine .inl ⟨_, rfl, ?_⟩
    have hmod : v % 256 = v := Nat.mod_eq_of_lt (by omega)
    rw [UInt8.toNat_ofNat']
    show Char.ofNat (v % 256) = c
    rw [hmod]
    exact Char.ofNat_toNat c
  all_goals
    refine .inr ⟨_, List.mem_cons_self, ?_⟩
    rw [UInt8.toNat_ofNat']
    omega

/-- **The characters of a text may be read off its bytes.** If all bytes are below 128 then every character has one
byte, which is its number; otherwise the text is decoded in the usual way. -/
theorem chars_eq_toList (s : String) : chars s = s.toList := by
  have hmap : ∀ cs : List Char, (∀ b ∈ cs.flatMap String.utf8EncodeChar, b.toNat < 128) →
      (cs.flatMap String.utf8EncodeChar).map (fun b => Char.ofNat b.toNat) = cs := by
    intro cs h
    induction cs with
    | nil => rfl
    | cons c cs ih =>
        rw [List.flatMap_cons, List.forall_mem_append] at h
        rw [List.flatMap_cons, List.map_append, ih h.2]
        rcases utf8EncodeChar_cases c with ⟨b, hb, hc⟩ | ⟨b, hb, hlarge⟩
        · rw [hb, List.map_singleton, hc]
          rfl
        · exact absurd (h.1 b hb) hlarge
  unfold chars
  rw [bytes_eq]
  split
  · rename_i hall
    apply hmap
    intro b hb
    exact of_decide_eq_true (List.all_eq_true.mp hall b hb)
  · rfl

end Text

theorem Lexing.ofText_eq_chars (source : String) :
    Lexing.ofText source = .walk .origin 0 (Piece.ofText (Text.chars source)) := by
  rw [Text.chars_eq_toList, Lexing.ofText_eq_walk]

/-- The tree of a text, by way of its bytes. -/
theorem treeOfText_eq_chars (source : String) :
    treeOfText source =
      let lexing := Lexing.walk .origin 0 (Piece.ofText (Text.chars source))
      let reading := Surface.Program.ofLexemes lexing.lexemes
      ⟨reading.value.node, lexing.problems ++ reading.problems⟩ := by
  rw [← Lexing.ofText_eq_chars]
  rfl

end FlightScript
