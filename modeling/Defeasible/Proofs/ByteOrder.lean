import Mathlib.Tactic.SplitIfs

/-!
Texts in UTF-8. Of two characters the one with the greater code point has the greater
encoding, and neither encoding begins with the other. So texts compared character by
character come in the order of their bytes, whatever the lengths of the encodings.
-/

namespace Defeasible

/-- The text in UTF-8. -/
def utf8Bytes (text : String) : List UInt8 := text.toUTF8.data.toList

theorem utf8Bytes_eq_flatMap (text : String) :
    utf8Bytes text = text.toList.flatMap String.utf8EncodeChar := by
  rw [utf8Bytes, String.toUTF8_eq_toByteArray, ← String.utf8Encode_toList, List.utf8Encode,
    List.toList_data_toByteArray]

/-- The byte sequences differ before either ends, and where they first do, the first one has
the smaller byte. -/
inductive Diverges : List UInt8 → List UInt8 → Prop where
  | here {a b : UInt8} (xs ys : List UInt8) : a < b → Diverges (a :: xs) (b :: ys)
  | later (a : UInt8) {xs ys : List UInt8} : Diverges xs ys → Diverges (a :: xs) (a :: ys)

theorem not_diverges_nil_left {ys : List UInt8} : ¬ Diverges [] ys := nofun

theorem not_diverges_nil_right {xs : List UInt8} : ¬ Diverges xs [] := nofun

theorem diverges_cons {a b : UInt8} {xs ys : List UInt8} :
    Diverges (a :: xs) (b :: ys) ↔ a < b ∨ a = b ∧ Diverges xs ys := by
  constructor
  · intro h
    cases h with
    | here _ _ h => exact .inl h
    | later _ h => exact .inr ⟨rfl, h⟩
  · rintro (h | ⟨rfl, h⟩)
    · exact .here xs ys h
    · exact .later a h

theorem diverges_ofNat_cons {m n : Nat} (hm : m < 256) (hn : n < 256) {xs ys : List UInt8} :
    Diverges (.ofNat m :: xs) (.ofNat n :: ys) ↔ m < n ∨ m = n ∧ Diverges xs ys := by
  rw [diverges_cons, UInt8.lt_iff_toNat_lt, ← UInt8.toNat_inj, UInt8.toNat_ofNat_of_lt' hm,
    UInt8.toNat_ofNat_of_lt' hn]

theorem Diverges.append_lt {xs ys : List UInt8} (h : Diverges xs ys) (xs' ys' : List UInt8) :
    xs ++ xs' < ys ++ ys' := by
  induction h with
  | here _ _ h => exact List.Lex.rel h
  | later _ _ ih => exact List.Lex.cons ih

theorem diverges_utf8EncodeChar {c d : Char} (h : c < d) :
    Diverges (String.utf8EncodeChar c) (String.utf8EncodeChar d) := by
  have hlt : c.val.toNat < d.val.toNat := h
  have hmax : d.val.toNat < 0x110000 := by
    obtain h | h := d.valid
    · exact Nat.lt_trans h (by decide)
    · exact h.2
  simp only [String.utf8EncodeChar]
  generalize c.val.toNat = m at hlt
  generalize d.val.toNat = n at hlt hmax
  -- The digits in base 64, one below the other.
  have hdigits : ∀ k : Nat, k / 4096 = k / 64 / 64 ∧ k / 262144 = k / 64 / 64 / 64 :=
    fun k => ⟨by omega, by omega⟩
  simp only [hdigits]
  -- A longer encoding begins with a greater byte, and two of one length differ in a digit.
  split_ifs <;>
    simp (disch := omega) only [diverges_ofNat_cons, not_diverges_nil_left,
      not_diverges_nil_right, and_false, or_false] <;>
    omega

theorem flatMap_utf8EncodeChar_lt {cs ds : List Char} (h : List.Lex (· < ·) cs ds) :
    cs.flatMap String.utf8EncodeChar < ds.flatMap String.utf8EncodeChar := by
  induction h with
  | @nil d ds =>
      rw [List.flatMap_nil, List.flatMap_cons]
      cases hd : String.utf8EncodeChar d with
      | nil => exact absurd hd String.utf8EncodeChar_ne_nil
      | cons => exact List.nil_lt_cons _ _
  | rel h =>
      rw [List.flatMap_cons, List.flatMap_cons]
      exact (diverges_utf8EncodeChar h).append_lt _ _
  | cons _ ih =>
      rw [List.flatMap_cons, List.flatMap_cons]
      exact List.append_left_lt ih

theorem utf8Bytes_lt_of_compare {s t : String} (h : compare s t = .lt) :
    utf8Bytes s < utf8Bytes t := by
  have hchars := compareOfLessAndEq_eq_lt.mp h
  rw [utf8Bytes_eq_flatMap, utf8Bytes_eq_flatMap]
  exact flatMap_utf8EncodeChar_lt hchars

/-- Texts are compared by their bytes in UTF-8. -/
theorem compare_eq_lt_iff_utf8Bytes_lt (s t : String) :
    compare s t = .lt ↔ utf8Bytes s < utf8Bytes t := by
  refine ⟨utf8Bytes_lt_of_compare, fun h => ?_⟩
  cases hcompare : compare s t with
  | lt => rfl
  | eq =>
      cases Std.LawfulEqOrd.eq_of_compare hcompare
      exact absurd h (List.lt_irrefl _)
  | gt =>
      have hreverse := utf8Bytes_lt_of_compare (Std.OrientedCmp.lt_of_gt hcompare)
      exact absurd hreverse (List.lt_asymm h)

end Defeasible
