import Mathlib.Data.String.Basic
import Mathlib.Tactic

/-!
# Texts and separators

`String.splitOn` with a separator of one character is `List.splitOn` on the characters
(`splitOn_singleton`), so the facts about lists apply to texts: a text is its pieces joined again,
and a piece without the separator is cut off whole (`splitOn_append_sep`).
-/

namespace Erascope

open String

/-! ## 1. Splitting -/

/-- The loop of `splitOn` at the end of `l ++ m`, where the current piece starts after `l`. -/
theorem splitOnAux_singleton (sep : Char) (l m r : List Char) (acc : List String) :
    splitOnAux (ofList (l ++ m ++ r)) (ofList [sep]) ⟨utf8Len l⟩ ⟨utf8Len l + utf8Len m⟩ 0 acc =
      acc.reverse ++ (List.splitOnPPrepend (· == sep) r m.reverse).map ofList := by
  unfold splitOnAux
  simp only [List.append_assoc, atEnd_iff, rawEndPos_ofList, utf8Len_append, Pos.Raw.mk_le_mk,
    Nat.add_le_add_iff_left, (by omega : utf8Len m + utf8Len r ≤ utf8Len m ↔ utf8Len r = 0),
    utf8Len_eq_zero, List.reverse_cons]
  split
  · subst r
    simpa using extract_of_valid l m []
  · obtain ⟨c, r, rfl⟩ := r.exists_cons_of_ne_nil ‹_›
    have hget : Pos.Raw.get (ofList (l ++ (m ++ c :: r))) ⟨utf8Len l + utf8Len m⟩ = c := by
      simpa [-ofList_append] using get_of_valid (l ++ m) (c :: r)
    have hnext : Pos.Raw.next (ofList (l ++ (m ++ c :: r))) ⟨utf8Len l + utf8Len m⟩ =
        ⟨utf8Len l + utf8Len m + c.utf8Size⟩ := by
      simpa [-ofList_append] using next_of_valid (l ++ m) c r
    have hsep : Pos.Raw.get (ofList [sep]) 0 = sep := by
      simpa using get_of_valid [] [sep]
    have hsepnext : Pos.Raw.next (ofList [sep]) 0 = ⟨sep.utf8Size⟩ := by
      simpa using next_of_valid [] sep []
    rw [hget, hnext, hsep, hsepnext]
    split
    case isTrue h =>
      have hc : c = sep := by simpa using h
      subst hc
      have hoff : Pos.Raw.unoffsetBy ⟨utf8Len l + utf8Len m + c.utf8Size⟩ ⟨c.utf8Size⟩ =
          ⟨utf8Len l + utf8Len m⟩ := by
        simp [Pos.Raw.unoffsetBy]
      have hext := extract_of_valid l m (c :: r)
      rw [List.append_assoc] at hext
      rw [if_pos (by simp), hoff, hext]
      simpa [Nat.add_assoc, List.splitOnPPrepend_cons_eq_if] using
        splitOnAux_singleton c (l ++ m ++ [c]) [] r (ofList m :: acc)
    case isFalse h =>
      have hoff : Pos.Raw.unoffsetBy ⟨utf8Len l + utf8Len m⟩ 0 = ⟨utf8Len l + utf8Len m⟩ := by
        simp [Pos.Raw.unoffsetBy]
      rw [hoff, hnext]
      simpa [List.splitOnPPrepend_cons_eq_if, h, Nat.add_assoc] using
        splitOnAux_singleton sep l (m ++ [c]) r acc

/-- Splitting a text at a character is splitting the list of its characters. -/
theorem splitOn_singleton (s : String) (sep : Char) :
    s.splitOn (ofList [sep]) = (s.toList.splitOn sep).map ofList := by
  have h := splitOnAux_singleton sep [] [] s.toList []
  have hne : (ofList [sep] == "") = false := by simp
  rw [splitOn, hne]
  simpa [List.splitOn_eq_splitOnP] using h

/-- A piece without the separator is cut off whole. -/
theorem splitOn_append_sep {sep : Char} {a : String} (ha : sep ∉ a.toList) (b : String) :
    (a ++ ofList [sep] ++ b).splitOn (ofList [sep]) = a :: b.splitOn (ofList [sep]) := by
  rw [splitOn_singleton, splitOn_singleton, toList_append, toList_append, toList_ofList,
    List.append_assoc, List.singleton_append, List.splitOn_append_cons_self_of_not_mem ha,
    List.map_cons, ofList_toList]

/-- A text is its pieces joined again. -/
theorem intercalate_splitOn_singleton (s : String) (sep : Char) :
    (ofList [sep]).intercalate (s.splitOn (ofList [sep])) = s := by
  rw [splitOn_singleton, ← toList_inj, toList_intercalate, List.map_map]
  have hid : toList ∘ ofList = id := funext fun l => toList_ofList
  rw [hid, List.map_id, toList_ofList]
  exact List.intercalate_splitOn sep

/-! ## 2. Joining -/

/-- Joining fewer pieces gives no longer text. -/
theorem length_intercalate_drop_le (sep : String) (n : ℕ) (l : List String) :
    (sep.intercalate (l.drop n)).length ≤ (sep.intercalate l).length := by
  induction l generalizing n with
  | nil => simp
  | cons a l ih =>
    cases n with
    | zero => exact le_refl _
    | succ n =>
      rw [List.drop_succ_cons]
      refine (ih n).trans ?_
      cases l with
      | nil => simp
      | cons b l =>
        rw [intercalate_cons_cons, length_append]
        exact Nat.le_add_left _ _

end Erascope
