/-!
The text that is matched: a list of scalars. Sizes are measured in UTF-8 bytes, so a position is
always the size of a whole number of scalars. A given text is removed from the front of another
exactly when the second is the first and then the remainder.
-/
namespace Descent

abbrev Text := List Char

namespace Text

def byteLength : Text → Nat
  | [] => 0
  | c :: t => c.utf8Size + byteLength t

theorem byteLengthAppend (s t : Text) : byteLength (s ++ t) = byteLength s + byteLength t := by
  induction s with
  | nil => simp [byteLength]
  | cons c s ih => simp [byteLength, ih, Nat.add_assoc]

theorem lengthLeByteLength (t : Text) : t.length ≤ byteLength t := by
  induction t with
  | nil => exact Nat.le_refl 0
  | cons c t ih =>
    have positive := c.utf8Size_pos
    simp only [byteLength, List.length_cons]
    omega

theorem byteLengthCons (c : Char) (t : Text) : byteLength t < byteLength (c :: t) :=
  Nat.lt_add_of_pos_left c.utf8Size_pos

theorem byteLengthBehind {used : Text} (full : used ≠ []) (rest : Text) :
    byteLength rest < byteLength (used ++ rest) := by
  have positive := Nat.lt_of_lt_of_le (List.length_pos_iff.mpr full) (lengthLeByteLength used)
  rw [byteLengthAppend]
  omega

theorem byteLengthShorter {t rest : Text} (suffix : rest <:+ t) (shorter : rest.length < t.length) :
    byteLength rest < byteLength t := by
  obtain ⟨used, rfl⟩ := suffix
  refine byteLengthBehind (fun none => ?_) rest
  rw [none] at shorter
  exact Nat.lt_irrefl _ shorter

def after? : Text → Text → Option Text
  | [], input => some input
  | _ :: _, [] => none
  | c :: expected, d :: input => if c = d then after? expected input else none

theorem afterAppend (s t : Text) : after? s (s ++ t) = some t := by
  induction s with
  | nil => rfl
  | cons c s ih => simpa [after?] using ih

theorem afterSplits {s input rest : Text} (found : after? s input = some rest) :
    input = s ++ rest := by
  induction s generalizing input with
  | nil => simpa [after?] using found
  | cons c s ih =>
    cases input with
    | nil => simp [after?] at found
    | cons d input =>
      simp only [after?] at found
      split at found
      · rename_i same
        rw [same, ih found, List.cons_append]
      · contradiction

end Text
end Descent
