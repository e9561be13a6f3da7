/-
  Substring search on characters, and what a positive answer means (`occurs_iff`).
-/

namespace BootSlots.Text

/-- Whether `needle` stands somewhere in the text as one block; the empty needle always does. -/
def occurs (needle : List Char) : List Char → Bool
  | [] => needle.isEmpty
  | c :: cs => needle.isPrefixOf (c :: cs) || occurs needle cs

theorem occurs_iff (needle text : List Char) : occurs needle text = true ↔ needle <:+: text := by
  induction text with
  | nil => simp [occurs]
  | cons c cs ih =>
    rw [occurs, Bool.or_eq_true, ih, List.isPrefixOf_iff_prefix, List.infix_cons_iff]

end BootSlots.Text
