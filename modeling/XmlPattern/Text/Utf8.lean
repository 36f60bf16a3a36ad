/-!
# Lengths in UTF-8

Engines count a text in bytes, and so does whoever compares a character with what is written for it.

- `utf8Length_eq_zero_iff`: only the empty text takes no bytes.
- `eq_singleton_iff`: a text that starts with a character and is no longer is that character.
-/

namespace XmlPattern

/-- The length of a text in UTF-8. -/
def utf8Length (cs : List Char) : Nat := cs.foldr (fun c n => c.utf8Size + n) 0

theorem utf8Length_cons (c : Char) (cs : List Char) : utf8Length (c :: cs) = c.utf8Size + utf8Length cs := rfl

theorem utf8Length_eq_zero_iff {cs : List Char} : utf8Length cs = 0 ↔ cs = [] := by
  cases cs with
  | nil => exact iff_of_true rfl rfl
  | cons c cs =>
    refine iff_of_false ?_ (List.cons_ne_nil c cs)
    have hpos := c.utf8Size_pos
    rw [utf8Length_cons]
    omega

theorem eq_singleton_iff {cs : List Char} {c : Char} :
    cs = [c] ↔ utf8Length cs = c.utf8Size ∧ cs.head? = some c := by
  constructor
  · rintro rfl
    exact ⟨rfl, rfl⟩
  · rintro ⟨hlength, hhead⟩
    obtain ⟨rest, rfl⟩ := List.head?_eq_some_iff.mp hhead
    rw [utf8Length_cons] at hlength
    rw [utf8Length_eq_zero_iff.mp (show utf8Length rest = 0 by omega)]

end XmlPattern
