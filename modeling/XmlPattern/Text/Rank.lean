/-!
# Numbering the characters

Characters are the code points outside the surrogate gap U+D800..U+DFFF. Their *rank* counts them without the gap,
so that U+D7FF and U+E000 are neighbours and the ranks fill an initial segment of the numbers.

- `rank_lt`, `rank_ofRank`, `ofRank_rank`: rank and `ofRank` are inverse bijections.
- `rank_lt_charsBelow_iff`: comparing ranks is comparing code points.
-/

namespace XmlPattern

/-- How many characters there are. -/
def charCount : Nat := 0x10F800

/-- How many characters lie below a code point, or below a bound that is none. -/
def charsBelow (n : Nat) : Nat :=
  if n ≤ 0xD800 then n else if n ≤ 0xE000 then 0xD800 else n - 0x800

/-- The code point of the character of a rank. -/
def codePointAt (rank : Nat) : Nat := if rank < 0xD800 then rank else rank + 0x800

/-- How many characters precede this one. -/
def rank (c : Char) : Nat := charsBelow c.toNat

/-- The character of a rank. -/
def ofRank (rank : Nat) : Char := Char.ofNat (codePointAt rank)

theorem toNat_gap (c : Char) : c.toNat < 0xD800 ∨ 0xDFFF < c.toNat ∧ c.toNat < 0x110000 := by
  have h := c.valid
  simp only [UInt32.isValidChar, Nat.isValidChar] at h
  exact h

theorem rank_lt (c : Char) : rank c < charCount := by
  have := toNat_gap c
  unfold rank charsBelow charCount
  split
  · omega
  · split <;> omega

theorem codePointAt_rank (c : Char) : codePointAt (rank c) = c.toNat := by
  have := toNat_gap c
  unfold codePointAt rank charsBelow
  split <;> split <;> (try split) <;> omega

theorem ofRank_rank (c : Char) : ofRank (rank c) = c := by
  rw [ofRank, codePointAt_rank, Char.ofNat_toNat]

theorem codePointAt_isValidChar {r : Nat} (h : r < charCount) : (codePointAt r).isValidChar := by
  unfold charCount at h
  unfold codePointAt Nat.isValidChar
  split <;> omega

theorem toNat_ofRank {r : Nat} (h : r < charCount) : (ofRank r).toNat = codePointAt r := by
  rw [ofRank, Char.ofNat, dif_pos (codePointAt_isValidChar h)]
  rfl

theorem charsBelow_codePointAt (r : Nat) : charsBelow (codePointAt r) = r := by
  unfold charsBelow codePointAt
  split <;> split <;> (try split) <;> omega

theorem rank_ofRank {r : Nat} (h : r < charCount) : rank (ofRank r) = r := by
  rw [rank, toNat_ofRank h, charsBelow_codePointAt]

theorem rank_inj {a b : Char} (h : rank a = rank b) : a = b := by
  rw [← ofRank_rank a, ← ofRank_rank b, h]

theorem rank_lt_charsBelow_iff {c : Char} {n : Nat} : rank c < charsBelow n ↔ c.toNat < n := by
  have := toNat_gap c
  unfold rank charsBelow
  split <;> split <;> (try split) <;> (try split) <;> omega

end XmlPattern
