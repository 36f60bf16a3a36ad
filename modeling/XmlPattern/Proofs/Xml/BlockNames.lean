import XmlPattern.Xml.Block

/-!
# Names of blocks, exact and loose

No two names of blocks are the same loosely and different exactly. So a name that some block bears exactly is borne
loosely by the same blocks, and stands for the same characters.

- `charsNamed?_loose`: the loose look-up finds for an exact name what the exact one finds.
-/

namespace XmlPattern.Block

theorem names_apart : (all.map (·.name.toList)).Pairwise fun n n' => looseForm n = looseForm n' → n = n' := by
  -- The names by their characters, since the kernel is slow to take texts apart.
  simp only [all, List.map, String.reduceToList]
  decide +kernel

theorem name_eq_of_looseForm {b b' : Block} (hb : b ∈ all) (hb' : b' ∈ all)
    (h : looseForm b.name.toList = looseForm b'.name.toList) : b.name.toList = b'.name.toList := by
  refine names_apart.forall_of_forall_of_flip (fun _ _ _ => rfl) ?_ (List.mem_map_of_mem hb) (List.mem_map_of_mem hb') h
  exact names_apart.imp fun h h' => (h h'.symm).symm

/-- A name that is borne exactly is borne loosely by the same blocks. -/
theorem named_loose {name : List Char} {b : Block} (hb : b ∈ all) (hn : b.name.toList = name) :
    named true name = named false name := by
  subst hn
  refine List.filter_congr fun b' hb' => ?_
  rw [Bool.eq_iff_iff]
  simp only [hasName, if_true, Bool.false_eq_true, if_false, beq_iff_eq]
  exact ⟨name_eq_of_looseForm hb' hb, congrArg looseForm⟩

theorem charsNamed?_loose_of_mem {name : List Char} {b : Block} (hb : b ∈ all) (hn : b.name.toList = name) :
    charsNamed? true name = charsNamed? false name := by
  rw [charsNamed?, charsNamed?, named_loose hb hn]

/-- The loose look-up finds for an exact name what the exact one finds. -/
theorem charsNamed?_loose {name : List Char} {s : CharSet} (h : charsNamed? false name = some s) :
    charsNamed? true name = some s := by
  have hne : named false name ≠ [] := by
    intro hnil
    rw [charsNamed?, hnil] at h
    cases h
  obtain ⟨b, hmem⟩ := List.exists_mem_of_ne_nil _ hne
  obtain ⟨hb, hname⟩ := List.mem_filter.mp hmem
  rw [charsNamed?_loose_of_mem hb (beq_iff_eq.mp hname), h]

end XmlPattern.Block
