import XmlPattern.CharSet.Basic

/-!
# Seams between runs

Two runs of a set are on either side of a seam when nothing lies between them. A union joins such runs, except where the
seam is the surrogate gap: there no code point is behind another. A complement takes each seam for a gap between runs,
and puts the two characters at the seam into the set. So a complement is right for sets without seams, and wrong at the
seams of others.

- `Parted P s`: the runs of `s` are in order, with seams only where `P` allows them.
- `seamAt_gap_iff`: a seam at the surrogate gap, in terms of members and of runs across the gap.
- `canonical_union`, `canonical_unions`: a union has no seam but at the surrogate gap.
- `parted_diff`: a difference has no seams of its own.
-/

namespace XmlPattern

/-- The rank of the first character behind the surrogate gap. -/
def gapRank : Nat := 0xD800

/-- The last character before the surrogate gap. -/
def beforeGap : Char := '\uD7FF'

/-- The first character behind the surrogate gap. -/
def behindGap : Char := '\uE000'

/-- The two characters at the surrogate gap. -/
def AtGap (c : Char) : Prop := c = beforeGap ∨ c = behindGap

instance (c : Char) : Decidable (AtGap c) := inferInstanceAs (Decidable (_ ∨ _))

theorem rank_beforeGap : rank beforeGap + 1 = gapRank := rfl

theorem rank_behindGap : rank behindGap = gapRank := rfl

theorem atGap_iff {c : Char} : AtGap c ↔ rank c + 1 = gapRank ∨ rank c = gapRank := by
  rw [← rank_behindGap, AtGap]
  refine or_congr ⟨?_, fun h => rank_inj ?_⟩ ⟨?_, fun h => rank_inj h⟩
  · rintro rfl
    exact rank_beforeGap
  · have := rank_beforeGap
    rw [rank_behindGap] at h
    omega
  · rintro rfl
    rfl

/-- A run holds both characters at the surrogate gap. -/
def Run.IsBridge (r : Run) : Prop := r.first < gapRank ∧ gapRank ≤ r.last

instance (r : Run) : Decidable r.IsBridge := inferInstanceAs (Decidable (_ ∧ _))

/-- One run ends before another starts, and with nothing between them only where `P` allows it. -/
def Run.Apart (P : Nat → Prop) (a b : Run) : Prop := a.last < b.first ∧ (b.first = a.last + 1 → P b.first)

namespace CharSet

/-! ## Seams -/

/-- The runs are in order, and where nothing lies between two of them, `P` holds of the rank of the second. -/
def Parted (P : Nat → Prop) (s : CharSet) : Prop := s.runs.Pairwise (Run.Apart P)

/-- The runs are in order. -/
abbrev Ordered (s : CharSet) : Prop := s.Parted fun _ => True

/-- The runs are in order, and have seams at the surrogate gap at most. -/
abbrev Canonical (s : CharSet) : Prop := s.Parted (· = gapRank)

/-- One run starts at a rank and another ends right before it. -/
def SeamAt (s : CharSet) (n : Nat) : Prop := ∃ a ∈ s.runs, ∃ b ∈ s.runs, a.last + 1 = n ∧ b.first = n

/-- Some run holds both characters at the surrogate gap. -/
def Bridged (s : CharSet) : Prop := ∃ r ∈ s.runs, r.IsBridge

instance (s : CharSet) : Decidable s.Bridged := inferInstanceAs (Decidable (∃ r ∈ s.runs, r.IsBridge))

theorem Parted.mono {P Q : Nat → Prop} {s : CharSet} (h : s.Parted P) (hPQ : ∀ n, P n → Q n) : s.Parted Q :=
  List.Pairwise.imp (fun hab => ⟨hab.1, fun he => hPQ _ (hab.2 he)⟩) h

theorem Parted.ordered {P : Nat → Prop} {s : CharSet} (h : s.Parted P) : s.Ordered := h.mono fun _ _ => trivial

theorem parted_false_iff {s : CharSet} : s.Parted (fun _ => False) ↔ s.Separated := by
  refine ⟨List.Pairwise.imp fun h => ?_, List.Pairwise.imp fun h => ?_⟩
  · have hne : _ ≠ _ := h.2
    have := h.1
    omega
  · exact ⟨by omega, fun he => by omega⟩

theorem Separated.parted {s : CharSet} (h : s.Separated) (P : Nat → Prop) : s.Parted P :=
  (parted_false_iff.mpr h).mono fun _ => False.elim

/-- Of two runs of a list whose runs are in order, one is before the other. -/
theorem apart_of_mem {P : Nat → Prop} {rs : List Run} (h : rs.Pairwise (Run.Apart P)) {a b : Run} (ha : a ∈ rs)
    (hb : b ∈ rs) : a = b ∨ a.Apart P b ∨ b.Apart P a := by
  induction rs with
  | nil => cases ha
  | cons r rs ih =>
    obtain ⟨hr, hrs⟩ := List.pairwise_cons.mp h
    rcases List.mem_cons.mp ha with rfl | ha'
    · rcases List.mem_cons.mp hb with rfl | hb'
      · exact .inl rfl
      · exact .inr (.inl (hr b hb'))
    · rcases List.mem_cons.mp hb with rfl | hb'
      · exact .inr (.inr (hr a ha'))
      · exact ih hrs ha' hb'

theorem Parted.of_seamAt {P : Nat → Prop} {s : CharSet} (h : s.Parted P) {n : Nat} (hn : s.SeamAt n) : P n := by
  obtain ⟨a, ha, b, hb, rfl, he⟩ := hn
  have hao := a.ordered
  have hbo := b.ordered
  rcases apart_of_mem h ha hb with rfl | hab | hba
  · omega
  · exact he ▸ hab.2 he
  · have := hba.1
    omega

theorem parted_of_seams {P : Nat → Prop} {s : CharSet} (h : s.Ordered) (hP : ∀ n, s.SeamAt n → P n) : s.Parted P :=
  h.imp_of_mem fun ha hb hab => ⟨hab.1, fun he => hP _ ⟨_, ha, _, hb, he.symm, rfl⟩⟩

/-- No two runs of a set in order share a character. -/
theorem Parted.eq_of_contains {P : Nat → Prop} {s : CharSet} (h : s.Parted P) {a b : Run} (ha : a ∈ s.runs)
    (hb : b ∈ s.runs) {n : Nat} (hna : a.contains n = true) (hnb : b.contains n = true) : a = b := by
  rw [Run.contains_iff] at hna hnb
  rcases apart_of_mem h ha hb with he | hab | hba
  · exact he
  · have := hab.1
    omega
  · have := hba.1
    omega

theorem mem_of_seamAt {s : CharSet} {c : Char} {n : Nat} (h : s.SeamAt n)
    (hc : rank c + 1 = n ∨ rank c = n) : c ∈ s := by
  obtain ⟨a, ha, b, hb, h₁, h₂⟩ := h
  have := a.ordered
  have := b.ordered
  rw [mem_iff]
  rcases hc with hc | hc
  · exact ⟨a, ha, Run.contains_iff.mpr (by omega)⟩
  · exact ⟨b, hb, Run.contains_iff.mpr (by omega)⟩

theorem mem_of_bridged {s : CharSet} {c : Char} (h : s.Bridged) (hc : AtGap c) : c ∈ s := by
  obtain ⟨r, hr, h₁, h₂⟩ := h
  rw [atGap_iff] at hc
  exact mem_iff.mpr ⟨r, hr, Run.contains_iff.mpr (by omega)⟩

/-- The two characters at the gap are members of different runs. -/
theorem seamAt_gap_iff {s : CharSet} (h : s.Ordered) :
    s.SeamAt gapRank ↔ beforeGap ∈ s ∧ behindGap ∈ s ∧ ¬ s.Bridged := by
  constructor
  · intro hs
    refine ⟨mem_of_seamAt hs (.inl rank_beforeGap), mem_of_seamAt hs (.inr rank_behindGap), ?_⟩
    rintro ⟨r, hr, h₁, h₂⟩
    obtain ⟨a, ha, -, -, ha', -⟩ := hs
    have hao := a.ordered
    have hra : r = a := h.eq_of_contains hr ha (n := a.last) (Run.contains_iff.mpr (by omega))
      (Run.contains_iff.mpr (by omega))
    subst hra
    omega
  · rintro ⟨hbefore, hbehind, hbridge⟩
    obtain ⟨a, ha, hac⟩ := mem_iff.mp hbefore
    obtain ⟨b, hb, hbc⟩ := mem_iff.mp hbehind
    rw [Run.contains_iff] at hac hbc
    have h₁ := rank_beforeGap
    have h₂ := rank_behindGap
    have ha' : ¬ gapRank ≤ a.last := fun hle => hbridge ⟨a, ha, by omega, hle⟩
    have hb' : ¬ b.first < gapRank := fun hlt => hbridge ⟨b, hb, hlt, by omega⟩
    exact ⟨a, ha, b, hb, by omega, by omega⟩

/-! ## Union -/

theorem not_reaches_apart {a b : Run} (h : a.first ≤ b.first) (hm : ¬ a.meets b = true) : a.Apart (· = gapRank) b := by
  have := a.ordered
  have := b.ordered
  unfold Run.Apart gapRank
  simp only [Run.meets, Run.reaches, Bool.and_eq_true, Bool.or_eq_true, decide_eq_true_eq, bne_iff_ne] at hm
  omega

theorem parted_joinFrom (a : Run) (rest : List Run) (h : (a :: rest).Pairwise fun a b => a.first ≤ b.first) :
    (joinFrom a rest).Pairwise (Run.Apart (· = gapRank)) ∧ ∀ r ∈ joinFrom a rest, a.first ≤ r.first := by
  induction rest generalizing a with
  | nil => simp [joinFrom]
  | cons b rest ih =>
    obtain ⟨ha, hb⟩ := List.pairwise_cons.mp h
    have hab := ha b List.mem_cons_self
    have hfirst : (a.join b).first = a.first := Nat.min_eq_left hab
    unfold joinFrom
    split
    · have := ih (a.join b) (List.pairwise_cons.mpr
        ⟨fun r hr => hfirst ▸ ha r (List.mem_cons_of_mem _ hr), (List.pairwise_cons.mp hb).2⟩)
      rwa [hfirst] at this
    · next hm =>
      obtain ⟨hrest, hle⟩ := ih b hb
      have hapart := not_reaches_apart hab hm
      refine ⟨List.pairwise_cons.mpr ⟨fun r hr => ?_, hrest⟩, ?_⟩
      · have hbr := hle r hr
        unfold Run.Apart at hapart ⊢
        omega
      · rintro r (_ | ⟨_, hr⟩)
        · exact Nat.le_refl _
        · exact Nat.le_trans hab (hle r hr)

theorem bridge_join {a b : Run} (h : a.meets b = true) : (a.join b).IsBridge ↔ a.IsBridge ∨ b.IsBridge := by
  have := a.ordered
  have := b.ordered
  simp only [Run.meets, Run.reaches, Bool.and_eq_true, Bool.or_eq_true, decide_eq_true_eq, bne_iff_ne] at h
  unfold Run.IsBridge Run.join gapRank
  dsimp only
  omega

theorem bridged_joinFrom (a : Run) (rest : List Run) :
    (∃ r ∈ joinFrom a rest, r.IsBridge) ↔ ∃ r ∈ a :: rest, r.IsBridge := by
  induction rest generalizing a with
  | nil => rfl
  | cons b rest ih =>
    unfold joinFrom
    split
    · next h => simp only [ih, List.mem_cons, exists_eq_or_imp, bridge_join h, or_assoc]
    · simp only [List.mem_cons, exists_eq_or_imp, ih]

theorem sorted_merge {s t : CharSet} (hs : s.Ordered) (ht : t.Ordered) :
    (s.runs.merge t.runs fun a b => a.first ≤ b.first).Pairwise fun a b => a.first ≤ b.first := by
  have hsorted : ∀ {s : CharSet}, s.Ordered → s.runs.Pairwise fun a b => decide (a.first ≤ b.first) = true := by
    intro s hs
    refine List.Pairwise.imp (fun {a b} hab => ?_) hs
    have := a.ordered
    have := hab.1
    rw [decide_eq_true_eq]
    omega
  have h := List.pairwise_merge
    (fun a b c : Run => show decide (a.first ≤ b.first) = true → decide (b.first ≤ c.first) = true →
      decide (a.first ≤ c.first) = true from by
      simpa using Nat.le_trans) (fun a b => by simpa using Nat.le_total _ _) _ _ (hsorted hs) (hsorted ht)
  simpa using h

/-- A union has seams at the surrogate gap alone. -/
theorem canonical_union {s t : CharSet} (hs : s.Ordered) (ht : t.Ordered) : (s ∪ t).Canonical := by
  have h := sorted_merge hs ht
  show (joinRuns _).Pairwise _
  unfold joinRuns
  split
  · exact .nil
  · next a rest hmerge => exact (parted_joinFrom a rest (hmerge ▸ h)).1

theorem bridged_union {s t : CharSet} : (s ∪ t).Bridged ↔ s.Bridged ∨ t.Bridged := by
  have h : ∀ rs : List Run, (∃ r ∈ joinRuns rs, r.IsBridge) ↔ ∃ r ∈ rs, r.IsBridge := by
    intro rs
    cases rs with
    | nil => rfl
    | cons a rest => exact bridged_joinFrom a rest
  show (∃ r ∈ joinRuns _, r.IsBridge) ↔ _
  simp only [h, List.mem_merge, or_and_right, exists_or, Bridged]

theorem canonical_empty : (∅ : CharSet).Canonical := .nil

theorem not_bridged_empty : ¬ (∅ : CharSet).Bridged := by
  rintro ⟨r, hr, _⟩
  cases hr

theorem canonical_foldl_union {s : CharSet} {ts : List CharSet} (hs : s.Canonical) (ht : ∀ t ∈ ts, t.Canonical) :
    (ts.foldl (· ∪ ·) s).Canonical := by
  induction ts generalizing s with
  | nil => exact hs
  | cons t ts ih =>
    exact ih (canonical_union hs.ordered (ht t List.mem_cons_self).ordered)
      fun u hu => ht u (List.mem_cons_of_mem _ hu)

theorem bridged_foldl_union {s : CharSet} {ts : List CharSet} :
    (ts.foldl (· ∪ ·) s).Bridged ↔ s.Bridged ∨ ∃ t ∈ ts, t.Bridged := by
  induction ts generalizing s with
  | nil => simp
  | cons t ts ih => simp [ih, bridged_union, or_assoc]

theorem canonical_unionPairs {sets : List CharSet} (h : ∀ s ∈ sets, s.Canonical) :
    ∀ s ∈ unionPairs sets, s.Canonical := by
  fun_induction unionPairs sets with
  | case1 s t rest ih =>
    simp only [List.mem_cons, forall_eq_or_imp] at h ⊢
    exact ⟨canonical_union h.1.ordered h.2.1.ordered, ih h.2.2⟩
  | case2 => exact h

theorem bridged_unionPairs (sets : List CharSet) :
    (∃ s ∈ unionPairs sets, s.Bridged) ↔ ∃ s ∈ sets, s.Bridged := by
  fun_induction unionPairs sets with
  | case1 s t rest ih => simp [ih, bridged_union, or_assoc]
  | case2 => rfl

/-- Unions of any number of sets have seams at the surrogate gap alone. -/
theorem canonical_unions {sets : List CharSet} (h : ∀ s ∈ sets, s.Canonical) : (unions sets).Canonical := by
  unfold unions
  fun_induction unionRounds sets.length sets with
  | case1 => exact canonical_empty
  | case2 => exact h _ List.mem_cons_self
  | case3 s rest =>
    exact canonical_foldl_union (h s List.mem_cons_self) fun t ht => h t (List.mem_cons_of_mem _ ht)
  | case4 rounds sets _ _ ih => exact ih (canonical_unionPairs h)

theorem bridged_unions {sets : List CharSet} : (unions sets).Bridged ↔ ∃ s ∈ sets, s.Bridged := by
  unfold unions
  fun_induction unionRounds sets.length sets with
  | case1 => simp [not_bridged_empty]
  | case2 => simp
  | case3 s rest => simp [bridged_foldl_union]
  | case4 rounds sets _ _ ih => rw [ih, bridged_unionPairs]

/-! ## Difference -/

theorem apart_without {P : Nat → Prop} (a b : Run) : (a.without b).Pairwise (Run.Apart P) := by
  have := b.ordered
  have := a.ordered
  unfold Run.without Run.before Run.behind
  split <;> split <;> simp only [List.cons_append, List.nil_append, List.pairwise_cons, List.Pairwise.nil,
    List.mem_singleton, List.not_mem_nil, false_imp_iff, forall_eq, implies_true, and_true]
  unfold Run.Apart
  dsimp only
  omega

/-- A list of runs within another run. -/
def Within (a : Run) (rs : List Run) : Prop := ∀ r ∈ rs, a.first ≤ r.first ∧ r.last ≤ a.last

theorem within_without (a b : Run) : Within a (a.without b) := by
  intro r hr
  have := a.ordered
  unfold Run.without Run.before Run.behind at hr
  split at hr <;> split at hr <;> simp at hr
  all_goals
    try rcases hr with rfl | rfl
    all_goals
      try subst hr
      dsimp only
      omega

theorem parted_flatMap {P : Nat → Prop} {f : Run → List Run} {rs : List Run} (hf : ∀ a, (f a).Pairwise (Run.Apart P))
    (hw : ∀ a, Within a (f a)) (h : rs.Pairwise (Run.Apart P)) : (rs.flatMap f).Pairwise (Run.Apart P) := by
  refine List.pairwise_flatMap.mpr ⟨fun a _ => hf a, h.imp fun {a b} hab x hx y hy => ?_⟩
  have hxa := hw a x hx
  have hyb := hw b y hy
  have hlt := hab.1
  refine ⟨by omega, fun he => ?_⟩
  have hy : y.first = b.first := by omega
  rw [hy]
  exact hab.2 (by omega)

theorem parted_removeRuns {P : Nat → Prop} {kept taken : List Run} (h : kept.Pairwise (Run.Apart P)) :
    (removeRuns kept taken).Pairwise (Run.Apart P) := by
  induction taken generalizing kept with
  | nil => exact h
  | cons b taken ih => exact ih (parted_flatMap (apart_without · b) (within_without · b) h)

theorem within_removeRuns {a : Run} {kept taken : List Run} (h : Within a kept) : Within a (removeRuns kept taken) := by
  induction taken generalizing kept with
  | nil => exact h
  | cons b taken ih =>
    refine ih fun r hr => ?_
    obtain ⟨k, hk, hr⟩ := List.mem_flatMap.mp hr
    have h₁ := h k hk
    have h₂ := within_without k b r hr
    omega

/-- A difference has no seams of its own. -/
theorem parted_diff {P : Nat → Prop} {s t : CharSet} (h : s.Parted P) : (s \ t).Parted P :=
  parted_flatMap (fun _ => parted_removeRuns (List.pairwise_singleton _ _))
    (fun a => within_removeRuns (by simp [Within])) h

/-! ## Spans -/

theorem separated_interval (first stop : Nat) : (interval first stop).Separated := by
  show List.Pairwise _ _
  unfold interval
  dsimp only
  split
  · exact List.pairwise_singleton _ _
  · exact .nil

theorem bridged_interval {first stop : Nat} : (interval first stop).Bridged ↔ first < gapRank ∧ gapRank < stop := by
  unfold Bridged interval Run.IsBridge gapRank
  dsimp only
  split
  · simp only [List.mem_singleton, exists_eq_left, Run.ofEnds, charCount]
    omega
  · next h =>
    unfold charCount at h
    simp only [List.not_mem_nil, false_and, exists_false, false_iff]
    omega

theorem separated_span (lo hi : Nat) : (span lo hi).Separated := separated_interval _ _

theorem bridged_span {lo hi : Nat} : (span lo hi).Bridged ↔ beforeGap ∈ span lo hi ∧ behindGap ∈ span lo hi := by
  rw [span, bridged_interval, mem_interval, mem_interval]
  have h₁ := rank_beforeGap
  have h₂ := rank_behindGap
  omega

theorem separated_single (c : Char) : (single c).Separated := separated_interval _ _

theorem not_bridged_single (c : Char) : ¬ (single c).Bridged := by
  rw [single, bridged_interval]
  omega

theorem separated_full : full.Separated := List.pairwise_singleton _ _

theorem canonical_ofList (cs : List Char) : (ofList cs).Canonical :=
  canonical_unions fun s hs => by
    obtain ⟨c, _, rfl⟩ := List.mem_map.mp hs
    exact (separated_single c).parted _

theorem not_bridged_ofList (cs : List Char) : ¬ (ofList cs).Bridged := by
  rw [ofList, bridged_unions]
  rintro ⟨s, hs, hb⟩
  obtain ⟨c, _, rfl⟩ := List.mem_map.mp hs
  exact not_bridged_single c hb

theorem canonical_ofSpans (spans : List (Nat × Nat)) : (ofSpans spans).Canonical :=
  canonical_unions fun s hs => by
    obtain ⟨p, _, rfl⟩ := List.mem_map.mp hs
    exact (separated_span _ _).parted _

/-- A canonical set without a seam at the gap has none at all. -/
theorem Parted.separated {s : CharSet} (h : s.Canonical) (hs : ¬ s.SeamAt gapRank) : s.Separated :=
  parted_false_iff.mp (parted_of_seams h.ordered fun _ hn => hs (h.of_seamAt hn ▸ hn))

/-- A canonical set that lacks one of the characters at the gap has no seam. -/
theorem Parted.separated_of_not_mem {s : CharSet} (h : s.Canonical) {c : Char} (hc : AtGap c) (hs : c ∉ s) :
    s.Separated :=
  h.separated fun hseam => hs (mem_of_seamAt hseam (atGap_iff.mp hc))

/-- A separated set is bridged if it holds both characters at the gap. -/
theorem Separated.bridged_iff {s : CharSet} (h : s.Separated) : s.Bridged ↔ ∀ c, AtGap c → c ∈ s := by
  refine ⟨fun hb c hc => mem_of_bridged hb hc, fun hall => ?_⟩
  have hord : s.Ordered := h.parted _
  have hns : ¬ s.SeamAt gapRank := fun hs => (parted_false_iff.mpr h).of_seamAt hs
  rw [seamAt_gap_iff hord] at hns
  exact Decidable.byContradiction fun hb => hns ⟨hall _ (.inl rfl), hall _ (.inr rfl), hb⟩

end CharSet

end XmlPattern
