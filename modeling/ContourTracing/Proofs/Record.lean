import ContourTracing.Brackets
import ContourTracing.Proofs.Start

/-!
# What buffers record

A buffer records a set of boundary sides if its marked cells are the pixels behind the vertical
sides of the set. No two vertical boundary sides have the same pixel behind them, so that a
bracket tells whether its side belongs to the set. Since the main mode clears cells that it has
done with, records may begin at a later cell than the first one.
-/

namespace ContourTracing

namespace Mask

variable {mask : Mask} {s t : Position}

theorem past_injOn (mask : Mask) :
    Set.InjOn Position.past {s | mask.IsBoundary s ∧ s.side.isVertical = true} := by
  rintro s ⟨hs, hsv⟩ t ⟨ht, htv⟩ h
  obtain ⟨hedge, hy⟩ := Prod.mk.inj h
  exact eq_of_edge_eq hs ht hsv htv hy hedge

/-- The pixel behind a vertical side lies in the rectangle unless the side ends a row. -/
theorem contains_past_iff (h : mask.IsBoundary s) (hv : s.side.isVertical = true) :
    mask.Contains s.past.1 s.past.2 ↔ s.edge < mask.width := by
  have hcontains := contains_of_isBoundary h
  unfold Contains at *
  rcases Position.side_eq_of_isVertical hv with hside | hside
  · simp only [Position.past, Position.edge_left hside]
    omega
  · simp only [Position.past, Position.edge_right hside]
    omega

/-- Only a right side at the end of a row has no pixel of the rectangle behind it. -/
theorem edge_lt_width_iff (h : mask.IsBoundary s) (hv : s.side.isVertical = true) :
    s.edge < mask.width ↔ ¬ (s.side = .right ∧ s.x + 1 = mask.width) := by
  obtain ⟨-, hw, -, -⟩ := contains_of_isBoundary h
  rcases Position.side_eq_of_isVertical hv with hside | hside
  · simpa [Position.edge_left hside, hside] using hw
  · simp only [Position.edge_right hside, hside, true_and]
    omega

theorem bracketCell?_of_isVertical (h : mask.IsBoundary s) (hv : s.side.isVertical = true) :
    mask.bracketCell? s =
      if s.edge < mask.width then some (mask.index s.past.1 s.past.2) else none := by
  obtain ⟨hx, hw, hy, -⟩ := contains_of_isBoundary h
  rcases Position.side_eq_of_isVertical hv with hside | hside
  · simp [bracketCell?, hside, Position.past, Position.edge, hw]
  · have hindex : mask.index (s.x + 1) s.y = mask.index s.x s.y + 1 := by
      unfold index
      omega
    simp [bracketCell?, hside, Position.past, Position.edge, hindex]

theorem bracketCell?_of_not_isVertical (hv : ¬ s.side.isVertical = true) :
    mask.bracketCell? s = none := by
  cases hside : s.side <;> simp_all [bracketCell?, Side.isVertical]

end Mask

namespace Cells

/-- The marked cells from `first` on are the brackets of the sides of a set. -/
structure Records (cells : Cells) (mask : Mask) (first : ℕ) (sides : Set Position) : Prop where
  size_eq : cells.size = mask.size
  isBoundary : ∀ s ∈ sides, mask.IsBoundary s
  isMarked_iff : ∀ p : Pixel, mask.Contains p.1 p.2 → first ≤ mask.index p.1 p.2 →
    (cells.isMarked (mask.index p.1 p.2) = true ↔
      ∃ s ∈ sides, s.side.isVertical = true ∧ s.past = p)

namespace Records

variable {mask : Mask} {cells : Cells} {first : ℕ} {sides : Set Position} {s : Position}

theorem of_isMarked_eq_false (hsize : cells.size = mask.size)
    (h : ∀ index, cells.isMarked index = false) : cells.Records mask first ∅ where
  size_eq := hsize
  isBoundary _ hs := hs.elim
  isMarked_iff p _ _ := by simp [h]

theorem mono (h : cells.Records mask first sides) {later : ℕ} (hle : first ≤ later) :
    cells.Records mask later sides where
  size_eq := h.size_eq
  isBoundary := h.isBoundary
  isMarked_iff p hp hlater := h.isMarked_iff p hp (hle.trans hlater)

theorem clear (h : cells.Records mask first sides) {index : ℕ} (hlt : index < first) :
    (cells.clear index).Records mask first sides where
  size_eq := by rw [size_clear, h.size_eq]
  isBoundary := h.isBoundary
  isMarked_iff p hp hfirst := by
    rw [isMarked_clear, decide_eq_false (by omega), Bool.not_false, Bool.true_and]
    exact h.isMarked_iff p hp hfirst

theorem fill (h : cells.Records mask first sides) {start count : ℕ} (hle : start + count ≤ first) :
    (cells.fill start count).Records mask first sides where
  size_eq := by rw [size_fill, h.size_eq]
  isBoundary := h.isBoundary
  isMarked_iff p hp hfirst := by
    rw [isMarked_fill, decide_eq_false (by omega), Bool.false_or]
    exact h.isMarked_iff p hp hfirst

/-- The bracket of a vertical side tells whether the side is recorded. -/
theorem hasBracket_iff (h : cells.Records mask first sides) (hs : mask.IsBoundary s)
    (hv : s.side.isVertical = true) (hedge : s.edge < mask.width)
    (hfirst : first ≤ mask.index s.past.1 s.past.2) :
    cells.hasBracket mask s = true ↔ s ∈ sides := by
  have hmarked := h.isMarked_iff s.past ((Mask.contains_past_iff hs hv).2 hedge) hfirst
  simp only [hasBracket, Mask.bracketCell?_of_isVertical hs hv, if_pos hedge, hmarked]
  constructor
  · rintro ⟨t, ht, htv, hpast⟩
    rwa [← mask.past_injOn ⟨h.isBoundary t ht, htv⟩ ⟨hs, hv⟩ hpast]
  · exact fun hmem ↦ ⟨s, hmem, hv, rfl⟩

theorem putBracket (h : cells.Records mask first sides) (hs : mask.IsBoundary s) :
    (cells.putBracket mask s).Records mask first (insert s sides) where
  size_eq := by
    unfold Cells.putBracket
    split
    · rw [size_mark, h.size_eq]
    · exact h.size_eq
  isBoundary t ht := by
    rcases ht with rfl | ht
    · exact hs
    · exact h.isBoundary t ht
  isMarked_iff p hp hfirst := by
    have hinsert : (∃ t ∈ insert s sides, t.side.isVertical = true ∧ t.past = p) ↔
        s.side.isVertical = true ∧ s.past = p ∨
          ∃ t ∈ sides, t.side.isVertical = true ∧ t.past = p := by
      simp
    rw [hinsert, ← h.isMarked_iff p hp hfirst]
    unfold Cells.putBracket
    by_cases hv : s.side.isVertical = true
    · rw [Mask.bracketCell?_of_isVertical hs hv]
      by_cases hedge : s.edge < mask.width
      · have hpast := (Mask.contains_past_iff hs hv).2 hedge
        have hindex : mask.index s.past.1 s.past.2 = mask.index p.1 p.2 ↔ s.past = p :=
          ⟨fun heq ↦ mask.index_injOn hpast hp heq, fun heq ↦ by rw [heq]⟩
        have hsize := Mask.index_lt_size hpast
        simp [if_pos hedge, isMarked_mark, h.size_eq, hsize, hindex, hv]
      · have hne : s.past ≠ p := fun heq ↦
          hedge ((Mask.contains_past_iff hs hv).1 (heq ▸ hp))
        simp [if_neg hedge, hne]
    · simp [Mask.bracketCell?_of_not_isVertical hv, hv]

theorem foldl_putBracket (h : cells.Records mask first sides) {more : List Position}
    (hmore : ∀ s ∈ more, mask.IsBoundary s) :
    (more.foldl (·.putBracket mask ·) cells).Records mask first (sides ∪ {s | s ∈ more}) := by
  induction more generalizing cells sides with
  | nil => simpa using h
  | cons s more ih =>
    have hrest := ih (h.putBracket (hmore s List.mem_cons_self))
      fun t ht ↦ hmore t (List.mem_cons_of_mem s ht)
    have hunion : insert s sides ∪ {t | t ∈ more} = sides ∪ {t | t ∈ s :: more} := by
      ext t
      simp only [Set.mem_union, Set.mem_insert_iff, Set.mem_ofPred_eq, List.mem_cons]
      tauto
    rwa [hunion] at hrest

end Records

end Cells

namespace Mask

variable {mask : Mask} {connectivity : Connectivity} {P : Position → Prop} {d e s : Position}
  {m n : ℕ}

/-- The sides of the circuits of a kind that start before a slot. -/
def sidesBefore (mask : Mask) (connectivity : Connectivity) (P : Position → Prop) (n : ℕ) :
    Set Position :=
  {s | ∃ e, mask.IsStart connectivity e ∧ P e ∧ mask.slot e < n ∧
    s ∈ mask.circuit connectivity e}

theorem sidesBefore_zero : mask.sidesBefore connectivity P 0 = ∅ := by
  ext s
  simp [sidesBefore]

theorem mem_sidesBefore_iff (he : mask.IsStart connectivity e)
    (hs : s ∈ mask.circuit connectivity e) :
    s ∈ mask.sidesBefore connectivity P n ↔ P e ∧ mask.slot e < n := by
  constructor
  · rintro ⟨d, hd, hP, hn, hsd⟩
    rw [← he.eq_of_mem hd hs hsd]
    exact ⟨hP, hn⟩
  · rintro ⟨hP, hn⟩
    exact ⟨e, he, hP, hn, hs⟩

/-- From one start to behind the next one, the sides of its circuit are added. -/
theorem sidesBefore_succ (he : mask.IsStart connectivity e) (hle : n ≤ mask.slot e)
    (hleast : ∀ d, mask.IsStart connectivity d → P d → n ≤ mask.slot d →
      mask.slot e ≤ mask.slot d) :
    mask.sidesBefore connectivity P (mask.slot e + 1) =
      mask.sidesBefore connectivity P n ∪ {s | P e ∧ s ∈ mask.circuit connectivity e} := by
  ext s
  simp only [sidesBefore, Set.mem_union, Set.mem_ofPred_eq]
  constructor
  · rintro ⟨d, hd, hP, hslot, hs⟩
    rcases lt_or_ge (mask.slot d) n with hlt | hge
    · exact .inl ⟨d, hd, hP, hlt, hs⟩
    · have heq : d = e := he.eq_of_slot_eq hd (le_antisymm (by omega) (hleast d hd hP hge))
      subst heq
      exact .inr ⟨hP, hs⟩
  · rintro (⟨d, hd, hP, hslot, hs⟩ | ⟨hP, hs⟩)
    · exact ⟨d, hd, hP, by omega, hs⟩
    · exact ⟨e, he, hP, by omega, hs⟩

end Mask

end ContourTracing
