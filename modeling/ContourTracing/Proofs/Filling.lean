import ContourTracing.Proofs.Depth
import ContourTracing.Proofs.Record
import ContourTracing.Tracer.NextBoundary

/-!
# Filling of traced objects

In the main mode only the circuits of outermost starts are traced. A pixel is covered if one of
those that start before the current slot encloses it. Between two brackets of a row all pixels
are covered or none is, and a bracket leads in or out as its side does. So the cells up to a
closing bracket are covered pixels, and the next set pixel is either that of an opening bracket,
or not covered and then that of the next outermost start.
-/

namespace ContourTracing

namespace Mask

variable {mask : Mask} {connectivity : Connectivity} {n : ℕ} {d e s : Position} {p q : Pixel}

theorem IsOutermost.slot_eq (h : mask.IsOutermost connectivity e) :
    mask.slot e = 2 * mask.index e.x e.y := by
  simp [slot, h.side_eq]

/-- The kind of the outermost starts. -/
def LeadsToOne (mask : Mask) (connectivity : Connectivity) (e : Position) : Prop :=
  mask.depth connectivity e.past = 1

/-- The sides of the outermost circuits that start before a slot. -/
def outerSides (mask : Mask) (connectivity : Connectivity) (n : ℕ) : Set Position :=
  mask.sidesBefore connectivity (mask.LeadsToOne connectivity) n

theorem mem_outerSides : s ∈ mask.outerSides connectivity n ↔
    ∃ e, mask.IsOutermost connectivity e ∧ mask.slot e < n ∧ s ∈ mask.circuit connectivity e :=
  ⟨fun ⟨e, he, hone, hn, hs⟩ ↦ ⟨e, ⟨he, hone⟩, hn, hs⟩,
    fun ⟨e, he, hn, hs⟩ ↦ ⟨e, he.isStart, he.depth_past, hn, hs⟩⟩

/-! ## Covered pixels -/

/-- An outermost circuit that starts before a slot encloses the pixel. -/
def IsCovered (mask : Mask) (connectivity : Connectivity) (n : ℕ) (p : Pixel) : Prop :=
  ∃ e, mask.IsOutermost connectivity e ∧ mask.slot e < n ∧
    Encloses (mask.circuit connectivity e) p

/-- On an outermost circuit there are covered pixels, and across it there are none. -/
theorem isCovered_of_mem_outerSides (h : s ∈ mask.outerSides connectivity n) :
    mask.IsCovered connectivity n s.pixel ∧ ¬ mask.IsCovered connectivity n s.across := by
  obtain ⟨e, he, hn, hs⟩ := mem_outerSides.1 h
  have hpixel : Encloses (mask.circuit connectivity e) s.pixel := by
    rw [encloses_iff, he.isStart.winding_pixel_of_mem hs, if_pos he.side_eq]
    decide
  refine ⟨⟨e, he, hn, hpixel⟩, ?_⟩
  intro hcovered
  obtain ⟨d, hd, -, hacross⟩ := hcovered
  rw [encloses_iff] at hacross
  by_cases hde : d = e
  · subst hde
    rw [hd.isStart.winding_across_of_mem hs, if_pos hd.side_eq] at hacross
    exact hacross rfl
  · obtain ⟨halong, halong'⟩ := he.isStart.winding_along hd.isStart hde hs
    rw [halong', ← halong, ← encloses_iff] at hacross
    exact hde (he.eq_of_encloses hd hpixel hacross)

/-- Without brackets in between, two pixels of a row are covered alike. -/
theorem isCovered_iff_of_forall_edge {x x' y : ℤ} (hle : x ≤ x')
    (h : ∀ s ∈ mask.outerSides connectivity n, s.side.isVertical = true → s.y = y →
      s.edge ≤ x ∨ x' < s.edge) :
    mask.IsCovered connectivity n (x', y) ↔ mask.IsCovered connectivity n (x, y) := by
  refine exists_congr fun e ↦ and_congr_right fun he ↦ and_congr_right fun hn ↦ ?_
  rw [encloses_iff, encloses_iff, winding_eq_of_forall_edge hle fun s hs hv hy ↦
    h s (mem_outerSides.2 ⟨e, he, hn, hs⟩) hv hy]

/-- An outermost start whose pixel is covered has been passed. -/
theorem IsOutermost.slot_lt_of_isCovered (hd : mask.IsOutermost connectivity d)
    (h : mask.IsCovered connectivity n d.pixel) : mask.slot d < n := by
  obtain ⟨e, he, hn, henc⟩ := h
  have hself := hd.isStart.encloses_past
  rw [Position.past_left hd.side_eq] at hself
  rwa [he.eq_of_encloses hd henc hself]

theorem contains_of_isCovered (h : mask.IsCovered connectivity n p) : mask.Contains p.1 p.2 := by
  obtain ⟨e, he, -, henc⟩ := h
  exact he.isStart.contains_of_encloses henc

/-- Behind a pixel that is not covered, nothing is covered up to the next opening bracket. -/
theorem not_isCovered_of_forall_not_mem {x x' y : ℤ} (hle : x ≤ x')
    (hx : ¬ mask.IsCovered connectivity n (x, y))
    (hunset : ∀ z, x ≤ z → z < x' → ((z, y) : Pixel) ∉ mask.objectPixels)
    (hleft : (⟨x', y, .left⟩ : Position) ∉ mask.outerSides connectivity n) :
    ¬ mask.IsCovered connectivity n (x', y) := by
  rw [isCovered_iff_of_forall_edge hle fun s hs hv hy ↦ ?_]
  · exact hx
  · obtain ⟨e, he, -, hse⟩ := mem_outerSides.1 hs
    have hset := (isBoundary_iff.1 (isBoundary_of_mem_circuit he.isStart.isBoundary hse)).1
    obtain ⟨z, y', side⟩ := s
    obtain rfl : y' = y := hy
    by_contra hbetween
    rcases Position.side_eq_of_isVertical hv with hside | hside
    · obtain rfl : side = .left := hside
      have hbetween : ¬ (z ≤ x ∨ x' < z) := hbetween
      rcases eq_or_ne z x' with rfl | hne
      · exact hleft hs
      · exact hunset z (by omega) (by omega) hset
    · obtain rfl : side = .right := hside
      have hbetween : ¬ (z + 1 ≤ x ∨ x' < z + 1) := hbetween
      exact hunset z (by omega) (by omega) hset

/-- The first set pixel of a row is covered only if it has an opening bracket. -/
theorem not_isCovered_of_first_of_row (hp : mask.Contains p.1 p.2)
    (hunset : ∀ z < p.1, ((z, p.2) : Pixel) ∉ mask.objectPixels)
    (hleft : (⟨p.1, p.2, .left⟩ : Position) ∉ mask.outerSides connectivity n) :
    ¬ mask.IsCovered connectivity n p := by
  have hout : ¬ mask.IsCovered connectivity n (-1, p.2) := fun hcovered ↦ by
    have hneg := (contains_of_isCovered hcovered).1
    omega
  have hle : -1 ≤ p.1 := by
    have hx := hp.1
    omega
  exact not_isCovered_of_forall_not_mem hle hout (fun z _ hz ↦ hunset z hz) hleft

/-- The next bracket behind a covered pixel is a closing one. -/
theorem not_isCovered_past (hs : s ∈ mask.outerSides connectivity n)
    (hv : s.side.isVertical = true)
    (hbefore : mask.IsCovered connectivity n s.before) :
    ¬ mask.IsCovered connectivity n s.past ∧ s.past ∉ mask.objectPixels := by
  obtain ⟨e, he, -, hse⟩ := mem_outerSides.1 hs
  have hunset := (isBoundary_iff.1 (isBoundary_of_mem_circuit he.isStart.isBoundary hse)).2
  obtain ⟨-, hacross⟩ := isCovered_of_mem_outerSides hs
  rcases Position.side_eq_of_isVertical hv with hside | hside
  · rw [Position.before_left hside] at hbefore
    exact absurd hbefore hacross
  · rw [Position.past_right hside]
    exact ⟨hacross, hunset⟩

/-- The first set pixel that is not covered is that of the next outermost start. -/
theorem isNextStart_of_not_isCovered (hp : p ∈ mask.objectPixels)
    (hcovered : ¬ mask.IsCovered connectivity n p)
    (hpassed : ∀ d, mask.IsOutermost connectivity d → n ≤ mask.slot d →
      2 * mask.index p.1 p.2 ≤ mask.slot d) :
    mask.IsNextStart connectivity (mask.LeadsToOne connectivity) n
      (mask.atSlot (2 * mask.index p.1 p.2)) := by
  have hdepth : 0 < mask.depth connectivity p := (odd_depth_iff p).2 hp |>.pos
  obtain ⟨e, he, henc⟩ := exists_isOutermost hdepth
  have hn : n ≤ mask.slot e := by
    by_contra hless
    exact hcovered ⟨e, he, by omega, henc⟩
  have hle := hpassed e he hn
  have hge : mask.slot e ≤ 2 * mask.index p.1 p.2 := by
    have hbefore := he.isStart.start_le_of_encloses henc
    rw [Position.edge_left he.side_eq] at hbefore
    have hindex := (index_le_iff (p := e.pixel) (contains_of_isBoundary he.isStart.isBoundary)
      (contains_of_mem_objectPixels hp)).2 hbefore
    rw [he.slot_eq]
    exact Nat.mul_le_mul_left 2 hindex
  have heq : mask.atSlot (2 * mask.index p.1 p.2) = e := by
    rw [← he.isStart.atSlot_slot]
    congr 1
    omega
  rw [heq]
  refine ⟨he.isStart, he.depth_past, hn, ?_⟩
  intro d hd hone hd'
  exact hge.trans (hpassed d ⟨hd, hone⟩ hd')

end Mask

/-! ## One row of an object -/

namespace Cells

/-- The cells after the rest of a row is filled, and the number of the pixel that comes next. -/
def fillRow (mask : Mask) (cells : Cells) (index : ℕ) : Cells × ℕ :=
  let rowEnd := (index / mask.width + 1) * mask.width
  let closing := Search.first cells.isMarked (index + 1) rowEnd
  let stop := closing.getD rowEnd
  let cells := match closing with
    | some bracket => cells.clear bracket
    | none => cells
  (cells.fill (index + 1) (stop - (index + 1)), stop)

theorem fillFrom_succ {mask : Mask} {cells : Cells} {index : ℕ} (fuel : ℕ)
    (hstop : index < (cells.fillRow mask index).2) :
    cells.fillFrom mask (fuel + 1) index =
      match Search.first mask.bit (cells.fillRow mask index).2 mask.size with
      | none => ((cells.fillRow mask index).1, none)
      | some found =>
        if (cells.fillRow mask index).1.isMarked found then
          (cells.fillRow mask index).1.fillFrom mask fuel found
        else ((cells.fillRow mask index).1, some found) := by
  have hnext : index + ((cells.fillRow mask index).2 - (index + 1)) + 1 =
      (cells.fillRow mask index).2 := by omega
  rw [fillFrom, ← hnext]
  rfl

/-- Filling a row marks the cells in between and clears the closing bracket. -/
theorem isMarked_fillRow_iff (mask : Mask) (cells : Cells) (index k : ℕ) :
    (cells.fillRow mask index).1.isMarked k = true ↔
      index < k ∧ k < (cells.fillRow mask index).2 ∧ k < cells.size ∨
        Search.first cells.isMarked (index + 1) ((index / mask.width + 1) * mask.width) ≠ some k ∧
          cells.isMarked k = true := by
  simp only [fillRow]
  cases Search.first cells.isMarked (index + 1) ((index / mask.width + 1) * mask.width) with
  | none =>
    simp only [isMarked_fill, Option.getD_none, Bool.or_eq_true, decide_eq_true_eq, ne_eq,
      reduceCtorEq, not_false_eq_true, true_and]
    refine or_congr_left ?_
    omega
  | some closing =>
    simp only [isMarked_fill, isMarked_clear, size_clear, Option.getD_some, Bool.or_eq_true,
      Bool.and_eq_true, Bool.not_eq_true', decide_eq_true_eq, decide_eq_false_iff_not, ne_eq,
      Option.some.injEq]
    refine or_congr_left ?_
    omega

/-- The filling of a row stops at the next marked cell or at the end of the row. -/
theorem fillRow_cases (mask : Mask) (cells : Cells) (index : ℕ) :
    let rowEnd := (index / mask.width + 1) * mask.width
    let stop := (cells.fillRow mask index).2
    (∀ k, index + 1 ≤ k → k < stop → cells.isMarked k = false) ∧
      (Search.first cells.isMarked (index + 1) rowEnd = some stop ∧ stop ≤ rowEnd ∨
        Search.first cells.isMarked (index + 1) rowEnd = none ∧ stop = rowEnd) := by
  simp only [fillRow]
  cases hclosing : Search.first cells.isMarked (index + 1)
      ((index / mask.width + 1) * mask.width) with
  | none =>
    rw [Search.first_eq_firstOf, Search.firstOf_eq_none_iff] at hclosing
    rw [Option.getD_none]
    exact ⟨fun k hk hlt ↦ hclosing k hk (by omega), .inr ⟨rfl, rfl⟩⟩
  | some closing =>
    rw [Search.first_eq_firstOf, Search.firstOf_eq_some_iff] at hclosing
    obtain ⟨hle, hlt, -, hunmarked⟩ := hclosing
    rw [Option.getD_some]
    exact ⟨hunmarked, .inl ⟨rfl, by omega⟩⟩

/-- Wherever a row is filled from, the filling goes on behind. -/
theorem lt_fillRow_snd_of_width_pos {mask : Mask} (cells : Cells) (hwidth : 0 < mask.width)
    (index : ℕ) : index < (cells.fillRow mask index).2 := by
  obtain ⟨-, ⟨hfirst, -⟩ | ⟨-, hstop⟩⟩ := cells.fillRow_cases mask index
  · rw [Search.first_eq_firstOf, Search.firstOf_eq_some_iff] at hfirst
    exact hfirst.1
  · rw [hstop]
    exact Nat.lt_mul_of_div_lt (Nat.lt_succ_self _) hwidth

@[simp]
theorem size_fillRow (mask : Mask) (cells : Cells) (index : ℕ) :
    (cells.fillRow mask index).1.size = cells.size := by
  simp only [fillRow]
  split <;> simp

end Cells

/-- The filling has come to a covered pixel, and no start is left behind. -/
structure Mask.IsFilling (mask : Mask) (connectivity : Connectivity) (n : ℕ) (cells : Cells)
    (p : Pixel) : Prop where
  isCovered : mask.IsCovered connectivity n p
  records : cells.Records mask (mask.index p.1 p.2) (mask.outerSides connectivity n)
  passed : ∀ d, mask.IsOutermost connectivity d → n ≤ mask.slot d →
    2 * mask.index p.1 p.2 ≤ mask.slot d

/-- When an outermost circuit has been traced, the filling begins at its start. -/
theorem Mask.IsOutermost.isFilling {mask : Mask} {connectivity : Connectivity} {cells : Cells}
    {e : Position} (he : mask.IsOutermost connectivity e)
    (hrecords : cells.Records mask (mask.index e.x e.y)
      (mask.outerSides connectivity (mask.slot e + 1))) :
    cells.isMarked (mask.index e.x e.y) = true ∧
      mask.IsFilling connectivity (mask.slot e + 1) cells e.pixel := by
  have hpast : e.past = e.pixel := Position.past_left he.side_eq
  have hpassed : mask.slot e < mask.slot e + 1 := Nat.lt_succ_self _
  have hcontains := contains_of_isBoundary he.isStart.isBoundary
  have hself : e ∈ mask.outerSides connectivity (mask.slot e + 1) :=
    mem_outerSides.2 ⟨e, he, hpassed, he.isStart.self_mem⟩
  constructor
  · exact (hrecords.isMarked_iff e.pixel hcontains le_rfl).2
      ⟨e, hself, he.isStart.isVertical, hpast⟩
  · refine ⟨⟨e, he, hpassed, hpast ▸ he.isStart.encloses_past⟩, hrecords, ?_⟩
    intro d _ hn
    rw [Position.pixel, ← he.slot_eq]
    exact Nat.le_of_succ_le hn

namespace Mask.IsFilling

variable {mask : Mask} {connectivity : Connectivity} {n : ℕ} {cells : Cells} {p q : Pixel}

theorem contains (h : mask.IsFilling connectivity n cells p) : mask.Contains p.1 p.2 :=
  contains_of_isCovered h.isCovered

/-- The pixels up to the next marked cell of the row are covered. -/
theorem isCovered_of_index_lt (h : mask.IsFilling connectivity n cells p) {stop : ℕ}
    (hstop : stop ≤ (mask.index p.1 p.2 / mask.width + 1) * mask.width)
    (hunmarked : ∀ k, mask.index p.1 p.2 + 1 ≤ k → k < stop → cells.isMarked k = false)
    (hq : mask.Contains q.1 q.2) (hle : mask.index p.1 p.2 ≤ mask.index q.1 q.2)
    (hlt : mask.index q.1 q.2 < stop) : mask.IsCovered connectivity n q := by
  have hrow := (index_lt_rowEnd_iff h.contains hq).1 (hlt.trans_le hstop)
  have horder := (index_le_iff h.contains hq).1 hle
  obtain ⟨hy, hx⟩ : p.2 = q.2 ∧ p.1 ≤ q.1 := by omega
  have hcovered : mask.IsCovered connectivity n (p.1, q.2) := hy ▸ h.isCovered
  refine (isCovered_iff_of_forall_edge hx fun s hs hv hsy ↦ ?_).2 hcovered
  by_contra hbetween
  have hpast : s.past = (s.edge, q.2) := by rw [Position.past, hsy]
  have hcontains : mask.Contains s.edge q.2 :=
    ⟨h.contains.1.trans (by omega), lt_of_le_of_lt (by omega) hq.2.1, hq.2.2⟩
  have hfrom : mask.index p.1 p.2 < mask.index s.edge q.2 := by
    by_contra hge
    have horder' := (index_le_iff (p := (s.edge, q.2)) hcontains h.contains).1 (not_lt.1 hge)
    simp only at horder'
    omega
  have hto : mask.index s.edge q.2 ≤ mask.index q.1 q.2 :=
    (index_le_iff (p := (s.edge, q.2)) hcontains hq).2 (.inr ⟨rfl, by omega⟩)
  have hmiss := hunmarked (mask.index s.edge q.2) hfrom (by omega)
  have hmarked : cells.isMarked (mask.index s.edge q.2) = true :=
    (h.records.isMarked_iff (s.edge, q.2) hcontains hfrom.le).2 ⟨s, hs, hv, hpast⟩
  rw [hmiss] at hmarked
  cases hmarked

theorem two_mul_le_slot (h : mask.IsFilling connectivity n cells p) {stop : ℕ}
    (hstop : stop ≤ (mask.index p.1 p.2 / mask.width + 1) * mask.width)
    (hunmarked : ∀ k, mask.index p.1 p.2 + 1 ≤ k → k < stop → cells.isMarked k = false)
    {d : Position} (hd : mask.IsOutermost connectivity d) (hn : n ≤ mask.slot d) :
    2 * stop ≤ mask.slot d := by
  have hslot := hd.slot_eq
  have hpassed := h.passed d hd hn
  by_contra hless
  have hcovered := h.isCovered_of_index_lt (q := d.pixel) hstop hunmarked
    (contains_of_isBoundary hd.isStart.isBoundary) (show _ ≤ mask.index d.x d.y by omega)
    (show mask.index d.x d.y < stop by omega)
  have hlt := hd.slot_lt_of_isCovered hcovered
  omega

end Mask.IsFilling

/-- The rest of a row is filled, and up to the next set pixel nothing is covered but by a circuit
that has its opening bracket there. -/
structure Mask.IsFilled (mask : Mask) (connectivity : Connectivity) (n : ℕ) (cells : Cells)
    (stop : ℕ) : Prop where
  passed : ∀ d, mask.IsOutermost connectivity d → n ≤ mask.slot d → 2 * stop ≤ mask.slot d
  records : ∀ q ∈ mask.objectPixels, stop ≤ mask.index q.1 q.2 →
    cells.Records mask (mask.index q.1 q.2) (mask.outerSides connectivity n)
  not_isCovered : ∀ q : Pixel, mask.Contains q.1 q.2 → stop ≤ mask.index q.1 q.2 →
    (∀ r ∈ mask.objectPixels, stop ≤ mask.index r.1 r.2 →
      mask.index q.1 q.2 ≤ mask.index r.1 r.2) →
    (⟨q.1, q.2, .left⟩ : Position) ∉ mask.outerSides connectivity n →
      ¬ mask.IsCovered connectivity n q

namespace Mask.IsFilling

variable {mask : Mask} {connectivity : Connectivity} {n : ℕ} {cells : Cells} {p q : Pixel}

theorem isFilled_of_rowEnd (h : mask.IsFilling connectivity n cells p) {rowEnd : ℕ}
    (hrowEnd : (mask.index p.1 p.2 / mask.width + 1) * mask.width = rowEnd)
    (hunmarked : ∀ k, mask.index p.1 p.2 + 1 ≤ k → k < rowEnd → cells.isMarked k = false)
    (hself : mask.index p.1 p.2 < rowEnd) :
    mask.IsFilled connectivity n (cells.fill (mask.index p.1 p.2 + 1)
      (rowEnd - (mask.index p.1 p.2 + 1))) rowEnd where
  passed _ hd hn := h.two_mul_le_slot hrowEnd.ge hunmarked hd hn
  records q _ hle := (h.records.mono (by omega)).fill (by omega)
  not_isCovered q hc hle hfirst hleft := by
    have hrow : p.2 < q.2 := by
      have hlt := index_lt_rowEnd_iff h.contains hc
      omega
    refine not_isCovered_of_first_of_row hc (fun z hz hset ↦ ?_) hleft
    have hcontains := contains_of_mem_objectPixels hset
    have hbehind := index_lt_rowEnd_iff h.contains hcontains
    have hcompare := (index_le_iff hc hcontains).1 (hfirst (z, q.2) hset (by omega))
    simp only at hcompare
    omega

theorem isFilled_of_closing (h : mask.IsFilling connectivity n cells p) {stop : ℕ}
    (hlt : stop < (mask.index p.1 p.2 / mask.width + 1) * mask.width)
    (hunmarked : ∀ k, mask.index p.1 p.2 + 1 ≤ k → k < stop → cells.isMarked k = false)
    (hself : mask.index p.1 p.2 < stop) (hmarked : cells.isMarked stop = true) :
    mask.IsFilled connectivity n ((cells.clear stop).fill (mask.index p.1 p.2 + 1)
      (stop - (mask.index p.1 p.2 + 1))) stop := by
  have hp := h.contains
  have hsize : stop < mask.size := hlt.trans_le (rowEnd_le_size hp)
  obtain ⟨r, hr, rfl⟩ := exists_index_eq hsize
  obtain ⟨s, hs, hv, rfl⟩ := (h.records.isMarked_iff r hr hself.le).1 hmarked
  have hrow := (index_lt_rowEnd_iff hp hr).1 hlt
  have horder := (index_le_iff hp hr).1 hself.le
  have hback : ¬ mask.index s.past.1 s.past.2 ≤ mask.index p.1 p.2 := not_le.2 hself
  rw [index_le_iff hr hp] at hback
  simp only [Position.past] at hrow horder hback
  have hbefore : mask.IsCovered connectivity n s.before := by
    have hcontains : mask.Contains s.before.1 s.before.2 :=
      ⟨hp.1.trans (by simp only [Position.before]; omega),
        lt_trans (by simp [Position.before, Position.past]) hr.2.1, hr.2.2⟩
    have hfrom : mask.index p.1 p.2 ≤ mask.index s.before.1 s.before.2 := by
      rw [index_le_iff hp hcontains]
      simp only [Position.before]
      omega
    have hto : ¬ mask.index s.past.1 s.past.2 ≤ mask.index s.before.1 s.before.2 := by
      rw [index_le_iff hr hcontains]
      simp only [Position.before, Position.past]
      omega
    exact h.isCovered_of_index_lt hlt.le hunmarked hcontains hfrom (not_le.1 hto)
  obtain ⟨hpast, hunset⟩ := not_isCovered_past hs hv hbefore
  have hbehind (q : Pixel) (hq : q ∈ mask.objectPixels)
      (hle : mask.index s.past.1 s.past.2 ≤ mask.index q.1 q.2) :
      mask.index s.past.1 s.past.2 < mask.index q.1 q.2 :=
    lt_of_le_of_ne hle fun heq ↦ hunset
      (mask.index_injOn hr (contains_of_mem_objectPixels hq) heq ▸ hq)
  refine ⟨fun d hd hn ↦ h.two_mul_le_slot hlt.le hunmarked hd hn, fun q hq hle ↦ ?_,
    fun q hc hle hfirst hleft ↦ ?_⟩
  · have hlater := hbehind q hq hle
    exact ((h.records.mono (by omega)).clear hlater).fill (by omega)
  · have hunsetBefore (z : ℤ) (hz : z < q.1) (hset : ((z, q.2) : Pixel) ∈ mask.objectPixels) :
        ¬ mask.index s.past.1 s.past.2 ≤ mask.index z q.2 := fun hge ↦ by
      have hcompare := (index_le_iff hc (contains_of_mem_objectPixels hset)).1
        (hfirst (z, q.2) hset hge)
      simp only at hcompare
      omega
    have hcompare := (index_le_iff hr hc).1 hle
    simp only [Position.past] at hcompare
    rcases hcompare with hnext | ⟨hsame, hx⟩
    · refine not_isCovered_of_first_of_row hc (fun z hz hset ↦ hunsetBefore z hz hset ?_) hleft
      exact (index_le_iff hr (contains_of_mem_objectPixels hset)).2 (.inl hnext)
    · rw [Position.past, hsame] at hpast
      refine not_isCovered_of_forall_not_mem hx hpast
        (fun z hz hz' hset ↦ hunsetBefore z hz' hset ?_) hleft
      exact (index_le_iff hr (contains_of_mem_objectPixels hset)).2 (.inr ⟨hsame, hz⟩)

theorem isFilled_fillRow (h : mask.IsFilling connectivity n cells p) :
    mask.index p.1 p.2 < (cells.fillRow mask (mask.index p.1 p.2)).2 ∧
      mask.IsFilled connectivity n (cells.fillRow mask (mask.index p.1 p.2)).1
        (cells.fillRow mask (mask.index p.1 p.2)).2 := by
  have hself : mask.index p.1 p.2 < (mask.index p.1 p.2 / mask.width + 1) * mask.width :=
    (index_lt_rowEnd_iff h.contains h.contains).2 le_rfl
  simp only [Cells.fillRow]
  cases hclosing : Search.first cells.isMarked (mask.index p.1 p.2 + 1)
      ((mask.index p.1 p.2 / mask.width + 1) * mask.width) with
  | none =>
    rw [Search.first_eq_firstOf, Search.firstOf_eq_none_iff] at hclosing
    have hunmarked (k : ℕ) (hk : mask.index p.1 p.2 + 1 ≤ k)
        (hlt : k < (mask.index p.1 p.2 / mask.width + 1) * mask.width) :
        cells.isMarked k = false := hclosing k hk (by omega)
    exact ⟨hself, h.isFilled_of_rowEnd rfl hunmarked hself⟩
  | some stop =>
    rw [Search.first_eq_firstOf, Search.firstOf_eq_some_iff] at hclosing
    obtain ⟨hle, hlt, hmarked, hunmarked⟩ := hclosing
    have hrow : stop < (mask.index p.1 p.2 / mask.width + 1) * mask.width := by omega
    exact ⟨hle, h.isFilled_of_closing hrow hunmarked hle hmarked⟩

end Mask.IsFilling

/-! ## From row to row -/

namespace Mask

variable {mask : Mask} {connectivity : Connectivity} {n stop found : ℕ} {cells : Cells} {q : Pixel}

/-- The search for set pixels finds the first one of them. -/
theorem exists_of_first_bit_eq_some (hfound : Search.first mask.bit stop mask.size = some found) :
    ∃ q ∈ mask.objectPixels, mask.index q.1 q.2 = found ∧ stop ≤ found ∧
      ∀ r ∈ mask.objectPixels, stop ≤ mask.index r.1 r.2 → found ≤ mask.index r.1 r.2 := by
  rw [Search.first_eq_firstOf, Search.firstOf_eq_some_iff] at hfound
  obtain ⟨hle, hlt, hhit, hleast⟩ := hfound
  obtain ⟨q, hq, rfl⟩ := exists_index_eq (show found < mask.size by omega)
  rw [bit_index hq] at hhit
  refine ⟨q, hhit, rfl, hle, ?_⟩
  intro r hr hstop
  by_contra hless
  have hmiss := hleast _ hstop (not_le.1 hless)
  rw [bit_index (contains_of_mem_objectPixels hr)] at hmiss
  exact absurd (show mask.isSet r.1 r.2 = true from hr) (by rw [hmiss]; decide)

/-- A marked set pixel has an opening bracket. -/
theorem isMarked_iff_left_mem (hq : q ∈ mask.objectPixels) {first : ℕ}
    (hrecords : cells.Records mask first (mask.outerSides connectivity n))
    (hfirst : first ≤ mask.index q.1 q.2) :
    cells.isMarked (mask.index q.1 q.2) = true ↔
      (⟨q.1, q.2, .left⟩ : Position) ∈ mask.outerSides connectivity n := by
  rw [hrecords.isMarked_iff q (contains_of_mem_objectPixels hq) hfirst]
  constructor
  · rintro ⟨s, hs, hv, rfl⟩
    have hunset := (isBoundary_iff.1 (hrecords.isBoundary s hs)).2
    rcases Position.side_eq_of_isVertical hv with hside | hside
    · obtain ⟨x, y, side⟩ := s
      obtain rfl : side = .left := hside
      exact hs
    · rw [← Position.past_right hside] at hunset
      exact absurd hq hunset
  · exact fun hs ↦ ⟨_, hs, rfl, rfl⟩

namespace IsFilled

/-- Without a set pixel ahead there is no start ahead. -/
theorem slot_lt_of_first_eq_none (h : mask.IsFilled connectivity n cells stop)
    (hnone : Search.first mask.bit stop mask.size = none) {d : Position}
    (hd : mask.IsOutermost connectivity d) : mask.slot d < n := by
  by_contra hn
  have hpassed := h.passed d hd (by omega)
  have hslot := hd.slot_eq
  have hcontains := contains_of_isBoundary hd.isStart.isBoundary
  have hsize := index_lt_size (p := d.pixel) hcontains
  have hset : mask.bit (mask.index d.x d.y) = true :=
    (bit_index (p := d.pixel) hcontains).trans hd.isStart.isBoundary.1
  rw [Search.first_eq_firstOf, Search.firstOf_eq_none_iff] at hnone
  simp only [Position.pixel] at hsize
  rw [hnone _ (by omega) (by omega)] at hset
  cases hset

/-- The next set pixel is one to go on with, or that of the next start. -/
theorem next_cases (h : mask.IsFilled connectivity n cells stop) (hq : q ∈ mask.objectPixels)
    (hle : stop ≤ mask.index q.1 q.2)
    (hfirst : ∀ r ∈ mask.objectPixels, stop ≤ mask.index r.1 r.2 →
      mask.index q.1 q.2 ≤ mask.index r.1 r.2) :
    if cells.isMarked (mask.index q.1 q.2) then mask.IsFilling connectivity n cells q
    else mask.IsNextStart connectivity (mask.LeadsToOne connectivity) n
      (mask.atSlot (2 * mask.index q.1 q.2)) := by
  have hrecords := h.records q hq hle
  have hpassed (d : Position) (hd : mask.IsOutermost connectivity d) (hn : n ≤ mask.slot d) :
      2 * mask.index q.1 q.2 ≤ mask.slot d := by
    have hslot := hd.slot_eq
    have hstop := h.passed d hd hn
    have hnext := hfirst d.pixel (isBoundary_iff.1 hd.isStart.isBoundary).1
      (show stop ≤ mask.index d.x d.y by omega)
    simp only [Position.pixel] at hnext
    omega
  split
  · next hmarked =>
    have hleft := (isMarked_iff_left_mem hq hrecords le_rfl).1 hmarked
    exact ⟨(isCovered_of_mem_outerSides hleft).1, hrecords, hpassed⟩
  · next hunmarked =>
    refine isNextStart_of_not_isCovered hq (h.not_isCovered q
      (contains_of_mem_objectPixels hq) hle hfirst fun hleft ↦ ?_) hpassed
    exact hunmarked ((isMarked_iff_left_mem hq hrecords le_rfl).2 hleft)

end IsFilled

/-- The filling stops at the pixel of the next outermost start. -/
theorem IsFilling.fillFrom_cases {fuel : ℕ} {p : Pixel} (h : mask.IsFilling connectivity n cells p)
    (hfuel : mask.size - mask.index p.1 p.2 ≤ fuel) :
    (∃ filled q, cells.fillFrom mask fuel (mask.index p.1 p.2) =
        (filled, some (mask.index q.1 q.2)) ∧ q ∈ mask.objectPixels ∧
      filled.Records mask (mask.index q.1 q.2) (mask.outerSides connectivity n) ∧
      mask.IsNextStart connectivity (mask.LeadsToOne connectivity) n
        (mask.atSlot (2 * mask.index q.1 q.2))) ∨
    (∀ d, mask.IsOutermost connectivity d → mask.slot d < n) ∧
      (cells.fillFrom mask fuel (mask.index p.1 p.2)).2 = none := by
  have hsize := index_lt_size h.contains
  induction fuel generalizing cells p with
  | zero => omega
  | succ fuel ih =>
    obtain ⟨hstop, hfilled⟩ := h.isFilled_fillRow
    rw [Cells.fillFrom_succ fuel hstop]
    cases hfound : Search.first mask.bit (cells.fillRow mask (mask.index p.1 p.2)).2 mask.size with
    | none =>
      exact .inr ⟨fun d hd ↦ hfilled.slot_lt_of_first_eq_none hfound hd, rfl⟩
    | some found =>
      obtain ⟨q, hq, rfl, hle, hfirst⟩ := exists_of_first_bit_eq_some hfound
      have hnext := hfilled.next_cases hq hle hfirst
      by_cases hmarked : (cells.fillRow mask (mask.index p.1 p.2)).1.isMarked
          (mask.index q.1 q.2) = true
      · rw [if_pos hmarked] at hnext
        simp only [if_pos hmarked]
        exact ih hnext (by omega) (index_lt_size hnext.contains)
      · rw [if_neg hmarked] at hnext
        simp only [if_neg hmarked]
        exact .inl ⟨_, q, rfl, hq, hfilled.records q hq hle, hnext⟩

end Mask

end ContourTracing
