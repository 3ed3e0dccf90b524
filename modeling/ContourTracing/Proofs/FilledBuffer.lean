import ContourTracing.Proofs.Enclosed
import ContourTracing.Proofs.MainBoundaries

/-!
# What the main mode leaves in its buffer

Behind the current pixel the cells that the main mode has done with are marked exactly where a
traced circuit covers the pixel: the filling marks all cells up to a closing bracket, clears the
bracket, and leaves the cells up to the next set pixel blank. When the search finds nothing more,
this holds of the whole buffer, which then tells the pixels that are not connected with the
outside from the others, as a flood fill would do.
-/

namespace ContourTracing

/-! ## Settled cells -/

/-- Before the cell `stop` the marked cells are those of the covered pixels. -/
def Mask.IsSettled (mask : Mask) (connectivity : Connectivity) (n : ℕ) (cells : Cells)
    (stop : ℕ) : Prop :=
  ∀ p : Pixel, mask.Contains p.1 p.2 → mask.index p.1 p.2 < stop →
    (cells.isMarked (mask.index p.1 p.2) = true ↔ mask.IsCovered connectivity n p)

namespace Mask

variable {mask : Mask} {connectivity : Connectivity} {n stop : ℕ} {cells : Cells} {e s : Position}
  {p q : Pixel}

theorem isMarked_eq_false_of_records_empty (h : cells.Records mask 0 ∅) (k : ℕ) :
    cells.isMarked k = false := by
  by_cases hk : k < mask.size
  · obtain ⟨p, hp, rfl⟩ := exists_index_eq hk
    rw [← Bool.not_eq_true, h.isMarked_iff p hp (Nat.zero_le _)]
    simp
  · have hsize := h.size_eq
    simp [Cells.isMarked, Array.getD_eq_getD_getElem?, hsize, not_lt.1 hk, Cell.isMarked]

/-- Where nothing is traced, nothing is marked and nothing is covered. -/
theorem isSettled_of_records_empty (h : cells.Records mask 0 ∅) (stop : ℕ) :
    mask.IsSettled connectivity 0 cells stop := by
  intro p _ _
  rw [isMarked_eq_false_of_records_empty h]
  refine iff_of_false Bool.false_ne_true fun hcovered ↦ ?_
  obtain ⟨e, -, hlt, -⟩ := hcovered
  exact absurd hlt (Nat.not_lt_zero _)

/-- A circuit that begins later covers nothing earlier. -/
theorem isCovered_succ_iff (he : mask.IsNextStart connectivity (mask.LeadsToOne connectivity) n e)
    (hp : mask.Contains p.1 p.2) (hlt : mask.index p.1 p.2 < mask.index e.x e.y) :
    mask.IsCovered connectivity (mask.slot e + 1) p ↔ mask.IsCovered connectivity n p := by
  have houtermost : mask.IsOutermost connectivity e := ⟨he.isStart, he.holds⟩
  constructor
  · intro hcovered
    obtain ⟨d, hd, hslot, henc⟩ := hcovered
    refine ⟨d, hd, ?_, henc⟩
    by_contra hn
    have hle := he.slot_le d hd.isStart hd.depth_past (not_lt.1 hn)
    obtain rfl : d = e := he.isStart.eq_of_slot_eq hd.isStart (by omega)
    have hbefore := he.isStart.start_le_of_encloses henc
    rw [Position.edge_left houtermost.side_eq] at hbefore
    have hindex := (index_le_iff (p := d.pixel) (contains_of_isBoundary he.isStart.isBoundary)
      hp).2 hbefore
    exact absurd hlt (not_lt.2 hindex)
  · intro hcovered
    obtain ⟨d, hd, hslot, henc⟩ := hcovered
    exact ⟨d, hd, by have := he.le_slot; omega, henc⟩

/-- The brackets of a circuit lie at its start or behind it. -/
theorem IsStart.isMarked_foldl_putBracket (he : mask.IsStart connectivity e)
    (hside : e.side = .left) {k : ℕ} (hlt : k < mask.index e.x e.y) {sides : List Position}
    (hsides : ∀ s ∈ sides, s ∈ mask.circuit connectivity e) (cells : Cells) :
    (sides.foldl (·.putBracket mask ·) cells).isMarked k = cells.isMarked k := by
  induction sides generalizing cells with
  | nil => rfl
  | cons s sides ih =>
    have hs := hsides s List.mem_cons_self
    have hb := isBoundary_of_mem_circuit he.isBoundary hs
    rw [List.foldl_cons, ih fun t ht ↦ hsides t (List.mem_cons_of_mem s ht)]
    unfold Cells.putBracket
    by_cases hv : s.side.isVertical = true
    · rw [bracketCell?_of_isVertical hb hv]
      by_cases hedge : s.edge < mask.width
      · have hpast := (contains_past_iff hb hv).2 hedge
        have hle := (slot_le_iff he.isBoundary hb he.isVertical hv).1 (he.slot_le s hs hv)
        rw [Position.edge_left hside] at hle
        have hindex := (index_le_iff (p := e.pixel) (contains_of_isBoundary he.isBoundary)
          hpast).2 hle
        simp only [Position.pixel] at hindex
        rw [if_pos hedge, Cells.isMarked_mark, decide_eq_false (by omega), Bool.false_and,
          Bool.false_or]
      · rw [if_neg hedge]
    · rw [bracketCell?_of_not_isVertical hv]

/-- When the next circuit is traced, the cells before its start stay settled. -/
theorem IsSettled.foldl_putBracket
    (he : mask.IsNextStart connectivity (mask.LeadsToOne connectivity) n e)
    (h : mask.IsSettled connectivity n cells (mask.index e.x e.y)) :
    mask.IsSettled connectivity (mask.slot e + 1)
      ((mask.circuit connectivity e).foldl (·.putBracket mask ·) cells) (mask.index e.x e.y) := by
  have houtermost : mask.IsOutermost connectivity e := ⟨he.isStart, he.holds⟩
  intro p hp hlt
  rw [he.isStart.isMarked_foldl_putBracket houtermost.side_eq hlt fun _ hs ↦ hs,
    isCovered_succ_iff he hp hlt]
  exact h p hp hlt

/-! ## Filling -/

namespace IsFilling

/-- Behind the filled stretch no cell is marked up to the next set pixel. -/
theorem not_isMarked_fillRow (h : mask.IsFilling connectivity n cells p)
    (hq : mask.Contains q.1 q.2)
    (hle : (cells.fillRow mask (mask.index p.1 p.2)).2 ≤ mask.index q.1 q.2)
    (hunset : ∀ r ∈ mask.objectPixels, (cells.fillRow mask (mask.index p.1 p.2)).2 ≤
      mask.index r.1 r.2 → mask.index q.1 q.2 < mask.index r.1 r.2) :
    ¬ (cells.fillRow mask (mask.index p.1 p.2)).1.isMarked (mask.index q.1 q.2) = true := by
  obtain ⟨hstop, -⟩ := h.isFilled_fillRow
  obtain ⟨-, hcases⟩ := cells.fillRow_cases mask (mask.index p.1 p.2)
  rw [Cells.isMarked_fillRow_iff]
  rintro (⟨-, hlt, -⟩ | ⟨hclosing, hmarked⟩)
  · omega
  rw [h.records.isMarked_iff q hq (by omega)] at hmarked
  obtain ⟨s, hs, hv, rfl⟩ := hmarked
  have hset := (isBoundary_iff.1 (h.records.isBoundary s hs)).1
  have hcontains := contains_of_mem_objectPixels hset
  rcases Position.side_eq_of_isVertical hv with hside | hside
  · rw [Position.past_left hside] at hle hunset
    exact lt_irrefl _ (hunset _ hset hle)
  · -- the pixel before a closing bracket is set
    have hpast : s.past = (s.x + 1, s.y) := by rw [Position.past, Position.edge_right hside]
    have hindex : mask.index s.past.1 s.past.2 = mask.index s.pixel.1 s.pixel.2 + 1 := by
      have hx : 0 ≤ s.x := hcontains.1
      rw [hpast]
      simp only [index, Position.pixel]
      omega
    have hbefore : mask.index s.pixel.1 s.pixel.2 <
        (cells.fillRow mask (mask.index p.1 p.2)).2 := by
      by_contra hge
      have := hunset _ hset (not_lt.1 hge)
      omega
    rcases hcases with ⟨hfirst, -⟩ | ⟨-, hrowEnd⟩
    · refine hclosing (hfirst.trans (congrArg some ?_))
      omega
    · rw [hrowEnd] at hle hbefore
      have hrow := (index_lt_rowEnd_iff h.contains hcontains).1 hbefore
      have hless := (index_lt_rowEnd_iff h.contains hq).2 (by rwa [hpast])
      omega

/-- Filling a row settles the cells up to the next set pixel. -/
theorem isSettled_fillRow (h : mask.IsFilling connectivity n cells p)
    (hmarked : cells.isMarked (mask.index p.1 p.2) = true)
    (hsettled : mask.IsSettled connectivity n cells (mask.index p.1 p.2))
    (hnext : ∀ r ∈ mask.objectPixels,
      (cells.fillRow mask (mask.index p.1 p.2)).2 ≤ mask.index r.1 r.2 →
        stop ≤ mask.index r.1 r.2) :
    mask.IsSettled connectivity n (cells.fillRow mask (mask.index p.1 p.2)).1 stop := by
  obtain ⟨hself, hfilled⟩ := h.isFilled_fillRow
  obtain ⟨hunmarked, hcases⟩ := cells.fillRow_cases mask (mask.index p.1 p.2)
  have hrowEnd : (cells.fillRow mask (mask.index p.1 p.2)).2 ≤
      (mask.index p.1 p.2 / mask.width + 1) * mask.width := by
    rcases hcases with ⟨-, hle⟩ | ⟨-, heq⟩
    · exact hle
    · exact heq.le
  -- the closing bracket lies at the end of the stretch
  have hclosing (k : ℕ) (hk : k < (cells.fillRow mask (mask.index p.1 p.2)).2) :
      Search.first cells.isMarked (mask.index p.1 p.2 + 1)
        ((mask.index p.1 p.2 / mask.width + 1) * mask.width) ≠ some k := by
    rcases hcases with ⟨hfirst, -⟩ | ⟨hfirst, -⟩ <;> rw [hfirst]
    · exact fun heq ↦ hk.ne' (Option.some.inj heq)
    · exact (Option.some_ne_none k).symm
  intro q hq hlt
  rcases lt_or_ge (mask.index q.1 q.2) (mask.index p.1 p.2) with hbefore | hfrom
  · rw [← hsettled q hq hbefore, Cells.isMarked_fillRow_iff]
    have hne := hclosing (mask.index q.1 q.2) (by omega)
    have hout : ¬ mask.index p.1 p.2 < mask.index q.1 q.2 := by omega
    tauto
  rcases lt_or_ge (mask.index q.1 q.2) (cells.fillRow mask (mask.index p.1 p.2)).2 with
    hto | hbehind
  · refine iff_of_true ?_ (h.isCovered_of_index_lt hrowEnd hunmarked hq hfrom hto)
    rw [Cells.isMarked_fillRow_iff]
    rcases hfrom.eq_or_lt with heq | hgt
    · exact .inr ⟨hclosing _ hto, heq ▸ hmarked⟩
    · exact .inl ⟨hgt, hto, h.records.size_eq ▸ index_lt_size hq⟩
  · have hunset (r : Pixel) (hr : r ∈ mask.objectPixels)
        (hle : (cells.fillRow mask (mask.index p.1 p.2)).2 ≤ mask.index r.1 r.2) :
        mask.index q.1 q.2 < mask.index r.1 r.2 := hlt.trans_le (hnext r hr hle)
    refine iff_of_false (h.not_isMarked_fillRow hq hbehind hunset) ?_
    refine hfilled.not_isCovered q hq hbehind (fun r hr hle ↦ (hunset r hr hle).le) fun hleft ↦ ?_
    have hset := (isBoundary_iff.1 (h.records.isBoundary _ hleft)).1
    exact lt_irrefl _ (hunset q hset hbehind)

/-- The filling settles all cells before the pixel at which it stops, or all cells of the buffer. -/
theorem isSettled_fillFrom {fuel : ℕ} (h : mask.IsFilling connectivity n cells p)
    (hmarked : cells.isMarked (mask.index p.1 p.2) = true)
    (hsettled : mask.IsSettled connectivity n cells (mask.index p.1 p.2))
    (hfuel : mask.size - mask.index p.1 p.2 ≤ fuel) :
    let (filled, found) := cells.fillFrom mask fuel (mask.index p.1 p.2)
    mask.IsSettled connectivity n filled (found.getD mask.size) ∧ filled.size = mask.size := by
  have hsize := index_lt_size h.contains
  induction fuel generalizing cells p with
  | zero => omega
  | succ fuel ih =>
    obtain ⟨hstop, hfilled⟩ := h.isFilled_fillRow
    have hcells : (cells.fillRow mask (mask.index p.1 p.2)).1.size = mask.size := by
      rw [Cells.size_fillRow, h.records.size_eq]
    rw [Cells.fillFrom_succ fuel hstop]
    cases hfound : Search.first mask.bit (cells.fillRow mask (mask.index p.1 p.2)).2 mask.size with
    | none =>
      rw [Search.first_eq_firstOf, Search.firstOf_eq_none_iff] at hfound
      refine ⟨h.isSettled_fillRow hmarked hsettled fun r hr hle ↦ ?_, hcells⟩
      have hr' := contains_of_mem_objectPixels hr
      have hlt := index_lt_size hr'
      have hmiss := hfound _ hle (by omega)
      rw [bit_index hr'] at hmiss
      exact absurd hr (by simp [objectPixels, hmiss])
    | some found =>
      obtain ⟨q, hq, rfl, hle, hfirst⟩ := exists_of_first_bit_eq_some hfound
      have hnext := hfilled.next_cases hq hle hfirst
      have hrow := h.isSettled_fillRow hmarked hsettled hfirst
      by_cases hmarked' : (cells.fillRow mask (mask.index p.1 p.2)).1.isMarked
          (mask.index q.1 q.2) = true
      · rw [if_pos hmarked'] at hnext
        simp only [if_pos hmarked']
        exact ih hnext hmarked' hrow (by omega) (index_lt_size hnext.contains)
      · simp only [if_neg hmarked']
        exact ⟨hrow, hcells⟩

end IsFilling

end Mask

namespace Mask

variable {mask : Mask} {connectivity : Connectivity} {n : ℕ} {cells : Cells} {e s : Position}
  {p : Pixel} {S : Set Pixel}

/-! ## The outside -/

/-- The pixel is unset, and unset pixels connect it with the outside of the rectangle. -/
def LeadsOutside (mask : Mask) (connectivity : Connectivity) (p : Pixel) : Prop :=
  p ∉ mask.objectPixels ∧
    ∃ q ∈ connectivity.opposite.component mask.objectPixelsᶜ p, ¬ mask.Contains q.1 q.2

theorem leadsOutside_iff : mask.LeadsOutside connectivity p ↔
    p ∈ connectivity.opposite.exterior mask.objectPixels := by
  have hbounds : mask.Bounds mask.objectPixels := bounds_of_subset subset_rfl
  constructor
  · intro h
    obtain ⟨hunset, q, hq, hout⟩ := h
    exact Connectivity.mem_exterior_of_mem_component hunset hq
      (hbounds.mem_exterior_of_not_contains hout)
  · intro h
    exact ⟨hbounds.not_mem_of_mem_exterior h, (-1, -1),
      Connectivity.mem_component_symm hbounds.origin_not_mem h, mask.not_contains_origin⟩

/-- What does not lead outside is an object or belongs to a hole. -/
theorem depth_pos_of_not_leadsOutside (h : ¬ mask.LeadsOutside connectivity p) :
    0 < mask.depth connectivity p := by
  by_cases hset : p ∈ mask.objectPixels
  · exact ((odd_depth_iff p).2 hset).pos
  have hsubset : mask.gapPixels ⊆ mask.objectPixelsᶜ := fun q hq ↦ (mem_gapPixels_iff.1 hq).2
  have hinside (q : Pixel) (hq : q ∈ connectivity.opposite.component mask.objectPixelsᶜ p) :
      mask.Contains q.1 q.2 := by
    by_contra hout
    exact h ⟨hset, q, hq, hout⟩
  have hgap : p ∈ mask.gapPixels := mem_gapPixels_iff.2
    ⟨hinside p Connectivity.mem_component_self, hset⟩
  have hU : mask.gapAt connectivity p ∈ mask.holes connectivity := by
    refine ⟨⟨p, hgap, rfl⟩, fun q hq hrim ↦ ?_⟩
    obtain ⟨s, rfl, hout⟩ := exists_not_contains_across hrim
    refine hout (hinside _ (Connectivity.mem_component_of_adjacent
      (Connectivity.component_mono hsubset hq) (connectivity.opposite.adjacent_across s) ?_))
    exact fun hmem ↦ hout (contains_of_mem_objectPixels hmem)
  obtain ⟨e, he, hside, heU⟩ := exists_isStart_of_hole hU
  have hsame : mask.depth connectivity e.across = mask.depth connectivity p :=
    depth_eq_of_winding_eq fun d hd ↦ hd.isCirculation.winding_eq_of_mem_gapAt hgap heU
  rw [← hsame, ← Position.past_right hside]
  exact he.depth_past_pos

theorem depth_pos_iff : 0 < mask.depth connectivity p ↔ ¬ mask.LeadsOutside connectivity p := by
  refine ⟨fun hpos h ↦ ?_, depth_pos_of_not_leadsOutside⟩
  rw [leadsOutside_iff] at h
  have hadjacent (a b : Pixel) (ha : a ∉ mask.objectPixels) (hb : b ∉ mask.objectPixels)
      (hadj : connectivity.opposite.Adjacent a b) :
      mask.depth connectivity b = mask.depth connectivity a :=
    depth_eq_of_winding_eq fun d hd ↦ hd.isCirculation.winding_eq_of_adjacent_opposite ha hb hadj
  have hsame : mask.depth connectivity p = mask.depth connectivity (-1, -1) :=
    Connectivity.eq_of_mem_component (mask.depth connectivity)
      (bounds_of_subset subset_rfl).origin_not_mem hadjacent h
  have hzero : mask.depth connectivity (-1, -1) = 0 :=
    depth_eq_zero_of_not_contains mask.not_contains_origin
  omega

/-- When all outermost circuits are traced, they cover what does not lead outside. -/
theorem isCovered_iff_not_leadsOutside
    (hall : ∀ d, mask.IsOutermost connectivity d → mask.slot d < n) :
    mask.IsCovered connectivity n p ↔ ¬ mask.LeadsOutside connectivity p := by
  rw [← depth_pos_iff]
  constructor
  · intro h
    obtain ⟨e, he, -, henc⟩ := h
    exact Finset.card_pos.2 ⟨e, Finset.mem_filter.2 ⟨mem_starts.2 he.isStart, henc⟩⟩
  · intro h
    obtain ⟨e, he, henc⟩ := exists_isOutermost h
    exact ⟨e, he, hall e he, henc⟩

/-! ## Numbers of cells -/

theorem countP_isMarked_eq_ncard (hsize : cells.size = mask.size)
    (hS : ∀ p ∈ S, mask.Contains p.1 p.2)
    (hmarked : ∀ p : Pixel, mask.Contains p.1 p.2 →
      (cells.isMarked (mask.index p.1 p.2) = true ↔ p ∈ S)) :
    cells.countP Cell.isMarked = S.ncard := by
  have hrange : cells.toList = (List.range mask.size).map fun k ↦ cells.getD k .blank := by
    apply List.ext_getElem
    · simp [hsize]
    · intro k hk _
      simp at hk
      simp [Array.getD_eq_getD_getElem?, hk]
  have himage : (fun p : Pixel ↦ mask.index p.1 p.2) '' S =
      (((List.range mask.size).filter cells.isMarked).toFinset : Set ℕ) := by
    ext k
    simp only [Set.mem_image, Finset.mem_coe, List.mem_toFinset, List.mem_filter, List.mem_range]
    constructor
    · intro h
      obtain ⟨p, hp, rfl⟩ := h
      exact ⟨index_lt_size (hS p hp), (hmarked p (hS p hp)).2 hp⟩
    · intro h
      obtain ⟨p, hp, rfl⟩ := exists_index_eq h.1
      exact ⟨p, (hmarked p hp).1 h.2, rfl⟩
  calc
    _ = ((List.range mask.size).filter cells.isMarked).length := by
      rw [← Array.countP_toList, hrange, List.countP_map, List.countP_eq_length_filter]
      rfl
    _ = (((List.range mask.size).filter cells.isMarked).toFinset : Set ℕ).ncard := by
      rw [Set.ncard_coe_finset, List.toFinset_card_of_nodup (List.nodup_range.filter _)]
    _ = S.ncard := by
      rw [← himage, (mask.index_injOn.mono hS).ncard_image]

/-- Outermost circuits share no pixels. -/
theorem sum_ncard_encloses {starts : List Position}
    (hstarts : ∀ e ∈ starts, mask.IsOutermost connectivity e) (hnodup : starts.Nodup) :
    (starts.map fun e ↦ {p | Encloses (mask.circuit connectivity e) p}.ncard).sum =
      {p | ∃ e ∈ starts, Encloses (mask.circuit connectivity e) p}.ncard := by
  induction starts with
  | nil => simp
  | cons e starts ih =>
    obtain ⟨hnot, hnodup⟩ := List.nodup_cons.1 hnodup
    have he := hstarts e List.mem_cons_self
    have hrest (d : Position) (hd : d ∈ starts) := hstarts d (List.mem_cons_of_mem e hd)
    have hunion : {p | ∃ d ∈ e :: starts, Encloses (mask.circuit connectivity d) p} =
        {p | Encloses (mask.circuit connectivity e) p} ∪
          {p | ∃ d ∈ starts, Encloses (mask.circuit connectivity d) p} := by
      ext p
      simp
    have hdisjoint : Disjoint {p | Encloses (mask.circuit connectivity e) p}
        {p | ∃ d ∈ starts, Encloses (mask.circuit connectivity d) p} := by
      refine Set.disjoint_left.2 fun p hp hother ↦ ?_
      obtain ⟨d, hd, henc⟩ := hother
      exact hnot (he.eq_of_encloses (hrest d hd) hp henc ▸ hd)
    have hfinite : {p | Encloses (mask.circuit connectivity e) p}.Finite :=
      mask.finite_contains.subset fun p hp ↦ he.isStart.contains_of_encloses hp
    have hfinite' : {p | ∃ d ∈ starts, Encloses (mask.circuit connectivity d) p}.Finite := by
      refine mask.finite_contains.subset fun p hp ↦ ?_
      obtain ⟨d, hd, henc⟩ := hp
      exact (hrest d hd).isStart.contains_of_encloses henc
    rw [List.map_cons, List.sum_cons, ih hrest hnodup, hunion,
      Set.ncard_union_eq hdisjoint hfinite hfinite']

/-- The areas of all outermost circuits add up to the number of covered pixels. -/
theorem sum_area_outermost {level : Position → ℤ}
    (hall : ∀ d, mask.IsOutermost connectivity d → mask.slot d < n) :
    (((mask.startList connectivity (mask.LeadsToOne connectivity)).map
      (mask.tour connectivity level)).map (·.tally.area)).sum =
        {p | mask.IsCovered connectivity n p}.ncard := by
  have houtermost (e : Position)
      (he : e ∈ mask.startList connectivity (mask.LeadsToOne connectivity)) :
      mask.IsOutermost connectivity e :=
    ⟨(mem_startList.1 he).1, (mem_startList.1 he).2⟩
  have harea (e : Position)
      (he : e ∈ mask.startList connectivity (mask.LeadsToOne connectivity)) :
      (mask.tour connectivity level e).tally.area =
        ({p | Encloses (mask.circuit connectivity e) p}.ncard : ℤ) := by
    rw [area_tour_of_isStart (houtermost e he).isStart, Position.orientation,
      if_pos (houtermost e he).side_eq, one_mul]
  have hcovered : {p | ∃ e ∈ mask.startList connectivity (mask.LeadsToOne connectivity),
      Encloses (mask.circuit connectivity e) p} = {p | mask.IsCovered connectivity n p} := by
    ext p
    constructor
    · intro hp
      obtain ⟨e, he, henc⟩ := hp
      exact ⟨e, houtermost e he, hall e (houtermost e he), henc⟩
    · intro hp
      obtain ⟨e, he, -, henc⟩ := hp
      exact ⟨e, mem_startList.2 ⟨he.isStart, he.depth_past⟩, henc⟩
  calc
    _ = (((mask.startList connectivity (mask.LeadsToOne connectivity)).map fun e ↦
        {p | Encloses (mask.circuit connectivity e) p}.ncard).sum : ℤ) := by
      rw [List.map_map, Nat.cast_list_sum, List.map_map]
      exact congrArg List.sum (List.map_congr_left harea)
    _ = _ := by
      rw [sum_ncard_encloses houtermost (mask.nodup_startList connectivity _), hcovered]

/-- The pixel behind a closing bracket is not covered. -/
theorem IsOutermost.not_isCovered_bracket (he : mask.IsOutermost connectivity e)
    (hn : mask.slot e < n) (hs : s ∈ mask.circuit connectivity e) (hside : s.side = .right)
    {k : ℕ} (hk : mask.bracketCell? s = some k) : ∃ p : Pixel, mask.Contains p.1 p.2 ∧
      mask.index p.1 p.2 = k ∧ ¬ mask.IsCovered connectivity n p := by
  have hb := isBoundary_of_mem_circuit he.isStart.isBoundary hs
  have hv : s.side.isVertical = true := by rw [hside]; rfl
  rw [bracketCell?_of_isVertical hb hv, Option.ite_none_right_eq_some] at hk
  obtain ⟨hedge, hk⟩ := hk
  refine ⟨s.past, (contains_past_iff hb hv).2 hedge, Option.some.inj hk, ?_⟩
  rw [Position.past_right hside]
  exact (isCovered_of_mem_outerSides (mem_outerSides.2 ⟨e, he, hn, hs⟩)).2

/-! ## What a buffer may satisfy -/

/-- The marked cells are those of the pixels that do not lead outside. No closing bracket is left,
and the number of marked cells is that of the enclosed pixels. -/
structure IsFilledBy (mask : Mask) (connectivity : Connectivity) (tours : List Tour)
    (cells : Cells) : Prop where
  size_eq : cells.size = mask.size
  isMarked_iff : ∀ p : Pixel, mask.Contains p.1 p.2 →
    (cells.isMarked (mask.index p.1 p.2) = true ↔ ¬ mask.LeadsOutside connectivity p)
  isMarked_bracket : ∀ tour ∈ tours, ∀ s ∈ tour.positions, s.side = .right →
    ∀ k, mask.bracketCell? s = some k → cells.isMarked k = false
  countP_isMarked : (cells.countP Cell.isMarked : ℤ) = (tours.map (·.tally.area)).sum

/-- A buffer that is settled as a whole when all outermost circuits are traced is filled. -/
theorem IsSettled.isFilledBy {level : Position → ℤ} (hsize : cells.size = mask.size)
    (hall : ∀ d, mask.IsOutermost connectivity d → mask.slot d < n)
    (h : mask.IsSettled connectivity n cells mask.size) :
    mask.IsFilledBy connectivity ((mask.startList connectivity
      (mask.LeadsToOne connectivity)).map (mask.tour connectivity level)) cells := by
  have hmarked (p : Pixel) (hp : mask.Contains p.1 p.2) := h p hp (index_lt_size hp)
  refine ⟨hsize, ?_, ?_, ?_⟩
  · intro p hp
    rw [hmarked p hp, isCovered_iff_not_leadsOutside hall]
  · intro tour htour s hs hside k hk
    obtain ⟨e, he, rfl⟩ := List.mem_map.1 htour
    rw [positions_tour] at hs
    have houtermost : mask.IsOutermost connectivity e :=
      ⟨(mem_startList.1 he).1, (mem_startList.1 he).2⟩
    obtain ⟨p, hp, rfl, hcovered⟩ :=
      houtermost.not_isCovered_bracket (hall e houtermost) hs hside hk
    rwa [← hmarked p hp, Bool.not_eq_true] at hcovered
  · have hcount : cells.countP Cell.isMarked = {p | mask.IsCovered connectivity n p}.ncard :=
      countP_isMarked_eq_ncard hsize (fun p hp ↦ contains_of_isCovered hp) hmarked
    rw [hcount, sum_area_outermost hall]

end Mask

/-! ## The loop -/

namespace Tracer

variable {mask : Mask} {connectivity : Connectivity} {tracer found last : Tracer} {cells : Cells}
  {n : ℕ} {e : Position}

/-- A tracer between two boundaries, all cells before its pixel settled. -/
structure HasFilledMain (mask : Mask) (connectivity : Connectivity) (n : ℕ) (tracer : Tracer) :
    Prop extends HasTracedMain mask connectivity n tracer where
  isSettled : ∀ cells, tracer.memory = .filled cells →
    mask.IsSettled connectivity n cells tracer.index

theorem IsFreshForMain.hasFilledMain (h : tracer.IsFreshForMain) :
    HasFilledMain tracer.mask tracer.connectivity 0 tracer := by
  refine ⟨h.hasTracedMain, ?_⟩
  obtain ⟨cells, hmemory, hsize, hblank⟩ := h.memory_eq
  intro cells' hmemory'
  obtain rfl : cells = cells' := Memory.filled.inj (hmemory.symm.trans hmemory')
  exact Mask.isSettled_of_records_empty (.of_isMarked_eq_false hsize hblank) _

namespace HasFilledMain

/-- The search settles all cells before the pixel that it finds, or all cells if it finds none. -/
theorem nextOutermost (h : HasFilledMain mask connectivity n tracer)
    (hmemory : tracer.memory = .filled cells) :
    ∃ filled, (tracer.nextOutermost cells).2.memory = .filled filled ∧
      filled.size = mask.size ∧ mask.IsSettled connectivity n filled
        (if (tracer.nextOutermost cells).1 then (tracer.nextOutermost cells).2.index
          else mask.size) := by
  have hsettled := h.isSettled cells hmemory
  obtain ⟨⟨rfl, rfl, ⟨cells', hmemory', hrecords⟩, hcases⟩, -⟩ := h
  obtain rfl : cells = cells' := Memory.filled.inj (hmemory.symm.trans hmemory')
  unfold Tracer.nextOutermost
  rcases hcases with ⟨hposition, rfl⟩ | ⟨e, hposition, he, rfl⟩
  · have hindex : tracer.index = 0 := by rw [index, hposition]
    rw [Mask.outerSides, Mask.sidesBefore_zero, hindex] at hrecords
    refine ⟨cells, ?_, hrecords.size_eq, Mask.isSettled_of_records_empty hrecords _⟩
    rw [Mask.isMarked_eq_false_of_records_empty hrecords, nextSingle]
    split
    · exact hmemory
    · simp only [Bool.false_eq_true, if_false]
      split <;> exact hmemory
  · have hindex : tracer.index = tracer.mask.index e.x e.y := by rw [index, hposition]
    rw [hindex] at hrecords hsettled ⊢
    obtain ⟨hmarked, hfilling⟩ := he.isFilling hrecords
    have hsize : tracer.mask.size ≠ 0 := by
      have hlt := he.isStart.slot_lt
      omega
    have hfill := hfilling.isSettled_fillFrom hmarked hsettled (Nat.sub_le _ _)
    rw [if_neg hsize, if_pos hmarked]
    simp only [Position.pixel] at hfill
    cases hresult : cells.fillFrom tracer.mask tracer.mask.size (tracer.mask.index e.x e.y) with
    | mk filled result =>
      rw [hresult] at hfill
      refine ⟨filled, ?_, hfill.2, ?_⟩
      · cases result <;> rfl
      · cases result with
        | none => exact hfill.1
        | some k =>
          have hfound : ({ tracer.place (tracer.mask.atSlot (2 * k)) with
              memory := .filled filled } : Tracer).index = k :=
            tracer.mask.index_atSlot_two_mul k
          simp only [if_true, hfound]
          exact hfill.1

theorem nextBoundary (h : HasFilledMain mask connectivity n tracer) :
    ∃ filled, tracer.nextBoundary.2.memory = .filled filled ∧ filled.size = mask.size ∧
      mask.IsSettled connectivity n filled
        (if tracer.nextBoundary.1 then tracer.nextBoundary.2.index else mask.size) := by
  obtain ⟨cells, hmemory, -⟩ := h.memory_eq
  have hsearch : tracer.nextBoundary = ((tracer.nextOutermost cells).1,
      (tracer.nextOutermost cells).2.resetCounters) := by
    simp only [Tracer.nextBoundary, hmemory]
  rw [hsearch]
  exact h.nextOutermost hmemory

/-- After the search and the scan of a boundary the cells before the next pixel are settled. -/
theorem exists_hasFilledMain {next : Tracer} {tour : Tour}
    (h : HasFilledMain mask connectivity n tracer) (hfound : tracer.nextBoundary = (true, found))
    (htour : found.tour? = some (tour, next)) :
    ∃ n, HasFilledMain mask connectivity n next := by
  rcases h.nextBoundary_cases with ⟨e, found', cells, hnext, hfound', hat, hmemory, hrecords⟩ |
    ⟨-, hnone⟩
  · rw [hfound, Prod.mk.injEq] at hfound'
    obtain rfl := hfound'.2
    rw [hat.tour?_eq, Option.some.injEq, Prod.mk.injEq] at htour
    obtain rfl := htour.2
    have hplace : found.position? = some e := by rw [position?, hat.placement_eq]; rfl
    have hindex : found.index = mask.index e.x e.y := by rw [index, hplace, hat.mask_eq]
    have hindex' : (found.scanned e).index = mask.index e.x e.y := by
      rw [index, position?_scanned hplace, mask_scanned, hat.mask_eq]
    obtain ⟨filled, hfilled, -, hsettled⟩ := h.nextBoundary
    rw [hfound] at hfilled hsettled
    obtain rfl : cells = filled := Memory.filled.inj (hmemory.symm.trans hfilled)
    rw [if_pos rfl, hindex] at hsettled
    refine ⟨mask.slot e + 1, HasTracedMain.scanned hat hnext hmemory hrecords, ?_⟩
    intro recorded hrecorded
    rw [memory_scanned, hat.mask_eq, hat.connectivity_eq, hmemory,
      Memory.foldl_record_filled] at hrecorded
    obtain rfl := Memory.filled.inj hrecorded
    rw [hindex']
    exact Mask.IsSettled.foldl_putBracket hnext hsettled
  · rw [hfound] at hnone
    cases hnone

/-- When the search finds nothing more, the whole buffer is settled. -/
theorem isSettled_of_not_found (h : HasFilledMain mask connectivity n tracer)
    (hlast : tracer.nextBoundary = (false, last)) :
    (∀ d, mask.IsOutermost connectivity d → mask.slot d < n) ∧
      ∃ cells, last.memory = .filled cells ∧ cells.size = mask.size ∧
        mask.IsSettled connectivity n cells mask.size := by
  constructor
  · rcases h.nextBoundary_cases with ⟨e, found, cells, -, hfound, -⟩ | ⟨hnone, -⟩
    · rw [hlast] at hfound
      cases hfound
    · exact hnone
  · have hsearch := h.nextBoundary
    rwa [hlast] at hsearch

end HasFilledMain

/-- When the loop of the main mode has ended, its buffer shows what is not connected with the
outside. -/
theorem exists_filled_buffer (h : tracer.IsFreshForMain) :
    ∃ tours last cells, tracer.Loop tours last ∧ last.memory = .filled cells ∧
      tracer.mask.IsFilledBy tracer.connectivity tours cells := by
  obtain ⟨last, hloop⟩ := h.exists_loop
  obtain ⟨final, ⟨n, hfinal⟩, hstop⟩ := hloop.exists_stop
    (fun next ↦ ∃ n, HasFilledMain tracer.mask tracer.connectivity n next)
    (fun _ _ _ _ ⟨_, hinv⟩ hfound htour ↦ hinv.exists_hasFilledMain hfound htour)
    ⟨0, h.hasFilledMain⟩
  obtain ⟨hall, cells, hmemory, hsize, hsettled⟩ := hfinal.isSettled_of_not_found hstop
  exact ⟨_, last, cells, hloop, hmemory, hsettled.isFilledBy hsize hall⟩

theorem exists_filled_buffer_target :
    let tracer := new .target .null .straight (.fresh Mask.target.size .main)
    tracer.IsFreshForMain ∧ ∃ tours last cells, tracer.Loop tours last ∧
      last.memory = .filled cells ∧ Mask.target.IsFilledBy .straight tours cells :=
  ⟨isFreshForMain_new .target .null .straight,
    exists_filled_buffer (isFreshForMain_new .target .null .straight)⟩

end Tracer

end ContourTracing
