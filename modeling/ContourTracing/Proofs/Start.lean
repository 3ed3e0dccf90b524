import ContourTracing.Proofs.Winding

/-!
# Starts of circuits

Every circuit has vertical sides; its start is the first of them in raster order. A start on a
left side belongs to the outer boundary of an object, which winds once around what it encloses; a
start on a right side belongs to the boundary of a hole and winds around it once in the opposite
sense. No other winding numbers occur. In particular a start never lies at the end of a row.
-/

namespace ContourTracing

namespace Mask

/-- The first vertical side of its circuit. -/
structure IsStart (mask : Mask) (connectivity : Connectivity) (e : Position) : Prop where
  isBoundary : mask.IsBoundary e
  isVertical : e.side.isVertical = true
  slot_le : ∀ s ∈ mask.circuit connectivity e, s.side.isVertical = true → mask.slot e ≤ mask.slot s

variable {mask : Mask} {connectivity : Connectivity} {d e s t : Position} {p q : Pixel}

theorem winding_across_of_mem_circuit (h : mask.IsBoundary s)
    (ht : t ∈ mask.circuit connectivity s) :
    winding (mask.circuit connectivity s) t.across =
      winding (mask.circuit connectivity s) t.pixel - 1 := by
  have htb := isBoundary_of_mem_circuit h ht
  rw [(isCirculation_circuit h).winding_across_of_isBoundary htb, count_circuit h, if_pos ht]
  rfl

/-- A circuit without vertical sides would not wind at all. -/
theorem exists_isVertical (h : mask.IsBoundary s) :
    ∃ t ∈ mask.circuit connectivity s, t.side.isVertical = true := by
  by_contra hnone
  have hzero (p : Pixel) : winding (mask.circuit connectivity s) p = 0 :=
    winding_eq_zero fun t ht hv _ ↦ absurd ⟨t, ht, hv⟩ hnone
  have hself : s ∈ mask.circuit connectivity s := self_mem_circuit h
  have hcross := winding_across_of_mem_circuit h hself
  rw [hzero, hzero] at hcross
  omega

theorem exists_isStart (connectivity : Connectivity) (h : mask.IsBoundary s) :
    ∃ e, mask.IsStart connectivity e ∧ s ∈ mask.circuit connectivity e := by
  let verticals : Set Position := {t ∈ {t | t ∈ mask.circuit connectivity s} |
    t.side.isVertical = true}
  have hne : verticals.Nonempty := exists_isVertical h
  obtain ⟨hmem, hv⟩ := Function.argminOn_mem mask.slot verticals hne
  have hleast (t : Position) (ht : t ∈ verticals) :
      mask.slot (Function.argminOn mask.slot verticals hne) ≤ mask.slot t :=
    Function.argminOn_le mask.slot verticals ht
  generalize Function.argminOn mask.slot verticals hne = e at hmem hv hleast
  refine ⟨e, ⟨isBoundary_of_mem_circuit h hmem, hv, fun t ht htv ↦ ?_⟩, mem_circuit_symm h hmem⟩
  exact hleast t ⟨mem_circuit_trans h hmem ht, htv⟩

namespace IsStart

theorem self_mem (h : mask.IsStart connectivity e) : e ∈ mask.circuit connectivity e :=
  self_mem_circuit h.isBoundary

theorem isCirculation (h : mask.IsStart connectivity e) :
    mask.IsCirculation connectivity (mask.circuit connectivity e) :=
  isCirculation_circuit h.isBoundary

theorem eq_of_slot_eq (he : mask.IsStart connectivity e) (hd : mask.IsStart connectivity d)
    (h : mask.slot d = mask.slot e) : d = e :=
  Mask.eq_of_slot_eq hd.isBoundary he.isBoundary hd.isVertical he.isVertical h

/-- A circuit has one start. -/
theorem eq_of_mem (he : mask.IsStart connectivity e) (hd : mask.IsStart connectivity d)
    (hse : s ∈ mask.circuit connectivity e) (hsd : s ∈ mask.circuit connectivity d) : d = e := by
  have hdmem : d ∈ mask.circuit connectivity e :=
    mem_circuit_trans he.isBoundary hse (mem_circuit_symm hd.isBoundary hsd)
  have hemem : e ∈ mask.circuit connectivity d :=
    mem_circuit_symm he.isBoundary hdmem
  exact he.eq_of_slot_eq hd
    (le_antisymm (hd.slot_le e hemem he.isVertical) (he.slot_le d hdmem hd.isVertical))

theorem lt_of_mem (h : mask.IsStart connectivity e) (hs : s ∈ mask.circuit connectivity e)
    (hv : s.side.isVertical = true) (hne : s ≠ e) :
    e.y < s.y ∨ e.y = s.y ∧ e.edge < s.edge := by
  have hb := isBoundary_of_mem_circuit h.isBoundary hs
  have hle := (slot_le_iff h.isBoundary hb h.isVertical hv).1 (h.slot_le s hs hv)
  have hedge : e.y = s.y → e.edge ≠ s.edge := fun hy heq ↦
    hne (eq_of_edge_eq hb h.isBoundary hv h.isVertical hy.symm heq.symm)
  omega

/-- Nothing before its start in raster order is enclosed by a circuit. -/
theorem winding_eq_zero_of_before (h : mask.IsStart connectivity e)
    (hp : p.2 < e.y ∨ p.2 = e.y ∧ p.1 < e.edge) : winding (mask.circuit connectivity e) p = 0 := by
  apply winding_eq_zero
  intro s hs hv hy
  have hle := h.slot_le s hs hv
  rw [slot_le_iff h.isBoundary (isBoundary_of_mem_circuit h.isBoundary hs) h.isVertical hv] at hle
  omega

theorem winding_pixel (h : mask.IsStart connectivity e) :
    winding (mask.circuit connectivity e) e.pixel = if e.side = .left then 1 else 0 := by
  have hcross := winding_across_of_mem_circuit h.isBoundary h.self_mem
  split
  · next hside =>
    have hacross : winding (mask.circuit connectivity e) e.across = 0 :=
      h.winding_eq_zero_of_before (.inr (by
        rw [Position.edge_left hside]
        simp [Position.across, hside, Side.outward]))
    omega
  · next hside =>
    have hright := (Position.side_eq_of_isVertical h.isVertical).resolve_left hside
    refine h.winding_eq_zero_of_before (.inr ?_)
    rw [Position.edge_right hright]
    simp [Position.pixel]

/-- All pixels of a circuit lie on its one side. -/
theorem winding_pixel_of_mem (h : mask.IsStart connectivity e)
    (hs : s ∈ mask.circuit connectivity e) :
    winding (mask.circuit connectivity e) s.pixel = if e.side = .left then 1 else 0 := by
  rw [← h.winding_pixel]
  exact h.isCirculation.winding_eq_of_mem_objectAt (isBoundary_iff.1 h.isBoundary).1
    (pixel_mem_objectAt h.isBoundary hs)

theorem winding_across_of_mem (h : mask.IsStart connectivity e)
    (hs : s ∈ mask.circuit connectivity e) :
    winding (mask.circuit connectivity e) s.across = if e.side = .left then 0 else -1 := by
  rw [winding_across_of_mem_circuit h.isBoundary hs, h.winding_pixel_of_mem hs]
  split <;> rfl

/-- Along one circuit another one winds alike. -/
theorem winding_along (he : mask.IsStart connectivity e) (hd : mask.IsStart connectivity d)
    (hne : d ≠ e) (hs : s ∈ mask.circuit connectivity e) :
    winding (mask.circuit connectivity d) s.pixel =
        winding (mask.circuit connectivity d) e.pixel ∧
      winding (mask.circuit connectivity d) s.across =
        winding (mask.circuit connectivity d) e.pixel := by
  have hb := isBoundary_of_mem_circuit he.isBoundary hs
  have hpixel := hd.isCirculation.winding_eq_of_mem_objectAt (isBoundary_iff.1 he.isBoundary).1
    (pixel_mem_objectAt he.isBoundary hs)
  have hnot : s ∉ mask.circuit connectivity d := fun hsd ↦ hne (he.eq_of_mem hd hs hsd)
  exact ⟨hpixel, (hd.isCirculation.winding_across_of_not_mem hb hnot).trans hpixel⟩

/-- A circuit winds at most once, and always in the sense that its start tells. -/
theorem winding_eq (h : mask.IsStart connectivity e) (p : Pixel) :
    winding (mask.circuit connectivity e) p =
      if Encloses (mask.circuit connectivity e) p then if e.side = .left then 1 else -1 else 0 := by
  have hcases (y x : ℤ) : winding (mask.circuit connectivity e) (x, y) = 0 ∨
      winding (mask.circuit connectivity e) (x, y) = if e.side = .left then 1 else -1 := by
    induction x using column_induction with
    | left x hx =>
      exact .inl (h.isCirculation.winding_eq_zero_of_not_contains fun hc ↦
        absurd hc.1 (not_le.2 hx))
    | next x ih =>
      -- the side between the two pixels that belongs to the circuit, if any, decides
      by_cases hleft : (⟨x + 1, y, .left⟩ : Position) ∈ mask.circuit connectivity e
      · have hpixel := h.winding_pixel_of_mem hleft
        simp only [Position.pixel] at hpixel
        rw [hpixel]
        split <;> simp
      · by_cases hright : (⟨x, y, .right⟩ : Position) ∈ mask.circuit connectivity e
        · have hacross := h.winding_across_of_mem hright
          simp only [Position.across, Side.outward, Int.add_zero] at hacross
          rw [hacross]
          split <;> simp
        · rw [winding_next_of_not_mem hleft hright]
          exact ih
  have hzero : Encloses (mask.circuit connectivity e) p ↔
      winding (mask.circuit connectivity e) p ≠ 0 := encloses_iff
  rcases hcases p.2 p.1 with hw | hw <;> by_cases henc : Encloses (mask.circuit connectivity e) p
  · exact absurd hw (hzero.1 henc)
  · rw [if_neg henc]
    exact hw
  · rw [if_pos henc]
    exact hw
  · have hne : winding (mask.circuit connectivity e) p ≠ 0 := by
      rw [show p = (p.1, p.2) from rfl, hw]
      split <;> decide
    exact absurd (hzero.2 hne) henc

/-- The first enclosed pixel lies right behind the start. -/
theorem encloses_past (h : mask.IsStart connectivity e) :
    Encloses (mask.circuit connectivity e) e.past := by
  rw [encloses_iff]
  rcases Position.side_eq_of_isVertical h.isVertical with hside | hside
  · rw [Position.past_left hside, h.winding_pixel, if_pos hside]
    decide
  · rw [Position.past_right hside, h.winding_across_of_mem h.self_mem, if_neg (by simp [hside])]
    decide

theorem contains_of_encloses (h : mask.IsStart connectivity e)
    (hp : Encloses (mask.circuit connectivity e) p) : mask.Contains p.1 p.2 := by
  by_contra hout
  exact encloses_iff.1 hp (h.isCirculation.winding_eq_zero_of_not_contains hout)

/-- A start is never the right side at the end of a row. -/
theorem edge_lt_width (h : mask.IsStart connectivity e) : e.edge < mask.width :=
  (h.contains_of_encloses h.encloses_past).2.1

theorem start_le_of_encloses (h : mask.IsStart connectivity e)
    (hp : Encloses (mask.circuit connectivity e) p) : e.y < p.2 ∨ e.y = p.2 ∧ e.edge ≤ p.1 := by
  by_contra hbefore
  exact encloses_iff.1 hp (h.winding_eq_zero_of_before (by omega))

end IsStart

/-! ## Starts one after the other -/

/-- The first start of a kind from a slot on. -/
structure IsNextStart (mask : Mask) (connectivity : Connectivity) (P : Position → Prop) (n : ℕ)
    (e : Position) : Prop where
  isStart : mask.IsStart connectivity e
  holds : P e
  le_slot : n ≤ mask.slot e
  slot_le : ∀ d, mask.IsStart connectivity d → P d → n ≤ mask.slot d → mask.slot e ≤ mask.slot d

theorem IsNextStart.unique {P : Position → Prop} {n : ℕ}
    (hd : mask.IsNextStart connectivity P n d) (he : mask.IsNextStart connectivity P n e) :
    d = e :=
  he.isStart.eq_of_slot_eq hd.isStart
    (le_antisymm (hd.slot_le e he.isStart he.holds he.le_slot)
      (he.slot_le d hd.isStart hd.holds hd.le_slot))

section Slots

variable {P : Position → Prop} {n m : ℕ}

open Classical in
/-- Tells the slots of the starts of a kind. -/
noncomputable def isStartSlot (mask : Mask) (connectivity : Connectivity) (P : Position → Prop)
    (n : ℕ) : Bool :=
  decide (mask.IsStart connectivity (mask.atSlot n) ∧ P (mask.atSlot n))

theorem isStartSlot_iff : mask.isStartSlot connectivity P n = true ↔
    mask.IsStart connectivity (mask.atSlot n) ∧ P (mask.atSlot n) := by
  simp [isStartSlot]

theorem IsStart.slot_lt (h : mask.IsStart connectivity e) : mask.slot e < 2 * mask.size :=
  slot_lt_of_isBoundary h.isBoundary

theorem IsStart.atSlot_slot (h : mask.IsStart connectivity e) : mask.atSlot (mask.slot e) = e :=
  mask.atSlot_slot (contains_of_isBoundary h.isBoundary) h.isVertical

theorem IsStart.isStartSlot_slot (h : mask.IsStart connectivity e) (hP : P e) :
    mask.isStartSlot connectivity P (mask.slot e) = true := by
  rw [isStartSlot_iff, h.atSlot_slot]
  exact ⟨h, hP⟩

theorem isNextStart_of_firstOf_eq_some
    (h : Search.firstOf (mask.isStartSlot connectivity P) n (2 * mask.size - n) = some m) :
    mask.IsNextStart connectivity P n (mask.atSlot m) := by
  obtain ⟨hle, -, hhit, hleast⟩ := Search.firstOf_eq_some_iff.1 h
  obtain ⟨hstart, hP⟩ := isStartSlot_iff.1 hhit
  refine ⟨hstart, hP, by rwa [slot_atSlot], ?_⟩
  intro d hd hPd hn
  rw [slot_atSlot]
  by_contra hless
  have hmiss := hleast (mask.slot d) hn (by omega)
  rw [hd.isStartSlot_slot hPd] at hmiss
  cases hmiss

theorem slot_lt_of_firstOf_eq_none
    (h : Search.firstOf (mask.isStartSlot connectivity P) n (2 * mask.size - n) = none)
    (he : mask.IsStart connectivity e) (hP : P e) : mask.slot e < n := by
  by_contra hn
  have hsize := he.slot_lt
  have hmiss := Search.firstOf_eq_none_iff.1 h (mask.slot e) (by omega) (by omega)
  rw [he.isStartSlot_slot hP] at hmiss
  cases hmiss

/-- The starts of a kind in raster order. -/
noncomputable def startList (mask : Mask) (connectivity : Connectivity) (P : Position → Prop) :
    List Position :=
  ((List.range (2 * mask.size)).filter (mask.isStartSlot connectivity P)).map mask.atSlot

theorem mem_startList : e ∈ mask.startList connectivity P ↔ mask.IsStart connectivity e ∧ P e := by
  simp only [startList, List.mem_map, List.mem_filter, List.mem_range, isStartSlot_iff]
  constructor
  · rintro ⟨n, ⟨-, h⟩, rfl⟩
    exact h
  · rintro ⟨h, hP⟩
    refine ⟨mask.slot e, ⟨h.slot_lt, ?_⟩, h.atSlot_slot⟩
    rw [h.atSlot_slot]
    exact ⟨h, hP⟩

theorem nodup_startList (mask : Mask) (connectivity : Connectivity) (P : Position → Prop) :
    (mask.startList connectivity P).Nodup := by
  refine List.Nodup.map (fun n m h ↦ ?_) (List.nodup_range.filter _)
  rw [← mask.slot_atSlot n, h, slot_atSlot]

theorem filter_startList {Q : Position → Prop} {keep : Position → Bool}
    (h : ∀ e, mask.IsStart connectivity e → (P e ∧ keep e = true ↔ Q e)) :
    (mask.startList connectivity P).filter keep = mask.startList connectivity Q := by
  rw [startList, List.filter_map, List.filter_filter, startList]
  congr 1
  apply List.filter_congr
  intro n _
  rw [Bool.eq_iff_iff, Bool.and_eq_true, isStartSlot_iff, isStartSlot_iff]
  constructor
  · rintro ⟨hkeep, hstart, hP⟩
    exact ⟨hstart, (h _ hstart).1 ⟨hP, hkeep⟩⟩
  · rintro ⟨hstart, hQ⟩
    obtain ⟨hP, hkeep⟩ := (h _ hstart).2 hQ
    exact ⟨hkeep, hstart, hP⟩

end Slots

end Mask

end ContourTracing
