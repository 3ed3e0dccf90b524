import Mathlib.Data.Set.Finite.Basic
import Mathlib.Dynamics.PeriodicPts.Lemmas
import ContourTracing.Proofs.Raster

/-!
# Circuits of the boundary walk

On the boundary sides of a mask the walk is a permutation: a step leads from a boundary side to a
boundary side, and `predecessor` leads back. Since there are finitely many boundary sides, every
walk closes. Its circuit is the list of the positions on which the steps arrive until the walk is
back at its start; each of them occurs once, and the circuits of two positions are disjoint or
the same up to where they begin.
-/

namespace ContourTracing

open Function

namespace Mask

variable {mask : Mask} {connectivity : Connectivity} {s t u : Position} {p q : Pixel}

/-! ## One step -/

/-- What a step can do: go straight on, turn around an inner corner, or turn around an outer
corner. -/
theorem successor_cases (mask : Mask) (connectivity : Connectivity) (s : Position) :
    (s.ahead ∈ mask.objectPixels ∧ s.aheadAcross ∉ mask.objectPixels ∧
        mask.successor connectivity s = ⟨s.ahead.1, s.ahead.2, s.side⟩) ∨
      (s.aheadAcross ∈ mask.objectPixels ∧
          (connectivity = .straight → s.ahead ∈ mask.objectPixels) ∧
        mask.successor connectivity s =
          ⟨s.aheadAcross.1, s.aheadAcross.2, s.side.counterclockwise⟩) ∨
      (s.ahead ∉ mask.objectPixels ∧
          (connectivity = .diagonal → s.aheadAcross ∉ mask.objectPixels) ∧
        mask.successor connectivity s = ⟨s.x, s.y, s.side.clockwise⟩) := by
  have hstraight := s.move_straight
  have hdiagonal := s.move_diagonal
  have hrotation := s.move_rotation
  unfold successor chooseStep chooseTurn
  cases hahead : mask.isSet s.ahead.1 s.ahead.2 <;>
    cases hacross : mask.isSet s.aheadAcross.1 s.aheadAcross.2 <;>
      cases connectivity <;> simp [objectPixels, *]

theorem isBoundary_successor (h : mask.IsBoundary s) :
    mask.IsBoundary (mask.successor connectivity s) := by
  rw [isBoundary_iff] at *
  rcases successor_cases mask connectivity s with ⟨hahead, hacross, heq⟩ | ⟨hacross, -, heq⟩ |
    ⟨hahead, -, heq⟩ <;> rw [heq]
  · exact ⟨hahead, hacross⟩
  · rw [Position.across_diagonal]
    exact ⟨hacross, h.2⟩
  · exact ⟨h.1, hahead⟩

/-- The position from which a step arrives on a boundary side. -/
def predecessor (mask : Mask) (connectivity : Connectivity) (s : Position) : Position :=
  let behind : Pixel := (s.x - s.side.along.1, s.y - s.side.along.2)
  let behindAcross : Pixel := (behind.1 + s.side.outward.1, behind.2 + s.side.outward.2)
  let isBehind := mask.isSet behind.1 behind.2
  let isBehindAcross := mask.isSet behindAcross.1 behindAcross.2
  let straight : Position := ⟨behind.1, behind.2, s.side⟩
  let diagonal : Position := ⟨behindAcross.1, behindAcross.2, s.side.clockwise⟩
  let rotation : Position := ⟨s.x, s.y, s.side.counterclockwise⟩
  match connectivity with
  | .straight => if isBehind then if isBehindAcross then diagonal else straight else rotation
  | .diagonal => if isBehindAcross then diagonal else if isBehind then straight else rotation

theorem predecessor_successor (h : mask.IsBoundary s) :
    mask.predecessor connectivity (mask.successor connectivity s) = s := by
  have h' := h
  rw [isBoundary_iff] at h'
  obtain ⟨x, y, side⟩ := s
  rcases successor_cases mask connectivity ⟨x, y, side⟩ with ⟨hahead, hacross, heq⟩ |
    ⟨hacross, hahead, heq⟩ | ⟨hahead, hacross, heq⟩ <;> rw [heq] <;>
      cases side <;> cases connectivity <;>
        simp_all [predecessor, objectPixels, Position.ahead, Position.aheadAcross, Position.across,
          Position.pixel, Side.along, Side.outward, Side.clockwise, Side.counterclockwise,
          sub_eq_add_neg]

theorem successor_injOn (mask : Mask) (connectivity : Connectivity) :
    Set.InjOn (mask.successor connectivity) {s | mask.IsBoundary s} := by
  intro s hs t ht heq
  have hs' : mask.predecessor connectivity (mask.successor connectivity s) = s :=
    predecessor_successor hs
  rw [← hs', heq, predecessor_successor ht]

/-! ## Every walk closes -/

/-- The sides of all pixels of the rectangle, numbered pixel by pixel. -/
def number (mask : Mask) (s : Position) : ℕ :=
  4 * mask.index s.x s.y + s.side.code

theorem number_lt (h : mask.IsBoundary s) : mask.number s < 4 * mask.size := by
  have hindex := index_lt_size (p := s.pixel) (contains_of_isBoundary h)
  have hcode : s.side.code < 4 := by cases s.side <;> decide
  simp only [Position.pixel] at hindex
  unfold number
  omega

theorem number_injOn (mask : Mask) : Set.InjOn mask.number {s | mask.IsBoundary s} := by
  intro s hs t ht h
  have hs4 : s.side.code < 4 := by cases s.side <;> decide
  have ht4 : t.side.code < 4 := by cases t.side <;> decide
  unfold number at h
  have hcode : s.side.code = t.side.code := by omega
  have hindex : mask.index s.x s.y = mask.index t.x t.y := by omega
  have hpixel : s.pixel = t.pixel :=
    mask.index_injOn (contains_of_isBoundary hs) (contains_of_isBoundary ht) hindex
  obtain ⟨x, y, side⟩ := s
  obtain ⟨x', y', side'⟩ := t
  obtain ⟨rfl, rfl⟩ := Prod.mk.inj hpixel
  cases side <;> cases side' <;> first | rfl | cases hcode

theorem finite_isBoundary (mask : Mask) : {s | mask.IsBoundary s}.Finite :=
  Set.Finite.of_injOn (fun _ hs ↦ Set.mem_Iio.2 (number_lt hs)) mask.number_injOn
    (Set.finite_Iio (4 * mask.size))

theorem isBoundary_iterate (h : mask.IsBoundary s) (n : ℕ) :
    mask.IsBoundary ((mask.successor connectivity)^[n] s) := by
  induction n with
  | zero => exact h
  | succ n ih =>
    rw [iterate_succ_apply']
    exact isBoundary_successor ih

theorem mem_periodicPts (h : mask.IsBoundary s) :
    s ∈ periodicPts (mask.successor connectivity) := by
  have hfinite : Finite {s // mask.IsBoundary s} := mask.finite_isBoundary.to_subtype
  let next : {s // mask.IsBoundary s} → {s // mask.IsBoundary s} :=
    fun s ↦ ⟨mask.successor connectivity s, isBoundary_successor s.2⟩
  have hinj : Injective next := fun s t heq ↦
    Subtype.ext (mask.successor_injOn connectivity s.2 t.2 (congrArg Subtype.val heq))
  have hconj : Semiconj Subtype.val next (mask.successor connectivity) := fun _ ↦ rfl
  exact hconj.mapsTo_periodicPts (hinj.mem_periodicPts ⟨s, h⟩)

/-- The number of steps after which a walk is back at its start. -/
noncomputable def period (mask : Mask) (connectivity : Connectivity) (s : Position) : ℕ :=
  minimalPeriod (mask.successor connectivity) s

theorem period_pos (h : mask.IsBoundary s) : 0 < mask.period connectivity s :=
  minimalPeriod_pos_of_mem_periodicPts (mem_periodicPts h)

theorem iterate_period (mask : Mask) (connectivity : Connectivity) (s : Position) :
    (mask.successor connectivity)^[mask.period connectivity s] s = s :=
  iterate_minimalPeriod

theorem iterate_ne_self {n : ℕ} (hpos : 0 < n) (hlt : n < mask.period connectivity s) :
    (mask.successor connectivity)^[n] s ≠ s :=
  not_isPeriodicPt_of_pos_of_lt_minimalPeriod hpos.ne' hlt

theorem iterate_injOn_period (mask : Mask) (connectivity : Connectivity) (s : Position) :
    Set.InjOn (fun n ↦ (mask.successor connectivity)^[n] s)
      (Set.Iio (mask.period connectivity s)) :=
  iterate_injOn_Iio_minimalPeriod

/-- No walk visits more sides than there are. -/
theorem period_le (h : mask.IsBoundary s) : mask.period connectivity s ≤ 4 * mask.size := by
  have hcard := Finset.card_le_card_of_injOn
    (s := Finset.range (mask.period connectivity s)) (t := Finset.range (4 * mask.size))
    (fun n ↦ mask.number ((mask.successor connectivity)^[n] s))
    (fun n _ ↦ Finset.mem_coe.2 (Finset.mem_range.2 (number_lt (isBoundary_iterate h n))))
    (fun m hm n hn heq ↦ mask.iterate_injOn_period connectivity s
      (Finset.mem_range.1 hm) (Finset.mem_range.1 hn)
      (mask.number_injOn (isBoundary_iterate h m) (isBoundary_iterate h n) heq))
  simpa using hcard

/-! ## Circuits -/

/-- The positions on which the steps of a walk arrive until it is back at its start. -/
noncomputable def circuit (mask : Mask) (connectivity : Connectivity) (s : Position) :
    List Position :=
  (List.range (mask.period connectivity s)).map fun n ↦ (mask.successor connectivity)^[n + 1] s

theorem mem_circuit_iff (h : mask.IsBoundary s) :
    t ∈ mask.circuit connectivity s ↔ ∃ n, (mask.successor connectivity)^[n] s = t := by
  have hpos : 0 < mask.period connectivity s := period_pos h
  simp only [circuit, List.mem_map, List.mem_range]
  constructor
  · rintro ⟨n, -, hn⟩
    exact ⟨n + 1, hn⟩
  · rintro ⟨n, rfl⟩
    -- the number of steps, brought into the range from one to the period
    let steps := n + mask.period connectivity s - 1
    refine ⟨steps % mask.period connectivity s, Nat.mod_lt _ hpos, ?_⟩
    have hmod : (mask.successor connectivity)^[steps % mask.period connectivity s] s =
        (mask.successor connectivity)^[steps] s := iterate_mod_minimalPeriod_eq
    have hsteps : steps.succ = n + mask.period connectivity s := by omega
    rw [iterate_succ_apply', hmod, ← iterate_succ_apply' (mask.successor connectivity), hsteps]
    exact iterate_add_minimalPeriod_eq

theorem isBoundary_of_mem_circuit (h : mask.IsBoundary s)
    (ht : t ∈ mask.circuit connectivity s) : mask.IsBoundary t := by
  obtain ⟨n, rfl⟩ := (mem_circuit_iff h).1 ht
  exact isBoundary_iterate h n

theorem self_mem_circuit (h : mask.IsBoundary s) : s ∈ mask.circuit connectivity s :=
  (mem_circuit_iff h).2 ⟨0, rfl⟩

theorem mem_circuit_symm (h : mask.IsBoundary s) (ht : t ∈ mask.circuit connectivity s) :
    s ∈ mask.circuit connectivity t := by
  obtain ⟨n, rfl⟩ := (mem_circuit_iff h).1 ht
  refine (mem_circuit_iff (isBoundary_iterate h n)).2 ⟨mask.period connectivity s * n - n, ?_⟩
  have hle : n ≤ mask.period connectivity s * n := Nat.le_mul_of_pos_left n (period_pos h)
  rw [← iterate_add_apply, Nat.sub_add_cancel hle]
  exact (isPeriodicPt_minimalPeriod (mask.successor connectivity) s).mul_const n

theorem mem_circuit_trans (h : mask.IsBoundary s) (ht : t ∈ mask.circuit connectivity s)
    (hu : u ∈ mask.circuit connectivity t) : u ∈ mask.circuit connectivity s := by
  have htb := isBoundary_of_mem_circuit h ht
  obtain ⟨n, rfl⟩ := (mem_circuit_iff h).1 ht
  obtain ⟨m, rfl⟩ := (mem_circuit_iff htb).1 hu
  exact (mem_circuit_iff h).2 ⟨m + n, iterate_add_apply ..⟩

theorem successor_mem_circuit_iff (h : mask.IsBoundary s) (ht : mask.IsBoundary t) :
    mask.successor connectivity t ∈ mask.circuit connectivity s ↔
      t ∈ mask.circuit connectivity s := by
  have hstep : mask.successor connectivity t ∈ mask.circuit connectivity t :=
    (mem_circuit_iff ht).2 ⟨1, rfl⟩
  exact ⟨fun hmem ↦ mem_circuit_trans h hmem (mem_circuit_symm ht hstep),
    fun hmem ↦ mem_circuit_trans h hmem hstep⟩

theorem nodup_circuit (h : mask.IsBoundary s) : (mask.circuit connectivity s).Nodup := by
  refine List.Nodup.map_on (fun m hm n hn heq ↦ ?_) List.nodup_range
  rw [iterate_succ_apply', iterate_succ_apply'] at heq
  have hback := mask.successor_injOn connectivity (isBoundary_iterate h m)
    (isBoundary_iterate h n) heq
  exact mask.iterate_injOn_period connectivity s (List.mem_range.1 hm) (List.mem_range.1 hn) hback

theorem count_circuit (h : mask.IsBoundary s) (t : Position) :
    (mask.circuit connectivity s).count t =
      if t ∈ mask.circuit connectivity s then 1 else 0 :=
  (nodup_circuit h).count

/-! ## A circuit stays on one object and beside one gap -/

theorem pixel_successor_mem_objectAt (mask : Mask) (connectivity : Connectivity) (s : Position) :
    (mask.successor connectivity s).pixel ∈ mask.objectAt connectivity s.pixel := by
  have hahead (hset : s.ahead ∈ mask.objectPixels) :
      s.ahead ∈ mask.objectAt connectivity s.pixel :=
    Connectivity.mem_component_of_adjacent Connectivity.mem_component_self
      (connectivity.adjacent_across ⟨s.x, s.y, s.side.clockwise⟩) hset
  rcases successor_cases mask connectivity s with ⟨hset, -, heq⟩ | ⟨hset, hcorner, heq⟩ |
    ⟨-, -, heq⟩ <;> rw [heq]
  · exact hahead hset
  · cases connectivity with
    | straight =>
      exact Connectivity.mem_component_of_adjacent (hahead (hcorner rfl))
        (Connectivity.adjacent_across _ ⟨s.ahead.1, s.ahead.2, s.side⟩) hset
    | diagonal =>
      exact Connectivity.mem_component_of_adjacent Connectivity.mem_component_self
        (Connectivity.adjacent_aheadAcross s) hset
  · exact Connectivity.mem_component_self

/-- A circuit visits pixels of one object only. -/
theorem pixel_mem_objectAt (h : mask.IsBoundary s) (ht : t ∈ mask.circuit connectivity s) :
    t.pixel ∈ mask.objectAt connectivity s.pixel := by
  obtain ⟨n, rfl⟩ := (mem_circuit_iff h).1 ht
  induction n with
  | zero => exact Connectivity.mem_component_self
  | succ n ih =>
    rw [iterate_succ_apply']
    exact Relation.ReflTransGen.trans (ih ((mem_circuit_iff h).2 ⟨n, rfl⟩))
      (pixel_successor_mem_objectAt mask connectivity _)

/-- The neighbours of a pixel off the rim lie in the rectangle. -/
theorem contains_of_adjacent (hp : mask.Contains p.1 p.2) (hrim : ¬ mask.IsOnRim p)
    (hadj : connectivity.Adjacent p q) : mask.Contains q.1 q.2 := by
  have hwide : Connectivity.diagonal.Adjacent p q := by
    cases connectivity with
    | straight => exact Connectivity.mem_offsets_diagonal.2 (.inl hadj)
    | diagonal => exact hadj
  have hstep := Connectivity.mem_offsets_diagonal.1 hwide
  rw [Connectivity.mem_offsets_straight] at hstep
  obtain ⟨hx, hw, hy, hh⟩ := hp
  unfold IsOnRim at hrim
  unfold Contains
  omega

theorem mem_hole_of_adjacent {U : Set Pixel} (hU : U ∈ mask.holes connectivity) (hp : p ∈ U)
    (hadj : connectivity.opposite.Adjacent p q) (hq : q ∉ mask.objectPixels) : q ∈ U := by
  obtain ⟨hgap, heq⟩ := Connectivity.eq_component_of_mem hU.1 hp
  have hcontains := contains_of_adjacent hgap.1 (hU.2 p hp) hadj
  rw [heq]
  exact Connectivity.mem_component_of_adjacent Connectivity.mem_component_self hadj
    (mem_gapPixels_iff.2 ⟨hcontains, hq⟩)

theorem across_successor_mem {U : Set Pixel}
    (hU : ∀ p ∈ U, ∀ q, connectivity.opposite.Adjacent p q → q ∉ mask.objectPixels → q ∈ U)
    (hs : s.across ∈ U) : (mask.successor connectivity s).across ∈ U := by
  rcases successor_cases mask connectivity s with ⟨-, hunset, heq⟩ | ⟨-, -, heq⟩ |
    ⟨hunset, hcorner, heq⟩ <;> rw [heq]
  · exact hU _ hs _ (Connectivity.adjacent_across_aheadAcross _ s) hunset
  · rw [Position.across_diagonal]
    exact hs
  · cases connectivity with
    | straight => exact hU _ hs _ (Connectivity.adjacent_across_ahead s) hunset
    | diagonal =>
      have hcorner := hU _ hs _ (Connectivity.adjacent_across_aheadAcross _ s) (hcorner rfl)
      exact hU _ hcorner _ (Connectivity.adjacent_aheadAcross_ahead _ s) hunset

/-- A circuit runs along a set of unset pixels all the way, if all unset neighbours belong to it. -/
theorem across_mem_of_mem_circuit {U : Set Pixel}
    (hU : ∀ p ∈ U, ∀ q, connectivity.opposite.Adjacent p q → q ∉ mask.objectPixels → q ∈ U)
    (h : mask.IsBoundary s) (hs : s.across ∈ U) (ht : t ∈ mask.circuit connectivity s) :
    t.across ∈ U := by
  obtain ⟨n, rfl⟩ := (mem_circuit_iff h).1 ht
  induction n with
  | zero => exact hs
  | succ n ih =>
    rw [iterate_succ_apply']
    exact across_successor_mem hU (ih ((mem_circuit_iff h).2 ⟨n, rfl⟩))

/-- A circuit that runs beside a hole runs beside that hole all the way. -/
theorem across_mem_hole {U : Set Pixel} (hU : U ∈ mask.holes connectivity)
    (h : mask.IsBoundary s) (hs : s.across ∈ U) (ht : t ∈ mask.circuit connectivity s) :
    t.across ∈ U :=
  across_mem_of_mem_circuit (fun _ hp _ hadj hq ↦ mem_hole_of_adjacent hU hp hadj hq) h hs ht

end Mask

end ContourTracing
