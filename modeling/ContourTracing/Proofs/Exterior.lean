import Mathlib.Data.Int.Order.Basic
import Mathlib.Data.Set.Card
import Mathlib.Data.Set.Finite.Basic
import ContourTracing.Proofs.Raster

/-!
# Exteriors of bounded regions

The mask is thought of as surrounded by background on all sides. What lies outside of a region of
the rectangle then has one unbounded component, the exterior of the region; the pixels of the
region and of the bounded components are enclosed by it.
-/

namespace ContourTracing

namespace Connectivity

variable {connectivity : Connectivity} {region region' : Set Pixel} {p q : Pixel} {x x' y y' : ℤ}

theorem component_mono (h : region ⊆ region') :
    connectivity.component region p ⊆ connectivity.component region' p := by
  apply Relation.ReflTransGen.mono
  intro a b hstep
  exact ⟨hstep.1, h hstep.2⟩

theorem mem_component_of_le_row (hle : x ≤ x')
    (h : ∀ t, x ≤ t → t ≤ x' → (t, y) ∈ region) :
    (x', y) ∈ connectivity.component region (x, y) := by
  induction x', hle using Int.leInduction with
  | base => exact mem_component_self
  | succ x' hle ih =>
    have hadj := connectivity.adjacent_across ⟨x', y, .right⟩
    rw [Position.across_right rfl] at hadj
    exact mem_component_of_adjacent (ih fun t hxt htx ↦ h t hxt (by omega)) hadj
      (h _ (by omega) le_rfl)

theorem mem_component_of_le_column (hle : y ≤ y')
    (h : ∀ t, y ≤ t → t ≤ y' → (x, t) ∈ region) :
    (x, y') ∈ connectivity.component region (x, y) := by
  induction y', hle using Int.leInduction with
  | base => exact mem_component_self
  | succ y' hle ih =>
    have hacross : (⟨x, y', .bottom⟩ : Position).across = (x, y' + 1) := by
      simp [Position.across, Side.outward]
    have hadj := connectivity.adjacent_across ⟨x, y', .bottom⟩
    rw [hacross] at hadj
    exact mem_component_of_adjacent (ih fun t hyt hty ↦ h t hyt (by omega)) hadj
      (h _ (by omega) le_rfl)

theorem mem_component_of_row (h : ∀ t, (t, y) ∈ region) (x x' : ℤ) :
    (x', y) ∈ connectivity.component region (x, y) := by
  rcases le_total x x' with hle | hle
  · exact mem_component_of_le_row hle fun t _ _ ↦ h t
  · exact mem_component_symm (h x') (mem_component_of_le_row hle fun t _ _ ↦ h t)

theorem mem_component_of_column (h : ∀ t, (x, t) ∈ region) (y y' : ℤ) :
    (x, y') ∈ connectivity.component region (x, y) := by
  rcases le_total y y' with hle | hle
  · exact mem_component_of_le_column hle fun t _ _ ↦ h t
  · exact mem_component_symm (h y') (mem_component_of_le_column hle fun t _ _ ↦ h t)

/-- What neighbours lead to, around a region, from beyond the first corner of the rectangle. -/
def exterior (connectivity : Connectivity) (region : Set Pixel) : Set Pixel :=
  connectivity.component regionᶜ (-1, -1)

theorem mem_exterior_of_adjacent (hp : p ∈ connectivity.exterior region)
    (hadj : connectivity.Adjacent p q) (hq : q ∉ region) : q ∈ connectivity.exterior region :=
  mem_component_of_adjacent hp hadj hq

/-- The component of a pixel that leads to the exterior belongs to it. -/
theorem mem_exterior_of_mem_component (hp : p ∉ region)
    (hq : q ∈ connectivity.component regionᶜ p) (hout : q ∈ connectivity.exterior region) :
    p ∈ connectivity.exterior region :=
  Relation.ReflTransGen.trans hout (mem_component_symm hp hq)

/-- The one component of a region that does not end. -/
structure IsUnboundedComponent (connectivity : Connectivity) (region D : Set Pixel) : Prop where
  mem_components : D ∈ connectivity.components region
  infinite : D.Infinite
  unique : ∀ D' ∈ connectivity.components region, D'.Infinite → D' = D

end Connectivity

namespace Mask

variable {mask : Mask} {connectivity : Connectivity} {R : Set Pixel} {p r : Pixel}

theorem finite_contains (mask : Mask) : {p : Pixel | mask.Contains p.1 p.2}.Finite :=
  Set.Finite.of_injOn (fun _ hp ↦ Set.mem_Iio.2 (index_lt_size hp)) mask.index_injOn
    (Set.finite_Iio mask.size)

/-- The pixel from which exteriors are reached. -/
theorem not_contains_origin (mask : Mask) : ¬ mask.Contains (-1) (-1) := fun h ↦
  absurd h.1 (by decide)

/-- A region of pixels of the rectangle. -/
def Bounds (mask : Mask) (R : Set Pixel) : Prop :=
  ∀ p ∈ R, mask.Contains p.1 p.2

theorem bounds_of_subset (h : R ⊆ mask.objectPixels) : mask.Bounds R := fun _ hp ↦
  contains_of_mem_objectPixels (h hp)

theorem bounds_hole (hU : R ∈ mask.holes connectivity) : mask.Bounds R := fun _ hp ↦
  (Connectivity.eq_component_of_mem hU.1 hp).1.1

namespace Bounds

/-- All that lies outside of the rectangle lies in the exterior. -/
theorem mem_exterior_of_not_contains (hR : mask.Bounds R) (hp : ¬ mask.Contains p.1 p.2) :
    p ∈ connectivity.exterior R := by
  obtain ⟨x, y⟩ := p
  have hrow (y : ℤ) (hy : y < 0 ∨ mask.height ≤ y) (x : ℤ) : (x, y) ∈ Rᶜ := fun hmem ↦ by
    have hc := hR _ hmem
    unfold Contains at hc
    omega
  have hcolumn (x : ℤ) (hx : x < 0 ∨ mask.width ≤ x) (y : ℤ) : (x, y) ∈ Rᶜ := fun hmem ↦ by
    have hc := hR _ hmem
    unfold Contains at hc
    omega
  by_cases hx : x < 0 ∨ mask.width ≤ x
  · exact Relation.ReflTransGen.trans
      (Connectivity.mem_component_of_row (hrow (-1) (.inl (by decide))) (-1) x)
      (Connectivity.mem_component_of_column (hcolumn x hx) (-1) y)
  · have hy : y < 0 ∨ mask.height ≤ y := by
      unfold Contains at hp
      simp only at hp
      omega
    exact Relation.ReflTransGen.trans
      (Connectivity.mem_component_of_column (hcolumn (-1) (.inl (by decide))) (-1) y)
      (Connectivity.mem_component_of_row (hrow y hy) (-1) x)

theorem origin_not_mem (hR : mask.Bounds R) : ((-1, -1) : Pixel) ∈ Rᶜ := fun hmem ↦
  mask.not_contains_origin (hR _ hmem)

theorem not_mem_of_mem_exterior (hR : mask.Bounds R) (hp : p ∈ connectivity.exterior R) :
    p ∉ R :=
  Connectivity.component_subset hR.origin_not_mem hp

theorem infinite_exterior (hR : mask.Bounds R) : (connectivity.exterior R).Infinite := by
  refine Set.infinite_of_injective_forall_mem (f := fun n : ℕ ↦ ((-1 - n, -1) : Pixel)) ?_ ?_
  · intro m n h
    have hfst := congrArg Prod.fst h
    simp only at hfst
    omega
  · intro n
    exact hR.mem_exterior_of_not_contains fun h ↦ absurd h.2.2.1 (by simp)

theorem isUnboundedComponent_exterior (connectivity : Connectivity) (hR : mask.Bounds R) :
    connectivity.IsUnboundedComponent Rᶜ (connectivity.exterior R) := by
  refine ⟨⟨_, hR.origin_not_mem, rfl⟩, hR.infinite_exterior, ?_⟩
  intro D hD hinfinite
  -- an infinite component leaves the rectangle
  obtain ⟨q, hq, hout⟩ := Set.not_subset.1 fun hsubset ↦
    hinfinite (mask.finite_contains.subset hsubset)
  have hmem : q ∈ connectivity.exterior R := hR.mem_exterior_of_not_contains hout
  obtain ⟨-, hD⟩ := Connectivity.eq_component_of_mem hD hq
  rw [hD]
  exact Connectivity.component_eq_of_mem hR.origin_not_mem hmem

/-- Nothing lies before the first pixel of a region. -/
theorem mem_exterior_of_isRasterFirst (connectivity : Connectivity) (hR : mask.Bounds R)
    (hr : IsRasterFirst r R) :
    (r.1 - 1, r.2) ∈ connectivity.exterior R := by
  have hbefore (t : ℤ) (ht : t ≤ r.1 - 1) : (t, r.2) ∈ Rᶜ := fun hmem ↦ by
    have hfirst := hr.2 _ hmem
    simp only at hfirst
    omega
  have hx : -1 ≤ r.1 - 1 := by
    have hcontains := hR _ hr.1
    unfold Contains at hcontains
    omega
  have hout : ((-1, r.2) : Pixel) ∈ connectivity.exterior R :=
    hR.mem_exterior_of_not_contains fun h ↦ absurd h.1 (by simp)
  exact Relation.ReflTransGen.trans hout
    (Connectivity.mem_component_of_le_row hx fun t _ ht ↦ hbefore t ht)

/-- A function that is zero outside of the rectangle, constant on the region, and changes only on
the way between the region and its exterior, tells the exterior from the rest. -/
theorem mem_exterior_iff {f : Pixel → ℤ} {c : ℤ} (hR : mask.Bounds R) (hc : c ≠ 0)
    (hzero : ∀ p, ¬ mask.Contains p.1 p.2 → f p = 0) (hinside : ∀ p ∈ R, f p = c)
    (hadjacent : ∀ a b, a ∉ R → b ∉ R → connectivity.Adjacent a b → f b = f a)
    (hbeside : ∀ x y, (x, y) ∈ R → (x + 1, y) ∉ R → (x + 1, y) ∉ connectivity.exterior R →
      f (x + 1, y) = c) : p ∈ connectivity.exterior R ↔ f p = 0 := by
  constructor
  · intro hp
    calc
      f p = f (-1, -1) := Connectivity.eq_of_mem_component f hR.origin_not_mem hadjacent hp
      _ = 0 := hzero _ mask.not_contains_origin
  · contrapose
    intro hp
    by_cases hmem : p ∈ R
    · rw [hinside p hmem]
      exact hc
    -- a bounded component has the region to the left of its first pixel
    have hbounded : ∀ q ∈ connectivity.component Rᶜ p, mask.Contains q.1 q.2 := fun q hq ↦ by
      by_contra hout
      exact hp (Connectivity.mem_exterior_of_mem_component hmem hq
        (hR.mem_exterior_of_not_contains hout))
    obtain ⟨⟨x, y⟩, hr, hfirst⟩ := exists_isRasterFirst
      ⟨p, Connectivity.mem_component_self⟩ hbounded
    have hright : (⟨x - 1, y, .right⟩ : Position).across = (x, y) := by
      simp [Position.across, Side.outward]
    have hleft : (x - 1, y) ∈ R := by
      by_contra hnot
      have hadj := (connectivity.adjacent_across ⟨x - 1, y, .right⟩).symm
      rw [hright] at hadj
      have hearlier := hfirst _ (Connectivity.mem_component_of_adjacent hr hadj hnot)
      simp only [Position.pixel] at hearlier
      omega
    have hfr : f (x, y) = c := by
      have h := hbeside (x - 1) y hleft
      rw [Int.sub_add_cancel] at h
      exact h (Connectivity.component_subset hmem hr) fun hout ↦
        hp (Connectivity.mem_exterior_of_mem_component hmem hr hout)
    rw [← Connectivity.eq_of_mem_component f hmem hadjacent hr, hfr]
    exact hc

end Bounds

end Mask

end ContourTracing
