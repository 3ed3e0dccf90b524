import Mathlib.Analysis.Convex.Segment
import Mathlib.Data.List.Rotate
import ContourTracing.Proofs.ContourLength

/-!
# Measures of closed polylines

The area and the length of a closed polyline are sums over its sides, also when there are so few
points that both are zero without a sum. What holds of any such sum therefore holds of both: it does
not depend on the point from which the sides are counted, the reversed polyline has the reversed
sides, and a point put between two others replaces their side by two. So neither measure depends on
where the polyline begins, on where it lies, or on points along its sides; and going around the
other way negates the area and keeps the length.
-/

namespace ContourTracing.Polyline

/-! ## Sides -/

section Sides

variable {α β : Type} {points : List α}

theorem rotateLeft_one (points : List α) : points.rotateLeft 1 = points.rotate 1 := by
  by_cases hshort : points.length ≤ 1
  · rw [List.rotateLeft, if_pos hshort]
    obtain _ | ⟨point, _ | _⟩ := points
    · rfl
    · exact (List.rotate_singleton ..).symm
    · simp at hshort
  · rw [List.rotateLeft, if_neg hshort, List.rotate_eq_drop_append_take_mod]

theorem sides_eq (points : List α) : sides points = points.zipWith Prod.mk (points.rotate 1) := by
  rw [sides, rotateLeft_one, List.zip_eq_zipWith]

theorem sides_rotate (points : List α) (n : ℕ) :
    sides (points.rotate n) = (sides points).rotate n := by
  rw [sides_eq, sides_eq, List.rotate_rotate, Nat.add_comm, ← List.rotate_rotate,
    List.zipWith_rotate_distrib _ _ _ _ (List.length_rotate ..).symm]

theorem sides_map (g : α → β) (points : List α) :
    sides (points.map g) = (sides points).map (Prod.map g g) := by
  rw [sides, sides, rotateLeft_one, rotateLeft_one, ← List.map_rotate, List.zip_map]

theorem map_fst_sides (points : List α) : (sides points).map Prod.fst = points := by
  rw [sides, rotateLeft_one, List.map_fst_zip (List.length_rotate ..).ge]

theorem map_snd_sides (points : List α) : (sides points).map Prod.snd = points.rotate 1 := by
  rw [sides, rotateLeft_one, List.map_snd_zip (List.length_rotate ..).le]

theorem reverse_rotate_one (points : List α) :
    (points.rotate 1).reverse.rotate 1 = points.reverse := by
  cases points with
  | nil => rfl
  | cons point points => simp

/-- The reversed polyline has the sides with their ends exchanged, in the reverse order. -/
theorem sides_reverse (points : List α) :
    sides points.reverse = ((sides points).reverse.rotate 1).map Prod.swap := by
  have hlength : points.length = (points.rotate 1).length := (List.length_rotate ..).symm
  have hreverse : points.reverse.length = (points.rotate 1).reverse.length := by
    rw [List.length_reverse, List.length_reverse, hlength]
  rw [sides_eq points, List.reverse_zipWith hlength, List.zipWith_rotate_distrib _ _ _ _ hreverse,
    reverse_rotate_one, ← List.zip_eq_zipWith, List.zip_swap, sides_eq, List.zip_eq_zipWith]

/-- The side from the last point to the first one comes after all others. -/
theorem sides_eq_concat {p q : α} (hlast : p ∈ points.getLast?) (hhead : q ∈ points.head?) :
    sides points = points.zip points.tail ++ [(p, q)] := by
  obtain ⟨rest, rfl⟩ := List.head?_eq_some_iff.1 hhead
  obtain ⟨front, hfront⟩ := List.getLast?_eq_some_iff.1 hlast
  have hlength : front.length = rest.length := by
    simpa using (congrArg List.length hfront).symm
  -- Behind the tail, the last point is the only one that still has no partner.
  have hzip (others : List α) :
      (q :: rest).zip (rest ++ others) = front.zip rest ++ [p].zip others := by
    rw [hfront, List.zip_append hlength]
  have hnone := hzip []
  rw [List.append_nil, List.zip_nil_right, List.append_nil] at hnone
  rw [sides, rotateLeft_one, List.rotate_cons_succ, List.rotate_zero, hzip, List.tail_cons, hnone]
  rfl

end Sides

/-! ## Sums over sides -/

section Sums

variable {α β γ : Type} [AddCommGroup γ] {points : List α}

/-- The sum over the sides of a closed polyline. -/
def sideSum (f : α → α → γ) (points : List α) : γ :=
  ((sides points).map fun side ↦ f side.1 side.2).sum

theorem sideSum_rotate (f : α → α → γ) (points : List α) (n : ℕ) :
    sideSum f (points.rotate n) = sideSum f points := by
  rw [sideSum, sides_rotate]
  exact ((List.rotate_perm ..).map _).sum_eq

theorem sideSum_map (f : β → β → γ) (g : α → β) (points : List α) :
    sideSum f (points.map g) = sideSum (fun p q ↦ f (g p) (g q)) points := by
  rw [sideSum, sides_map, List.map_map]
  rfl

theorem sideSum_reverse (f : α → α → γ) (points : List α) :
    sideSum f points.reverse = sideSum (fun p q ↦ f q p) points := by
  rw [sideSum, sides_reverse, List.map_map]
  exact (((List.rotate_perm ..).trans (List.reverse_perm _)).map _).sum_eq

theorem sideSum_add (f g : α → α → γ) (points : List α) :
    sideSum (fun p q ↦ f p q + g p q) points = sideSum f points + sideSum g points :=
  List.sum_map_add

theorem sideSum_neg (f : α → α → γ) (points : List α) :
    sideSum (fun p q ↦ -f p q) points = -sideSum f points := by
  rw [eq_neg_iff_add_eq_zero, ← sideSum_add]
  simp [sideSum]

theorem sideSum_sub (f g : α → α → γ) (points : List α) :
    sideSum (fun p q ↦ f p q - g p q) points = sideSum f points - sideSum g points := by
  simp only [sub_eq_add_neg, sideSum_add, sideSum_neg]

/-- What is gained along the sides is lost again by the time the polyline closes. -/
theorem sideSum_sub_self (height : α → γ) (points : List α) :
    sideSum (fun p q ↦ height q - height p) points = 0 := by
  have hends : sideSum (fun _ q ↦ height q) points = sideSum (fun p _ ↦ height p) points := by
    have hsnd : (sides points).map (fun side ↦ height side.2) = (points.rotate 1).map height := by
      rw [← map_snd_sides, List.map_map]
      rfl
    have hfst : (sides points).map (fun side ↦ height side.1) = points.map height := by
      rw [← congrArg (List.map height) (map_fst_sides points), List.map_map]
      rfl
    rw [sideSum, sideSum, hsnd, hfst]
    exact ((points.rotate_perm 1).map height).sum_eq
  rw [sideSum_sub, hends, sub_self]

/-- A point that is put in front replaces the side between the last point and the first one. -/
theorem sideSum_cons (f : α → α → γ) {p q : α} (r : α) (hlast : p ∈ points.getLast?)
    (hhead : q ∈ points.head?) :
    sideSum f (r :: points) = sideSum f points - f p q + (f p r + f r q) := by
  have hlast' : p ∈ (r :: points).getLast? := by
    rw [List.getLast?_cons, Option.mem_def.1 hlast]
    rfl
  obtain ⟨rest, rfl⟩ := List.head?_eq_some_iff.1 hhead
  rw [sideSum, sideSum, sides_eq_concat hlast hhead, sides_eq_concat hlast' rfl, List.tail_cons,
    List.tail_cons, List.zip_cons_cons]
  simp only [List.map_append, List.map_cons, List.map_nil, List.sum_append, List.sum_cons,
    List.sum_nil]
  abel

/-- A point that is put in anywhere replaces the side between the points around it. -/
theorem sideSum_insert (f : α → α → γ) {front back : List α} {p q : α} (r : α)
    (hlast : p ∈ (back ++ front).getLast?) (hhead : q ∈ (back ++ front).head?) :
    sideSum f (front ++ r :: back) = sideSum f (front ++ back) - f p q + (f p r + f r q) := by
  -- Counted from the gap on, the point is put in front.
  rw [← sideSum_rotate f (front ++ r :: back) front.length,
    ← sideSum_rotate f (front ++ back) front.length, List.rotate_append_length_eq,
    List.rotate_append_length_eq, List.cons_append, sideSum_cons f r hlast hhead]

end Sums

/-! ## Areas -/

/-- Twice the signed area of the triangle between the origin and a side. -/
def triangle (p q : Point) : ℚ :=
  p.1 * q.2 - q.1 * p.2

theorem triangle_swap (p q : Point) : triangle q p = -triangle p q := by
  simp only [triangle]
  ring

theorem triangle_add (v p q : Point) : triangle (p + v) (q + v) =
    triangle p q + ((v.1 * q.2 - q.1 * v.2) - (v.1 * p.2 - p.1 * v.2)) := by
  simp only [triangle, Prod.fst_add, Prod.snd_add]
  ring

theorem triangle_segment {p q r : Point} (h : r ∈ segment ℚ p q) :
    triangle p r + triangle r q = triangle p q := by
  rw [segment_eq_image'] at h
  obtain ⟨t, -, rfl⟩ := h
  simp only [triangle, Prod.fst_add, Prod.snd_add, Prod.smul_fst, Prod.smul_snd, Prod.fst_sub,
    Prod.snd_sub, smul_eq_mul]
  ring

theorem sideSum_triangle_eq_zero {points : List Point} (h : points.length < 3) :
    sideSum triangle points = 0 := by
  obtain _ | ⟨p, _ | ⟨q, _ | _⟩⟩ := points
  · rfl
  · simp [sideSum, sides_eq, triangle]
  · simp [sideSum, sides_eq, triangle]
  · simp only [List.length_cons] at h
    omega

/-- The points that are too few for an area have none by the sum, too. -/
theorem exactArea_eq (points : List Point) :
    exactArea points = 1 / 2 * sideSum triangle points := by
  rw [exactArea, area]
  split
  · next hshort => rw [sideSum_triangle_eq_zero hshort, mul_zero]
  · rw [← List.sum_eq_foldl, ← List.sum_eq_foldl]
    exact congrArg (1 / 2 * ·) (sideSum_sub (fun p q ↦ p.1 * q.2) (fun p q ↦ q.1 * p.2) points).symm

theorem exactArea_rotate (points : List Point) (n : ℕ) :
    exactArea (points.rotate n) = exactArea points := by
  rw [exactArea_eq, exactArea_eq, sideSum_rotate]

theorem exactArea_reverse (points : List Point) : exactArea points.reverse = -exactArea points := by
  have hswap : (fun p q ↦ triangle q p) = fun p q ↦ -triangle p q := by
    funext p q
    exact triangle_swap p q
  rw [exactArea_eq, exactArea_eq, sideSum_reverse, hswap, sideSum_neg, mul_neg]

theorem exactArea_translate (v : Point) (points : List Point) :
    exactArea (points.map (· + v)) = exactArea points := by
  rw [exactArea_eq, exactArea_eq, sideSum_map]
  simp only [triangle_add, sideSum_add, sideSum_sub_self, add_zero]

theorem exactArea_insert {front back : List Point} {p q r : Point}
    (hlast : p ∈ (back ++ front).getLast?) (hhead : q ∈ (back ++ front).head?)
    (hr : r ∈ segment ℚ p q) : exactArea (front ++ r :: back) = exactArea (front ++ back) := by
  rw [exactArea_eq, exactArea_eq, sideSum_insert triangle r hlast hhead, triangle_segment hr,
    sub_add_cancel]

/-! ## Lengths -/

noncomputable def distance (p q : Point) : ℝ :=
  norm (q.1 - p.1) (q.2 - p.2)

theorem distance_self (p : Point) : distance p p = 0 := by
  simp [distance, norm]

theorem distance_comm (p q : Point) : distance q p = distance p q := by
  simp only [distance, norm]
  push_cast
  ring_nf

theorem distance_add (v p q : Point) : distance (p + v) (q + v) = distance p q := by
  simp only [distance, Prod.fst_add, Prod.snd_add, add_sub_add_right_eq_sub]

theorem norm_mul {a : ℚ} (ha : 0 ≤ a) (dx dy : ℚ) : norm (a * dx) (a * dy) = a * norm dx dy := by
  have hsquare : ((a * dx : ℚ) : ℝ) ^ 2 + ((a * dy : ℚ) : ℝ) ^ 2 =
      (a : ℝ) ^ 2 * ((dx : ℝ) ^ 2 + (dy : ℝ) ^ 2) := by
    push_cast
    ring
  have ha' : (0 : ℝ) ≤ a := Rat.cast_nonneg.2 ha
  rw [norm, hsquare, Real.sqrt_mul (sq_nonneg _), Real.sqrt_sq ha', norm]

theorem distance_of_smul {a : ℚ} (ha : 0 ≤ a) {p q p' q' : Point} (h : q' - p' = a • (q - p)) :
    distance p' q' = a * distance p q := by
  have hfst : q'.1 - p'.1 = a * (q.1 - p.1) := congrArg Prod.fst h
  have hsnd : q'.2 - p'.2 = a * (q.2 - p.2) := congrArg Prod.snd h
  rw [distance, distance, hfst, hsnd, norm_mul ha]

theorem distance_segment {p q r : Point} (h : r ∈ segment ℚ p q) :
    distance p r + distance r q = distance p q := by
  rw [segment_eq_image'] at h
  obtain ⟨t, ⟨hzero, hone⟩, rfl⟩ := h
  have hbefore : distance p (p + t • (q - p)) = t * distance p q :=
    distance_of_smul hzero (add_sub_cancel_left ..)
  have hbehind : distance (p + t • (q - p)) q = (1 - t : ℚ) * distance p q :=
    distance_of_smul (sub_nonneg.2 hone) (by rw [sub_smul, one_smul, sub_sub])
  rw [hbefore, hbehind]
  push_cast
  ring

/-- A single point has only the side to itself. -/
theorem exactLength_eq (points : List Point) : exactLength points = sideSum distance points := by
  by_cases hlength : 2 ≤ points.length
  · exact (sum_sideLengths hlength).symm
  · have hshort : points.length < 2 := by omega
    rw [exactLength, length, if_pos hshort]
    obtain _ | ⟨p, _ | _⟩ := points
    · rfl
    · simp [sideSum, sides_eq, distance_self]
    · simp at hshort

theorem exactLength_rotate (points : List Point) (n : ℕ) :
    exactLength (points.rotate n) = exactLength points := by
  rw [exactLength_eq, exactLength_eq, sideSum_rotate]

theorem exactLength_reverse (points : List Point) :
    exactLength points.reverse = exactLength points := by
  have hswap : (fun p q ↦ distance q p) = distance := by
    funext p q
    exact distance_comm p q
  rw [exactLength_eq, exactLength_eq, sideSum_reverse, hswap]

theorem exactLength_translate (v : Point) (points : List Point) :
    exactLength (points.map (· + v)) = exactLength points := by
  rw [exactLength_eq, exactLength_eq, sideSum_map]
  simp only [distance_add]

theorem exactLength_insert {front back : List Point} {p q r : Point}
    (hlast : p ∈ (back ++ front).getLast?) (hhead : q ∈ (back ++ front).head?)
    (hr : r ∈ segment ℚ p q) : exactLength (front ++ r :: back) = exactLength (front ++ back) := by
  rw [exactLength_eq, exactLength_eq, sideSum_insert distance r hlast hhead, distance_segment hr,
    sub_add_cancel]

/-! ## Points along the sides -/

/-- The point lies on the side that leads across the gap between two parts of a closed polyline:
from the last point before the gap to the first one after it. Where the second part has no points,
the first one follows; where the first part has none, the second one precedes. -/
def FitsBetween (front back : List Point) (r : Point) : Prop :=
  ∃ p ∈ (back ++ front).getLast?, ∃ q ∈ (back ++ front).head?, r ∈ segment ℚ p q

/-- Area and length do not depend on the point where a closed polyline begins, on its place in the
plane or on points along its sides. Backward, the area is negated and the length is the same. -/
theorem exactArea_exactLength_invariant (points : List Point) :
    (∀ n, exactArea (points.rotate n) = exactArea points ∧
        exactLength (points.rotate n) = exactLength points) ∧
      (∀ v : Point, exactArea (points.map (· + v)) = exactArea points ∧
        exactLength (points.map (· + v)) = exactLength points) ∧
      exactArea points.reverse = -exactArea points ∧
      exactLength points.reverse = exactLength points ∧
      ∀ front back r, points = front ++ back → FitsBetween front back r →
        exactArea (front ++ r :: back) = exactArea points ∧
          exactLength (front ++ r :: back) = exactLength points := by
  refine ⟨fun n ↦ ⟨exactArea_rotate points n, exactLength_rotate points n⟩,
    fun v ↦ ⟨exactArea_translate v points, exactLength_translate v points⟩,
    exactArea_reverse points, exactLength_reverse points, ?_⟩
  rintro front back r rfl ⟨p, hlast, q, hhead, hr⟩
  exact ⟨exactArea_insert hlast hhead hr, exactLength_insert hlast hhead hr⟩

/-- A third point on the side back to the first of two points. -/
theorem exactArea_exactLength_invariant_closing :
    FitsBetween [(0, 0), (3, 1)] [] (1, 1 / 3) ∧
      exactArea [(0, 0), (3, 1), (1, 1 / 3)] = exactArea [(0, 0), (3, 1)] ∧
      exactLength [(0, 0), (3, 1), (1, 1 / 3)] = exactLength [(0, 0), (3, 1)] := by
  have hfits : FitsBetween [(0, 0), (3, 1)] [] (1, 1 / 3) :=
    ⟨(3, 1), rfl, (0, 0), rfl, 1 / 3, 2 / 3, by norm_num, by norm_num, by norm_num, by norm_num⟩
  obtain ⟨-, -, -, -, hinsert⟩ := exactArea_exactLength_invariant [(0, 0), (3, 1)]
  exact ⟨hfits, hinsert [(0, 0), (3, 1)] [] (1, 1 / 3) rfl hfits⟩

end ContourTracing.Polyline
