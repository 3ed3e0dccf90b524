import ContourTracing.Polyline
import ContourTracing.Proofs.Turning
import ContourTracing.Tally

/-!
# The shoelace formula around a circuit

To every side of a circuit belongs a point, and the polygon through these points has an area by
the shoelace formula. If the triangle between the origin and the points of two consecutive sides
depends on the columns of the sides and the kind of the step, up to something that cancels out
along a closed walk, then so does the area of the polygon.

Points are kept doubled.
-/

namespace ContourTracing

open Finset

namespace Polyline

theorem rotateLeft_map_range {α : Type*} {f : ℕ → α} {n : ℕ} (hn : 2 ≤ n) (hf : f n = f 0) :
    ((List.range n).map f).rotateLeft 1 = (List.range n).map fun i ↦ f (i + 1) := by
  obtain ⟨n, rfl⟩ : ∃ m, n = m + 1 := ⟨n - 1, by omega⟩
  have hmod : 1 % (n + 1) = 1 := Nat.mod_eq_of_lt hn
  have hlast : (List.range (n + 1)).map (fun i ↦ f (i + 1)) =
      (List.range n).map (fun i ↦ f (i + 1)) ++ [f 0] := by
    rw [List.range_succ, List.map_append, List.map_singleton, hf]
  rw [hlast, List.rotateLeft, List.length_map, List.length_range, if_neg (by omega), hmod,
    List.range_succ_eq_map, List.map_cons, List.map_map]
  rfl

theorem exactArea_map_range {f : ℕ → Point} {n : ℕ} (hn : 3 ≤ n) (hf : f n = f 0) :
    exactArea ((List.range n).map f) =
      1 / 2 * ∑ i ∈ range n, ((f i).1 * (f (i + 1)).2 - (f (i + 1)).1 * (f i).2) := by
  have hlength : ¬ ((List.range n).map f).length < 3 := by
    rw [List.length_map, List.length_range]
    omega
  rw [exactArea, area, if_neg hlength, sides, rotateLeft_map_range (by omega) hf, List.zip_map',
    List.map_map, List.map_map, ← List.sum_eq_foldl, ← List.sum_eq_foldl, sum_sub_distrib]
  rfl

end Polyline

/-- The doubled triangle between the origin and two points. -/
def cross (p q : ℤ × ℤ) : ℤ :=
  p.1 * q.2 - q.1 * p.2

/-- The point with half the coordinates. -/
def halved (p : ℤ × ℤ) : Point :=
  (p.1 / 2, p.2 / 2)

theorem cross_halved (p q : ℤ × ℤ) :
    (halved p).1 * (halved q).2 - (halved q).1 * (halved p).2 = (cross p q : ℚ) / 4 := by
  simp only [halved, cross]
  push_cast
  ring

theorem sum_range_add_of_periodic {g : ℕ → ℤ} {n : ℕ} (h : ∀ i, g (i + n) = g i) (k : ℕ) :
    ∑ i ∈ range n, g (i + k) = ∑ i ∈ range n, g i := by
  induction k with
  | zero => rfl
  | succ k ih =>
    have hshift := sum_range_succ_of_periodic (g := fun i ↦ g (i + k)) (n := n) (by
      rw [Nat.add_comm n, h, Nat.zero_add])
    simp only [Nat.add_right_comm _ 1 k] at hshift
    exact hshift.trans ih

namespace Mask

variable {mask : Mask} {connectivity : Connectivity} {s : Position}

theorem walk_add_period (mask : Mask) (connectivity : Connectivity) (s : Position) (n : ℕ) :
    mask.walk connectivity s (n + mask.period connectivity s) = mask.walk connectivity s n := by
  rw [Nat.add_comm, walk_period_add]

/-- The shoelace formula for the points that belong to the sides of a circuit, from any one on. -/
theorem exactArea_map_walk (h : mask.IsBoundary s) (f : Position → ℤ × ℤ) (k : ℕ) :
    let w := mask.walk connectivity s
    Polyline.exactArea ((List.range (mask.period connectivity s)).map
        fun n ↦ halved (f (w (n + k)))) =
      ((∑ n ∈ range (mask.period connectivity s), cross (f (w n)) (f (w (n + 1))) : ℤ) : ℚ) /
        8 := by
  intro w
  have hperiod (n : ℕ) : w (n + mask.period connectivity s) = w n :=
    mask.walk_add_period connectivity s n
  have hclosed : halved (f (w (mask.period connectivity s + k))) = halved (f (w (0 + k))) := by
    rw [Nat.add_comm _ k, hperiod, Nat.zero_add]
  calc
    _ = 1 / 2 * ∑ n ∈ range (mask.period connectivity s),
        (cross (f (w (n + k))) (f (w (n + 1 + k))) : ℚ) / 4 := by
      rw [Polyline.exactArea_map_range (three_le_period h) hclosed]
      simp only [cross_halved]
    _ = ((∑ n ∈ range (mask.period connectivity s),
        cross (f (w (n + k))) (f (w (n + k + 1))) : ℤ) : ℚ) / 8 := by
      simp only [Nat.add_right_comm _ 1 k]
      push_cast
      rw [← sum_div]
      ring
    _ = _ := by
      rw [sum_range_add_of_periodic (g := fun n ↦ cross (f (w n)) (f (w (n + 1))))
        (fun n ↦ by rw [hperiod, Nat.add_right_comm, hperiod]) k]

/-- The triangles of all steps around a circuit, without what cancels out. -/
theorem sum_cross_walk (f : Position → ℤ × ℤ) (bias : Position → ℤ) (a b : ℤ)
    (weight : Turn → ℤ)
    (h : ∀ s turn, cross (f s) (f (s.move (s.side.step turn))) = a * Tally.areaAt s +
      b * Tally.areaAt (s.move (s.side.step turn)) - weight turn +
        (bias (s.move (s.side.step turn)) - bias s))
    (mask : Mask) (connectivity : Connectivity) (s : Position) :
    let w := mask.walk connectivity s
    ∑ n ∈ range (mask.period connectivity s), cross (f (w n)) (f (w (n + 1))) =
      (a + b) * ((mask.circuit connectivity s).map Tally.areaAt).sum -
        ∑ n ∈ range (mask.period connectivity s), weight (mask.chooseTurn connectivity (w n)) := by
  intro w
  have hshift (g : Position → ℤ) : ∑ n ∈ range (mask.period connectivity s), g (w (n + 1)) =
      ∑ n ∈ range (mask.period connectivity s), g (w n) :=
    sum_range_succ_of_periodic (g := fun n ↦ g (w n))
      (congrArg g (mask.walk_period connectivity s))
  have hstep (n : ℕ) : cross (f (w n)) (f (w (n + 1))) =
      a * Tally.areaAt (w n) + b * Tally.areaAt (w (n + 1)) -
        weight (mask.chooseTurn connectivity (w n)) + (bias (w (n + 1)) - bias (w n)) := by
    simp only [w, walk_succ]
    exact h (mask.walk connectivity s n) _
  calc
    _ = ∑ n ∈ range (mask.period connectivity s),
        (a * Tally.areaAt (w n) + b * Tally.areaAt (w (n + 1)) -
          weight (mask.chooseTurn connectivity (w n)) + (bias (w (n + 1)) - bias (w n))) :=
      sum_congr rfl fun n _ ↦ hstep n
    _ = (a + b) * ∑ n ∈ range (mask.period connectivity s), Tally.areaAt (w n) -
        ∑ n ∈ range (mask.period connectivity s), weight (mask.chooseTurn connectivity (w n)) := by
      simp only [sum_add_distrib, sum_sub_distrib, ← mul_sum, hshift]
      ring
    _ = _ := by rw [sum_map_circuit]

end Mask

end ContourTracing
