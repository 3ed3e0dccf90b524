import Mathlib.Combinatorics.Colex
import ContourTracing.Proofs.FilledBuffer

/-!
# Filling once more

When the buffer is filled, the set pixels are marked, and a marked cell between two of them is no
closing bracket any more. Another filling takes it for one all the same. It clears the first
marked cell behind each set pixel and marks the cells before it, so that the marks between two set
pixels of a row, as a binary number with its lowest digit first, are counted down. When there is
no mark left between them, the filling clears the mark of the second pixel and stops there, as if
another object began.
-/

namespace ContourTracing

open Finset

/-! ## Gaps of a row -/

/-- Two set pixels of a row with nothing set in between, by their raster numbers. -/
structure Mask.IsGap (mask : Mask) (a b : ℕ) : Prop where
  lt : a < b
  same_row : a / mask.width = b / mask.width
  bit_left : mask.bit a = true
  bit_right : mask.bit b = true
  bit_between : ∀ k, a < k → k < b → mask.bit k = false

namespace Mask

variable {mask : Mask} {a b k : ℕ} {p q : Pixel}

theorem lt_size_of_bit (h : mask.bit k = true) : k < mask.size := by
  by_contra hge
  rw [bit_eq_false_of_size_le (not_lt.1 hge)] at h
  cases h

theorem width_pos_of_bit (h : mask.bit k = true) : 0 < mask.width :=
  Nat.pos_of_mul_pos_right (Nat.zero_lt_of_lt (lt_size_of_bit h))

theorem lt_rowEnd_of_bit (h : mask.bit k = true) : k < (k / mask.width + 1) * mask.width :=
  Nat.lt_mul_of_div_lt (Nat.lt_succ_self _) (width_pos_of_bit h)

theorem exists_isGap_of_lt (hp : p ∈ mask.objectPixels) (hq : q ∈ mask.objectPixels)
    (hrow : p.2 = q.2) (hlt : mask.index p.1 p.2 < mask.index q.1 q.2) :
    ∃ b, mask.IsGap (mask.index p.1 p.2) b := by
  have hcontains := contains_of_mem_objectPixels hp
  have hcontains' := contains_of_mem_objectPixels hq
  have hset : mask.bit (mask.index p.1 p.2) = true := (bit_index hcontains).trans hp
  have hset' : mask.bit (mask.index q.1 q.2) = true := (bit_index hcontains').trans hq
  have hexists : ∃ k, mask.index p.1 p.2 < k ∧ mask.bit k = true := ⟨_, hlt, hset'⟩
  obtain ⟨hgt, hfound⟩ := Nat.find_spec hexists
  have hle : Nat.find hexists ≤ mask.index q.1 q.2 := Nat.find_min' hexists ⟨hlt, hset'⟩
  refine ⟨Nat.find hexists, hgt, ?_, hset, hfound, fun k hk hless ↦ ?_⟩
  · have hfrom := Nat.div_le_div_right (c := mask.width) hgt.le
    have hto := Nat.div_le_div_right (c := mask.width) hle
    have hsame : mask.index p.1 p.2 / mask.width = mask.index q.1 q.2 / mask.width := by
      rw [index_div_width hcontains, index_div_width hcontains', hrow]
    omega
  · by_contra hk'
    exact Nat.find_min hexists hless ⟨hk, Bool.of_not_eq_false hk'⟩

theorem IsGap.exists_pixels (h : mask.IsGap a b) :
    ∃ p ∈ mask.objectPixels, ∃ q ∈ mask.objectPixels,
      mask.index p.1 p.2 = a ∧ mask.index q.1 q.2 = b ∧ p.2 = q.2 := by
  obtain ⟨p, hp, rfl⟩ := exists_index_eq (lt_size_of_bit h.bit_left)
  obtain ⟨q, hq, rfl⟩ := exists_index_eq (lt_size_of_bit h.bit_right)
  have hrow := h.same_row
  rw [index_div_width hp, index_div_width hq] at hrow
  have hy := hp.2.2.1
  have hy' := hq.2.2.1
  exact ⟨p, (bit_index hp).symm.trans h.bit_left, q, (bit_index hq).symm.trans h.bit_right, rfl,
    rfl, by omega⟩

theorem le_of_forall_bit_eq_false {first stop : ℕ} (hset : mask.bit k = true) (hlt : first < k)
    (hunset : ∀ j, first < j → j < stop → mask.bit j = false) : stop ≤ k := by
  by_contra hless
  have hmiss := hunset k hlt (not_le.1 hless)
  rw [hset] at hmiss
  cases hmiss

/-- A gap that begins before the next set pixel ends there. -/
theorem IsGap.eq_of_lt {first next : ℕ} (h : mask.IsGap a b) (hle : first ≤ a) (hlt : a < next)
    (hnext : mask.bit next = true)
    (hunset : ∀ k, first < k → k < next → mask.bit k = false) : a = first ∧ b = next := by
  have hfrom : next ≤ b := le_of_forall_bit_eq_false h.bit_right (hle.trans_lt h.lt) hunset
  have hto : b ≤ next := le_of_forall_bit_eq_false hnext hlt h.bit_between
  refine ⟨le_antisymm ?_ hle, le_antisymm hto hfrom⟩
  by_contra hless
  exact hlt.not_ge (le_of_forall_bit_eq_false h.bit_left (not_le.1 hless) hunset)

end Mask

/-! ## The filling of marked pixels -/

namespace Cells

variable {mask : Mask} {cells other : Cells} {a b c first k : ℕ}

/-- All set pixels from a number on are marked. -/
def MarksFrom (cells : Cells) (mask : Mask) (first : ℕ) : Prop :=
  ∀ k, first ≤ k → mask.bit k = true → cells.isMarked k = true

/-- The marks between two cells as a binary number. -/
def number (cells : Cells) (a b : ℕ) : ℕ :=
  ∑ k ∈ Ioo a b with cells.isMarked k = true, 2 ^ k

theorem number_congr (h : ∀ k, a < k → k < b → other.isMarked k = cells.isMarked k) :
    other.number a b = cells.number a b := by
  apply sum_congr _ fun _ _ ↦ rfl
  apply filter_congr
  intro k hk
  rw [h k (mem_Ioo.1 hk).1 (mem_Ioo.1 hk).2]

/-- A number gets smaller when a digit is cleared, whatever happens to lower digits. -/
theorem number_lt (hac : a < c) (hcb : c < b) (hmarked : cells.isMarked c = true)
    (hcleared : other.isMarked c = false)
    (hbelow : ∀ k, a < k → k < b → other.isMarked k = true → cells.isMarked k = false → k < c) :
    other.number a b < cells.number a b := by
  apply (geomSum_lt_geomSum_iff_toColex_lt_toColex le_rfl).2
  apply Colex.toColex_lt_toColex_iff_exists_forall_lt.2
  refine ⟨c, ?_, ?_, fun k hk hk' ↦ ?_⟩
  · exact mem_filter.2 ⟨mem_Ioo.2 ⟨hac, hcb⟩, hmarked⟩
  · simp [hcleared]
  · obtain ⟨hmem, hother⟩ := mem_filter.1 hk
    have hunmarked : cells.isMarked k = false := by
      by_contra hset
      exact hk' (mem_filter.2 ⟨hmem, Bool.of_not_eq_false hset⟩)
    exact hbelow k (mem_Ioo.1 hmem).1 (mem_Ioo.1 hmem).2 hother hunmarked

/-! ### One row -/

theorem lt_fillRow_snd (cells : Cells) (h : mask.bit k = true) : k < (cells.fillRow mask k).2 :=
  cells.lt_fillRow_snd_of_width_pos (Mask.width_pos_of_bit h) k

theorem isMarked_fillRow_of_ne (hne : k ≠ (cells.fillRow mask a).2)
    (h : cells.isMarked k = true) : (cells.fillRow mask a).1.isMarked k = true := by
  obtain ⟨-, hcases⟩ := cells.fillRow_cases mask a
  refine (cells.isMarked_fillRow_iff mask a k).2 (.inr ⟨?_, h⟩)
  rcases hcases with ⟨hfirst, -⟩ | ⟨hfirst, -⟩
  · rw [hfirst]
    exact fun heq ↦ hne (Option.some.inj heq).symm
  · rw [hfirst]
    exact (Option.some_ne_none k).symm

theorem isMarked_of_isMarked_fillRow (hout : k ≤ a ∨ (cells.fillRow mask a).2 ≤ k)
    (h : (cells.fillRow mask a).1.isMarked k = true) : cells.isMarked k = true := by
  rcases (cells.isMarked_fillRow_iff mask a k).1 h with ⟨hlt, hlt', -⟩ | ⟨-, hmarked⟩
  · omega
  · exact hmarked

/-- Outside of the stretch that is filled nothing changes. -/
theorem isMarked_fillRow_of_lt (hset : mask.bit a = true)
    (hout : k ≤ a ∨ (cells.fillRow mask a).2 < k) :
    (cells.fillRow mask a).1.isMarked k = cells.isMarked k := by
  have hlt := cells.lt_fillRow_snd hset
  rw [Bool.eq_iff_iff]
  constructor
  · exact isMarked_of_isMarked_fillRow (hout.imp_right le_of_lt)
  · exact isMarked_fillRow_of_ne (by omega)

/-- The stretch ends at the closing bracket, which is cleared, or with the row. -/
theorem fillRow_snd_cases (cells : Cells) (mask : Mask) (a : ℕ) :
    let stop := (cells.fillRow mask a).2
    (stop < (a / mask.width + 1) * mask.width ∧ cells.isMarked stop = true ∧
        (cells.fillRow mask a).1.isMarked stop = false) ∨
      (stop = (a / mask.width + 1) * mask.width ∧
        ∀ k, cells.isMarked k = true → (cells.fillRow mask a).1.isMarked k = true) := by
  intro stop
  obtain ⟨-, ⟨hfirst, -⟩ | ⟨hfirst, hstop⟩⟩ := cells.fillRow_cases mask a
  · have hclosing := hfirst
    rw [Search.first_eq_firstOf, Search.firstOf_eq_some_iff] at hclosing
    obtain ⟨hle, hlt, hmarked, -⟩ := hclosing
    refine .inl ⟨by omega, hmarked, ?_⟩
    rw [← Bool.not_eq_true, isMarked_fillRow_iff]
    rintro (⟨-, hself, -⟩ | ⟨hne, -⟩)
    · exact lt_irrefl _ hself
    · exact hne hfirst
  · refine .inr ⟨hstop, fun k hk ↦ (cells.isMarked_fillRow_iff mask a k).2 (.inr ⟨?_, hk⟩)⟩
    rw [hfirst]
    exact (Option.some_ne_none k).symm

namespace MarksFrom

theorem bit_eq_false (h : cells.MarksFrom mask first) (hle : first ≤ a) (hlt : a < k)
    (hstop : k < (cells.fillRow mask a).2) : mask.bit k = false := by
  obtain ⟨hunmarked, -⟩ := cells.fillRow_cases mask a
  by_contra hset
  have hmarked := h k (by omega) (Bool.of_not_eq_false hset)
  rw [hunmarked k hlt hstop] at hmarked
  cases hmarked

/-- If the stretch ends at a set pixel, then this pixel loses its mark. Otherwise all set pixels
keep theirs, and the number in the gap behind the first cell gets smaller. -/
theorem fillRow_cases (h : cells.MarksFrom mask first) (hle : first ≤ a)
    (hset : mask.bit a = true) :
    (mask.IsGap a (cells.fillRow mask a).2 ∧
        (cells.fillRow mask a).1.isMarked (cells.fillRow mask a).2 = false) ∨
      ((cells.fillRow mask a).1.MarksFrom mask first ∧
        ∀ b, mask.IsGap a b → (cells.fillRow mask a).1.number a b < cells.number a b) := by
  have hlt := cells.lt_fillRow_snd hset
  have hunset (k : ℕ) (hk : a < k) (hstop : k < (cells.fillRow mask a).2) : mask.bit k = false :=
    h.bit_eq_false hle hk hstop
  rcases cells.fillRow_snd_cases mask a with ⟨hrow, hmarked, hcleared⟩ | ⟨hrow, hkept⟩
  · cases hbit : mask.bit (cells.fillRow mask a).2 with
    | true =>
      refine .inl ⟨⟨hlt, ?_, hset, hbit, hunset⟩, hcleared⟩
      have hfrom := Nat.div_le_div_right (c := mask.width) hlt.le
      have hto := Nat.div_lt_of_lt_mul (Nat.mul_comm _ mask.width ▸ hrow)
      omega
    | false =>
      refine .inr ⟨fun k hk hset' ↦ isMarked_fillRow_of_ne ?_ (h k hk hset'), fun b hgap ↦ ?_⟩
      · rintro rfl
        rw [hbit] at hset'
        cases hset'
      · -- the cell that is cleared is the lowest digit that is not zero
        have hle' := Mask.le_of_forall_bit_eq_false hgap.bit_right hgap.lt hunset
        have hne : (cells.fillRow mask a).2 ≠ b := by
          rintro rfl
          rw [hgap.bit_right] at hbit
          cases hbit
        apply number_lt hlt (lt_of_le_of_ne hle' hne) hmarked hcleared
        intro k _ _ hfilled hunmarked
        by_contra hge
        rw [isMarked_of_isMarked_fillRow (.inr (not_lt.1 hge)) hfilled] at hunmarked
        cases hunmarked
  · refine .inr ⟨fun k hk hset' ↦ hkept k (h k hk hset'), fun b hgap ↦ ?_⟩
    have hbefore : b < (cells.fillRow mask a).2 := by
      rw [hrow, hgap.same_row]
      exact Mask.lt_rowEnd_of_bit hgap.bit_right
    exact absurd hbefore (Mask.le_of_forall_bit_eq_false hgap.bit_right hgap.lt hunset).not_gt

end MarksFrom

/-! ### From row to row -/

/-- The filling leaves the cells up to its first pixel as they are. -/
theorem isMarked_fillFrom_of_le {fuel : ℕ} (hset : mask.bit a = true) (hk : k ≤ a) :
    (cells.fillFrom mask fuel a).1.isMarked k = cells.isMarked k := by
  induction fuel generalizing cells a with
  | zero => rfl
  | succ fuel ih =>
    have hlt := cells.lt_fillRow_snd hset
    have hrow : (cells.fillRow mask a).1.isMarked k = cells.isMarked k :=
      isMarked_fillRow_of_lt hset (.inl hk)
    rw [fillFrom_succ fuel hlt]
    cases hfound : Search.first mask.bit (cells.fillRow mask a).2 mask.size with
    | none => exact hrow
    | some found =>
      rw [Search.first_eq_firstOf, Search.firstOf_eq_some_iff] at hfound
      obtain ⟨hle, -, hbit, -⟩ := hfound
      simp only
      split
      · exact (ih hbit (by omega)).trans hrow
      · exact hrow

/-- A row changes the number in its first gap, and the filling from the next set pixel on those
in the gaps behind it. -/
theorem number_lt_of_next {row filled : Cells} {next : ℕ} (hbit : mask.bit next = true)
    (hahead : ∀ k, a < k → k < next → mask.bit k = false)
    (hrow : ∀ b, mask.IsGap a b → row.number a b < cells.number a b)
    (hrest : ∀ b c, next ≤ b → mask.IsGap b c → filled.number b c < row.number b c)
    (hkept : ∀ k, next < k → row.isMarked k = cells.isMarked k)
    (hdone : ∀ k, k < next → filled.isMarked k = row.isMarked k) (b c : ℕ) (hle : a ≤ b)
    (hgap : mask.IsGap b c) : filled.number b c < cells.number b c := by
  rcases lt_or_ge b next with hbefore | hbehind
  · obtain ⟨rfl, rfl⟩ := hgap.eq_of_lt hle hbefore hbit hahead
    calc
      filled.number b c = row.number b c := number_congr fun k _ hk ↦ hdone k hk
      _ < cells.number b c := hrow c hgap
  · calc
      filled.number b c < row.number b c := hrest b c hbehind hgap
      _ = cells.number b c := number_congr fun k hk _ ↦ hkept k (hbehind.trans_lt hk)

/-- The filling stops at a set pixel only if there is a gap. Where it finds nothing, all set
pixels are still marked, and the number in every gap has got smaller. -/
theorem MarksFrom.fillFrom_cases {fuel : ℕ} (h : cells.MarksFrom mask first) (hle : first ≤ a)
    (hset : mask.bit a = true) (hfuel : mask.size - a ≤ fuel) :
    ((cells.fillFrom mask fuel a).2.isSome = true ∧ ∃ b c, a ≤ b ∧ mask.IsGap b c) ∨
      (cells.fillFrom mask fuel a).2 = none ∧
        (cells.fillFrom mask fuel a).1.MarksFrom mask first ∧
        ∀ b c, a ≤ b → mask.IsGap b c →
          (cells.fillFrom mask fuel a).1.number b c < cells.number b c := by
  induction fuel generalizing cells a with
  | zero =>
    have hlt := Mask.lt_size_of_bit hset
    omega
  | succ fuel ih =>
    have hlt := cells.lt_fillRow_snd hset
    have hunset (k : ℕ) (hk : a < k) (hstop : k < (cells.fillRow mask a).2) :
        mask.bit k = false := h.bit_eq_false hle hk hstop
    rw [fillFrom_succ fuel hlt]
    rcases h.fillRow_cases hle hset with ⟨hgap, hcleared⟩ | ⟨hmarks, hnumber⟩
    · -- the pixel that has lost its mark is the next one
      have hsize := Mask.lt_size_of_bit hgap.bit_right
      have hfound : Search.first mask.bit (cells.fillRow mask a).2 mask.size =
          some (cells.fillRow mask a).2 := by
        rw [Search.first_eq_firstOf, Search.firstOf_eq_some_iff]
        exact ⟨le_rfl, by omega, hgap.bit_right, fun k hk hk' ↦ absurd hk (by omega)⟩
      rw [hfound]
      simp only [hcleared]
      exact .inl ⟨rfl, a, _, le_rfl, hgap⟩
    · cases hfound : Search.first mask.bit (cells.fillRow mask a).2 mask.size with
      | none =>
        rw [Search.first_eq_firstOf, Search.firstOf_eq_none_iff] at hfound
        refine .inr ⟨rfl, hmarks, fun b c hab hgap ↦ ?_⟩
        have hsize := Mask.lt_size_of_bit hgap.bit_right
        have hstop :=
          Mask.le_of_forall_bit_eq_false hgap.bit_right (hab.trans_lt hgap.lt) hunset
        have hmiss := hfound c hstop (by omega)
        rw [hgap.bit_right] at hmiss
        cases hmiss
      | some found =>
        rw [Search.first_eq_firstOf, Search.firstOf_eq_some_iff] at hfound
        obtain ⟨hstop, -, hbit, hleast⟩ := hfound
        have hahead (k : ℕ) (hk : a < k) (hless : k < found) : mask.bit k = false := by
          rcases lt_or_ge k (cells.fillRow mask a).2 with hbefore | hbehind
          · exact hunset k hk hbefore
          · exact hleast k hbehind hless
        simp only [hmarks found (by omega) hbit, if_true]
        rcases ih hmarks (by omega) hbit (by omega) with ⟨hsome, b, c, hb, hgap⟩ |
          ⟨hnone, hrest, hless⟩
        · exact .inl ⟨hsome, b, c, by omega, hgap⟩
        · refine .inr ⟨hnone, hrest, number_lt_of_next hbit hahead hnumber hless ?_ ?_⟩
          · exact fun k hk ↦ isMarked_fillRow_of_lt hset (.inr (by omega))
          · exact fun k hk ↦ isMarked_fillFrom_of_le hbit hk.le

end Cells

/-! ## After the last object -/

namespace Mask

variable {mask : Mask} {connectivity : Connectivity} {n : ℕ} {cells : Cells} {p : Pixel}

/-- When all outermost circuits are traced, they cover all set pixels. -/
theorem isCovered_of_mem_objectPixels
    (hall : ∀ d, mask.IsOutermost connectivity d → mask.slot d < n) (hp : p ∈ mask.objectPixels) :
    mask.IsCovered connectivity n p := by
  obtain ⟨e, he, henc⟩ := exists_isOutermost ((odd_depth_iff p).2 hp).pos
  exact ⟨e, he, hall e he, henc⟩

theorem IsSettled.marksFrom (h : mask.IsSettled connectivity n cells mask.size)
    (hall : ∀ d, mask.IsOutermost connectivity d → mask.slot d < n) (first : ℕ) :
    cells.MarksFrom mask first := by
  intro k _ hset
  have hsize := lt_size_of_bit hset
  obtain ⟨p, hp, rfl⟩ := exists_index_eq hsize
  exact (h p hp hsize).2 (isCovered_of_mem_objectPixels hall ((bit_index hp).symm.trans hset))

end Mask

end ContourTracing
