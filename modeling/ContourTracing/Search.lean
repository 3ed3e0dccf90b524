/-!
# Windowed search

A search for the first index of a range goes through consecutive windows of one size, the last
of them cut off at the end of the range. What it finds is the least index of the whole range,
whatever the size of the windows (`firstIn_eq_firstOf`, `firstOf_eq_some_iff`).
-/

namespace ContourTracing.Search

/-- The least index of `start, start + 1, …, start + count - 1` that is a hit. -/
def firstOf (hit : Nat → Bool) (start : Nat) : Nat → Option Nat
  | 0 => none
  | count + 1 => if hit start then some start else firstOf hit (start + 1) count

theorem firstOf_of_hit {hit : Nat → Bool} {start : Nat} (count : Nat) (h : hit start = true) :
    firstOf hit start (count + 1) = some start := by
  rw [firstOf, if_pos h]

theorem firstOf_of_not_hit {hit : Nat → Bool} {start : Nat} (count : Nat)
    (h : ¬ hit start = true) :
    firstOf hit start (count + 1) = firstOf hit (start + 1) count := by
  rw [firstOf, if_neg h]

theorem firstOf_eq_some_iff {hit : Nat → Bool} {start count index : Nat} :
    firstOf hit start count = some index ↔
      start ≤ index ∧ index < start + count ∧ hit index = true ∧
        ∀ other, start ≤ other → other < index → hit other = false := by
  induction count generalizing start with
  | zero =>
    simp only [firstOf, reduceCtorEq, false_iff]
    omega
  | succ count ih =>
    by_cases h : hit start = true
    · rw [firstOf_of_hit count h, Option.some.injEq]
      constructor
      · rintro rfl
        exact ⟨Nat.le_refl _, by omega, h, by omega⟩
      · rintro ⟨hle, -, -, hleast⟩
        rcases Nat.eq_or_lt_of_le hle with heq | hlt
        · exact heq
        · simp [hleast start (Nat.le_refl _) hlt] at h
    · rw [firstOf_of_not_hit count h, ih]
      constructor
      · rintro ⟨hle, hlt, hhit, hleast⟩
        refine ⟨by omega, by omega, hhit, fun other hother hless ↦ ?_⟩
        rcases Nat.eq_or_lt_of_le hother with rfl | hmore
        · simpa using h
        · exact hleast other hmore hless
      · rintro ⟨hle, hlt, hhit, hleast⟩
        have hne : start ≠ index := by
          rintro rfl
          exact h hhit
        exact ⟨by omega, by omega, hhit, fun other hother ↦ hleast other (by omega)⟩

theorem firstOf_eq_none_iff {hit : Nat → Bool} {start count : Nat} :
    firstOf hit start count = none ↔
      ∀ index, start ≤ index → index < start + count → hit index = false := by
  induction count generalizing start with
  | zero =>
    simp only [firstOf, true_iff]
    omega
  | succ count ih =>
    by_cases h : hit start = true
    · rw [firstOf_of_hit count h]
      simp only [reduceCtorEq, false_iff]
      intro hall
      simp [hall start (Nat.le_refl _) (by omega)] at h
    · rw [firstOf_of_not_hit count h, ih]
      constructor
      · intro hall index hle hlt
        rcases Nat.eq_or_lt_of_le hle with rfl | hmore
        · simpa using h
        · exact hall index hmore (by omega)
      · exact fun hall index hle hlt ↦ hall index (by omega) (by omega)

theorem firstOf_add (hit : Nat → Bool) (start count more : Nat) :
    firstOf hit start (count + more) =
      (firstOf hit start count).or (firstOf hit (start + count) more) := by
  induction count generalizing start with
  | zero => simp [firstOf]
  | succ count ih =>
    have hcount : count + 1 + more = count + more + 1 := by omega
    have hstart : start + (count + 1) = start + 1 + count := by omega
    rw [hcount, hstart]
    by_cases h : hit start = true
    · rw [firstOf_of_hit _ h, firstOf_of_hit _ h, Option.some_or]
    · rw [firstOf_of_not_hit _ h, firstOf_of_not_hit _ h, ih]

/-- The least hit of the range from `start` up to `stop`, window by window. -/
def firstIn (window : Nat) (hit : Nat → Bool) (start stop : Nat) (h : 0 < window) : Option Nat :=
  if start < stop then
    let finish := min (start + window) stop
    match firstOf hit start (finish - start) with
    | some index => some index
    | none => firstIn window hit finish stop h
  else none
termination_by stop - start
decreasing_by omega

theorem firstIn_eq_firstOf (window : Nat) (hit : Nat → Bool) (start stop : Nat) (h : 0 < window) :
    firstIn window hit start stop h = firstOf hit start (stop - start) := by
  fun_induction firstIn window hit start stop h with
  | case1 start hlt finish index hfound =>
    have hsplit : stop - start = (finish - start) + (stop - finish) := by omega
    rw [hsplit, firstOf_add, hfound, Option.some_or]
  | case2 start hlt finish hnone ih =>
    have hsplit : stop - start = (finish - start) + (stop - finish) := by omega
    have hstart : start + (finish - start) = finish := by omega
    rw [ih, hsplit, firstOf_add, hnone, Option.none_or, hstart]
  | case3 start hge =>
    rw [Nat.sub_eq_zero_of_le (by omega), firstOf]

/-- The window of all searches for boundaries. -/
def windowSize : Nat := 4096

/-- The least hit of the range from `start` up to `stop`. -/
def first (hit : Nat → Bool) (start stop : Nat) : Option Nat :=
  firstIn windowSize hit start stop (by decide)

theorem first_eq_firstOf (hit : Nat → Bool) (start stop : Nat) :
    first hit start stop = firstOf hit start (stop - start) :=
  firstIn_eq_firstOf windowSize hit start stop (by decide)

end ContourTracing.Search
