import Mathlib.Order.Bounds.Basic
import ContourTracing.Proofs.SearchRounds

/-!
# Searches of arrays

A tracer looks for set or unset pixels of a mask and for marked cells of a buffer, which are the
elements of an array that have one truth value. A search takes one window of the array after the
other, each cut off at the end of the range, and stops at the first window with a hit. These rounds
come to an end, with the least hit of the whole range or with none if there is none, whatever the
size of the windows and however many of them lie in the range.
-/

namespace ContourTracing

/-! ## What tracers look for -/

/-- The hits of a search are the elements of an array that have the given truth value. -/
def LooksFor {α : Type} (hit : ℕ → Bool) (truth : α → Bool) (flat : Array α) (value : Bool) :
    Prop :=
  ∀ index (h : index < flat.size), hit index = (truth flat[index] == value)

theorem Mask.looksFor_bit (mask : Mask) : LooksFor mask.bit id mask.bits true := by
  intro index h
  rw [bit, Array.getD_eq_getD_getElem?, Array.getElem?_eq_getElem h]
  exact (beq_true _).symm

theorem Mask.looksFor_not_bit (mask : Mask) :
    LooksFor (fun index ↦ !mask.bit index) id mask.bits false := by
  intro index h
  dsimp only
  rw [mask.looksFor_bit index h, beq_true, beq_false]

namespace Search

variable {α : Type} {hit : ℕ → Bool} {truth : α → Bool} {flat : Array α} {value : Bool}

/-! ## Windows -/

/-- One round of a search: the search stops behind the range or at the first hit of a window, and
goes on behind the window otherwise. -/
def windowRound (truth : α → Bool) (flat : Array α) (value : Bool) (window stop position : ℕ) :
    ℕ ⊕ Option ℕ :=
  if position < stop then
    let finish := min (position + window) stop
    match (flat.extract position finish).findIdx? fun element ↦ truth element == value with
    | some offset => .inr (some (position + offset))
    | none => .inl finish
  else .inr none

/-- The first hit of a window, counted from the begin of the array. -/
theorem map_findIdx?_extract (h : LooksFor hit truth flat value) {start count : ℕ}
    (hfinish : start + count ≤ flat.size) :
    ((flat.extract start (start + count)).findIdx? fun element ↦ truth element == value).map
      (start + ·) = firstOf hit start count := by
  obtain ⟨elements⟩ := flat
  rw [List.extract_toArray, List.findIdx?_toArray, List.extract_eq_take_drop,
    Nat.add_sub_cancel_left]
  induction count generalizing start with
  | zero => rfl
  | succ count ih =>
    have hstart : start < elements.length := by
      rw [List.size_toArray] at hfinish
      omega
    have hnext := @ih (start + 1) (by omega)
    rw [firstOf, ← hnext, h start hstart, List.drop_eq_getElem_cons hstart, List.take_succ_cons,
      List.findIdx?_cons, List.getElem_toArray]
    split
    · rfl
    · rw [Option.map_map]
      congr 1
      funext offset
      exact (Nat.add_right_comm start 1 offset).symm

/-- The windows come to the end of the range or to one with a hit, and a search gives that hit. -/
theorem ends_firstIn (h : LooksFor hit truth flat value) {window start stop : ℕ}
    (hwindow : 0 < window) (hstop : stop ≤ flat.size) :
    Ends (windowRound truth flat value window stop) start
      (firstIn window hit start stop hwindow) := by
  fun_induction firstIn window hit start stop hwindow with
  | case1 start hlt finish index hfound =>
    have hfinish : start + (finish - start) = finish := by omega
    rw [← map_findIdx?_extract h (by omega), hfinish, Option.map_eq_some_iff] at hfound
    obtain ⟨offset, hoffset, rfl⟩ := hfound
    refine .stop ?_
    rw [windowRound, if_pos hlt]
    dsimp only
    rw [hoffset]
  | case2 start hlt finish hnone ih =>
    have hfinish : start + (finish - start) = finish := by omega
    rw [← map_findIdx?_extract h (by omega), hfinish, Option.map_eq_none_iff] at hnone
    refine .again ?_ ih
    rw [windowRound, if_pos hlt]
    dsimp only
    rw [hnone]
  | case3 start hge =>
    exact .stop (if_neg hge)

/-! ## Least hits -/

theorem first_eq_some_iff {start stop index : ℕ} :
    first hit start stop = some index ↔
      IsLeast {i | start ≤ i ∧ i < stop ∧ hit i = true} index := by
  rw [first_eq_firstOf, firstOf_eq_some_iff]
  constructor
  · rintro ⟨hle, hlt, hhit, hleast⟩
    refine ⟨⟨hle, by omega, hhit⟩, ?_⟩
    rintro other ⟨hother, -, hhit'⟩
    by_contra hless
    rw [hleast other hother (by omega)] at hhit'
    cases hhit'
  · rintro ⟨⟨hle, hlt, hhit⟩, hleast⟩
    refine ⟨hle, by omega, hhit, fun other hother hless ↦ ?_⟩
    by_contra hhit'
    have hindex := hleast ⟨hother, by omega, Bool.eq_true_of_not_eq_false hhit'⟩
    omega

theorem first_eq_none_iff {start stop : ℕ} :
    first hit start stop = none ↔ ∀ i, ¬ (start ≤ i ∧ i < stop ∧ hit i = true) := by
  rw [first_eq_firstOf, firstOf_eq_none_iff]
  constructor
  · rintro hnone i ⟨hle, hlt, hhit⟩
    rw [hnone i hle (by omega)] at hhit
    cases hhit
  · intro hnone i hle hlt
    exact Bool.eq_false_of_not_eq_true fun hhit ↦ hnone i ⟨hle, by omega, hhit⟩

/-- A hit of a range within the array is an element with the truth value that is looked for. -/
theorem mem_range_iff (h : LooksFor hit truth flat value) {start i : ℕ} {stop : ℤ}
    (hstop : stop ≤ flat.size) : (start ≤ i ∧ i < stop.toNat ∧ hit i = true) ↔
      start ≤ i ∧ (i : ℤ) < stop ∧ ∃ h : i < flat.size, truth flat[i] = value := by
  rw [Int.lt_toNat]
  refine and_congr_right fun _ ↦ and_congr_right fun hlt ↦ ?_
  have hsize : i < flat.size := by omega
  rw [h i hsize, beq_iff_eq, exists_prop_of_true hsize]

/-- The search of a range gives the number of its first element with the truth value that is looked
for, or nothing if there is none, as in a range that ends before it begins. In windows of any size
it comes to this end. -/
theorem first_isLeast (h : LooksFor hit truth flat value) (start : ℕ) {stop : ℤ}
    (hstop : stop ≤ flat.size) :
    let found := first hit start stop.toNat
    let hits := {i : ℕ | start ≤ i ∧ (i : ℤ) < stop ∧ ∃ h : i < flat.size, truth flat[i] = value}
    (∀ index, found = some index ↔ IsLeast hits index) ∧ (found = none ↔ hits = ∅) ∧
      ∀ window (hwindow : 0 < window), firstIn window hit start stop.toNat hwindow = found ∧
        Ends (windowRound truth flat value window stop.toNat) start found := by
  intro found hits
  have hhits : {i | start ≤ i ∧ i < stop.toNat ∧ hit i = true} = hits :=
    Set.ext fun i ↦ mem_range_iff h hstop
  refine ⟨fun index ↦ ?_, ?_, fun window hwindow ↦ ?_⟩
  · rw [← hhits]
    exact first_eq_some_iff
  · rw [← hhits, Set.eq_empty_iff_forall_notMem]
    exact first_eq_none_iff
  · have hfound : firstIn window hit start stop.toNat hwindow = found := by
      rw [firstIn_eq_firstOf, ← first_eq_firstOf]
    exact ⟨hfound, hfound ▸ ends_firstIn h hwindow (by omega)⟩

/-- The unset pixel of a row lies in the second window of two pixels. -/
theorem first_isLeast_unset :
    let mask : Mask := ⟨6, 1, #[true, true, true, true, false, true], rfl⟩
    let found := first (fun i ↦ !mask.bit i) 1 (6 : ℤ).toNat
    LooksFor (fun i ↦ !mask.bit i) id mask.bits false ∧ (6 : ℤ) ≤ mask.bits.size ∧ found = some 4 ∧
      IsLeast {i : ℕ | 1 ≤ i ∧ (i : ℤ) < 6 ∧
        ∃ h : i < mask.bits.size, id mask.bits[i] = false} 4 ∧
      ∃ hwindow : 0 < 2, firstIn 2 (fun i ↦ !mask.bit i) 1 (6 : ℤ).toNat hwindow = found ∧
        Ends (windowRound id mask.bits false 2 (6 : ℤ).toNat) 1 found := by
  intro mask found
  have hlooks := mask.looksFor_not_bit
  have hsize : (6 : ℤ) ≤ mask.bits.size := by decide
  have hfound : found = some 4 := by
    simp only [found, first_eq_firstOf]
    decide
  obtain ⟨hsome, -, hwindows⟩ := first_isLeast hlooks 1 hsize
  exact ⟨hlooks, hsize, hfound, (hsome 4).1 hfound, Nat.two_pos, hwindows 2 Nat.two_pos⟩

end Search

end ContourTracing
