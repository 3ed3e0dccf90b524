import ContourTracing.Proofs.Coverage
import ContourTracing.Proofs.Translation

/-!
# Masks without corner contacts

The two rules for the next step differ where the pixel diagonally ahead is set and the one ahead
is not. On a boundary side the pixel is set and the one across is not, so that there two objects
touch at a corner only. On a mask without such contacts the connectivity makes no difference, in
no mode and for no boundary.
-/

namespace ContourTracing

/-- The first of the four pixels around the corner at which a side ends. -/
def Position.block (s : Position) : Pixel :=
  match s.side with
  | .left => (s.x - 1, s.y - 1)
  | .top => (s.x, s.y - 1)
  | .right => (s.x, s.y)
  | .bottom => (s.x - 1, s.y)

namespace Mask

/-- Of the block of two by two pixels that begins at a pixel, two diagonally opposite ones are set
and the other two are not. -/
def IsContact (mask : Mask) (x y : ℤ) : Prop :=
  mask.isSet x y = mask.isSet (x + 1) (y + 1) ∧ mask.isSet (x + 1) y = mask.isSet x (y + 1) ∧
    mask.isSet x y ≠ mask.isSet (x + 1) y

instance (mask : Mask) (x y : ℤ) : Decidable (mask.IsContact x y) :=
  inferInstanceAs (Decidable (_ ∧ _))

/-- Some block of the rectangle is a contact. -/
def HasContact (mask : Mask) : Prop :=
  ∃ y < mask.height - 1, ∃ x < mask.width - 1, mask.IsContact x y

instance (mask : Mask) : Decidable mask.HasContact :=
  inferInstanceAs (Decidable (∃ _, _))

variable {mask : Mask} {connectivity connectivity' : Connectivity} {s : Position} {x y : ℤ}

/-- A block that is a contact lies in the rectangle. -/
theorem hasContact_of_isContact (h : mask.IsContact x y) : mask.HasContact := by
  obtain ⟨hmain, hcross, hne⟩ := id h
  have hcontains : mask.Contains x y ∧ mask.Contains (x + 1) (y + 1) ∨
      mask.Contains (x + 1) y ∧ mask.Contains x (y + 1) := by
    cases hset : mask.isSet x y with
    | true =>
      rw [hset] at hmain
      exact .inl ⟨mask.contains_of_isSet hset, mask.contains_of_isSet hmain.symm⟩
    | false =>
      have hset' : mask.isSet (x + 1) y = true := by simpa [hset] using hne.symm
      rw [hset'] at hcross
      exact .inr ⟨mask.contains_of_isSet hset', mask.contains_of_isSet hcross.symm⟩
  unfold Contains at hcontains
  lift x to ℕ using by omega
  lift y to ℕ using by omega
  exact ⟨y, by omega, x, by omega, h⟩

example : Mask.HasContact ⟨3, 2, #[false, true, false, true, false, false], rfl⟩ := by
  decide

/-- Where just the pixel diagonally ahead of a boundary side is set, the side ends at a contact. -/
theorem hasContact_of_isBoundary (hs : mask.IsBoundary s) (hahead : s.ahead ∉ mask.objectPixels)
    (hacross : s.aheadAcross ∈ mask.objectPixels) : mask.HasContact := by
  refine hasContact_of_isContact (x := s.block.1) (y := s.block.2) ?_
  obtain ⟨x, y, side⟩ := s
  obtain ⟨hpixel, hgap⟩ := hs
  cases side <;>
    simp_all [IsContact, objectPixels, Position.block, Position.ahead, Position.across,
      Position.aheadAcross, Side.along, Side.clockwise, Side.outward, ← sub_eq_add_neg]

/-- Without contacts all boundary sides lead on alike. -/
theorem chooseTurn_eq_of_not_hasContact (h : ¬ mask.HasContact) (hs : mask.IsBoundary s) :
    mask.chooseTurn connectivity' s = mask.chooseTurn connectivity s := by
  have hcorner (hacross : mask.isSet s.aheadAcross.1 s.aheadAcross.2 = true) :
      mask.isSet s.ahead.1 s.ahead.2 = true := by
    by_contra hahead
    exact h (hasContact_of_isBoundary hs hahead hacross)
  cases hahead : mask.isSet s.ahead.1 s.ahead.2 <;>
    cases hacross : mask.isSet s.aheadAcross.1 s.aheadAcross.2 <;>
      cases connectivity <;> cases connectivity' <;> simp_all [chooseTurn]

theorem isTranslate_of_not_hasContact (h : ¬ mask.HasContact)
    (connectivity connectivity' : Connectivity) :
    mask.IsTranslate connectivity mask connectivity' 0 where
  isBoundary_iff s := by rw [s.translate_zero]
  chooseStep_eq s hs := by
    rw [s.translate_zero, chooseStep, chooseTurn_eq_of_not_hasContact h hs, chooseStep]

/-- Without contacts the tours do not depend on the connectivity. -/
theorem tours_eq_of_not_hasContact (h : ¬ mask.HasContact)
    (connectivity connectivity' : Connectivity) (mode : ScanMode) :
    mask.tours connectivity' mode = mask.tours connectivity mode := by
  have hid : (Tour.translate 0) = id := funext Tour.translate_zero
  rw [(isTranslate_of_not_hasContact h connectivity connectivity').tours_eq mode, hid, List.map_id]

end Mask

namespace Tracer

/-- On a mask without corner contacts the loop of any mode makes the same tours, one from each
stop, whether or not corners are connected. -/
theorem exists_tours_of_not_hasContact {straight diagonal : Tracer} {mode : ScanMode}
    (hstraight : straight.IsFreshFor mode) (hdiagonal : diagonal.IsFreshFor mode)
    (hmask : diagonal.mask = straight.mask) (hside : straight.connectivity = .straight)
    (hcorner : diagonal.connectivity = .diagonal) (hcontact : ¬ straight.mask.HasContact) :
    ∃ tours last last', straight.Loop tours last ∧
      (∀ s, s ∈ tours.map (·.start) ↔ straight.mask.IsStop .straight s mode) ∧
      diagonal.Loop tours last' := by
  obtain ⟨last, hloop⟩ := hstraight.exists_loop
  obtain ⟨last', hloop'⟩ := hdiagonal.exists_loop
  rw [hside] at hloop
  rw [hmask, hcorner, Mask.tours_eq_of_not_hasContact hcontact .straight] at hloop'
  exact ⟨_, last, last', hloop, fun s ↦ Mask.mem_map_start_tours, hloop'⟩

theorem exists_tours_of_not_hasContact_target :
    let straight := new .target .null .straight (.fresh Mask.target.size .main)
    let diagonal := new .target .null .diagonal (.fresh Mask.target.size .main)
    straight.IsFreshFor .main ∧ diagonal.IsFreshFor .main ∧ ¬ Mask.target.HasContact ∧
      ∃ tours last last', straight.Loop tours last ∧
        (∀ s, s ∈ tours.map (·.start) ↔ Mask.target.IsStop .straight s .main) ∧
        diagonal.Loop tours last' :=
  have hstraight := isFreshFor_new .target .null .straight .main
  have hdiagonal := isFreshFor_new .target .null .diagonal .main
  have hcontact : ¬ Mask.target.HasContact := by decide
  ⟨hstraight, hdiagonal, hcontact,
    exists_tours_of_not_hasContact hstraight hdiagonal rfl rfl rfl hcontact⟩

end Tracer

end ContourTracing
