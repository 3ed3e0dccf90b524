import ContourTracing.Proofs.Filling

/-!
# Rounds of searches

A search among brackets and one that fills objects go on in rounds for as long as their buffers
tell them to. Whatever is in the buffers, a round that is not the last one has moved on in raster
order; so there is a last one. What holds at the end of a search is therefore shown along its
rounds, whatever their number.
-/

namespace ContourTracing

/-! ## Rounds -/

/-- Rounds that come to an end with a result. A round leads on to another state or to the result;
no number of rounds is given in advance. -/
inductive Ends {σ α : Type} (round : σ → σ ⊕ α) : σ → α → Prop
  | stop {s : σ} {result : α} : round s = .inr result → Ends round s result
  | again {s t : σ} {result : α} : round s = .inl t → Ends round t result → Ends round s result

namespace Ends

variable {σ α : Type} {round : σ → σ ⊕ α} {s : σ} {result other : α}

theorem unique (h : Ends round s result) (h' : Ends round s other) : result = other := by
  induction h with
  | stop hstop =>
    cases h' with
    | stop hstop' => exact Sum.inr.inj (hstop.symm.trans hstop')
    | again hagain _ =>
      rw [hstop] at hagain
      cases hagain
  | again hagain _ ih =>
    cases h' with
    | stop hstop =>
      rw [hagain] at hstop
      cases hstop
    | again hagain' hrest =>
      rw [hagain] at hagain'
      cases hagain'
      exact ih hrest

/-- Rounds come to an end if something decreases in each but the last one, and then a bounded number
of rounds comes to that end if it covers what there was at first. -/
theorem of_variant {run : ℕ → σ → α}
    (hrun : ∀ fuel s, run (fuel + 1) s = (round s).elim (run fuel) id) (variant : σ → ℕ)
    (hvariant : ∀ s t, round s = .inl t → variant t < variant s) (fuel : ℕ)
    (hfuel : variant s < fuel) : Ends round s (run fuel s) := by
  induction fuel generalizing s with
  | zero => omega
  | succ fuel ih =>
    rw [hrun]
    cases hround : round s with
    | inl t =>
      have hless := hvariant s t hround
      exact .again hround (ih (by omega))
    | inr result => exact .stop hround

end Ends

/-! ## Sweeps -/

namespace BracketPair

variable {pair : BracketPair} {mask : Mask} {s t : Sweep}

/-- One round of a sweep: it goes on past the last edge of a row and past an edge with a bracket. -/
def sweepRound (pair : BracketPair) (mask : Mask) (s : Sweep) : Sweep ⊕ (Bool × Sweep) :=
  match mask.nextRunEdge (s.edge.or s.start) with
  | none => .inr (false, s)
  | some edge =>
    if edge.side = .right ∧ edge.x + 1 = mask.width then .inl ⟨s.start, some edge, 0⟩
    else
      let external := (pair.cells .external).hasBracket mask edge
      let internal := (pair.cells .internal).hasBracket mask edge
      if external || internal then
        .inl ⟨s.start, some edge, levelAcross edge.side external s.level⟩
      else .inr (true, ⟨s.start, some edge, s.level + 1⟩)

theorem sweep_succ (pair : BracketPair) (mask : Mask) (fuel : ℕ) (s : Sweep) :
    pair.sweep mask (fuel + 1) s = (pair.sweepRound mask s).elim (pair.sweep mask fuel) id := by
  rw [sweep, sweepRound]
  cases mask.nextRunEdge (s.edge.or s.start) with
  | none => rfl
  | some edge =>
    dsimp only
    split_ifs <;> rfl

/-- Whatever a round comes to, it has gone to the next run edge or there is none. -/
theorem sweepRound_cases (pair : BracketPair) (mask : Mask) (s : Sweep) :
    (mask.nextRunEdge (s.edge.or s.start) = none ∧ pair.sweepRound mask s = .inr (false, s)) ∨
      ∃ edge level, mask.nextRunEdge (s.edge.or s.start) = some edge ∧
        (pair.sweepRound mask s = .inl ⟨s.start, some edge, level⟩ ∨
          pair.sweepRound mask s = .inr (true, ⟨s.start, some edge, level⟩)) := by
  rw [sweepRound]
  split
  · next hnone => exact .inl ⟨hnone, rfl⟩
  · next edge hnext =>
    right
    split
    · exact ⟨edge, _, hnext, .inl rfl⟩
    · dsimp only
      split
      · exact ⟨edge, _, hnext, .inl rfl⟩
      · exact ⟨edge, _, hnext, .inr rfl⟩

/-- A round that is not the last one leads on to a slot of the mask. -/
theorem slotAfter_sweepRound (h : pair.sweepRound mask s = .inl t) : t.start = s.start ∧
    mask.slotAfter (s.edge.or s.start) < mask.slotAfter (t.edge.or t.start) ∧
      mask.slotAfter (t.edge.or t.start) ≤ 2 * mask.size := by
  obtain ⟨-, heq⟩ | ⟨edge, level, hnext, heq | heq⟩ := pair.sweepRound_cases mask s <;>
    rw [h] at heq <;> cases heq
  obtain ⟨hboundary, -, hle, -⟩ := Mask.nextRunEdge_eq_some hnext
  exact ⟨rfl, Nat.lt_succ_of_le hle, Mask.slot_lt_of_isBoundary hboundary⟩

theorem ends_sweep (pair : BracketPair) (mask : Mask) (s : Sweep) :
    Ends (pair.sweepRound mask) s (pair.sweep mask (2 * mask.size + 1) s) := by
  refine .of_variant (pair.sweep_succ mask)
    (fun s ↦ 2 * mask.size - mask.slotAfter (s.edge.or s.start)) (fun s t h ↦ ?_) _ ?_
  · obtain ⟨-, hlt, hle⟩ := slotAfter_sweepRound h
    omega
  · exact Nat.lt_succ_of_le (Nat.sub_le ..)

/-- A sweep does not go back, and it has moved on if it finds something. -/
theorem slotAfter_add_le_of_ends {result : Bool × Sweep}
    (h : Ends (pair.sweepRound mask) s result) : result.2.start = s.start ∧
      mask.slotAfter (s.edge.or s.start) + result.1.toNat ≤
        mask.slotAfter (result.2.edge.or result.2.start) := by
  induction h with
  | @stop s result hstop =>
    obtain ⟨-, heq⟩ | ⟨edge, level, hnext, heq | heq⟩ := pair.sweepRound_cases mask s <;>
      rw [hstop] at heq <;> cases heq
    · exact ⟨rfl, le_rfl⟩
    · obtain ⟨-, -, hle, -⟩ := Mask.nextRunEdge_eq_some hnext
      exact ⟨rfl, Nat.succ_le_succ hle⟩
  | again hagain _ ih =>
    obtain ⟨hstart, hlt, -⟩ := slotAfter_sweepRound hagain
    exact ⟨ih.1.trans hstart, le_trans (Nat.add_le_add_right hlt.le _) ih.2⟩

/-- A sweep comes to boundary sides only, and to one at least if it finds something. -/
theorem isBoundary_of_ends {result : Bool × Sweep} (h : Ends (pair.sweepRound mask) s result)
    (hs : ∀ e, s.edge = some e → mask.IsBoundary e) :
    (∀ e, result.2.edge = some e → mask.IsBoundary e) ∧
      (result.1 = true → result.2.edge ≠ none) := by
  have hedge {after : Option Position} {edge : Position}
      (hnext : mask.nextRunEdge after = some edge) (e : Position) (he : some edge = some e) :
      mask.IsBoundary e :=
    Option.some.inj he ▸ (Mask.nextRunEdge_eq_some hnext).1
  induction h with
  | @stop s result hstop =>
    obtain ⟨-, heq⟩ | ⟨edge, level, hnext, heq | heq⟩ := pair.sweepRound_cases mask s <;>
      rw [hstop] at heq <;> cases heq
    · exact ⟨hs, fun hfound ↦ by cases hfound⟩
    · exact ⟨hedge hnext, fun _ hnone ↦ by cases hnone⟩
  | @again s t _ hagain _ ih =>
    obtain ⟨-, heq⟩ | ⟨edge, level, hnext, heq | heq⟩ := pair.sweepRound_cases mask s <;>
      rw [hagain] at heq <;> cases heq
    exact ih (hedge hnext)

/-- Where a sweep has found nothing, there is no run edge any more. -/
theorem nextRunEdge_of_ends {result : Bool × Sweep} (h : Ends (pair.sweepRound mask) s result)
    (hmissed : result.1 = false) : mask.nextRunEdge (result.2.edge.or s.start) = none := by
  induction h with
  | @stop s result hstop =>
    obtain ⟨hnone, heq⟩ | ⟨edge, level, -, heq | heq⟩ := pair.sweepRound_cases mask s <;>
      rw [hstop] at heq <;> cases heq
    · exact hnone
    · cases hmissed
  | again hagain _ ih =>
    rw [← (slotAfter_sweepRound hagain).1]
    exact ih hmissed

end BracketPair

/-! ## Fillings -/

namespace Cells

variable {mask : Mask}

/-- One round of a filling: it fills the rest of a row and goes on if the next set pixel is
marked. -/
def fillRound (mask : Mask) (state : Cells × ℕ) : (Cells × ℕ) ⊕ (Cells × Option ℕ) :=
  let row := state.1.fillRow mask state.2
  match Search.first mask.bit row.2 mask.size with
  | none => .inr (row.1, none)
  | some found => if row.1.isMarked found then .inl (row.1, found) else .inr (row.1, some found)

theorem fillFrom_eq_elim (hwidth : 0 < mask.width) (fuel : ℕ) (state : Cells × ℕ) :
    state.1.fillFrom mask (fuel + 1) state.2 =
      (fillRound mask state).elim (fun next ↦ next.1.fillFrom mask fuel next.2) id := by
  rw [fillFrom_succ fuel (state.1.lt_fillRow_snd_of_width_pos hwidth state.2), fillRound]
  cases Search.first mask.bit (state.1.fillRow mask state.2).2 mask.size with
  | none => rfl
  | some found =>
    dsimp only
    split_ifs <;> rfl

/-- Whatever a round comes to, it has gone to the next set pixel or there is none. -/
theorem fillRound_cases (mask : Mask) (state : Cells × ℕ) :
    ∃ filled : Cells, filled.size = state.1.size ∧ (fillRound mask state = .inr (filled, none) ∨
      ∃ found, state.2 < found ∧ found < mask.size ∧ (fillRound mask state = .inl (filled, found) ∨
        fillRound mask state = .inr (filled, some found))) := by
  refine ⟨(state.1.fillRow mask state.2).1, size_fillRow .., ?_⟩
  rw [fillRound]
  split
  · exact .inl rfl
  · next found hfound =>
    rw [Search.first_eq_firstOf, Search.firstOf_eq_some_iff] at hfound
    obtain ⟨hle, hlt, -⟩ := hfound
    have hsize : found < mask.size := by omega
    have hwidth : 0 < mask.width := Nat.pos_of_mul_pos_right (Nat.zero_lt_of_lt hsize)
    have hbehind := state.1.lt_fillRow_snd_of_width_pos hwidth state.2
    refine .inr ⟨found, hbehind.trans_le hle, hsize, ?_⟩
    split
    · exact .inl rfl
    · exact .inr rfl

theorem ends_fillFrom (hsize : mask.size ≠ 0) (cells : Cells) (index : ℕ) :
    Ends (fillRound mask) (cells, index) (cells.fillFrom mask mask.size index) := by
  have hwidth : 0 < mask.width := Nat.pos_of_mul_pos_right (Nat.pos_of_ne_zero hsize)
  refine @Ends.of_variant _ _ (fillRound mask) (cells, index)
    (fun fuel state ↦ state.1.fillFrom mask fuel state.2) (fillFrom_eq_elim hwidth)
    (fun state ↦ mask.size - 1 - state.2) (fun state next h ↦ ?_) mask.size ?_
  · obtain ⟨filled, -, heq | ⟨found, hlt, hfound, heq | heq⟩⟩ := fillRound_cases mask state <;>
      rw [h] at heq <;> cases heq
    omega
  · omega

/-- Filling changes no size, and where it does not run to the end it has moved on. -/
theorem of_ends {state : Cells × ℕ} {result : Cells × Option ℕ}
    (h : Ends (fillRound mask) state result) : result.1.size = state.1.size ∧
      ∀ found, result.2 = some found → state.2 < found ∧ found < mask.size := by
  induction h with
  | @stop state result hstop =>
    obtain ⟨filled, hsize, heq | ⟨found, hlt, hfound, heq | heq⟩⟩ := fillRound_cases mask state <;>
      rw [hstop] at heq <;> cases heq
    · exact ⟨hsize, fun _ h ↦ by cases h⟩
    · refine ⟨hsize, ?_⟩
      rintro _ ⟨⟩
      exact ⟨hlt, hfound⟩
  | @again state next _ hagain _ ih =>
    obtain ⟨filled, hsize, heq | ⟨found, hlt, -, heq | heq⟩⟩ := fillRound_cases mask state <;>
      rw [hagain] at heq <;> cases heq
    exact ⟨ih.1.trans hsize, fun found hfound ↦ (ih.2 found hfound).imp_left hlt.trans⟩

end Cells

end ContourTracing
