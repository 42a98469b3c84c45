import AccountSync.Text.Decimal
/-!
Whole numbers are read exactly as they are shown: a text gives a number if it shows it in digits,
with a plus sign or without, and the number is small enough (`Decimal.read_eq_ok_iff`).
-/

namespace AccountSync.Decimal

/-- Characters show a number: digits, at least one, and perhaps a plus sign in front. -/
inductive Shows : List Char → Nat → Prop where
  | plain {ds : List Char} (hne : ds ≠ []) (hds : ∀ d ∈ ds, d.isDigit = true) :
      Shows ds (Nat.ofDigitChars 10 ds 0)
  | plus {ds : List Char} (hne : ds ≠ []) (hds : ∀ d ∈ ds, d.isDigit = true) :
      Shows ('+' :: ds) (Nat.ofDigitChars 10 ds 0)

variable {bound n m : Nat} {ds : List Char}

theorem le_ofDigitChars (ds : List Char) (n : Nat) : n ≤ Nat.ofDigitChars 10 ds n := by
  rw [Nat.ofDigitChars_eq_ofDigitChars_zero]
  exact Nat.le_trans (Nat.le_mul_of_pos_left _ (Nat.pow_pos (by decide))) (Nat.le_add_right _ _)

/-- Digits are read to the end if the number stays below the bound. -/
theorem digits_eq_ok_iff (h : ds ≠ [] ∨ n < bound) : digits bound n ds = .ok m ↔
    (∀ d ∈ ds, d.isDigit = true) ∧ Nat.ofDigitChars 10 ds n = m ∧ m < bound := by
  induction ds generalizing n with
  | nil =>
    have hn : n < bound := h.resolve_left (absurd rfl)
    constructor
    · rintro ⟨⟩
      exact ⟨nofun, rfl, hn⟩
    · rintro ⟨-, rfl, -⟩
      rfl
  | cons c ds ih =>
    rw [digits, List.forall_mem_cons, Nat.ofDigitChars_cons, Nat.mul_comm]
    by_cases hc : c.isDigit = true
    · rw [if_pos hc, and_iff_right hc]
      dsimp only
      split
      · rename_i hlt
        exact ih (.inr hlt)
      · rename_i hge
        refine iff_of_false nofun ?_
        rintro ⟨-, rfl, hlt⟩
        exact hge (Nat.lt_of_le_of_lt (le_ofDigitChars ds _) hlt)
    · rw [if_neg hc]
      exact iff_of_false nofun fun h => hc h.1.1

theorem shows_plus_iff : Shows ('+' :: ds) n ↔
    ds ≠ [] ∧ (∀ d ∈ ds, d.isDigit = true) ∧ Nat.ofDigitChars 10 ds 0 = n := by
  constructor
  · intro h
    cases h with
    | plain _ hds => exact absurd (hds '+' List.mem_cons_self) (by decide)
    | plus hne hds => exact ⟨hne, hds, rfl⟩
  · rintro ⟨hne, hds, rfl⟩
    exact .plus hne hds

theorem shows_iff (h : ds.head? ≠ some '+') : Shows ds n ↔
    ds ≠ [] ∧ (∀ d ∈ ds, d.isDigit = true) ∧ Nat.ofDigitChars 10 ds 0 = n := by
  constructor
  · intro hs
    cases hs with
    | plain hne hds => exact ⟨hne, hds, rfl⟩
    | plus => exact absurd rfl h
  · rintro ⟨hne, hds, rfl⟩
    exact .plain hne hds

/-- A text is read as the number that it shows, if that is below the bound. -/
theorem read_eq_ok_iff {s : String} : read bound s = .ok n ↔ Shows s.toList n ∧ n < bound := by
  have hdigits (ds : List Char) (hne : ds ≠ []) : digits bound 0 ds = .ok n ↔
      (ds ≠ [] ∧ (∀ d ∈ ds, d.isDigit = true) ∧ Nat.ofDigitChars 10 ds 0 = n) ∧ n < bound := by
    rw [digits_eq_ok_iff (.inl hne), and_iff_right hne, and_assoc]
  unfold read
  split
  · rename_i hs
    rw [hs, shows_iff (by simp)]
    exact iff_of_false nofun fun h => h.1.1 rfl
  · rename_i hs
    rw [hs, shows_plus_iff]
    exact iff_of_false nofun fun h => h.1.1 rfl
  · rename_i ds hne hs
    rw [hs, shows_plus_iff, hdigits ds hne]
  · rename_i hempty _ hplus
    have hhead : s.toList.head? ≠ some '+' := by
      intro h
      obtain ⟨ds, hds⟩ := List.head?_eq_some_iff.1 h
      exact hplus ds hds
    rw [shows_iff hhead, hdigits s.toList hempty]

end AccountSync.Decimal
