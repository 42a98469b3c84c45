import Mathlib.Algebra.Order.Field.Rat
import Mathlib.Data.Nat.Cast.Field
import Mathlib.Tactic.FieldSimp
import Mathlib.Tactic.Linarith
import Mathlib.Tactic.Ring
import AccountSync.Duration
/-!
Amounts added to spans of time. A span and an amount more is as long as the two together, to the
nanosecond (`Duration.addAmount_eq_ok_iff`); nothing is added if that cannot be counted in words of
64 bits or does not come out whole.
-/

namespace AccountSync

theorem bind_eq_ok_iff {ε α β : Type} {x : Except ε α} {f : α → Except ε β} {b : β} :
    (x >>= f) = .ok b ↔ ∃ a, x = .ok a ∧ f a = .ok b := by
  cases x with
  | error e => exact ⟨nofun, nofun⟩
  | ok a => exact ⟨fun h => ⟨a, rfl, h⟩, fun ⟨_, ha, h⟩ => Except.ok.inj ha ▸ h⟩

namespace Duration

variable {d d' : Duration} {n : Nat}

/-- The nanoseconds of a span. -/
def inNanos (d : Duration) : Nat := d.seconds * 1000000000 + d.nanos

theorem inNanos_inj (h : d.inNanos = d'.inNanos) : d = d' := by
  obtain ⟨s, n, hs, hn⟩ := d
  obtain ⟨s', n', hs', hn'⟩ := d'
  have hsum : s * 1000000000 + n = s' * 1000000000 + n' := h
  obtain rfl : s = s' := by omega
  obtain rfl : n = n' := by omega
  rfl

theorem inNanos_lt (d : Duration) : d.inNanos < UInt64.size * 1000000000 := by
  have hseconds := d.seconds_lt
  have hnanos := d.nanos_lt
  unfold inNanos
  omega

/-- The nanoseconds of a unit. -/
def TimeUnit.inNanos (u : TimeUnit) : Nat := u.measure.1 * 1000000000 + u.measure.2

/-- The nanoseconds of a unit are those that its fractions are counted in. -/
theorem TimeUnit.inNanos_of_fine {u : TimeUnit} {fine : Nat × Nat} (h : fine ∈ u.fine) :
    u.inNanos = fine.1 * 1000000000 + fine.2 := by
  cases u <;> cases h <;> rfl

theorem TimeUnit.fine_le {u : TimeUnit} {fine : Nat × Nat} (h : fine ∈ u.fine) :
    fine.2 ≤ 60000000000 := by
  cases u <;> cases h <;> decide

/-! ### Adding to a span -/

theorem word_eq_ok_iff {m : Nat} : word n = .ok m ↔ n < UInt64.size ∧ n = m := by
  unfold word
  split
  · rename_i h
    exact ⟨fun he => ⟨h, Except.ok.inj he⟩, fun he => congrArg _ he.2⟩
  · rename_i h
    exact ⟨nofun, fun he => absurd he.1 h⟩

theorem of?_eq_some_iff {s : Nat} : of? s n = some d ↔ d.inNanos = s * 1000000000 + n := by
  have hnanos := d.nanos_lt
  unfold of?
  split
  · rename_i h
    constructor
    · rintro ⟨rfl⟩
      simp only [inNanos]
      omega
    · intro hd
      have hsame : (s + n / 1000000000) * 1000000000 + n % 1000000000 = d.inNanos := by omega
      exact congrArg some (inNanos_inj hsame)
  · rename_i h
    refine ⟨nofun, fun hd => absurd ?_ h⟩
    have hseconds := d.seconds_lt
    simp only [inNanos] at hd
    omega

theorem add_eq_ok_iff {s : Nat} : d.add s n = .ok d' ↔
    d.nanos + n < UInt64.size ∧ d'.inNanos = d.inNanos + (s * 1000000000 + n) := by
  have hsum : (d.seconds + s) * 1000000000 + (d.nanos + n) =
      d.inNanos + (s * 1000000000 + n) := by
    simp only [inNanos]
    omega
  rw [add, bind_eq_ok_iff]
  simp only [word_eq_ok_iff]
  constructor
  · rintro ⟨_, ⟨hlt, rfl⟩, h⟩
    cases hof : of? (d.seconds + s) (d.nanos + n) with
    | none => rw [hof] at h; cases h
    | some d₁ =>
      rw [hof] at h
      obtain rfl := Except.ok.inj h
      exact ⟨hlt, (of?_eq_some_iff.1 hof).trans hsum⟩
  · rintro ⟨hlt, hd⟩
    refine ⟨_, ⟨hlt, rfl⟩, ?_⟩
    rw [of?_eq_some_iff.2 (hd.trans hsum.symm)]
    rfl

/-- A number of whole units is added if its nanoseconds are counted in a word. -/
theorem addWhole_eq_ok_iff {u : TimeUnit} : d.addWhole n u = .ok d' ↔
    d.nanos + n * u.measure.2 < UInt64.size ∧ d'.inNanos = d.inNanos + n * u.inNanos := by
  have hunits : n * u.inNanos = n * u.measure.1 * 1000000000 + n * u.measure.2 := by
    rw [TimeUnit.inNanos, Nat.mul_add, Nat.mul_assoc]
  have hlong := d'.inNanos_lt
  rw [addWhole, hunits]
  simp only [bind_eq_ok_iff, word_eq_ok_iff, add_eq_ok_iff]
  constructor
  · rintro ⟨_, ⟨-, rfl⟩, _, ⟨-, rfl⟩, h⟩
    exact h
  · rintro ⟨hlt, hd⟩
    exact ⟨_, ⟨by omega, rfl⟩, _, ⟨by omega, rfl⟩, hlt, hd⟩

/-- The nanoseconds of a fraction of a unit can be counted, and come out whole. -/
structure Fraction.Fits (f : Fraction) (fine : Nat × Nat) : Prop where
  seconds_lt : f.digits * fine.1 < UInt64.size
  nanos_lt : f.digits * fine.2 < UInt64.size
  seconds_dvd : f.power ∣ f.digits * fine.1
  nanos_dvd : f.power ∣ f.digits * fine.2

theorem addFraction_eq_ok_iff {f : Fraction} {u : TimeUnit} (hf : f.digits < f.power) :
    d.addFraction f u = .ok d' ↔ ∃ fine ∈ u.fine, f.Fits fine ∧
      d'.inNanos = d.inNanos +
        (f.digits * fine.1 / f.power * 1000000000 + f.digits * fine.2 / f.power) := by
  rw [addFraction]
  cases hu : u.fine with
  | none => exact ⟨nofun, nofun⟩
  | some fine =>
    obtain ⟨s, n⟩ := fine
    -- A fraction is less than its unit, so its nanoseconds are never too many to add.
    have hshort : d.nanos + f.digits * n / f.power < UInt64.size := by
      have hn : n ≤ 60000000000 := @TimeUnit.fine_le u (s, n) hu
      have hle : f.digits * n / f.power ≤ n :=
        Nat.div_le_of_le_mul (Nat.mul_le_mul_right n (Nat.le_of_lt hf))
      have hnanos := d.nanos_lt
      have hsize : UInt64.size = 18446744073709551616 := rfl
      omega
    simp only [bind_eq_ok_iff, word_eq_ok_iff, Option.mem_some_iff, exists_eq_left']
    constructor
    · rintro ⟨_, ⟨hs, rfl⟩, _, ⟨hn, rfl⟩, h⟩
      split at h
      · rename_i hdvd
        exact ⟨⟨hs, hn, Nat.dvd_of_mod_eq_zero hdvd.1, Nat.dvd_of_mod_eq_zero hdvd.2⟩,
          (add_eq_ok_iff.1 h).2⟩
      · cases h
    · rintro ⟨hfits, hd⟩
      refine ⟨_, ⟨hfits.seconds_lt, rfl⟩, _, ⟨hfits.nanos_lt, rfl⟩, ?_⟩
      rw [if_pos ⟨Nat.mod_eq_zero_of_dvd hfits.seconds_dvd, Nat.mod_eq_zero_of_dvd hfits.nanos_dvd⟩]
      exact add_eq_ok_iff.2 ⟨hshort, hd⟩

/-! ### Adding an amount -/

/-- How much of a unit a fraction is. -/
def Fraction.value (f : Fraction) : ℚ := f.digits / f.power

/-- A span and an amount more. On the way it is counted in words of 64 bits. -/
structure Adds (d : Duration) (n : Nat) (f : Option Fraction) (u : TimeUnit) (d' : Duration) :
    Prop where
  sum : (d'.inNanos : ℚ) = d.inNanos + (n + (f.map Fraction.value).getD 0) * u.inNanos
  nanos_lt : d.nanos + n * u.measure.2 < UInt64.size
  fits : ∀ g ∈ f, g.power < UInt64.size ∧ ∃ fine ∈ u.fine, g.Fits fine

section Adding

variable {f : Fraction} {fine : Nat × Nat} {u : TimeUnit} {name : String}

/-- A fraction that can be counted in words. -/
structure Fraction.Sound (f : Fraction) : Prop where
  digits_lt : f.digits < f.power
  power_lt : f.power < UInt64.size

theorem Fraction.Fits.value (h : f.Fits fine) (hf : f.Sound) (hu : fine ∈ u.fine) :
    f.value * u.inNanos = ((f.digits * fine.1 / f.power * 1000000000 +
      f.digits * fine.2 / f.power : ℕ) : ℚ) := by
  have hpower : (f.power : ℚ) ≠ 0 := by
    have hpos := hf.digits_lt
    exact_mod_cast (by omega : f.power ≠ 0)
  rw [TimeUnit.inNanos_of_fine hu, Fraction.value]
  push_cast [Nat.cast_div h.seconds_dvd hpower, Nat.cast_div h.nanos_dvd hpower]
  field_simp

theorem Adds.number_lt {d d' : Duration} {n : Nat} {f : Option Fraction} (h : Adds d n f u d') :
    n < UInt64.size := by
  have hvalue : 0 ≤ (f.map Fraction.value).getD 0 * (u.inNanos : ℚ) := by
    cases f with
    | none => simp
    | some g =>
      exact mul_nonneg (div_nonneg (Nat.cast_nonneg _) (Nat.cast_nonneg _)) (Nat.cast_nonneg _)
  have hsum : d.inNanos + n * u.inNanos ≤ d'.inNanos := by
    have hle : (d.inNanos : ℚ) + n * u.inNanos ≤ d'.inNanos := by
      rw [h.sum, add_mul]
      linarith
    exact_mod_cast hle
  have hlong := d'.inNanos_lt
  have hnanos := h.nanos_lt
  -- Short units are counted in nanoseconds, which fit a word; long ones in the span that they add to.
  rw [TimeUnit.inNanos] at hsum
  cases u <;> simp only [TimeUnit.measure] at hsum hnanos <;> omega

/-- An amount is added if its unit is known, as far as it can be counted. -/
theorem addAmount_eq_ok_iff {d d' : Duration} {n : Nat} {f : Option Fraction}
    (hf : ∀ g ∈ f, g.Sound) : d.addAmount n f name = .ok d' ↔
      ∃ u, TimeUnit.ofName? name = some u ∧ Adds d n f u d' := by
  rw [addAmount]
  cases hname : TimeUnit.ofName? name with
  | none => exact ⟨nofun, nofun⟩
  | some u =>
    simp only [Option.some.injEq, exists_eq_left', bind_eq_ok_iff, addWhole_eq_ok_iff]
    cases f with
    | none =>
      constructor
      · rintro ⟨d₁, ⟨hlt, hd₁⟩, hd⟩
        obtain rfl : d₁ = d' := Except.ok.inj hd
        exact ⟨by simp [hd₁], hlt, nofun⟩
      · intro h
        refine ⟨d', ⟨h.nanos_lt, ?_⟩, rfl⟩
        have hsum := h.sum
        simp only [Option.map_none, Option.getD_none, add_zero] at hsum
        exact_mod_cast hsum
    | some g =>
      have hg := hf g rfl
      simp only [addFraction_eq_ok_iff hg.digits_lt]
      constructor
      · rintro ⟨d₁, ⟨hlt, hd₁⟩, fine, hfine, hfits, hd'⟩
        refine ⟨?_, hlt, ?_⟩
        · rw [hd', hd₁, Option.map_some, Option.getD_some, add_mul, hfits.value hg hfine]
          push_cast
          ring
        · rintro _ ⟨rfl⟩
          exact ⟨hg.power_lt, fine, hfine, hfits⟩
      · intro h
        obtain ⟨-, fine, hfine, hfits⟩ := h.fits g rfl
        have hsum : d'.inNanos = d.inNanos + n * u.inNanos +
            (g.digits * fine.1 / g.power * 1000000000 + g.digits * fine.2 / g.power) := by
          have hcast := h.sum
          rw [Option.map_some, Option.getD_some, add_mul, hfits.value hg hfine,
            ← add_assoc] at hcast
          exact_mod_cast hcast
        -- The whole units alone are shorter than the outcome, so they can be added first.
        obtain ⟨d₁, hd₁⟩ : ∃ d₁ : Duration, d₁.inNanos = d.inNanos + n * u.inNanos := by
          have hle : d.inNanos + n * u.inNanos ≤ d'.inNanos := Nat.le.intro hsum.symm
          have hlong := d'.inNanos_lt
          have hlt : (d.inNanos + n * u.inNanos) / 1000000000 < UInt64.size := by omega
          refine ⟨⟨(d.inNanos + n * u.inNanos) / 1000000000,
            (d.inNanos + n * u.inNanos) % 1000000000, hlt, Nat.mod_lt _ (by decide)⟩, ?_⟩
          exact Nat.div_add_mod' _ _
        exact ⟨d₁, ⟨h.nanos_lt, hd₁⟩, fine, hfine, hfits, by rw [hd₁]; exact hsum⟩

end Adding

end Duration

end AccountSync
