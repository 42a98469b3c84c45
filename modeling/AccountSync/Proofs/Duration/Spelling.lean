import AccountSync.Proofs.Duration
import AccountSync.Proofs.Duration.Adding
import AccountSync.Proofs.Text.Decimal
/-!
How spans of time are spelled: `Duration.Spelled` is the grammar, amounts with blanks around them.
For each stage that a reader of such a text goes through it is said what the rest of the text has to
be (`Duration.Stage.Means`), and how that depends on the next character (`Duration.spelled_cons_iff`
and its likes).
-/

namespace AccountSync

namespace Duration

/-! ### How spans are spelled -/

/-- Digits and blanks. -/
def Loose (cs : List Char) : Prop := ∀ c ∈ cs, c.isDigit = true ∨ CharSet.blank.contains c = true

/-- The number to which digits among characters bring `n`. -/
def grow (n : Nat) (cs : List Char) : Nat := Nat.ofDigitChars 10 (cs.filter Char.isDigit) n

/-- The fraction to which digits among characters bring `f`. -/
def Fraction.grow (f : Fraction) (cs : List Char) : Fraction :=
  ⟨Duration.grow f.digits cs, f.power * 10 ^ (cs.filter Char.isDigit).length⟩

/-- Characters are a name of a unit. -/
def Names (cs : List Char) (u : TimeUnit) : Prop := TimeUnit.ofName? (String.ofList cs) = some u

/-- The end of an amount: perhaps a point and digits, then the name of the unit. -/
inductive Tail : List Char → Option Fraction → TimeUnit → Prop where
  | whole {name : List Char} {u : TimeUnit} (hname : Names name u) : Tail name none u
  | part {cs name : List Char} {u : TimeUnit} (hcs : Loose cs)
      (hdigit : ∃ c ∈ cs, c.isDigit = true) (hname : Names name u) :
      Tail ('.' :: (cs ++ name)) (some (Fraction.grow ⟨0, 1⟩ cs)) u

/-- What a text says after a span, if one was read: amounts, each of which begins with a digit, and
blanks. -/
inductive Spelled : Option Duration → List Char → Duration → Prop where
  | done {d : Duration} : Spelled (some d) [] d
  | blank {total : Option Duration} {c : Char} {cs : List Char} {d : Duration}
      (hc : CharSet.blank.contains c = true) (h : Spelled total cs d) : Spelled total (c :: cs) d
  | amount {total : Option Duration} {c : Char} {whole tail rest : List Char} {f : Option Fraction}
      {u : TimeUnit} {d₁ d : Duration} (hc : c.isDigit = true) (hwhole : Loose whole)
      (htail : Tail tail f u) (hadd : Adds (total.getD zero) (grow 0 (c :: whole)) f u d₁)
      (h : Spelled (some d₁) rest d) : Spelled total (c :: (whole ++ (tail ++ rest))) d

/-- The span that a text spells. -/
def Spells (s : String) (d : Duration) : Prop := s = "0" ∧ d = zero ∨ Spelled none s.toList d

/-! ### Characters -/

section Characters

variable {c : Char} {cs : List Char} {f : Fraction} {u : TimeUnit}

theorem not_isDigit_of_blank (h : CharSet.blank.contains c = true) : ¬ c.isDigit = true := by
  intro hc
  have htable : ∀ n < 58, 48 ≤ n → CharSet.insideAt n false CharSet.blank.bounds = false := by
    decide
  have hcode : 48 ≤ c.toNat ∧ c.toNat < 58 := by
    have hbounds := hc
    simp only [Char.isDigit, Bool.and_eq_true, decide_eq_true_eq] at hbounds
    exact ⟨hbounds.1, Nat.lt_succ_of_le hbounds.2⟩
  exact Bool.false_ne_true ((htable c.toNat hcode.2 hcode.1).symm.trans h)

theorem Names.letters (h : Names cs u) : cs ≠ [] ∧ ∀ c ∈ cs, UnitLetter c := by
  obtain ⟨hempty, hletters⟩ := letters_of_ofName h
  rw [String.toList_ofList] at hletters
  refine ⟨?_, hletters⟩
  rintro rfl
  exact hempty rfl

theorem UnitLetter.not_isDigit (h : UnitLetter c) : ¬ c.isDigit = true := by
  intro hc
  have hsome : digit? c = some (c.toNat - '0'.toNat) := if_pos hc
  cases hsome.symm.trans h.digit

/-- A character as a reader sees it. -/
inductive Kind (c : Char) : Prop where
  | digit (hdigit : c.isDigit = true) (hblank : CharSet.blank.contains c = false)
      (hname : ¬ UnitLetter c) (hpoint : c ≠ '.')
  | blank (hdigit : c.isDigit = false) (hblank : CharSet.blank.contains c = true)
      (hname : ¬ UnitLetter c) (hpoint : c ≠ '.')
  | letter (hdigit : c.isDigit = false) (hblank : CharSet.blank.contains c = false)
      (hletter : isLetter c = true) (hname : UnitLetter c) (hpoint : c ≠ '.')
  | other (hdigit : c.isDigit = false) (hblank : CharSet.blank.contains c = false)
      (hletter : isLetter c = false) (hname : ¬ UnitLetter c)

theorem kind (c : Char) : Kind c := by
  cases hdigit : c.isDigit with
  | true =>
    have hblank := Bool.eq_false_of_not_eq_true fun h => not_isDigit_of_blank h hdigit
    exact .digit hdigit hblank (fun h => h.not_isDigit hdigit) (by rintro rfl; cases hdigit)
  | false =>
    cases hblank : CharSet.blank.contains c with
    | true =>
      have hname : ¬ UnitLetter c := fun h => Bool.false_ne_true (h.blank.symm.trans hblank)
      exact .blank hdigit hblank hname (by rintro rfl; cases hblank)
    | false =>
      have hnone : digit? c = none := if_neg (Bool.eq_false_iff.1 hdigit)
      cases hletter : isLetter c with
      | true =>
        have hpoint : c ≠ '.' := by
          rintro rfl
          cases hletter
        exact .letter hdigit hblank hletter ⟨hletter, hnone, hblank⟩ hpoint
      | false =>
        have hname : ¬ UnitLetter c := fun h => Bool.false_ne_true (hletter.symm.trans h.letter)
        exact .other hdigit hblank hletter hname

theorem grow_cons_digit {n : Nat} (h : c.isDigit = true) (cs : List Char) :
    grow n (c :: cs) = grow (n * 10 + (c.toNat - '0'.toNat)) cs := by
  rw [grow, List.filter_cons_of_pos h, Nat.ofDigitChars_cons, Nat.mul_comm]
  rfl

theorem grow_cons_of_not {n : Nat} (h : ¬ c.isDigit = true) (cs : List Char) :
    grow n (c :: cs) = grow n cs := by
  rw [grow, List.filter_cons_of_neg h]
  rfl

theorem le_grow (n : Nat) (cs : List Char) : n ≤ grow n cs := Decimal.le_ofDigitChars _ n

theorem Fraction.grow_cons_digit (h : c.isDigit = true) (cs : List Char) :
    f.grow (c :: cs) = Fraction.grow ⟨f.digits * 10 + (c.toNat - '0'.toNat), f.power * 10⟩ cs := by
  rw [grow, Duration.grow_cons_digit h, List.filter_cons_of_pos h, List.length_cons, pow_succ',
    ← Nat.mul_assoc]
  rfl

theorem Fraction.grow_cons_of_not (h : ¬ c.isDigit = true) (cs : List Char) :
    f.grow (c :: cs) = f.grow cs := by
  rw [grow, Duration.grow_cons_of_not h, List.filter_cons_of_neg h]
  rfl

theorem Fraction.le_power_grow (f : Fraction) (cs : List Char) : f.power ≤ (f.grow cs).power :=
  Nat.le_mul_of_pos_right _ (Nat.pow_pos (by decide))

end Characters

/-! ### What a reader at a stage goes on to read -/

section Stages

variable {total : Option Duration} {n : Nat} {f : Fraction} {g : Option Fraction}
  {letters : List Char} {c : Char} {cs : List Char} {d : Duration}

/-- The rest of the name of a unit, and what comes after the amount. -/
def InUnit (total : Option Duration) (n : Nat) (g : Option Fraction) (letters cs : List Char)
    (d : Duration) : Prop :=
  ∃ more rest u d₁, cs = more ++ rest ∧ Names (letters.reverse ++ more) u ∧
    Adds (total.getD zero) n g u d₁ ∧ Spelled (some d₁) rest d

/-- The rest of a fraction, and the unit. -/
def InPart (total : Option Duration) (n : Nat) (f : Fraction) (cs : List Char) (d : Duration) :
    Prop :=
  ∃ more rest, cs = more ++ rest ∧ Loose more ∧ (f.grow more).power ≠ 1 ∧
    InUnit total n (some (f.grow more)) [] rest d

/-- What can come after the digits before the point. -/
def AfterWhole (total : Option Duration) (n : Nat) (cs : List Char) (d : Duration) : Prop :=
  InUnit total n none [] cs d ∨ ∃ rest, cs = '.' :: rest ∧ InPart total n ⟨0, 1⟩ rest d

/-- The rest of the digits before the point, and what comes after them. -/
def InWhole (total : Option Duration) (n : Nat) (cs : List Char) (d : Duration) : Prop :=
  ∃ more rest, cs = more ++ rest ∧ Loose more ∧ AfterWhole total (grow n more) rest d

theorem power_grow_ne_one_iff :
    (Fraction.grow ⟨0, 1⟩ cs).power ≠ 1 ↔ ∃ c ∈ cs, c.isDigit = true := by
  have hpower : (Fraction.grow ⟨0, 1⟩ cs).power = 10 ^ (cs.filter Char.isDigit).length :=
    Nat.one_mul _
  rw [hpower, Ne, Nat.pow_eq_one, List.length_eq_zero_iff, List.filter_eq_nil_iff]
  simp

theorem afterWhole_iff : AfterWhole total n cs d ↔ ∃ tail rest g u d₁, cs = tail ++ rest ∧
    Tail tail g u ∧ Adds (total.getD zero) n g u d₁ ∧ Spelled (some d₁) rest d := by
  constructor
  · rintro (⟨more, rest, u, d₁, rfl, hname, hadd, hrest⟩ | ⟨_, rfl, more, _, rfl, hloose, hpower,
      name, rest, u, d₁, rfl, hname, hadd, hrest⟩)
    · exact ⟨more, rest, none, u, d₁, rfl, .whole hname, hadd, hrest⟩
    · refine ⟨'.' :: (more ++ name), rest, _, u, d₁, ?_,
        .part hloose (power_grow_ne_one_iff.1 hpower) hname, hadd, hrest⟩
      rw [List.cons_append, List.append_assoc]
  · rintro ⟨_, rest, _, u, d₁, rfl, htail, hadd, hrest⟩
    cases htail with
    | whole hname => exact .inl ⟨_, rest, u, d₁, rfl, hname, hadd, hrest⟩
    | @part more name _ hloose hdigit hname =>
      refine .inr ⟨more ++ (name ++ rest), by simp, more, name ++ rest, rfl, hloose,
        power_grow_ne_one_iff.2 hdigit, name, rest, u, d₁, rfl, hname, hadd, hrest⟩

theorem spelled_nil_iff : Spelled total [] d ↔ total = some d := by
  constructor
  · intro h
    cases h
    rfl
  · rintro rfl
    exact .done

/-- The first character of what comes after a span is a digit or a blank. -/
theorem spelled_cons_iff : Spelled total (c :: cs) d ↔
    (c.isDigit = true ∧ InWhole total (c.toNat - '0'.toNat) cs d) ∨
      (CharSet.blank.contains c = true ∧ Spelled total cs d) := by
  have hgrow (h : c.isDigit = true) (more : List Char) :
      grow 0 (c :: more) = grow (c.toNat - '0'.toNat) more := by
    rw [grow_cons_digit h, Nat.zero_mul, Nat.zero_add]
  constructor
  · intro h
    cases h with
    | blank hc h => exact .inr ⟨hc, h⟩
    | @amount _ _ whole tail rest g u d₁ _ hc hwhole htail hadd h =>
      rw [hgrow hc] at hadd
      exact .inl ⟨hc, whole, tail ++ rest, rfl, hwhole,
        afterWhole_iff.2 ⟨tail, rest, g, u, d₁, rfl, htail, hadd, h⟩⟩
  · rintro (⟨hc, whole, _, rfl, hwhole, h⟩ | ⟨hc, h⟩)
    · obtain ⟨tail, rest, g, u, d₁, rfl, htail, hadd, hrest⟩ := afterWhole_iff.1 h
      rw [← hgrow hc] at hadd
      exact .amount hc hwhole htail hadd hrest
    · exact .blank hc h

theorem inUnit_cons_iff : InUnit total n g letters (c :: cs) d ↔
    (UnitLetter c ∧ InUnit total n g (c :: letters) cs d) ∨
      ∃ d₁, (∃ u, Names letters.reverse u ∧ Adds (total.getD zero) n g u d₁) ∧
        Spelled (some d₁) (c :: cs) d := by
  constructor
  · rintro ⟨more, rest, u, d₁, hcs, hname, hadd, hrest⟩
    cases more with
    | nil =>
      rw [List.append_nil] at hname
      rw [List.nil_append] at hcs
      exact .inr ⟨d₁, ⟨u, hname, hadd⟩, hcs ▸ hrest⟩
    | cons x more =>
      obtain ⟨rfl, rfl⟩ := List.cons.inj hcs
      refine .inl ⟨hname.letters.2 c (by simp), more, rest, u, d₁, rfl, ?_, hadd, hrest⟩
      rwa [List.reverse_cons, List.append_assoc]
  · rintro (⟨-, more, rest, u, d₁, rfl, hname, hadd, hrest⟩ | ⟨d₁, ⟨u, hname, hadd⟩, hrest⟩)
    · rw [List.reverse_cons, List.append_assoc] at hname
      exact ⟨c :: more, rest, u, d₁, rfl, hname, hadd, hrest⟩
    · exact ⟨[], c :: cs, u, d₁, rfl, by rwa [List.append_nil], hadd, hrest⟩

/-- A name has at least one letter. -/
theorem not_inUnit_nil : ¬ InUnit total n g [] [] d := by
  rintro ⟨more, rest, u, d₁, hcs, hname, -⟩
  obtain ⟨rfl, -⟩ := List.append_eq_nil_iff.1 hcs.symm
  exact hname.letters.1 rfl

theorem inUnit_nil_cons_iff : InUnit total n g [] (c :: cs) d ↔
    UnitLetter c ∧ InUnit total n g [c] cs d := by
  rw [inUnit_cons_iff]
  refine or_iff_left ?_
  rintro ⟨d₁, ⟨u, hname, -⟩, -⟩
  exact hname.letters.1 rfl

/-- Digits and blanks in front either begin with the first character or are none. -/
theorem exists_loose_cons_iff {P : List Char → List Char → Prop} :
    (∃ more rest, c :: cs = more ++ rest ∧ Loose more ∧ P more rest) ↔
      ((c.isDigit = true ∨ CharSet.blank.contains c = true) ∧
        ∃ more rest, cs = more ++ rest ∧ Loose more ∧ P (c :: more) rest) ∨ P [] (c :: cs) := by
  constructor
  · rintro ⟨more, rest, hcs, hloose, h⟩
    cases more with
    | nil => exact .inr (hcs ▸ h)
    | cons x more =>
      obtain ⟨rfl, rfl⟩ := List.cons.inj hcs
      obtain ⟨hc, hloose⟩ := List.forall_mem_cons.1 hloose
      exact .inl ⟨hc, more, rest, rfl, hloose, h⟩
  · rintro (⟨hc, more, rest, rfl, hloose, h⟩ | h)
    · exact ⟨c :: more, rest, rfl, List.forall_mem_cons.2 ⟨hc, hloose⟩, h⟩
    · exact ⟨[], c :: cs, rfl, List.forall_mem_nil _, h⟩

theorem inPart_cons_iff : InPart total n f (c :: cs) d ↔
    (c.isDigit = true ∧ InPart total n ⟨f.digits * 10 + (c.toNat - '0'.toNat), f.power * 10⟩ cs d) ∨
      (CharSet.blank.contains c = true ∧ InPart total n f cs d) ∨
      (f.power ≠ 1 ∧ UnitLetter c ∧ InUnit total n (some f) [c] cs d) := by
  have hnil : f.grow [] = f := by simp [Fraction.grow, grow]
  rw [InPart, exists_loose_cons_iff, or_and_right, or_assoc]
  refine or_congr (and_congr_right fun hc => ?_) (or_congr (and_congr_right fun hc => ?_) ?_)
  · simp only [Fraction.grow_cons_digit hc, InPart]
  · simp only [Fraction.grow_cons_of_not (not_isDigit_of_blank hc), InPart]
  · rw [hnil, inUnit_nil_cons_iff]

theorem not_inPart_nil : ¬ InPart total n f [] d := by
  rintro ⟨more, rest, hcs, -, -, h⟩
  obtain ⟨-, rfl⟩ := List.append_eq_nil_iff.1 hcs.symm
  exact not_inUnit_nil h

theorem inWhole_cons_iff : InWhole total n (c :: cs) d ↔
    (c.isDigit = true ∧ InWhole total (n * 10 + (c.toNat - '0'.toNat)) cs d) ∨
      (CharSet.blank.contains c = true ∧ InWhole total n cs d) ∨
      (UnitLetter c ∧ InUnit total n none [c] cs d) ∨ (c = '.' ∧ InPart total n ⟨0, 1⟩ cs d) := by
  have hnil : grow n [] = n := rfl
  rw [InWhole, exists_loose_cons_iff, or_and_right, or_assoc]
  refine or_congr (and_congr_right fun hc => ?_) (or_congr (and_congr_right fun hc => ?_) ?_)
  · simp only [grow_cons_digit hc, InWhole]
  · simp only [grow_cons_of_not (not_isDigit_of_blank hc), InWhole]
  · rw [hnil, AfterWhole, inUnit_nil_cons_iff]
    refine or_congr_right ⟨?_, ?_⟩
    · rintro ⟨rest, hcs, h⟩
      obtain ⟨rfl, rfl⟩ := List.cons.inj hcs
      exact ⟨rfl, h⟩
    · rintro ⟨rfl, h⟩
      exact ⟨cs, rfl, h⟩

theorem not_inWhole_nil : ¬ InWhole total n [] d := by
  rintro ⟨more, rest, hcs, -, h⟩
  obtain ⟨-, rfl⟩ := List.append_eq_nil_iff.1 hcs.symm
  rcases h with h | ⟨rest, hcs, -⟩
  · exact not_inUnit_nil h
  · cases hcs

theorem InUnit.number_lt (h : InUnit total n g letters cs d) : n < UInt64.size := by
  obtain ⟨more, rest, u, d₁, -, -, hadd, -⟩ := h
  exact hadd.number_lt

theorem InPart.number_lt (h : InPart total n f cs d) : n < UInt64.size := by
  obtain ⟨more, rest, -, -, -, h⟩ := h
  exact h.number_lt

theorem InPart.power_lt (h : InPart total n f cs d) : f.power < UInt64.size := by
  obtain ⟨more, rest, -, -, -, name, rest', u, d₁, -, -, hadd, -⟩ := h
  exact Nat.lt_of_le_of_lt (f.le_power_grow more) (hadd.fits _ rfl).1

theorem InWhole.number_lt (h : InWhole total n cs d) : n < UInt64.size := by
  obtain ⟨more, rest, -, -, h | ⟨rest', -, h⟩⟩ := h
  · exact Nat.lt_of_le_of_lt (le_grow n more) h.number_lt
  · exact Nat.lt_of_le_of_lt (le_grow n more) h.number_lt

/-- A fraction gets one more place. -/
theorem Fraction.Sound.grow (hf : f.Sound) (hc : c.isDigit = true) :
    f.digits * 10 + (c.toNat - '0'.toNat) < f.power * 10 := by
  have hdigits := hf.digits_lt
  have hvalue : c.toNat - '0'.toNat < 10 := by
    simp only [Char.isDigit, Bool.and_eq_true, decide_eq_true_eq] at hc
    have hcode : c.toNat ≤ 57 := hc.2
    have hzero : '0'.toNat = 48 := rfl
    omega
  omega

/-- What a text goes on to say when its reader is at a stage. -/
def Stage.Means (total : Option Duration) : Stage → List Char → Duration → Prop
  | .before _ => Spelled total
  | .whole n => InWhole total n
  | .part n f _ => InPart total n f
  | .unit n g letters => InUnit total n g letters

/-- The fraction that a stage has is counted in words. -/
def Stage.Sound : Stage → Prop
  | .before _ | .whole _ => True
  | .part _ f _ => f.Sound
  | .unit _ g _ => ∀ f ∈ g, f.Sound

end Stages

end Duration

end AccountSync
