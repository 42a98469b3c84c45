import Mathlib.Algebra.GroupWithZero.Nat
import AccountSync.Duration
/-!
Every span of time is read back from its text (`Duration.read_text`): its amounts are read one after
the other, and together they are as long as the span.
-/

namespace AccountSync

namespace Duration

/-! ### The length of amounts -/

namespace Amount

/-- An amount of a unit that there is. -/
structure Of (a : Amount) (u : TimeUnit) : Prop where
  unit : TimeUnit.ofName? a.unit = some u
  count : a.count < UInt64.size

/-- The whole seconds of an amount, and its nanoseconds. -/
def length (a : Amount) : Nat × Nat :=
  match TimeUnit.ofName? a.unit with
  | some u => (a.count * u.measure.1, a.count * u.measure.2)
  | none => (0, 0)

theorem length_eq {a : Amount} {u : TimeUnit} (h : TimeUnit.ofName? a.unit = some u) :
    a.length = (a.count * u.measure.1, a.count * u.measure.2) := by
  rw [length, h]

/-- A unit is the same in the singular and the plural. -/
theorem unit_plural (u : TimeUnit) (name : String) (n : Nat) (hname : TimeUnit.ofName? name = some u)
    (hnames : TimeUnit.ofName? (name ++ "s") = some u) :
    TimeUnit.ofName? (if n > 1 then name ++ "s" else name) = some u := by
  split
  · exact hnames
  · exact hname

end Amount

/-- An amount is added if the span does not get too long. -/
theorem addAmount_ok {d : Duration} {a : Amount} {u : TimeUnit} (ha : a.Of u)
    (hseconds : d.seconds + a.length.1 < UInt64.size) (hnanos : d.nanos + a.length.2 < 1000000000) :
    d.addAmount a.count none a.unit =
      .ok ⟨d.seconds + a.length.1, d.nanos + a.length.2, hseconds, hnanos⟩ := by
  have hword : ∀ {n : Nat}, n < UInt64.size → word n = .ok n := fun h => if_pos h
  have hsize : 1000000000 < UInt64.size := by decide
  have hof : of? (d.seconds + a.length.1) (d.nanos + a.length.2) =
      some ⟨d.seconds + a.length.1, d.nanos + a.length.2, hseconds, hnanos⟩ := by
    simp only [of?, Nat.div_eq_of_lt hnanos, Nat.mod_eq_of_lt hnanos, Nat.add_zero]
    exact dif_pos hseconds
  have hadd : d.add a.length.1 a.length.2 =
      .ok ⟨d.seconds + a.length.1, d.nanos + a.length.2, hseconds, hnanos⟩ := by
    rw [add, hword (Nat.lt_trans hnanos hsize)]
    dsimp only [bind, Except.bind]
    rw [hof]
    rfl
  have hwhole : d.addWhole a.count u = d.add a.length.1 a.length.2 := by
    have hlong : a.length.1 < UInt64.size ∧ a.length.2 < UInt64.size := by omega
    rw [Amount.length_eq ha.unit] at hlong ⊢
    rw [addWhole]
    generalize u.measure = measure at hlong ⊢
    obtain ⟨seconds, nanos⟩ := measure
    dsimp only at hlong ⊢
    rw [hword hlong.1, hword hlong.2]
    rfl
  rw [addAmount, ha.unit]
  dsimp only
  rw [hwhole, hadd]
  rfl

/-- Amounts are added one after the other. -/
theorem addAmounts_ok : ∀ {l : List Amount} {d : Duration}, (∀ a ∈ l, ∃ u, a.Of u) →
    d.seconds + (l.map (·.length.1)).sum < UInt64.size →
    d.nanos + (l.map (·.length.2)).sum < 1000000000 →
    ∃ d', l.foldlM (fun d a => d.addAmount a.count none a.unit) d = .ok d' ∧
      d'.seconds = d.seconds + (l.map (·.length.1)).sum ∧
      d'.nanos = d.nanos + (l.map (·.length.2)).sum
  | [], d, _, _, _ => ⟨d, rfl, rfl, rfl⟩
  | a :: l, d, hknown, hseconds, hnanos => by
    obtain ⟨⟨u, ha⟩, hknown⟩ := List.forall_mem_cons.1 hknown
    rw [List.map_cons, List.sum_cons, ← Nat.add_assoc] at hseconds hnanos ⊢
    rw [List.map_cons, List.sum_cons, ← Nat.add_assoc]
    have hadd := addAmount_ok ha (Nat.lt_of_le_of_lt (Nat.le_add_right _ _) hseconds)
      (Nat.lt_of_le_of_lt (Nat.le_add_right _ _) hnanos)
    obtain ⟨d', hall, hd'⟩ := addAmounts_ok
      (d := ⟨d.seconds + a.length.1, d.nanos + a.length.2, _, _⟩) hknown hseconds hnanos
    refine ⟨d', ?_, hd'⟩
    rw [List.foldlM_cons, hadd]
    exact hall

theorem amounts_known {d : Duration} : ∀ a ∈ d.amounts, ∃ u, a.Of u := by
  have hseconds := d.seconds_lt
  have hnanos := d.nanos_lt
  have hsize : 1000000000 < UInt64.size := by decide
  unfold amounts
  dsimp only
  simp only [List.forall_mem_cons]
  refine ⟨⟨.year, Amount.unit_plural .year "year" _ rfl rfl, ?_⟩,
    ⟨.month, Amount.unit_plural .month "month" _ rfl rfl, ?_⟩,
    ⟨.day, Amount.unit_plural .day "day" _ rfl rfl, ?_⟩, ⟨.hour, rfl, ?_⟩, ⟨.minute, rfl, ?_⟩,
    ⟨.second, rfl, ?_⟩, ⟨.millisecond, rfl, ?_⟩, ⟨.microsecond, rfl, ?_⟩, ⟨.nanosecond, rfl, ?_⟩,
    List.forall_mem_nil _⟩ <;> dsimp only <;> omega

/-- How long amounts are together, whatever their counts. -/
theorem sum_lengths (years months days hours minutes seconds millis micros nanos : Nat) :
    let plural (n : Nat) (name : String) : Amount := ⟨n, if n > 1 then name ++ "s" else name⟩
    let l : List Amount := [plural years "year", plural months "month", plural days "day",
      ⟨hours, "h"⟩, ⟨minutes, "m"⟩, ⟨seconds, "s"⟩, ⟨millis, "ms"⟩, ⟨micros, "us"⟩, ⟨nanos, "ns"⟩]
    (l.map (·.length.1)).sum = years * 31557600 + months * 2630016 + days * 86400 + hours * 3600 +
        minutes * 60 + seconds ∧
      (l.map (·.length.2)).sum = millis * 1000000 + micros * 1000 + nanos := by
  intro plural l
  have hplural (u : TimeUnit) (name : String) (n : Nat) (hname : TimeUnit.ofName? name = some u)
      (hnames : TimeUnit.ofName? (name ++ "s") = some u) :
      (plural n name).length = (n * u.measure.1, n * u.measure.2) :=
    Amount.length_eq (Amount.unit_plural u name n hname hnames)
  have hyears := hplural .year "year" years rfl rfl
  have hmonths := hplural .month "month" months rfl rfl
  have hdays := hplural .day "day" days rfl rfl
  have hhours := Amount.length_eq (a := ⟨hours, "h"⟩) (u := .hour) rfl
  have hminutes := Amount.length_eq (a := ⟨minutes, "m"⟩) (u := .minute) rfl
  have hseconds := Amount.length_eq (a := ⟨seconds, "s"⟩) (u := .second) rfl
  have hmillis := Amount.length_eq (a := ⟨millis, "ms"⟩) (u := .millisecond) rfl
  have hmicros := Amount.length_eq (a := ⟨micros, "us"⟩) (u := .microsecond) rfl
  have hnanos := Amount.length_eq (a := ⟨nanos, "ns"⟩) (u := .nanosecond) rfl
  have hlengths : l.map Amount.length =
      [(years * 31557600, years * 0), (months * 2630016, months * 0), (days * 86400, days * 0),
        (hours * 3600, hours * 0), (minutes * 60, minutes * 0), (seconds * 1, seconds * 0),
        (millis * 0, millis * 1000000), (micros * 0, micros * 1000), (nanos * 0, nanos * 1)] := by
    simp only [l, List.map_cons, List.map_nil, hyears, hmonths, hdays,
      hhours, hminutes, hseconds, hmillis, hmicros, hnanos, TimeUnit.measure]
  -- The sum is unfolded with variables: to evaluate a product of a year's length takes long.
  have hsum (a b c d e f g h i : Nat) : [a, b, c, d, e, f, g, h, i].sum =
      a + (b + (c + (d + (e + (f + (g + (h + (i + 0)))))))) := rfl
  have hfst : l.map (·.length.1) = (l.map Amount.length).map Prod.fst := List.map_map.symm
  have hsnd : l.map (·.length.2) = (l.map Amount.length).map Prod.snd := List.map_map.symm
  rw [hfst, hsnd, hlengths]
  exact ⟨(hsum ..).trans (by omega), (hsum ..).trans (by omega)⟩

/-- The amounts of a span are together as long as the span. -/
theorem sum_amounts (d : Duration) : (d.amounts.map (·.length.1)).sum = d.seconds ∧
    (d.amounts.map (·.length.2)).sum = d.nanos := by
  have hsum := sum_lengths (d.seconds / 31557600) (d.seconds % 31557600 / 2630016)
    (d.seconds % 31557600 % 2630016 / 86400) (d.seconds % 31557600 % 2630016 % 86400 / 3600)
    (d.seconds % 31557600 % 2630016 % 86400 % 3600 / 60)
    (d.seconds % 31557600 % 2630016 % 86400 % 60) (d.nanos / 1000000)
    (d.nanos / 1000 % 1000) (d.nanos % 1000)
  refine ⟨hsum.1.trans ?_, hsum.2.trans ?_⟩ <;> omega

/-! ### Reading an amount -/

/-- A letter of the name of a unit. -/
structure UnitLetter (c : Char) : Prop where
  letter : isLetter c = true
  digit : digit? c = none
  blank : CharSet.blank.contains c = false

instance (c : Char) : Decidable (UnitLetter c) :=
  decidable_of_iff (isLetter c = true ∧ digit? c = none ∧ CharSet.blank.contains c = false)
    ⟨fun h => ⟨h.1, h.2.1, h.2.2⟩, fun h => ⟨h.letter, h.digit, h.blank⟩⟩

/-- Units have names of letters. -/
theorem letters_of_ofName {s : String} {u : TimeUnit} (h : TimeUnit.ofName? s = some u) :
    s ≠ "" ∧ ∀ c ∈ s.toList, UnitLetter c := by
  have hnames : ∀ p ∈ TimeUnit.names, ∀ name ∈ p.2, name ≠ "" ∧
      (name.toList.all fun c => decide (UnitLetter c)) = true := by decide
  obtain ⟨p, hp, -⟩ := Option.map_eq_some_iff.1 h
  have hs : s ∈ p.2 := by simpa using List.find?_some hp
  obtain ⟨hempty, hletters⟩ := hnames p (List.mem_of_find?_eq_some hp) s hs
  exact ⟨hempty, fun c hc => of_decide_eq_true (List.all_eq_true.1 hletters c hc)⟩

namespace Reader

/-- A reader that has read a span and is at a stage, wherever it is. -/
structure At (r : Reader) (total : Option Duration) (stage : Stage) : Prop where
  total : r.total = total
  stage : r.stage = stage

variable {r : Reader} {total : Option Duration}

/-- Digits go on a number, as long as it does not get too great. -/
theorem read_digits : ∀ {ds : List Char} {r : Reader} {n : Nat}, (∀ d ∈ ds, d.isDigit = true) →
    Nat.ofDigitChars 10 ds n < UInt64.size → r.At total (.whole n) →
    ∃ r', ds.foldlM step r = .ok r' ∧ r'.At total (.whole (Nat.ofDigitChars 10 ds n))
  | [], r, n, _, _, h => ⟨r, rfl, h⟩
  | d :: ds, r, n, hds, hlt, h => by
    obtain ⟨hd, hds⟩ := List.forall_mem_cons.1 hds
    rw [Nat.ofDigitChars_cons] at hlt ⊢
    have hvalue : digit? d = some (d.toNat - '0'.toNat) := if_pos hd
    have hword : word (n * 10 + (d.toNat - '0'.toNat)) = .ok (10 * n + (d.toNat - '0'.toNat)) := by
      have hle : 10 * n + (d.toNat - '0'.toNat) ≤
          Nat.ofDigitChars 10 ds (10 * n + (d.toNat - '0'.toNat)) := by
        rw [Nat.ofDigitChars_eq_ofDigitChars_zero]
        exact Nat.le_trans (Nat.le_mul_of_pos_left _ (Nat.pow_pos (by decide))) (Nat.le_add_right _ _)
      rw [Nat.mul_comm]
      exact if_pos (Nat.lt_of_le_of_lt hle hlt)
    obtain ⟨r₁, hstep, hr₁⟩ : ∃ r₁, r.step d = .ok r₁ ∧
        r₁.At total (.whole (10 * n + (d.toNat - '0'.toNat))) := by
      rw [step, h.stage]
      dsimp only
      rw [stepWhole, hvalue]
      dsimp only [bind, Except.bind]
      rw [hword]
      exact ⟨_, rfl, h.total, rfl⟩
    obtain ⟨r', hread, hr'⟩ := read_digits hds hlt hr₁
    exact ⟨r', by rw [List.foldlM_cons, hstep]; exact hread, hr'⟩

/-- The digits of a number are read as the number. -/
theorem read_number {n since : Nat} (hn : n < UInt64.size) (h : r.At total (.before since)) :
    ∃ r', (Nat.toDigits 10 n).foldlM step r = .ok r' ∧ r'.At total (.whole n) := by
  have hdigits : ∀ d ∈ Nat.toDigits 10 n, d.isDigit = true := fun d hd =>
    Nat.isDigit_of_mem_toDigits (by decide) (by decide) hd
  have hvalue := Nat.ofDigitChars_toDigits (b := 10) (n := n) (by decide) (by decide)
  obtain ⟨d, ds, hds⟩ := List.exists_cons_of_ne_nil (Nat.toDigits_ne_nil (n := n) (b := 10))
  rw [hds] at hdigits hvalue ⊢
  obtain ⟨hd, hdigits⟩ := List.forall_mem_cons.1 hdigits
  rw [Nat.ofDigitChars_cons, Nat.mul_zero, Nat.zero_add] at hvalue
  obtain ⟨r₁, hstep, hr₁⟩ : ∃ r₁, r.step d = .ok r₁ ∧
      r₁.At total (.whole (d.toNat - '0'.toNat)) := by
    have hdigit : digit? d = some (d.toNat - '0'.toNat) := if_pos hd
    rw [step, h.stage]
    dsimp only
    rw [stepBefore, hdigit]
    exact ⟨_, rfl, h.total, rfl⟩
  obtain ⟨r', hread, hr'⟩ := read_digits hdigits (by rwa [hvalue]) hr₁
  rw [hvalue] at hr'
  exact ⟨r', by rw [List.foldlM_cons, hstep]; exact hread, hr'⟩

/-- Letters go on the name of a unit. -/
theorem read_letters {n : Nat} {f : Option Fraction} : ∀ {cs before : List Char} {r : Reader},
    (∀ c ∈ cs, UnitLetter c) → r.At total (.unit n f before) →
    ∃ r', cs.foldlM step r = .ok r' ∧ r'.At total (.unit n f (cs.reverse ++ before))
  | [], before, r, _, h => ⟨r, rfl, h⟩
  | c :: cs, before, r, hcs, h => by
    obtain ⟨hc, hcs⟩ := List.forall_mem_cons.1 hcs
    obtain ⟨r₁, hstep, hr₁⟩ : ∃ r₁, r.step c = .ok r₁ ∧ r₁.At total (.unit n f (c :: before)) := by
      rw [step, h.stage]
      dsimp only
      rw [stepUnit, hc.digit]
      simp only [hc.blank, hc.letter]
      exact ⟨_, rfl, h.total, rfl⟩
    obtain ⟨r', hread, hr'⟩ := read_letters hcs hr₁
    refine ⟨r', by rw [List.foldlM_cons, hstep]; exact hread, ?_⟩
    rwa [List.reverse_cons, List.append_assoc]

end Reader

/-- The text of an amount. -/
def Amount.chars (a : Amount) : List Char := Nat.toDigits 10 a.count ++ a.unit.toList

namespace Reader

variable {r : Reader} {total : Option Duration}

/-- An amount is read up to the last letter of its unit. -/
theorem read_amount {a : Amount} {u : TimeUnit} {since : Nat} (ha : a.Of u)
    (h : r.At total (.before since)) :
    ∃ r', a.chars.foldlM step r = .ok r' ∧
      r'.At total (.unit a.count none a.unit.toList.reverse) := by
  obtain ⟨hempty, hletters⟩ := letters_of_ofName ha.unit
  obtain ⟨r₁, hnumber, hr₁⟩ := read_number ha.count h
  cases hunit : a.unit.toList with
  | nil => exact absurd (String.toList_eq_nil_iff.1 hunit) hempty
  | cons c cs =>
    rw [hunit] at hletters
    obtain ⟨hc, hcs⟩ := List.forall_mem_cons.1 hletters
    obtain ⟨r₂, hstep, hr₂⟩ : ∃ r₂, r₁.step c = .ok r₂ ∧ r₂.At total (.unit a.count none [c]) := by
      rw [step, hr₁.stage]
      dsimp only
      rw [stepWhole, hc.digit]
      simp only [hc.blank, hc.letter]
      exact ⟨_, rfl, hr₁.total, rfl⟩
    obtain ⟨r', hread, hr'⟩ := read_letters hcs hr₂
    refine ⟨r', ?_, by rwa [List.reverse_cons]⟩
    rw [Amount.chars, hunit, List.foldlM_append, hnumber]
    change ((c :: cs).foldlM step r₁) = .ok r'
    rw [List.foldlM_cons, hstep]
    exact hread

/-- The amount that was read last is added when its unit ends. -/
theorem close_eq {a : Amount} (h : r.total = total) :
    r.close a.count none a.unit.toList.reverse =
      (total.getD zero).addAmount a.count none a.unit := by
  rw [close, h, List.reverse_reverse, String.ofList_toList]

/-- Amounts with blanks between them are read as their sum. -/
theorem read_amounts : ∀ {l : List Amount} {d : Duration} {r : Reader} {total : Option Duration}
    {since : Nat}, l ≠ [] → (∀ a ∈ l, ∃ u, a.Of u) → r.At total (.before since) →
    l.foldlM (fun d a => d.addAmount a.count none a.unit) (total.getD zero) = .ok d →
    (([' '].intercalate (l.map Amount.chars)).foldlM step r >>= finish) = .ok d
  | [], _, _, _, _, hl, _, _, _ => absurd rfl hl
  | [a], d, r, total, since, _, hknown, h, hsum => by
    obtain ⟨u, ha⟩ := hknown a List.mem_cons_self
    obtain ⟨r', hread, hr'⟩ := read_amount ha h
    rw [List.map_singleton, List.intercalate_singleton, hread]
    change finish r' = .ok d
    rw [finish, hr'.stage]
    dsimp only
    rw [close_eq hr'.total]
    rw [List.foldlM_cons] at hsum
    cases hadd : (total.getD zero).addAmount a.count none a.unit with
    | error e => rw [hadd] at hsum; cases hsum
    | ok d' => rwa [hadd] at hsum
  | a :: b :: l, d, r, total, since, _, hknown, h, hsum => by
    obtain ⟨⟨u, ha⟩, hknown⟩ := List.forall_mem_cons.1 hknown
    obtain ⟨r₁, hread, hr₁⟩ := read_amount ha h
    rw [List.foldlM_cons] at hsum
    cases hadd : (total.getD zero).addAmount a.count none a.unit with
    | error e => rw [hadd] at hsum; cases hsum
    | ok d₁ =>
      rw [hadd] at hsum
      obtain ⟨r₂, since', hstep, hr₂⟩ : ∃ r₂ since', r₁.step ' ' = .ok r₂ ∧
          r₂.At (some d₁) (.before since') := by
        have hdigit : digit? ' ' = none := rfl
        have hblank : CharSet.blank.contains ' ' = true := rfl
        rw [step, hr₁.stage]
        dsimp only
        rw [stepUnit, hdigit]
        simp only [hblank, if_true, close_eq hr₁.total, hadd]
        exact ⟨_, _, rfl, rfl, rfl⟩
      have hrest := read_amounts (List.cons_ne_nil b l) hknown hr₂ hsum
      rw [List.map_cons, List.map_cons, List.intercalate_cons_cons, List.append_assoc,
        List.foldlM_append, hread]
      change (((' ' :: [' '].intercalate ((b :: l).map Amount.chars)).foldlM step r₁) >>= finish) = _
      rw [List.foldlM_cons, hstep]
      exact hrest

end Reader

/-- The text of amounts is read as their sum. -/
theorem read_amountsText {l : List Amount} {d : Duration} (hl : l ≠ [])
    (hknown : ∀ a ∈ l, ∃ u, a.Of u)
    (hsum : l.foldlM (fun d a => d.addAmount a.count none a.unit) zero = .ok d) :
    read (" ".intercalate (l.map fun a => s!"{a.count}{a.unit}")) = .ok d := by
  have hread := Reader.read_amounts (r := {}) hl hknown ⟨rfl, rfl⟩ hsum
  have htext : (" ".intercalate (l.map fun a => s!"{a.count}{a.unit}")).toList =
      [' '].intercalate (l.map Amount.chars) := by
    have hamount (a : Amount) : (s!"{a.count}{a.unit}").toList = a.chars := by
      rw [String.toList_append, Amount.chars, Nat.toString_eq_ofList_toDigits, String.toList_ofList]
      rfl
    rw [String.toList_intercalate, List.map_map]
    exact congrArg _ (List.map_congr_left fun a _ => hamount a)
  rw [← htext] at hread
  rw [read]
  split
  · -- A digit without a unit is not read at all.
    rename_i hzero
    have hfails : ("0".toList.foldlM Reader.step {} >>= Reader.finish) =
        .error (.unitMissing 0) := rfl
    rw [hzero] at hread
    cases hfails.symm.trans hread
  · exact hread

/-- Amounts of nothing add nothing. -/
theorem sum_filter (l : List Amount) (f : Amount → Nat) (hf : ∀ a, a.count = 0 → f a = 0) :
    ((l.filter (·.count != 0)).map f).sum = (l.map f).sum := by
  induction l with
  | nil => rfl
  | cons a l ih =>
    by_cases ha : a.count = 0
    · rw [List.filter_cons_of_neg (by simp [ha]), ih, List.map_cons, List.sum_cons, hf a ha,
        Nat.zero_add]
    · rw [List.filter_cons_of_pos (by simp [ha]), List.map_cons, List.map_cons, List.sum_cons,
        List.sum_cons, ih]

theorem Amount.length_of_zero {a : Amount} (h : a.count = 0) : a.length = (0, 0) := by
  rw [length]
  split
  · rw [h, Nat.zero_mul, Nat.zero_mul]
  · rfl

/-- Every span is read back from its text. -/
theorem read_text (d : Duration) : read d.text = .ok d := by
  have hseconds := (sum_filter d.amounts (·.length.1) fun a ha => by
    rw [Amount.length_of_zero ha]).trans (sum_amounts d).1
  have hnanos := (sum_filter d.amounts (·.length.2) fun a ha => by
    rw [Amount.length_of_zero ha]).trans (sum_amounts d).2
  have hknown : ∀ a ∈ d.amounts.filter (·.count != 0), ∃ u, a.Of u := fun a ha =>
    amounts_known a (List.mem_filter.1 ha).1
  rw [text]
  cases hl : d.amounts.filter (·.count != 0) with
  | nil =>
    rw [hl] at hseconds hnanos
    obtain ⟨seconds, nanos, _, _⟩ := d
    cases hseconds
    cases hnanos
    rfl
  | cons a l =>
    rw [hl] at hseconds hnanos hknown
    have hlong : zero.seconds + ((a :: l).map (·.length.1)).sum < UInt64.size ∧
        zero.nanos + ((a :: l).map (·.length.2)).sum < 1000000000 := by
      rw [hseconds, hnanos]
      exact ⟨(Nat.zero_add _).symm ▸ d.seconds_lt, (Nat.zero_add _).symm ▸ d.nanos_lt⟩
    obtain ⟨d', hsum, hsum₁, hsum₂⟩ := addAmounts_ok hknown hlong.1 hlong.2
    obtain rfl : d' = d := by
      obtain ⟨seconds, nanos, _, _⟩ := d
      obtain ⟨seconds', nanos', _, _⟩ := d'
      obtain rfl : seconds' = seconds := hsum₁.trans ((Nat.zero_add _).trans hseconds)
      obtain rfl : nanos' = nanos := hsum₂.trans ((Nat.zero_add _).trans hnanos)
      rfl
    exact read_amountsText (List.cons_ne_nil a l) hknown hsum

end Duration

end AccountSync
