import AccountSync.Proofs.Duration.Spelling
/-!
A text is read as a span exactly if it spells it (`Duration.read_eq_ok_iff`). One character takes a
reader to a stage at which what comes after the character says what the text said before it
(`Duration.Reader.step_leads`), so the run follows by induction on the text.
-/

namespace AccountSync

namespace Duration

namespace Reader

variable {r r' : Reader} {c : Char} {cs : List Char} {d : Duration}

/-- The text that is left brings a reader to a span. -/
def Reads (r : Reader) (cs : List Char) (d : Duration) : Prop :=
  (cs.foldlM step r >>= finish) = .ok d

/-- What the text that is left says to a reader. -/
def Means (r : Reader) (cs : List Char) (d : Duration) : Prop := r.stage.Means r.total cs d

/-- The fraction of a reader, if it has one, is counted in words. -/
def Sound (r : Reader) : Prop := r.stage.Sound

theorem close_eq_ok_iff {n : Nat} {g : Option Fraction} {letters : List Char} {d₁ : Duration}
    (hg : ∀ f ∈ g, f.Sound) : r.close n g letters = .ok d₁ ↔
      ∃ u, Names letters.reverse u ∧ Adds (r.total.getD zero) n g u d₁ :=
  addAmount_eq_ok_iff hg

theorem finish_eq_ok_iff (hr : r.Sound) : r.finish = .ok d ↔ r.Means [] d := by
  have hempty {n : Nat} {g : Option Fraction} : r.close n g [] ≠ .ok d := by
    intro h
    cases h
  obtain ⟨total, stage, place⟩ := r
  cases stage with
  | before since =>
    refine Iff.trans ?_ spelled_nil_iff.symm
    cases total with
    | none => simp [finish]
    | some d₁ => simp [finish]
  | whole n => exact iff_of_false hempty not_inWhole_nil
  | part n f place =>
    refine iff_of_false ?_ not_inPart_nil
    rw [finish]
    dsimp only
    split
    · simp
    · exact hempty
  | unit n g letters =>
    refine (close_eq_ok_iff hr).trans ?_
    constructor
    · rintro ⟨u, hname, hadd⟩
      exact ⟨[], [], u, d, rfl, by rwa [List.append_nil], hadd, .done⟩
    · rintro ⟨more, rest, u, d₁, hcs, hname, hadd, hrest⟩
      obtain ⟨rfl, rfl⟩ := List.append_eq_nil_iff.1 hcs.symm
      rw [List.append_nil] at hname
      cases hrest
      exact ⟨u, hname, hadd⟩

/-! ### One character -/

/-- A step goes through, and what the text then says is this span. -/
def Leads (x : Except Fault Reader) (cs : List Char) (d : Duration) : Prop :=
  ∃ r', x = .ok r' ∧ r'.Means cs d

theorem leads_ok : Leads (.ok r) cs d ↔ r.Means cs d :=
  ⟨fun ⟨_, hr, h⟩ => Except.ok.inj hr ▸ h, fun h => ⟨r, rfl, h⟩⟩

theorem not_leads_error {e : Fault} : ¬ Leads (.error e) cs d := nofun

theorem leads_bind {α : Type} {x : Except Fault α} {k : α → Except Fault Reader} :
    Leads (x >>= k) cs d ↔ ∃ a, x = .ok a ∧ Leads (k a) cs d := by
  cases x with
  | error e => exact ⟨nofun, nofun⟩
  | ok a => exact ⟨fun h => ⟨a, rfl, h⟩, fun ⟨_, ha, h⟩ => Except.ok.inj ha ▸ h⟩

theorem leads_word {n : Nat} {k : Nat → Except Fault Reader} :
    Leads (word n >>= k) cs d ↔ n < UInt64.size ∧ Leads (k n) cs d := by
  simp only [leads_bind, word_eq_ok_iff, and_assoc, exists_and_left, exists_eq_left']

theorem stepBefore_leads {since : Nat} (hr : r.stage = .before since) :
    Leads (r.stepBefore since c) cs d ↔ r.Means (c :: cs) d := by
  have hmeans (cs : List Char) : r.Means cs d ↔ Spelled r.total cs d := by
    rw [Means, hr, Stage.Means]
  rw [hmeans, spelled_cons_iff, stepBefore, digit?]
  cases kind c with
  | digit hdigit hblank =>
    simp only [hdigit, hblank, if_true, true_and, Bool.false_eq_true, false_and, or_false]
    exact leads_ok
  | blank hdigit hblank =>
    simp only [hdigit, hblank, Bool.false_eq_true, if_false, if_true, true_and, false_and, false_or]
    exact leads_ok.trans (hmeans cs)
  | letter hdigit hblank | other hdigit hblank =>
    simp only [hdigit, hblank, Bool.false_eq_true, if_false, false_and, or_false]
    exact iff_of_false not_leads_error id

theorem stepWhole_leads {n : Nat} (hr : r.stage = .whole n) :
    Leads (r.stepWhole n c) cs d ↔ r.Means (c :: cs) d := by
  have hmeans (cs : List Char) : r.Means cs d ↔ InWhole r.total n cs d := by
    rw [Means, hr, Stage.Means]
  rw [hmeans, inWhole_cons_iff, stepWhole, digit?]
  cases kind c with
  | digit hdigit hblank hname hpoint =>
    -- A number that gets too long is refused, but then nothing after it could have been added.
    simp only [hdigit, hblank, hname, hpoint, leads_word, Bool.false_eq_true, if_true, true_and,
      false_and, or_false]
    exact ⟨fun h => leads_ok.1 h.2, fun h => ⟨h.number_lt, leads_ok.2 h⟩⟩
  | blank hdigit hblank hname hpoint =>
    simp only [hdigit, hblank, hname, hpoint, Bool.false_eq_true, if_false, if_true, true_and,
      false_and, or_false, false_or]
    exact leads_ok.trans (hmeans cs)
  | letter hdigit hblank hletter hname hpoint =>
    simp only [hdigit, hblank, hletter, hname, hpoint, Bool.false_eq_true, if_false, if_true,
      true_and, false_and, or_false, false_or]
    exact leads_ok
  | other hdigit hblank hletter hname =>
    simp only [hdigit, hblank, hletter, hname, Bool.false_eq_true, if_false, false_and, false_or]
    by_cases hpoint : c = '.'
    · rw [if_pos hpoint, and_iff_right hpoint]
      exact leads_ok
    · rw [if_neg hpoint]
      exact iff_of_false not_leads_error fun h => hpoint h.1

theorem stepPart_leads {n place : Nat} {f : Fraction} (hr : r.stage = .part n f place)
    (hf : f.Sound) : Leads (r.stepPart n f place c) cs d ↔ r.Means (c :: cs) d := by
  have hmeans : r.Means (c :: cs) d ↔ InPart r.total n f (c :: cs) d := by
    rw [Means, hr, Stage.Means]
  rw [hmeans, inPart_cons_iff, stepPart, digit?]
  cases kind c with
  | digit hdigit hblank hname =>
    simp only [hdigit, hblank, hname, leads_word, Bool.false_eq_true, if_true, true_and,
      false_and, and_false, or_false]
    refine ⟨fun h => leads_ok.1 h.2.2, fun h => ⟨?_, h.power_lt, leads_ok.2 h⟩⟩
    exact Nat.lt_trans (hf.grow hdigit) h.power_lt
  | blank hdigit hblank hname =>
    simp only [hdigit, hblank, hname, Bool.false_eq_true, if_false, if_true, true_and,
      false_and, and_false, or_false, false_or]
    exact leads_ok
  | letter hdigit hblank hletter hname =>
    simp only [hdigit, hblank, hletter, hname, Bool.false_eq_true, if_false,
      true_and, false_and, false_or]
    by_cases hpower : f.power ≠ 1
    · rw [if_pos hpower, and_iff_right hpower]
      exact leads_ok
    · rw [if_neg hpower]
      exact iff_of_false not_leads_error fun h => hpower h.1
  | other hdigit hblank hletter hname =>
    simp only [hdigit, hblank, hletter, hname, Bool.false_eq_true, if_false, false_and, and_false,
      or_false]
    exact iff_of_false not_leads_error id

theorem stepUnit_leads {n : Nat} {g : Option Fraction} {letters : List Char}
    (hr : r.stage = .unit n g letters) (hg : ∀ f ∈ g, f.Sound) :
    Leads (r.stepUnit n g letters c) cs d ↔ r.Means (c :: cs) d := by
  have hmeans : r.Means (c :: cs) d ↔ InUnit r.total n g letters (c :: cs) d := by
    rw [Means, hr, Stage.Means]
  rw [hmeans, inUnit_cons_iff, stepUnit, digit?]
  simp only [spelled_cons_iff]
  cases kind c with
  | digit hdigit hblank hname =>
    simp only [hdigit, hblank, hname, leads_bind, close_eq_ok_iff hg, Bool.false_eq_true, if_true,
      true_and, false_and, or_false, false_or]
    exact exists_congr fun d₁ => and_congr_right fun _ => leads_ok
  | blank hdigit hblank hname =>
    simp only [hdigit, hblank, hname, leads_bind, close_eq_ok_iff hg, Bool.false_eq_true, if_true,
      if_false, true_and, false_and, false_or]
    exact exists_congr fun d₁ => and_congr_right fun _ => leads_ok
  | letter hdigit hblank hletter hname =>
    simp only [hdigit, hblank, hletter, hname, Bool.false_eq_true, if_false, if_true, true_and,
      false_and, and_false, or_false, exists_false]
    exact leads_ok
  | other hdigit hblank hletter hname =>
    simp only [hdigit, hblank, hletter, hname, Bool.false_eq_true, if_false, false_and, and_false,
      or_false, exists_false]
    exact iff_of_false not_leads_error id

theorem step_leads (hr : r.Sound) : Leads (r.step c) cs d ↔ r.Means (c :: cs) d := by
  have hplace (x : Except Fault Reader) :
      Leads (x >>= fun next => return { next with place := r.place + c.utf8Size }) cs d ↔
        Leads x cs d :=
    leads_bind.trans (exists_congr fun _ => and_congr_right fun _ => leads_ok)
  rw [step]
  cases hstage : r.stage with
  | before since => exact (hplace _).trans (stepBefore_leads hstage)
  | whole n => exact (hplace _).trans (stepWhole_leads hstage)
  | part n f place =>
    rw [Sound, hstage] at hr
    exact (hplace _).trans (stepPart_leads hstage hr)
  | unit n g letters =>
    rw [Sound, hstage] at hr
    exact (hplace _).trans (stepUnit_leads hstage hr)

/-- Whatever comes of a step is sound. -/
def Keeps (x : Except Fault Reader) : Prop := ∀ r', x = .ok r' → r'.Sound

theorem keeps_ok (hr : r.Sound) : Keeps (.ok r) := fun _ h => Except.ok.inj h ▸ hr

theorem keeps_error {e : Fault} : Keeps (.error e) := nofun

theorem keeps_bind {α : Type} {x : Except Fault α} {k : α → Except Fault Reader}
    (h : ∀ a, x = .ok a → Keeps (k a)) : Keeps (x >>= k) := by
  intro r' hr'
  obtain ⟨a, ha, hk⟩ := bind_eq_ok_iff.1 hr'
  exact h a ha r' hk

theorem keeps_stepBefore {since : Nat} (hr : r.Sound) : Keeps (r.stepBefore since c) := by
  unfold stepBefore
  split
  · exact keeps_ok trivial
  split
  · exact keeps_ok hr
  · exact keeps_error

theorem keeps_stepWhole {n : Nat} (hr : r.Sound) : Keeps (r.stepWhole n c) := by
  unfold stepWhole
  split
  · exact keeps_bind fun _ _ => keeps_ok trivial
  split
  · exact keeps_ok hr
  split
  · exact keeps_ok fun _ hf => nomatch hf
  split
  · exact keeps_ok ⟨by decide, by decide⟩
  · exact keeps_error

theorem keeps_stepPart {n place : Nat} {f : Fraction} (hf : f.Sound) :
    Keeps (r.stepPart n f place c) := by
  unfold stepPart
  dsimp only
  split
  · rename_i v hv
    refine keeps_bind fun digits hdigits => keeps_bind fun power hpower => keeps_ok ?_
    obtain ⟨-, rfl⟩ := word_eq_ok_iff.1 hdigits
    obtain ⟨hlt, rfl⟩ := word_eq_ok_iff.1 hpower
    unfold digit? at hv
    split at hv
    · rename_i hc
      obtain rfl := Option.some.inj hv
      exact ⟨hf.grow hc, hlt⟩
    · cases hv
  split
  · exact keeps_ok hf
  split
  · exact keeps_ok fun g hg => Option.some.inj hg ▸ hf
  · exact keeps_error

theorem keeps_stepUnit {n : Nat} {g : Option Fraction} {letters : List Char}
    (hg : ∀ f ∈ g, f.Sound) : Keeps (r.stepUnit n g letters c) := by
  unfold stepUnit
  split
  · exact keeps_bind fun _ _ => keeps_ok trivial
  split
  · exact keeps_bind fun _ _ => keeps_ok trivial
  split
  · exact keeps_ok hg
  · exact keeps_error

theorem keeps_step (hr : r.Sound) : Keeps (r.step c) := by
  have hplace {x : Except Fault Reader} (hx : Keeps x) :
      Keeps (x >>= fun next => return { next with place := r.place + c.utf8Size }) :=
    keeps_bind fun next hnext => keeps_ok (hx next hnext)
  have hstage : r.stage.Sound := hr
  rw [step]
  cases h : r.stage with
  | before since => exact hplace (keeps_stepBefore hr)
  | whole n => exact hplace (keeps_stepWhole hr)
  | part n f place =>
    rw [h] at hstage
    exact hplace (keeps_stepPart hstage)
  | unit n g letters =>
    rw [h] at hstage
    exact hplace (keeps_stepUnit hstage)

/-- A reader reads what the text that is left says. -/
theorem reads_iff : ∀ {cs : List Char} {r : Reader}, r.Sound → (r.Reads cs d ↔ r.Means cs d)
  | [], r, hr => finish_eq_ok_iff hr
  | c :: cs, r, hr => by
    -- The reader after the character is sound too, so it reads what the rest says to it.
    rw [← step_leads hr, Reads, List.foldlM_cons, bind_assoc, bind_eq_ok_iff]
    exact exists_congr fun r' => and_congr_right fun hr' => reads_iff (keeps_step hr r' hr')

end Reader

/-- A text is read as the span that it spells, and as none if it spells none. -/
theorem read_eq_ok_iff {s : String} {d : Duration} : read s = .ok d ↔ Spells s d := by
  have hreads : Reader.Reads {} s.toList d ↔ Spelled none s.toList d := Reader.reads_iff trivial
  have hread : s ≠ "0" → (read s = .ok d ↔ Reader.Reads {} s.toList d) := by
    intro hs
    rw [read, if_neg hs]
    rfl
  by_cases hs : s = "0"
  · -- A digit without a unit spells nothing else.
    have hfails : ¬ Reader.Reads {} "0".toList d := by
      intro h
      cases h
    rw [hs] at hreads
    rw [Spells, hs, or_iff_left (mt hreads.2 hfails), read, if_pos rfl, and_iff_right rfl]
    exact ⟨fun h => (Except.ok.inj h).symm, fun h => congrArg _ h.symm⟩
  · rw [Spells, or_iff_right fun h => hs h.1, hread hs, hreads]

end Duration

end AccountSync
