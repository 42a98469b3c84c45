import AccountSync.Proofs.Toml.Literal
import AccountSync.Toml.Grammar
/-!
Documents that are made of tables with simple values are read back line by line
(`Grammar.document_of_lines`).
-/

namespace AccountSync.Toml

variable {n : Nat} {rest : List Char}

/-! ### Numbers -/

namespace Number

/-- Only zero begins with a zero. -/
theorem head?_toDigits_ne {m : Nat} (hm : 0 < m) : (Nat.toDigits 10 m).head? ≠ some '0' := by
  induction m using Nat.strongRecOn with
  | ind m ih =>
    by_cases hlt : m < 10
    · have hdigit : ∀ d : Fin 10, 0 < d.val → [Nat.digitChar d].head? ≠ some '0' := by decide
      rw [Nat.toDigits_of_lt_base hlt]
      exact hdigit ⟨m, hlt⟩ hm
    · obtain ⟨c, ds, hds⟩ := List.exists_cons_of_ne_nil (Nat.toDigits_ne_nil (n := m / 10) (b := 10))
      have hdiv := ih (m / 10) (by omega) (by omega)
      rw [Nat.toDigits_of_base_le (by decide) (Nat.le_of_not_lt hlt), hds]
      rwa [hds] at hdiv

/-- A number is the value of its digits, if 64 bits hold it. -/
theorem value_toDigits {m : Nat} (hm : m < UInt64.size) : value 10 (Nat.toDigits 10 m) = m := by
  have hfold : ∀ (ds : List Char) (k : Nat), (∀ d ∈ ds, d.isDigit = true) →
      ds.foldl (fun n c => min (n * 10 + digitValue c) UInt64.size) (min k UInt64.size) =
        min (Nat.ofDigitChars 10 ds k) UInt64.size := by
    intro ds
    induction ds with
    | nil => exact fun k _ => rfl
    | cons d ds ih =>
      intro k hds
      obtain ⟨hd, hds⟩ := List.forall_mem_cons.1 hds
      have hvalue : digitValue d = d.toNat - '0'.toNat := if_pos hd
      have hstep : min (min k UInt64.size * 10 + digitValue d) UInt64.size =
          min (10 * k + (d.toNat - '0'.toNat)) UInt64.size := by
        rw [hvalue]
        omega
      rw [List.foldl_cons, hstep, ih _ hds, Nat.ofDigitChars_cons]
  have hdigits := hfold (Nat.toDigits 10 m) 0 fun d hd =>
    Nat.isDigit_of_mem_toDigits (by decide) (by decide) hd
  rw [Nat.ofDigitChars_toDigits (by decide) (by decide)] at hdigits
  exact hdigits.trans (Nat.min_eq_left (Nat.le_of_lt hm))

/-- A text is at most digits up to the end of its line. -/
def Bare (cs : List Char) : Prop :=
  ∃ ds rest, (∀ d ∈ ds, d.isDigit = true) ∧ cs = ds ++ '\n' :: rest

theorem Bare.head {cs : List Char} (h : Bare cs) :
    ∃ c rest, cs = c :: rest ∧ (c.isDigit = true ∧ Bare rest ∨ c = '\n') := by
  obtain ⟨_ | ⟨d, ds⟩, rest, hds, rfl⟩ := h
  · exact ⟨'\n', rest, rfl, .inr rfl⟩
  · obtain ⟨hd, hds⟩ := List.forall_mem_cons.1 hds
    exact ⟨d, ds ++ '\n' :: rest, rfl, .inl ⟨hd, ds, rest, hds, rfl⟩⟩

theorem ne_of_isDigit {c d : Char} (hd : d.isDigit = true) (hc : c.isDigit = false) : d ≠ c := by
  rintro rfl
  rw [hc] at hd
  cases hd

/-- What is neither a digit nor a line end does not stand there. -/
theorem Bare.char_eq_none {cs : List Char} (h : Bare cs) {c : Char} (hc : c.isDigit = false)
    (hline : c ≠ '\n') : Scan.char c n cs = none := by
  obtain ⟨d, rest, rfl, ⟨hd, -⟩ | rfl⟩ := h.head
  · exact Scan.char_cons_of_ne (ne_of_isDigit hd hc)
  · exact Scan.char_cons_of_ne hline.symm

/-- No date or time is such a text: after some digits they ask for another character. -/
theorem fixed_bind_eq_none {α : Type} {cs : List Char} (h : Bare cs) {f : Nat → Scan α}
    (hf : ∀ a cs, Bare cs → f a n cs = none) (width low high : Nat) :
    (fixed width low high >>= f) n cs = none := by
  have hdigits : ∀ {cs : List Char}, Bare cs → ∀ width,
      (List.replicate width (Scan.one isDigit)).mapM id n cs = none ∨
        ∃ ds cs', (List.replicate width (Scan.one isDigit)).mapM id n cs = some (ds, cs') ∧
          Bare cs' := by
    intro cs h width
    induction width generalizing cs with
    | zero => exact .inr ⟨[], cs, rfl, h⟩
    | succ width ih =>
      rw [List.replicate_succ, List.mapM_cons]
      obtain ⟨c, rest, rfl, ⟨hc, hrest⟩ | rfl⟩ := h.head
      · have hc : isDigit c = true := hc
        rw [id, Scan.bind_of_some (Scan.one_cons hc)]
        rcases ih hrest with hnone | ⟨ds, cs', hsome, hcs'⟩
        · exact .inl (Scan.bind_of_none hnone)
        · exact .inr ⟨c :: ds, cs', by rw [Scan.bind_of_some hsome]; rfl, hcs'⟩
      · exact .inl (Scan.bind_of_none (Scan.one_cons_of_not rfl))
  rw [fixed]
  rcases hdigits h width with hnone | ⟨ds, cs', hsome, hcs'⟩
  · exact Scan.bind_of_none (Scan.bind_of_none hnone)
  · rw [bind_assoc, Scan.bind_of_some hsome]
    dsimp only
    split
    · exact (Scan.bind_of_some rfl).trans (hf _ cs' hcs')
    · exact Scan.bind_of_none rfl

theorem moment_eq_none {cs : List Char} (h : Bare cs) : moment n cs = none := by
  have hdate : date n cs = none := fixed_bind_eq_none h
    (fun _ _ hcs => Scan.bind_of_none (hcs.char_eq_none rfl (by decide))) 4 0 9999
  have hminutes : minutes n cs = none := fixed_bind_eq_none h
    (fun _ _ hcs => Scan.bind_of_none (hcs.char_eq_none rfl (by decide))) 2 0 23
  rw [moment, Scan.orElse_of_none (Scan.bind_of_none hdate), time, Scan.bind_of_none hminutes]

/-! The digits of a number, at the end of a line. -/

section Digits

variable {m : Nat} (rest)

theorem bare_toDigits : Bare (Nat.toDigits 10 m ++ '\n' :: rest) :=
  ⟨_, rest, fun _ hd => Nat.isDigit_of_mem_toDigits (by decide) (by decide) hd, rfl⟩

theorem digits_toDigits (hn : (Nat.toDigits 10 m).length ≤ n) :
    digits isDigit n (Nat.toDigits 10 m ++ '\n' :: rest) =
      some (Nat.toDigits 10 m, '\n' :: rest) := by
  have hdigits : ∀ d ∈ Nat.toDigits 10 m, isDigit d = true := fun d hd =>
    Nat.isDigit_of_mem_toDigits (by decide) (by decide) hd
  obtain ⟨d, ds, hds⟩ := List.exists_cons_of_ne_nil (Nat.toDigits_ne_nil (n := m) (b := 10))
  rw [hds] at hn hdigits ⊢
  obtain ⟨hd, hdigits⟩ := List.forall_mem_cons.1 hdigits
  have hitems : ∀ i ∈ ds.map fun d => ([d], d), ∀ rest,
      (Scan.one isDigit <|> (Scan.char '_' *> Scan.one isDigit)) n (i.1 ++ rest) =
        some (i.2, rest) := by
    intro i hi rest
    obtain ⟨d, hd, rfl⟩ := List.mem_map.1 hi
    exact Scan.orElse_of_some (Scan.one_cons (hdigits d hd))
  have hend : (Scan.one isDigit <|> (Scan.char '_' *> Scan.one isDigit)) n ('\n' :: rest) = none := by
    rw [Scan.orElse_of_none (Scan.one_cons_of_not rfl),
      Scan.seqRight_of_none (Scan.char_cons_of_ne (by decide))]
  have hmany := Scan.many_items hitems hend (by
    rw [List.length_map]
    exact Nat.le_of_succ_le hn)
  have htexts : (ds.map fun d => ([d], d)).flatMap Prod.fst = ds := by
    rw [List.flatMap_map]
    exact List.flatMap_singleton' ds
  have hvalues : (ds.map fun d => ([d], d)).map Prod.snd = ds := by
    rw [List.map_map]
    exact List.map_id' ds
  rw [htexts, hvalues] at hmany
  rw [digits, List.cons_append, Scan.bind_of_some (Scan.one_cons hd), Scan.bind_of_some hmany]
  rfl

variable (hm : 0 < m) (hn : (Nat.toDigits 10 m).length ≤ n)
include hm

/-- The first digit is no sign and no zero. -/
theorem toDigits_head : ∃ d ds, Nat.toDigits 10 m = d :: ds ∧ d.isDigit = true ∧ d ≠ '0' := by
  obtain ⟨d, ds, hds⟩ := List.exists_cons_of_ne_nil (Nat.toDigits_ne_nil (n := m) (b := 10))
  have hzero := head?_toDigits_ne hm
  rw [hds] at hzero
  refine ⟨d, ds, hds, ?_, fun h => hzero (h ▸ rfl)⟩
  exact Nat.isDigit_of_mem_toDigits (by decide) (by decide) (hds ▸ List.mem_cons_self)

theorem sign_toDigits : sign n (Nat.toDigits 10 m ++ '\n' :: rest) =
    some (false, Nat.toDigits 10 m ++ '\n' :: rest) := by
  obtain ⟨d, ds, hds, hd, -⟩ := toDigits_head hm
  have hplus : d ≠ '+' := ne_of_isDigit hd rfl
  have hminus : d ≠ '-' := ne_of_isDigit hd rfl
  have hsign : (d == '+' || d == '-') = false := by simp [hplus, hminus]
  rw [hds, sign, List.cons_append,
    Scan.bind_of_some (Scan.optional_of_none (Scan.one_cons_of_not hsign))]
  rfl

include hn

theorem decimal_toDigits : decimal n (Nat.toDigits 10 m ++ '\n' :: rest) =
    some (Nat.toDigits 10 m, '\n' :: rest) := by
  have hdigits := digits_toDigits rest hn
  obtain ⟨d, ds, hds, -, hzero⟩ := toDigits_head hm
  rw [hds] at hdigits ⊢
  have hone : (d == '0') = false := beq_eq_false_iff_ne.2 hzero
  have hnone : (Scan.one (· == '0') >>= fun d => pure [d] : Scan (List Char)) n
      (d :: (ds ++ '\n' :: rest)) = none := Scan.bind_of_none (Scan.one_cons_of_not hone)
  exact (Scan.orElse_of_none hnone).trans hdigits

theorem fraction_eq_none : fraction n (Nat.toDigits 10 m ++ '\n' :: rest) = none := by
  have hpoint : Scan.optional (Scan.char '.' *> digits isDigit) n ('\n' :: rest) =
      some (none, '\n' :: rest) :=
    Scan.optional_of_none (Scan.seqRight_of_none (Scan.char_cons_of_ne (by decide)))
  have hexponent : Scan.optional exponent n ('\n' :: rest) = some (none, '\n' :: rest) :=
    Scan.optional_of_none (Scan.bind_of_none (Scan.one_cons_of_not rfl))
  rw [fraction, Scan.bind_of_some (sign_toDigits rest hm),
    Scan.bind_of_some (decimal_toDigits rest hm hn),
    Scan.bind_of_some hpoint, Scan.bind_of_some hexponent]
  rfl

theorem whole_toDigits (hmax : m < 0x8000000000000000) :
    whole n (Nat.toDigits 10 m ++ '\n' :: rest) = some (↑m, '\n' :: rest) := by
  have hdecimal := decimal_toDigits rest hm hn
  have hsign := sign_toDigits (n := n) rest hm
  have hvalue := value_toDigits (m := m) (Nat.lt_trans hmax (by decide))
  have hbounds : -0x8000000000000000 ≤ (m : Int) ∧ (m : Int) < 0x8000000000000000 := by omega
  have hbased : ∀ mark base p, mark.toList.head? = some '0' →
      based mark base p n (Nat.toDigits 10 m ++ '\n' :: rest) = none := by
    intro mark base p hmark
    obtain ⟨l, hl⟩ := List.head?_eq_some_iff.1 hmark
    obtain ⟨d, ds, hds, -, hzero⟩ := toDigits_head hm
    rw [hds]
    exact Scan.bind_of_none (Scan.word_cons_of_ne hl hzero)
  rw [whole, Scan.orElse_of_none (hbased _ _ _ rfl), Scan.orElse_of_none (hbased _ _ _ rfl),
    Scan.orElse_of_none (hbased _ _ _ rfl), Scan.bind_of_some hsign, Scan.bind_of_some hdecimal,
    hvalue]
  change bounded ↑m n ('\n' :: rest) = some (↑m, '\n' :: rest)
  rw [bounded, if_pos hbounds]
  rfl

omit hn in
theorem special_eq_none : special n (Nat.toDigits 10 m ++ '\n' :: rest) = none := by
  have hsign := sign_toDigits (n := n) rest hm
  obtain ⟨d, ds, hds, hd, -⟩ := toDigits_head hm
  rw [hds] at hsign ⊢
  have hinf : Scan.word "inf" n (d :: (ds ++ '\n' :: rest)) = none :=
    Scan.word_cons_of_ne (c := 'i') rfl (ne_of_isDigit hd rfl)
  have hnan : Scan.word "nan" n (d :: (ds ++ '\n' :: rest)) = none :=
    Scan.word_cons_of_ne (c := 'n') rfl (ne_of_isDigit hd rfl)
  rw [special, Scan.bind_of_some hsign]
  exact (Scan.orElse_of_none hinf).trans hnan

end Digits

end Number

/-! ### Values -/

theorem Literal.read_eq_none {c : Char} (hdouble : c ≠ '"') (hsingle : c ≠ Literal.single) :
    Literal.read n (c :: rest) = none := by
  have hline : Literal.lineChars (c :: rest) = none := by
    rw [Literal.lineChars, if_neg hdouble, if_neg hsingle]
  refine Scan.map_of_none ?_
  change Literal.chars (c :: rest) = none
  unfold Literal.chars
  split
  · rename_i a b c' rest' heq
    obtain ⟨rfl, rfl⟩ := List.cons.inj heq
    rw [if_neg (by simp [hdouble, hsingle]), hline]
  · exact hline

namespace Grammar

theorem value_eq_scalar {c : Char} (harray : c ≠ '[') (htable : c ≠ '\x7b') :
    value maxDepth n (c :: rest) = scalar n (c :: rest) := by
  have hno : array (value 78) n (c :: rest) = none ∧ inlineTable (value 78) n (c :: rest) = none :=
    ⟨Scan.bind_of_none (Scan.char_cons_of_ne harray),
      Scan.bind_of_none (Scan.char_cons_of_ne htable)⟩
  change (array (value 78) <|> inlineTable (value 78) <|> scalar) n (c :: rest) = _
  rw [Scan.orElse_of_none hno.1, Scan.orElse_of_none hno.2]

/-- A text shows an item at the end of a line. -/
structure Legible (text : List Char) (item : Item) : Prop where
  value : ∀ n rest, text.length ≤ n →
    value maxDepth n (text ++ '\n' :: rest) = some (item, '\n' :: rest)
  start : ∀ c ∈ text.head?, Literal.isGap c = false

/-- The written form of a text begins with quotes of one of the two kinds. -/
theorem head_write (s : String) :
    ∃ q rest, (Literal.write s).toList = q :: rest ∧ (q = '"' ∨ q = Literal.single) := by
  rw [Literal.write, String.toList_ofList]
  cases Literal.form s.toList with
  | basic => exact ⟨_, _, rfl, .inl rfl⟩
  | raw => exact ⟨_, _, rfl, .inr rfl⟩
  | basicBlock => exact ⟨_, _, rfl, .inl rfl⟩
  | rawBlock => exact ⟨_, _, rfl, .inr rfl⟩

theorem legible_text (s : String) : Legible (Literal.write s).toList (.text s) := by
  obtain ⟨q, tail, hwrite, hq⟩ := head_write s
  refine ⟨fun n rest _ => ?_, fun c hc => ?_⟩
  · have hread : Literal.read n ((Literal.write s).toList ++ '\n' :: rest) =
        some (s, '\n' :: rest) := Literal.read_write (by simp) (by simp [Literal.single]) s
    rw [hwrite] at hread ⊢
    rw [List.cons_append, value_eq_scalar (by rcases hq with rfl | rfl <;> decide)
      (by rcases hq with rfl | rfl <;> decide)]
    exact Scan.orElse_of_some (Scan.bind_of_some hread)
  · rw [hwrite] at hc
    obtain rfl := Option.some.inj hc
    rcases hq with rfl | rfl <;> rfl

theorem legible_whole {m : Nat} (hm : 0 < m) (hmax : m < 0x8000000000000000) :
    Legible (toString m).toList (.whole m) := by
  rw [Nat.toString_eq_ofList_toDigits, String.toList_ofList]
  refine ⟨fun n rest hn => ?_, fun c hc => ?_⟩
  · have hwhole := Number.whole_toDigits rest hm hn hmax
    have hmoment := Number.moment_eq_none (n := n) (Number.bare_toDigits (m := m) rest)
    have hfraction := Number.fraction_eq_none rest hm hn
    have hspecial := Number.special_eq_none (n := n) rest hm
    obtain ⟨d, ds, hds, hd, -⟩ := Number.toDigits_head hm
    rw [hds, List.cons_append] at hwhole hmoment hfraction hspecial
    rw [hds, List.cons_append, value_eq_scalar (Number.ne_of_isDigit hd rfl)
      (Number.ne_of_isDigit hd rfl)]
    have htext : Literal.read n (d :: (ds ++ '\n' :: rest)) = none :=
      Literal.read_eq_none (Number.ne_of_isDigit hd rfl) (Number.ne_of_isDigit hd rfl)
    have htrue : Scan.word "true" n (d :: (ds ++ '\n' :: rest)) = none :=
      Scan.word_cons_of_ne (c := 't') rfl (Number.ne_of_isDigit hd rfl)
    have hfalse : Scan.word "false" n (d :: (ds ++ '\n' :: rest)) = none :=
      Scan.word_cons_of_ne (c := 'f') rfl (Number.ne_of_isDigit hd rfl)
    have hother : (Number.moment <|> Number.fraction <|> Number.special) n
        (d :: (ds ++ '\n' :: rest)) = none := by
      rw [Scan.orElse_of_none hmoment, Scan.orElse_of_none hfraction, hspecial]
    refine (Scan.orElse_of_none (Scan.bind_of_none htext)).trans ?_
    refine (Scan.orElse_of_none (Scan.bind_of_none htrue)).trans ?_
    refine (Scan.orElse_of_none (Scan.bind_of_none hfalse)).trans ?_
    refine (Scan.orElse_of_none (Scan.bind_of_none hother)).trans ?_
    exact Scan.bind_of_some hwhole
  · obtain ⟨d, ds, hds, hd, -⟩ := Number.toDigits_head hm
    rw [hds] at hc
    obtain rfl := Option.some.inj hc
    have htab : d ≠ '\t' := Number.ne_of_isDigit hd rfl
    have hspace : d ≠ ' ' := Number.ne_of_isDigit hd rfl
    simp [Literal.isGap, htab, hspace]

theorem legible_flag (b : Bool) : Legible (if b then "true" else "false").toList (.boolean b) := by
  refine ⟨fun n rest _ => ?_, fun c hc => ?_⟩
  · cases b with
    | false => rfl
    | true => rfl
  · cases b with
    | false =>
      obtain rfl := Option.some.inj hc
      rfl
    | true =>
      obtain rfl := Option.some.inj hc
      rfl

/-! ### Keys -/

/-- A key that needs no quotes. -/
structure BareKey (key : String) : Prop where
  nonempty : key ≠ ""
  bare : ∀ c ∈ key.toList, isBare c = true

instance (key : String) : Decidable (BareKey key) :=
  decidable_of_iff (key ≠ "" ∧ key.toList.all isBare = true)
    ⟨fun h => ⟨h.1, List.all_eq_true.1 h.2⟩, fun h => ⟨h.nonempty, List.all_eq_true.2 h.bare⟩⟩

theorem BareKey.head {key : String} (h : BareKey key) :
    ∃ c cs, key.toList = c :: cs ∧ isBare c = true ∧ ∀ c ∈ cs, isBare c = true := by
  have hbare := h.bare
  cases hkey : key.toList with
  | nil => exact absurd (String.toList_eq_nil_iff.1 hkey) h.nonempty
  | cons c cs =>
    rw [hkey] at hbare
    exact ⟨c, cs, rfl, List.forall_mem_cons.1 hbare⟩

theorem ne_of_isBare {c d : Char} (hd : isBare d = true) (hc : isBare c = false) : d ≠ c := by
  rintro rfl
  rw [hc] at hd
  cases hd

theorem isGap_of_isBare {c : Char} (hc : isBare c = true) : Literal.isGap c = false := by
  have htab : c ≠ '\t' := ne_of_isBare hc rfl
  have hspace : c ≠ ' ' := ne_of_isBare hc rfl
  simp [Literal.isGap, htab, hspace]

theorem gap_append {blanks : List Char} (hblanks : ∀ c ∈ blanks, Literal.isGap c = true)
    (hrest : ∀ c ∈ rest.head?, Literal.isGap c = false) :
    gap n (blanks ++ rest) = some ((), rest) :=
  Scan.bind_of_some (Scan.span_append hblanks hrest)

theorem gap_of_not (hrest : ∀ c ∈ rest.head?, Literal.isGap c = false) :
    gap n rest = some ((), rest) :=
  Scan.bind_of_some (Scan.span_of_not hrest)

theorem gap_cons {c : Char} (hc : Literal.isGap c = false) :
    gap n (c :: rest) = some ((), c :: rest) :=
  gap_of_not fun _ hd => Option.some.inj hd ▸ hc

/-- A bare key is read up to the blanks after it, if no dot follows. -/
theorem key_bare {key : String} (h : BareKey key) (blanks : List Char) {c : Char}
    (hblanks : ∀ c ∈ blanks, Literal.isGap c = true) (hgap : Literal.isGap c = false)
    (hbare : isBare c = false) (hdot : c ≠ '.') :
    Grammar.key n (key.toList ++ (blanks ++ c :: rest)) = some ([key], c :: rest) := by
  obtain ⟨d, ds, hkey, hd, hds⟩ := h.head
  have hnext : ∀ e ∈ (blanks ++ c :: rest).head?, isBare e = false := by
    intro e he
    cases blanks with
    | nil =>
      obtain rfl := Option.some.inj he
      exact hbare
    | cons b blanks =>
      obtain rfl := Option.some.inj he
      have hb := hblanks b List.mem_cons_self
      rw [Literal.isGap, Bool.or_eq_true, beq_iff_eq, beq_iff_eq] at hb
      rcases hb with rfl | rfl <;> rfl
  have hstart : gap n (d :: (ds ++ (blanks ++ c :: rest))) =
      some ((), d :: (ds ++ (blanks ++ c :: rest))) := gap_cons (isGap_of_isBare hd)
  have hline : Literal.line n (d :: (ds ++ (blanks ++ c :: rest))) = none := by
    refine Scan.map_of_none ?_
    change Literal.lineChars (d :: (ds ++ (blanks ++ c :: rest))) = none
    rw [Literal.lineChars, if_neg (ne_of_isBare hd rfl), if_neg (ne_of_isBare hd rfl)]
  have hword : bareKey n (d :: (ds ++ (blanks ++ c :: rest))) = some (key, blanks ++ c :: rest) := by
    rw [bareKey, Scan.bind_of_some (Scan.one_cons hd), Scan.bind_of_some (Scan.span_append hds hnext),
      ← hkey, String.ofList_toList]
    rfl
  have hpart : (gap *> (Literal.line <|> bareKey) <* gap) n (d :: (ds ++ (blanks ++ c :: rest))) =
      some (key, c :: rest) := by
    refine Scan.seqLeft_of_some ((Scan.seqRight_of_some hstart).trans ?_)
      (gap_append hblanks (by simpa using hgap))
    exact (Scan.orElse_of_none hline).trans hword
  have hlast : Scan.many (Scan.char '.' *> (gap *> (Literal.line <|> bareKey) <* gap)) n
      (c :: rest) = some ([], c :: rest) :=
    Scan.many_of_none (Scan.seqRight_of_none (Scan.char_cons_of_ne hdot))
  rw [hkey, List.cons_append, Grammar.key, Scan.separated, bind_assoc, Scan.bind_of_some hpart,
    bind_assoc, Scan.bind_of_some hlast]
  rfl

/-! ### Lines -/

/-- A line of a document with what it says. -/
abbrev Line := List Char × Option Statement

def blankLine : Line := (['\n'], none)

def headerLine (name : String) : Line := ('[' :: name.toList ++ [']', '\n'], some (.table [name]))

def assignLine (key : String) (text : List Char) (item : Item) : Line :=
  (key.toList ++ ' ' :: '=' :: ' ' :: text ++ ['\n'], some (.assign [key] item))

/-- A line is read wherever it stands. -/
structure Reads (l : Line) : Prop where
  nonempty : l.1 ≠ []
  line : ∀ n rest, l.1.length ≤ n → line n (l.1 ++ rest) = some (l.2, rest)

theorem newline_cons : newline n ('\n' :: rest) = some ((), rest) :=
  Scan.orElse_of_some Scan.char_cons

theorem lineEnd_cons : lineEnd n ('\n' :: rest) = some ((), rest) := by
  have hcomment : Scan.optional comment n ('\n' :: rest) = some (none, '\n' :: rest) :=
    Scan.optional_of_none (Scan.bind_of_none (Scan.char_cons_of_ne (by decide)))
  rw [lineEnd, Scan.bind_of_some (gap_cons rfl), Scan.bind_of_some hcomment]
  exact Scan.orElse_of_some newline_cons

/-- A line that begins with a statement holds that statement. -/
theorem line_of_statement {c : Char} {s : Statement} {tail : List Char}
    (hgap : Literal.isGap c = false) (hcomment : c ≠ '#') (hline : c ≠ '\n') (hreturn : c ≠ '\r')
    (h : (header <|> assignment) n (c :: rest) = some (s, '\n' :: tail)) :
    line n (c :: rest) = some (some s, tail) := by
  have hnewline : newline n (c :: rest) = none :=
    (Scan.orElse_of_none (Scan.char_cons_of_ne hline)).trans
      (Scan.word_cons_of_ne (c := '\r') rfl hreturn)
  have hno : comment n (c :: rest) = none := Scan.bind_of_none (Scan.char_cons_of_ne hcomment)
  rw [line, Scan.bind_of_some (gap_cons hgap)]
  refine (Scan.orElse_of_none (Scan.bind_of_none hnewline)).trans ?_
  refine (Scan.orElse_of_none (Scan.bind_of_none hno)).trans ?_
  rw [Scan.bind_of_some h, Scan.bind_of_some lineEnd_cons]
  rfl

theorem reads_blank : Reads blankLine where
  nonempty := List.cons_ne_nil _ _
  line n rest _ := by
    change line n ('\n' :: rest) = some (none, rest)
    rw [line, Scan.bind_of_some (gap_cons rfl)]
    exact Scan.orElse_of_some (Scan.bind_of_some newline_cons)

theorem reads_header {name : String} (h : BareKey name) : Reads (headerLine name) where
  nonempty := List.cons_ne_nil _ _
  line n rest _ := by
    have hkey : key n (name.toList ++ ']' :: '\n' :: rest) = some ([name], ']' :: '\n' :: rest) :=
      key_bare h [] (by simp) rfl rfl (by decide)
    obtain ⟨c, cs, hname, hc, -⟩ := h.head
    have hmember : Scan.word "[[" n ('[' :: (name.toList ++ ']' :: '\n' :: rest)) = none := by
      rw [hname]
      exact (Scan.bind_of_some Scan.char_cons).trans
        (Scan.bind_of_none (Scan.char_cons_of_ne (ne_of_isBare hc rfl)))
    have hheader : header n ('[' :: (name.toList ++ ']' :: '\n' :: rest)) =
        some (.table [name], '\n' :: rest) := by
      refine (Scan.orElse_of_none (Scan.bind_of_none hmember)).trans ?_
      rw [Scan.bind_of_some Scan.char_cons, Scan.bind_of_some hkey, Scan.bind_of_some Scan.char_cons]
      rfl
    have hline := line_of_statement rfl (by decide) (by decide) (by decide)
      (Scan.orElse_of_some hheader)
    simpa [headerLine] using hline

theorem reads_assign {key : String} {text : List Char} {item : Item} (h : BareKey key)
    (hitem : Legible text item) : Reads (assignLine key text item) where
  nonempty := by simp [assignLine]
  line n rest hn := by
    obtain ⟨c, cs, hname, hc, -⟩ := h.head
    have hlength : text.length ≤ n := by
      simp [assignLine] at hn
      omega
    have hkey : Grammar.key n (key.toList ++ ' ' :: '=' :: ' ' :: (text ++ '\n' :: rest)) =
        some ([key], '=' :: ' ' :: (text ++ '\n' :: rest)) :=
      key_bare h [' '] (by simp [Literal.isGap]) rfl rfl (by decide)
    have hgap : gap n (' ' :: (text ++ '\n' :: rest)) = some ((), text ++ '\n' :: rest) := by
      refine gap_append (List.forall_mem_singleton.2 rfl) fun d hd => ?_
      cases text with
      | nil => exact Option.some.inj hd ▸ rfl
      | cons e text => exact hitem.start d hd
    have hassign : assignment n (key.toList ++ ' ' :: '=' :: ' ' :: (text ++ '\n' :: rest)) =
        some (.assign [key] item, '\n' :: rest) := by
      rw [assignment, pair, bind_assoc, Scan.bind_of_some hkey, bind_assoc,
        Scan.bind_of_some Scan.char_cons, bind_assoc, Scan.bind_of_some hgap, bind_assoc,
        Scan.bind_of_some (hitem.value n rest hlength)]
      rfl
    have hheader : header n (c :: (cs ++ ' ' :: '=' :: ' ' :: (text ++ '\n' :: rest))) = none :=
      (Scan.orElse_of_none (Scan.bind_of_none
        (Scan.word_cons_of_ne (c := '[') rfl (ne_of_isBare hc rfl)))).trans
        (Scan.bind_of_none (Scan.char_cons_of_ne (ne_of_isBare hc rfl)))
    rw [hname] at hassign
    have hline := line_of_statement (isGap_of_isBare hc) (ne_of_isBare hc rfl)
      (ne_of_isBare hc rfl) (ne_of_isBare hc rfl) ((Scan.orElse_of_none hheader).trans hassign)
    simpa [assignLine, hname] using hline

/-! ### Documents -/

theorem line_nil : line n [] = none := rfl

theorem length_le_of_mem {l : Line} : ∀ {lines : List Line}, l ∈ lines →
    l.1.length ≤ (lines.flatMap Prod.fst).length
  | l' :: lines, h => by
    rw [List.flatMap_cons, List.length_append]
    rcases List.mem_cons.1 h with rfl | h
    · exact Nat.le_add_right _ _
    · exact Nat.le_trans (length_le_of_mem h) (Nat.le_add_left _ _)

/-- A text has at least as many characters as lines. -/
theorem length_lines_le : ∀ {lines : List Line}, (∀ l ∈ lines, Reads l) →
    lines.length ≤ (lines.flatMap Prod.fst).length
  | [], _ => Nat.le_refl 0
  | l :: lines, h => by
    obtain ⟨hl, hlines⟩ := List.forall_mem_cons.1 h
    have hpos := List.length_pos_iff.2 hl.nonempty
    have hrest := length_lines_le hlines
    rw [List.flatMap_cons, List.length_append, List.length_cons]
    omega

/-- A document of lines that can be read says what they say. -/
theorem document_of_lines {lines : List Line} (hlines : ∀ l ∈ lines, Reads l)
    (hstart : (lines.flatMap Prod.fst).head? ≠ some '\ufeff') :
    document.run (lines.flatMap Prod.fst) = some (lines.filterMap Prod.snd, []) := by
  have hmark : ∀ cs : List Char, cs.head? ≠ some '\ufeff' → ∀ n,
      Scan.optional (Scan.char '\ufeff') n cs = some (none, cs) := by
    intro cs hcs n
    cases cs with
    | nil => rfl
    | cons c cs =>
      exact Scan.optional_of_none (Scan.char_cons_of_ne fun h => hcs (congrArg some h))
  have hmany : Scan.many line (lines.flatMap Prod.fst).length (lines.flatMap Prod.fst ++ []) =
      some (lines.map Prod.snd, []) :=
    Scan.many_items (fun l hl rest => (hlines l hl).line _ rest (length_le_of_mem hl)) line_nil
      (length_lines_le hlines)
  rw [List.append_nil] at hmany
  rw [Scan.run, document, Scan.bind_of_some (hmark _ hstart _), Scan.bind_of_some hmany,
    Scan.bind_of_some (gap_of_not (by simp))]
  change some ((lines.map Prod.snd).filterMap id, []) = _
  rw [List.filterMap_map]
  rfl

end Grammar

end AccountSync.Toml
