import AccountSync.Proofs.Toml.Scan
import AccountSync.Toml.Literal
/-!
Written texts are read back: whatever form a text is given, the reader finds its characters and stops
right after the closing quotes (`Literal.chars_writeAs`, `Literal.read_write`).
-/

namespace AccountSync.Toml.Literal

variable {block : Bool} {c q : Char} {before cs rest tail text : List Char}

/-! ### One character in a text with escapes -/

/-- A text in quotes shows a character: as it is, by a letter after a backslash, or by its code
point. -/
inductive Shows (block : Bool) : List Char → Char → Prop
  | itself (c : Char) : (isPlain c = true ∨ block = true ∧ c = '\n') → c ≠ '"' → c ≠ '\\' →
      Shows block [c] c
  | letter (e c : Char) : afterBackslash e = some (.inr c) → Shows block ['\\', e] c
  | code (c : Char) : c.toNat < 65536 → Shows block (codeEscape c.toNat) c

theorem toNat_lt_of_isControl (hc : isControl c = true) : c.toNat < 65536 := by
  simp only [isControl, isPlain, Bool.and_eq_true, Bool.not_eq_true', Bool.or_eq_false_iff,
    Bool.and_eq_false_iff, decide_eq_false_iff_not, bne_eq_false_iff_eq] at hc
  omega

/-- The writer shows every character but the quote. -/
theorem shows_escaped (block : Bool) (hc : c ≠ '"') : Shows block (escaped block c) c := by
  unfold escaped
  split
  · rename_i h; subst h; exact .letter 'b' _ rfl
  split
  · rename_i h; subst h; exact .letter 't' _ rfl
  split
  · rename_i h
    subst h
    split
    · rename_i hblock
      exact .itself _ (.inr ⟨hblock, rfl⟩) (by decide) (by decide)
    · exact .letter 'n' _ rfl
  split
  · rename_i h; subst h; exact .letter 'f' _ rfl
  split
  · rename_i h; subst h; exact .letter 'r' _ rfl
  split
  · rename_i h; subst h; exact .letter '\\' _ rfl
  split
  · rename_i h
    exact .code c (toNat_lt_of_isControl h)
  · rename_i hline _ _ hslash hcontrol
    refine .itself c (.inl ?_) hc hslash
    simpa [isControl, hline] using hcontrol

/-- It begins with no quote, and with a line end only if that is what it shows. -/
theorem Shows.head (h : Shows block text c) :
    ∃ d tail, text = d :: tail ∧ d ≠ '"' ∧ d ≠ '\r' ∧ (d = '\n' → c = '\n') := by
  cases h with
  | itself _ hplain hquote hslash =>
    refine ⟨c, [], rfl, hquote, ?_, id⟩
    rintro rfl
    simp [isPlain] at hplain
  | letter e _ he => exact ⟨'\\', [e], rfl, by decide, by decide, fun h => absurd h (by decide)⟩
  | code _ hc => exact ⟨'\\', _, rfl, by decide, by decide, fun h => absurd h (by decide)⟩

theorem hexDigit?_hexDigit : ∀ n : Fin 16, hexDigit? (hexDigit n) = some n.val := by decide

theorem moreCode_hexDigit (left value : Nat) {n : Nat} (hn : n < 16) :
    moreCode left value (hexDigit n) =
      if left ≤ 1 then (char? (value * 16 + n)).map .inr
      else some (.inl (.code (left - 1) (value * 16 + n))) := by
  rw [moreCode, hexDigit?_hexDigit ⟨n, hn⟩]
  rfl

theorem char?_toNat (c : Char) : char? c.toNat = some c := by
  have hvalid : c.toNat.isValidChar := c.valid
  rw [char?, if_pos hvalid, Char.ofNat_toNat]

/-- The number that four digits make. -/
theorem code_digits {n : Nat} (hn : n < 65536) :
    ((n / 4096 % 16 * 16 + n / 256 % 16) * 16 + n / 16 % 16) * 16 + n % 16 = n := by
  omega

theorem basic_shows (h : Shows false text c) :
    basic .plain before (text ++ tail) = basic .plain (c :: before) tail := by
  cases h with
  | itself _ hplain hquote hslash =>
    have hplain : isPlain c = true := by simpa using hplain
    simp [basic, hquote, hslash, hplain]
  | letter e _ he => simp [basic, he]
  | code _ hc =>
    have hmod (k : Nat) : k % 16 < 16 := Nat.mod_lt k (by decide)
    have hu : afterBackslash 'u' = some (.inl (.code 4 0)) := rfl
    simp only [codeEscape, List.cons_append, List.nil_append]
    simp [basic, hu, moreCode_hexDigit _ _ (hmod _)]
    rw [code_digits hc, char?_toNat]
    rfl

/-! ### Texts on one line -/

/-- Only the last of quotes in a row may stand right before what follows; more of them, or another
character. -/
theorem escapedAll_quotes (block : Bool) {allowed : Nat} : ∀ (cs : List Char) {run : Nat},
    run ≤ allowed →
    (∃ k, run + k ≤ allowed ∧ cs = List.replicate k '"' ∧
      escapedAll block allowed run cs = List.replicate k '"') ∨
    ∃ k d tail, run + k ≤ allowed ∧ d ≠ '"' ∧
      escapedAll block allowed run cs = List.replicate k '"' ++ d :: tail
  | [], run, hrun => .inl ⟨0, hrun, rfl, rfl⟩
  | c :: cs, run, hrun => by
    rw [escapedAll]
    split
    · rename_i hc
      split
      · rename_i hlt
        rcases escapedAll_quotes block cs (Nat.succ_le_of_lt hlt) with
          ⟨k, hk, hcs, hout⟩ | ⟨k, d, tail, hk, hd, hout⟩
        · exact .inl ⟨k + 1, by omega, by rw [hc, hcs]; rfl, by rw [hout]; rfl⟩
        · exact .inr ⟨k + 1, d, tail, by omega, hd, by rw [hout]; rfl⟩
      · exact .inr ⟨0, '\\', _, hrun, by decide, rfl⟩
    · rename_i hc
      obtain ⟨d, tail, hhead, hd, -⟩ := (shows_escaped block hc).head
      exact .inr ⟨0, d, _, hrun, hd, by rw [hhead]; rfl⟩

theorem basic_escapedQuote :
    basic .plain before ('\\' :: '"' :: tail) = basic .plain ('"' :: before) tail :=
  basic_shows (.letter '"' '"' rfl)

theorem basic_escapedAll : ∀ {cs before : List Char},
    basic .plain before (escapedAll false 0 0 cs ++ '"' :: rest) = some (before.reverse ++ cs, rest)
  | [], before => by simp [escapedAll, basic]
  | c :: cs, before => by
    by_cases hc : c = '"'
    · rw [hc, escapedAll, if_pos rfl, if_neg (Nat.lt_irrefl 0), List.cons_append, List.cons_append,
        basic_escapedQuote, basic_escapedAll, List.reverse_cons, List.append_assoc,
        List.singleton_append]
    · rw [escapedAll, if_neg hc, List.append_assoc, basic_shows (shows_escaped false hc),
        basic_escapedAll, List.reverse_cons, List.append_assoc]
      rfl

theorem raw_append : ∀ {cs before : List Char}, (∀ c ∈ cs, c ≠ single ∧ isPlain c = true) →
    raw before (cs ++ single :: rest) = some (before.reverse ++ cs, rest)
  | [], before, _ => by simp [raw]
  | c :: cs, before, h => by
    obtain ⟨⟨hc, hplain⟩, hcs⟩ := List.forall_mem_cons.1 h
    rw [List.cons_append, raw, if_neg hc, if_pos hplain, raw_append hcs, List.reverse_cons,
      List.append_assoc]
    rfl

/-- A text that begins with one quote and no three is on one line. -/
theorem chars_line (hcs : cs.head? ≠ some q) (hrest : rest.head? ≠ some q) :
    chars (q :: (cs ++ q :: rest)) = lineChars (q :: (cs ++ q :: rest)) := by
  cases cs with
  | nil =>
    cases rest with
    | nil => rfl
    | cons c rest =>
      have hc : q ≠ c := by rintro rfl; exact hrest rfl
      simp [chars, hc]
  | cons c cs =>
    have hc : q ≠ c := by rintro rfl; exact hcs rfl
    cases cs <;> simp [chars, hc]

/-! ### Blocks -/

theorem closing?_few {k : Nat} (hk : k < 3) (hc : c ≠ q) :
    closing? q (List.replicate k q ++ c :: tail) = none := by
  rcases k with _ | _ | _ | k
  · simp [closing?, hc]
  · simp [closing?, hc]
  · simp [closing?, hc]
  · omega

theorem closing?_end {k : Nat} (hk : k < 3) (hrest : rest.head? ≠ some q) :
    closing? q (List.replicate k q ++ (triple q ++ rest)) = some (List.replicate k q, rest) := by
  have hstop : ∀ n, (rest.take n).takeWhile (· == q) = [] := by
    intro n
    cases rest with
    | nil => simp
    | cons c rest =>
      have hc : c ≠ q := by rintro rfl; exact hrest rfl
      cases n <;> simp [hc]
  rcases k with _ | _ | _ | k
  · simp [closing?, triple, hstop]
  · simp [closing?, triple, hstop]
  · simp [closing?, triple]
  · omega

theorem endsLine_cons (hline : c ≠ '\n') (hreturn : c ≠ '\r') : endsLine (c :: tail) = false := by
  unfold endsLine
  split
  · rename_i h; exact absurd (List.cons.inj h).1 hline
  · rename_i h; exact absurd (List.cons.inj h).1 hreturn
  · rfl

/-- A backslash that an escape follows does not end a line. -/
theorem not_endsLine_of_afterBackslash {r : Mode ⊕ Char} (h : afterBackslash c = some r) :
    endsLine ((c :: tail).dropWhile isGap) = false := by
  have hgap : isGap c = false := by
    rw [isGap, Bool.or_eq_false_iff, beq_eq_false_iff_ne, beq_eq_false_iff_ne]
    constructor <;> (rintro rfl; cases h)
  rw [List.dropWhile_cons_of_neg (by simp [hgap])]
  exact endsLine_cons (by rintro rfl; cases h) (by rintro rfl; cases h)

theorem basicBlock_shows (h : Shows true text c) :
    basicBlock .plain before (text ++ tail) = basicBlock .plain (c :: before) tail := by
  have hslash (t : List Char) : closing? '"' ('\\' :: t) = none :=
    closing?_few (k := 0) (by decide) (by decide)
  cases h with
  | itself _ hplain hquote hback =>
    have hclosing : closing? '"' (c :: tail) = none := closing?_few (k := 0) (by decide) hquote
    have hreturn : c ≠ '\r' := by rintro rfl; simp [isPlain] at hplain
    have hbody : c = '\n' ∨ isPlain c = true := hplain.elim .inr fun h => .inl h.2
    simp [basicBlock, hclosing, hback, hreturn, hbody]
  | letter e _ he =>
    simp [basicBlock, hslash, not_endsLine_of_afterBackslash he, he]
  | code _ hc =>
    have hmod (k : Nat) : k % 16 < 16 := Nat.mod_lt k (by decide)
    have hu : afterBackslash 'u' = some (.inl (.code 4 0)) := rfl
    simp only [codeEscape, List.cons_append, List.nil_append]
    simp [basicBlock, hslash, not_endsLine_of_afterBackslash hu, hu, moreCode_hexDigit _ _ (hmod _)]
    rw [code_digits hc, char?_toNat]
    rfl

/-- Quotes that close a block end it, whatever of them belongs to the text. -/
theorem basicBlock_closing {last : List Char} (h : closing? '"' (c :: tail) = some (last, rest)) :
    basicBlock .plain before (c :: tail) = some (before.reverse ++ last, rest) := by
  simp [basicBlock, h]

theorem basicBlock_quote (h : closing? '"' ('"' :: tail) = none) :
    basicBlock .plain before ('"' :: tail) = basicBlock .plain ('"' :: before) tail := by
  simp [basicBlock, h, isPlain]

theorem basicBlock_escapedQuote :
    basicBlock .plain before ('\\' :: '"' :: tail) = basicBlock .plain ('"' :: before) tail :=
  basicBlock_shows (.letter '"' '"' rfl)

theorem basicBlock_escapedAll (hrest : rest.head? ≠ some '"') :
    ∀ (cs before : List Char) {run : Nat}, run ≤ 2 →
      basicBlock .plain before (escapedAll true 2 run cs ++ (triple '"' ++ rest)) =
        some (before.reverse ++ cs, rest)
  | [], before, run, _ => basicBlock_closing (closing?_end (k := 0) (by decide) hrest)
  | c :: cs, before, run, hrun => by
    rw [escapedAll]
    split
    · rename_i hc
      subst hc
      split
      · rename_i hlt
        -- Whether this quote and those after it close the block is seen at the first of them.
        rcases escapedAll_quotes true cs (Nat.succ_le_of_lt hlt) with
          ⟨k, hk, hcs, hout⟩ | ⟨k, d, tail, hk, hd, hout⟩
        · have hclosing := closing?_end (k := k + 1) (by omega) hrest
          rw [hout, hcs]
          exact basicBlock_closing hclosing
        · have hclosing : closing? '"' ('"' :: (escapedAll true 2 (run + 1) cs ++
              (triple '"' ++ rest))) = none := by
            rw [hout, List.append_assoc]
            exact closing?_few (k := k + 1) (by omega) hd
          rw [List.cons_append, basicBlock_quote hclosing,
            basicBlock_escapedAll hrest _ _ (Nat.succ_le_of_lt hlt), List.reverse_cons,
            List.append_assoc, List.singleton_append]
      · rw [List.cons_append, List.cons_append, basicBlock_escapedQuote,
          basicBlock_escapedAll hrest _ _ (Nat.zero_le 2), List.reverse_cons, List.append_assoc,
          List.singleton_append]
    · rename_i hc
      rw [List.append_assoc, basicBlock_shows (shows_escaped true hc),
        basicBlock_escapedAll hrest _ _ (Nat.zero_le 2), List.reverse_cons, List.append_assoc]
      rfl

/-- No more than `limit` quotes stand in a row; `run` of them stood before. -/
def Sparse (q : Char) (limit : Nat) : Nat → List Char → Prop
  | _, [] => True
  | run, c :: rest => if c = q then run < limit ∧ Sparse q limit (run + 1) rest
    else Sparse q limit 0 rest

theorem sparse_of_longestRun {limit : Nat} (h : longestRun q cs ≤ limit) : Sparse q limit 0 cs := by
  have hfold : ∀ (cs : List Char) (longest run : Nat),
      let after := cs.foldl (fun p c =>
        let run := if c == q then p.2 + 1 else 0
        (max p.1 run, run)) (longest, run)
      longest ≤ after.1 ∧ (after.1 ≤ limit → Sparse q limit run cs) := by
    intro cs
    induction cs with
    | nil => exact fun longest run => ⟨Nat.le_refl _, fun _ => trivial⟩
    | cons c cs ih =>
      intro longest run
      obtain ⟨hmax, hsparse⟩ := ih (max longest (if c == q then run + 1 else 0))
        (if c == q then run + 1 else 0)
      refine ⟨Nat.le_trans (Nat.le_max_left _ _) hmax, fun hle => ?_⟩
      have hrun := Nat.le_trans (Nat.le_max_right longest (if c == q then run + 1 else 0))
        (Nat.le_trans hmax hle)
      have hrest := hsparse hle
      rw [Sparse]
      by_cases hc : c = q
      · simp only [hc, beq_self_eq_true, if_true] at hrun hrest ⊢
        exact ⟨hrun, hrest⟩
      · simpa [hc] using hrest
  exact (hfold cs 0 0).2 h

theorem not_mem_of_sparse : ∀ {cs : List Char} {run : Nat}, Sparse q 0 run cs → q ∉ cs
  | [], _, _ => List.not_mem_nil
  | c :: cs, run, h => by
    rw [Sparse] at h
    split at h
    · exact absurd h.1 (Nat.not_lt_zero run)
    · rename_i hc
      exact List.not_mem_cons_of_ne_of_not_mem (Ne.symm hc) (not_mem_of_sparse h)

/-- What stands first: quotes only, or quotes and another character. -/
theorem sparse_quotes {limit : Nat} : ∀ {cs : List Char} {run : Nat}, run ≤ limit →
    Sparse q limit run cs →
      (∃ k, run + k ≤ limit ∧ cs = List.replicate k q) ∨
      ∃ k d tail, run + k ≤ limit ∧ d ≠ q ∧ cs = List.replicate k q ++ d :: tail
  | [], run, hrun, _ => .inl ⟨0, hrun, rfl⟩
  | c :: cs, run, hrun, h => by
    rw [Sparse] at h
    split at h
    · rename_i hc
      rcases sparse_quotes (Nat.succ_le_of_lt h.1) h.2 with ⟨k, hk, hcs⟩ | ⟨k, d, tail, hk, hd, hcs⟩
      · exact .inl ⟨k + 1, by omega, by rw [hc, hcs]; rfl⟩
      · exact .inr ⟨k + 1, d, tail, by omega, hd, by rw [hc, hcs]; rfl⟩
    · rename_i hc
      exact .inr ⟨0, c, cs, hrun, hc, rfl⟩

theorem rawBlock_closing {last : List Char} (h : closing? single (c :: tail) = some (last, rest)) :
    rawBlock before (c :: tail) = some (before.reverse ++ last, rest) := by
  simp [rawBlock, h]

theorem rawBlock_cons (h : closing? single (c :: tail) = none) (hc : isControl c = false) :
    rawBlock before (c :: tail) = rawBlock (c :: before) tail := by
  have hreturn : c ≠ '\r' := by rintro rfl; cases hc
  have hbody : c = '\n' ∨ isPlain c = true := by
    rw [isControl, Bool.and_eq_false_iff, Bool.not_eq_false', bne_eq_false_iff_eq] at hc
    exact hc.symm
  simp [rawBlock, h, hreturn, hbody]

theorem rawBlock_append (hrest : rest.head? ≠ some single) :
    ∀ {cs : List Char} (before : List Char) {run : Nat}, run ≤ 2 → Sparse single 2 run cs →
      (∀ c ∈ cs, isControl c = false) →
      rawBlock before (cs ++ (triple single ++ rest)) = some (before.reverse ++ cs, rest)
  | [], before, run, _, _, _ => rawBlock_closing (closing?_end (k := 0) (by decide) hrest)
  | c :: cs, before, run, hrun, hsparse, hcontrol => by
    obtain ⟨hc, hcs⟩ := List.forall_mem_cons.1 hcontrol
    rcases sparse_quotes hrun hsparse with ⟨k, hk, htext⟩ | ⟨k, d, tail, hk, hd, htext⟩
    · have hclosing := closing?_end (k := k) (by omega) hrest
      rw [htext]
      rw [← htext] at hclosing ⊢
      exact rawBlock_closing hclosing
    · have hclosing : closing? single (c :: (cs ++ (triple single ++ rest))) = none := by
        rw [← List.cons_append, htext, List.append_assoc]
        exact closing?_few (by omega) hd
      rw [List.cons_append, rawBlock_cons hclosing hc]
      rw [Sparse] at hsparse
      split at hsparse
      · rw [rawBlock_append hrest _ (Nat.succ_le_of_lt hsparse.1) hsparse.2 hcs, List.reverse_cons,
          List.append_assoc, List.singleton_append]
      · rw [rawBlock_append hrest _ (Nat.zero_le 2) hsparse hcs, List.reverse_cons,
          List.append_assoc, List.singleton_append]

/-! ### Any form -/

theorem chars_basic (hrest : rest.head? ≠ some '"') (cs : List Char) :
    chars (writeAs .basic cs ++ rest) = some (cs, rest) := by
  have hhead : (escapedAll false 0 0 cs).head? ≠ some '"' := by
    rcases escapedAll_quotes false cs (Nat.zero_le 0) with
      ⟨k, hk, -, hout⟩ | ⟨k, d, tail, hk, hd, hout⟩
    · obtain rfl : k = 0 := by omega
      rw [hout]
      exact fun h => by cases h
    · obtain rfl : k = 0 := by omega
      rw [hout]
      exact fun h => hd (Option.some.inj h)
  have hline := chars_line hhead hrest
  rw [writeAs, List.append_assoc, List.cons_append, List.singleton_append, hline, lineChars,
    if_pos rfl, basic_escapedAll]
  rfl

theorem chars_raw (hrest : rest.head? ≠ some single)
    (h : ∀ c ∈ cs, c ≠ single ∧ isPlain c = true) :
    chars (writeAs .raw cs ++ rest) = some (cs, rest) := by
  have hhead : cs.head? ≠ some single := fun hc => (h single (List.mem_of_head? hc)).1 rfl
  have hline := chars_line hhead hrest
  rw [writeAs, List.append_assoc, List.cons_append, List.singleton_append, hline, lineChars,
    if_neg (by decide), if_pos rfl, raw_append h]
  rfl

/-- The line end that a block of several lines begins with is no part of it, and other blocks begin
with none. -/
theorem afterOpening_start (cs text : List Char)
    (h : '\n' ∉ cs → ∃ d tail, text = d :: tail ∧ d ≠ '\n' ∧ d ≠ '\r') :
    afterOpening ((if cs.contains '\n' then ['\n'] else []) ++ text) = text := by
  by_cases hline : '\n' ∈ cs
  · rw [if_pos (List.contains_iff_mem.2 hline)]
    rfl
  · obtain ⟨d, tail, rfl, hd, hreturn⟩ := h hline
    rw [if_neg (by simpa using hline), List.nil_append]
    unfold afterOpening
    split
    · rename_i h; exact absurd (List.cons.inj h).1 hd
    · rename_i h; exact absurd (List.cons.inj h).1 hreturn
    · rfl

theorem chars_block (hq : q = '"' ∨ q = single) (text : List Char) :
    chars (triple q ++ text) = if q = '"' then basicBlock .plain [] (afterOpening text)
      else rawBlock [] (afterOpening text) := by
  rw [triple, List.cons_append, List.cons_append, List.cons_append, List.nil_append, chars,
    if_pos ⟨rfl, rfl, hq⟩]

theorem chars_basicBlock (hrest : rest.head? ≠ some '"') (cs : List Char) :
    chars (writeAs .basicBlock cs ++ rest) = some (cs, rest) := by
  have hbody := basicBlock_escapedAll hrest cs [] (Nat.zero_le 2)
  have hopening := afterOpening_start cs (escapedAll true 2 0 cs ++ (triple '"' ++ rest))
    fun hline => by
      cases cs with
      | nil => exact ⟨'"', _, rfl, by decide, by decide⟩
      | cons c cs =>
        rw [escapedAll]
        split
        · exact ⟨'"', _, rfl, by decide, by decide⟩
        · rename_i hc
          obtain ⟨d, tail, hhead, -, hreturn, hd⟩ := (shows_escaped true hc).head
          refine ⟨d, _, by rw [hhead]; rfl, fun h => hline ?_, hreturn⟩
          rw [← hd h]
          exact List.mem_cons_self
  rw [writeAs, List.append_assoc, List.append_assoc, List.append_assoc, chars_block (.inl rfl),
    if_pos rfl, hopening, hbody]
  rfl

theorem chars_rawBlock (hrest : rest.head? ≠ some single) (hsparse : Sparse single 2 0 cs)
    (hcontrol : ∀ c ∈ cs, isControl c = false) :
    chars (writeAs .rawBlock cs ++ rest) = some (cs, rest) := by
  have hbody := rawBlock_append hrest [] (Nat.zero_le 2) hsparse hcontrol
  have hopening := afterOpening_start cs (cs ++ (triple single ++ rest)) fun hline => by
      cases cs with
      | nil => exact ⟨single, _, rfl, by decide, by decide⟩
      | cons c cs =>
        have hc := hcontrol c List.mem_cons_self
        refine ⟨c, _, rfl, fun h => hline (h ▸ List.mem_cons_self), ?_⟩
        rintro rfl
        cases hc
  rw [writeAs, List.append_assoc, List.append_assoc, List.append_assoc, chars_block (.inr rfl),
    if_neg (by decide), hopening, hbody]
  rfl

/-- A form can show a text. One with escapes can show any. -/
def Fits (cs : List Char) : Form → Prop
  | .basic | .basicBlock => True
  | .raw => ∀ c ∈ cs, c ≠ single ∧ isPlain c = true
  | .rawBlock => Sparse single 2 0 cs ∧ ∀ c ∈ cs, isControl c = false

theorem fits_form (cs : List Char) : Fits cs (form cs) := by
  have hplain (h : cs.any isControl = false) : ∀ c ∈ cs, isControl c = false := by
    simpa using h
  unfold form
  dsimp only
  split
  · trivial
  split
  · rename_i h
    simp only [Bool.and_eq_true, Bool.not_eq_true', decide_eq_true_eq] at h
    obtain ⟨⟨hcontrol, hsingles⟩, hlines⟩ := h
    intro c hc
    have hcontrol := hplain hcontrol c hc
    have hline : c ≠ '\n' := by
      rintro rfl
      rw [List.contains_iff_mem.2 hc] at hlines
      cases hlines
    have hsingle := not_mem_of_sparse (sparse_of_longestRun (Nat.le_of_eq hsingles))
    refine ⟨fun h => hsingle (h ▸ hc), ?_⟩
    simpa [isControl, hline] using hcontrol
  split
  · trivial
  split
  · rename_i h
    simp only [Bool.and_eq_true, Bool.not_eq_true', decide_eq_true_eq] at h
    exact ⟨sparse_of_longestRun h.2, hplain h.1⟩
  split <;> trivial

/-- A text in any form that can show it is read back, and what follows it is left. -/
theorem chars_writeAs {f : Form} (hfits : Fits cs f) (hdouble : rest.head? ≠ some '"')
    (hsingle : rest.head? ≠ some single) : chars (writeAs f cs ++ rest) = some (cs, rest) := by
  cases f with
  | basic => exact chars_basic hdouble cs
  | raw => exact chars_raw hsingle hfits
  | basicBlock => exact chars_basicBlock hdouble cs
  | rawBlock => exact chars_rawBlock hsingle hfits.1 hfits.2

theorem read_write {n : Nat} (hdouble : rest.head? ≠ some '"') (hsingle : rest.head? ≠ some single)
    (s : String) : read n ((write s).toList ++ rest) = some (s, rest) := by
  rw [write, String.toList_ofList, read]
  refine (Scan.map_of_some (chars_writeAs (fits_form s.toList) hdouble hsingle)).trans ?_
  rw [String.ofList_toList]

end AccountSync.Toml.Literal
