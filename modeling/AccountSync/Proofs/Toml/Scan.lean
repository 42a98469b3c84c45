import AccountSync.Toml.Scan
/-!
What scanners make of a text that begins with what they want, and of one that does not. A repetition
takes all items that stand in a row (`Scan.many_items`).
-/

namespace AccountSync.Toml.Scan

variable {α β : Type} {x y : Scan α} {n : Nat} {cs rest : List Char} {a : α} {c d : Char}
  {p : Char → Bool}

/-! ### One after the other -/

theorem bind_of_some {f : α → Scan β} (h : x n cs = some (a, rest)) :
    (x >>= f) n cs = f a n rest := by
  change (x n cs).bind (fun r => f r.1 n r.2) = f a n rest
  rw [h, Option.bind_some]

theorem bind_of_none {f : α → Scan β} (h : x n cs = none) : (x >>= f) n cs = none := by
  change (x n cs).bind (fun r => f r.1 n r.2) = none
  rw [h, Option.bind_none]

theorem map_of_some {f : α → β} (h : x n cs = some (a, rest)) :
    (f <$> x) n cs = some (f a, rest) := by
  rw [map_eq_pure_bind, bind_of_some h]
  rfl

theorem map_of_none {f : α → β} (h : x n cs = none) : (f <$> x) n cs = none := by
  rw [map_eq_pure_bind, bind_of_none h]

theorem seqRight_of_some {y : Scan β} (h : x n cs = some (a, rest)) : (x *> y) n cs = y n rest := by
  rw [seqRight_eq_bind, bind_of_some h]

theorem seqRight_of_none {y : Scan β} (h : x n cs = none) : (x *> y) n cs = none := by
  rw [seqRight_eq_bind, bind_of_none h]

theorem seqLeft_of_some {y : Scan β} {b : β} {rest' : List Char} (h : x n cs = some (a, rest))
    (h' : y n rest = some (b, rest')) : (x <* y) n cs = some (a, rest') := by
  rw [seqLeft_eq_bind, bind_of_some h, bind_of_some h']
  rfl

/-! ### One or the other -/

theorem orElse_of_some (h : x n cs = some (a, rest)) : (x <|> y) n cs = some (a, rest) := by
  change (x n cs <|> y n cs) = some (a, rest)
  rw [h]
  rfl

theorem orElse_of_none (h : x n cs = none) : (x <|> y) n cs = y n cs := by
  change (x n cs <|> y n cs) = y n cs
  rw [h]
  rfl

theorem optional_of_none (h : x n cs = none) : optional x n cs = some (none, cs) := by
  rw [optional, h]

/-! ### Characters -/

theorem one_cons (h : p c = true) : one p n (c :: rest) = some (c, rest) := if_pos h

theorem one_cons_of_not (h : p c = false) : one p n (c :: rest) = none :=
  if_neg (Bool.eq_false_iff.1 h)

theorem char_cons : char c n (c :: rest) = some ((), rest) :=
  bind_of_some (one_cons (beq_self_eq_true c))

theorem char_cons_of_ne (h : d ≠ c) : char c n (d :: rest) = none :=
  bind_of_none (one_cons_of_not (beq_eq_false_iff_ne.2 h))

theorem word_cons_of_ne {s : String} {l : List Char} (hs : s.toList = c :: l) (h : d ≠ c) :
    word s n (d :: rest) = none := by
  rw [word, hs]
  change (char c >>= fun _ => l.forM char) n (d :: rest) = none
  rw [bind_of_none (char_cons_of_ne h)]

theorem span_append {l : List Char} (hl : ∀ c ∈ l, p c = true)
    (hrest : ∀ c ∈ rest.head?, p c = false) : span p n (l ++ rest) = some (l, rest) := by
  have hnone : rest.takeWhile p = [] ∧ rest.dropWhile p = rest := by
    cases rest with
    | nil => exact ⟨rfl, rfl⟩
    | cons c rest =>
      have hc := hrest c rfl
      exact ⟨List.takeWhile_cons_of_neg (by simp [hc]), List.dropWhile_cons_of_neg (by simp [hc])⟩
  rw [span, ahead, List.takeWhile_append_of_pos hl, List.dropWhile_append_of_pos hl, hnone.1,
    hnone.2, List.append_nil]

theorem span_of_not (h : ∀ c ∈ cs.head?, p c = false) : span p n cs = some ([], cs) :=
  span_append (l := []) (by simp) h

/-! ### Repetition -/

theorem repeated_items {f : List Char → Option (α × List Char)} {tail : List Char}
    (hend : f tail = none) : ∀ {items : List (List Char × α)} {turns : Nat} (before : List α),
      (∀ i ∈ items, ∀ rest, f (i.1 ++ rest) = some (i.2, rest)) → items.length ≤ turns →
      repeated f before turns (items.flatMap Prod.fst ++ tail) =
        (before.reverse ++ items.map Prod.snd, tail)
  | [], turns, before, _, _ => by
    cases turns with
    | zero => simp [repeated]
    | succ turns => simp [repeated, hend]
  | i :: items, turns + 1, before, hitems, hturns => by
    obtain ⟨hi, hitems⟩ := List.forall_mem_cons.1 hitems
    rw [List.flatMap_cons, List.append_assoc, repeated, hi]
    dsimp only
    rw [repeated_items hend (i.2 :: before) hitems (Nat.le_of_succ_le_succ hturns),
      List.reverse_cons, List.append_assoc, List.map_cons, List.singleton_append]

/-- A repetition takes the items that stand in a row, if there are turns for all of them. -/
theorem many_items {items : List (List Char × α)} {tail : List Char}
    (hitems : ∀ i ∈ items, ∀ rest, x n (i.1 ++ rest) = some (i.2, rest)) (hend : x n tail = none)
    (hturns : items.length ≤ n) :
    many x n (items.flatMap Prod.fst ++ tail) = some (items.map Prod.snd, tail) :=
  congrArg some (repeated_items hend [] hitems hturns)

theorem many_of_none (h : x n cs = none) : many x n cs = some ([], cs) := by
  have hnone : ∀ i ∈ ([] : List (List Char × α)), ∀ rest, x n (i.1 ++ rest) = some (i.2, rest) :=
    List.forall_mem_nil _
  exact many_items hnone h (Nat.zero_le n)

end AccountSync.Toml.Scan
