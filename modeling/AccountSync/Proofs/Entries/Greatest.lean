import Mathlib.Order.Defs.Unbundled
import AccountSync.Proofs.Entries.Lattice
/-!
What a join holds under each key. Entries are ordered by stamp, those of one stamp by value, and a
removal comes before all values (`Entry.Below`); no two entries tie. A join has under each key the
greatest entry of the two maps (`Entries.find?_join_eq_some_iff`), and it is the least map that both
maps lie within (`Entries.join_least_upper_bound`).
-/

namespace AccountSync

namespace Entry

/-- One entry loses to another. -/
inductive Below : Entry → Entry → Prop where
  | stamp {a b : Entry} (h : a.stamp < b.stamp) : Below a b
  | removal (v : Bytes) (stamp : Int) : Below ⟨none, stamp⟩ ⟨some v, stamp⟩
  | value {v w : Bytes} (stamp : Int) (h : v < w) : Below ⟨some v, stamp⟩ ⟨some w, stamp⟩

variable {a b : Entry}

/-- Bytes are compared from the front, and what ends first comes first. -/
theorem compare_bytes_eq_lt_iff : ∀ {v w : Bytes}, compare v w = .lt ↔ v < w
  | [], [] => iff_of_false (by decide) (List.not_lt_nil [])
  | [], y :: w => iff_of_true rfl (List.nil_lt_cons y w)
  | x :: v, [] => iff_of_false (nofun : Ordering.gt ≠ .lt) (List.not_lt_nil (x :: v))
  | x :: v, y :: w => by
    have hcons : compare (x :: v) (y :: w) = (compare x y).then (compare v w) :=
      List.compareLex_cons_cons
    rw [hcons, Ordering.then_eq_lt, List.cons_lt_cons_iff, compare_bytes_eq_lt_iff (v := v),
      SortedMap.compare_eq_iff]
    exact or_congr_left Std.LawfulLTCmp.eq_lt_iff_lt

theorem compare_eq_lt_iff : compare a b = .lt ↔ a.Below b := by
  have hcompare : compare a b = (compare a.stamp b.stamp).then (compare a.value b.value) := rfl
  rw [hcompare, Ordering.then_eq_lt, compare_lt_iff_lt, SortedMap.compare_eq_iff]
  constructor
  · rintro (h | ⟨hstamp, hvalue⟩)
    · exact .stamp h
    · obtain ⟨v, s⟩ := a
      obtain ⟨w, t⟩ := b
      obtain rfl : s = t := hstamp
      match v, w, hvalue with
      | none, some w, _ => exact .removal w s
      | some v, some w, h => exact .value s (compare_bytes_eq_lt_iff.1 h)
  · intro h
    cases h with
    | stamp h => exact .inl h
    | removal v s => exact .inr ⟨rfl, rfl⟩
    | value s h => exact .inr ⟨rfl, compare_bytes_eq_lt_iff.2 h⟩

theorem atMost_iff : AtMost a b ↔ a = b ∨ a.Below b := by
  rw [AtMost, ← compare_eq_lt_iff, ← SortedMap.compare_eq_iff (a := a)]
  cases compare a b <;> simp

/-- Of two different entries one loses, and never both. -/
instance : IsStrictTotalOrder Entry Below where
  trichotomous a b hab hba := by
    rcases atMost_total a b with h | h
    · exact (atMost_iff.1 h).resolve_right hab
    · exact ((atMost_iff.1 h).resolve_right hba).symm
  irrefl a h := by
    have hself : compare a a = .eq := SortedMap.compare_eq_iff.2 rfl
    cases hself.symm.trans (compare_eq_lt_iff.2 h)
  trans a b c hab hbc :=
    compare_eq_lt_iff.1 (Std.TransCmp.lt_trans (compare_eq_lt_iff.2 hab) (compare_eq_lt_iff.2 hbc))

end Entry

namespace Entries

variable {a b c : Entries} {key : String} {e e' : Entry}

/-- An entry is the greatest of those that two maps have under a key. -/
structure Greatest (a b : Entries) (key : String) (e : Entry) : Prop where
  found : a.find? key = some e ∨ b.find? key = some e
  above : ∀ e', a.find? key = some e' ∨ b.find? key = some e' → e' = e ∨ e'.Below e

theorem Greatest.unique (h : Greatest a b key e) (h' : Greatest a b key e') : e = e' := by
  rcases h'.above e h.found with heq | hbelow
  · exact heq
  rcases h.above e' h'.found with heq | habove
  · exact heq.symm
  · exact absurd (IsTrans.trans e e' e hbelow habove) (Std.Irrefl.irrefl e)

theorem greatest_of_find?_join (h : (a.join b).find? key = some e) : Greatest a b key e := by
  have habove : ∀ {m : Entries} {e' : Entry}, m ≤ a ⊔ b → m.find? key = some e' →
      e' = e ∨ e'.Below e := by
    intro m e' hle he'
    obtain ⟨e₁, he₁, hmost⟩ := le_iff.1 hle key e' he'
    obtain rfl := Option.some.inj (he₁.symm.trans h)
    exact Entry.atMost_iff.1 hmost
  exact ⟨find?_join_cases h, fun e' he' => he'.elim (habove le_sup_left) (habove le_sup_right)⟩

/-- A join has an entry under a key exactly if it is the greatest of the two maps there. -/
theorem find?_join_eq_some_iff : (a.join b).find? key = some e ↔ Greatest a b key e := by
  refine ⟨greatest_of_find?_join, fun h => ?_⟩
  cases hjoin : (a.join b).find? key with
  | none =>
    -- A map that has an entry lies within the join, which has none.
    rcases h.found with hfound | hfound
    · obtain ⟨e', he', -⟩ := le_iff.1 (le_sup_left : a ≤ a ⊔ b) key e hfound
      cases hjoin.symm.trans he'
    · obtain ⟨e', he', -⟩ := le_iff.1 (le_sup_right : b ≤ a ⊔ b) key e hfound
      cases hjoin.symm.trans he'
  | some e' => rw [(greatest_of_find?_join hjoin).unique h]

/-- One map adds nothing to another. -/
def Within (a b : Entries) : Prop := a.join b = b

instance : IsPartialOrder Entries Within where
  refl := join_self
  trans _ _ _ hab hbc := join_eq_right_iff.2 (le_trans (join_eq_right_iff.1 hab)
    (join_eq_right_iff.1 hbc))
  antisymm _ _ hab hba := le_antisymm (join_eq_right_iff.1 hab) (join_eq_right_iff.1 hba)

theorem join_empty (a : Entries) : a.join ∅ = a := by
  rw [join_comm]
  exact join_eq_right_iff.2 (empty_le a)

/-- Joining maps of entries: whichever map comes first, each key gets the greater entry in a strict
total order, and the outcome is the least upper bound of the two maps, with the empty map at the
bottom. -/
theorem join_least_upper_bound :
    (IsStrictTotalOrder Entry Entry.Below ∧ ∀ e e' : Entry, compare e e' = .eq ↔ e = e') ∧
    (∀ (a b : Entries) (key : String) (e : Entry),
      (a.join b).find? key = some e ↔ Greatest a b key e) ∧
    (∀ a b : Entries, a.join b = b.join a) ∧
    (∀ a b c : Entries, (a.join b).join c = a.join (b.join c)) ∧
    (∀ a : Entries, a.join a = a) ∧
    (∀ a : Entries, a.join ∅ = a ∧ join ∅ a = a) ∧
    IsPartialOrder Entries Within ∧
    ∀ a b : Entries, a.Within (a.join b) ∧ b.Within (a.join b) ∧
      ∀ c : Entries, a.Within c → b.Within c → (a.join b).Within c := by
  refine ⟨⟨inferInstance, fun _ _ => SortedMap.compare_eq_iff⟩,
    fun _ _ _ _ => find?_join_eq_some_iff, join_comm, join_assoc, join_self,
    fun a => ⟨join_empty a, (join_comm ∅ a).trans (join_empty a)⟩, inferInstance, fun a b => ?_⟩
  have hleast : ∀ c : Entries, a.Within c → b.Within c → (a.join b).Within c := by
    intro c hac hbc
    calc (a.join b).join c = a.join (b.join c) := join_assoc a b c
      _ = a.join c := congrArg a.join hbc
      _ = c := hac
  exact ⟨join_eq_right_iff.2 le_sup_left, join_eq_right_iff.2 le_sup_right, hleast⟩

end Entries

end AccountSync
