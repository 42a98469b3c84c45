import Mathlib.Order.Lattice
import AccountSync.Entries
import AccountSync.Proofs.SortedMap
/-!
Entries as a lattice. One map lies below another when joining it to the other adds nothing, that is
when each of its writes is in the other or lost to a later one there (`Entries.le_iff`). A write
whose stamp is above all stamps of a map lies above that map's entry (`Entries.le_insert`).
-/

namespace AccountSync

namespace Entry

variable {a b c : Entry}

/-- The second entry wins, or the two are equal. -/
def AtMost (a b : Entry) : Prop := (compare a b).isLE

theorem atMost_refl (a : Entry) : AtMost a a := by
  rw [AtMost, SortedMap.compare_eq_iff.2 rfl]
  rfl

theorem later_eq_right_iff : later a b = b ↔ AtMost a b := by
  unfold later AtMost
  cases h : compare a b with
  | lt => simp [Std.OrientedCmp.gt_iff_lt.2 h]
  | eq => simp [Std.LawfulEqOrd.eq_of_compare h]
  | gt =>
    have hne : a ≠ b := by
      rintro rfl
      rw [SortedMap.compare_eq_iff.2 rfl] at h
      cases h
    simp [Std.OrientedCmp.gt_iff_lt.1 h, hne]

theorem atMost_total (a b : Entry) : AtMost a b ∨ AtMost b a := by
  unfold AtMost
  cases h : compare a b with
  | lt => exact .inl rfl
  | eq => exact .inl rfl
  | gt => exact .inr (by rw [Std.OrientedCmp.gt_iff_lt.1 h]; rfl)

theorem later_eq_left (h : AtMost b a) : later a b = a := by
  rw [later_comm]
  exact later_eq_right_iff.2 h

theorem later_self (a : Entry) : later a a = a := later_eq_right_iff.2 (atMost_refl a)

theorem later_assoc (a b c : Entry) : later (later a b) c = later a (later b c) := by
  have htrans : ∀ {x y z : Entry}, AtMost x y → AtMost y z → AtMost x z :=
    fun h₁ h₂ => Std.TransCmp.isLE_trans h₁ h₂
  rcases atMost_total a b with hab | hba
  · rw [later_eq_right_iff.2 hab]
    rcases atMost_total b c with hbc | hcb
    · rw [later_eq_right_iff.2 hbc, later_eq_right_iff.2 (htrans hab hbc)]
    · rw [later_eq_left hcb, later_eq_right_iff.2 hab]
  · rw [later_eq_left hba]
    rcases atMost_total b c with hbc | hcb
    · rw [later_eq_right_iff.2 hbc]
    · rw [later_eq_left hcb, later_eq_left hba, later_eq_left (htrans hcb hba)]

/-- Of two generations the later one's write wins, whatever the values. -/
theorem atMost_of_stamp_lt (h : a.stamp < b.stamp) : AtMost a b := by
  have hc : compare a.stamp b.stamp = .lt := compare_lt_iff_lt.2 h
  show ((compare a.stamp b.stamp).then (compare a.value b.value)).isLE
  rw [hc]
  rfl

end Entry

namespace Entries

variable {a b c : Entries}

theorem find?_join (a b : Entries) (key : String) :
    (a.join b).find? key = Option.merge Entry.later (a.find? key) (b.find? key) :=
  SortedMap.find?_mergeWith Entry.later a b key

theorem join_comm (a b : Entries) : a.join b = b.join a :=
  SortedMap.ext_find? fun key => by
    rw [find?_join, find?_join]
    cases a.find? key <;> cases b.find? key <;> simp [Entry.later_comm]

theorem join_assoc (a b c : Entries) : (a.join b).join c = a.join (b.join c) :=
  SortedMap.ext_find? fun key => by
    simp only [find?_join]
    cases a.find? key <;> cases b.find? key <;> cases c.find? key <;> simp [Entry.later_assoc]

theorem join_self (a : Entries) : a.join a = a :=
  SortedMap.ext_find? fun key => by
    rw [find?_join]
    cases a.find? key <;> simp [Entry.later_self]

instance : Max Entries := ⟨join⟩

/-- Entries under `join`: the greater of two maps holds all writes of the other. -/
instance : SemilatticeSup Entries := SemilatticeSup.mk' join_comm join_assoc join_self

theorem join_eq_right_iff : a.join b = b ↔ a ≤ b := sup_eq_right

theorem le_iff : a ≤ b ↔ ∀ key e, a.find? key = some e →
    ∃ e', b.find? key = some e' ∧ e.AtMost e' := by
  rw [← join_eq_right_iff]
  constructor
  · intro h key e he
    have hkey : Option.merge Entry.later (some e) (b.find? key) = b.find? key := by
      rw [← he, ← find?_join, h]
    cases hb : b.find? key with
    | none => rw [hb] at hkey; simp at hkey
    | some e' =>
      rw [hb] at hkey
      exact ⟨e', rfl, Entry.later_eq_right_iff.1 (Option.some.inj hkey)⟩
  · intro h
    refine SortedMap.ext_find? fun key => ?_
    rw [find?_join]
    cases ha : a.find? key with
    | none => simp
    | some e =>
      obtain ⟨e', hb, hle⟩ := h key e ha
      simp [hb, Entry.later_eq_right_iff.2 hle]

theorem empty_le (a : Entries) : (∅ : Entries) ≤ a :=
  le_iff.2 fun _ _ h => by simp at h

/-- The writes of several maps, for each key the one that wins. -/
def joinAll (l : List Entries) : Entries := l.foldr join ∅

/-- What lies above a join of several maps is what lies above each of them. -/
theorem joinAll_le_iff : ∀ {l : List Entries}, joinAll l ≤ a ↔ ∀ b ∈ l, b ≤ a
  | [] => by simp [joinAll, empty_le]
  | b :: l => by
    rw [List.forall_mem_cons, ← joinAll_le_iff]
    exact sup_le_iff

/-- Every write in a map was made in a generation up to this one; they are counted from 0. -/
def Until (m : Entries) (seq : Int) : Prop :=
  ∀ key e, m.find? key = some e → 0 ≤ e.stamp ∧ e.stamp ≤ seq

theorem Until.mono {m : Entries} {s t : Int} (h : m.Until s) (hst : s ≤ t) : m.Until t :=
  fun key e he => ⟨(h key e he).1, le_trans (h key e he).2 hst⟩

theorem until_empty (s : Int) : (∅ : Entries).Until s := fun _ _ h => by simp at h

theorem Until.insert {m : Entries} {s : Int} (h : m.Until s) (hs : 0 ≤ s) (key : String)
    (value : Option Bytes) : Until (SortedMap.insert m key ⟨value, s⟩) s := by
  intro key' e he
  by_cases hk : key' = key
  · subst hk
    rw [SortedMap.find?_insert_self] at he
    obtain rfl := Option.some.inj he
    exact ⟨hs, le_refl s⟩
  · rw [SortedMap.find?_insert_of_ne hk] at he
    exact h key' e he

/-- Each write in a join is in one of the two maps. -/
theorem find?_join_cases {m n : Entries} {key : String} {e : Entry}
    (h : (m.join n).find? key = some e) : m.find? key = some e ∨ n.find? key = some e := by
  rw [find?_join] at h
  cases hm : m.find? key with
  | none => exact .inr (by simpa [hm] using h)
  | some x =>
    cases hn : n.find? key with
    | none => exact .inl (by simpa [hm, hn] using h)
    | some y =>
      rw [hm, hn] at h
      obtain rfl := Option.some.inj h
      rcases Entry.atMost_total x y with hxy | hyx
      · exact .inr (by rw [Entry.later_eq_right_iff.2 hxy])
      · exact .inl (by rw [Entry.later_eq_left hyx])

theorem Until.join {m n : Entries} {s : Int} (hm : m.Until s) (hn : n.Until s) :
    (m.join n).Until s :=
  fun key e he => (find?_join_cases he).elim (hm key e) (hn key e)

/-- A write in a generation above all those in a map keeps above that map. -/
theorem le_insert {s t : Int} (hle : a ≤ b) (ha : a.Until s) (hst : s < t) (key : String)
    (value : Option Bytes) : a ≤ SortedMap.insert b key ⟨value, t⟩ := by
  refine le_iff.2 fun key' e he => ?_
  by_cases hk : key' = key
  · subst hk
    refine ⟨⟨value, t⟩, SortedMap.find?_insert_self _ _ _, Entry.atMost_of_stamp_lt ?_⟩
    exact lt_of_le_of_lt (ha key' e he).2 hst
  · rw [SortedMap.find?_insert_of_ne hk]
    exact le_iff.1 hle key' e he

end Entries

end AccountSync
