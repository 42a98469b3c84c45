import AccountSync.SortedMap
/-!
What a map says of a key, after each operation: `find?_mergeWith` for a union, `find?_foldl_insert`
for pairs put in one after the other, and `mem_toList` for the list behind the map. A map is what
its own list makes of it (`ofList_toList`). A set is known by its keys (`SortedSet.mem_keys_add`).
-/

namespace AccountSync

namespace SortedMap

universe u v

variable {K : Type u} {V : Type v} [Ord K] [Std.TransOrd K] [Std.LawfulEqOrd K]

omit [Std.TransOrd K] in
theorem compare_eq_iff {a b : K} : compare a b = .eq ↔ a = b :=
  ⟨Std.LawfulEqOrd.eq_of_compare, fun h => h ▸ Std.ReflCmp.compare_self⟩

@[simp] theorem find?_insert_self (m : SortedMap K V) (k : K) (v : V) :
    (m.insert k v).find? k = some v := by
  rw [find?_insert, if_pos Std.ReflCmp.compare_self]

theorem find?_insert_of_ne {m : SortedMap K V} {k k' : K} {v : V} (h : k' ≠ k) :
    (m.insert k v).find? k' = m.find? k' := by
  rw [find?_insert, if_neg (mt compare_eq_iff.1 h)]

/-- To put in what is there changes nothing. -/
theorem insert_of_find? {m : SortedMap K V} {k : K} {v : V} (h : m.find? k = some v) :
    m.insert k v = m :=
  ext_find? fun k' => by
    by_cases hk : k' = k
    · rw [hk, find?_insert_self, h]
    · exact find?_insert_of_ne hk

omit [Std.TransOrd K] [Std.LawfulEqOrd K] in
/-- The keys that come later in an increasing list are other keys. -/
theorem lookup_tail_eq_none {p : K × V} {l : List (K × V)}
    (h : (p :: l).Pairwise fun a b => compare a.1 b.1 = .lt) : lookup p.1 l = none :=
  lookup_eq_none fun q hq => by
    rw [(List.pairwise_cons.1 h).1 q hq]
    decide

theorem lookup_eq_some_of_mem {k : K} {v : V} : ∀ {l : List (K × V)},
    l.Pairwise (fun a b => compare a.1 b.1 = .lt) → (k, v) ∈ l → lookup k l = some v
  | [], _, h => by simp at h
  | p :: rest, hl, h => by
    rcases List.mem_cons.1 h with rfl | h
    · rw [lookup, if_pos Std.ReflCmp.compare_self]
    · have hlt := (List.pairwise_cons.1 hl).1 (k, v) h
      have hne : compare k p.1 ≠ .eq := by
        intro he
        rw [Std.OrientedCmp.eq_comm.1 he] at hlt
        cases hlt
      rw [lookup, if_neg hne]
      exact lookup_eq_some_of_mem (List.pairwise_cons.1 hl).2 h

omit [Std.TransOrd K] in
theorem mem_of_lookup {k : K} {v : V} : ∀ {l : List (K × V)}, lookup k l = some v → (k, v) ∈ l
  | [], h => by simp [lookup] at h
  | (k₁, v₁) :: rest, h => by
    rw [lookup] at h
    split at h
    · rename_i he
      obtain rfl := compare_eq_iff.1 he
      obtain rfl := Option.some.inj h
      exact List.mem_cons_self
    · exact List.mem_cons_of_mem _ (mem_of_lookup h)

theorem mem_toList {m : SortedMap K V} {k : K} {v : V} :
    (k, v) ∈ m.toList ↔ m.find? k = some v :=
  ⟨lookup_eq_some_of_mem m.increasing, mem_of_lookup⟩

theorem mem_keys {m : SortedMap K V} {k : K} : k ∈ m.keys ↔ ∃ v, m.find? k = some v := by
  simp only [keys, List.mem_map, ← mem_toList]
  exact ⟨fun ⟨p, hp, hk⟩ => ⟨p.2, hk ▸ hp⟩, fun ⟨v, hv⟩ => ⟨(k, v), hv, rfl⟩⟩

omit [Std.TransOrd K] [Std.LawfulEqOrd K] in
theorem find?_mapValues (m : SortedMap K V) (f : V → V) (k : K) :
    (m.mapValues f).find? k = (m.find? k).map f := by
  have h : ∀ l : List (K × V),
      lookup k (l.map fun p => (p.1, f p.2)) = (lookup k l).map f := by
    intro l
    induction l with
    | nil => rfl
    | cons p rest ih =>
      rw [List.map_cons, lookup, lookup, ih]
      split <;> rfl
  exact h m.toList

omit [Std.TransOrd K] in
theorem find?_filter_key (m : SortedMap K V) (q : K → Bool) (k : K) :
    (m.filter fun k _ => q k).find? k = if q k then m.find? k else none :=
  lookup_filter_key q (fun _ _ h => congrArg q (compare_eq_iff.1 h)) k m.toList

omit [Std.TransOrd K] in
/-- No key has two values. -/
theorem nodup_keys (m : SortedMap K V) : m.keys.Nodup := by
  refine List.pairwise_map.2 (m.increasing.imp fun {a b} hlt heq => ?_)
  cases (compare_eq_iff.2 heq).symm.trans hlt

/-- Pairs put in one after the other count before what was there. -/
theorem find?_foldl_insert (k : K) : ∀ {l : List (K × V)},
    l.Pairwise (fun a b => compare a.1 b.1 = .lt) → ∀ m : SortedMap K V,
      (l.foldl (fun m p => m.insert p.1 p.2) m).find? k = (lookup k l).or (m.find? k)
  | [], _, m => rfl
  | p :: rest, hl, m => by
    rw [List.foldl_cons, find?_foldl_insert k (List.pairwise_cons.1 hl).2, lookup, find?_insert]
    split
    · rename_i he
      rw [compare_eq_iff.1 he, lookup_tail_eq_none hl]
      rfl
    · rfl

theorem ofList_toList (m : SortedMap K V) : ofList m.toList = m :=
  ext_find? fun k => by
    rw [ofList, find?_foldl_insert k m.increasing, find?_empty, Option.or_none]
    rfl

theorem find?_mergeWith_foldl (pick : V → V → V) (k : K) : ∀ {l : List (K × V)},
    l.Pairwise (fun a b => compare a.1 b.1 = .lt) → ∀ m : SortedMap K V,
      (l.foldl (fun m p => m.insert p.1
        (match m.find? p.1 with | some v => pick v p.2 | none => p.2)) m).find? k
        = Option.merge pick (m.find? k) (lookup k l)
  | [], _, m => by cases h : m.find? k <;> simp [lookup, h]
  | p :: rest, hl, m => by
    rw [List.foldl_cons, find?_mergeWith_foldl pick k (List.pairwise_cons.1 hl).2, lookup,
      find?_insert]
    split
    · rename_i he
      rw [compare_eq_iff.1 he, lookup_tail_eq_none hl]
      cases m.find? p.1 <;> rfl
    · rfl

/-- Under each key, what one of the maps says, or what `pick` makes of both. -/
theorem find?_mergeWith (pick : V → V → V) (a b : SortedMap K V) (k : K) :
    (mergeWith pick a b).find? k = Option.merge pick (a.find? k) (b.find? k) :=
  find?_mergeWith_foldl pick k b.increasing a

end SortedMap

namespace SortedSet

variable {K : Type} [Ord K] [Std.TransOrd K] [Std.LawfulEqOrd K]

theorem addAll_keys (s : SortedSet K) : addAll ∅ s.keys = s := by
  have h : addAll ∅ s.keys = SortedMap.ofList s.toList := by
    rw [addAll, SortedMap.keys, List.foldl_map]
    rfl
  rw [h, SortedMap.ofList_toList]

theorem mem_keys_add {s : SortedSet K} {k k' : K} : k' ∈ (s.add k).keys ↔ k' = k ∨ k' ∈ s.keys := by
  simp only [SortedMap.mem_keys, add]
  by_cases h : k' = k
  · subst h
    simp
  · simp [SortedMap.find?_insert_of_ne h, h]

theorem mem_keys_addAll {k : K} : ∀ {l : List K} {s : SortedSet K},
    k ∈ (s.addAll l).keys ↔ k ∈ l ∨ k ∈ s.keys
  | [], _ => by simp [addAll]
  | k' :: l, s => by
    rw [show s.addAll (k' :: l) = (s.add k').addAll l from rfl, mem_keys_addAll, mem_keys_add,
      List.mem_cons, ← or_assoc, or_comm (a := k ∈ l)]

/-- Sets are equal when they have the same keys. -/
theorem ext_keys {s t : SortedSet K} (h : ∀ k, k ∈ s.keys ↔ k ∈ t.keys) : s = t :=
  SortedMap.ext_find? fun k => by
    have hk := h k
    rw [SortedMap.mem_keys, SortedMap.mem_keys, ← Option.isSome_iff_exists,
      ← Option.isSome_iff_exists] at hk
    cases hs : s.find? k <;> cases ht : t.find? k <;> simp_all

theorem mem_keys_erase {s : SortedSet K} {k k' : K} :
    k' ∈ (SortedMap.erase s k).keys ↔ k' ≠ k ∧ k' ∈ s.keys := by
  simp only [SortedMap.mem_keys, SortedMap.find?_erase, SortedMap.compare_eq_iff]
  by_cases h : k' = k <;> simp [h]

theorem mem_keys_removeAll {k : K} : ∀ {l : List K} {s : SortedSet K},
    k ∈ (s.removeAll l).keys ↔ k ∈ s.keys ∧ k ∉ l
  | [], _ => by simp [removeAll]
  | k' :: l, s => by
    rw [show s.removeAll (k' :: l) = removeAll (SortedMap.erase s k') l from rfl,
      mem_keys_removeAll, mem_keys_erase, List.mem_cons, not_or, and_assoc, and_left_comm]

end SortedSet

end AccountSync
