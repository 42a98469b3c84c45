/-!
Finite maps as lists with strictly increasing keys. The order of the keys is part of the type, so
two maps are equal exactly when every look-up agrees (`SortedMap.ext_find?`), and what `insert`,
`erase` and `mergeWith` do is stated through `find?` alone.
-/

namespace AccountSync

universe u v

/-- A finite map from `K` to `V`, listed in strictly increasing order of keys. -/
structure SortedMap (K : Type u) (V : Type v) [Ord K] where
  toList : List (K × V)
  increasing : toList.Pairwise (fun a b => compare a.1 b.1 = .lt)
  deriving DecidableEq

namespace SortedMap

variable {K : Type u} {V : Type v} [Ord K]

/-- The map without entries. -/
def empty : SortedMap K V := ⟨[], .nil⟩

instance : EmptyCollection (SortedMap K V) := ⟨empty⟩
instance : Inhabited (SortedMap K V) := ⟨empty⟩

/-- The value listed under a key. -/
def lookup (k : K) : List (K × V) → Option V
  | [] => none
  | (k', v) :: rest => if compare k k' = .eq then some v else lookup k rest

def find? (m : SortedMap K V) (k : K) : Option V := lookup k m.toList

def contains (m : SortedMap K V) (k : K) : Bool := (m.find? k).isSome

def keys (m : SortedMap K V) : List K := m.toList.map (·.1)

def values (m : SortedMap K V) : List V := m.toList.map (·.2)

def size (m : SortedMap K V) : Nat := m.toList.length

def isEmpty (m : SortedMap K V) : Bool := m.toList.isEmpty

/-- Puts a pair in its place, over the pair of the same key. -/
def insertPair (k : K) (v : V) : List (K × V) → List (K × V)
  | [] => [(k, v)]
  | (k', v') :: rest =>
    match compare k k' with
    | .lt => (k, v) :: (k', v') :: rest
    | .eq => (k, v) :: rest
    | .gt => (k', v') :: insertPair k v rest

theorem mem_insertPair {k : K} {v : V} {p : K × V} :
    ∀ {l : List (K × V)}, p ∈ insertPair k v l → p = (k, v) ∨ p ∈ l
  | [], h => by simpa [insertPair] using h
  | (k', v') :: rest, h => by
    unfold insertPair at h
    split at h
    · simpa using h
    · rcases List.mem_cons.1 h with h | h
      · exact .inl h
      · exact .inr (List.mem_cons_of_mem _ h)
    · rcases List.mem_cons.1 h with h | h
      · exact .inr (h ▸ List.mem_cons_self)
      · exact (mem_insertPair h).imp id (List.mem_cons_of_mem _)

@[simp] theorem find?_empty (k : K) : (∅ : SortedMap K V).find? k = none := rfl

theorem lookup_eq_none {k : K} : ∀ {l : List (K × V)},
    (∀ p ∈ l, compare k p.1 ≠ .eq) → lookup k l = none
  | [], _ => rfl
  | p :: rest, h => by
    rw [lookup, if_neg (h p List.mem_cons_self)]
    exact lookup_eq_none fun q hq => h q (List.mem_cons_of_mem _ hq)

theorem lookup_filter_key (q : K → Bool) (hq : ∀ a b, compare a b = .eq → q a = q b) (k : K) :
    ∀ l : List (K × V), lookup k (l.filter fun e => q e.1) = if q k then lookup k l else none
  | [] => by simp [lookup]
  | (k₁, v₁) :: rest => by
    have ih := lookup_filter_key q hq k rest
    by_cases h₁ : compare k k₁ = .eq
    · have := hq _ _ h₁
      by_cases hk : q k₁
      · simp [lookup, hk, h₁, this]
      · simp [hk, ih, this]
    · by_cases hk : q k₁ <;> simp [hk, lookup, h₁, ih]

variable [Std.TransOrd K]

theorem insertPair_increasing (k : K) (v : V) :
    ∀ {l : List (K × V)}, l.Pairwise (fun a b => compare a.1 b.1 = .lt) →
      (insertPair k v l).Pairwise (fun a b => compare a.1 b.1 = .lt)
  | [], _ => by simp [insertPair]
  | (k', v') :: rest, h => by
    obtain ⟨hhead, hrest⟩ := List.pairwise_cons.1 h
    unfold insertPair
    split
    · rename_i hlt
      refine List.pairwise_cons.2 ⟨fun p hp => ?_, h⟩
      rcases List.mem_cons.1 hp with rfl | hp
      · exact hlt
      · exact Std.TransCmp.lt_trans hlt (hhead p hp)
    · rename_i heq
      exact List.pairwise_cons.2
        ⟨fun p hp => Std.TransCmp.lt_of_eq_of_lt heq (hhead p hp), hrest⟩
    · rename_i hgt
      refine List.pairwise_cons.2 ⟨fun p hp => ?_, insertPair_increasing k v hrest⟩
      rcases mem_insertPair hp with rfl | hp
      · exact Std.OrientedCmp.gt_iff_lt.1 hgt
      · exact hhead p hp

/-- The map with `v` under `k`. -/
def insert (m : SortedMap K V) (k : K) (v : V) : SortedMap K V :=
  ⟨insertPair k v m.toList, insertPair_increasing k v m.increasing⟩

/-- The pairs that pass a test. -/
def filter (m : SortedMap K V) (p : K → V → Bool) : SortedMap K V :=
  ⟨m.toList.filter (fun e => p e.1 e.2), m.increasing.filter _⟩

/-- The map without the key `k`. -/
def erase (m : SortedMap K V) (k : K) : SortedMap K V :=
  m.filter (fun k' _ => compare k k' != .eq)

/-- The pairs of a list; of equal keys the last counts. -/
def ofList (l : List (K × V)) : SortedMap K V := l.foldl (fun m p => m.insert p.1 p.2) ∅

/-- All values changed by `f`. -/
def mapValues (m : SortedMap K V) (f : V → V) : SortedMap K V :=
  ⟨m.toList.map (fun p => (p.1, f p.2)), List.pairwise_map.2 m.increasing⟩

/-- The union of two maps; a key of both gets the value that `pick` makes of the two. -/
def mergeWith (pick : V → V → V) (a b : SortedMap K V) : SortedMap K V :=
  b.toList.foldl
    (fun m p => m.insert p.1 (match m.find? p.1 with | some v => pick v p.2 | none => p.2)) a

/-! ### Look-ups -/

theorem lookup_insertPair (k k' : K) (v : V) : ∀ l : List (K × V),
    lookup k' (insertPair k v l) = if compare k' k = .eq then some v else lookup k' l
  | [] => rfl
  | (k₁, v₁) :: rest => by
    unfold insertPair
    split
    · rfl
    · rename_i heq
      have : compare k' k = compare k' k₁ := Std.TransCmp.congr_right heq
      simp only [lookup, this]
      split <;> rfl
    · rename_i hgt
      simp only [lookup, lookup_insertPair k k' v rest]
      by_cases h₁ : compare k' k₁ = .eq
      · have : compare k' k ≠ .eq := by
          intro h
          rw [Std.OrientedCmp.eq_comm] at h
          rw [Std.TransCmp.eq_trans h h₁] at hgt
          cases hgt
        simp [h₁, this]
      · simp [h₁]

theorem find?_insert (m : SortedMap K V) (k k' : K) (v : V) :
    (m.insert k v).find? k' = if compare k' k = .eq then some v else m.find? k' :=
  lookup_insertPair k k' v m.toList

theorem find?_erase (m : SortedMap K V) (k k' : K) :
    (m.erase k).find? k' = if compare k' k = .eq then none else m.find? k' := by
  have h := lookup_filter_key (fun a => compare k a != .eq)
    (fun a b hab => by simp [Std.TransCmp.congr_right hab]) k' m.toList
  simp only [erase, filter, find?, h]
  by_cases hk : compare k k' = .eq
  · simp [hk, Std.OrientedCmp.eq_comm.1 hk]
  · simp [hk, mt Std.OrientedCmp.eq_comm.1 hk]

/-- Maps are equal when all look-ups are. -/
theorem ext_find? [Std.LawfulEqOrd K] {a b : SortedMap K V} (h : ∀ k, a.find? k = b.find? k) :
    a = b := by
  obtain ⟨la, ha⟩ := a
  obtain ⟨lb, hb⟩ := b
  have key : ∀ {la lb : List (K × V)}, la.Pairwise (fun a b => compare a.1 b.1 = .lt) →
      lb.Pairwise (fun a b => compare a.1 b.1 = .lt) → (∀ k, lookup k la = lookup k lb) →
      la = lb := by
    intro la
    induction la with
    | nil =>
      intro lb _ _ h
      cases lb with
      | nil => rfl
      | cons p r => have := h p.1; simp [lookup] at this
    | cons p r ih =>
      intro lb ha hb h
      cases lb with
      | nil => have := h p.1; simp [lookup] at this
      | cons q s =>
        obtain ⟨hp, hr⟩ := List.pairwise_cons.1 ha
        obtain ⟨hq, hs⟩ := List.pairwise_cons.1 hb
        have absent : ∀ {x : K} {l : List (K × V)},
            (∀ e ∈ l, compare x e.1 = .lt) → lookup x l = none :=
          fun hl => lookup_eq_none fun e he => by rw [hl e he]; decide
        have hpq : compare p.1 q.1 = .eq := by
          cases hc : compare p.1 q.1 with
          | eq => rfl
          | lt =>
            have h₀ := h p.1
            rw [lookup, if_pos Std.ReflCmp.compare_self, absent (l := q :: s)] at h₀
            · cases h₀
            · intro e he
              rcases List.mem_cons.1 he with rfl | he
              · exact hc
              · exact Std.TransCmp.lt_trans hc (hq e he)
          | gt =>
            have hc' := Std.OrientedCmp.gt_iff_lt.1 hc
            have h₀ := h q.1
            rw [absent (l := p :: r), lookup, if_pos Std.ReflCmp.compare_self] at h₀
            · cases h₀
            · intro e he
              rcases List.mem_cons.1 he with rfl | he
              · exact hc'
              · exact Std.TransCmp.lt_trans hc' (hp e he)
        have hk : p.1 = q.1 := Std.LawfulEqOrd.eq_of_compare hpq
        have hv : p.2 = q.2 := by
          have h₀ := h p.1
          rw [lookup, lookup, if_pos Std.ReflCmp.compare_self, if_pos hpq] at h₀
          exact Option.some.inj h₀
        have htail : r = s := ih hr hs fun k => by
          by_cases hkp : compare k p.1 = .eq
          · rw [absent fun e he => Std.TransCmp.lt_of_eq_of_lt hkp (hp e he),
              absent fun e he => Std.TransCmp.lt_of_eq_of_lt (hk ▸ hkp) (hq e he)]
          · have h₀ := h k
            rwa [lookup, lookup, if_neg hkp, if_neg (hk ▸ hkp)] at h₀
        rw [htail, Prod.ext hk hv]
  have hl : la = lb := key ha hb h
  subst hl
  rfl

end SortedMap

/-- A finite set, listed in increasing order. -/
abbrev SortedSet (K : Type u) [Ord K] := SortedMap K Unit

namespace SortedSet

variable {K : Type u} [Ord K] [Std.TransOrd K]

def add (s : SortedSet K) (k : K) : SortedSet K := s.insert k ()

def addAll (s : SortedSet K) (l : List K) : SortedSet K := l.foldl add s

def removeAll (s : SortedSet K) (l : List K) : SortedSet K := l.foldl SortedMap.erase s

end SortedSet

end AccountSync
