import AccountSync.Layout
import AccountSync.SortedMap
/-!
The entries of a config: under each key the last write, which says in which generation it was made.
Of two writes the later wins, of two in one generation the greater value, and a removal is less than
any value; so entries are totally ordered and two maps join by keeping the greater entry of each
key.
-/

namespace AccountSync

/-- The last write to a key. A removal is kept as an entry without a value. -/
structure Entry where
  value : Option Bytes
  /-- The generation that made the write. -/
  stamp : Int
  deriving DecidableEq, Repr

namespace Entry

instance : Ord Entry := ⟨compareLex (compareOn stamp) (compareOn value)⟩

instance : Std.TransOrd Entry :=
  inferInstanceAs (Std.TransCmp (compareLex (compareOn stamp) (compareOn value)))

instance : Std.LawfulEqOrd Entry where
  eq_of_compare {a b} h := by
    obtain ⟨h₁, h₂⟩ := compareLex_eq_eq.1 h
    have h₁ := Std.LawfulEqOrd.eq_of_compare (α := Int) h₁
    have h₂ := Std.LawfulEqOrd.eq_of_compare (α := Option Bytes) h₂
    cases a; cases b; simp_all

/-- The entry that wins. -/
def later (a b : Entry) : Entry := if compare b a = .gt then b else a

theorem later_comm (a b : Entry) : later a b = later b a := by
  unfold later
  cases h : compare a b with
  | lt => simp [Std.OrientedCmp.gt_iff_lt.2 h]
  | eq => simp [Std.LawfulEqOrd.eq_of_compare h]
  | gt => simp [Std.OrientedCmp.gt_iff_lt.1 h]

/-- The value, then the stamp. -/
def layout : Layout.Codec Entry :=
  (Layout.Codec.pair (.option .bytes) .int).via (fun p => ⟨p.1, p.2⟩) fun e => (e.value, e.stamp)

end Entry

/-- The entries of a config by key. -/
abbrev Entries := SortedMap String Entry

namespace Entries

/-- The value that stands under a key. -/
def value? (m : Entries) (key : String) : Option Bytes := (m.find? key).bind Entry.value

/-- The keys that have a value, with it. -/
def live (m : Entries) : List (String × Bytes) :=
  m.toList.filterMap fun (key, e) => e.value.map (key, ·)

/-- Both maps' writes, for each key the one that wins. -/
def join (a b : Entries) : Entries := SortedMap.mergeWith Entry.later a b

/-- The pairs in order of keys; when read, the last of one key counts. -/
def layout : Layout.Codec Entries :=
  (Layout.Codec.list (.pair .text Entry.layout)).via SortedMap.ofList SortedMap.toList

end Entries

end AccountSync
