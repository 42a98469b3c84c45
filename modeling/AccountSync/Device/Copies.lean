import AccountSync.Replica
/-!
The copies that a device has loaded: at most one for each account and topic. They are listed by
account, and those of one account by rank.
-/

namespace AccountSync

/-- What tells loaded copies apart. -/
structure CopyKey where
  account : String
  topic : Topic
  deriving DecidableEq, Repr

/-- The place of a topic when an account's topics are gone through: by rank, and among those of one
rank as in `Topic.all`. -/
def Topic.turn (t : Topic) : Nat := 4 * t.rank + t.index

theorem Topic.turn_inj {a b : Topic} (h : a.turn = b.turn) : a = b := by
  cases a <;> cases b <;> simp_all [Topic.turn, Topic.rank, Topic.index]

namespace CopyKey

instance : Ord CopyKey := ⟨compareLex (compareOn account) (compareOn fun k => k.topic.turn)⟩

instance : Std.TransOrd CopyKey :=
  inferInstanceAs
    (Std.TransCmp (compareLex (compareOn account) (compareOn fun k => k.topic.turn)))

instance : Std.LawfulEqOrd CopyKey where
  eq_of_compare {a b} h := by
    obtain ⟨h₁, h₂⟩ := compareLex_eq_eq.1 h
    have h₁ := Std.LawfulEqOrd.eq_of_compare (α := String) h₁
    have h₂ := Topic.turn_inj (Std.LawfulEqOrd.eq_of_compare (α := Nat) h₂)
    cases a; cases b; simp_all

end CopyKey

/-- A loaded copy. One whose user broke off cannot be used again. -/
inductive Slot where
  | ready (copy : Replica)
  | broken
  deriving DecidableEq

abbrev Copies := SortedMap CopyKey Slot

namespace Copies

/-- The topics loaded for an account, by rank. -/
def topicsOf (cs : Copies) (account : String) : List Topic :=
  Topic.byRank.filter fun t => cs.contains ⟨account, t⟩

/-- Without the copies of an account. -/
def without (cs : Copies) (account : String) : Copies := cs.filter fun k _ => k.account != account

/-- Puts a copy back in its place, if the place is there and can be used. -/
def putBack (cs : Copies) (key : CopyKey) (copy : Replica) : Copies :=
  match cs.find? key with
  | some (.ready _) => cs.insert key (.ready copy)
  | _ => cs

end Copies

end AccountSync
