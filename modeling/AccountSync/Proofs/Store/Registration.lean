import AccountSync.Store.Transaction
import Mathlib.Data.Finset.Card
/-!
What runs when a transaction ends. Whatever was registered, a commit runs the actions for it that were
the first of their key, in order, and a rollback those that undo, the last first; a transaction that
is forgotten runs nothing (`Transaction.ends_with_firsts`).
-/

namespace AccountSync

variable {σ τ : Type}

/-- The registration of an action for a commit, or of one that undoes something. -/
inductive Registration (σ τ : Type) where
  | after (key : String) (action : σ)
  | undo (key : String) (action : τ)

namespace Registration

def after? : Registration σ τ → Option (String × σ)
  | after key action => some (key, action)
  | undo _ _ => none

def undo? : Registration σ τ → Option (String × τ)
  | after _ _ => none
  | undo key action => some (key, action)

/-- The kind of a registration, and its key: the two kinds may share keys. -/
def slot : Registration σ τ → Bool × String
  | after key _ => (true, key)
  | undo key _ => (false, key)

/-- None of those before is of the same kind and key. -/
def isFirst (before : List (Registration σ τ)) (x : Registration σ τ) : Bool :=
  before.all fun y => y.slot != x.slot

/-- Each registration, with whether it is the first of its kind and key. -/
def marked (l : List (Registration σ τ)) : List (Registration σ τ × Bool) :=
  l.zipIdx.map fun (x, i) => (x, x.isFirst (l.take i))

/-- The registrations that are the first of their kind and key, in order. -/
def firsts (l : List (Registration σ τ)) : List (Registration σ τ) :=
  ((marked l).filter Prod.snd).map Prod.fst

variable {l : List (Registration σ τ)} {x : Registration σ τ}

theorem marked_concat (l : List (Registration σ τ)) (x : Registration σ τ) :
    marked (l ++ [x]) = marked l ++ [(x, x.isFirst l)] := by
  have htake : ∀ p ∈ l.zipIdx, (l ++ [x]).take p.2 = l.take p.2 := by
    intro p hp
    have hlt : p.2 < l.length := by simpa using (List.mem_zipIdx' hp).1
    exact List.take_append_of_le_length (Nat.le_of_lt hlt)
  simp only [marked, List.zipIdx_append, List.map_append, List.zipIdx_singleton, List.map_cons,
    List.map_nil, Nat.zero_add, List.take_left']
  congr 1
  exact List.map_congr_left fun p hp => by rw [htake p hp]

theorem firsts_concat (l : List (Registration σ τ)) (x : Registration σ τ) :
    firsts (l ++ [x]) = firsts l ++ if x.isFirst l then [x] else [] := by
  unfold firsts
  rw [marked_concat, List.filter_append, List.map_append]
  cases x.isFirst l <;> rfl

theorem isFirst_iff : x.isFirst l = true ↔ x.slot ∉ l.map slot := by
  simp [isFirst]

/-- Every kind and key that is registered has a first registration. -/
theorem mem_slots_firsts (s : Bool × String) : s ∈ (firsts l).map slot ↔ s ∈ l.map slot := by
  induction l using List.reverseRecOn with
  | nil => rfl
  | append_singleton l x ih =>
    rw [firsts_concat, List.map_append, List.mem_append, ih, List.map_append, List.mem_append]
    by_cases hx : x.isFirst l = true
    · rw [if_pos hx]
    · rw [if_neg hx]
      have hmem : x.slot ∈ l.map slot := by simpa [isFirst_iff] using hx
      simp only [List.map_nil, List.not_mem_nil, or_false, List.map_cons, List.mem_singleton]
      exact ⟨.inl, fun h => h.elim id fun hs => hs ▸ hmem⟩

theorem nodup_slots_firsts : ((firsts l).map slot).Nodup := by
  induction l using List.reverseRecOn with
  | nil => exact .nil
  | append_singleton l x ih =>
    rw [firsts_concat]
    by_cases hx : x.isFirst l = true
    · have hnew : x.slot ∉ (firsts l).map slot := by rwa [mem_slots_firsts, ← isFirst_iff]
      rw [if_pos hx, List.map_append, List.map_cons, List.map_nil, ← List.concat_eq_append]
      exact ih.concat hnew
    · rwa [if_neg hx, List.append_nil]

/-- The keys of one kind are those that are registered with it. -/
theorem mem_keys_iff {ρ : Type} {pick : Registration σ τ → Option (String × ρ)} {kind : Bool}
    (hpick : ∀ x key, (pick x).map Prod.fst = some key ↔ slot x = (kind, key)) {key : String} :
    key ∈ (l.filterMap pick).map Prod.fst ↔ (kind, key) ∈ l.map slot := by
  rw [List.map_filterMap]
  simp only [List.mem_filterMap, List.mem_map, hpick]

theorem mem_after_keys {key : String} :
    key ∈ (l.filterMap after?).map Prod.fst ↔ (true, key) ∈ l.map slot :=
  mem_keys_iff fun x key => by cases x <;> simp [after?, slot]

theorem mem_undo_keys {key : String} :
    key ∈ (l.filterMap undo?).map Prod.fst ↔ (false, key) ∈ l.map slot :=
  mem_keys_iff fun x key => by cases x <;> simp [undo?, slot]

/-- As many actions for a commit are first as there are keys of such actions. -/
theorem length_after_firsts : ((firsts l).filterMap after?).length =
    ((l.filterMap after?).map Prod.fst).toFinset.card := by
  have hkeys : (((firsts l).filterMap after?).map Prod.fst).Nodup := by
    have hfilter : ((firsts l).filterMap after?).map Prod.fst =
        ((firsts l).map slot).filterMap fun s => if s.1 then some s.2 else none := by
      rw [List.map_filterMap, List.filterMap_map]
      exact List.filterMap_congr fun x _ => by cases x <;> rfl
    rw [hfilter]
    refine nodup_slots_firsts.filterMap fun s t key hs ht => ?_
    obtain ⟨_ | _, _⟩ := s <;> obtain ⟨_ | _, _⟩ := t <;> simp_all
  rw [← List.length_map Prod.fst, ← List.toFinset_card_of_nodup hkeys]
  congr 1
  ext key
  rw [List.mem_toFinset, List.mem_toFinset, mem_after_keys, mem_after_keys, mem_slots_firsts]

end Registration

namespace Hooks

variable {α : Type} (h : Hooks α) (key : String) (action : α)

theorem has_iff : h.has key = true ↔ key ∈ h.list.map Prod.fst := by
  simp [has]

theorem register_kept : (h.register key action).1 = !h.has key := by
  unfold register
  cases h.has key <;> rfl

theorem register_list : (h.register key action).2.list =
    h.list ++ if h.has key then [] else [(key, action)] := by
  unfold register
  cases h.has key with
  | false => rfl
  | true => exact (List.append_nil _).symm

end Hooks

namespace Transaction

open Registration

/-- Registers an action; says whether it did. -/
def register (tx : Transaction σ τ) : Registration σ τ → Bool × Transaction σ τ
  | .after key action =>
    let (kept, after) := tx.after.register key action
    (kept, { tx with after })
  | .undo key action =>
    let (kept, undo) := tx.undo.register key action
    (kept, { tx with undo })

/-- Registers actions in order; says of each whether it did. -/
def registerAll (tx : Transaction σ τ) : List (Registration σ τ) → List Bool × Transaction σ τ
  | [] => ([], tx)
  | x :: rest =>
    let (kept, tx) := tx.register x
    let (answers, tx) := tx.registerAll rest
    (kept :: answers, tx)

theorem registerAll_concat (x : Registration σ τ) : ∀ (l : List (Registration σ τ))
    (tx : Transaction σ τ), tx.registerAll (l ++ [x]) =
      ((tx.registerAll l).1 ++ [((tx.registerAll l).2.register x).1],
        ((tx.registerAll l).2.register x).2)
  | [], _ => rfl
  | y :: rest, tx => by
    simp only [List.cons_append, registerAll, registerAll_concat x rest]

/-- What a transaction has to run at its end after these registrations. -/
structure Holds (tx : Transaction σ τ) (database : Database) (l : List (Registration σ τ)) :
    Prop where
  database : tx.database = database
  after : tx.after.list = (firsts l).filterMap after?
  undo : tx.undo.list = (firsts l).filterMap undo?

namespace Holds

variable {tx : Transaction σ τ} {database : Database} {l : List (Registration σ τ)}

theorem has_after_iff (h : tx.Holds database l) {key : String} :
    tx.after.has key = true ↔ (true, key) ∈ l.map slot := by
  rw [Hooks.has_iff, h.after, mem_after_keys, mem_slots_firsts]

theorem has_undo_iff (h : tx.Holds database l) {key : String} :
    tx.undo.has key = true ↔ (false, key) ∈ l.map slot := by
  rw [Hooks.has_iff, h.undo, mem_undo_keys, mem_slots_firsts]

/-- One more registration is kept exactly if it is the first of its kind and key. -/
theorem register (h : tx.Holds database l) (x : Registration σ τ) :
    (tx.register x).1 = x.isFirst l ∧ (tx.register x).2.Holds database (l ++ [x]) := by
  cases x with
  | after key action =>
    have hfirst : isFirst l (.after key action) = !tx.after.has key := by
      rw [Bool.eq_iff_iff, isFirst_iff, Bool.not_eq_true', Bool.eq_false_iff, ne_eq,
        h.has_after_iff]
      rfl
    refine ⟨(tx.after.register_kept key action).trans hfirst.symm, h.database, ?_, ?_⟩
    · refine (tx.after.register_list key action).trans ?_
      rw [firsts_concat, hfirst, h.after, List.filterMap_append]
      cases tx.after.has key <;> rfl
    · refine h.undo.trans ?_
      rw [firsts_concat, hfirst, List.filterMap_append]
      cases tx.after.has key <;> exact (List.append_nil _).symm
  | undo key action =>
    have hfirst : isFirst l (.undo key action) = !tx.undo.has key := by
      rw [Bool.eq_iff_iff, isFirst_iff, Bool.not_eq_true', Bool.eq_false_iff, ne_eq,
        h.has_undo_iff]
      rfl
    refine ⟨(tx.undo.register_kept key action).trans hfirst.symm, h.database, ?_, ?_⟩
    · refine h.after.trans ?_
      rw [firsts_concat, hfirst, List.filterMap_append]
      cases tx.undo.has key <;> exact (List.append_nil _).symm
    · refine (tx.undo.register_list key action).trans ?_
      rw [firsts_concat, hfirst, h.undo, List.filterMap_append]
      cases tx.undo.has key <;> rfl

end Holds

theorem registerAll_holds (database : Database) (l : List (Registration σ τ)) :
    (registerAll { database } l).1 = (marked l).map Prod.snd ∧
      (registerAll { database } l).2.Holds database l := by
  induction l using List.reverseRecOn with
  | nil => exact ⟨rfl, rfl, rfl, rfl⟩
  | append_singleton l x ih =>
    obtain ⟨hanswers, hholds⟩ := ih
    obtain ⟨hkept, hnext⟩ := hholds.register x
    rw [registerAll_concat, marked_concat, List.map_append]
    exact ⟨by rw [hanswers, hkept]; rfl, hnext⟩

/-- However actions are registered in a transaction, one counts if it is the first of its kind and
key. A commit runs those for it in order, a rollback those that undo from the last to the first, and
a transaction that is forgotten runs none. -/
theorem ends_with_firsts (before database : Database) (l : List (Registration σ τ)) :
    let (answers, tx) := registerAll { database } l
    answers = (marked l).map Prod.snd ∧
      tx.close before .commit =
        { database, after := ((firsts l).filterMap after?).map Prod.snd, undo := [] } ∧
      tx.close before .rollback =
        { database := before, after := [],
          undo := (((firsts l).filterMap undo?).map Prod.snd).reverse } ∧
      tx.close before .abandon = { database := before, after := [], undo := [] } ∧
      (∀ key, tx.undo.has key = true ↔ ∃ action, .undo key action ∈ l) ∧
      tx.after.size = ((l.filterMap after?).map Prod.fst).toFinset.card := by
  obtain ⟨hanswers, hholds⟩ := registerAll_holds database l
  refine ⟨hanswers, ?_, ?_, rfl, fun key => ?_, ?_⟩
  · rw [close, Hooks.actions, hholds.database, hholds.after]
  · rw [close, Hooks.actions, hholds.undo]
  · rw [hholds.has_undo_iff, ← mem_undo_keys]
    simp only [List.mem_map, List.mem_filterMap]
    constructor
    · rintro ⟨p, ⟨_ | ⟨key, action⟩, hx, hp⟩, rfl⟩ <;> cases hp
      exact ⟨action, hx⟩
    · rintro ⟨action, hx⟩
      exact ⟨_, ⟨_, hx, rfl⟩, rfl⟩
  · rw [Hooks.size, hholds.after, length_after_firsts]

/-- Actions of the two kinds may share a key, and those of one kind may not. -/
example :
    let (answers, tx) : List Bool × Transaction Nat Nat := registerAll { database := .empty }
      [.after "contacts" 1, .undo "contacts" 2, .after "contacts" 3, .undo "groups" 4]
    answers = [true, true, false, true] ∧ (tx.close .empty .commit).after = [1] ∧
      (tx.close .empty .rollback).undo = [4, 2] :=
  ⟨rfl, rfl, rfl⟩

end Transaction

end AccountSync
