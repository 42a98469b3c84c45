import AccountSync.Proofs.Store.Schema
import Mathlib.Data.List.Nodup
/-!
The dump table as a map. Whatever edits are made, alone or in transactions that commit or not, what
is read of an account is told by the edits that counted: its last upsert or removal, and the last
touch after that (`Database.reads_as_edited`).
-/

namespace AccountSync

/-- An edit of the dump table. -/
inductive DumpEdit where
  | upsert (d : Dump)
  | touch (account : String) (topic : Topic) (time : Int)
  | removeAll (account : String)
  deriving DecidableEq

/-- What is done to a database: one edit, or a transaction. -/
inductive DumpMove where
  | alone (e : DumpEdit)
  | together (edits : List DumpEdit) (close : Close)
  deriving DecidableEq

/-- What is held of each account and topic. -/
abbrev Holdings := String → Topic → Option RowData

namespace DumpEdit

/-- The account that an edit is about. -/
def account : DumpEdit → String
  | upsert d => d.account
  | touch account _ _ => account
  | removeAll account => account

def effect (h : Holdings) : DumpEdit → Holdings
  | upsert d => fun a t => if a = d.account ∧ t = d.topic then some ⟨d.data, d.time⟩ else h a t
  | touch account topic time => fun a t =>
    if a = account ∧ t = topic then (h a t).map ({ · with time }) else h a t
  | removeAll account => fun a t => if a = account then none else h a t

/-- How many rows an edit says it affected. -/
def affected (h : Holdings) : DumpEdit → Option Nat
  | upsert _ => none
  | touch account topic _ => some (if (h account topic).isSome then 1 else 0)
  | removeAll account => some (Topic.all.filter fun t => (h account t).isSome).length

/-- What an edit makes of a row whatever the row was before. -/
def sets? (account : String) (topic : Topic) : DumpEdit → Option (Option RowData)
  | upsert d => if account = d.account ∧ topic = d.topic then some (some ⟨d.data, d.time⟩) else none
  | touch _ _ _ => none
  | removeAll a => if account = a then some none else none

/-- The time that an edit gives a row. -/
def touches? (account : String) (topic : Topic) : DumpEdit → Option Int
  | touch a t time => if account = a ∧ topic = t then some time else none
  | _ => none

end DumpEdit

namespace Holdings

/-- What is held after edits. -/
def edited (h : Holdings) (edits : List DumpEdit) : Holdings := edits.foldl DumpEdit.effect h

/-- What edits say that they affected. -/
def counts (h : Holdings) : List DumpEdit → List (Option Nat)
  | [] => []
  | e :: rest => e.affected h :: counts (e.effect h) rest

variable {account : String} {topic : Topic}

theorem effect_of_sets {e : DumpEdit} {row : Option RowData} (he : e.sets? account topic = some row)
    (h : Holdings) : e.effect h account topic = row := by
  cases e <;> simp only [DumpEdit.sets?, Option.ite_none_right_eq_some, Option.some.injEq,
    reduceCtorEq] at he
  · obtain ⟨hkey, rfl⟩ := he
    exact if_pos hkey
  · obtain ⟨hkey, rfl⟩ := he
    exact if_pos hkey

theorem effect_of_not_sets {e : DumpEdit} (he : e.sets? account topic = none) (h : Holdings) :
    e.effect h account topic =
      (h account topic).map fun row =>
        { row with time := (e.touches? account topic).getD row.time } := by
  cases e with
  | upsert d =>
    have hkey : ¬(account = d.account ∧ topic = d.topic) := by simpa [DumpEdit.sets?] using he
    exact (if_neg hkey).trans Option.map_id'.symm
  | removeAll a =>
    have hkey : account ≠ a := by simpa [DumpEdit.sets?] using he
    exact (if_neg hkey).trans Option.map_id'.symm
  | touch a t time =>
    by_cases hkey : account = a ∧ topic = t
    · simp [DumpEdit.effect, DumpEdit.touches?, hkey]
    · simp [DumpEdit.effect, DumpEdit.touches?, hkey]

/-- Edits that neither upsert nor remove a row keep its data and leave the time of the last touch. -/
theorem edited_of_not_sets : ∀ {edits : List DumpEdit},
    (∀ e ∈ edits, e.sets? account topic = none) → ∀ h : Holdings,
      h.edited edits account topic = (h account topic).map fun row =>
        { row with time := (edits.filterMap (·.touches? account topic)).getLastD row.time }
  | [], _, h => Option.map_id'.symm
  | e :: rest, hsets, h => by
    obtain ⟨he, hrest⟩ := List.forall_mem_cons.1 hsets
    rw [edited, List.foldl_cons, ← edited, edited_of_not_sets hrest, effect_of_not_sets he,
      Option.map_map]
    congr 1
    funext row
    rw [Function.comp]
    cases htouch : e.touches? account topic with
    | none => rw [List.filterMap_cons_none htouch, Option.getD_none]
    | some time => rw [List.filterMap_cons_some htouch, List.getLastD_cons, Option.getD_some]

/-- The last edit that upserts or removes a row tells its data, and its time if no touch follows. -/
theorem edited_of_last_sets {before after : List DumpEdit} {e : DumpEdit} {row : Option RowData}
    (he : e.sets? account topic = some row) (hafter : ∀ e ∈ after, e.sets? account topic = none)
    (h : Holdings) :
    h.edited (before ++ e :: after) account topic = row.map fun row =>
      { row with time := (after.filterMap (·.touches? account topic)).getLastD row.time } := by
  rw [edited, List.foldl_append, List.foldl_cons, ← edited, edited_of_not_sets hafter,
    effect_of_sets he]

end Holdings

namespace DumpMove

/-- The edits of a move. -/
def edits : DumpMove → List DumpEdit
  | alone e => [e]
  | together edits _ => edits

/-- The edits of a move that count: those of a transaction do if it commits. -/
def effective : DumpMove → List DumpEdit
  | alone e => [e]
  | together edits .commit => edits
  | together _ _ => []

/-- What the edits of moves say that they affected. -/
def countsOf (h : Holdings) : List DumpMove → List (List (Option Nat))
  | [] => []
  | m :: rest => h.counts m.edits :: countsOf (h.edited m.effective) rest

end DumpMove

namespace Database

variable {db db' : Database} {account : String}

def edit (db : Database) : DumpEdit → Except Failure (Option Nat × Database)
  | .upsert d => (db.upsert d).map fun db => (none, db)
  | .touch account topic time => (db.touch topic account time).map fun (n, db) => (some n, db)
  | .removeAll account => (db.removeAll account).map fun (n, db) => (some n, db)

def editAll (db : Database) : List DumpEdit → Except Failure (List (Option Nat) × Database)
  | [] => .ok ([], db)
  | e :: rest => do
    let (n, db) ← db.edit e
    let (ns, db) ← db.editAll rest
    return (n :: ns, db)

def move (db : Database) : DumpMove → Except Failure (List (Option Nat) × Database)
  | .alone e => (db.edit e).map fun (n, db) => ([n], db)
  | .together edits close => do
    let tx : Transaction Empty Empty := { database := db }
    let (ns, tx) ← tx.onRows (·.editAll edits)
    return (ns, (tx.close db close).database)

def moveAll (db : Database) : List DumpMove → Except Failure (List (List (Option Nat)) × Database)
  | [] => .ok ([], db)
  | m :: rest => do
    let (ns, db) ← db.move m
    let (nss, db) ← db.moveAll rest
    return (ns :: nss, db)

/-- What the table holds in rows of topics. -/
def holdings (db : Database) : Holdings := fun account topic => db.rowAt? ⟨account, topic.tag⟩

/-- All that is read of an account shows that this is held, each topic in one row. -/
structure Shows (db : Database) (h : Holdings) (account : String) : Prop where
  fetch : ∀ topic, db.fetch topic account =
    .ok ((h account topic).map fun row => ⟨topic, account, row.data, row.time⟩)
  fetchAll : ∃ dumps, db.fetchAll account = .ok dumps ∧
    dumps.Pairwise (fun d e => compare d.topic.tag e.topic.tag = .lt) ∧
    ∀ d : Dump, d ∈ dumps ↔ d.account = account ∧ h account d.topic = some ⟨d.data, d.time⟩
  topicsOf : db.topicsOf account = .ok (Topic.all.filter fun topic => (h account topic).isSome)

theorem key_eq_iff {a a' : String} {t t' : Topic} :
    (⟨a, t.tag⟩ : RowKey) = ⟨a', t'.tag⟩ ↔ a = a' ∧ t = t' :=
  ⟨fun h => ⟨congrArg RowKey.account h, Topic.tag_inj (congrArg RowKey.tag h)⟩,
    fun h => by rw [h.1, h.2]⟩

namespace Migrated

theorem mem_rowsOf_iff {t : DumpTable} (ht : db.table = some t) (hchecked : t.Checked)
    {tag : String} {row : RowData} :
    (tag, row) ∈ rowsOf t account ↔
      ∃ topic : Topic, tag = topic.tag ∧ db.holdings account topic = some row := by
  rw [mem_rowsOf]
  constructor
  · intro hrow
    obtain ⟨topic, htag⟩ := hchecked.tags _ row hrow
    dsimp only at htag
    refine ⟨topic, htag, ?_⟩
    rwa [holdings, rowAt?_of_table ht, ← htag]
  · rintro ⟨topic, rfl, hrow⟩
    rwa [holdings, rowAt?_of_table ht] at hrow

/-- An account has as many rows as topics that are held. -/
theorem length_rowsOf {t : DumpTable} (ht : db.table = some t) (hchecked : t.Checked) :
    (rowsOf t account).length =
      (Topic.all.filter fun topic => (db.holdings account topic).isSome).length := by
  have htags : ((rowsOf t account).map Prod.fst).Nodup := (rowsByTag t account).nodup_keys
  have htopics :
      ((Topic.all.filter fun topic => (db.holdings account topic).isSome).map Topic.tag).Nodup :=
    (List.Nodup.filter _ (by decide : Topic.all.Nodup)).map fun _ _ => Topic.tag_inj
  suffices h : ((rowsOf t account).map Prod.fst).Perm
      ((Topic.all.filter fun topic => (db.holdings account topic).isSome).map Topic.tag) by
    have hlength := h.length_eq
    rwa [List.length_map, List.length_map] at hlength
  refine (List.perm_ext_iff_of_nodup htags htopics).2 fun tag => ?_
  simp only [List.mem_map, Prod.exists, exists_and_right, exists_eq_right,
    mem_rowsOf_iff ht hchecked, List.mem_filter, Option.isSome_iff_exists]
  constructor
  · rintro ⟨row, topic, htag, hrow⟩
    exact ⟨topic, ⟨topic.mem_all, row, hrow⟩, htag.symm⟩
  · rintro ⟨topic, ⟨-, row, hrow⟩, htag⟩
    exact ⟨row, topic, htag.symm, hrow⟩

theorem edit (h : db.Migrated) (e : DumpEdit) : ∃ db',
    db.edit e = .ok (e.affected db.holdings, db') ∧ db'.Migrated ∧
      db'.holdings = e.effect db.holdings := by
  obtain ⟨t, ht, hany, htimed, hchecked⟩ := h.timedTable
  have hdb := (timedTable_ok_iff.1 ht).1
  cases e with
  | upsert d =>
    obtain ⟨db', hup⟩ : ∃ db', db.upsert d = .ok db' := ⟨_, by rw [Database.upsert, ht]; rfl⟩
    refine ⟨db', by rw [Database.edit, hup]; rfl, h.upsert hup, ?_⟩
    funext a topic
    simp only [holdings, rowAt?_upsert hup, key_eq_iff]
    rfl
  | touch account topic time =>
    obtain ⟨db', htouch⟩ : ∃ db', db.touch topic account time =
        .ok (if (db.holdings account topic).isSome then 1 else 0, db') := by
      rw [Database.touch, ht, holdings, rowAt?_of_table hdb]
      dsimp only [bind, Except.bind]
      cases t.rows.find? ⟨account, topic.tag⟩ <;> exact ⟨_, rfl⟩
    refine ⟨db', by rw [Database.edit, htouch]; rfl, h.touch htouch, ?_⟩
    funext a topic'
    simp only [holdings, rowAt?_touch htouch, key_eq_iff]
    rfl
  | removeAll account =>
    obtain ⟨db', hremove⟩ : ∃ db', db.removeAll account = .ok ((rowsOf t account).length, db') :=
      ⟨_, by rw [Database.removeAll, hany]; rfl⟩
    refine ⟨db', ?_, h.removeAll hremove, ?_⟩
    · rw [Database.edit, hremove, length_rowsOf hdb hchecked]
      rfl
    · funext a topic
      exact rowAt?_removeAll hremove _

theorem editAll : ∀ {db : Database}, db.Migrated → ∀ edits, ∃ db',
    db.editAll edits = .ok (db.holdings.counts edits, db') ∧ db'.Migrated ∧
      db'.holdings = db.holdings.edited edits
  | db, h, [] => ⟨db, rfl, h, rfl⟩
  | db, h, e :: rest => by
    obtain ⟨db₁, hedit, h₁, hholdings₁⟩ := h.edit e
    obtain ⟨db', hall, h', hholdings⟩ := h₁.editAll rest
    rw [hholdings₁] at hall hholdings
    refine ⟨db', ?_, h', hholdings⟩
    rw [Database.editAll, hedit]
    dsimp only [bind, Except.bind]
    rw [hall]
    rfl

theorem move (h : db.Migrated) (m : DumpMove) : ∃ db',
    db.move m = .ok (db.holdings.counts m.edits, db') ∧ db'.Migrated ∧
      db'.holdings = db.holdings.edited m.effective := by
  cases m with
  | alone e =>
    obtain ⟨db', hedit, h', hholdings⟩ := h.edit e
    exact ⟨db', by rw [Database.move, hedit]; rfl, h', hholdings⟩
  | together edits close =>
    obtain ⟨db', hall, h', hholdings⟩ := h.editAll edits
    have hmove : db.move (.together edits close) = .ok (db.holdings.counts edits,
        (Transaction.close (σ := Empty) (τ := Empty) { database := db' } db close).database) := by
      rw [Database.move, Transaction.onRows]
      dsimp only [bind, Except.bind]
      rw [hall]
      rfl
    cases close with
    | commit => exact ⟨db', hmove, h', hholdings⟩
    | rollback => exact ⟨db, hmove, h, rfl⟩
    | abandon => exact ⟨db, hmove, h, rfl⟩

theorem moveAll : ∀ {db : Database}, db.Migrated → ∀ moves, ∃ db',
    db.moveAll moves = .ok (DumpMove.countsOf db.holdings moves, db') ∧ db'.Migrated ∧
      db'.holdings = db.holdings.edited (moves.flatMap DumpMove.effective)
  | db, h, [] => ⟨db, rfl, h, rfl⟩
  | db, h, m :: rest => by
    obtain ⟨db₁, hmove, h₁, hholdings₁⟩ := h.move m
    obtain ⟨db', hall, h', hholdings⟩ := h₁.moveAll rest
    rw [hholdings₁] at hall hholdings
    refine ⟨db', ?_, h', ?_⟩
    · rw [Database.moveAll, hmove]
      dsimp only [bind, Except.bind]
      rw [hall]
      rfl
    · rw [hholdings, List.flatMap_cons, Holdings.edited, Holdings.edited, Holdings.edited,
        List.foldl_append]

theorem shows (h : db.Migrated) (account : String) : db.Shows db.holdings account := by
  obtain ⟨t, ht, hany, htimed, hchecked⟩ := h.timedTable
  have hdb := (timedTable_ok_iff.1 ht).1
  obtain ⟨dumps, hdumps⟩ := exists_fetchAll_ok (h.fetches account)
  have hread : (rowsOf t account).mapM (dumpOf account) = .ok dumps :=
    (fetchAll_eq ht).symm.trans hdumps
  refine ⟨fun topic => ?_, ⟨dumps, hdumps, ?_, fun d => ?_⟩, ?_⟩
  · rw [Database.fetch, ht, holdings, rowAt?_of_table hdb]
    rfl
  · have htags : dumps.map (fun d => d.topic.tag) = (rowsOf t account).map Prod.fst :=
      map_of_mapM_ok (fun p d hd => (dumpOf_ok_iff.1 hd).1.symm) hread
    have hsorted : ((rowsOf t account).map Prod.fst).Pairwise fun a b => compare a b = .lt :=
      List.pairwise_map.2 (increasing_rowsOf t account)
    rw [← htags] at hsorted
    exact List.pairwise_map.1 hsorted
  · constructor
    · intro hd
      obtain ⟨⟨tag, row⟩, hmem, hof⟩ := (mem_of_mapM_ok hread).2 d hd
      obtain ⟨htag, hd⟩ := dumpOf_ok_iff.1 hof
      have hrow := mem_rowsOf.1 hmem
      rw [htag, ← rowAt?_of_table hdb] at hrow
      rw [hd]
      exact ⟨rfl, hrow⟩
    · rintro ⟨rfl, hrow⟩
      rw [holdings, rowAt?_of_table hdb] at hrow
      obtain ⟨d', hd', hof⟩ := (mem_of_mapM_ok hread).1 _ (mem_rowsOf.2 hrow)
      obtain ⟨htag, hd⟩ := dumpOf_ok_iff.1 hof
      obtain ⟨topic, account, data, time⟩ := d
      obtain rfl : topic = d'.topic := Topic.tag_inj htag
      rwa [hd] at hd'
  · have hok : ∀ p ∈ rowsOf t account, ∃ topic, topicOf p.1 = .ok topic := fun ⟨tag, row⟩ hmem => by
      obtain ⟨topic, htag, -⟩ := (mem_rowsOf_iff hdb hchecked).1 hmem
      exact ⟨topic, topicOf_ok_iff.2 htag⟩
    obtain ⟨topics, htopics⟩ := exists_mapM_ok hok
    rw [Database.topicsOf, hany]
    dsimp only [bind, Except.bind]
    rw [htopics]
    refine congrArg Except.ok (List.filter_congr fun topic _ => ?_)
    rw [Bool.eq_iff_iff, List.contains_iff_mem, Option.isSome_iff_exists]
    constructor
    · intro hmem
      obtain ⟨⟨tag, row⟩, hrow, hof⟩ := (mem_of_mapM_ok htopics).2 topic hmem
      obtain rfl : tag = topic.tag := topicOf_ok_iff.1 hof
      rw [mem_rowsOf, ← rowAt?_of_table hdb] at hrow
      exact ⟨row, hrow⟩
    · rintro ⟨row, hrow⟩
      have hmem := (mem_rowsOf_iff hdb hchecked).2 ⟨topic, rfl, hrow⟩
      obtain ⟨topic', hmem', hof⟩ := (mem_of_mapM_ok htopics).1 _ hmem
      rwa [Topic.tag_inj (topicOf_ok_iff.1 hof)]

end Migrated

/-! ### Databases of any schema -/

/-- Two databases that have the same rows of an account, and times or none. -/
structure Alike (db db' : Database) (account : String) : Prop where
  timed : db'.table.map (·.timed) = db.table.map (·.timed)
  rows : ∀ tag, db'.rowAt? ⟨account, tag⟩ = db.rowAt? ⟨account, tag⟩

namespace Alike

theorem refl (db : Database) (account : String) : Alike db db account := ⟨rfl, fun _ => rfl⟩

theorem trans {db₁ db₂ db₃ : Database} (h : Alike db₁ db₂ account) (h' : Alike db₂ db₃ account) :
    Alike db₁ db₃ account :=
  ⟨h'.timed.trans h.timed, fun tag => (h'.rows tag).trans (h.rows tag)⟩

/-- The same is read of the account. -/
theorem reads (h : Alike db db' account) :
    db'.fetchAll account = db.fetchAll account ∧
      (∀ topic, db'.fetch topic account = db.fetch topic account) ∧
      db'.topicsOf account = db.topicsOf account := by
  obtain ⟨htimed, hrows⟩ := h
  obtain ⟨_ | t, versions⟩ := db <;> obtain ⟨_ | t', versions'⟩ := db'
  · exact ⟨rfl, fun _ => rfl, rfl⟩
  · cases htimed
  · cases htimed
  · have htimed : t'.timed = t.timed := Option.some.inj htimed
    have hrows : ∀ tag, t'.rows.find? ⟨account, tag⟩ = t.rows.find? ⟨account, tag⟩ := hrows
    simp only [fetchAll, fetch, topicsOf, timedTable, anyTable, htimed, bind, Except.bind]
    cases t.timed <;> simp [pure, Except.pure, rowsOf_congr hrows, hrows]

end Alike

/-- An edit changes rows of its own account only. -/
theorem edit_ok {e : DumpEdit} {n : Option Nat} (h : db.edit e = .ok (n, db')) :
    ∃ t rows, db.table = some t ∧ db' = db.withRows t rows ∧
      ∀ k : RowKey, k.account ≠ e.account → rows.find? k = t.rows.find? k := by
  cases e with
  | upsert d =>
    cases ht : db.timedTable with
    | error f => rw [edit, upsert, ht] at h; cases h
    | ok t =>
      rw [edit, upsert, ht] at h
      cases h
      exact ⟨t, _, (timedTable_ok_iff.1 ht).1, rfl, fun k hk =>
        SortedMap.find?_insert_of_ne fun hkey => hk (congrArg RowKey.account hkey)⟩
  | touch account topic time =>
    cases ht : db.timedTable with
    | error f => rw [edit, touch, ht] at h; cases h
    | ok t =>
      have hdb := (timedTable_ok_iff.1 ht).1
      rw [edit, touch, ht] at h
      dsimp only [bind, Except.bind] at h
      cases hrow : t.rows.find? ⟨account, topic.tag⟩ with
      | none =>
        rw [hrow] at h
        cases h
        exact ⟨t, t.rows, hdb, by rw [withRows, ← hdb], fun k _ => rfl⟩
      | some row =>
        rw [hrow] at h
        cases h
        exact ⟨t, _, hdb, rfl, fun k hk =>
          SortedMap.find?_insert_of_ne fun hkey => hk (congrArg RowKey.account hkey)⟩
  | removeAll account =>
    cases ht : db.table with
    | none => rw [edit, removeAll, anyTable, ht] at h; cases h
    | some t =>
      rw [edit, removeAll, anyTable, ht] at h
      cases h
      refine ⟨t, _, rfl, rfl, fun k hk => ?_⟩
      exact (t.rows.find?_filter_key (fun k => k.account != account) k).trans
        (if_pos (bne_iff_ne.2 hk))

namespace Alike

theorem edit {e : DumpEdit} {n : Option Nat} (he : e.account ≠ account)
    (h : db.edit e = .ok (n, db')) : Alike db db' account := by
  obtain ⟨t, rows, ht, rfl, hrows⟩ := edit_ok h
  refine ⟨by rw [ht]; rfl, fun tag => ?_⟩
  rw [rowAt?_of_table ht, rowAt?_of_table rfl]
  exact hrows _ he.symm

theorem editAll : ∀ {edits : List DumpEdit} {db : Database} {ns : List (Option Nat)},
    (∀ e ∈ edits, e.account ≠ account) → db.editAll edits = .ok (ns, db') → Alike db db' account
  | [], _, _, _, h => by
    cases h
    exact .refl _ account
  | e :: rest, db, ns, hother, h => by
    obtain ⟨he, hrest⟩ := List.forall_mem_cons.1 hother
    rw [Database.editAll] at h
    obtain ⟨⟨n, db₁⟩, hedit, h⟩ := exists_of_bind_ok h
    obtain ⟨⟨ns', db₂⟩, hall, h⟩ := exists_of_bind_ok h
    cases h
    exact (Alike.edit he hedit).trans (editAll hrest hall)

theorem move {m : DumpMove} {ns : List (Option Nat)} (hother : ∀ e ∈ m.edits, e.account ≠ account)
    (h : db.move m = .ok (ns, db')) : Alike db db' account := by
  cases m with
  | alone e =>
    cases hedit : db.edit e with
    | error f => rw [Database.move, hedit] at h; cases h
    | ok p =>
      rw [Database.move, hedit] at h
      cases h
      exact .edit (hother e List.mem_cons_self) hedit
  | together edits close =>
    rw [Database.move, Transaction.onRows] at h
    obtain ⟨⟨ns', tx⟩, htx, h⟩ := exists_of_bind_ok h
    obtain ⟨⟨ns'', db₁⟩, hall, htx⟩ := exists_of_bind_ok htx
    cases htx
    cases h
    cases close with
    | commit => exact .editAll hother hall
    | rollback => exact .refl db account
    | abandon => exact .refl db account

theorem moveAll : ∀ {moves : List DumpMove} {db : Database} {nss : List (List (Option Nat))},
    (∀ m ∈ moves, ∀ e ∈ m.edits, e.account ≠ account) → db.moveAll moves = .ok (nss, db') →
      Alike db db' account
  | [], _, _, _, h => by
    cases h
    exact .refl _ account
  | m :: rest, db, nss, hother, h => by
    obtain ⟨hm, hrest⟩ := List.forall_mem_cons.1 hother
    rw [Database.moveAll] at h
    obtain ⟨⟨ns, db₁⟩, hmove, h⟩ := exists_of_bind_ok h
    obtain ⟨⟨nss', db₂⟩, hall, h⟩ := exists_of_bind_ok h
    cases h
    exact (Alike.move hm hmove).trans (moveAll hrest hall)

end Alike

/-! ### Foreign tags -/

/-- A row of the account has a tag that no topic has. -/
def Foreign (t : DumpTable) (account : String) : Prop :=
  ∃ tag row, t.rows.find? ⟨account, tag⟩ = some row ∧ Topic.ofTag? tag = none

theorem topicOf_error_iff {tag : String} :
    (∃ f, topicOf tag = .error f) ↔ Topic.ofTag? tag = none := by
  unfold topicOf
  cases Topic.ofTag? tag <;> simp

theorem exists_error_rowsOf {α : Type} {f : String × RowData → Except Failure α} {t : DumpTable}
    (hf : ∀ p, (∃ e, f p = .error e) ↔ ∃ e, topicOf p.1 = .error e) :
    (∃ e, (rowsOf t account).mapM f = .error e) ↔ Foreign t account := by
  constructor
  · rintro ⟨e, he⟩
    obtain ⟨⟨tag, row⟩, hmem, hfail⟩ := mem_of_mapM_error he
    exact ⟨tag, row, mem_rowsOf.1 hmem, topicOf_error_iff.1 ((hf _).1 ⟨e, hfail⟩)⟩
  · rintro ⟨tag, row, hrow, htag⟩
    obtain ⟨e, hfail⟩ := (hf (tag, row)).2 (topicOf_error_iff.2 htag)
    cases hl : (rowsOf t account).mapM f with
    | error e' => exact ⟨e', rfl⟩
    | ok bs =>
      obtain ⟨b, -, hb⟩ := (mem_of_mapM_ok hl).1 _ (mem_rowsOf.2 hrow)
      cases hfail.symm.trans hb

theorem topicsOf_fails_iff {t : DumpTable} (ht : db.table = some t) :
    (∃ f, db.topicsOf account = .error f) ↔ Foreign t account := by
  rw [← exists_error_rowsOf (f := fun p => topicOf p.1) fun p => Iff.rfl, topicsOf, anyTable, ht]
  dsimp only [bind, Except.bind]
  cases (rowsOf t account).mapM fun p => topicOf p.1 <;> simp [pure, Except.pure]

theorem fetchAll_fails_iff {t : DumpTable} (ht : db.table = some t) (htimed : t.timed = true) :
    (∃ f, db.fetchAll account = .error f) ↔ Foreign t account := by
  rw [fetchAll_eq (timedTable_ok_iff.2 ⟨ht, htimed⟩)]
  refine exists_error_rowsOf fun p => ?_
  rw [dumpOf]
  cases topicOf p.1 <;> simp [Except.map]

/-- After any edits of a migrated database, alone or in transactions, each topic of an account has at
most one row, and every reader shows what the edits that counted have left: the data of the last upsert
if no removal follows, with the time of the last touch after it. In any database a touch changes no
data, what is done about other accounts changes nothing that is read of an account, and its dumps and
topics cannot be read exactly if a row of its own has a tag that no topic has. -/
theorem reads_as_edited :
    (∀ db : Database, db.Migrated → ∀ moves : List DumpMove, ∃ db',
      let edits := moves.flatMap DumpMove.effective
      db.moveAll moves = .ok (DumpMove.countsOf db.holdings moves, db') ∧
        (∀ t ∈ db'.table, t.rows.keys.Nodup) ∧
        ∀ account, db'.Shows (db.holdings.edited edits) account ∧
          (∀ topic before e after row, edits = before ++ e :: after →
            e.sets? account topic = some row → (∀ e ∈ after, e.sets? account topic = none) →
            db'.fetch topic account = .ok (row.map fun row => ⟨topic, account, row.data,
              (after.filterMap (·.touches? account topic)).getLastD row.time⟩)) ∧
          ∀ topic, (∀ e ∈ edits, e.sets? account topic = none) →
            db'.fetch topic account = .ok ((db.holdings account topic).map fun row =>
              ⟨topic, account, row.data,
                (edits.filterMap (·.touches? account topic)).getLastD row.time⟩)) ∧
    (∀ (db : Database) topic account time n db', db.touch topic account time = .ok (n, db') →
      ∀ k, (db'.rowAt? k).map RowData.data = (db.rowAt? k).map RowData.data) ∧
    (∀ (db : Database) moves nss db' account, (∀ m ∈ moves, ∀ e ∈ m.edits, e.account ≠ account) →
      db.moveAll moves = .ok (nss, db') →
      db'.fetchAll account = db.fetchAll account ∧
        (∀ topic, db'.fetch topic account = db.fetch topic account) ∧
        db'.topicsOf account = db.topicsOf account) ∧
    ∀ (db : Database) t account, db.table = some t →
      ((∃ f, db.topicsOf account = .error f) ↔ Foreign t account) ∧
        (t.timed = true → ((∃ f, db.fetchAll account = .error f) ↔ Foreign t account)) := by
  refine ⟨fun db h moves => ?_, fun db topic account time n db' h k => ?_,
    fun db moves nss db' account hother h => (Alike.moveAll hother h).reads,
    fun db t account ht => ⟨topicsOf_fails_iff ht, fetchAll_fails_iff ht⟩⟩
  · obtain ⟨db', hmoves, h', hholdings⟩ := h.moveAll moves
    refine ⟨db', hmoves, fun t _ => t.rows.nodup_keys, fun account => ?_⟩
    have hshows := h'.shows account
    rw [hholdings] at hshows
    refine ⟨hshows, fun topic before e after row hsplit he hafter => ?_, fun topic hnone => ?_⟩
    · rw [hshows.fetch, hsplit, Holdings.edited_of_last_sets he hafter, Option.map_map]
      rfl
    · rw [hshows.fetch, Holdings.edited_of_not_sets hnone, Option.map_map]
      rfl
  · rw [rowAt?_touch h]
    split
    · rw [Option.map_map]
      rfl
    · rfl

/-- What a transaction that rolled back wrote is not read, a touch counts, and one account is removed
without the other. A tag that no topic has is in the way of its own account only. -/
theorem reads_as_edited_after_rollback :
    let moves : List DumpMove :=
      [.alone (.upsert ⟨.contacts, "05", [1], 5⟩),
        .together [.upsert ⟨.contacts, "05", [2], 6⟩, .removeAll "05"] .rollback,
        .together [.touch "05" .contacts 9, .upsert ⟨.userGroups, "06", [3], 7⟩] .commit,
        .alone (.removeAll "06")]
    let foreign : DumpTable :=
      { timed := true, checked := false, rows := SortedMap.insert ∅ ⟨"06", "other"⟩ ⟨[4], 8⟩ }
    (∃ db', migrated.moveAll moves =
        .ok ([[none], [none, some 1], [some 1, none], [some 1]], db') ∧
      db'.fetch .contacts "05" = .ok (some ⟨.contacts, "05", [1], 9⟩) ∧
      db'.fetch .userGroups "06" = .ok none) ∧
    (∃ f, fetchAll { table := some foreign } "06" = .error f) ∧
    ¬∃ f, fetchAll { table := some foreign } "05" = .error f := by
  intro moves foreign
  have hmigrated : migrated.Migrated := migrated_of_migrate_empty migrate_empty
  have hother : "05" ≠ "06" := by decide
  have hforeign : ∀ tag, foreign.rows.find? ⟨"05", tag⟩ = none := fun tag =>
    SortedMap.find?_insert_of_ne fun h => hother (congrArg RowKey.account h)
  have hrow : foreign.rows.find? ⟨"06", "other"⟩ = some ⟨[4], 8⟩ := SortedMap.find?_insert_self _ _ _
  refine ⟨?_, ?_, ?_⟩
  · obtain ⟨db', hmoves, -, hreads⟩ := reads_as_edited.1 migrated hmigrated moves
    refine ⟨db', ?_, ?_, ?_⟩
    · rw [hmoves]
      rfl
    · exact (hreads "05").2.1 .contacts [] (.upsert ⟨.contacts, "05", [1], 5⟩)
        [.touch "05" .contacts 9, .upsert ⟨.userGroups, "06", [3], 7⟩, .removeAll "06"] _ rfl rfl
        (by decide)
    · exact (hreads "06").2.1 .userGroups
        [.upsert ⟨.contacts, "05", [1], 5⟩, .touch "05" .contacts 9,
          .upsert ⟨.userGroups, "06", [3], 7⟩] (.removeAll "06") [] _ rfl rfl (by decide)
  · exact ((reads_as_edited.2.2.2 { table := some foreign } foreign "06" rfl).2 rfl).2
      ⟨"other", _, hrow, by decide⟩
  · rw [(reads_as_edited.2.2.2 { table := some foreign } foreign "05" rfl).2 rfl]
    rintro ⟨tag, row, htag, -⟩
    cases (hforeign tag).symm.trans htag

end Database

end AccountSync
