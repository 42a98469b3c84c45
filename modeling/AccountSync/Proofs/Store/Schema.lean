import AccountSync.Proofs.Store.Migrating
/-!
Databases of the present schema: their table lets in tags of topics only, so its rows can always be
fetched (`Database.Migrated.fetches`). Migrating leads there from every version
(`Database.Applied.migrated`), and each operation leaves it so.
-/

namespace AccountSync

/-- A table that the migrations have created: it has let in tags of topics only. -/
structure DumpTable.Checked (t : DumpTable) : Prop where
  checked : t.checked = true
  tags : ∀ key row, t.rows.find? key = some row → ∃ topic : Topic, key.tag = topic.tag

namespace DumpTable.Checked

variable {t : DumpTable}

theorem empty (timed : Bool) : Checked ⟨timed, true, ∅⟩ := ⟨rfl, fun key row hrow => by cases hrow⟩

theorem insert (h : t.Checked) (account : String) (topic : Topic) (row : RowData) :
    Checked { t with rows := t.rows.insert ⟨account, topic.tag⟩ row } where
  checked := h.checked
  tags key row' hrow := by
    by_cases hkey : key = ⟨account, topic.tag⟩
    · exact ⟨topic, by rw [hkey]⟩
    · exact h.tags key row' (by rwa [SortedMap.find?_insert_of_ne hkey] at hrow)

theorem filter (h : t.Checked) (p : RowKey → RowData → Bool) :
    Checked { t with rows := t.rows.filter p } where
  checked := h.checked
  tags key row hrow :=
    h.tags key row (SortedMap.mem_toList.1 (List.mem_filter.1 (SortedMap.mem_toList.2 hrow)).1)

end DumpTable.Checked

namespace Database

variable {db db' : Database} {t : DumpTable} {n : Nat}

/-- The dump table is of the present schema. -/
def Migrated (db : Database) : Prop := ∃ t, db.table = some t ∧ t.timed = true ∧ t.Checked

theorem migrated_of_migrate_empty (h : empty.migrate = (.ok (), db)) : db.Migrated := by
  obtain rfl : migrated = db := congrArg Prod.snd (migrate_empty.symm.trans h)
  exact ⟨_, rfl, rfl, .empty true⟩

/-- Migrating a database of any version whose rows have tags of topics brings it there. -/
theorem Applied.migrated (h : db.Applied n)
    (htags : ∀ key row, db.rowAt? key = some row → ∃ topic : Topic, key.tag = topic.tag) :
    ∃ db', db.migrate = (.ok (), db') ∧ db'.Migrated := by
  obtain ⟨rows, hmigrate, hrows⟩ := h.migrate
  have hchecked : DumpTable.Checked ⟨true, true, rows⟩ := ⟨rfl, fun key row hrow => by
    rw [hrows key] at hrow
    obtain ⟨row', hrow', -⟩ := Option.map_eq_some_iff.1 hrow
    exact htags key row' hrow'⟩
  exact ⟨_, hmigrate, _, rfl, rfl, hchecked⟩

namespace Migrated

theorem timedTable (h : db.Migrated) :
    ∃ t, db.timedTable = .ok t ∧ db.anyTable = .ok t ∧ t.timed = true ∧ t.Checked := by
  obtain ⟨t, ht, htimed, hchecked⟩ := h
  exact ⟨t, timedTable_ok_iff.2 ⟨ht, htimed⟩, by rw [anyTable, ht], htimed, hchecked⟩

/-- All rows of an account can be fetched. -/
theorem fetches (h : db.Migrated) (account : String) : db.Fetches account := by
  obtain ⟨t, ht, htimed, hchecked⟩ := h
  exact ⟨t, ht, htimed, fun tag row hrow => hchecked.tags _ row hrow⟩

/-! No row that is written makes the table one that cannot be fetched. -/

theorem upsert (h : db.Migrated) {d : Dump} (hdb : db.upsert d = .ok db') : db'.Migrated := by
  obtain ⟨t, ht, -, htimed, hchecked⟩ := h.timedTable
  rw [Database.upsert, ht] at hdb
  obtain rfl := Except.ok.inj hdb
  exact ⟨_, rfl, htimed, hchecked.insert d.account d.topic _⟩

theorem touch (h : db.Migrated) {topic : Topic} {account : String} {time : Int}
    (hdb : db.touch topic account time = .ok (n, db')) : db'.Migrated := by
  obtain ⟨t, ht, -, htimed, hchecked⟩ := h.timedTable
  rw [Database.touch, ht] at hdb
  dsimp only [bind, Except.bind] at hdb
  split at hdb
  · obtain ⟨-, rfl⟩ := Prod.mk.inj (Except.ok.inj hdb)
    exact h
  · obtain ⟨-, rfl⟩ := Prod.mk.inj (Except.ok.inj hdb)
    exact ⟨_, rfl, htimed, hchecked.insert account topic _⟩

theorem removeAll (h : db.Migrated) {account : String}
    (hdb : db.removeAll account = .ok (n, db')) : db'.Migrated := by
  obtain ⟨t, -, ht, htimed, hchecked⟩ := h.timedTable
  rw [Database.removeAll, ht] at hdb
  obtain ⟨-, rfl⟩ := Prod.mk.inj (Except.ok.inj hdb)
  exact ⟨_, rfl, htimed, hchecked.filter _⟩

theorem insertRow (h : db.Migrated) {key : RowKey} {data : Bytes}
    (hdb : db.insertRow key data = .ok (n, db')) : db'.Migrated := by
  obtain ⟨t, -, ht, htimed, hchecked⟩ := h.timedTable
  rw [Database.insertRow, ht] at hdb
  dsimp only [bind, Except.bind] at hdb
  split at hdb
  · cases hdb
  · rename_i hcheck
    split at hdb
    · cases hdb
    · obtain ⟨-, rfl⟩ := Prod.mk.inj (Except.ok.inj hdb)
      obtain ⟨topic, htopic⟩ : ∃ topic, Topic.ofTag? key.tag = some topic :=
        Option.ne_none_iff_exists'.1 (by simpa [hchecked.checked] using hcheck)
      have htag : topic.tag = key.tag := by
        simpa using List.find?_some (p := fun t : Topic => t.tag == key.tag) htopic
      have hinsert := hchecked.insert key.account topic ⟨data, 0⟩
      rw [htag] at hinsert
      exact ⟨_, rfl, htimed, hinsert⟩

end Migrated

end Database

end AccountSync
