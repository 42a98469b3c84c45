import AccountSync.Proofs.Store.Rows
import AccountSync.Store.Migration
/-!
What migrations do to a database. A migration that fails leaves nothing behind, however many of its
statements were executed before (`Database.apply_of_error`), so a run that fails ends where the
migrations before it have led (`Database.run_error`). From every version of the schema a database is
brought to the present one with all of its rows, and whatever goes wrong on the way, no row is changed
(`Database.migrate_keeps_rows`).
-/

namespace AccountSync

/-- The table with a column of times, in which its rows have time 0. -/
def DumpTable.withTimes (t : DumpTable) : DumpTable :=
  { t with timed := true, rows := t.rows.mapValues fun row => { row with time := 0 } }

namespace Database

variable {db db' : Database} {f : Failure} {m : Migration} {l : List Migration}
  {outages : Outages}

/-! ### Transactions of migrations -/

/-- A migration that fails leaves the database as it was, whatever statements were executed before. -/
theorem apply_of_error (h : db.apply m outages = (.error f, db')) : db' = db := by
  unfold apply at h
  cases hexec : db.execute m.statements (outages m.version) with
  | mk result inside =>
    rw [hexec] at h
    cases result with
    | ok _ => cases h
    | error _ => exact (congrArg Prod.snd h).symm

theorem apply_of_ok (h : db.execute m.statements = (.ok (), db')) :
    db.apply m = (.ok (), db') := by
  rw [apply, h]
  rfl

/-- Statements that all succeed meet with no outage. -/
theorem execute_of_ok : ∀ {statements : List Statement} {db : Database}
    {outage : Nat → Option Failure}, db.execute statements outage = (.ok (), db') →
      db.execute statements = (.ok (), db')
  | [], _, _, h => h
  | s :: rest, db, outage, h => by
    rw [execute] at h ⊢
    cases hout : outage 0 with
    | some f => simp [hout] at h
    | none =>
      cases hs : s db with
      | error f => simp [hout, hs] at h
      | ok db₁ =>
        rw [hout, hs] at h
        exact execute_of_ok h

theorem apply_ok_of_outages (h : db.apply m outages = (.ok (), db')) :
    db.apply m = (.ok (), db') := by
  unfold apply at h
  cases hexec : db.execute m.statements (outages m.version) with
  | mk result inside =>
    rw [hexec] at h
    cases result with
    | error _ => cases h
    | ok _ =>
      obtain rfl : inside = db' := congrArg Prod.snd h
      exact apply_of_ok (execute_of_ok hexec)

theorem execute_cons_ok {s : Statement} {db₁ : Database} (h : s db = .ok db₁)
    (rest : List Statement) : db.execute (s :: rest) = db₁.execute rest := by
  rw [execute, h]

/-- A run that fails was stopped by one migration, and ends where those before it have led. -/
theorem run_error (h : db.run l outages = (.error f, db')) : ∃ done m rest,
    l = done ++ m :: rest ∧ db.run done = (.ok (), db') ∧
      db'.apply m outages = (.error f, db') := by
  induction l generalizing db with
  | nil => cases h
  | cons m rest ih =>
    rw [run] at h
    cases happly : db.apply m outages with
    | mk result next =>
      rw [happly] at h
      cases result with
      | error _ =>
        obtain rfl := apply_of_error happly
        cases h
        exact ⟨[], m, rest, rfl, rfl, happly⟩
      | ok _ =>
        obtain ⟨done, m', rest', rfl, hdone, hfail⟩ := ih h
        refine ⟨m :: done, m', rest', rfl, ?_, hfail⟩
        rw [run, apply_ok_of_outages happly]
        exact hdone

/-! ### What each migration does -/

/-- The versions that are recorded. -/
def recorded (db : Database) : List Int := db.versions.getD []

theorem record_ok (db : Database) {version : Int} (h : version ∉ db.recorded) :
    Migration.record version db =
      .ok { db with versions := some (db.recorded ++ [version]) } :=
  if_neg (by simpa [recorded] using h)

/-- The first migration makes a table if there is none. -/
theorem apply_initial (h : 1 ∉ db.recorded) : db.apply Migration.initial =
    (.ok (), { table := some (db.table.getD ⟨false, true, ∅⟩),
               versions := some (db.recorded ++ [1]) }) := by
  have htable : Migration.createTable db =
      .ok { db with table := some (db.table.getD ⟨false, true, ∅⟩) } := by
    obtain ⟨_ | _, _⟩ := db <;> rfl
  have hrecord := record_ok { db with table := some (db.table.getD ⟨false, true, ∅⟩) } h
  exact apply_of_ok ((execute_cons_ok htable _).trans
    ((execute_cons_ok rfl _).trans (execute_cons_ok hrecord _)))

/-- The second gives the rows of a table without times the time 0. -/
theorem apply_times {t : DumpTable} (ht : db.table = some t) (htimed : t.timed = false)
    (h : 2 ∉ db.recorded) : db.apply Migration.times =
      (.ok (), { table := some t.withTimes, versions := some (db.recorded ++ [2]) }) := by
  have hadd : Migration.addTime db = .ok { db with table := some t.withTimes } := by
    rw [Migration.addTime, anyTable, ht]
    exact if_neg (by simp [htimed])
  have hrecord := record_ok { db with table := some t.withTimes } h
  exact apply_of_ok ((execute_cons_ok hadd _).trans (execute_cons_ok hrecord _))

/-! ### Versions -/

/-- Asking for the version changes nothing but that there is a list of versions. -/
theorem version_snd (db : Database) : db.version.2 = { db with versions := some db.recorded } := by
  unfold version
  dsimp only
  split
  · rfl
  · split <;> rfl

/-- A version above the present one is not recorded. -/
theorem notMem_recorded {v n : Int} (h : db.version.1 = .ok v) (hv : v < n) : n ∉ db.recorded := by
  intro hmem
  unfold version at h
  dsimp only at h
  split at h
  · rename_i hnone
    rw [recorded, List.max?_eq_none_iff.1 hnone] at hmem
    cases hmem
  · rename_i w hmax
    have hle : n ≤ w := (List.max?_eq_some_iff.1 hmax).2 n hmem
    split at h
    · cases h
      omega
    · cases h

/-- Only a list that is there can be unreadable. -/
theorem version_error (h : db.version.1 = .error f) : db.version.2 = db := by
  rw [version_snd]
  unfold version at h
  dsimp only at h
  obtain ⟨table, _ | versions⟩ := db
  · cases h
  · rfl

/-- Migrating runs the migrations above the version. -/
theorem migrate_of_version {v : Int} (h : db.version.1 = .ok v) : db.migrate outages =
    db.version.2.run (Migration.all.filter fun m => v < m.version) outages := by
  unfold migrate
  cases hv : db.version with
  | mk result next =>
    rw [hv] at h
    obtain rfl : result = .ok v := h
    rfl

theorem migrate_of_error (h : db.version.1 = .error f) :
    db.migrate outages = (.error f, db) := by
  have hsame := version_error h
  unfold migrate
  cases hv : db.version with
  | mk result next =>
    rw [hv] at h hsame
    obtain rfl : result = .error f := h
    obtain rfl : next = db := hsame
    rfl

/-! ### From one version to the next -/

/-- The columns of the dump table, and whether it is checked. -/
def schema (db : Database) : Option (Bool × Bool) := db.table.map fun t => (t.timed, t.checked)

/-- A database to which the first `n` migrations were applied, whatever rows it has. -/
structure Applied (n : Nat) (db : Database) : Prop where
  recorded : db.recorded = (Migration.all.take n).map Migration.version
  schema : db.schema = (empty.run (Migration.all.take n)).2.schema

/-- A database of the present schema is left alone. -/
theorem present (rows : SortedMap RowKey RowData) :
    let db : Database := { table := some ⟨true, true, rows⟩, versions := some [1, 2] }
    db.version = (.ok Migration.current, db) ∧ db.Applied Migration.all.length ∧
      db.migrate = (.ok (), db) :=
  ⟨rfl, ⟨rfl, rfl⟩, rfl⟩

theorem run_cons_ok {db₁ : Database} (h : db.apply m = (.ok (), db₁)) (rest : List Migration) :
    db.run (m :: rest) = db₁.run rest := by
  rw [run, h]

/-- The second migration brings a table without times to the present schema. -/
theorem run_times (rows : SortedMap RowKey RowData) :
    run { table := some ⟨false, true, rows⟩, versions := some [1] } [Migration.times] =
      (.ok (), { table := some (DumpTable.withTimes ⟨false, true, rows⟩),
                 versions := some [1, 2] }) := by
  have hnew : 2 ∉ recorded { table := some ⟨false, true, rows⟩, versions := some [1] } :=
    (by decide : (2 : Int) ∉ [1])
  exact run_cons_ok (apply_times rfl rfl hnew) []

theorem version_of_recorded {l : List Int} (h : db.recorded = l) :
    db.version = (version { table := db.table, versions := some l }) := by
  subst h
  rfl

/-- Whichever migrations were applied before, the others bring the database to the present schema and
keep its rows; those that had no time get time 0. -/
theorem Applied.migrate {n : Nat} (h : db.Applied n) : ∃ rows, db.migrate =
    (.ok (), { table := some ⟨true, true, rows⟩, versions := some [1, 2] }) ∧
      ∀ k, rows.find? k =
        (db.rowAt? k).map fun row => { row with time := if n < 2 then 0 else row.time } := by
  obtain ⟨table, versions⟩ := db
  obtain ⟨hrecorded, hschema⟩ := h
  match n with
  | 0 =>
    obtain rfl : table = none := by
      cases table with
      | none => rfl
      | some t => cases hschema
    refine ⟨∅, ?_, fun k => rfl⟩
    rw [migrate, version_of_recorded hrecorded]
    exact (run_cons_ok (apply_initial List.not_mem_nil) _).trans (run_times ∅)
  | 1 =>
    cases table with
    | none => cases hschema
    | some t =>
      obtain ⟨timed, checked, rows⟩ := t
      cases hschema
      refine ⟨_, ?_, fun k => (rows.find?_mapValues _ k).trans rfl⟩
      rw [migrate, version_of_recorded hrecorded]
      exact run_times rows
  | n + 2 =>
    have htake : Migration.all.take (n + 2) = Migration.all :=
      List.take_of_length_le (Nat.le_add_left 2 n)
    rw [htake] at hrecorded hschema
    cases table with
    | none => cases hschema
    | some t =>
      obtain ⟨timed, checked, rows⟩ := t
      cases hschema
      refine ⟨rows, ?_, fun k => ?_⟩
      · rw [migrate, version_of_recorded hrecorded]
        rfl
      · have hlater : ¬ n + 2 < 2 := by omega
        simp [rowAt?, hlater]

/-! ### Runs that fail -/

/-- Nothing comes after the second migration, so at most the first was run before one that fails. -/
theorem done_of_split {v : Int} {done rest : List Migration}
    (h : (Migration.all.filter fun m => v < m.version) = done ++ m :: rest) :
    done = [] ∨ done = [Migration.initial] ∧ v < 1 := by
  have hlength : done.length + (rest.length + 1) =
      (Migration.all.filter fun m => v < m.version).length := by
    rw [h, List.length_append, List.length_cons]
  by_cases hv : v < 1
  · have hall : (Migration.all.filter fun m => v < m.version) = Migration.all :=
      List.filter_eq_self.2 fun m hm => decide_eq_true <| by
        simp only [Migration.all, List.mem_cons, List.not_mem_nil, or_false] at hm
        rcases hm with rfl | rfl
        · exact hv
        · exact Int.lt_trans hv (by decide)
    rw [hall] at h hlength
    rcases done with _ | ⟨first, _ | ⟨second, done⟩⟩
    · exact .inl rfl
    · exact .inr ⟨congrArg (List.take 1) h.symm, hv⟩
    · simp [Migration.all] at hlength
      omega
  · have hdrop : (Migration.all.filter fun m => v < m.version) =
        [Migration.times].filter fun m => v < m.version :=
      List.filter_cons_of_neg fun hd => hv (of_decide_eq_true hd)
    have hone := List.length_filter_le (fun m : Migration => decide (v < m.version)) [Migration.times]
    rw [← hdrop, List.length_singleton] at hone
    exact .inl (List.length_eq_zero_iff.1 (by omega))

/-- A run that fails changes no row. What it was stopped by leaves nothing behind; what was run before
that is recorded. -/
theorem migrate_error {v : Int} (hv : db.version.1 = .ok v)
    (h : db.migrate outages = (.error f, db')) :
    ∃ done m rest, (Migration.all.filter fun m => v < m.version) = done ++ m :: rest ∧
      db.version.2.run done = (.ok (), db') ∧ db'.apply m outages = (.error f, db') ∧
      db'.versions = some (db.recorded ++ done.map Migration.version) ∧
      ∀ k, db'.rowAt? k = db.rowAt? k := by
  rw [migrate_of_version hv] at h
  obtain ⟨done, m, rest, hsplit, hdone, hfail⟩ := run_error h
  refine ⟨done, m, rest, hsplit, hdone, hfail, ?_⟩
  rw [version_snd] at hdone
  rcases done_of_split hsplit with rfl | ⟨rfl, hlt⟩
  · cases hdone
    exact ⟨by simp, fun k => rfl⟩
  · have hnew : 1 ∉ recorded { table := db.table, versions := some db.recorded } :=
      notMem_recorded hv hlt
    rw [run_cons_ok (apply_initial hnew)] at hdone
    cases hdone
    refine ⟨rfl, fun k => ?_⟩
    obtain ⟨_ | _, _⟩ := db <;> rfl

/-- A database to which any number of the migrations were applied is brought to the present schema and
keeps every row: those of the first version get time 0, those of the second keep theirs. To migrate it
again changes nothing. Where migrating a database fails, for whatever reason and at whatever statement,
no row is changed; the migrations before the one that failed were applied and recorded, and that one
left nothing behind. -/
theorem migrate_keeps_rows :
    (∀ n (db : Database), db.Applied n → ∃ db', db.migrate = (.ok (), db') ∧
      db'.version = (.ok Migration.current, db') ∧ db'.Applied Migration.all.length ∧
      (∀ k, db'.rowAt? k =
        (db.rowAt? k).map fun row => { row with time := if n < 2 then 0 else row.time }) ∧
      db'.migrate = (.ok (), db')) ∧
    ∀ (db : Database) (outages : Outages) f db', db.migrate outages = (.error f, db') →
      (∀ k, db'.rowAt? k = db.rowAt? k) ∧
      (db.version.1 = .error f ∧ db' = db ∨
        ∃ v done m rest, db.version.1 = .ok v ∧
          (Migration.all.filter fun m => v < m.version) = done ++ m :: rest ∧
          db.version.2.run done = (.ok (), db') ∧ db'.apply m outages = (.error f, db') ∧
          db'.versions = some (db.recorded ++ done.map Migration.version)) := by
  refine ⟨fun n db h => ?_, fun db outages f db' h => ?_⟩
  · obtain ⟨rows, hmigrate, hrows⟩ := h.migrate
    obtain ⟨hversion, hpresent, hagain⟩ := present rows
    exact ⟨_, hmigrate, hversion, hpresent, hrows, hagain⟩
  · cases hv : db.version.1 with
    | error f' =>
      rw [migrate_of_error hv] at h
      cases h
      exact ⟨fun k => rfl, .inl ⟨rfl, rfl⟩⟩
    | ok v =>
      obtain ⟨done, m, rest, hsplit, hdone, hfail, hversions, hrows⟩ := migrate_error hv h
      exact ⟨hrows, .inr ⟨v, done, m, rest, rfl, hsplit, hdone, hfail, hversions⟩⟩

/-- Rows of the first version get time 0. If the second migration adds the times and then cannot be
recorded, the table has none afterwards; and in a table that has times without a record of it, it fails
after the first was recorded. -/
theorem migrate_keeps_rows_second_fails :
    let rows : SortedMap RowKey RowData := SortedMap.insert ∅ ⟨"05", "contacts"⟩ ⟨[1, 2], 7⟩
    let first : Database := { table := some ⟨false, true, rows⟩, versions := some [1] }
    let unrecorded : Database := { table := some ⟨true, true, rows⟩ }
    let full : Outages := fun version n =>
      if version = 2 ∧ n = 1 then some (.storage "database or disk is full") else none
    (first.migrate.1 = .ok () ∧
      first.migrate.2.rowAt? ⟨"05", "contacts"⟩ = some ⟨[1, 2], 0⟩) ∧
    ((first.execute Migration.times.statements (full 2)).2.schema = some (true, true) ∧
      first.migrate full = (.error (.storage "database or disk is full"), first)) ∧
    unrecorded.migrate.1 = .error (.storage "duplicate column name: timestamp_ms") ∧
      unrecorded.migrate.2.versions = some [1] ∧
      unrecorded.migrate.2.rowAt? ⟨"05", "contacts"⟩ = some ⟨[1, 2], 7⟩ := by
  intro rows first unrecorded full
  have happlied : first.Applied 1 := ⟨rfl, rfl⟩
  obtain ⟨db', hmigrate, -, -, hrows, -⟩ := migrate_keeps_rows.1 1 first happlied
  have hfails : unrecorded.migrate =
      (.error (.storage "duplicate column name: timestamp_ms"), unrecorded.migrate.2) := rfl
  have hfull : first.migrate full =
      (.error (.storage "database or disk is full"), (first.migrate full).2) := rfl
  refine ⟨⟨congrArg Prod.fst hmigrate, ?_⟩, ⟨rfl, ?_⟩, rfl, rfl, ?_⟩
  · rw [hmigrate]
    exact hrows _
  · -- The version was known, and nothing was done before the migration that failed.
    obtain ⟨-, ⟨hversion, -⟩ | ⟨v, done, m, rest, hv, hsplit, hdone, -⟩⟩ :=
      migrate_keeps_rows.2 _ _ _ _ hfull
    · cases hversion
    · obtain rfl : 1 = v := Except.ok.inj hv
      have hempty : done = [] := by
        rcases done_of_split hsplit with hempty | ⟨-, hlt⟩
        · exact hempty
        · exact absurd hlt (by decide)
      rw [hempty] at hdone
      rw [hfull, ← congrArg Prod.snd hdone]
      rfl
  · exact (migrate_keeps_rows.2 _ _ _ _ hfails).1 _

end Database

end AccountSync
